import Mathlib.Data.List.Perm.Basic
import Mathlib.Algebra.Order.Ring.Int

/-! # Sorting by a comparison function

A comparison function returns a number whose sign tells the order of its arguments, as for the
`qsort` of C.  A sorting function has to sort only where the comparison is a total preorder on
the elements that are compared; what it does elsewhere is left open. -/

namespace Hilti.Lib
set_option autoImplicit false

variable {α : Type}

/-- The comparison is a total preorder on the elements of `l`. -/
structure Consistent (cmp : α → α → ℤ) (l : List α) : Prop where
  swap : ∀ a ∈ l, ∀ b ∈ l, cmp a b < 0 ↔ 0 < cmp b a
  trans : ∀ a ∈ l, ∀ b ∈ l, ∀ c ∈ l, cmp a b ≤ 0 → cmp b c ≤ 0 → cmp a c ≤ 0

/-- The list `l'` is `l` in ascending order. -/
structure SortedOf (cmp : α → α → ℤ) (l l' : List α) : Prop where
  perm : l'.Perm l
  ordered : l'.Pairwise fun a b => cmp a b ≤ 0

/-- What is promised of a sorting function. -/
def IsSort (sort : (α → α → ℤ) → List α → List α) : Prop :=
  ∀ cmp l, Consistent cmp l → SortedOf cmp l (sort cmp l)

/-! ## Insertion sort -/

def insertBy (cmp : α → α → ℤ) (a : α) : List α → List α
  | [] => [a]
  | b :: l => if cmp a b ≤ 0 then a :: b :: l else b :: insertBy cmp a l

def sortBy (cmp : α → α → ℤ) (l : List α) : List α :=
  l.foldr (insertBy cmp) []

theorem insertBy_perm (cmp : α → α → ℤ) (a : α) (l : List α) :
    (insertBy cmp a l).Perm (a :: l) := by
  induction l with
  | nil => exact List.Perm.refl _
  | cons b l ih =>
    rw [insertBy]
    split
    · exact List.Perm.refl _
    · exact (ih.cons b).trans (List.Perm.swap a b l)

theorem sortBy_perm (cmp : α → α → ℤ) (l : List α) : (sortBy cmp l).Perm l := by
  induction l with
  | nil => exact List.Perm.refl _
  | cons a l ih => exact (insertBy_perm cmp a _).trans (ih.cons a)

namespace Consistent

variable {cmp : α → α → ℤ} {l : List α}

theorem subset {l' : List α} (h : Consistent cmp l) (hsub : ∀ a ∈ l', a ∈ l) :
    Consistent cmp l' where
  swap a ha b hb := h.swap a (hsub a ha) b (hsub b hb)
  trans a ha b hb c hc := h.trans a (hsub a ha) b (hsub b hb) c (hsub c hc)

theorem le_of_not_le (h : Consistent cmp l) {a b : α} (ha : a ∈ l) (hb : b ∈ l)
    (hab : ¬ cmp a b ≤ 0) : cmp b a ≤ 0 :=
  le_of_lt ((h.swap b hb a ha).mpr (not_le.mp hab))

theorem eq_zero (h : Consistent cmp l) {a b : α} (ha : a ∈ l) (hb : b ∈ l)
    (hab : cmp a b = 0) : cmp b a = 0 := by
  have h₁ := h.swap a ha b hb
  have h₂ := h.swap b hb a ha
  omega

theorem insertBy_ordered {a : α} (h : Consistent cmp (a :: l))
    (hl : l.Pairwise fun a b => cmp a b ≤ 0) :
    (insertBy cmp a l).Pairwise fun a b => cmp a b ≤ 0 := by
  induction l with
  | nil => exact List.pairwise_singleton _ _
  | cons b l ih =>
    obtain ⟨hb, hl⟩ := List.pairwise_cons.mp hl
    have hmem : ∀ c ∈ l, c ∈ a :: b :: l := fun c hc => by simp [hc]
    rw [insertBy]
    split
    case isTrue hab =>
      refine List.pairwise_cons.mpr ⟨fun c hc => ?_, List.pairwise_cons.mpr ⟨hb, hl⟩⟩
      rcases List.mem_cons.mp hc with rfl | hc
      · exact hab
      · exact h.trans a (by simp) b (by simp) c (hmem c hc) hab (hb c hc)
    case isFalse hab =>
      have hba : cmp b a ≤ 0 := h.le_of_not_le (by simp) (by simp) hab
      refine List.pairwise_cons.mpr ⟨fun c hc => ?_, ih (h.subset fun c hc => ?_) hl⟩
      · rcases List.mem_cons.mp ((insertBy_perm cmp a l).mem_iff.mp hc) with rfl | hc
        · exact hba
        · exact hb c hc
      · rcases List.mem_cons.mp hc with rfl | hc
        · simp
        · exact hmem c hc

end Consistent

theorem sortBy_isSort : IsSort (@sortBy α) := by
  intro cmp l h
  refine ⟨sortBy_perm cmp l, ?_⟩
  induction l with
  | nil => exact List.Pairwise.nil
  | cons a l ih =>
    have hsub : ∀ b ∈ a :: sortBy cmp l, b ∈ a :: l := by
      intro b hb
      rcases List.mem_cons.mp hb with rfl | hb
      · simp
      · exact List.mem_cons_of_mem a ((sortBy_perm cmp l).mem_iff.mp hb)
    exact (h.subset hsub).insertBy_ordered (ih (h.subset fun b hb => List.mem_cons_of_mem a hb))

theorem IsSort.exists_eq {sort : (α → α → ℤ) → List α → List α} (hsort : IsSort sort)
    {cmp : α → α → ℤ} {l l' : List α} (hl' : Consistent cmp l → SortedOf cmp l l') :
    ∃ sort', IsSort sort' ∧ sort' cmp l = l' := by
  classical
  refine ⟨fun c m => if c = cmp ∧ m = l then l' else sort c m, fun c m h => ?_, by simp⟩
  by_cases hcm : c = cmp ∧ m = l
  · obtain ⟨rfl, rfl⟩ := hcm
    simpa using hl' h
  · simpa [hcm] using hsort c m h

/-! ## Ties -/

/-- The comparison that puts the elements with `p` first where `cmp` leaves it open. -/
def preferring (p : α → Bool) (cmp : α → α → ℤ) (a b : α) : ℤ :=
  if cmp a b ≠ 0 then cmp a b
  else if p a then if p b then 0 else -1
  else if p b then 1 else 0

theorem le_of_preferring {p : α → Bool} {cmp : α → α → ℤ} {a b : α}
    (h : preferring p cmp a b ≤ 0) : cmp a b ≤ 0 := by
  unfold preferring at h
  split at h <;> omega

theorem not_preferring_le {p : α → Bool} {cmp : α → α → ℤ} {a b : α} (ha : p a = false)
    (hb : p b = true) (hab : 0 ≤ cmp a b) : ¬ preferring p cmp a b ≤ 0 := by
  unfold preferring
  split
  · omega
  · simp [ha]

theorem Consistent.preferring {cmp : α → α → ℤ} {l : List α} (h : Consistent cmp l)
    (p : α → Bool) : Consistent (preferring p cmp) l where
  swap a ha b hb := by
    have h₁ := h.swap a ha b hb
    have h₂ := h.swap b hb a ha
    unfold Lib.preferring
    by_cases hab : cmp a b = 0
    · have hba := h.eq_zero ha hb hab
      cases hpa : p a <;> cases hpb : p b <;> simp [hab, hba]
    · have hba : cmp b a ≠ 0 := fun hba => hab (h.eq_zero hb ha hba)
      simp only [hab, hba, ne_eq, not_false_eq_true, if_true]
      exact h₁
  trans a ha b hb c hc hab hbc := by
    have hac := h.trans a ha b hb c hc (le_of_preferring hab) (le_of_preferring hbc)
    by_cases hzero : cmp a c = 0
    · -- then all three are equal, and the preference decides
      have hca := h.eq_zero ha hc hzero
      have hba : cmp b a ≤ 0 := h.trans b hb c hc a ha (le_of_preferring hbc) (le_of_eq hca)
      have hcb : cmp c b ≤ 0 := h.trans c hc a ha b hb (le_of_eq hca) (le_of_preferring hab)
      have hab' : cmp a b = 0 := by
        have := h.swap b hb a ha
        have := h.swap a ha b hb
        have := le_of_preferring hab
        omega
      have hbc' : cmp b c = 0 := by
        have := h.swap c hc b hb
        have := h.swap b hb c hc
        have := le_of_preferring hbc
        omega
      unfold Lib.preferring at hab hbc ⊢
      simp only [hab', hbc', hzero, ne_eq, not_true_eq_false, if_false] at hab hbc ⊢
      cases hpa : p a <;> cases hpb : p b <;> cases hpc : p c <;> simp_all
    · unfold Lib.preferring
      simp only [hzero, ne_eq, not_false_eq_true, if_true]
      exact hac

end Hilti.Lib
