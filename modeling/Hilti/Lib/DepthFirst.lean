import Mathlib.Data.Fintype.Card
import Mathlib.Data.Finset.Image
import Mathlib.Logic.Relation

/-!
# Depth-first traversals

A traversal of a finite graph that is guarded by a set of keys already seen.
Objects may share a key; they then count as one object.
-/

namespace Hilti.Lib

open Relation

set_option autoImplicit false

variable {σ ι κ : Type}

/-- Visits `p`, then the objects below it, unless `p` has been seen.  The first
argument bounds the depth of the recursion. -/
def depthFirst (seen : σ → ι → Bool) (enter : ι → σ → Option σ) (children : ι → List ι)
    (leave : ι → σ → σ) : ℕ → ι → σ → Option σ
  | 0, _, _ => none
  | fuel + 1, p, s =>
    if seen s p then some s
    else do
      let s ← enter p s
      let s ← (children p).foldlM (fun s c => depthFirst seen enter children leave fuel c s) s
      some (leave p s)

/-- The objects below `p` in the graph, `p` among them. -/
def Below (children : ι → List ι) (p q : ι) : Prop :=
  ReflTransGen (fun a b => b ∈ children a) p q

/-- What a traversal from `root` maintains: the keys seen, and an invariant
of the state that entering and leaving an object preserve. -/
structure Traversal [DecidableEq κ] (seen : σ → ι → Bool) (enter : ι → σ → Option σ)
    (children : ι → List ι) (leave : ι → σ → σ) (root : ι) (key : ι → κ)
    (visited : σ → Finset κ) (Inv : σ → Prop) : Prop where
  seen_iff : ∀ s p, seen s p = true ↔ key p ∈ visited s
  children_key : ∀ p q, Below children root p → Below children root q → key p = key q →
    (children p).map key = (children q).map key
  enter_spec : ∀ p s, Inv s → Below children root p → key p ∉ visited s →
    ∃ s', enter p s = some s' ∧ Inv s' ∧ visited s' = insert (key p) (visited s)
  leave_spec : ∀ p s, Inv s → Inv (leave p s) ∧ visited (leave p s) = visited s

/-- The keys of `s'` are those of `s` with newly visited ones, all of objects
below `root` and with the objects below them visited too. -/
structure Grown (children : ι → List ι) (root : ι) (key : ι → κ) (visited : σ → Finset κ)
    (s s' : σ) : Prop where
  subset : visited s ⊆ visited s'
  closed : ∀ q, Below children root q → key q ∈ visited s' → key q ∉ visited s →
    ∀ c ∈ children q, key c ∈ visited s'
  origin : ∀ k ∈ visited s', k ∉ visited s → ∃ q, Below children root q ∧ key q = k

section

variable {seen : σ → ι → Bool} {enter : ι → σ → Option σ} {children : ι → List ι}
  {leave : ι → σ → σ} {root : ι} {key : ι → κ} {visited : σ → Finset κ} {Inv : σ → Prop}

theorem Grown.refl (s : σ) : Grown children root key visited s s where
  subset := subset_rfl
  closed _ _ h h' := absurd h h'
  origin _ h h' := absurd h h'

theorem Grown.trans {s s' s'' : σ} (h : Grown children root key visited s s')
    (h' : Grown children root key visited s' s'') : Grown children root key visited s s'' where
  subset := h.subset.trans h'.subset
  closed q hb hq hn c hc := by
    by_cases hq' : key q ∈ visited s'
    · exact h'.subset (h.closed q hb hq' hn c hc)
    · exact h'.closed q hb hq hq' c hc
  origin k hk hn := by
    by_cases hk' : k ∈ visited s'
    · exact h.origin k hk' hn
    · exact h'.origin k hk hk'

variable [Fintype ι] [DecidableEq κ]

def unvisited (key : ι → κ) (visited : σ → Finset κ) (s : σ) : Finset κ :=
  Finset.univ.image key \ visited s

theorem unvisited_card_le {s s' : σ} (h : visited s ⊆ visited s') :
    (unvisited key visited s').card ≤ (unvisited key visited s).card :=
  Finset.card_le_card (Finset.sdiff_subset_sdiff subset_rfl h)

theorem unvisited_card_lt {s s' : σ} {p : ι} (hp : key p ∉ visited s)
    (h : visited s' = insert (key p) (visited s)) :
    (unvisited key visited s').card < (unvisited key visited s).card := by
  refine Finset.card_lt_card ⟨?_, fun hsub => ?_⟩
  · rw [unvisited, h]
    exact Finset.sdiff_subset_sdiff subset_rfl (Finset.subset_insert _ _)
  · have hmem : key p ∈ unvisited key visited s := by simp [unvisited, hp]
    have hmem' := hsub hmem
    simp [unvisited, h] at hmem'

theorem depthFirst_spec (ht : Traversal seen enter children leave root key visited Inv)
    (fuel : ℕ) : ∀ (p : ι) (s : σ), Inv s → Below children root p →
      (unvisited key visited s).card < fuel →
      ∃ s', depthFirst seen enter children leave fuel p s = some s' ∧ Inv s' ∧
        Grown children root key visited s s' ∧ key p ∈ visited s' := by
  induction fuel with
  | zero => intro p s _ _ hf; omega
  | succ fuel ih =>
    intro p s hs hp hf
    unfold depthFirst
    by_cases hseen : key p ∈ visited s
    · rw [if_pos ((ht.seen_iff s p).mpr hseen)]
      exact ⟨s, rfl, hs, .refl s, hseen⟩
    rw [if_neg (fun h => hseen ((ht.seen_iff s p).mp h))]
    obtain ⟨s₁, he, hs₁, hv₁⟩ := ht.enter_spec p s hs hp hseen
    have hf₁ : (unvisited key visited s₁).card < fuel := by
      have := unvisited_card_lt hseen hv₁
      omega
    -- the loop over the children, which keeps the fuel sufficient
    have hloop : ∀ (l : List ι) (s₁ : σ), (∀ c ∈ l, Below children root c) → Inv s₁ →
        (unvisited key visited s₁).card < fuel →
        ∃ s₂, l.foldlM (fun s c => depthFirst seen enter children leave fuel c s) s₁ = some s₂ ∧
          Inv s₂ ∧ Grown children root key visited s₁ s₂ ∧ ∀ c ∈ l, key c ∈ visited s₂ := by
      intro l
      induction l with
      | nil => exact fun s₁ _ hs₁ _ => ⟨s₁, rfl, hs₁, .refl s₁, by simp⟩
      | cons c l ihl =>
        intro s₁ hl hs₁ hf₁
        obtain ⟨s₂, h₂, hs₂, hg₂, hc⟩ := ih c s₁ hs₁ (hl c (by simp)) hf₁
        have hf₂ : (unvisited key visited s₂).card < fuel :=
          (unvisited_card_le hg₂.subset).trans_lt hf₁
        obtain ⟨s₃, h₃, hs₃, hg₃, hl₃⟩ := ihl s₂ (fun c' hc' => hl c' (by simp [hc'])) hs₂ hf₂
        refine ⟨s₃, ?_, hs₃, hg₂.trans hg₃, ?_⟩
        · rw [List.foldlM_cons, h₂]
          exact h₃
        · intro c' hc'
          rcases List.mem_cons.mp hc' with rfl | hc'
          · exact hg₃.subset hc
          · exact hl₃ c' hc'
    obtain ⟨s₂, h₂, hs₂, hg₂, hc₂⟩ :=
      hloop (children p) s₁ (fun c hc => ReflTransGen.tail hp hc) hs₁ hf₁
    obtain ⟨hs₃, hv₃⟩ := ht.leave_spec p s₂ hs₂
    refine ⟨leave p s₂, by simp [he, h₂], hs₃, ⟨?_, ?_, ?_⟩, ?_⟩
    · rw [hv₃]
      exact (by simp [hv₁] : visited s ⊆ visited s₁).trans hg₂.subset
    · intro q hb hq hn c hc
      rw [hv₃] at hq ⊢
      by_cases hqp : key q = key p
      · have hmem : key c ∈ (children p).map key := by
          rw [← ht.children_key q p hb hp hqp]
          exact List.mem_map_of_mem hc
        obtain ⟨c', hc', hkey⟩ := List.mem_map.mp hmem
        exact hkey ▸ hc₂ c' hc'
      · exact hg₂.closed q hb hq (by simp [hv₁, hqp, hn]) c hc
    · intro k hk hn
      rw [hv₃] at hk
      by_cases hkp : k = key p
      · exact ⟨p, hp, hkp.symm⟩
      · exact hg₂.origin k hk (by simp [hv₁, hkp, hn])
    · rw [hv₃]
      exact hg₂.subset (by simp [hv₁])

/-- A traversal from `root` with nothing seen visits exactly what is below
`root`. -/
theorem depthFirst_root (ht : Traversal seen enter children leave root key visited Inv)
    (fuel : ℕ) (s : σ) (hs : Inv s) (hempty : visited s = ∅) (hf : Fintype.card ι < fuel) :
    ∃ s', depthFirst seen enter children leave fuel root s = some s' ∧ Inv s' ∧
      ∀ k, k ∈ visited s' ↔ ∃ q, Below children root q ∧ key q = k := by
  have hf' : (unvisited key visited s).card < fuel :=
    ((Finset.card_le_card Finset.sdiff_subset).trans Finset.card_image_le).trans_lt hf
  obtain ⟨s', h, hs', hg, hroot⟩ := depthFirst_spec ht fuel root s hs .refl hf'
  refine ⟨s', h, hs', fun k => ⟨fun hk => hg.origin k hk (by simp [hempty]), ?_⟩⟩
  rintro ⟨q, hq, rfl⟩
  induction hq with
  | refl => exact hroot
  | tail hb hc ih => exact hg.closed _ hb ih (by simp [hempty]) _ hc

end

end Hilti.Lib
