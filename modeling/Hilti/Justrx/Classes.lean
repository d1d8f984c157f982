import Mathlib.Tactic
import Mathlib.Order.Interval.Finset.Nat
import Hilti.Justrx.Ccl

/-!
# Disambiguating character classes

`ccl_group_disambiguate` replaces the classes of a group by disjoint ones of which the
old ones are unions.  The functions on ranges are right for ranges that do not end
before they begin.  The parser does accept others, such as `z-a`; they contain no
character and do no harm as long as neither of the two characters they are written with
belongs to another class of the group.
-/

namespace Hilti.Justrx

set_option autoImplicit false

/-! ## Characters -/

def Range.chars (r : Range) : Finset ℕ :=
  Finset.Ico r.begin r.stop

/-- If the range ends before it begins, the characters it is written with are not in
`s`. -/
def Range.Avoids (r : Range) (s : Finset ℕ) : Prop :=
  r.stop < r.begin → r.begin ∉ s ∧ ∀ k, k + 1 = r.stop → k ∉ s

def charsOf (rs : List Range) : Finset ℕ :=
  rs.toFinset.biUnion Range.chars

def Ccl.rangeList (ccl : Ccl) : List Range :=
  ccl.ranges.getD []

def Ccl.chars (ccl : Ccl) : Finset ℕ :=
  charsOf ccl.rangeList

@[simp] theorem Range.mem_chars (r : Range) (c : ℕ) : c ∈ r.chars ↔ r.begin ≤ c ∧ c < r.stop := by
  simp [Range.chars]

theorem mem_charsOf {rs : List Range} {c : ℕ} : c ∈ charsOf rs ↔ ∃ r ∈ rs, c ∈ r.chars := by
  simp only [charsOf, Finset.mem_biUnion, List.mem_toFinset]

theorem Range.Avoids.mono {r : Range} {s t : Finset ℕ} (h : r.Avoids t) (hst : s ⊆ t) :
    r.Avoids s := by
  intro hlt
  obtain ⟨hbegin, hstop⟩ := h hlt
  exact ⟨fun hmem => hbegin (hst hmem), fun k hk hmem => hstop k hk (hst hmem)⟩

/-! ## Sets of ranges -/

theorem mem_setInsert {α : Type} [DecidableEq α] (lt : α → α → Prop) [DecidableRel lt] (x y : α)
    (s : List α) : y ∈ setInsert lt x s ↔ y = x ∨ y ∈ s := by
  have hbubble : ∀ s : List α, y ∈ setInsert.bubble lt x s ↔ y = x ∨ y ∈ s := by
    intro s
    induction s with
    | nil => simp [setInsert.bubble]
    | cons z s ih =>
      unfold setInsert.bubble
      split
      · simp
      · rw [List.mem_cons, ih, List.mem_cons]
        tauto
  unfold setInsert
  split
  · rename_i hx
    refine ⟨.inr, ?_⟩
    rintro (rfl | hy)
    · exact hx
    · exact hy
  · exact hbubble s

theorem mem_insertAll {α : Type} [DecidableEq α] (lt : α → α → Prop) [DecidableRel lt] (y : α)
    (l s : List α) : y ∈ l.foldl (fun s x => setInsert lt x s) s ↔ y ∈ l ∨ y ∈ s := by
  induction l generalizing s with
  | nil => simp
  | cons x l ih =>
    rw [List.foldl_cons, ih, mem_setInsert, List.mem_cons]
    tauto

theorem mem_cleanup {r : Range} {rs : List Range} : r ∈ cleanup rs ↔ r ∈ rs ∧ r.begin < r.stop := by
  have hfold : ∀ (rs s : List Range), r ∈ rs.foldl (fun nranges r => if r.begin < r.stop then
      rangeInsert r nranges else nranges) s ↔ r ∈ rs ∧ r.begin < r.stop ∨ r ∈ s := by
    intro rs
    induction rs with
    | nil => simp
    | cons q rs ih =>
      intro s
      rw [List.foldl_cons, ih, List.mem_cons]
      split
      · rename_i hq
        rw [rangeInsert, mem_setInsert]
        constructor
        · rintro (⟨hr, hlt⟩ | rfl | hs)
          · exact .inl ⟨.inr hr, hlt⟩
          · exact .inl ⟨.inl rfl, hq⟩
          · exact .inr hs
        · rintro (⟨rfl | hr, hlt⟩ | hs)
          · exact .inr (.inl rfl)
          · exact .inl ⟨hr, hlt⟩
          · exact .inr (.inr hs)
      · rename_i hq
        constructor
        · rintro (⟨hr, hlt⟩ | hs)
          · exact .inl ⟨.inr hr, hlt⟩
          · exact .inr hs
        · rintro (⟨rfl | hr, hlt⟩ | hs)
          · exact absurd hlt hq
          · exact .inl ⟨hr, hlt⟩
          · exact .inr hs
  unfold cleanup
  rw [hfold]
  simp

theorem charsOf_cleanup (rs : List Range) : charsOf (cleanup rs) = charsOf rs := by
  ext c
  simp only [mem_charsOf, mem_cleanup, Range.mem_chars]
  constructor
  · rintro ⟨r, ⟨hr, -⟩, hc⟩
    exact ⟨r, hr, hc⟩
  · rintro ⟨r, hr, hc⟩
    exact ⟨r, ⟨hr, by omega⟩, hc⟩

/-! ## One range -/

theorem chars_subtractOne {r sub : Range} (h : sub.Avoids r.chars) (c : ℕ) :
    (∃ r' ∈ subtractOne r sub, c ∈ r'.chars) ↔ c ∈ r.chars ∧ c ∉ sub.chars := by
  have hbegin : sub.stop < sub.begin → ¬(r.begin ≤ sub.begin ∧ sub.begin < r.stop) := fun hlt => by
    simpa using (h hlt).1
  have hstop : sub.stop < sub.begin → 0 < sub.stop →
      ¬(r.begin ≤ sub.stop - 1 ∧ sub.stop - 1 < r.stop) := fun hlt hpos => by
    simpa using (h hlt).2 (sub.stop - 1) (by omega)
  unfold subtractOne
  split
  · split
    · simp only [List.mem_cons, List.not_mem_nil, or_false, exists_eq_or_imp, exists_eq_left,
        Range.mem_chars]
      omega
    · simp only [List.mem_singleton, exists_eq_left, Range.mem_chars]
      omega
  · split
    · simp only [List.mem_singleton, exists_eq_left, Range.mem_chars]
      omega
    · split
      · simp only [List.mem_singleton, exists_eq_left, Range.mem_chars]
        omega
      · simp only [List.mem_singleton, exists_eq_left, Range.mem_chars]
        omega

theorem chars_intersectOne {r1 r2 : Range} (h1 : r1.Avoids r2.chars) (h2 : r2.Avoids r1.chars)
    (c : ℕ) : (∃ r ∈ intersectOne r1 r2, c ∈ r.chars) ↔ c ∈ r1.chars ∧ c ∈ r2.chars := by
  have hstop1 : r1.stop < r1.begin → 0 < r1.stop →
      ¬(r2.begin ≤ r1.stop - 1 ∧ r1.stop - 1 < r2.stop) := fun hlt hpos => by
    simpa using (h1 hlt).2 (r1.stop - 1) (by omega)
  have hstop2 : r2.stop < r2.begin → 0 < r2.stop →
      ¬(r1.begin ≤ r2.stop - 1 ∧ r2.stop - 1 < r1.stop) := fun hlt hpos => by
    simpa using (h2 hlt).2 (r2.stop - 1) (by omega)
  unfold intersectOne
  split
  · simp only [List.mem_singleton, exists_eq_left, Range.mem_chars]
    split <;> omega
  · split
    · simp only [List.mem_singleton, exists_eq_left, Range.mem_chars]
      omega
    · split
      · simp only [List.mem_singleton, exists_eq_left, Range.mem_chars]
        split <;> omega
      · split
        · simp only [List.mem_singleton, exists_eq_left, Range.mem_chars]
          omega
        · simp only [List.not_mem_nil, false_and, exists_false, false_iff, Range.mem_chars]
          omega

/-! ## Two classes -/

theorem charsOf_subtractRange {rs : List Range} {sub : Range} (h : sub.Avoids (charsOf rs)) :
    charsOf (subtractRange rs sub) = charsOf rs \ sub.chars := by
  ext c
  have hone : ∀ r ∈ rs, (∃ r' ∈ subtractOne r sub, c ∈ r'.chars) ↔ c ∈ r.chars ∧ c ∉ sub.chars := by
    intro r hr
    exact chars_subtractOne (h.mono fun k hk => mem_charsOf.mpr ⟨r, hr, hk⟩) c
  rw [Finset.mem_sdiff, mem_charsOf, mem_charsOf]
  constructor
  · rintro ⟨r', hr', hc⟩
    rw [subtractRange, show rangeInsert = setInsert Range.Before from rfl, mem_insertAll] at hr'
    obtain ⟨r, hr, hr'⟩ := List.mem_flatMap.mp (hr'.resolve_right (by simp))
    have hmem := (hone r hr).mp ⟨r', hr', hc⟩
    exact ⟨⟨r, hr, hmem.1⟩, hmem.2⟩
  · rintro ⟨⟨r, hr, hc⟩, hsub⟩
    obtain ⟨r', hr', hc'⟩ := (hone r hr).mpr ⟨hc, hsub⟩
    refine ⟨r', ?_, hc'⟩
    rw [subtractRange, show rangeInsert = setInsert Range.Before from rfl, mem_insertAll]
    exact .inl (List.mem_flatMap.mpr ⟨r, hr, hr'⟩)

theorem charsOf_subtractRanges {rs1 rs2 : List Range} (h : ∀ sub ∈ rs2, sub.Avoids (charsOf rs1)) :
    charsOf (rs2.foldl subtractRange rs1) = charsOf rs1 \ charsOf rs2 := by
  induction rs2 generalizing rs1 with
  | nil => simp [charsOf]
  | cons sub rs2 ih =>
    have hsub := charsOf_subtractRange (h sub (by simp))
    have hrest := ih fun sub' hsub' => (h sub' (by simp [hsub'])).mono
      (hsub ▸ Finset.sdiff_subset)
    rw [List.foldl_cons, hrest, hsub, sdiff_sdiff_left]
    congr 1
    ext c
    simp [mem_charsOf]

/-- The ranges of either class do no harm to the other one. -/
structure Ccl.Apart (a b : Ccl) : Prop where
  left : ∀ r ∈ a.rangeList, r.Avoids b.chars
  right : ∀ r ∈ b.rangeList, r.Avoids a.chars

def Ccl.Clean (a : Ccl) : Prop :=
  ∀ r ∈ a.rangeList, r.begin < r.stop

section

variable {A : Finset Assertion} {a b : Ccl}

/-- The classes of a group that is considered here: not epsilon, and all with the same
assertions. -/
structure Ccl.Kind (A : Finset Assertion) (a : Ccl) : Prop where
  assertions_eq : a.assertions = A
  ranges_eq : a.ranges = some a.rangeList

theorem subtract_spec (ha : a.Kind A) (hb : b.Kind A) (h : ∀ r ∈ b.rangeList, r.Avoids a.chars) :
    (subtract a b).Kind A ∧ (subtract a b).Clean ∧ (subtract a b).chars = a.chars \ b.chars := by
  have heq : subtract a b =
      { a with ranges := some (cleanup (b.rangeList.foldl subtractRange a.rangeList)) } := by
    rw [subtract, hb.ranges_eq]
    simp only [ha.assertions_eq, hb.assertions_eq, ne_eq, not_true_eq_false, if_false]
    rw [ha.ranges_eq]
    rfl
  rw [heq]
  refine ⟨⟨ha.assertions_eq, rfl⟩, fun r hr => (mem_cleanup.mp hr).2, ?_⟩
  rw [Ccl.chars, Ccl.rangeList, Option.getD_some, charsOf_cleanup, charsOf_subtractRanges h]
  rfl

theorem charsOf_intersect {rs1 rs2 : List Range} (h1 : ∀ r ∈ rs1, r.Avoids (charsOf rs2))
    (h2 : ∀ r ∈ rs2, r.Avoids (charsOf rs1)) :
    charsOf ((rs1.flatMap fun r1 => rs2.flatMap fun r2 => intersectOne r1 r2).foldl
      (fun nranges r => rangeInsert r nranges) []) = charsOf rs1 ∩ charsOf rs2 := by
  ext c
  have hone : ∀ r1 ∈ rs1, ∀ r2 ∈ rs2, (∃ r ∈ intersectOne r1 r2, c ∈ r.chars) ↔
      c ∈ r1.chars ∧ c ∈ r2.chars := by
    intro r1 hr1 r2 hr2
    exact chars_intersectOne ((h1 r1 hr1).mono fun k hk => mem_charsOf.mpr ⟨r2, hr2, hk⟩)
      ((h2 r2 hr2).mono fun k hk => mem_charsOf.mpr ⟨r1, hr1, hk⟩) c
  rw [Finset.mem_inter, mem_charsOf, mem_charsOf, mem_charsOf,
    show rangeInsert = setInsert Range.Before from rfl]
  simp only [mem_insertAll, List.not_mem_nil, or_false, List.mem_flatMap]
  constructor
  · rintro ⟨r, ⟨r1, hr1, r2, hr2, hr⟩, hc⟩
    have hmem := (hone r1 hr1 r2 hr2).mp ⟨r, hr, hc⟩
    exact ⟨⟨r1, hr1, hmem.1⟩, ⟨r2, hr2, hmem.2⟩⟩
  · rintro ⟨⟨r1, hr1, hc1⟩, ⟨r2, hr2, hc2⟩⟩
    obtain ⟨r, hr, hc⟩ := (hone r1 hr1 r2 hr2).mpr ⟨hc1, hc2⟩
    exact ⟨r, ⟨r1, hr1, r2, hr2, hr⟩, hc⟩

theorem intersect_spec (ha : a.Kind A) (hb : b.Kind A) (h : a.Apart b) :
    (intersect a b = none ∧ Disjoint a.chars b.chars) ∨
      ∃ is, intersect a b = some is ∧ is.Kind A ∧ is.Clean ∧ is.chars = a.chars ∩ b.chars ∧
        is.chars.Nonempty := by
  have hchars := charsOf_intersect h.left h.right
  set nranges := (a.rangeList.flatMap fun r1 => b.rangeList.flatMap fun r2 =>
    intersectOne r1 r2).foldl (fun nranges r => rangeInsert r nranges) [] with hn
  have heq : intersect a b =
      if (cleanup nranges).isEmpty then none else some ⟨A, some (cleanup nranges)⟩ := by
    rw [intersect, ha.ranges_eq, hb.ranges_eq]
    simp only [ha.assertions_eq, hb.assertions_eq, ne_eq, not_true_eq_false, if_false]
    rfl
  rw [← charsOf_cleanup] at hchars
  by_cases hempty : cleanup nranges = []
  · left
    refine ⟨by rw [heq, hempty]; rfl, ?_⟩
    rw [hempty] at hchars
    exact Finset.disjoint_iff_inter_eq_empty.mpr hchars.symm
  · right
    refine ⟨⟨A, some (cleanup nranges)⟩, ?_, ⟨rfl, rfl⟩, fun r hr => (mem_cleanup.mp hr).2, hchars, ?_⟩
    · rw [heq, if_neg (by simpa using hempty)]
    · obtain ⟨r, l, hr⟩ := List.exists_cons_of_ne_nil hempty
      have hmem : r ∈ cleanup nranges := by simp [hr]
      exact ⟨r.begin, mem_charsOf.mpr ⟨r, hmem, by simp [(mem_cleanup.mp hmem).2]⟩⟩

theorem isPartOf_chars (ha : a.Kind A) (hb : b.Kind A) (h : a.isPartOf b) : a.chars ⊆ b.chars := by
  rw [Ccl.isPartOf, ha.ranges_eq, hb.ranges_eq] at h
  simp only [ha.assertions_eq, hb.assertions_eq, ne_eq, not_true_eq_false, if_false,
    List.all_eq_true, List.any_eq_true, decide_eq_true_eq] at h
  intro c hc
  obtain ⟨r1, hr1, hc⟩ := mem_charsOf.mp hc
  obtain ⟨r2, hr2, hbegin, hstop⟩ := h r1 hr1
  refine mem_charsOf.mpr ⟨r2, hr2, ?_⟩
  rw [Range.mem_chars] at hc ⊢
  omega

theorem compare_chars (ha : a.Kind A) (hb : b.Kind A) (h : a.compare b) : a.chars = b.chars := by
  rw [Ccl.compare, Bool.and_eq_true] at h
  exact (isPartOf_chars ha hb h.1).antisymm (isPartOf_chars hb ha h.2)

end

/-! ## Splitting two classes of a group -/

theorem Ccl.Clean.avoids {a : Ccl} (h : a.Clean) {r : Range} (hr : r ∈ a.rangeList) (s : Finset ℕ) :
    r.Avoids s := by
  intro hlt
  have := h r hr
  omega

theorem intersect_eq_some {a b is : Ccl} (h : intersect a b = some is) :
    a.Kind a.assertions ∧ b.Kind a.assertions ∧ is.Kind a.assertions ∧ is.Clean ∧
      is.chars = charsOf ((a.rangeList.flatMap fun r1 => b.rangeList.flatMap fun r2 =>
        intersectOne r1 r2).foldl (fun nranges r => rangeInsert r nranges) []) := by
  unfold intersect at h
  split at h
  · rename_i rs1 rs2 h1 h2
    split at h
    · cases h
    · rename_i heq
      dsimp only at h
      split at h
      · cases h
      · cases h
        have heq' : b.assertions = a.assertions := (not_not.mp heq).symm
        refine ⟨⟨rfl, ?_⟩, ⟨heq', ?_⟩, ⟨rfl, rfl⟩, fun r hr => (mem_cleanup.mp hr).2, ?_⟩
        · simp [Ccl.rangeList, h1]
        · simp [Ccl.rangeList, h2]
        · rw [Ccl.chars, Ccl.rangeList, Option.getD_some, charsOf_cleanup]
          simp [Ccl.rangeList, h1, h2]
  · cases h

section

variable {g g' : Group} {i j : ℕ} {a b : Ccl}

theorem splitPair_true (h : splitPair g i j = (g', true)) :
    ∃ a b is, g[i]? = some a ∧ g[j]? = some b ∧ intersect a b = some is ∧
      g' = (groupAddTo ((g.set i (subtract a b)).set j (subtract b a)) is).1 := by
  unfold splitPair at h
  split at h
  · rename_i a b ha hb
    split at h
    · simp at h
    · split at h
      · simp at h
      · rename_i is his
        exact ⟨a, b, is, ha, hb, his, (Prod.mk.inj h).1.symm⟩
  · simp at h

theorem intersect_of_isEmpty (h : a.isEmpty = true ∨ b.isEmpty = true) : intersect a b = none := by
  cases hi : intersect a b with
  | none => rfl
  | some is =>
    obtain ⟨ha, hb, hk, hclean, hchars⟩ := intersect_eq_some hi
    have hnil : is.chars = ∅ := by
      rw [hchars]
      rcases h with h | h
      · rw [Ccl.isEmpty, ha.ranges_eq] at h
        rw [List.isEmpty_iff.mp h]
        rfl
      · rw [Ccl.isEmpty, hb.ranges_eq] at h
        rw [List.isEmpty_iff.mp h, List.flatMap_eq_nil_iff.mpr fun _ _ => List.flatMap_nil]
        rfl
    have hranges : is.rangeList = [] := by
      by_contra hne
      obtain ⟨r, l, hr⟩ := List.exists_cons_of_ne_nil hne
      have hmem : r ∈ is.rangeList := by simp [hr]
      have : r.begin ∈ is.chars := mem_charsOf.mpr ⟨r, hmem, by simp [hclean r hmem]⟩
      rw [hnil] at this
      simp at this
    -- an empty intersection is no result
    have hempty : is.isEmpty = false := by
      unfold intersect at hi
      split at hi
      · split at hi
        · cases hi
        · dsimp only at hi
          split at hi
          · cases hi
          · rename_i hne
            cases hi
            simpa using hne
      · cases hi
    rw [Ccl.isEmpty, hk.ranges_eq, hranges] at hempty
    simp at hempty

theorem splitPair_false (ha : g[i]? = some a) (hb : g[j]? = some b)
    (h : (splitPair g i j).2 = false) : splitPair g i j = (g, false) ∧ intersect a b = none := by
  unfold splitPair at h ⊢
  rw [ha, hb] at h ⊢
  simp only at h ⊢
  split at h
  · rename_i hc
    rw [if_pos hc]
    refine ⟨rfl, intersect_of_isEmpty ?_⟩
    have heps : ∀ p : Ccl, p.isEpsilon = true → p.isEmpty = true := by
      intro p hp
      rw [Ccl.isEpsilon, Option.isNone_iff_eq_none] at hp
      rw [Ccl.isEmpty, hp]
    simp only [Bool.or_eq_true] at hc
    rcases hc with ((hc | hc) | hc) | hc
    · exact .inl (heps a hc)
    · exact .inr (heps b hc)
    · exact .inl hc
    · exact .inr hc
  · rename_i hc
    rw [if_neg hc]
    split at h
    · rename_i hnone
      rw [hnone]
      exact ⟨rfl, rfl⟩
    · cases h

end

/-! ## A measure -/

def total (f : Ccl → ℕ) (g : Group) : ℕ :=
  (g.map f).sum

theorem total_set (f : Ccl → ℕ) {g : Group} {i : ℕ} {a : Ccl} (h : g[i]? = some a) (b : Ccl) :
    total f (g.set i b) + f a = total f g + f b := by
  induction g generalizing i with
  | nil => simp at h
  | cons x g ih =>
    cases i with
    | zero =>
      cases h
      simp only [total, List.set_cons_zero, List.map_cons, List.sum_cons]
      omega
    | succ i =>
      have hrest := ih h
      simp only [total, List.set_cons_succ, List.map_cons, List.sum_cons] at hrest ⊢
      omega

def Ccl.reversed (a : Ccl) : Bool :=
  a.rangeList.any fun r => r.stop < r.begin

/-- Every split makes this smaller: it gets rid of ranges that end before they begin, and
where there are none, of characters that are in two classes. -/
def measure (g : Group) : ℕ :=
  (total (fun a => a.chars.card) g + 1) * 2 ^ total (fun a => if a.reversed then 1 else 0) g

theorem Ccl.Clean.not_reversed {a : Ccl} (h : a.Clean) : a.reversed = false := by
  rw [Ccl.reversed, List.any_eq_false]
  intro r hr
  have := h r hr
  simp only [decide_eq_true_eq]
  omega

theorem Ccl.avoids_of_not_reversed {a : Ccl} (h : a.reversed = false) (s : Finset ℕ) :
    ∀ r ∈ a.rangeList, r.Avoids s := by
  intro r hr hlt
  rw [Ccl.reversed, List.any_eq_false] at h
  exact absurd (by simpa using hlt) (h r hr)

theorem subtractOne_subset (r sub : Range) : ∀ r' ∈ subtractOne r sub, r'.chars ⊆ r.chars := by
  intro r' hr' c hc
  unfold subtractOne at hr'
  rw [Range.mem_chars] at hc ⊢
  split at hr'
  · split at hr'
    · simp only [List.mem_cons, List.not_mem_nil, or_false] at hr'
      rcases hr' with rfl | rfl <;> simp only at hc <;> omega
    · simp only [List.mem_singleton] at hr'
      subst hr'
      simp only at hc
      omega
  · split at hr'
    · simp only [List.mem_singleton] at hr'
      subst hr'
      simp only at hc
      omega
    · split at hr'
      · simp only [List.mem_singleton] at hr'
        subst hr'
        simp only at hc
        omega
      · simp only [List.mem_singleton] at hr'
        subst hr'
        exact hc

theorem subtractRanges_subset (rs1 rs2 : List Range) :
    charsOf (rs2.foldl subtractRange rs1) ⊆ charsOf rs1 := by
  induction rs2 generalizing rs1 with
  | nil => exact subset_rfl
  | cons sub rs2 ih =>
    refine (ih (subtractRange rs1 sub)).trans fun c hc => ?_
    obtain ⟨r', hr', hc⟩ := mem_charsOf.mp hc
    rw [subtractRange, show rangeInsert = setInsert Range.Before from rfl, mem_insertAll] at hr'
    obtain ⟨r, hr, hr'⟩ := List.mem_flatMap.mp (hr'.resolve_right (by simp))
    exact mem_charsOf.mpr ⟨r, hr, subtractOne_subset r sub r' hr' hc⟩

theorem subtract_subset {A : Finset Assertion} {a b : Ccl} (ha : a.Kind A) (hb : b.Kind A) :
    (subtract a b).Clean ∧ (subtract a b).chars ⊆ a.chars := by
  have heq : subtract a b =
      { a with ranges := some (cleanup (b.rangeList.foldl subtractRange a.rangeList)) } := by
    rw [subtract, hb.ranges_eq]
    simp only [ha.assertions_eq, hb.assertions_eq, ne_eq, not_true_eq_false, if_false]
    rw [ha.ranges_eq]
    rfl
  rw [heq]
  refine ⟨fun r hr => (mem_cleanup.mp hr).2, ?_⟩
  rw [Ccl.chars, Ccl.rangeList, Option.getD_some, charsOf_cleanup]
  exact subtractRanges_subset _ _

theorem intersectOne_subset (r1 r2 : Range) :
    ∀ r ∈ intersectOne r1 r2, r.chars ⊆ r1.chars ∪ r2.chars := by
  intro r hr c hc
  unfold intersectOne at hr
  rw [Finset.mem_union, Range.mem_chars, Range.mem_chars]
  rw [Range.mem_chars] at hc
  split at hr
  · simp only [List.mem_singleton] at hr
    subst hr
    simp only at hc
    split at hc <;> omega
  · split at hr
    · simp only [List.mem_singleton] at hr
      subst hr
      simp only at hc
      omega
    · split at hr
      · simp only [List.mem_singleton] at hr
        subst hr
        simp only at hc
        split at hc <;> omega
      · split at hr
        · simp only [List.mem_singleton] at hr
          subst hr
          simp only at hc
          omega
        · simp at hr

theorem intersect_subset {a b is : Ccl} (h : intersect a b = some is) :
    is.chars ⊆ a.chars ∪ b.chars := by
  obtain ⟨-, -, -, -, hchars⟩ := intersect_eq_some h
  rw [hchars, show rangeInsert = setInsert Range.Before from rfl]
  intro c hc
  obtain ⟨r, hr, hc⟩ := mem_charsOf.mp hc
  simp only [mem_insertAll, List.not_mem_nil, or_false, List.mem_flatMap] at hr
  obtain ⟨r1, hr1, r2, hr2, hr⟩ := hr
  rcases Finset.mem_union.mp (intersectOne_subset r1 r2 r hr hc) with hc | hc
  · exact Finset.mem_union_left _ (mem_charsOf.mpr ⟨r1, hr1, hc⟩)
  · exact Finset.mem_union_right _ (mem_charsOf.mpr ⟨r2, hr2, hc⟩)

theorem groupAddTo_cases (g : Group) (a : Ccl) :
    (groupAddTo g a).1 = g ∨ (groupAddTo g a).1 = g ++ [a] := by
  unfold groupAddTo
  split
  · exact .inl rfl
  · exact .inr rfl

theorem total_groupAddTo (f : Ccl → ℕ) (g : Group) (a : Ccl) :
    total f (groupAddTo g a).1 ≤ total f g + f a := by
  rcases groupAddTo_cases g a with h | h
  · rw [h]
    exact Nat.le_add_right _ _
  · rw [h]
    simp [total]

theorem splitPair_measure {g g' : Group} {i j : ℕ} (hij : i ≠ j)
    (h : splitPair g i j = (g', true)) :
    g.length ≤ g'.length ∧ g'.length ≤ g.length + 1 ∧ measure g' < measure g := by
  obtain ⟨a, b, is, ha, hb, his, rfl⟩ := splitPair_true h
  set g₁ := (g.set i (subtract a b)).set j (subtract b a) with hg₁
  obtain ⟨hka, hkb, hkis, hcis, -⟩ := intersect_eq_some his
  have hsub_a := subtract_subset hka hkb
  have hsub_b := subtract_subset hkb hka
  have hb₁ : (g.set i (subtract a b))[j]? = some b := by
    rw [List.getElem?_set_ne hij, hb]
  -- what a quantity of classes becomes
  have htotal : ∀ f : Ccl → ℕ, total f (groupAddTo g₁ is).1 + f a + f b ≤
      total f g + f (subtract a b) + f (subtract b a) + f is := by
    intro f
    have h₁ := total_set f ha (subtract a b)
    have h₂ := total_set f hb₁ (subtract b a)
    have h₃ := total_groupAddTo f g₁ is
    rw [← hg₁] at h₂
    omega
  have hlen : g₁.length = g.length := by simp [hg₁]
  refine ⟨?_, ?_, ?_⟩
  · rcases groupAddTo_cases g₁ is with h | h <;> rw [h] <;> simp [hlen]
  · rcases groupAddTo_cases g₁ is with h | h <;> rw [h] <;> simp [hlen]
  · have hcard := htotal fun a => a.chars.card
    have hrev := htotal fun a => if a.reversed then 1 else 0
    simp only [hsub_a.1.not_reversed, hsub_b.1.not_reversed, hcis.not_reversed,
      Bool.false_eq_true, if_false] at hrev
    unfold measure
    set w := total (fun a => a.chars.card) g
    set w' := total (fun a => a.chars.card) (groupAddTo g₁ is).1
    set n := total (fun a => if a.reversed then 1 else 0) g
    set n' := total (fun a => if a.reversed then 1 else 0) (groupAddTo g₁ is).1
    by_cases hvalid : a.reversed = false ∧ b.reversed = false
    · -- the characters in common are counted once instead of twice
      have hav := Ccl.avoids_of_not_reversed hvalid.1 b.chars
      have hbv := Ccl.avoids_of_not_reversed hvalid.2 a.chars
      have hsa := (subtract_spec hka hkb hbv).2.2
      have hsb := (subtract_spec hkb hka hav).2.2
      rcases intersect_spec hka hkb ⟨hav, hbv⟩ with ⟨hnone, -⟩ | ⟨is', hsome, -, -, heq, hne⟩
      · rw [hnone] at his
        cases his
      · rw [his] at hsome
        cases hsome
        have hcard_a := Finset.card_sdiff_add_card_inter a.chars b.chars
        have hcard_b := Finset.card_sdiff_add_card_inter b.chars a.chars
        rw [← hsa, ← heq] at hcard_a
        rw [← hsb, Finset.inter_comm, ← heq] at hcard_b
        have hpos := Finset.card_pos.mpr hne
        simp only [hvalid.1, hvalid.2, Bool.false_eq_true, if_false] at hrev
        calc (w' + 1) * 2 ^ n' ≤ (w' + 1) * 2 ^ n :=
              Nat.mul_le_mul_left _ (Nat.pow_le_pow_right (by omega) (by omega))
          _ < (w + 1) * 2 ^ n := Nat.mul_lt_mul_of_pos_right (by omega) (Nat.two_pow_pos n)
    · have hlt : n' + 1 ≤ n := by
        rcases not_and_or.mp hvalid with hr | hr
        · have : a.reversed = true := by simpa using hr
          simp only [this, if_true] at hrev
          omega
        · have : b.reversed = true := by simpa using hr
          simp only [this, if_true] at hrev
          omega
      have hle : w' ≤ 2 * w := by
        have h₁ := Finset.card_le_card hsub_a.2
        have h₂ := Finset.card_le_card hsub_b.2
        have h₃ := (Finset.card_le_card (intersect_subset his)).trans (Finset.card_union_le _ _)
        have h₄ := total_set (fun a => a.chars.card) ha ⟨∅, none⟩
        have hb₂ : (g.set i ⟨∅, none⟩)[j]? = some b := by
          rw [List.getElem?_set_ne hij, hb]
        have h₅ := total_set (fun a => a.chars.card) hb₂ ⟨∅, none⟩
        have hzero : Finset.card (Ccl.chars ⟨∅, none⟩) = 0 := rfl
        simp only [hzero] at h₄ h₅
        omega
      obtain ⟨m, hm⟩ : ∃ m, n = m + 1 := ⟨n - 1, by omega⟩
      rw [hm]
      calc (w' + 1) * 2 ^ n' ≤ (w' + 1) * 2 ^ m :=
            Nat.mul_le_mul_left _ (Nat.pow_le_pow_right (by omega) (by omega))
        _ < (2 * (w + 1)) * 2 ^ m :=
            Nat.mul_lt_mul_of_pos_right (by omega) (Nat.two_pow_pos m)
        _ = (w + 1) * 2 ^ (m + 1) := by ring

/-! ## The loops -/

/-- Going on from group `g` does not add work, and a change is one for the better. -/
structure Progress (g : Group) (changed : Bool) (g' : Group) (changed' : Bool) : Prop where
  length_le : g.length ≤ g'.length
  size_le : g'.length + measure g' ≤ g.length + measure g
  measure_lt : changed' = true → changed = true ∨ measure g' < measure g
  same : changed' = false → changed = false ∧ g' = g

theorem Progress.refl (g : Group) (changed : Bool) : Progress g changed g changed :=
  ⟨le_rfl, le_rfl, .inl, fun h => ⟨h, rfl⟩⟩

theorem Progress.trans {g₁ g₂ g₃ : Group} {c₁ c₂ c₃ : Bool} (h : Progress g₁ c₁ g₂ c₂)
    (h' : Progress g₂ c₂ g₃ c₃) : Progress g₁ c₁ g₃ c₃ := by
  have hlen := h.length_le
  have hlen' := h'.length_le
  have hsize := h.size_le
  have hsize' := h'.size_le
  refine ⟨by omega, by omega, fun hc => ?_, fun hc => ?_⟩
  · rcases h'.measure_lt hc with hc | hlt
    · rcases h.measure_lt hc with hc | hlt
      · exact .inl hc
      · exact .inr (by omega)
    · exact .inr (by omega)
  · obtain ⟨hc, rfl⟩ := h'.same hc
    exact h.same hc

section

-- whatever every split keeps is kept by the loops
variable {P : Group → Prop}
  (hP : ∀ (g g' : Group) (i j : ℕ), i ≠ j → P g → splitPair g i j = (g', true) → P g')
include hP

theorem splitFrom_spec {g : Group} {i j : ℕ} (hi : i < g.length) (h : P g) (hij : i < j)
    (changed : Bool) (fuel : ℕ) (hpos : 0 < fuel) (hf : g.length + measure g < fuel + j) :
    ∃ g' changed', splitFrom i fuel g j changed = some (g', changed') ∧ P g' ∧
      Progress g changed g' changed' ∧
      (changed' = false → ∀ l, j ≤ l → l < g.length → (splitPair g i l).2 = false) := by
  induction fuel generalizing g j changed with
  | zero => exact absurd hpos (Nat.lt_irrefl 0)
  | succ fuel ih =>
    unfold splitFrom
    by_cases hj : j < g.length
    · rw [if_pos hj]
      rcases heq : splitPair g i j with ⟨g₁, _ | _⟩
      · have hsame := (splitPair_false (List.getElem?_eq_getElem hi) (List.getElem?_eq_getElem hj)
          (by rw [heq])).1
        rw [heq] at hsame
        obtain ⟨rfl, -⟩ := Prod.mk.inj hsame
        obtain ⟨g', changed', hrun, h', hprog, hdone⟩ :=
          ih hi h (show i < j + 1 by omega) (changed || false) (by omega) (by omega)
        refine ⟨g', changed', hrun, h', ?_, fun hc l hl hlt => ?_⟩
        · rwa [Bool.or_false] at hprog
        · rcases hl.lt_or_eq with hl | rfl
          · exact hdone hc l hl hlt
          · rw [heq]
      · obtain ⟨hlen, hlen', hlt⟩ := splitPair_measure hij.ne heq
        obtain ⟨g', changed', hrun, h', hprog, -⟩ :=
          ih (show i < g₁.length by omega) (hP g g₁ i j hij.ne h heq) (show i < j + 1 by omega)
            (changed || true) (by omega) (by omega)
        refine ⟨g', changed', hrun, h', ?_, fun hc => ?_⟩
        · exact Progress.trans ⟨hlen, by omega, fun _ => .inr hlt, fun hc => by simp at hc⟩ hprog
        · have := (hprog.same hc).1
          simp at this
    · rw [if_neg hj]
      exact ⟨g, changed, rfl, h, Progress.refl g changed, fun _ l hl hlt => by omega⟩

theorem splitAll_spec {g : Group} {i : ℕ} (h : P g) (changed : Bool) (fuel : ℕ) (hpos : 0 < fuel)
    (hf : 2 * (g.length + measure g) < fuel + i) (hi : i ≤ g.length + measure g) :
    ∃ g' changed', splitAll fuel g i changed = some (g', changed') ∧ P g' ∧
      Progress g changed g' changed' ∧
      (changed' = false → ∀ k l, i ≤ k → k < l → l < g.length → (splitPair g k l).2 = false) := by
  induction fuel generalizing g i changed with
  | zero => exact absurd hpos (Nat.lt_irrefl 0)
  | succ fuel ih =>
    unfold splitAll
    by_cases hlt : i < g.length
    · rw [if_pos hlt]
      obtain ⟨g₁, c₁, hrun₁, h₁, hprog₁, hdone₁⟩ :=
        splitFrom_spec hP hlt h (Nat.lt_succ_self i) changed fuel (by omega) (by omega)
      have hlen := hprog₁.length_le
      have hsize := hprog₁.size_le
      obtain ⟨g', c', hrun, h', hprog, hdone⟩ := ih (i := i + 1) h₁ c₁ (by omega) (by omega) (by omega)
      refine ⟨g', c', ?_, h', hprog₁.trans hprog, fun hc k l hk hkl hl => ?_⟩
      · rw [hrun₁]
        exact hrun
      · obtain ⟨hc₁, -⟩ := hprog.same hc
        obtain ⟨-, rfl⟩ := hprog₁.same hc₁
        rcases hk.lt_or_eq with hk | rfl
        · exact hdone hc k l hk hkl hl
        · exact hdone₁ hc₁ l hkl hl
    · rw [if_neg hlt]
      exact ⟨g, changed, rfl, h, Progress.refl g changed, fun _ k l hk hkl hl => by omega⟩

theorem groupDisambiguate_spec {g : Group} (h : P g) {fuel : ℕ}
    (hf : 2 * (g.length + measure g) + measure g + 1 < fuel) :
    ∃ g', groupDisambiguate fuel g = some g' ∧ P g' ∧
      ∀ (k l : ℕ) (a b : Ccl), k < l → g'[k]? = some a → g'[l]? = some b → intersect a b = none := by
  induction hm : measure g using Nat.strong_induction_on generalizing g fuel with
  | _ m ih =>
    obtain ⟨fuel, rfl⟩ : ∃ n, fuel = n + 1 := ⟨fuel - 1, by omega⟩
    obtain ⟨g₁, c₁, hrun, h₁, hprog, hdone⟩ :=
      splitAll_spec hP h false fuel (i := 0) (by omega) (by omega) (by omega)
    have hsize := hprog.size_le
    unfold groupDisambiguate
    rw [hrun]
    cases c₁ with
    | false =>
      obtain ⟨-, rfl⟩ := hprog.same rfl
      refine ⟨g₁, rfl, h₁, fun k l a b hkl ha hb => ?_⟩
      exact (splitPair_false ha hb (hdone rfl k l (Nat.zero_le k) hkl
        (List.getElem?_eq_some_iff.mp hb).1)).2
    | true =>
      have hlt := (hprog.measure_lt rfl).resolve_left (by simp)
      have hlen := hprog.length_le
      obtain ⟨g', hrun', h', hdis⟩ := ih (measure g₁) (by omega) h₁ (show _ < fuel by omega) rfl
      exact ⟨g', hrun', h', hdis⟩

end

/-! ## The classes become disjoint -/

def Separated (g : Group) : Prop :=
  ∀ (i j : ℕ) (a b : Ccl), g[i]? = some a → g[j]? = some b → i ≠ j → a.assertions = b.assertions →
    ∀ r ∈ a.rangeList, r.Avoids b.chars

/-- What disambiguation keeps: the classes `orig` are unions of classes of the group. -/
structure Refined (orig g : Group) : Prop where
  proper : ∀ p ∈ g, p.ranges = some p.rangeList
  separated : Separated g
  covers : ∀ x ∈ orig, ∀ c ∈ x.chars,
    ∃ p ∈ g, p.assertions = x.assertions ∧ c ∈ p.chars ∧ p.chars ⊆ x.chars
  within : ∀ p ∈ g, ∃ x ∈ orig, x.assertions = p.assertions ∧ p.chars ⊆ x.chars
  unsplit : ∀ p ∈ g, p ∈ orig ∨ p.Clean

section

variable {orig g g' : Group} {i j : ℕ} {a b a' b' is : Ccl}

/-- Two classes are replaced by smaller ones, and another one is added if need be. -/
structure Split (g : Group) (i j : ℕ) (a' b' is : Ccl) (g' : Group) : Prop where
  left : g'[i]? = some a'
  right : g'[j]? = some b'
  other : ∀ (k : ℕ) (p : Ccl), g[k]? = some p → k ≠ i → k ≠ j → g'[k]? = some p
  inter : ∃ p ∈ g', p.assertions = is.assertions ∧ p.chars = is.chars
  back : ∀ (k : ℕ) (p : Ccl), g'[k]? = some p → (k = i ∧ p = a') ∨ (k = j ∧ p = b') ∨
    (k ≠ i ∧ k ≠ j ∧ g[k]? = some p) ∨ (k = g.length ∧ p = is)

theorem groupFind_chars {k : ℕ} (hg : ∀ p ∈ g, p.ranges = some p.rangeList)
    (ha : a.ranges = some a.rangeList) (h : groupFind g a = some k) :
    ∃ p ∈ g, p.assertions = a.assertions ∧ p.chars = a.chars := by
  obtain ⟨hlt, hcmp, -⟩ := List.findIdx?_eq_some_iff_getElem.mp h
  have hmem : g[k] ∈ g := List.getElem_mem hlt
  have hassert : g[k].assertions = a.assertions := by
    by_contra hne
    rw [Ccl.compare, Ccl.isPartOf, if_pos (Ne.symm hne)] at hcmp
    simp at hcmp
  exact ⟨g[k], hmem, hassert, (compare_chars ⟨rfl, ha⟩ ⟨hassert, hg _ hmem⟩ hcmp).symm⟩

theorem groupAddTo_split (hij : i ≠ j) (hi : i < g.length) (hj : j < g.length)
    (hg : ∀ p ∈ (g.set i a').set j b', p.ranges = some p.rangeList)
    (his : is.ranges = some is.rangeList) :
    Split g i j a' b' is (groupAddTo ((g.set i a').set j b') is).1 := by
  set g₁ := (g.set i a').set j b' with hg₁
  have hlen : g₁.length = g.length := by simp [hg₁]
  have hleft : g₁[i]? = some a' := by
    rw [hg₁, List.getElem?_set_ne hij.symm, List.getElem?_set_self hi]
  have hright : g₁[j]? = some b' := by
    rw [hg₁, List.getElem?_set_self (by simpa using hj)]
  have hother : ∀ k, k ≠ i → k ≠ j → g₁[k]? = g[k]? := by
    intro k hki hkj
    rw [hg₁, List.getElem?_set_ne (Ne.symm hkj), List.getElem?_set_ne (Ne.symm hki)]
  have hback : ∀ (k : ℕ) (p : Ccl), g₁[k]? = some p → (k = i ∧ p = a') ∨ (k = j ∧ p = b') ∨
      (k ≠ i ∧ k ≠ j ∧ g[k]? = some p) ∨ (k = g.length ∧ p = is) := by
    intro k p hk
    by_cases hki : k = i
    · subst hki
      rw [hleft] at hk
      exact .inl ⟨rfl, (Option.some.inj hk).symm⟩
    · by_cases hkj : k = j
      · subst hkj
        rw [hright] at hk
        exact .inr (.inl ⟨rfl, (Option.some.inj hk).symm⟩)
      · rw [hother k hki hkj] at hk
        exact .inr (.inr (.inl ⟨hki, hkj, hk⟩))
  unfold groupAddTo
  split
  · rename_i k hk
    exact ⟨hleft, hright, fun k p hk hki hkj => (hother k hki hkj).trans hk,
      groupFind_chars hg his hk, hback⟩
  · have hold : ∀ k, k < g₁.length → (g₁ ++ [is])[k]? = g₁[k]? := fun k hk =>
      List.getElem?_append_left hk
    refine ⟨?_, ?_, fun k p hk hki hkj => ?_, ⟨is, by simp, rfl, rfl⟩, fun k p hk => ?_⟩
    · rw [hold i (by omega), hleft]
    · rw [hold j (by omega), hright]
    · have hlt := (List.getElem?_eq_some_iff.mp hk).1
      rw [hold k (by omega), hother k hki hkj, hk]
    · rcases Nat.lt_or_ge k g₁.length with hlt | hge
      · exact hback k p ((hold k hlt).symm.trans hk)
      · have hk' := (List.getElem?_eq_some_iff.mp hk).1
        have hkl : k = g₁.length := by
          rw [List.length_append, List.length_singleton] at hk'
          omega
        subst hkl
        rw [List.getElem?_concat_length] at hk
        exact .inr (.inr (.inr ⟨hlen, (Option.some.inj hk).symm⟩))

theorem Refined.split {A : Finset Assertion} (h : Refined orig g) (hij : i ≠ j)
    (ha : g[i]? = some a) (hb : g[j]? = some b) (hA : a.assertions = A) (hB : b.assertions = A)
    (ha' : a'.Kind A ∧ a'.Clean ∧ a'.chars = a.chars \ b.chars)
    (hb' : b'.Kind A ∧ b'.Clean ∧ b'.chars = b.chars \ a.chars)
    (his : is.Kind A ∧ is.Clean ∧ is.chars = a.chars ∩ b.chars)
    (hs : Split g i j a' b' is g') : Refined orig g' := by
  have hsub_a : a'.chars ⊆ a.chars := ha'.2.2 ▸ Finset.sdiff_subset
  have hsub_b : b'.chars ⊆ b.chars := hb'.2.2 ▸ Finset.sdiff_subset
  have hsub_is : is.chars ⊆ a.chars := his.2.2 ▸ Finset.inter_subset_left
  have hmem : ∀ p ∈ g', p = a' ∨ p = b' ∨ p = is ∨ p ∈ g := by
    intro p hp
    obtain ⟨k, hk⟩ := List.mem_iff_getElem?.mp hp
    rcases hs.back k p hk with ⟨-, rfl⟩ | ⟨-, rfl⟩ | ⟨-, -, hk⟩ | ⟨-, rfl⟩
    · exact .inl rfl
    · exact .inr (.inl rfl)
    · exact .inr (.inr (.inr (List.mem_of_getElem? hk)))
    · exact .inr (.inr (.inl rfl))
  obtain ⟨x, hx, hxA, hax⟩ := h.within a (List.mem_of_getElem? ha)
  obtain ⟨y, hy, hyA, hby⟩ := h.within b (List.mem_of_getElem? hb)
  constructor
  · intro p hp
    rcases hmem p hp with rfl | rfl | rfl | hp
    · exact ha'.1.ranges_eq
    · exact hb'.1.ranges_eq
    · exact his.1.ranges_eq
    · exact h.proper p hp
  · intro k l p q hk hl hkl hpq r hr
    rcases hs.back k p hk with ⟨-, rfl⟩ | ⟨-, rfl⟩ | ⟨hki, hkj, hk'⟩ | ⟨-, rfl⟩
    · exact ha'.2.1.avoids hr _
    · exact hb'.2.1.avoids hr _
    · rcases hs.back l q hl with ⟨rfl, rfl⟩ | ⟨rfl, rfl⟩ | ⟨-, -, hl'⟩ | ⟨-, rfl⟩
      · have hpa : p.assertions = a.assertions := by rw [hpq, ha'.1.assertions_eq, hA]
        exact (h.separated k l p a hk' ha hki hpa r hr).mono hsub_a
      · have hpb : p.assertions = b.assertions := by rw [hpq, hb'.1.assertions_eq, hB]
        exact (h.separated k l p b hk' hb hkj hpb r hr).mono hsub_b
      · exact h.separated k l p q hk' hl' hkl hpq r hr
      · have hpa : p.assertions = a.assertions := by rw [hpq, his.1.assertions_eq, hA]
        exact (h.separated k i p a hk' ha hki hpa r hr).mono hsub_is
    · exact his.2.1.avoids hr _
  · intro z hz c hc
    obtain ⟨p, hp, hpA, hcp, hpz⟩ := h.covers z hz c hc
    obtain ⟨k, hk⟩ := List.mem_iff_getElem?.mp hp
    -- a character of one of the two classes is in its rest or in the common part
    have hcommon : c ∈ a.chars → c ∈ b.chars → A = z.assertions →
        (a.chars ⊆ z.chars ∨ b.chars ⊆ z.chars) →
        ∃ p ∈ g', p.assertions = z.assertions ∧ c ∈ p.chars ∧ p.chars ⊆ z.chars := by
      intro hca hcb hzA hsub
      obtain ⟨p, hp, hpA, hpeq⟩ := hs.inter
      refine ⟨p, hp, by rw [hpA, his.1.assertions_eq, hzA], ?_, ?_⟩
      · rw [hpeq, his.2.2]
        exact Finset.mem_inter.mpr ⟨hca, hcb⟩
      · rw [hpeq, his.2.2]
        rcases hsub with hsub | hsub
        · exact Finset.inter_subset_left.trans hsub
        · exact Finset.inter_subset_right.trans hsub
    by_cases hki : k = i
    · subst hki
      rw [ha] at hk
      cases hk
      by_cases hcb : c ∈ b.chars
      · exact hcommon hcp hcb (hA ▸ hpA) (.inl hpz)
      · refine ⟨a', List.mem_of_getElem? hs.left, ?_, ?_, hsub_a.trans hpz⟩
        · rw [ha'.1.assertions_eq, ← hA, hpA]
        · rw [ha'.2.2]
          exact Finset.mem_sdiff.mpr ⟨hcp, hcb⟩
    · by_cases hkj : k = j
      · subst hkj
        rw [hb] at hk
        cases hk
        by_cases hca : c ∈ a.chars
        · exact hcommon hca hcp (hB ▸ hpA) (.inr hpz)
        · refine ⟨b', List.mem_of_getElem? hs.right, ?_, ?_, hsub_b.trans hpz⟩
          · rw [hb'.1.assertions_eq, ← hB, hpA]
          · rw [hb'.2.2]
            exact Finset.mem_sdiff.mpr ⟨hcp, hca⟩
      · exact ⟨p, List.mem_of_getElem? (hs.other k p hk hki hkj), hpA, hcp, hpz⟩
  · intro p hp
    rcases hmem p hp with rfl | rfl | rfl | hp
    · exact ⟨x, hx, by rw [hxA, hA, ha'.1.assertions_eq], hsub_a.trans hax⟩
    · exact ⟨y, hy, by rw [hyA, hB, hb'.1.assertions_eq], hsub_b.trans hby⟩
    · exact ⟨x, hx, by rw [hxA, hA, his.1.assertions_eq], hsub_is.trans hax⟩
    · exact h.within p hp
  · intro p hp
    rcases hmem p hp with rfl | rfl | rfl | hp
    · exact .inr ha'.2.1
    · exact .inr hb'.2.1
    · exact .inr his.2.1
    · exact h.unsplit p hp

/-- The step lemma. -/
theorem Refined.splitPair (h : Refined orig g) (hij : i ≠ j)
    (hsplit : Justrx.splitPair g i j = (g', true)) : Refined orig g' := by
  obtain ⟨a, b, is, ha, hb, his, rfl⟩ := splitPair_true hsplit
  obtain ⟨hka, hkb, hkis, hcis, -⟩ := intersect_eq_some his
  have hab := h.separated i j a b ha hb hij hkb.assertions_eq.symm
  have hba := h.separated j i b a hb ha hij.symm hkb.assertions_eq
  have ha' := subtract_spec hka hkb hba
  have hb' := subtract_spec hkb hka hab
  rcases intersect_spec hka hkb ⟨hab, hba⟩ with ⟨hnone, -⟩ | ⟨is', hsome, -, -, heq, -⟩
  · rw [hnone] at his
    cases his
  · rw [his] at hsome
    cases hsome
    have hproper : ∀ p ∈ (g.set i (subtract a b)).set j (subtract b a), p.ranges = some p.rangeList := by
      intro p hp
      rcases List.mem_or_eq_of_mem_set hp with hp | rfl
      · rcases List.mem_or_eq_of_mem_set hp with hp | rfl
        · exact h.proper p hp
        · exact ha'.1.ranges_eq
      · exact hb'.1.ranges_eq
    have hs := groupAddTo_split hij (List.getElem?_eq_some_iff.mp ha).1
      (List.getElem?_eq_some_iff.mp hb).1 hproper hkis.ranges_eq
    exact h.split hij ha hb rfl hkb.assertions_eq ha' hb' ⟨hkis, hcis, heq⟩ hs

def PairwiseDisjoint (g : Group) : Prop :=
  ∀ (k l : ℕ) (a b : Ccl), k ≠ l → g[k]? = some a → g[l]? = some b → a.assertions = b.assertions →
    Disjoint a.chars b.chars

theorem Refined.disjoint (h : Refined orig g)
    (hdone : ∀ (k l : ℕ) (a b : Ccl), k < l → g[k]? = some a → g[l]? = some b →
      intersect a b = none) : PairwiseDisjoint g := by
  have hlt : ∀ (k l : ℕ) (a b : Ccl), k < l → g[k]? = some a → g[l]? = some b →
      a.assertions = b.assertions → Disjoint a.chars b.chars := by
    intro k l a b hkl ha hb hab
    have hka : a.Kind a.assertions := ⟨rfl, h.proper a (List.mem_of_getElem? ha)⟩
    have hkb : b.Kind a.assertions := ⟨hab.symm, h.proper b (List.mem_of_getElem? hb)⟩
    have hsep := h.separated k l a b ha hb hkl.ne hab
    have hsep' := h.separated l k b a hb ha hkl.ne' hab.symm
    rcases intersect_spec hka hkb ⟨hsep, hsep'⟩ with ⟨-, hdis⟩ | ⟨is, hsome, -⟩
    · exact hdis
    · rw [hdone k l a b hkl ha hb] at hsome
      cases hsome
  intro k l a b hkl ha hb hab
  rcases Nat.lt_or_gt_of_ne hkl with hkl | hkl
  · exact hlt k l a b hkl ha hb hab
  · exact (hlt l k b a hkl hb ha hab.symm).symm

end

/-! ## More fuel -/

theorem splitFrom_mono {i fuel fuel' j : ℕ} {g : Group} {changed : Bool} {r : Group × Bool}
    (h : splitFrom i fuel g j changed = some r) (hle : fuel ≤ fuel') :
    splitFrom i fuel' g j changed = some r := by
  induction fuel generalizing fuel' g j changed with
  | zero => simp [splitFrom] at h
  | succ fuel ih =>
    obtain ⟨n, rfl⟩ : ∃ n, fuel' = n + 1 := ⟨fuel' - 1, by omega⟩
    unfold splitFrom at h ⊢
    split
    · rename_i hj
      rw [if_pos hj] at h
      exact ih h (by omega)
    · rename_i hj
      rwa [if_neg hj] at h

theorem splitAll_mono {fuel fuel' i : ℕ} {g : Group} {changed : Bool} {r : Group × Bool}
    (h : splitAll fuel g i changed = some r) (hle : fuel ≤ fuel') :
    splitAll fuel' g i changed = some r := by
  induction fuel generalizing fuel' g i changed with
  | zero => simp [splitAll] at h
  | succ fuel ih =>
    obtain ⟨n, rfl⟩ : ∃ n, fuel' = n + 1 := ⟨fuel' - 1, by omega⟩
    unfold splitAll at h ⊢
    split
    · rename_i hi
      rw [if_pos hi] at h
      obtain ⟨q, hq, hrest⟩ := Option.bind_eq_some_iff.mp h
      have hq' := splitFrom_mono hq (show fuel ≤ n by omega)
      exact Option.bind_eq_some_iff.mpr ⟨q, hq', ih hrest (by omega)⟩
    · rename_i hi
      rwa [if_neg hi] at h

theorem groupDisambiguate_mono {fuel fuel' : ℕ} {g g' : Group}
    (h : groupDisambiguate fuel g = some g') (hle : fuel ≤ fuel') :
    groupDisambiguate fuel' g = some g' := by
  induction fuel generalizing fuel' g with
  | zero => simp [groupDisambiguate] at h
  | succ fuel ih =>
    obtain ⟨n, rfl⟩ : ∃ n, fuel' = n + 1 := ⟨fuel' - 1, by omega⟩
    unfold groupDisambiguate at h ⊢
    obtain ⟨q, hq, hrest⟩ := Option.bind_eq_some_iff.mp h
    have hq' := splitAll_mono hq (show fuel ≤ n by omega)
    refine Option.bind_eq_some_iff.mpr ⟨q, hq', ?_⟩
    split
    · rename_i hchanged
      rw [if_pos hchanged] at hrest
      exact ih hrest (by omega)
    · rename_i hchanged
      rwa [if_neg hchanged] at hrest

/-! ## Groups of ordered classes -/

/-- A set of disjoint half-open ranges, kept in order. -/
structure Ccl.Ordered (a : Ccl) : Prop where
  ranges_eq : a.ranges = some a.rangeList
  sorted : a.rangeList.Pairwise Range.Before
  half_open : ∀ r ∈ a.rangeList, r.begin ≤ r.stop
  disjoint : a.rangeList.Pairwise fun r s => Disjoint r.chars s.chars

theorem Ccl.Ordered.avoids {a : Ccl} (h : a.Ordered) (s : Finset ℕ) :
    ∀ r ∈ a.rangeList, r.Avoids s := by
  intro r hr hlt
  have := h.half_open r hr
  omega

theorem Refined.of_ordered {g : Group} (hg : ∀ a ∈ g, a.Ordered) : Refined g g := by
  constructor
  · exact fun p hp => (hg p hp).ranges_eq
  · exact fun k l p q hp _ _ _ => (hg p (List.mem_of_getElem? hp)).avoids q.chars
  · exact fun x hx c hc => ⟨x, hx, rfl, hc, subset_rfl⟩
  · exact fun p hp => ⟨p, hp, rfl, subset_rfl⟩
  · exact fun p hp => .inl hp

/-- The classes of the group that lie within `x` and have some character. -/
def partsOf (g : Group) (x : Ccl) : List Ccl :=
  g.filter fun p => p.chars ⊆ x.chars ∧ p.chars ≠ ∅

theorem Refined.chars_eq {orig g : Group} (h : Refined orig g) {x : Ccl} (hx : x ∈ orig) :
    x.chars = (partsOf g x).toFinset.biUnion Ccl.chars := by
  ext c
  simp only [Finset.mem_biUnion, List.mem_toFinset, partsOf, List.mem_filter, decide_eq_true_eq]
  constructor
  · intro hc
    obtain ⟨p, hp, -, hcp, hpx⟩ := h.covers x hx c hc
    exact ⟨p, ⟨hp, hpx, Finset.ne_empty_of_mem hcp⟩, hcp⟩
  · rintro ⟨p, ⟨-, hpx, -⟩, hcp⟩
    exact hpx hcp

/-- What disambiguation is for: the classes become disjoint, and the old ones are unions of
those that have characters. -/
theorem groupDisambiguate_partition {A : Finset Assertion} {g : Group}
    (hA : ∀ a ∈ g, a.assertions = A) (hg : ∀ a ∈ g, a.Ordered) :
    ∃ (n : ℕ) (g' : Group), (∀ fuel, n ≤ fuel → groupDisambiguate fuel g = some g') ∧
      (∀ (k l : ℕ) (a b : Ccl), k ≠ l → g'[k]? = some a → g'[l]? = some b →
        Disjoint a.chars b.chars) ∧
      ∀ x ∈ g, ∃ parts : List Ccl, parts ⊆ g' ∧ (∀ p ∈ parts, p.chars.Nonempty) ∧
        x.chars = parts.toFinset.biUnion Ccl.chars := by
  obtain ⟨g', hrun, hrefined, hdone⟩ := groupDisambiguate_spec (P := Refined g)
    (fun _ _ _ _ hij h hsplit => h.splitPair hij hsplit) (Refined.of_ordered hg) (Nat.lt_succ_self _)
  have hassert : ∀ (k : ℕ) (a : Ccl), g'[k]? = some a → a.assertions = A := by
    intro k a ha
    obtain ⟨x, hx, hxA, -⟩ := hrefined.within a (List.mem_of_getElem? ha)
    rw [← hxA, hA x hx]
  refine ⟨_, g', fun fuel hfuel => groupDisambiguate_mono hrun hfuel, ?_, ?_⟩
  · intro k l a b hkl ha hb
    exact hrefined.disjoint hdone k l a b hkl ha hb ((hassert k a ha).trans (hassert l b hb).symm)
  · intro x hx
    refine ⟨partsOf g' x, List.filter_subset_self _, fun p hp => ?_, hrefined.chars_eq hx⟩
    have hne := (List.mem_filter.mp hp).2
    simp only [decide_eq_true_eq] at hne
    exact Finset.nonempty_iff_ne_empty.mpr hne.2

theorem groupDisambiguate_partition_nested :
    ∃ (n : ℕ) (g' : Group), (∀ fuel, n ≤ fuel →
        groupDisambiguate fuel [⟨∅, some [⟨97, 123⟩]⟩, ⟨∅, some [⟨98, 99⟩]⟩] = some g') ∧
      (∀ (k l : ℕ) (a b : Ccl), k ≠ l → g'[k]? = some a → g'[l]? = some b →
        Disjoint a.chars b.chars) ∧
      ∀ x ∈ ([⟨∅, some [⟨97, 123⟩]⟩, ⟨∅, some [⟨98, 99⟩]⟩] : Group), ∃ parts : List Ccl,
        parts ⊆ g' ∧ (∀ p ∈ parts, p.chars.Nonempty) ∧
          x.chars = parts.toFinset.biUnion Ccl.chars := by
  refine groupDisambiguate_partition (A := ∅) (by decide) ?_
  intro a ha
  simp only [List.mem_cons, List.not_mem_nil, or_false] at ha
  obtain rfl | rfl := ha
  · exact ⟨rfl, by simp [Ccl.rangeList], by simp [Ccl.rangeList], by simp [Ccl.rangeList]⟩
  · exact ⟨rfl, by simp [Ccl.rangeList], by simp [Ccl.rangeList], by simp [Ccl.rangeList]⟩

/-- `b` is all in `a` to `z`: nothing is left of it but the common part, which is added to the
group, and the class it has been stays there without a range. -/
theorem absorbed_class_empty :
    ¬∀ (A : Finset Assertion) (g : Group), (∀ a ∈ g, a.assertions = A) → (∀ a ∈ g, a.Ordered) →
      (∀ a ∈ g, a.chars.Nonempty) → ∀ (fuel : ℕ) (g' : Group), groupDisambiguate fuel g = some g' →
      ∀ p ∈ g', p.chars.Nonempty := by
  intro h
  have hg : groupDisambiguate 9 [⟨∅, some [⟨97, 123⟩]⟩, ⟨∅, some [⟨98, 99⟩]⟩] =
      some [⟨∅, some [⟨97, 98⟩, ⟨99, 123⟩]⟩, ⟨∅, some []⟩, ⟨∅, some [⟨98, 99⟩]⟩] := by decide
  have hempty := h ∅ _ (by decide) ?_ ?_ 9 _ hg ⟨∅, some []⟩ (by simp)
  · simp [Ccl.chars, Ccl.rangeList, charsOf] at hempty
  · intro a ha
    simp only [List.mem_cons, List.not_mem_nil, or_false] at ha
    obtain rfl | rfl := ha
    · exact ⟨rfl, by simp [Ccl.rangeList], by simp [Ccl.rangeList], by simp [Ccl.rangeList]⟩
    · exact ⟨rfl, by simp [Ccl.rangeList], by simp [Ccl.rangeList], by simp [Ccl.rangeList]⟩
  · intro a ha
    simp only [List.mem_cons, List.not_mem_nil, or_false] at ha
    obtain rfl | rfl := ha
    · exact ⟨97, by decide⟩
    · exact ⟨98, by decide⟩

end Hilti.Justrx
