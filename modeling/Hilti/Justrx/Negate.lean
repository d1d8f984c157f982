import Hilti.Justrx.Classes
import Hilti.Lib.Machine

/-!
# Building and negating character classes

The functions of `justrx/src/ccl.c` and `jlocale.c` that the grammar of patterns calls for what
stands between brackets, and `ccl_negate`.  A class that joining builds is a set of ranges in the
order of their first characters; ranges may overlap or lie within each other, and negation keeps no
more than the end of the range it has seen last.
-/

namespace Hilti.Justrx

open Hilti.Lib

set_option autoImplicit false

/-! ## The group -/

/-- `jrx_std_ccl`. -/
inductive StdCcl where
  | epsilon | any | lower | upper | word | digit | blank
  deriving DecidableEq

/-- `JRX_CHAR_MAX`; the ranges of `.` end here. -/
def charMax : ℕ := 2 ^ 32 - 1

/-- `jrx_ccl_group` with its cache of standard classes. -/
structure CclGroup where
  ccls : Group
  stdCcls : StdCcl → Option ℕ

namespace CclGroup

/-- `ccl_group_create`. -/
def create : CclGroup := ⟨[], fun _ => none⟩

/-- `_ccl_group_add_to`. -/
def addTo (group : CclGroup) (ccl : Ccl) : CclGroup × ℕ :=
  let r := groupAddTo group.ccls ccl
  ({ group with ccls := r.1 }, r.2)

/-- `ccl_empty`. -/
def empty (group : CclGroup) : CclGroup × ℕ :=
  group.addTo ⟨∅, some []⟩

/-- `ccl_from_range`. -/
def fromRange (group : CclGroup) (begin stop : UInt32) : CclGroup × ℕ :=
  group.addTo ⟨∅, some (rangeInsert ⟨begin.toNat, stop.toNat⟩ [])⟩

/-- `set_char_range_join`. -/
def rangesJoin (set other : List Range) : List Range :=
  other.foldl (fun set r => rangeInsert r set) set

/-- `ccl_join`; the classes must have the same assertions. -/
def join (group : CclGroup) (ccl1 ccl2 : ℕ) : Option (CclGroup × ℕ) :=
  match group.ccls[ccl1]?, group.ccls[ccl2]? with
  | some a, some b =>
    if a.assertions ≠ b.assertions then none
    else some (group.addTo ⟨∅, some (rangesJoin (rangesJoin [] a.rangeList) b.rangeList)⟩)
  | _, _ => none

/-- `_add_range`, the last character included. -/
def addRange (group : CclGroup) (ccl : ℕ) (min max : UInt32) : Option (CclGroup × ℕ) :=
  let r := group.fromRange min (max + 1)
  r.1.join ccl r.2

/-- The functions of `jlocale.c`: the empty class, with ranges added one after another. -/
def localCcl (group : CclGroup) (ranges : List (UInt32 × UInt32)) : Option (CclGroup × ℕ) :=
  ranges.foldlM (fun r range => r.1.addRange r.2 range.1 range.2) group.empty

def localCclLower (group : CclGroup) : Option (CclGroup × ℕ) := group.localCcl [(97, 122)]

def localCclUpper (group : CclGroup) : Option (CclGroup × ℕ) := group.localCcl [(65, 90)]

def localCclWord (group : CclGroup) : Option (CclGroup × ℕ) :=
  group.localCcl [(97, 122), (65, 90), (48, 57), (95, 95)]

def localCclDigit (group : CclGroup) : Option (CclGroup × ℕ) := group.localCcl [(48, 57)]

def localCclBlank (group : CclGroup) : Option (CclGroup × ℕ) := group.localCcl [(32, 32), (9, 9)]

/-- Adding a class that may be part of the group already. -/
def addAgain (r : CclGroup × ℕ) : Option (CclGroup × ℕ) :=
  (r.1.ccls[r.2]?).map r.1.addTo

/-- What `ccl_from_std_ccl` does for a class it has not computed before. -/
def computeStd (group : CclGroup) : StdCcl → Option (CclGroup × ℕ)
  | .epsilon => some (group.addTo ⟨∅, none⟩)
  | .any => addAgain (group.fromRange 0 (UInt32.ofNat charMax))
  | .lower => group.localCclLower.bind addAgain
  | .upper => group.localCclUpper.bind addAgain
  | .word => group.localCclWord.bind addAgain
  | .digit => group.localCclDigit.bind addAgain
  | .blank => group.localCclBlank.bind addAgain

/-- `ccl_from_std_ccl`. -/
def fromStdCcl (group : CclGroup) (std : StdCcl) : Option (CclGroup × ℕ) :=
  match group.stdCcls std with
  | some ccl => some (group, ccl)
  | none => (group.computeStd std).map fun r =>
      ({ r.1 with stdCcls := fun s => if s = std then some r.2 else r.1.stdCcls s }, r.2)

/-- The loop of `ccl_negate` over the ranges, with the copy and `last`. -/
def negateLoop : List Range → List Range → ℕ → List Range × ℕ
  | [], copy, last => (copy, last)
  | r :: rs, copy, last => negateLoop rs (rangeInsert ⟨last, r.begin⟩ copy) r.stop

/-- The ranges that `ccl_negate` computes for a class that has some. -/
def negateRanges (rs : List Range) : List Range :=
  let r := negateLoop rs [] 0
  cleanup (rangeInsert ⟨r.2, charMax⟩ r.1)

/-- `ccl_negate`. -/
def negate (group : CclGroup) (id : ℕ) : Option (CclGroup × ℕ) :=
  match group.ccls[id]? with
  | none => none
  | some ccl =>
    match ccl.ranges with
    | none => none
    -- the range with all characters goes into the copy, but it is the class that is returned
    | some [] => some (group.addTo ccl)
    | some rs => some (group.addTo ⟨ccl.assertions, some (negateRanges rs)⟩)

/-- `ccl_add_assertions`. -/
def addAssertions (group : CclGroup) (id : ℕ) (assertions : Finset Assertion) :
    Option (CclGroup × ℕ) :=
  (group.ccls[id]?).map fun ccl =>
    group.addTo { ccl with assertions := ccl.assertions ∪ assertions }

end CclGroup

/-! ## The grammar -/

/-- What the rules for `ccl_elem` accept. -/
inductive CclElem where
  | range (first last : UInt32)
  | dynccl (std : StdCcl)
  | codepoint (cp : UInt32)

namespace CclGroup

/-- The actions of the rules for `ccl_elem`. -/
def cclElem (group : CclGroup) : CclElem → Option (CclGroup × ℕ)
  | .range first last => some (group.fromRange first (last + 1))
  | .dynccl std => group.fromStdCcl std
  | .codepoint cp => some (group.fromRange cp (cp + 1))

/-- The elements are reduced from left to right, before any of the rules for `ccl` is. -/
def cclElems : CclGroup → List CclElem → Option (CclGroup × List ℕ)
  | group, [] => some (group, [])
  | group, elem :: elems => do
    let r ← group.cclElem elem
    let rest ← r.1.cclElems elems
    some (rest.1, r.2 :: rest.2)

/-- The actions of the rules for `ccl`, which are reduced from right to left. -/
def joinElems (group : CclGroup) : List ℕ → Option (CclGroup × ℕ)
  | [] => none
  | [ccl] => some (group, ccl)
  | ccl :: ccls => do
    let r ← group.joinElems ccls
    r.1.join ccl r.2

/-- A `ccl` of the grammar. -/
def parseCcl (group : CclGroup) (elems : List CclElem) : Option (CclGroup × ℕ) := do
  let r ← group.cclElems elems
  r.1.joinElems r.2

end CclGroup

/-! ## All groups -/

/-- The functions on a group. -/
inductive CclCall where
  | empty
  | fromRange (begin stop : UInt32)
  | fromStdCcl (std : StdCcl)
  | join (ccl1 ccl2 : ℕ)
  | negate (id : ℕ)
  | addAssertions (id : ℕ) (assertions : Finset Assertion)

def CclGroup.call (group : CclGroup) : CclCall → Option (CclGroup × ℕ)
  | .empty => some group.empty
  | .fromRange begin stop => some (group.fromRange begin stop)
  | .fromStdCcl std => group.fromStdCcl std
  | .join ccl1 ccl2 => group.join ccl1 ccl2
  | .negate id => group.negate id
  | .addAssertions id assertions => group.addAssertions id assertions

/-- A group from its creation on, with any sequence of calls. -/
def cclMachine : Machine CclGroup CclCall where
  start := .create
  next group c := (group.call c).map Prod.fst

/-- The ranges are in order, and as `jrx_char` can hold them. -/
structure Ccl.InOrder (a : Ccl) : Prop where
  sorted : a.rangeList.Pairwise Range.Before
  bounded : ∀ r ∈ a.rangeList, r.begin ≤ charMax ∧ r.stop ≤ charMax

def CclGroup.InOrder (group : CclGroup) : Prop :=
  ∀ a ∈ group.ccls, a.InOrder

/-! ## Sets of ranges stay in order -/

theorem Range.Before.before_trans {r s t : Range} (h : r.Before s) (h' : s.Before t) : r.Before t := by
  unfold Range.Before at *
  omega

theorem Range.before_of_not {r s : Range} (h : ¬r.Before s) (hne : r ≠ s) : s.Before r := by
  have hne' : r.begin = s.begin → r.stop ≠ s.stop := by
    intro hbegin hstop
    apply hne
    cases r
    cases s
    simp_all only
  unfold Range.Before at *
  omega

theorem pairwise_rangeInsert {s : List Range} (hs : s.Pairwise Range.Before) (r : Range) :
    (rangeInsert r s).Pairwise Range.Before := by
  have hbubble : ∀ s : List Range, s.Pairwise Range.Before → r ∉ s →
      (setInsert.bubble Range.Before r s).Pairwise Range.Before := by
    intro s hs hr
    induction s with
    | nil => exact List.pairwise_singleton _ _
    | cons q s ih =>
      obtain ⟨hq, hs⟩ := List.pairwise_cons.mp hs
      obtain ⟨hne, hr⟩ := not_or.mp (mt List.mem_cons.mpr hr)
      unfold setInsert.bubble
      split
      · rename_i hlt
        refine List.pairwise_cons.mpr ⟨?_, List.pairwise_cons.mpr ⟨hq, hs⟩⟩
        intro p hp
        rcases List.mem_cons.mp hp with rfl | hp
        · exact hlt
        · exact hlt.before_trans (hq p hp)
      · rename_i hlt
        refine List.pairwise_cons.mpr ⟨?_, ih hs hr⟩
        intro p hp
        have hmem := (mem_setInsert Range.Before r p s).mp (by rw [setInsert, if_neg hr]; exact hp)
        rcases hmem with rfl | hp
        · exact Range.before_of_not hlt hne
        · exact hq p hp
  unfold rangeInsert setInsert
  split
  · exact hs
  · rename_i hr
    exact hbubble s hs hr

theorem pairwise_insertAll {l s : List Range} (hs : s.Pairwise Range.Before) :
    (l.foldl (fun s r => rangeInsert r s) s).Pairwise Range.Before := by
  induction l generalizing s with
  | nil => exact hs
  | cons r l ih => exact ih (pairwise_rangeInsert hs r)

theorem pairwise_cleanup (rs : List Range) : (cleanup rs).Pairwise Range.Before := by
  have hfold : ∀ (rs s : List Range), s.Pairwise Range.Before →
      (rs.foldl (fun nranges r => if r.begin < r.stop then rangeInsert r nranges else nranges)
        s).Pairwise Range.Before := by
    intro rs
    induction rs with
    | nil => exact fun s hs => hs
    | cons r rs ih =>
      intro s hs
      apply ih
      dsimp only
      split
      · exact pairwise_rangeInsert hs r
      · exact hs
  exact hfold rs [] List.Pairwise.nil

/-! ## What negation computes -/

/-- The ranges before, between and after the given ones, as the loop of `ccl_negate` sees them. -/
def gaps (last : ℕ) : List Range → List Range
  | [] => [⟨last, charMax⟩]
  | r :: rs => ⟨last, r.begin⟩ :: gaps r.stop rs

/-- Where the range after the one at position `i` begins, or the alphabet ends. -/
def nextBegin (rs : List Range) (i : ℕ) : ℕ :=
  ((rs[i + 1]?).map Range.begin).getD charMax

/-- Whenever a range ends before one that stands in front of it, so that characters of the latter
follow, the next range has begun by then. -/
def NoneOvertaken (rs : List Range) : Prop :=
  ∀ (i j : ℕ) (r s : Range), i < j → rs[i]? = some r → rs[j]? = some s →
    min r.stop (nextBegin rs j) ≤ max s.stop r.begin

theorem mem_negateLoop (q : Range) (rs copy : List Range) (last : ℕ) :
    q ∈ rangeInsert ⟨(CclGroup.negateLoop rs copy last).2, charMax⟩
        (CclGroup.negateLoop rs copy last).1 ↔ q ∈ gaps last rs ∨ q ∈ copy := by
  induction rs generalizing copy last with
  | nil =>
    rw [CclGroup.negateLoop, gaps, rangeInsert, mem_setInsert, List.mem_singleton]
  | cons r rs ih =>
    rw [CclGroup.negateLoop, ih, gaps, rangeInsert, mem_setInsert, List.mem_cons]
    tauto

theorem charsOf_negateRanges (rs : List Range) :
    charsOf (CclGroup.negateRanges rs) = charsOf (gaps 0 rs) := by
  rw [CclGroup.negateRanges, charsOf_cleanup]
  ext c
  simp only [mem_charsOf, mem_negateLoop, List.not_mem_nil, or_false]

theorem charsOf_cons (r : Range) (rs : List Range) : charsOf (r :: rs) = r.chars ∪ charsOf rs := by
  ext c
  rw [Finset.mem_union, mem_charsOf, mem_charsOf]
  simp only [List.mem_cons, exists_eq_or_imp]

theorem mem_charsOf_gaps {c last : ℕ} {rs : List Range} :
    c ∈ charsOf (gaps last rs) ↔ (last ≤ c ∧ c < ((rs.head?).map Range.begin).getD charMax) ∨
      ∃ (j : ℕ) (s : Range), rs[j]? = some s ∧ s.stop ≤ c ∧ c < nextBegin rs j := by
  induction rs generalizing last with
  | nil => simp [gaps, charsOf]
  | cons r rs ih =>
    rw [gaps, charsOf_cons, Finset.mem_union, ih, Range.mem_chars]
    have hhead : ((rs.head?).map Range.begin).getD charMax = nextBegin (r :: rs) 0 := by
      rw [nextBegin, List.head?_eq_getElem?, List.getElem?_cons_succ]
    have htail : ∀ j, nextBegin rs j = nextBegin (r :: rs) (j + 1) := by
      intro j
      rw [nextBegin, nextBegin, List.getElem?_cons_succ]
    rw [hhead]
    constructor
    · rintro (h | h | ⟨j, s, hs, h⟩)
      · exact .inl h
      · exact .inr ⟨0, r, rfl, h⟩
      · exact .inr ⟨j + 1, s, hs, by rwa [← htail]⟩
    · rintro (h | ⟨_ | j, s, hs, h⟩)
      · exact .inl h
      · cases hs
        exact .inr (.inl h)
      · exact .inr (.inr ⟨j, s, hs, by rwa [htail]⟩)

theorem mem_gaps_of_not_mem {c last : ℕ} {rs : List Range} (hlast : last ≤ c) (hc : c < charMax)
    (h : c ∉ charsOf rs) : c ∈ charsOf (gaps last rs) := by
  induction rs generalizing last with
  | nil => simpa [gaps, charsOf] using ⟨hlast, hc⟩
  | cons r rs ih =>
    rw [charsOf_cons, Finset.mem_union, not_or] at h
    obtain ⟨hr, hrest⟩ := h
    rw [gaps, charsOf_cons, Finset.mem_union, Range.mem_chars]
    rw [Range.mem_chars] at hr
    rcases Nat.lt_or_ge c r.begin with hlt | hge
    · exact .inl ⟨hlast, hlt⟩
    · exact .inr (ih (by omega) hrest)

theorem overtaken_of_mem {c : ℕ} {rs : List Range} (hs : rs.Pairwise Range.Before)
    (hgap : c ∈ charsOf (gaps 0 rs)) (hc : c ∈ charsOf rs) : ¬NoneOvertaken rs := by
  obtain ⟨r, hr, hcr⟩ := mem_charsOf.mp hc
  obtain ⟨i, hi⟩ := List.mem_iff_getElem?.mp hr
  rw [Range.mem_chars] at hcr
  -- the ranges are in the order of their first characters
  have hle : ∀ (k l : ℕ) (p q : Range), k < l → rs[k]? = some p → rs[l]? = some q →
      p.begin ≤ q.begin := by
    intro k l p q hkl hp hq
    obtain ⟨hk, rfl⟩ := List.getElem?_eq_some_iff.mp hp
    obtain ⟨hl, rfl⟩ := List.getElem?_eq_some_iff.mp hq
    have hbefore := List.pairwise_iff_getElem.mp hs k l hk hl hkl
    unfold Range.Before at hbefore
    omega
  intro hnone
  rcases mem_charsOf_gaps.mp hgap with ⟨-, hlt⟩ | ⟨j, s, hj, hstop, hnext⟩
  · -- before the first range there is no character of any
    cases rs with
    | nil => simp at hr
    | cons q rs =>
      simp only [List.head?_cons, Option.map_some, Option.getD_some] at hlt
      cases i with
      | zero =>
        cases hi
        omega
      | succ i =>
        have := hle 0 (i + 1) q r (Nat.succ_pos i) rfl hi
        omega
  · rcases Nat.lt_trichotomy i j with hij | rfl | hji
    · have := hnone i j r s hij hi hj
      omega
    · rw [hi] at hj
      cases hj
      omega
    · -- a range behind the gap begins at its end or later
      obtain ⟨q, hq⟩ : ∃ q, rs[j + 1]? = some q :=
        ⟨_, List.getElem?_eq_getElem (by
          have := (List.getElem?_eq_some_iff.mp hi).1
          omega)⟩
      have hbegin : nextBegin rs j = q.begin := by simp [nextBegin, hq]
      rcases Nat.lt_or_ge (j + 1) i with hlt | hge
      · have := hle (j + 1) i q r hlt hq hi
        omega
      · obtain rfl : i = j + 1 := by omega
        rw [hi] at hq
        cases hq
        omega

theorem negateRanges_exact_iff {rs : List Range} (hs : rs.Pairwise Range.Before)
    (hbound : ∀ r ∈ rs, r.stop ≤ charMax) :
    (∀ c < charMax, c ∈ charsOf (CclGroup.negateRanges rs) ↔ c ∉ charsOf rs) ↔
      NoneOvertaken rs := by
  rw [charsOf_negateRanges]
  constructor
  · intro h i j r s hij hi hj
    by_contra hover
    -- the first character of the earlier range in the gap behind the later one
    have hc : max s.stop r.begin < charMax := by
      have := hbound r (List.mem_of_getElem? hi)
      omega
    have hmem : max s.stop r.begin ∈ charsOf rs :=
      mem_charsOf.mpr ⟨r, List.mem_of_getElem? hi, by rw [Range.mem_chars]; omega⟩
    have hgap : max s.stop r.begin ∈ charsOf (gaps 0 rs) :=
      mem_charsOf_gaps.mpr (.inr ⟨j, s, hj, by omega, by omega⟩)
    exact (h _ hc).mp hgap hmem
  · intro hnone c hc
    constructor
    · exact fun hgap hmem => overtaken_of_mem hs hgap hmem hnone
    · exact fun hmem => mem_gaps_of_not_mem (Nat.zero_le c) hc hmem

/-! ## Classes of a group -/

section

variable {group : CclGroup} {a : Ccl}

theorem Ccl.InOrder.of_assertions {b : Ccl} (h : a.InOrder) (hranges : b.ranges = a.ranges) :
    b.InOrder := by
  have heq : b.rangeList = a.rangeList := by rw [Ccl.rangeList, Ccl.rangeList, hranges]
  constructor
  · rw [heq]
    exact h.sorted
  · rw [heq]
    exact h.bounded

theorem compare_ranges_isSome {b : Ccl} (ha : a.ranges = some a.rangeList) (h : a.compare b) :
    b.ranges = some b.rangeList := by
  rw [Ccl.compare, Bool.and_eq_true] at h
  have hpart := h.1
  unfold Ccl.isPartOf at hpart
  rw [ha] at hpart
  cases hb : b.ranges with
  | some rs => rw [Ccl.rangeList, hb, Option.getD_some]
  | none =>
    rw [hb] at hpart
    simp at hpart

theorem compare_assertions {b : Ccl} (h : a.compare b) : a.assertions = b.assertions := by
  rw [Ccl.compare, Bool.and_eq_true] at h
  by_contra hne
  rw [Ccl.isPartOf, if_pos hne] at h
  simp at h

theorem CclGroup.addTo_chars (group : CclGroup) (ha : a.ranges = some a.rangeList) :
    ∃ p, (group.addTo a).1.ccls[(group.addTo a).2]? = some p ∧ p.chars = a.chars := by
  unfold CclGroup.addTo groupAddTo
  cases hfind : groupFind group.ccls a with
  | none => exact ⟨a, List.getElem?_concat_length, rfl⟩
  | some k =>
    obtain ⟨hlt, hcmp, -⟩ := List.findIdx?_eq_some_iff_getElem.mp hfind
    have hb := compare_ranges_isSome ha hcmp
    have hchars := compare_chars (A := a.assertions) ⟨rfl, ha⟩ ⟨(compare_assertions hcmp).symm, hb⟩
      hcmp
    exact ⟨group.ccls[k], List.getElem?_eq_getElem hlt, hchars.symm⟩

theorem CclGroup.InOrder.addTo (h : group.InOrder) (ha : a.InOrder) :
    (group.addTo a).1.InOrder := by
  intro p hp
  unfold CclGroup.addTo groupAddTo at hp
  cases hfind : groupFind group.ccls a with
  | some k =>
    rw [hfind] at hp
    exact h p hp
  | none =>
    rw [hfind] at hp
    rcases List.mem_append.mp hp with hp | hp
    · exact h p hp
    · rwa [List.mem_singleton.mp hp]

end

/-! ## Every group is in order -/

theorem toNat_le_charMax (c : UInt32) : c.toNat ≤ charMax := by
  have := c.toNat_lt
  unfold charMax
  omega

theorem mem_rangesJoin {r : Range} {set other : List Range} :
    r ∈ CclGroup.rangesJoin set other ↔ r ∈ other ∨ r ∈ set :=
  mem_insertAll Range.Before r other set

namespace CclGroup.InOrder

variable {group : CclGroup}

theorem empty (h : group.InOrder) : group.empty.1.InOrder :=
  h.addTo ⟨List.Pairwise.nil, fun _ hr => absurd hr List.not_mem_nil⟩

theorem fromRange (h : group.InOrder) (begin stop : UInt32) :
    (group.fromRange begin stop).1.InOrder := by
  refine h.addTo ⟨pairwise_rangeInsert List.Pairwise.nil _, ?_⟩
  intro r hr
  obtain rfl := ((mem_setInsert Range.Before _ r []).mp hr).resolve_right List.not_mem_nil
  exact ⟨toNat_le_charMax begin, toNat_le_charMax stop⟩

theorem join (h : group.InOrder) {i j : ℕ} {r : CclGroup × ℕ} (hr : group.join i j = some r) :
    r.1.InOrder := by
  unfold CclGroup.join at hr
  split at hr
  · rename_i a b ha hb
    split at hr
    · cases hr
    · cases hr
      refine h.addTo ⟨pairwise_insertAll (pairwise_insertAll List.Pairwise.nil), ?_⟩
      intro r hr
      rcases mem_rangesJoin.mp hr with hr | hr
      · exact (h b (List.mem_of_getElem? hb)).bounded r hr
      · have hr := (mem_rangesJoin.mp hr).resolve_right List.not_mem_nil
        exact (h a (List.mem_of_getElem? ha)).bounded r hr
  · cases hr

theorem localCcl (h : group.InOrder) {ranges : List (UInt32 × UInt32)} {r : CclGroup × ℕ}
    (hr : group.localCcl ranges = some r) : r.1.InOrder := by
  have hfold : ∀ (ranges : List (UInt32 × UInt32)) (s : CclGroup × ℕ), s.1.InOrder →
      ranges.foldlM (fun r range => r.1.addRange r.2 range.1 range.2) s = some r → r.1.InOrder := by
    intro ranges
    induction ranges with
    | nil =>
      intro s hs heq
      cases heq
      exact hs
    | cons range ranges ih =>
      intro s hs heq
      rw [List.foldlM_cons] at heq
      obtain ⟨t, ht, heq⟩ := Option.bind_eq_some_iff.mp heq
      exact ih t (join (hs.fromRange _ _) ht) heq
  exact hfold ranges group.empty h.empty hr

theorem addAgain {s r : CclGroup × ℕ} (h : s.1.InOrder) (hr : CclGroup.addAgain s = some r) :
    r.1.InOrder := by
  obtain ⟨a, ha, rfl⟩ := Option.map_eq_some_iff.mp hr
  exact h.addTo (h a (List.mem_of_getElem? ha))

theorem computeStd (h : group.InOrder) {std : StdCcl} {r : CclGroup × ℕ}
    (hr : group.computeStd std = some r) : r.1.InOrder := by
  have hlocal : ∀ ranges, (group.localCcl ranges).bind CclGroup.addAgain = some r → r.1.InOrder := by
    intro ranges hr
    obtain ⟨s, hs, hr⟩ := Option.bind_eq_some_iff.mp hr
    exact addAgain (h.localCcl hs) hr
  cases std with
  | epsilon =>
    cases hr
    exact h.addTo ⟨List.Pairwise.nil, fun _ hr => absurd hr List.not_mem_nil⟩
  | any => exact addAgain (h.fromRange _ _) hr
  | lower => exact hlocal _ hr
  | upper => exact hlocal _ hr
  | word => exact hlocal _ hr
  | digit => exact hlocal _ hr
  | blank => exact hlocal _ hr

theorem fromStdCcl (h : group.InOrder) {std : StdCcl} {r : CclGroup × ℕ}
    (hr : group.fromStdCcl std = some r) : r.1.InOrder := by
  unfold CclGroup.fromStdCcl at hr
  split at hr
  · cases hr
    exact h
  · obtain ⟨s, hs, rfl⟩ := Option.map_eq_some_iff.mp hr
    have hcomputed := CclGroup.InOrder.computeStd h hs
    exact fun a ha => hcomputed a ha

theorem negate (h : group.InOrder) {i : ℕ} {r : CclGroup × ℕ} (hr : group.negate i = some r) :
    r.1.InOrder := by
  unfold CclGroup.negate at hr
  split at hr
  · cases hr
  · rename_i a ha
    have hbound := (h a (List.mem_of_getElem? ha)).bounded
    split at hr
    · cases hr
    · cases hr
      exact h.addTo (h a (List.mem_of_getElem? ha))
    · rename_i rs _ hrs
      cases hr
      refine h.addTo ⟨pairwise_cleanup _, ?_⟩
      -- the gaps begin and end where ranges do, or at the ends of the alphabet
      have hgaps : ∀ (rs : List Range) (last : ℕ), last ≤ charMax →
          (∀ r ∈ rs, r.begin ≤ charMax ∧ r.stop ≤ charMax) →
          ∀ q ∈ gaps last rs, q.begin ≤ charMax ∧ q.stop ≤ charMax := by
        intro rs
        induction rs with
        | nil =>
          intro last hlast _ q hq
          rw [gaps, List.mem_singleton] at hq
          subst hq
          exact ⟨hlast, le_refl _⟩
        | cons r rs ih =>
          intro last hlast hrs q hq
          obtain ⟨hr, hrs⟩ := List.forall_mem_cons.mp hrs
          rcases List.mem_cons.mp hq with rfl | hq
          · exact ⟨hlast, hr.1⟩
          · exact ih r.stop hr.2 hrs q hq
      intro q hq
      have hmem := ((mem_negateLoop q rs [] 0).mp (mem_cleanup.mp hq).1).resolve_right
        List.not_mem_nil
      rw [Ccl.rangeList, hrs] at hbound
      exact hgaps rs 0 (Nat.zero_le _) hbound q hmem

theorem addAssertions (h : group.InOrder) {i : ℕ} {A : Finset Assertion} {r : CclGroup × ℕ}
    (hr : group.addAssertions i A = some r) : r.1.InOrder := by
  obtain ⟨a, ha, rfl⟩ := Option.map_eq_some_iff.mp hr
  exact h.addTo ((h a (List.mem_of_getElem? ha)).of_assertions rfl)

/-- The step lemma. -/
theorem call (h : group.InOrder) {c : CclCall} {r : CclGroup × ℕ} (hr : group.call c = some r) :
    r.1.InOrder := by
  cases c with
  | empty =>
    cases hr
    exact h.empty
  | fromRange begin stop =>
    cases hr
    exact h.fromRange begin stop
  | fromStdCcl std => exact h.fromStdCcl hr
  | join ccl1 ccl2 => exact h.join hr
  | negate id => exact h.negate hr
  | addAssertions id A => exact h.addAssertions hr

end CclGroup.InOrder

theorem reachable_inOrder {group : CclGroup} (h : cclMachine.Reachable group) : group.InOrder := by
  apply h.invariant
  · exact fun a ha => absurd ha List.not_mem_nil
  · intro s t c hs hn
    obtain ⟨r, hr, rfl⟩ := Option.map_eq_some_iff.mp hn
    exact hs.call hr

/-! ## Negation -/

/-- For every class that is not epsilon in every group that calls can lead to: what `ccl_negate`
returns has the other characters of the alphabet if and only if the class has a range and none of
its ranges is overtaken. -/
theorem negate_complement_iff {group : CclGroup} (h : cclMachine.Reachable group) {id : ℕ} {ccl : Ccl}
    {rs : List Range} (hid : group.ccls[id]? = some ccl) (hranges : ccl.ranges = some rs) :
    ∃ (group' : CclGroup) (id' : ℕ) (neg : Ccl), group.negate id = some (group', id') ∧
      group'.ccls[id']? = some neg ∧
      ((∀ c < charMax, c ∈ neg.chars ↔ c ∉ ccl.chars) ↔ rs ≠ [] ∧ NoneOvertaken rs) := by
  have hlist : ccl.rangeList = rs := by rw [Ccl.rangeList, hranges, Option.getD_some]
  obtain ⟨hsorted, hbound⟩ := reachable_inOrder h ccl (List.mem_of_getElem? hid)
  rw [hlist] at hsorted hbound
  have hchars : ccl.chars = charsOf rs := by rw [Ccl.chars, hlist]
  cases rs with
  | nil =>
    obtain ⟨p, hp, hpc⟩ := CclGroup.addTo_chars group (hlist ▸ hranges)
    refine ⟨_, _, p, ?_, hp, ?_⟩
    · rw [CclGroup.negate, hid]
      simp only [hranges]
    · rw [hpc]
      constructor
      · intro hall
        have hzero := hall 0 (by decide)
        simp [hchars, charsOf] at hzero
      · exact fun hne => absurd rfl hne.1
  | cons r rs =>
    obtain ⟨p, hp, hpc⟩ := CclGroup.addTo_chars group
      (a := ⟨ccl.assertions, some (CclGroup.negateRanges (r :: rs))⟩) rfl
    refine ⟨_, _, p, ?_, hp, ?_⟩
    · rw [CclGroup.negate, hid]
      simp only [hranges]
    · rw [hpc, hchars]
      have hexact := negateRanges_exact_iff hsorted fun q hq => (hbound q hq).2
      rw [← hexact]
      constructor
      · exact fun hall => ⟨List.cons_ne_nil r rs, hall⟩
      · exact fun hall => hall.2

theorem negate_complement_iff_digit :
    ∃ (group' : CclGroup) (id' : ℕ) (neg : Ccl),
      (CclGroup.create.fromRange 48 58).1.negate 0 = some (group', id') ∧
      group'.ccls[id']? = some neg ∧
      ((∀ c < charMax, c ∈ neg.chars ↔ c ∉ (⟨∅, some [⟨48, 58⟩]⟩ : Ccl).chars) ↔
        [(⟨48, 58⟩ : Range)] ≠ [] ∧ NoneOvertaken [⟨48, 58⟩]) :=
  negate_complement_iff (Machine.Reachable.start.step (.fromRange 48 58) rfl) rfl rfl

/-- In `[^a-zb0]`, `b` is in the range before it: the characters after it count as not in the
class, which has them. -/
theorem negate_not_complement :
    ¬∀ (elems : List CclElem) (group group' : CclGroup) (id id' : ℕ) (ccl neg : Ccl),
      CclGroup.create.parseCcl elems = some (group, id) → group.ccls[id]? = some ccl →
      group.negate id = some (group', id') → group'.ccls[id']? = some neg →
      ∀ c < charMax, c ∈ neg.chars ↔ c ∉ ccl.chars := by
  intro h
  have hexact := h [.range 97 122, .codepoint 98, .codepoint 48] _ _ 4 5
    ⟨∅, some [⟨48, 49⟩, ⟨97, 123⟩, ⟨98, 99⟩]⟩ ⟨∅, some [⟨0, 48⟩, ⟨49, 97⟩, ⟨99, charMax⟩]⟩
    rfl rfl rfl rfl 99 (by decide)
  simp [Ccl.chars, Ccl.rangeList, mem_charsOf, charMax] at hexact

/-! ## What the parser builds -/

namespace CclGroup

end CclGroup

end Hilti.Justrx
