import Mathlib.Data.Finset.Basic

/-!
# Character classes

The model of `justrx/src/ccl.c` and of the sets of `set.h` it is built on.  Code points
and the ids of classes are natural numbers: no function here computes with the first,
and the second are positions in a group.  A class that is not part of a group has no id.

The loops of `ccl_group_disambiguate` run over a group that grows meanwhile, so they
get fuel; without enough of it there is no result.
-/

namespace Hilti.Justrx

set_option autoImplicit false

/-! ## Sets -/

/-- `set_insert`: the elements of a set are kept in order. -/
def setInsert {α : Type} [DecidableEq α] (lt : α → α → Prop) [DecidableRel lt] (x : α)
    (s : List α) : List α :=
  if x ∈ s then s else bubble s
where
  bubble : List α → List α
    | [] => [x]
    | y :: s => if lt x y then x :: y :: s else y :: bubble s

/-- `jrx_char_range`, from `begin` up to, but not including, `stop`. -/
structure Range where
  begin : ℕ
  stop : ℕ
  deriving DecidableEq

/-- `_jrx_cmp_char_ranges`. -/
def Range.Before (r s : Range) : Prop :=
  r.begin < s.begin ∨ r.begin = s.begin ∧ r.stop < s.stop

instance : DecidableRel Range.Before := fun r s =>
  inferInstanceAs (Decidable (r.begin < s.begin ∨ r.begin = s.begin ∧ r.stop < s.stop))

def rangeInsert : Range → List Range → List Range :=
  setInsert Range.Before

/-! ## Classes -/

/-- The bits of a `jrx_assertion` that patterns and matchers use. -/
inductive Assertion where
  | bol | eol | bod | eod | wordBoundary | notWordBoundary
  deriving DecidableEq

/-- `jrx_ccl`; a class without ranges stands for an epsilon transition. -/
structure Ccl where
  assertions : Finset Assertion
  ranges : Option (List Range)
  deriving DecidableEq

/-- `jrx_ccl_group`: the id of a class is its position. -/
abbrev Group := List Ccl

namespace Ccl

/-- `_ccl_is_part_of`. -/
def isPartOf (ccl1 ccl2 : Ccl) : Bool :=
  if ccl1.assertions ≠ ccl2.assertions then false
  else
    match ccl1.ranges, ccl2.ranges with
    | none, _ => true
    | some _, none => false
    | some rs1, some rs2 =>
      rs1.all fun r1 => rs2.any fun r2 => r1.begin ≥ r2.begin ∧ r1.stop ≤ r2.stop

/-- `_ccl_compare`. -/
def compare (ccl1 ccl2 : Ccl) : Bool :=
  ccl1.isPartOf ccl2 && ccl2.isPartOf ccl1

/-- `ccl_is_empty`. -/
def isEmpty (ccl : Ccl) : Bool :=
  match ccl.ranges with
  | none => true
  | some rs => rs.isEmpty

/-- `ccl_is_epsilon`. -/
def isEpsilon (ccl : Ccl) : Bool :=
  ccl.ranges.isNone

end Ccl

/-- `_ccl_group_find`. -/
def groupFind (group : Group) (ccl : Ccl) : Option ℕ :=
  group.findIdx? fun gccl => ccl.compare gccl

/-- `_ccl_group_add_to`: the group and the id of the class in it. -/
def groupAddTo (group : Group) (ccl : Ccl) : Group × ℕ :=
  match groupFind group ccl with
  | some existing => (group, existing)
  | none => (group ++ [ccl], group.length)

/-! ## Ranges -/

/-- `_ccl_cleanup`: only the ranges that are not empty. -/
def cleanup (rs : List Range) : List Range :=
  rs.foldl (fun nranges r => if r.begin < r.stop then rangeInsert r nranges else nranges) []

/-- What the loop of `_ccl_subtract_range` puts in the place of one range. -/
def subtractOne (r sub : Range) : List Range :=
  if r.begin ≤ sub.begin ∧ sub.begin ≤ r.stop then
    if r.begin ≤ sub.stop ∧ sub.stop ≤ r.stop then [⟨r.begin, sub.begin⟩, ⟨sub.stop, r.stop⟩]
    else [⟨r.begin, sub.begin⟩]
  else if r.begin ≤ sub.stop ∧ sub.stop ≤ r.stop then [⟨sub.stop, r.stop⟩]
  else if sub.begin ≤ r.begin ∧ r.stop ≤ sub.stop then [⟨r.begin, r.begin⟩]
  else [r]

/-- `_ccl_subtract_range`. -/
def subtractRange (rs : List Range) (sub : Range) : List Range :=
  (rs.flatMap fun r => subtractOne r sub).foldl (fun addlranges r => rangeInsert r addlranges) []

/-- `_ccl_subtract`. -/
def subtract (ccl1 ccl2 : Ccl) : Ccl :=
  match ccl2.ranges with
  | none => ccl1
  | some rs2 =>
    if ccl1.assertions ≠ ccl2.assertions then ccl1
    else { ccl1 with ranges := ccl1.ranges.map fun rs1 => cleanup (rs2.foldl subtractRange rs1) }

/-- What the loops of `_ccl_intersect` insert for two ranges. -/
def intersectOne (r1 r2 : Range) : List Range :=
  if r1.begin ≤ r2.begin ∧ r2.begin ≤ r1.stop then
    [⟨r2.begin, if r1.stop < r2.stop then r1.stop else r2.stop⟩]
  else if r1.begin ≤ r2.stop ∧ r2.stop ≤ r1.stop then [⟨r1.begin, r2.stop⟩]
  else if r2.begin ≤ r1.begin ∧ r1.begin ≤ r2.stop then
    [⟨r1.begin, if r2.stop < r1.stop then r2.stop else r1.stop⟩]
  else if r2.begin ≤ r1.stop ∧ r1.stop ≤ r2.stop then [⟨r2.begin, r1.stop⟩]
  else []

/-- `_ccl_intersect`. -/
def intersect (ccl1 ccl2 : Ccl) : Option Ccl :=
  match ccl1.ranges, ccl2.ranges with
  | some rs1, some rs2 =>
    if ccl1.assertions ≠ ccl2.assertions then none
    else
      let nranges := (rs1.flatMap fun r1 => rs2.flatMap fun r2 => intersectOne r1 r2).foldl
        (fun nranges r => rangeInsert r nranges) []
      let nccl : Ccl := ⟨ccl1.assertions, some (cleanup nranges)⟩
      if nccl.isEmpty then none else some nccl
  | _, _ => none

/-- `ccl_do_intersect`. -/
def doIntersect (ccl1 ccl2 : Ccl) : Bool :=
  ccl1.ranges.isNone && ccl2.ranges.isNone || (intersect ccl1 ccl2).isSome

/-! ## Disambiguation -/

/-- The body of the loops of `ccl_group_disambiguate`: the group, and whether it has
changed. -/
def splitPair (group : Group) (i j : ℕ) : Group × Bool :=
  match group[i]?, group[j]? with
  | some ccl1, some ccl2 =>
    if ccl1.isEpsilon || ccl2.isEpsilon || ccl1.isEmpty || ccl2.isEmpty then (group, false)
    else
      match intersect ccl1 ccl2 with
      | none => (group, false)
      | some is =>
        ((groupAddTo ((group.set i (subtract ccl1 ccl2)).set j (subtract ccl2 ccl1)) is).1, true)
  | _, _ => (group, false)

/-- The loop over `j`. -/
def splitFrom (i : ℕ) : ℕ → Group → ℕ → Bool → Option (Group × Bool)
  | 0, _, _, _ => none
  | fuel + 1, group, j, changed =>
    if j < group.length then
      let r := splitPair group i j
      splitFrom i fuel r.1 (j + 1) (changed || r.2)
    else some (group, changed)

/-- The loop over `i`. -/
def splitAll : ℕ → Group → ℕ → Bool → Option (Group × Bool)
  | 0, _, _, _ => none
  | fuel + 1, group, i, changed =>
    if i < group.length then do
      let r ← splitFrom i fuel group (i + 1) changed
      splitAll fuel r.1 (i + 1) r.2
    else some (group, changed)

/-- `ccl_group_disambiguate`. -/
def groupDisambiguate : ℕ → Group → Option Group
  | 0, _ => none
  | fuel + 1, group => do
    let r ← splitAll fuel group 0 false
    if r.2 then groupDisambiguate fuel r.1 else some r.1

end Hilti.Justrx
