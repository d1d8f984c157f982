import Mathlib

/-!
# Classifiers

The model of `libhilti/classifier.c`.  A function without a result is one that reads outside of
an array.  `qsort` is a parameter.

Left out are the types of rules and values, reference counts, the growing of the array of
rules, and the debug output.
-/

namespace Hilti.Classifiers

set_option autoImplicit false

/-! ## State -/

/-- `hlt_classifier_field`. -/
structure Field where
  len : ℕ
  bits : ℕ
  data : List ℕ

/-- `hlt_classifier_rule`. -/
structure Rule (α : Type) where
  priority : ℤ
  fields : List Field
  value : α

/-- `__hlt_classifier`. -/
structure Classifier (α : Type) where
  numFields : ℕ
  compiled : Bool
  maxPrio : ℤ
  rules : List (Rule α)

inductive Excpt where
  | valueError
  | indexError
  deriving DecidableEq

variable {α : Type}

/-- `int64_t` arithmetic. -/
def int64 (x : ℤ) : ℤ :=
  x.bmod (2 ^ 64)

/-- The conversion to `int`. -/
def toInt (x : ℤ) : ℤ :=
  x.bmod (2 ^ 32)

/-! ## Building a classifier -/

/-- `hlt_classifier_new`. -/
def classifierNew (α : Type) (numFields : ℕ) : Classifier α :=
  ⟨numFields, false, 0, []⟩

/-- `hlt_classifier_add`. -/
def classifierAdd (c : Classifier α) (fields : List Field) (priority : ℤ) (value : α) :
    Except Excpt (Classifier α) :=
  if c.compiled then .error .valueError
  else .ok { c with
    rules := c.rules ++ [⟨priority, fields, value⟩],
    maxPrio := if priority > c.maxPrio then priority else c.maxPrio }

/-- `hlt_classifier_add_no_prio`. -/
def classifierAddNoPrio (c : Classifier α) (fields : List Field) (value : α) :
    Except Excpt (Classifier α) :=
  classifierAdd c fields (int64 (c.maxPrio + 1)) value

/-- `cmp_rules`. -/
def cmpRules (r1 r2 : Rule α) : ℤ :=
  toInt (int64 (r2.priority - r1.priority))

/-- `hlt_classifier_compile`. -/
def classifierCompile (qsort : (Rule α → Rule α → ℤ) → List (Rule α) → List (Rule α))
    (c : Classifier α) : Classifier α :=
  { c with compiled := true, rules := qsort cmpRules c.rules }

/-! ## Lookups -/

/-- `data[i]`.  The byte before the data is the highest one of `bits`. -/
def Field.byteAt (f : Field) (i : ℤ) : Option ℕ :=
  if i = -1 then some (f.bits / 2 ^ 56 % 256)
  else if 0 ≤ i then f.data[i.toNat]?
  else none

/-- `memcmp` of the first `n` bytes of the data of two fields, whether they are the same. -/
def sameBytes (f g : Field) (n : ℕ) : Option Bool :=
  if n ≤ f.data.length ∧ n ≤ g.data.length then some (f.data.take n = g.data.take n) else none

/-- The body of the loop of `match_single_rule`: whether the field lets the value pass. -/
def matchField (field val : Field) : Option Bool :=
  if val.bits = 0 then some true
  else if val.len < field.len then some false
  else do
    let bytes := toInt ((field.bits + 8 - 1) % 2 ^ 64 / 8 : ℕ)
    let same ← if bytes > 1 then sameBytes field val (bytes - 1).toNat else some true
    if ! same then some false
    else do
      let bits := ((field.bits - (bytes - 1) * 8 - 1) % 2 ^ 8).toNat
      let mask := (0xff <<< (8 - bits)) % 2 ^ 8
      let v ← val.byteAt (bytes - 1)
      let f ← field.byteAt (bytes - 1)
      some (v &&& mask = f &&& mask)

/-- The loop of `match_single_rule` over the fields from `i` on, of which there are `n`. -/
def matchLoop (r : Rule α) (vals : List Field) : ℕ → ℕ → Option Bool
  | 0, _ => some true
  | n + 1, i => do
    let field ← r.fields[i]?
    let val ← vals[i]?
    if ← matchField field val then matchLoop r vals n (i + 1) else some false

/-- `match_single_rule`. -/
def matchSingleRule (c : Classifier α) (r : Rule α) (vals : List Field) : Option Bool :=
  matchLoop r vals c.numFields 0

/-- `data[i]`, if there is such a byte. -/
def Field.dataAt (f : Field) (i : ℤ) : Option ℕ :=
  if 0 ≤ i then f.data[i.toNat]? else none

/-- The body of the loop of `match_single_rule`, without a result where it reads outside of the
data. -/
def checkField (field val : Field) : Option Bool :=
  if val.bits = 0 then some true
  else if val.len < field.len then some false
  else do
    let bytes := toInt ((field.bits + 8 - 1) % 2 ^ 64 / 8 : ℕ)
    let same ← if bytes > 1 then sameBytes field val (bytes - 1).toNat else some true
    if ! same then some false
    else do
      let bits := ((field.bits - (bytes - 1) * 8 - 1) % 2 ^ 8).toNat
      let mask := (0xff <<< (8 - bits)) % 2 ^ 8
      let v ← val.dataAt (bytes - 1)
      let f ← field.dataAt (bytes - 1)
      some (v &&& mask = f &&& mask)

/-- The loop of `match_single_rule`, likewise. -/
def checkLoop (r : Rule α) (vals : List Field) : ℕ → ℕ → Option Bool
  | 0, _ => some true
  | n + 1, i => do
    let field ← r.fields[i]?
    let val ← vals[i]?
    if ← checkField field val then checkLoop r vals n (i + 1) else some false

/-- `match_single_rule`, likewise. -/
def checkSingleRule (c : Classifier α) (r : Rule α) (vals : List Field) : Option Bool :=
  checkLoop r vals c.numFields 0

/-- The loop over the rules of `hlt_classifier_matches` and `hlt_classifier_get`, with the first
rule that matches. -/
def firstMatch (c : Classifier α) (vals : List Field) : List (Rule α) → Option (Option (Rule α))
  | [] => some none
  | r :: rules => do
    if ← matchSingleRule c r vals then some (some r) else firstMatch c vals rules

/-- `hlt_classifier_matches`. -/
def classifierMatches (c : Classifier α) (vals : List Field) : Option (Except Excpt Bool) :=
  if ! c.compiled then some (.error .valueError)
  else do
    let r ← firstMatch c vals c.rules
    some (.ok r.isSome)

/-- `hlt_classifier_get`. -/
def classifierGet (c : Classifier α) (vals : List Field) : Option (Except Excpt α) :=
  if ! c.compiled then some (.error .valueError)
  else do
    match ← firstMatch c vals c.rules with
    | some r => some (.ok r.value)
    | none => some (.error .indexError)

/-! ## Sequences of additions -/

/-- How a rule is added. -/
structure Addition (α : Type) where
  priority : Option ℤ
  fields : List Field
  value : α

def Addition.run (c : Classifier α) (a : Addition α) : Except Excpt (Classifier α) :=
  match a.priority with
  | some priority => classifierAdd c a.fields priority a.value
  | none => classifierAddNoPrio c a.fields a.value

/-- A new classifier with the rules that are added to it. -/
def build (numFields : ℕ) (adds : List (Addition α)) : Except Excpt (Classifier α) :=
  adds.foldlM Addition.run (classifierNew α numFields)

end Hilti.Classifiers
