import Mathlib.Data.List.Basic
import Mathlib.Data.List.Nodup
import Mathlib.Logic.Function.Basic

/-!
# The fields of structs

The model of structs: the code that is generated for them (`llvmStructNew` and the functions after it
in `hilti/codegen/codegen.cc`) and the run-time functions of `libhilti/struct.c`.  A function without
a result is one whose behaviour C leaves undefined: each of them shifts a 1 of 32 bits by the index of
a field.

Left out are reference counts, where a field lies in its object, and struct types without any field,
whose only value is a null pointer.
-/

namespace Hilti.Structs

set_option autoImplicit false

variable {V : Type}

/-! ## Types and objects -/

structure Field (V : Type) where
  name : String
  default : Option V

/-- `type::Struct`.  The validator refuses duplicate names. -/
structure StructType (V : Type) where
  fields : List (Field V)
  nodup : (fields.map Field.name).Nodup

/-- An object: its mask, and its fields, with null for `none`. -/
structure Obj (V : Type) where
  mask : BitVec 32
  slots : List (Option V)

inductive Excpt where
  | undefinedValue
  deriving DecidableEq

/-- `1 << i`. -/
def shl (i : ℕ) : Option (BitVec 32) :=
  if i < 32 then some (1 <<< i) else none

/-! ## The generated code -/

/-- `_getField`. -/
def getField (t : StructType V) (name : String) : Option ℕ :=
  t.fields.findIdx? fun f => f.name = name

/-- The mask after field `j` has been initialized. -/
def addDefault (f : Field V) (j : ℕ) (mask : BitVec 32) : Option (BitVec 32) :=
  match f.default with
  | some _ => (shl j).map fun bit => mask ||| bit
  | none => some mask

/-- The loop of `llvmStructNew`. -/
def newLoop : List (Field V) → ℕ → BitVec 32 → Option (BitVec 32 × List (Option V))
  | [], _, mask => some (mask, [])
  | f :: fs, j, mask => do
    let mask ← addDefault f j mask
    let (mask, slots) ← newLoop fs (j + 1) mask
    some (mask, f.default :: slots)

/-- `llvmStructNew`. -/
def structNew (t : StructType V) : Option (Obj V) :=
  (newLoop t.fields 0 0).map fun r => ⟨r.1, r.2⟩

/-- `llvmStructGet`, which may come with a default. -/
def structGet (t : StructType V) (o : Obj V) (field : String) (default : Option V) :
    Option (Except Excpt (Option V)) := do
  let idx ← getField t field
  let bit ← shl idx
  if bit &&& o.mask ≠ 0 then
    let value ← o.slots[idx]?
    some (.ok value)
  else
    match default with
    | none => some (.error .undefinedValue)
    | some value => some (.ok (some value))

/-- `llvmStructSet`. -/
def structSet (t : StructType V) (o : Obj V) (field : String) (val : V) : Option (Obj V) := do
  let idx ← getField t field
  let bit ← shl idx
  some ⟨bit ||| o.mask, o.slots.set idx (some val)⟩

/-- `llvmStructUnset`. -/
def structUnset (t : StructType V) (o : Obj V) (field : String) : Option (Obj V) := do
  let idx ← getField t field
  let bit ← shl idx
  some ⟨~~~bit &&& o.mask, o.slots.set idx none⟩

/-- `llvmStructIsSet`. -/
def structIsSet (t : StructType V) (o : Obj V) (field : String) : Option Bool := do
  let idx ← getField t field
  let bit ← shl idx
  some (bit &&& o.mask != 0)

/-! ## The run-time functions -/

/-- `hlt_struct_is_set`, which returns the masked bit as an `int8_t`. -/
def hltStructIsSet (o : Obj V) (index : ℕ) : Option (BitVec 8) :=
  (shl index).map fun bit => (o.mask &&& bit).setWidth 8

/-- The loop of `hlt_struct_clone_init`, from field `i` on. -/
def cloneLoop (clone : V → V) (mask : BitVec 32) : List (Option V) → ℕ →
    Option (List (Option V))
  | [], _ => some []
  | slot :: slots, i => do
    let bit ← shl i
    let slots ← cloneLoop clone mask slots (i + 1)
    some ((if mask &&& bit ≠ 0 then slot.map clone else none) :: slots)

/-- `hlt_struct_clone_init`, where cloning a value does not fail. -/
def hltStructCloneInit (clone : V → V) (src : Obj V) : Option (Obj V) :=
  (cloneLoop clone src.mask src.slots 0).map fun slots => ⟨src.mask, slots⟩

/-- The loop of `hlt_struct_dtor`: the fields whose destructors run. -/
def dtorLoop (mask : BitVec 32) : List (Option V) → ℕ → Option (List (Option V))
  | [], _ => some []
  | slot :: slots, i => do
    let bit ← shl i
    let rest ← dtorLoop mask slots (i + 1)
    some (if mask &&& bit ≠ 0 then slot :: rest else rest)

/-- `hlt_struct_dtor`. -/
def hltStructDtor (o : Obj V) : Option (List (Option V)) :=
  dtorLoop o.mask o.slots 0

/-! ## What structs are for -/

/-- The value that each field has been given, if any. -/
abbrev Record (V : Type) := ℕ → Option V

/-- Operations on the fields of a type. -/
inductive Op (t : StructType V) where
  | set (field : Fin t.fields.length) (val : V)
  | unset (field : Fin t.fields.length)

/-- The name of a field. -/
def StructType.fieldName (t : StructType V) (field : Fin t.fields.length) : String :=
  t.fields[field].name

def exec (t : StructType V) (o : Obj V) : Op t → Option (Obj V)
  | .set field val => structSet t o (t.fieldName field) val
  | .unset field => structUnset t o (t.fieldName field)

/-- An object is created and then operated on. -/
def run (t : StructType V) (ops : List (Op t)) : Option (Obj V) := do
  let o ← structNew t
  ops.foldlM (exec t) o

/-- A new object has the defaults. -/
def initial (t : StructType V) : Record V := fun i =>
  t.fields[i]?.bind Field.default

def effect {t : StructType V} (r : Record V) : Op t → Record V
  | .set field val => Function.update r field (some val)
  | .unset field => Function.update r field none

/-- A field has a value if it has a default or was set, and was not unset afterwards. -/
def expected (t : StructType V) (ops : List (Op t)) : Record V :=
  ops.foldl effect (initial t)

/-- A field is reported as set if and only if it has a value. -/
structure Reports (t : StructType V) (o : Obj V) (r : Record V) (field : Fin t.fields.length) :
    Prop where
  isSet : structIsSet t o (t.fieldName field) = some (r field).isSome
  get : structGet t o (t.fieldName field) none = some (match r field with
    | some val => .ok (some val)
    | none => .error .undefinedValue)
  runtime : ∃ result, hltStructIsSet o field = some result ∧ (result ≠ 0 ↔ (r field).isSome)

/-- After these operations all the reports are right. -/
def Independent (t : StructType V) (ops : List (Op t)) : Prop :=
  ∃ o, run t ops = some o ∧ ∀ field, Reports t o (expected t ops) field

/-! ## Bits -/

theorem shl_eq_some {i : ℕ} (hi : i < 32) : shl i = some (BitVec.twoPow 32 i) := by
  rw [shl, if_pos hi, BitVec.twoPow_eq]
  rfl

theorem shl_eq_none {i : ℕ} (hi : 32 ≤ i) : shl i = none :=
  if_neg (by omega)

theorem twoPow_ne_zero {i : ℕ} (hi : i < 32) : BitVec.twoPow 32 i ≠ 0 := by
  intro h
  have hbit := congrArg (fun b => b.getLsbD i) h
  simp [hi] at hbit

theorem twoPow_and_ne_zero {i : ℕ} (hi : i < 32) (mask : BitVec 32) :
    BitVec.twoPow 32 i &&& mask ≠ 0 ↔ mask.getLsbD i = true := by
  rw [BitVec.twoPow_and]
  split
  · next h => exact iff_of_true (twoPow_ne_zero hi) h
  · next h => simp [h]

theorem setWidth_and_twoPow_ne_zero {i : ℕ} (hi : i < 32) (mask : BitVec 32) :
    (mask &&& BitVec.twoPow 32 i).setWidth 8 ≠ 0 ↔ mask.getLsbD i = true ∧ i < 8 := by
  rw [BitVec.and_twoPow]
  split
  · next h =>
    simp only [h, true_and]
    constructor
    · intro hne
      by_contra hge
      apply hne
      apply BitVec.eq_of_getLsbD_eq
      intro j hj
      simp [BitVec.getLsbD_twoPow, show ¬ i = j by omega]
    · intro hlt hzero
      have hbit := congrArg (fun b => b.getLsbD i) hzero
      simp [hi, hlt] at hbit
  · next h => simp [h]

/-! ## Objects stand for records -/

/-- The object of a type with `n` fields holds the record. -/
structure Represents (o : Obj V) (n : ℕ) (r : Record V) : Prop where
  length : o.slots.length = n
  mask : ∀ i < n, o.mask.getLsbD i = (r i).isSome
  slots : ∀ i < n, o.slots[i]? = some (r i)

variable {t : StructType V} {o : Obj V} {r : Record V}

theorem getField_fieldName (field : Fin t.fields.length) :
    getField t (t.fieldName field) = some field.val := by
  rw [getField, List.findIdx?_eq_some_iff_getElem]
  refine ⟨field.isLt, by simp [StructType.fieldName], fun j hj heq => ?_⟩
  have hfield : (field : ℕ) < (t.fields.map Field.name).length := by simp
  have hless : j < (t.fields.map Field.name).length := Nat.lt_trans hj hfield
  have hname : (t.fields.map Field.name)[j] = (t.fields.map Field.name)[(field : ℕ)] := by
    simpa [StructType.fieldName] using of_decide_eq_true heq
  exact absurd (t.nodup.getElem_inj_iff.mp hname) (Nat.ne_of_lt hj)

theorem addDefault_eq (f : Field V) (j : ℕ) (mask : BitVec 32) (hj : j < 32) :
    ∃ mask', addDefault f j mask = some mask' ∧
      ∀ i, mask'.getLsbD i = (mask.getLsbD i || decide (j = i) && f.default.isSome) := by
  cases hdefault : f.default with
  | none => exact ⟨mask, by simp [addDefault, hdefault], fun i => by simp⟩
  | some val =>
    refine ⟨mask ||| BitVec.twoPow 32 j, by simp [addDefault, hdefault, shl_eq_some hj], ?_⟩
    intro i
    simp [hj]

/-- Setting the bits of defaults: those before field `j` stay, those from there on tell which of the
fields have a default. -/
theorem newLoop_eq (fs : List (Field V)) (j : ℕ) (mask : BitVec 32) (hj : j + fs.length ≤ 32)
    (hmask : ∀ i, j ≤ i → mask.getLsbD i = false) :
    ∃ mask', newLoop fs j mask = some (mask', fs.map Field.default) ∧
      (∀ i < j, mask'.getLsbD i = mask.getLsbD i) ∧
      ∀ i, mask'.getLsbD (j + i) = (fs[i]?.bind Field.default).isSome := by
  induction fs generalizing j mask with
  | nil => exact ⟨mask, rfl, fun i _ => rfl, fun i => by simp [hmask]⟩
  | cons f fs ih =>
    rw [List.length_cons] at hj
    obtain ⟨mask₁, hrun, hbits⟩ := addDefault_eq f j mask (by omega)
    obtain ⟨mask', hloop, hbelow, habove⟩ := ih (j + 1) mask₁ (by omega) fun i hi => by
      rw [hbits, hmask i (by omega)]
      simp [show ¬ j = i by omega]
    refine ⟨mask', by simp [newLoop, hrun, hloop], fun i hi => ?_, fun i => ?_⟩
    · rw [hbelow i (by omega), hbits]
      simp [show ¬ j = i by omega]
    · cases i with
      | zero =>
        rw [Nat.add_zero, hbelow j (by omega), hbits, hmask j (Nat.le_refl j)]
        simp
      | succ i =>
        rw [show j + (i + 1) = j + 1 + i by omega, habove]
        simp

theorem structNew_represents (hn : t.fields.length ≤ 32) :
    ∃ o, structNew t = some o ∧ Represents o t.fields.length (initial t) := by
  obtain ⟨mask, hloop, -, hbits⟩ := newLoop_eq t.fields 0 0 (by omega) (fun i _ => by simp)
  refine ⟨⟨mask, t.fields.map Field.default⟩, by rw [structNew, hloop]; rfl, by simp, ?_, ?_⟩
  · intro i hi
    have hbit := hbits i
    rwa [Nat.zero_add] at hbit
  · intro i hi
    simp [initial, List.getElem?_eq_getElem hi]

theorem exec_represents (hn : t.fields.length ≤ 32) (h : Represents o t.fields.length r) (op : Op t) :
    ∃ o', exec t o op = some o' ∧ Represents o' t.fields.length (effect r op) := by
  cases op with
  | set field val =>
    have hfield : (field : ℕ) < 32 := by omega
    refine ⟨⟨BitVec.twoPow 32 field ||| o.mask, o.slots.set field (some val)⟩, ?_, ?_, ?_, ?_⟩
    · simp [exec, structSet, getField_fieldName, shl_eq_some hfield]
    · rw [List.length_set, h.length]
    · intro i hi
      by_cases heq : i = field
      · simp [effect, heq, hfield]
      · rw [effect, Function.update_of_ne heq, ← h.mask i hi]
        simp [Ne.symm heq]
    · intro i hi
      by_cases heq : i = field
      · simp [effect, heq, h.length]
      · rw [effect, Function.update_of_ne heq, List.getElem?_set_ne (Ne.symm heq), h.slots i hi]
  | unset field =>
    have hfield : (field : ℕ) < 32 := by omega
    refine ⟨⟨~~~BitVec.twoPow 32 field &&& o.mask, o.slots.set field none⟩, ?_, ?_, ?_, ?_⟩
    · simp [exec, structUnset, getField_fieldName, shl_eq_some hfield]
    · rw [List.length_set, h.length]
    · intro i hi
      by_cases heq : i = field
      · simp [effect, heq, hfield]
      · rw [effect, Function.update_of_ne heq, ← h.mask i hi]
        simp [heq, show i < 32 by omega]
    · intro i hi
      by_cases heq : i = field
      · simp [effect, heq, h.length]
      · rw [effect, Function.update_of_ne heq, List.getElem?_set_ne (Ne.symm heq), h.slots i hi]

theorem execAll_represents (hn : t.fields.length ≤ 32) (h : Represents o t.fields.length r)
    (ops : List (Op t)) :
    ∃ o', ops.foldlM (exec t) o = some o' ∧
      Represents o' t.fields.length (ops.foldl effect r) := by
  induction ops generalizing o r with
  | nil => exact ⟨o, rfl, h⟩
  | cons op ops ih =>
    obtain ⟨o₁, hexec, h₁⟩ := exec_represents hn h op
    obtain ⟨o', hrest, h'⟩ := ih h₁
    exact ⟨o', by simp [hexec, hrest], h'⟩

theorem run_represents (hn : t.fields.length ≤ 32) (ops : List (Op t)) :
    ∃ o, run t ops = some o ∧ Represents o t.fields.length (expected t ops) := by
  obtain ⟨o, hnew, h⟩ := structNew_represents hn
  obtain ⟨o', hops, h'⟩ := execAll_represents hn h ops
  exact ⟨o', by simp [run, hnew, hops], h'⟩

/-! ## Cloning and destroying -/

/-- The fields from `i` on hold the record, and so do their bits. -/
def HoldsFrom (mask : BitVec 32) (slots : List (Option V)) (i : ℕ) : Prop :=
  i + slots.length ≤ 32 ∧ ∀ k (hk : k < slots.length), mask.getLsbD (i + k) = slots[k].isSome

theorem HoldsFrom.head {mask : BitVec 32} {slot : Option V} {slots : List (Option V)} {i : ℕ}
    (h : HoldsFrom mask (slot :: slots) i) :
    shl i = some (BitVec.twoPow 32 i) ∧ (mask &&& BitVec.twoPow 32 i ≠ 0 ↔ slot.isSome) := by
  have hlen := h.1
  rw [List.length_cons] at hlen
  have hbit := h.2 0 (by simp)
  rw [Nat.add_zero, List.getElem_cons_zero] at hbit
  refine ⟨shl_eq_some (by omega), ?_⟩
  rw [BitVec.and_comm, twoPow_and_ne_zero (by omega), hbit]

theorem HoldsFrom.tail {mask : BitVec 32} {slot : Option V} {slots : List (Option V)} {i : ℕ}
    (h : HoldsFrom mask (slot :: slots) i) : HoldsFrom mask slots (i + 1) := by
  have hlen := h.1
  rw [List.length_cons] at hlen
  refine ⟨by omega, fun k hk => ?_⟩
  have hbit := h.2 (k + 1) (by simpa using hk)
  rwa [List.getElem_cons_succ, show i + (k + 1) = i + 1 + k by omega] at hbit

theorem Represents.holdsFrom {n : ℕ} (hn : n ≤ 32) (h : Represents o n r) :
    HoldsFrom o.mask o.slots 0 := by
  refine ⟨by rw [h.length]; omega, fun k hk => ?_⟩
  have hslot := h.slots k (h.length ▸ hk)
  rw [List.getElem?_eq_getElem hk, Option.some.injEq] at hslot
  rw [Nat.zero_add, hslot, h.mask k (h.length ▸ hk)]

theorem cloneLoop_eq (clone : V → V) (mask : BitVec 32) (slots : List (Option V)) (i : ℕ)
    (h : HoldsFrom mask slots i) :
    cloneLoop clone mask slots i = some (slots.map (Option.map clone)) := by
  induction slots generalizing i with
  | nil => rfl
  | cons slot slots ih =>
    obtain ⟨hshl, hbit⟩ := h.head
    rw [cloneLoop, hshl, ih _ h.tail]
    dsimp only [Option.bind_eq_bind, Option.bind_some]
    cases slot with
    | none =>
      rw [if_neg fun hset => nomatch hbit.mp hset]
      rfl
    | some val =>
      rw [if_pos (hbit.mpr rfl)]
      rfl

theorem hltStructCloneInit_represents (clone : V → V) {n : ℕ} (hn : n ≤ 32)
    (h : Represents o n r) :
    ∃ o', hltStructCloneInit clone o = some o' ∧ Represents o' n fun i => (r i).map clone := by
  refine ⟨⟨o.mask, o.slots.map (Option.map clone)⟩, ?_, ?_, fun i hi => ?_, fun i hi => ?_⟩
  · rw [hltStructCloneInit, cloneLoop_eq clone _ _ _ (h.holdsFrom hn)]
    rfl
  · rw [List.length_map, h.length]
  · rw [h.mask i hi, Option.isSome_map]
  · rw [List.getElem?_map, h.slots i hi]
    rfl

theorem dtorLoop_eq (mask : BitVec 32) (slots : List (Option V)) (i : ℕ)
    (h : HoldsFrom mask slots i) :
    dtorLoop mask slots i = some (slots.filter Option.isSome) := by
  induction slots generalizing i with
  | nil => rfl
  | cons slot slots ih =>
    obtain ⟨hshl, hbit⟩ := h.head
    rw [dtorLoop, hshl, ih _ h.tail]
    dsimp only [Option.bind_eq_bind, Option.bind_some]
    cases slot with
    | none =>
      rw [if_neg fun hset => nomatch hbit.mp hset]
      rfl
    | some val =>
      rw [if_pos (hbit.mpr rfl)]
      rfl

theorem hltStructDtor_eq {n : ℕ} (hn : n ≤ 32) (h : Represents o n r) :
    hltStructDtor o = some (((List.range n).map r).filter Option.isSome) := by
  have hslots : o.slots = (List.range n).map r := by
    apply List.ext_getElem?
    intro i
    by_cases hi : i < n
    · rw [h.slots i hi, List.getElem?_map, List.getElem?_range hi]
      rfl
    · rw [List.getElem?_eq_none (by rw [h.length]; omega), List.getElem?_eq_none (by simp; omega)]
  rw [hltStructDtor, dtorLoop_eq _ _ _ (h.holdsFrom hn), hslots]

/-! ## Reports -/

theorem structIsSet_eq (hn : t.fields.length ≤ 32) (h : Represents o t.fields.length r)
    (field : Fin t.fields.length) :
    structIsSet t o (t.fieldName field) = some (r field).isSome := by
  have hfield : (field : ℕ) < 32 := by omega
  have hbit := twoPow_and_ne_zero hfield o.mask
  rw [h.mask field field.isLt] at hbit
  simp only [structIsSet, getField_fieldName, shl_eq_some hfield, Option.bind_eq_bind,
    Option.bind_some, Option.some.injEq]
  rw [Bool.eq_iff_iff, bne_iff_ne]
  exact hbit

/-- `llvmStructGet` returns the value of a field, or else the default or an exception. -/
theorem structGet_eq (hn : t.fields.length ≤ 32) (h : Represents o t.fields.length r)
    (field : Fin t.fields.length) (default : Option V) :
    structGet t o (t.fieldName field) default = some (match (r field).or default with
      | some val => .ok (some val)
      | none => .error .undefinedValue) := by
  have hfield : (field : ℕ) < 32 := by omega
  have hbit := twoPow_and_ne_zero hfield o.mask
  rw [h.mask field field.isLt] at hbit
  simp only [structGet, getField_fieldName, shl_eq_some hfield, Option.bind_eq_bind,
    Option.bind_some, h.slots field field.isLt]
  cases hr : r field with
  | none =>
    rw [hr] at hbit
    rw [if_neg fun hset => nomatch hbit.mp hset]
    cases default <;> rfl
  | some val =>
    rw [hr] at hbit
    rw [if_pos (hbit.mpr rfl)]
    rfl

theorem hltStructIsSet_eq (hn : t.fields.length ≤ 32) (h : Represents o t.fields.length r)
    (field : Fin t.fields.length) :
    ∃ result, hltStructIsSet o field = some result ∧
      (result ≠ 0 ↔ (r field).isSome ∧ (field : ℕ) < 8) := by
  have hfield : (field : ℕ) < 32 := by omega
  refine ⟨_, by rw [hltStructIsSet, shl_eq_some hfield]; rfl, ?_⟩
  rw [setWidth_and_twoPow_ne_zero hfield, h.mask field field.isLt]

/-- The reports are right if and only if the type has at most 32 fields and no field beyond the
first eight has a value. -/
theorem independent_iff (t : StructType V) (ops : List (Op t)) :
    Independent t ops ↔ t.fields.length ≤ 32 ∧
      ∀ field : Fin t.fields.length, (expected t ops field).isSome → (field : ℕ) < 8 := by
  constructor
  · rintro ⟨o, hrun, hreports⟩
    have hn : t.fields.length ≤ 32 := by
      by_contra hn
      have hset := (hreports ⟨32, by omega⟩).isSet
      simp [structIsSet, getField_fieldName, shl_eq_none (Nat.le_refl 32)] at hset
    refine ⟨hn, fun field hsome => ?_⟩
    obtain ⟨o', hrun', h⟩ := run_represents hn ops
    cases hrun.symm.trans hrun'
    obtain ⟨result, hresult, hiff⟩ := (hreports field).runtime
    obtain ⟨result', hresult', hiff'⟩ := hltStructIsSet_eq hn h field
    cases hresult.symm.trans hresult'
    exact (hiff'.mp (hiff.mpr hsome)).2
  · rintro ⟨hn, hlow⟩
    obtain ⟨o, hrun, h⟩ := run_represents hn ops
    refine ⟨o, hrun, fun field => ⟨structIsSet_eq hn h field, ?_, ?_⟩⟩
    · rw [structGet_eq hn h field none, Option.or_none]
    · obtain ⟨result, hresult, hiff⟩ := hltStructIsSet_eq hn h field
      exact ⟨result, hresult, hiff.trans (and_iff_left_of_imp (hlow field))⟩

/-- A type with nine fields. -/
def nineFields : StructType Unit where
  fields := ["a", "b", "c", "d", "e", "f", "g", "h", "i"].map fun name => ⟨name, none⟩
  nodup := by decide

/-- `hlt_struct_is_set` reports the ninth field as not set when it has just been set. -/
theorem ninth_not_independent : ¬ Independent nineFields [.set ⟨8, by decide⟩ ()] := by
  rintro ⟨o, hrun, hreports⟩
  have hzero : (run nineFields [.set ⟨8, by decide⟩ ()]).bind (fun o => hltStructIsSet o 8) =
      some 0 := by decide
  rw [hrun, Option.bind_some] at hzero
  obtain ⟨result, hresult, hiff⟩ := (hreports ⟨8, by decide⟩).runtime
  cases hzero.symm.trans hresult
  exact hiff.mpr (by decide) rfl

/-! ## The life of a clone -/

/-- What a clone holds that has been made after some operations and gone through more. -/
def ofClone (t : StructType V) (clone : V → V) (before after : List (Op t)) : Record V :=
  after.foldl effect fun i => (expected t before i).map clone

/-- A type with two fields, one of which has a default. -/
def twoFields : StructType ℕ where
  fields := [⟨"a", none⟩, ⟨"b", some 5⟩]
  nodup := by decide

end Hilti.Structs
