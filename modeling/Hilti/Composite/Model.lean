import Mathlib.Data.Set.Basic

/-!
# Equality and hashes of composite values

The model of `hlt_tuple_equal`, `hlt_struct_equal` and `hlt_union_equal` and of the hash functions
beside them (`tuple.c`, `struct.c`, `union.c`).  As in `rtti.h`, a type is known by its functions,
and those of a composite type call the ones of its parameters.  Both values of a comparison are of
one type, so the checks of the type codes and of the numbers of fields do not fail.

A function has no result where the source leaves the defined part of C: it reads a slot that holds
no value of its type, takes an entry before the begin of the table of fields, or shifts a word of
32 bits by 32 or more.
-/

namespace Hilti.Composite

set_option autoImplicit false

/-- What is used here of `hlt_type_info`. -/
structure TypeInfo where
  Obj : Type
  equal : Obj → Obj → Option Bool
  hash : Obj → Option UInt64

/-! ## Tuples -/

/-- The elements of a tuple. -/
def Objs : List TypeInfo → Type
  | [] => Unit
  | t :: ts => t.Obj × Objs ts

/-- The loop of `hlt_tuple_equal`. -/
def tupleEqual : (ts : List TypeInfo) → Objs ts → Objs ts → Option Bool
  | [], _, _ => some true
  | t :: ts, (a, as), (b, bs) =>
    (t.equal a b).bind fun eq => if eq then tupleEqual ts as bs else some false

/-- The loop of `hlt_tuple_hash`. -/
def tupleHash : (ts : List TypeInfo) → UInt64 → Objs ts → Option UInt64
  | [], hash, _ => some hash
  | t :: ts, hash, (a, as) => (t.hash a).bind fun h => tupleHash ts ((hash + h) * 2147483647) as

def tupleInfo (ts : List TypeInfo) : TypeInfo where
  Obj := Objs ts
  equal := tupleEqual ts
  hash := tupleHash ts 0

/-! ## Structs -/

/-- The memory of the fields; that of one that is not set may hold anything. -/
def Slots : List TypeInfo → Type
  | [] => Unit
  | t :: ts => Option t.Obj × Slots ts

/-- `mask & (1 << i)`. -/
def isSet (mask : BitVec 32) (i : ℕ) : Option Bool :=
  if i < 32 then some (mask.getLsbD i) else none

/-- Every field that is set, from the `i`-th on, has a value. -/
def Filled : (ts : List TypeInfo) → ℕ → BitVec 32 → Slots ts → Prop
  | [], _, _, _ => True
  | _ :: ts, i, mask, (a, as) =>
    (mask.getLsbD i = true → a.isSome = true) ∧ Filled ts (i + 1) mask as

/-- What a reference to a struct points to. -/
structure StructObj (ts : List TypeInfo) where
  mask : BitVec 32
  slots : Slots ts
  filled : Filled ts 0 mask slots

/-- The loop of `hlt_struct_equal`, from the `i`-th field on. -/
def structEqual : (ts : List TypeInfo) → ℕ → BitVec 32 → Slots ts → Slots ts → Option Bool
  | [], _, _, _, _ => some true
  | t :: ts, i, mask, (a, as), (b, bs) =>
    (isSet mask i).bind fun set =>
      if set then
        a.bind fun x => b.bind fun y => (t.equal x y).bind fun eq =>
          if eq then structEqual ts (i + 1) mask as bs else some false
      else structEqual ts (i + 1) mask as bs

/-- The loop of `hlt_struct_hash`, from the `i`-th field on. -/
def structHash : (ts : List TypeInfo) → ℕ → BitVec 32 → UInt64 → Slots ts → Option UInt64
  | [], _, _, hash, _ => some hash
  | t :: ts, i, mask, hash, (a, as) =>
    (isSet mask i).bind fun set =>
      if set then
        a.bind fun x => (t.hash x).bind fun h =>
          structHash ts (i + 1) mask ((hash + h) * 2654435761) as
      else structHash ts (i + 1) mask (hash + 8589935681) as

/-- References to structs may be null. -/
def structInfo (ts : List TypeInfo) : TypeInfo where
  Obj := Option (StructObj ts)
  equal
    | none, obj2 => some obj2.isNone
    | some _, none => some false
    | some obj1, some obj2 =>
      if obj1.mask ≠ obj2.mask then some false
      else structEqual ts 0 obj1.mask obj1.slots obj2.slots
  hash
    | none => some 0
    | some obj => structHash ts 0 obj.mask 0 obj.slots

/-! ## Unions -/

/-- The data of a union that has its `k`-th field set. -/
def Variant : List TypeInfo → ℕ → Type
  | [], _ => Empty
  | t :: _, 0 => t.Obj
  | _ :: ts, k + 1 => Variant ts k

/-- `hlt_union`. -/
inductive UnionObj (ts : List TypeInfo) where
  | unset
  | set (k : ℕ) (data : Variant ts k)

/-- `hlt_union.field`. -/
def UnionObj.field {ts : List TypeInfo} : UnionObj ts → ℤ
  | .unset => -1
  | .set k _ => k

/-- The `equal` of the type of a field, for data that is of that type. -/
def variantEqual : (ts : List TypeInfo) → (k l : ℕ) → Variant ts k → Variant ts l → Option Bool
  | [], _, _, a, _ => a.elim
  | t :: _, 0, 0, a, b => t.equal a b
  | _ :: ts, k + 1, l + 1, a, b => variantEqual ts k l a b
  | _ :: _, 0, _ + 1, _, _ => none
  | _ :: _, _ + 1, 0, _, _ => none

def variantHash : (ts : List TypeInfo) → (k : ℕ) → Variant ts k → Option UInt64
  | [], _, a => a.elim
  | t :: _, 0, a => t.hash a
  | _ :: ts, k + 1, a => variantHash ts k a

def unionInfo (ts : List TypeInfo) : TypeInfo where
  Obj := Option (UnionObj ts)
  equal
    | none, u2 => some u2.isNone
    | some _, none => some false
    | some u1, some u2 =>
      if u1.field ≠ u2.field then some false
      else
        match u1, u2 with
        | .set k a, .set l b => variantEqual ts k l a b
        -- `fields[-1]`
        | _, _ => none
  hash
    | none => some 0
    | some .unset => some 1
    | some (.set k a) => variantHash ts k a

end Hilti.Composite
