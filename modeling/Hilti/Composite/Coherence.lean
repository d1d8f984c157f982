import Hilti.Composite.Model

/-!
# Coherence of equality and hashes

For any type that tuples, structs and unions are nested to, over element types with a coherent
equality and hash: the functions of the composite types are coherent on a set of values if and only
if no value of it has an unset union, or a struct with more than 32 fields, in what is set of it.
-/

namespace Hilti.Composite

set_option autoImplicit false

/-! ## Types with a description of their values -/

/-- A type together with the values that comparisons get through, and with which values agree in
all that is set. -/
structure ValueType extends TypeInfo where
  Settled : Obj → Prop
  Agree : Obj → Obj → Prop

def infos (ts : List ValueType) : List TypeInfo :=
  ts.map ValueType.toTypeInfo

/-- A type that is not composite: all its values are settled, and none has unset parts. -/
def ValueType.element (t : TypeInfo) : ValueType :=
  { t with Settled := fun _ => True, Agree := fun a b => a = b }

def ObjsSettled : (ts : List ValueType) → Objs (infos ts) → Prop
  | [], _ => True
  | t :: ts, (a, as) => t.Settled a ∧ ObjsSettled ts as

def ObjsAgree : (ts : List ValueType) → Objs (infos ts) → Objs (infos ts) → Prop
  | [], _, _ => True
  | t :: ts, (a, as), (b, bs) => t.Agree a b ∧ ObjsAgree ts as bs

def ValueType.tuple (ts : List ValueType) : ValueType :=
  { tupleInfo (infos ts) with Settled := ObjsSettled ts, Agree := ObjsAgree ts }

/-- The mask has a bit for every field from the `i`-th on, and those that are set are settled. -/
def SlotsSettled : (ts : List ValueType) → ℕ → BitVec 32 → Slots (infos ts) → Prop
  | [], _, _, _ => True
  | t :: ts, i, mask, (a, as) =>
    i < 32 ∧ (mask.getLsbD i = true → ∀ x, a = some x → t.Settled x) ∧
      SlotsSettled ts (i + 1) mask as

def SlotsAgree : (ts : List ValueType) → ℕ → BitVec 32 → Slots (infos ts) → Slots (infos ts) → Prop
  | [], _, _, _, _ => True
  | t :: ts, i, mask, (a, as), (b, bs) =>
    (mask.getLsbD i = true → ∀ x y, a = some x → b = some y → t.Agree x y) ∧
      SlotsAgree ts (i + 1) mask as bs

def ValueType.struct (ts : List ValueType) : ValueType :=
  { structInfo (infos ts) with
    Settled := fun a => ∀ obj, a = some obj → SlotsSettled ts 0 obj.mask obj.slots
    Agree := fun
      | none, b => b = none
      | some _, none => False
      | some a, some b => a.mask = b.mask ∧ SlotsAgree ts 0 a.mask a.slots b.slots }

def VariantSettled : (ts : List ValueType) → (k : ℕ) → Variant (infos ts) k → Prop
  | [], _, a => a.elim
  | t :: _, 0, a => t.Settled a
  | _ :: ts, k + 1, a => VariantSettled ts k a

def VariantAgree : (ts : List ValueType) → (k l : ℕ) → Variant (infos ts) k →
    Variant (infos ts) l → Prop
  | [], _, _, a, _ => a.elim
  | t :: _, 0, 0, a, b => t.Agree a b
  | _ :: ts, k + 1, l + 1, a, b => VariantAgree ts k l a b
  | _ :: _, 0, _ + 1, _, _ => False
  | _ :: _, _ + 1, 0, _, _ => False

def ValueType.union (ts : List ValueType) : ValueType :=
  { unionInfo (infos ts) with
    Settled := fun
      | none => True
      | some .unset => False
      | some (.set k a) => VariantSettled ts k a
    Agree := fun
      | some (.set k a), some (.set l b) => VariantAgree ts k l a b
      | a, b => a = b }

/-! ## Coherent types -/

/-- What is asked of the element types. -/
structure TypeInfo.Coherent (t : TypeInfo) : Prop where
  refl : ∀ a, t.equal a a = some true
  defined : ∀ a b, (t.equal a b).isSome = true
  comm : ∀ a b, t.equal a b = t.equal b a
  trans : ∀ a b c, t.equal a b = some true → t.equal b c = some true → t.equal a c = some true
  hash : ∀ a b, t.equal a b = some true → ∃ h, t.hash a = some h ∧ t.hash b = some h

/-- What is kept by the composite types: settled values are exactly those that equal themselves. -/
structure ValueType.Coherent (t : ValueType) : Prop where
  self : ∀ a, t.equal a a = some true ↔ t.Settled a
  defined : ∀ a b, t.Settled a → (t.equal a b).isSome = true
  comm : ∀ a b, t.equal a b = t.equal b a
  trans : ∀ a b c, t.equal a b = some true → t.equal b c = some true → t.equal a c = some true
  hash : ∀ a b, t.equal a b = some true → ∃ h, t.hash a = some h ∧ t.hash b = some h
  agree : ∀ a a' b, t.Agree a a' → t.equal a b = t.equal a' b
  agree_hash : ∀ a a', t.Agree a a' → t.hash a = t.hash a'

/-- The types that are built by nesting over coherent element types. -/
inductive Built : ValueType → Prop
  | element (t : TypeInfo) : t.Coherent → Built (.element t)
  | tuple (ts : List ValueType) : (∀ t ∈ ts, Built t) → Built (.tuple ts)
  | struct (ts : List ValueType) : (∀ t ∈ ts, Built t) → Built (.struct ts)
  | union (ts : List ValueType) : (∀ t ∈ ts, Built t) → Built (.union ts)

theorem coherent_element {t : TypeInfo} (h : t.Coherent) : (ValueType.element t).Coherent where
  self a := iff_of_true (h.refl a) trivial
  defined a b _ := h.defined a b
  comm := h.comm
  trans := h.trans
  hash := h.hash
  agree := by
    rintro a _ b rfl
    rfl
  agree_hash := by
    rintro a _ rfl
    rfl

/-! ## One comparison after another -/

theorem andThen_eq_true {x rest : Option Bool} :
    (x.bind fun eq => if eq then rest else some false) = some true ↔
      x = some true ∧ rest = some true := by
  cases x with
  | none => simp
  | some eq => cases eq <;> simp

theorem andThen_isSome {x rest : Option Bool} (hx : x.isSome = true) (hrest : rest.isSome = true) :
    (x.bind fun eq => if eq then rest else some false).isSome = true := by
  cases x with
  | none => simp at hx
  | some eq =>
    cases eq
    · rfl
    · exact hrest

/-! ## Tuples -/

section

variable {ts : List ValueType} {t : ValueType}

theorem tupleEqual_cons (a b : Objs (infos (t :: ts))) : tupleEqual (infos (t :: ts)) a b =
    (t.equal a.1 b.1).bind fun eq => if eq then tupleEqual (infos ts) a.2 b.2 else some false :=
  rfl

theorem tupleHash_cons (hash : UInt64) (a : Objs (infos (t :: ts))) :
    tupleHash (infos (t :: ts)) hash a =
      (t.hash a.1).bind fun h => tupleHash (infos ts) ((hash + h) * 2147483647) a.2 :=
  rfl

theorem tupleEqual_self (h : ∀ t ∈ ts, t.Coherent) (a : Objs (infos ts)) :
    tupleEqual (infos ts) a a = some true ↔ ObjsSettled ts a := by
  induction ts with
  | nil => exact iff_of_true rfl trivial
  | cons t ts ih =>
    obtain ⟨ht, hts⟩ := List.forall_mem_cons.mp h
    rw [tupleEqual_cons, andThen_eq_true]
    exact and_congr (ht.self a.1) (ih hts a.2)

theorem tupleEqual_isSome (h : ∀ t ∈ ts, t.Coherent) (a b : Objs (infos ts))
    (ha : ObjsSettled ts a) : (tupleEqual (infos ts) a b).isSome = true := by
  induction ts with
  | nil => rfl
  | cons t ts ih =>
    obtain ⟨ht, hts⟩ := List.forall_mem_cons.mp h
    rw [tupleEqual_cons]
    exact andThen_isSome (ht.defined a.1 b.1 ha.1) (ih hts a.2 b.2 ha.2)

theorem tupleEqual_comm (h : ∀ t ∈ ts, t.Coherent) (a b : Objs (infos ts)) :
    tupleEqual (infos ts) a b = tupleEqual (infos ts) b a := by
  induction ts with
  | nil => rfl
  | cons t ts ih =>
    obtain ⟨ht, hts⟩ := List.forall_mem_cons.mp h
    rw [tupleEqual_cons, tupleEqual_cons, ht.comm a.1 b.1, ih hts a.2 b.2]

theorem tupleEqual_trans (h : ∀ t ∈ ts, t.Coherent) (a b c : Objs (infos ts))
    (hab : tupleEqual (infos ts) a b = some true) (hbc : tupleEqual (infos ts) b c = some true) :
    tupleEqual (infos ts) a c = some true := by
  induction ts with
  | nil => rfl
  | cons t ts ih =>
    obtain ⟨ht, hts⟩ := List.forall_mem_cons.mp h
    rw [tupleEqual_cons, andThen_eq_true] at hab hbc ⊢
    exact ⟨ht.trans a.1 b.1 c.1 hab.1 hbc.1, ih hts a.2 b.2 c.2 hab.2 hbc.2⟩

theorem tupleHash_eq (h : ∀ t ∈ ts, t.Coherent) (a b : Objs (infos ts)) (hash : UInt64)
    (hab : tupleEqual (infos ts) a b = some true) :
    ∃ r, tupleHash (infos ts) hash a = some r ∧ tupleHash (infos ts) hash b = some r := by
  induction ts generalizing hash with
  | nil => exact ⟨hash, rfl, rfl⟩
  | cons t ts ih =>
    obtain ⟨ht, hts⟩ := List.forall_mem_cons.mp h
    rw [tupleEqual_cons, andThen_eq_true] at hab
    obtain ⟨r, hra, hrb⟩ := ht.hash a.1 b.1 hab.1
    obtain ⟨s, hsa, hsb⟩ := ih hts a.2 b.2 ((hash + r) * 2147483647) hab.2
    refine ⟨s, ?_, ?_⟩
    · rw [tupleHash_cons, hra, Option.bind_some, hsa]
    · rw [tupleHash_cons, hrb, Option.bind_some, hsb]

theorem tupleEqual_agree (h : ∀ t ∈ ts, t.Coherent) (a a' b : Objs (infos ts))
    (ha : ObjsAgree ts a a') : tupleEqual (infos ts) a b = tupleEqual (infos ts) a' b := by
  induction ts with
  | nil => rfl
  | cons t ts ih =>
    obtain ⟨ht, hts⟩ := List.forall_mem_cons.mp h
    rw [tupleEqual_cons, tupleEqual_cons, ht.agree a.1 a'.1 b.1 ha.1, ih hts a.2 a'.2 b.2 ha.2]

theorem tupleHash_agree (h : ∀ t ∈ ts, t.Coherent) (a a' : Objs (infos ts)) (hash : UInt64)
    (ha : ObjsAgree ts a a') : tupleHash (infos ts) hash a = tupleHash (infos ts) hash a' := by
  induction ts generalizing hash with
  | nil => rfl
  | cons t ts ih =>
    obtain ⟨ht, hts⟩ := List.forall_mem_cons.mp h
    rw [tupleHash_cons, tupleHash_cons, ht.agree_hash a.1 a'.1 ha.1]
    congr 1
    funext r
    exact ih hts a.2 a'.2 _ ha.2

theorem coherent_tuple (h : ∀ t ∈ ts, t.Coherent) : (ValueType.tuple ts).Coherent where
  self := tupleEqual_self h
  defined := tupleEqual_isSome h
  comm := tupleEqual_comm h
  trans := tupleEqual_trans h
  hash a b := tupleHash_eq h a b 0
  agree := tupleEqual_agree h
  agree_hash a a' := tupleHash_agree h a a' 0

end

/-! ## Structs -/

section

variable {ts : List ValueType} {t : ValueType} {i : ℕ} {mask : BitVec 32}

theorem isSet_cases (mask : BitVec 32) (i : ℕ) :
    (¬i < 32 ∧ isSet mask i = none) ∨ (i < 32 ∧ mask.getLsbD i = true ∧ isSet mask i = some true) ∨
      (i < 32 ∧ mask.getLsbD i = false ∧ isSet mask i = some false) := by
  unfold isSet
  by_cases hi : i < 32
  · rw [if_pos hi]
    cases hbit : mask.getLsbD i
    · exact .inr (.inr ⟨hi, rfl, rfl⟩)
    · exact .inr (.inl ⟨hi, rfl, rfl⟩)
  · rw [if_neg hi]
    exact .inl ⟨hi, rfl⟩

theorem structEqual_beyond (h : isSet mask i = none) (a b : Slots (infos (t :: ts))) :
    structEqual (infos (t :: ts)) i mask a b = none := by
  change (isSet mask i).bind _ = none
  rw [h, Option.bind_none]

theorem structEqual_set (h : isSet mask i = some true) {a b : Slots (infos (t :: ts))} {x y : t.Obj}
    (ha : a.1 = some x) (hb : b.1 = some y) : structEqual (infos (t :: ts)) i mask a b =
      (t.equal x y).bind fun eq => if eq then structEqual (infos ts) (i + 1) mask a.2 b.2
        else some false := by
  obtain ⟨_, a⟩ := a
  obtain ⟨_, b⟩ := b
  cases ha
  cases hb
  change (isSet mask i).bind _ = _
  rw [h]
  rfl

theorem structEqual_unset (h : isSet mask i = some false) (a b : Slots (infos (t :: ts))) :
    structEqual (infos (t :: ts)) i mask a b = structEqual (infos ts) (i + 1) mask a.2 b.2 := by
  change (isSet mask i).bind _ = _
  rw [h]
  rfl

theorem structHash_beyond (h : isSet mask i = none) (hash : UInt64) (a : Slots (infos (t :: ts))) :
    structHash (infos (t :: ts)) i mask hash a = none := by
  change (isSet mask i).bind _ = none
  rw [h, Option.bind_none]

theorem structHash_set (h : isSet mask i = some true) (hash : UInt64) {a : Slots (infos (t :: ts))}
    {x : t.Obj} (ha : a.1 = some x) : structHash (infos (t :: ts)) i mask hash a =
      (t.hash x).bind fun r => structHash (infos ts) (i + 1) mask ((hash + r) * 2654435761) a.2 := by
  obtain ⟨_, a⟩ := a
  cases ha
  change (isSet mask i).bind _ = _
  rw [h]
  rfl

theorem structHash_unset (h : isSet mask i = some false) (hash : UInt64)
    (a : Slots (infos (t :: ts))) : structHash (infos (t :: ts)) i mask hash a =
      structHash (infos ts) (i + 1) mask (hash + 8589935681) a.2 := by
  change (isSet mask i).bind _ = _
  rw [h]
  rfl

/-- Why a field that is set can be read. -/
theorem Filled.value {a : Slots (infos (t :: ts))} (h : Filled (infos (t :: ts)) i mask a)
    (hset : mask.getLsbD i = true) : ∃ x, a.1 = some x :=
  Option.isSome_iff_exists.mp (h.1 hset)

theorem structEqual_self (h : ∀ t ∈ ts, t.Coherent) (a : Slots (infos ts))
    (ha : Filled (infos ts) i mask a) :
    structEqual (infos ts) i mask a a = some true ↔ SlotsSettled ts i mask a := by
  induction ts generalizing i with
  | nil => exact iff_of_true rfl trivial
  | cons t ts ih =>
    obtain ⟨ht, hts⟩ := List.forall_mem_cons.mp h
    rcases isSet_cases mask i with ⟨hi, hset⟩ | ⟨hi, hbit, hset⟩ | ⟨hi, hbit, hset⟩
    · rw [structEqual_beyond hset]
      exact iff_of_false nofun fun hs => hi hs.1
    · obtain ⟨x, hx⟩ := ha.value hbit
      rw [structEqual_set hset hx hx, andThen_eq_true, ih hts a.2 ha.2, ht.self]
      constructor
      · rintro ⟨hself, hrest⟩
        refine ⟨hi, fun _ y hy => ?_, hrest⟩
        obtain rfl := Option.some.inj (hx.symm.trans hy)
        exact hself
      · exact fun hs => ⟨hs.2.1 hbit x hx, hs.2.2⟩
    · rw [structEqual_unset hset, ih hts a.2 ha.2]
      constructor
      · exact fun hrest => ⟨hi, fun hb => absurd hb (by rw [hbit]; nofun), hrest⟩
      · exact fun hs => hs.2.2

theorem structEqual_isSome (h : ∀ t ∈ ts, t.Coherent) (a b : Slots (infos ts))
    (ha : Filled (infos ts) i mask a) (hb : Filled (infos ts) i mask b)
    (hs : SlotsSettled ts i mask a) : (structEqual (infos ts) i mask a b).isSome = true := by
  induction ts generalizing i with
  | nil => rfl
  | cons t ts ih =>
    obtain ⟨ht, hts⟩ := List.forall_mem_cons.mp h
    rcases isSet_cases mask i with ⟨hi, hset⟩ | ⟨hi, hbit, hset⟩ | ⟨hi, hbit, hset⟩
    · exact absurd hs.1 hi
    · obtain ⟨x, hx⟩ := ha.value hbit
      obtain ⟨y, hy⟩ := hb.value hbit
      rw [structEqual_set hset hx hy]
      exact andThen_isSome (ht.defined x y (hs.2.1 hbit x hx)) (ih hts a.2 b.2 ha.2 hb.2 hs.2.2)
    · rw [structEqual_unset hset]
      exact ih hts a.2 b.2 ha.2 hb.2 hs.2.2

theorem structEqual_comm (h : ∀ t ∈ ts, t.Coherent) (a b : Slots (infos ts))
    (ha : Filled (infos ts) i mask a) (hb : Filled (infos ts) i mask b) :
    structEqual (infos ts) i mask a b = structEqual (infos ts) i mask b a := by
  induction ts generalizing i with
  | nil => rfl
  | cons t ts ih =>
    obtain ⟨ht, hts⟩ := List.forall_mem_cons.mp h
    rcases isSet_cases mask i with ⟨hi, hset⟩ | ⟨hi, hbit, hset⟩ | ⟨hi, hbit, hset⟩
    · rw [structEqual_beyond hset, structEqual_beyond hset]
    · obtain ⟨x, hx⟩ := ha.value hbit
      obtain ⟨y, hy⟩ := hb.value hbit
      rw [structEqual_set hset hx hy, structEqual_set hset hy hx, ht.comm x y,
        ih hts a.2 b.2 ha.2 hb.2]
    · rw [structEqual_unset hset, structEqual_unset hset, ih hts a.2 b.2 ha.2 hb.2]

theorem structEqual_trans (h : ∀ t ∈ ts, t.Coherent) (a b c : Slots (infos ts))
    (ha : Filled (infos ts) i mask a) (hb : Filled (infos ts) i mask b)
    (hc : Filled (infos ts) i mask c) (hab : structEqual (infos ts) i mask a b = some true)
    (hbc : structEqual (infos ts) i mask b c = some true) :
    structEqual (infos ts) i mask a c = some true := by
  induction ts generalizing i with
  | nil => rfl
  | cons t ts ih =>
    obtain ⟨ht, hts⟩ := List.forall_mem_cons.mp h
    rcases isSet_cases mask i with ⟨hi, hset⟩ | ⟨hi, hbit, hset⟩ | ⟨hi, hbit, hset⟩
    · rw [structEqual_beyond hset] at hab
      cases hab
    · obtain ⟨x, hx⟩ := ha.value hbit
      obtain ⟨y, hy⟩ := hb.value hbit
      obtain ⟨z, hz⟩ := hc.value hbit
      rw [structEqual_set hset hx hy, andThen_eq_true] at hab
      rw [structEqual_set hset hy hz, andThen_eq_true] at hbc
      rw [structEqual_set hset hx hz, andThen_eq_true]
      exact ⟨ht.trans x y z hab.1 hbc.1, ih hts a.2 b.2 c.2 ha.2 hb.2 hc.2 hab.2 hbc.2⟩
    · rw [structEqual_unset hset] at hab hbc ⊢
      exact ih hts a.2 b.2 c.2 ha.2 hb.2 hc.2 hab hbc

theorem structHash_eq (h : ∀ t ∈ ts, t.Coherent) (a b : Slots (infos ts)) (hash : UInt64)
    (ha : Filled (infos ts) i mask a) (hb : Filled (infos ts) i mask b)
    (hab : structEqual (infos ts) i mask a b = some true) :
    ∃ r, structHash (infos ts) i mask hash a = some r ∧
      structHash (infos ts) i mask hash b = some r := by
  induction ts generalizing i hash with
  | nil => exact ⟨hash, rfl, rfl⟩
  | cons t ts ih =>
    obtain ⟨ht, hts⟩ := List.forall_mem_cons.mp h
    rcases isSet_cases mask i with ⟨hi, hset⟩ | ⟨hi, hbit, hset⟩ | ⟨hi, hbit, hset⟩
    · rw [structEqual_beyond hset] at hab
      cases hab
    · obtain ⟨x, hx⟩ := ha.value hbit
      obtain ⟨y, hy⟩ := hb.value hbit
      rw [structEqual_set hset hx hy, andThen_eq_true] at hab
      obtain ⟨r, hrx, hry⟩ := ht.hash x y hab.1
      obtain ⟨s, hsa, hsb⟩ := ih hts a.2 b.2 ((hash + r) * 2654435761) ha.2 hb.2 hab.2
      refine ⟨s, ?_, ?_⟩
      · rw [structHash_set hset hash hx, hrx, Option.bind_some, hsa]
      · rw [structHash_set hset hash hy, hry, Option.bind_some, hsb]
    · rw [structEqual_unset hset] at hab
      rw [structHash_unset hset, structHash_unset hset]
      exact ih hts a.2 b.2 _ ha.2 hb.2 hab

theorem structEqual_agree (h : ∀ t ∈ ts, t.Coherent) (a a' b : Slots (infos ts))
    (ha : Filled (infos ts) i mask a) (ha' : Filled (infos ts) i mask a')
    (hb : Filled (infos ts) i mask b) (haa : SlotsAgree ts i mask a a') :
    structEqual (infos ts) i mask a b = structEqual (infos ts) i mask a' b := by
  induction ts generalizing i with
  | nil => rfl
  | cons t ts ih =>
    obtain ⟨ht, hts⟩ := List.forall_mem_cons.mp h
    rcases isSet_cases mask i with ⟨hi, hset⟩ | ⟨hi, hbit, hset⟩ | ⟨hi, hbit, hset⟩
    · rw [structEqual_beyond hset, structEqual_beyond hset]
    · obtain ⟨x, hx⟩ := ha.value hbit
      obtain ⟨x', hx'⟩ := ha'.value hbit
      obtain ⟨y, hy⟩ := hb.value hbit
      rw [structEqual_set hset hx hy, structEqual_set hset hx' hy,
        ht.agree x x' y (haa.1 hbit x x' hx hx'), ih hts a.2 a'.2 b.2 ha.2 ha'.2 hb.2 haa.2]
    · rw [structEqual_unset hset, structEqual_unset hset]
      exact ih hts a.2 a'.2 b.2 ha.2 ha'.2 hb.2 haa.2

theorem structHash_agree (h : ∀ t ∈ ts, t.Coherent) (a a' : Slots (infos ts)) (hash : UInt64)
    (ha : Filled (infos ts) i mask a) (ha' : Filled (infos ts) i mask a')
    (haa : SlotsAgree ts i mask a a') :
    structHash (infos ts) i mask hash a = structHash (infos ts) i mask hash a' := by
  induction ts generalizing i hash with
  | nil => rfl
  | cons t ts ih =>
    obtain ⟨ht, hts⟩ := List.forall_mem_cons.mp h
    rcases isSet_cases mask i with ⟨hi, hset⟩ | ⟨hi, hbit, hset⟩ | ⟨hi, hbit, hset⟩
    · rw [structHash_beyond hset, structHash_beyond hset]
    · obtain ⟨x, hx⟩ := ha.value hbit
      obtain ⟨x', hx'⟩ := ha'.value hbit
      rw [structHash_set hset hash hx, structHash_set hset hash hx',
        ht.agree_hash x x' (haa.1 hbit x x' hx hx')]
      congr 1
      funext r
      exact ih hts a.2 a'.2 _ ha.2 ha'.2 haa.2
    · rw [structHash_unset hset, structHash_unset hset]
      exact ih hts a.2 a'.2 _ ha.2 ha'.2 haa.2

theorem struct_equal_iff (a b : (ValueType.struct ts).Obj) :
    (ValueType.struct ts).equal a b = some true ↔ (a = none ∧ b = none) ∨
      ∃ x y, a = some x ∧ b = some y ∧ x.mask = y.mask ∧
        structEqual (infos ts) 0 x.mask x.slots y.slots = some true := by
  rcases a with _ | x
  · rcases b with _ | y
    · exact iff_of_true rfl (.inl ⟨rfl, rfl⟩)
    · refine iff_of_false nofun ?_
      rintro (⟨-, h⟩ | ⟨_, _, h, -⟩)
      · cases h
      · cases h
  · rcases b with _ | y
    · refine iff_of_false nofun ?_
      rintro (⟨h, -⟩ | ⟨_, _, -, h, -⟩)
      · cases h
      · cases h
    · change (if x.mask ≠ y.mask then some false else
        structEqual (infos ts) 0 x.mask x.slots y.slots) = some true ↔ _
      constructor
      · intro h
        split at h
        · cases h
        · rename_i hmask
          exact .inr ⟨x, y, rfl, rfl, not_not.mp hmask, h⟩
      · rintro (⟨h, -⟩ | ⟨_, _, hx, hy, hmask, h⟩)
        · cases h
        · cases hx
          cases hy
          rw [if_neg (not_not.mpr hmask), h]

theorem coherent_struct (h : ∀ t ∈ ts, t.Coherent) : (ValueType.struct ts).Coherent where
  self a := by
    rw [struct_equal_iff]
    constructor
    · rintro (⟨rfl, -⟩ | ⟨x, y, rfl, hy, -, heq⟩)
      · exact nofun
      · cases hy
        rintro obj ⟨⟩
        exact (structEqual_self h x.slots x.filled).mp heq
    · intro hs
      rcases a with _ | x
      · exact .inl ⟨rfl, rfl⟩
      · exact .inr ⟨x, x, rfl, rfl, rfl, (structEqual_self h x.slots x.filled).mpr (hs x rfl)⟩
  defined a b hs := by
    rcases a with _ | x
    · rfl
    · rcases b with _ | y
      · rfl
      · change (if x.mask ≠ y.mask then some false else
          structEqual (infos ts) 0 x.mask x.slots y.slots).isSome = true
        split
        · rfl
        · rename_i hmask
          have hfilled := y.filled
          rw [← not_not.mp hmask] at hfilled
          exact structEqual_isSome h x.slots y.slots x.filled hfilled (hs x rfl)
  comm a b := by
    rcases a with _ | x
    · rcases b with _ | y
      · rfl
      · rfl
    · rcases b with _ | y
      · rfl
      · change (if x.mask ≠ y.mask then some false else
          structEqual (infos ts) 0 x.mask x.slots y.slots) = if y.mask ≠ x.mask then some false else
          structEqual (infos ts) 0 y.mask y.slots x.slots
        by_cases hmask : x.mask = y.mask
        · have hfilled := y.filled
          rw [if_neg (not_not.mpr hmask), if_neg (not_not.mpr hmask.symm)]
          rw [← hmask] at hfilled ⊢
          exact structEqual_comm h x.slots y.slots x.filled hfilled
        · rw [if_pos hmask, if_pos (Ne.symm hmask)]
  trans a b c hab hbc := by
    rw [struct_equal_iff] at hab hbc ⊢
    rcases hab with ⟨rfl, rfl⟩ | ⟨x, y, rfl, rfl, hxy, hab⟩
    · rcases hbc with ⟨-, rfl⟩ | ⟨_, _, hy, -⟩
      · exact .inl ⟨rfl, rfl⟩
      · cases hy
    · rcases hbc with ⟨hy, -⟩ | ⟨_, z, hy, rfl, hyz, hbc⟩
      · cases hy
      · cases hy
        have hy := y.filled
        have hz := z.filled
        rw [← hxy] at hy hbc
        rw [← hxy.trans hyz] at hz
        exact .inr ⟨x, z, rfl, rfl, hxy.trans hyz, structEqual_trans h x.slots y.slots z.slots
          x.filled hy hz hab hbc⟩
  hash a b hab := by
    rcases (struct_equal_iff a b).mp hab with ⟨rfl, rfl⟩ | ⟨x, y, rfl, rfl, hmask, heq⟩
    · exact ⟨0, rfl, rfl⟩
    · have hfilled := y.filled
      rw [← hmask] at hfilled
      obtain ⟨r, hx, hy⟩ := structHash_eq h x.slots y.slots 0 x.filled hfilled heq
      refine ⟨r, hx, ?_⟩
      change structHash (infos ts) 0 y.mask 0 y.slots = some r
      rw [← hmask, hy]
  agree a a' b ha := by
    rcases a with _ | x
    · obtain rfl : a' = none := ha
      rfl
    · rcases a' with _ | x'
      · exact ha.elim
      · obtain ⟨hmx, hax⟩ := ha
        rcases b with _ | y
        · rfl
        · change (if x.mask ≠ y.mask then some false else
            structEqual (infos ts) 0 x.mask x.slots y.slots) =
            if x'.mask ≠ y.mask then some false else
            structEqual (infos ts) 0 x'.mask x'.slots y.slots
          by_cases hmask : x.mask = y.mask
          · have hx' := x'.filled
            have hy := y.filled
            rw [← hmx] at hx'
            rw [← hmask] at hy
            rw [← hmx, if_neg (not_not.mpr hmask), if_neg (not_not.mpr hmask)]
            exact structEqual_agree h x.slots x'.slots y.slots x.filled hx' hy hax
          · rw [← hmx, if_pos hmask, if_pos hmask]
  agree_hash a a' ha := by
    rcases a with _ | x
    · obtain rfl : a' = none := ha
      rfl
    · rcases a' with _ | x'
      · exact ha.elim
      · obtain ⟨hmx, hax⟩ := ha
        have hx' := x'.filled
        rw [← hmx] at hx'
        change structHash (infos ts) 0 x.mask 0 x.slots = structHash (infos ts) 0 x'.mask 0 x'.slots
        rw [← hmx]
        exact structHash_agree h x.slots x'.slots 0 x.filled hx' hax

end

/-! ## Unions -/

section

variable {ts : List ValueType} {k l m : ℕ}

theorem variantEqual_self (h : ∀ t ∈ ts, t.Coherent) (a : Variant (infos ts) k) :
    variantEqual (infos ts) k k a a = some true ↔ VariantSettled ts k a := by
  induction ts generalizing k with
  | nil => exact a.elim
  | cons t ts ih =>
    obtain ⟨ht, hts⟩ := List.forall_mem_cons.mp h
    cases k with
    | zero => exact ht.self a
    | succ k => exact ih hts (k := k) a

theorem variantEqual_isSome (h : ∀ t ∈ ts, t.Coherent) (a b : Variant (infos ts) k)
    (ha : VariantSettled ts k a) : (variantEqual (infos ts) k k a b).isSome = true := by
  induction ts generalizing k with
  | nil => exact a.elim
  | cons t ts ih =>
    obtain ⟨ht, hts⟩ := List.forall_mem_cons.mp h
    cases k with
    | zero => exact ht.defined a b ha
    | succ k => exact ih hts (k := k) a b ha

theorem variantEqual_comm (h : ∀ t ∈ ts, t.Coherent) (a : Variant (infos ts) k)
    (b : Variant (infos ts) l) :
    variantEqual (infos ts) k l a b = variantEqual (infos ts) l k b a := by
  induction ts generalizing k l with
  | nil => exact a.elim
  | cons t ts ih =>
    obtain ⟨ht, hts⟩ := List.forall_mem_cons.mp h
    cases k with
    | zero =>
      cases l with
      | zero => exact ht.comm a b
      | succ l => rfl
    | succ k =>
      cases l with
      | zero => rfl
      | succ l => exact ih hts (k := k) (l := l) a b

theorem variantEqual_trans (h : ∀ t ∈ ts, t.Coherent) (a : Variant (infos ts) k)
    (b : Variant (infos ts) l) (c : Variant (infos ts) m)
    (hab : variantEqual (infos ts) k l a b = some true)
    (hbc : variantEqual (infos ts) l m b c = some true) :
    variantEqual (infos ts) k m a c = some true := by
  induction ts generalizing k l m with
  | nil => exact a.elim
  | cons t ts ih =>
    obtain ⟨ht, hts⟩ := List.forall_mem_cons.mp h
    cases k with
    | zero =>
      cases l with
      | zero =>
        cases m with
        | zero => exact ht.trans a b c hab hbc
        | succ m => cases hbc
      | succ l => cases hab
    | succ k =>
      cases l with
      | zero => cases hab
      | succ l =>
        cases m with
        | zero => cases hbc
        | succ m => exact ih hts (k := k) (l := l) (m := m) a b c hab hbc

theorem variantHash_eq (h : ∀ t ∈ ts, t.Coherent) (a : Variant (infos ts) k)
    (b : Variant (infos ts) l) (hab : variantEqual (infos ts) k l a b = some true) :
    ∃ r, variantHash (infos ts) k a = some r ∧ variantHash (infos ts) l b = some r := by
  induction ts generalizing k l with
  | nil => exact a.elim
  | cons t ts ih =>
    obtain ⟨ht, hts⟩ := List.forall_mem_cons.mp h
    cases k with
    | zero =>
      cases l with
      | zero => exact ht.hash a b hab
      | succ l => cases hab
    | succ k =>
      cases l with
      | zero => cases hab
      | succ l => exact ih hts (k := k) (l := l) a b hab

theorem VariantAgree.field_eq {a : Variant (infos ts) k} {b : Variant (infos ts) l}
    (h : VariantAgree ts k l a b) : k = l := by
  induction ts generalizing k l with
  | nil => exact a.elim
  | cons t ts ih =>
    cases k with
    | zero =>
      cases l with
      | zero => rfl
      | succ l => exact h.elim
    | succ k =>
      cases l with
      | zero => exact h.elim
      | succ l => exact congrArg Nat.succ (ih (k := k) (l := l) h)

theorem variantEqual_agree (h : ∀ t ∈ ts, t.Coherent) (a a' : Variant (infos ts) k)
    (b : Variant (infos ts) l) (ha : VariantAgree ts k k a a') :
    variantEqual (infos ts) k l a b = variantEqual (infos ts) k l a' b := by
  induction ts generalizing k l with
  | nil => exact a.elim
  | cons t ts ih =>
    obtain ⟨ht, hts⟩ := List.forall_mem_cons.mp h
    cases k with
    | zero =>
      cases l with
      | zero => exact ht.agree a a' b ha
      | succ l => rfl
    | succ k =>
      cases l with
      | zero => rfl
      | succ l => exact ih hts (k := k) (l := l) a a' b ha

theorem variantHash_agree (h : ∀ t ∈ ts, t.Coherent) (a a' : Variant (infos ts) k)
    (ha : VariantAgree ts k k a a') :
    variantHash (infos ts) k a = variantHash (infos ts) k a' := by
  induction ts generalizing k with
  | nil => exact a.elim
  | cons t ts ih =>
    obtain ⟨ht, hts⟩ := List.forall_mem_cons.mp h
    cases k with
    | zero => exact ht.agree_hash a a' ha
    | succ k => exact ih hts (k := k) a a' ha

theorem UnionObj.field_set {ts : List TypeInfo} {k l : ℕ} {a : Variant ts k} {b : Variant ts l} :
    (UnionObj.set k a).field = (UnionObj.set l b).field ↔ k = l :=
  Int.ofNat_inj

theorem UnionObj.unset_field_ne {ts : List TypeInfo} {k : ℕ} {a : Variant ts k} :
    (UnionObj.unset : UnionObj ts).field ≠ (UnionObj.set k a).field := by
  change (-1 : ℤ) ≠ (k : ℤ)
  omega

theorem union_equal_set (a : Variant (infos ts) k) (b : Variant (infos ts) l) :
    (ValueType.union ts).equal (some (.set k a)) (some (.set l b)) =
      if k ≠ l then some false else variantEqual (infos ts) k l a b := by
  change (if (UnionObj.set k a).field ≠ (UnionObj.set l b).field then some false
    else variantEqual (infos ts) k l a b) = _
  by_cases hkl : k = l
  · rw [if_neg (not_not.mpr (UnionObj.field_set.mpr hkl)), if_neg (not_not.mpr hkl)]
  · rw [if_pos (mt UnionObj.field_set.mp hkl), if_pos hkl]

theorem union_equal_unset_set (b : Variant (infos ts) l) :
    (ValueType.union ts).equal (some .unset) (some (.set l b)) = some false := by
  change (if (UnionObj.unset : UnionObj (infos ts)).field ≠ (UnionObj.set l b).field then some false
    else none) = _
  rw [if_pos UnionObj.unset_field_ne]

theorem union_equal_set_unset (a : Variant (infos ts) k) :
    (ValueType.union ts).equal (some (.set k a)) (some .unset) = some false := by
  change (if (UnionObj.set k a).field ≠ (UnionObj.unset : UnionObj (infos ts)).field then some false
    else none) = _
  rw [if_pos (Ne.symm UnionObj.unset_field_ne)]

theorem union_equal_unset : (ValueType.union ts).equal (some .unset) (some .unset) = none :=
  rfl

theorem union_equal_iff (a b : (ValueType.union ts).Obj) :
    (ValueType.union ts).equal a b = some true ↔ (a = none ∧ b = none) ∨
      ∃ k x y, a = some (.set k x) ∧ b = some (.set k y) ∧
        variantEqual (infos ts) k k x y = some true := by
  constructor
  · intro h
    rcases a with _ | _ | ⟨k, x⟩
    · rcases b with _ | u
      · exact .inl ⟨rfl, rfl⟩
      · cases h
    · rcases b with _ | _ | ⟨l, y⟩
      · cases h
      · rw [union_equal_unset] at h
        cases h
      · rw [union_equal_unset_set] at h
        cases h
    · rcases b with _ | _ | ⟨l, y⟩
      · cases h
      · rw [union_equal_set_unset] at h
        cases h
      · rw [union_equal_set] at h
        split at h
        · cases h
        · rename_i hkl
          obtain rfl := not_not.mp hkl
          exact .inr ⟨k, x, y, rfl, rfl, h⟩
  · rintro (⟨rfl, rfl⟩ | ⟨k, x, y, rfl, rfl, h⟩)
    · rfl
    · rw [union_equal_set, if_neg (not_not.mpr rfl), h]

theorem union_agree_cases {a b : (ValueType.union ts).Obj} (h : (ValueType.union ts).Agree a b) :
    a = b ∨ ∃ k x y, a = some (.set k x) ∧ b = some (.set k y) ∧ VariantAgree ts k k x y := by
  rcases a with _ | _ | ⟨k, x⟩
  · exact .inl h
  · exact .inl h
  · rcases b with _ | _ | ⟨l, y⟩
    · exact .inl h
    · exact .inl h
    · obtain rfl := VariantAgree.field_eq h
      exact .inr ⟨k, x, y, rfl, rfl, h⟩

theorem coherent_union (h : ∀ t ∈ ts, t.Coherent) : (ValueType.union ts).Coherent where
  self a := by
    rw [union_equal_iff]
    constructor
    · rintro (⟨rfl, -⟩ | ⟨k, x, y, rfl, hy, heq⟩)
      · trivial
      · cases hy
        exact (variantEqual_self h x).mp heq
    · intro hs
      rcases a with _ | _ | ⟨k, x⟩
      · exact .inl ⟨rfl, rfl⟩
      · exact hs.elim
      · exact .inr ⟨k, x, x, rfl, rfl, (variantEqual_self h x).mpr hs⟩
  defined a b hs := by
    rcases a with _ | _ | ⟨k, x⟩
    · rfl
    · exact hs.elim
    · rcases b with _ | _ | ⟨l, y⟩
      · rfl
      · rw [union_equal_set_unset]
        rfl
      · rw [union_equal_set]
        split
        · rfl
        · rename_i hkl
          obtain rfl := not_not.mp hkl
          exact variantEqual_isSome h x y hs
  comm a b := by
    rcases a with _ | _ | ⟨k, x⟩
    · rcases b with _ | u
      · rfl
      · rfl
    · rcases b with _ | _ | ⟨l, y⟩
      · rfl
      · rfl
      · rw [union_equal_unset_set, union_equal_set_unset]
    · rcases b with _ | _ | ⟨l, y⟩
      · rfl
      · rw [union_equal_unset_set, union_equal_set_unset]
      · rw [union_equal_set, union_equal_set, variantEqual_comm h x y]
        simp only [ne_eq, eq_comm]
  trans a b c hab hbc := by
    rw [union_equal_iff] at hab hbc ⊢
    rcases hab with ⟨rfl, rfl⟩ | ⟨k, x, y, rfl, rfl, hab⟩
    · rcases hbc with ⟨-, rfl⟩ | ⟨_, _, _, hy, -⟩
      · exact .inl ⟨rfl, rfl⟩
      · cases hy
    · rcases hbc with ⟨hy, -⟩ | ⟨_, _, z, hy, rfl, hbc⟩
      · cases hy
      · cases hy
        exact .inr ⟨k, x, z, rfl, rfl, variantEqual_trans h x y z hab hbc⟩
  hash a b hab := by
    rcases (union_equal_iff a b).mp hab with ⟨rfl, rfl⟩ | ⟨k, x, y, rfl, rfl, heq⟩
    · exact ⟨0, rfl, rfl⟩
    · exact variantHash_eq h x y heq
  agree a a' b ha := by
    rcases union_agree_cases ha with rfl | ⟨k, x, x', rfl, rfl, hax⟩
    · rfl
    · rcases b with _ | _ | ⟨l, y⟩
      · rfl
      · rw [union_equal_set_unset, union_equal_set_unset]
      · rw [union_equal_set, union_equal_set, variantEqual_agree h x x' y hax]
  agree_hash a a' ha := by
    rcases union_agree_cases ha with rfl | ⟨k, x, x', rfl, rfl, hax⟩
    · rfl
    · exact variantHash_agree h x x' hax

end

/-! ## Every type -/

/-- By induction over how the type is built. -/
theorem Built.coherent {t : ValueType} (h : Built t) : t.Coherent := by
  induction h with
  | element t ht => exact coherent_element ht
  | tuple ts _ ih => exact coherent_tuple ih
  | struct ts _ ih => exact coherent_struct ih
  | union ts _ ih => exact coherent_union ih

/-- Equality on the values of `S` is an equivalence that looks at nothing that is not set, and equal
values have equal hashes. -/
structure CoherentOn (t : ValueType) (S : Set t.Obj) : Prop where
  refl : ∀ a ∈ S, t.equal a a = some true
  symm : ∀ a ∈ S, ∀ b ∈ S, t.equal a b = some true → t.equal b a = some true
  trans : ∀ a ∈ S, ∀ b ∈ S, ∀ c ∈ S, t.equal a b = some true → t.equal b c = some true →
    t.equal a c = some true
  defined : ∀ a ∈ S, ∀ b ∈ S, (t.equal a b).isSome = true
  only_set : ∀ a ∈ S, ∀ b ∈ S, ∀ a' b', t.Agree a a' → t.Agree b b' → t.equal a b = t.equal a' b'
  hash : ∀ a ∈ S, ∀ b ∈ S, t.equal a b = some true → ∃ h, t.hash a = some h ∧ t.hash b = some h

/-- For every type and every set of its values. -/
theorem coherentOn_iff {t : ValueType} (ht : Built t) (S : Set t.Obj) :
    CoherentOn t S ↔ ∀ a ∈ S, t.Settled a := by
  have hc := ht.coherent
  constructor
  · exact fun h a ha => (hc.self a).mp (h.refl a ha)
  · intro hs
    constructor
    · exact fun a ha => (hc.self a).mpr (hs a ha)
    · intro a _ b _ hab
      rw [hc.comm b a, hab]
    · exact fun a _ b _ c _ hab hbc => hc.trans a b c hab hbc
    · exact fun a ha b _ => hc.defined a b (hs a ha)
    · intro a _ b _ a' b' haa hbb
      rw [hc.agree a a' b haa, hc.comm a' b, hc.agree b b' a' hbb, hc.comm b' a']
    · exact fun a _ b _ hab => hc.hash a b hab

/-- A 64-bit integer, which is its own hash. -/
def int64Info : TypeInfo where
  Obj := UInt64
  equal := fun (a b : UInt64) => some (decide (a = b))
  hash a := some a

theorem int64_equal_iff (a b : UInt64) : int64Info.equal a b = some true ↔ a = b := by
  change some (decide (a = b)) = some true ↔ a = b
  rw [Option.some_inj, decide_eq_true_iff]

theorem int64_coherent : int64Info.Coherent where
  refl a := (int64_equal_iff a a).mpr rfl
  defined _ _ := rfl
  comm := fun (a b : UInt64) => by
    change some (decide (a = b)) = some (decide (b = a))
    rw [decide_eq_decide.mpr eq_comm]
  trans a b c hab hbc := by
    obtain rfl := (int64_equal_iff a b).mp hab
    exact hbc
  hash a b hab := by
    obtain rfl := (int64_equal_iff a b).mp hab
    exact ⟨a, rfl, rfl⟩

theorem built_int64_union : Built (.union [.element int64Info]) := by
  refine .union _ fun t ht => ?_
  rw [List.mem_singleton.mp ht]
  exact .element _ int64_coherent

/-- A struct with a union and an integer. -/
def recordType : ValueType :=
  .struct [.union [.element int64Info], .element int64Info]

theorem built_recordType : Built recordType := by
  refine .struct _ fun t ht => ?_
  rcases List.mem_cons.mp ht with rfl | ht
  · exact built_int64_union
  · rw [List.mem_singleton.mp ht]
    exact .element _ int64_coherent

/-- Both fields are set, the union to its only field. -/
def record : recordType.Obj :=
  some ⟨3#32, (some (some (.set 0 (5 : UInt64))), some (7 : UInt64), ()),
    fun _ => rfl, fun _ => rfl, trivial⟩

theorem coherentOn_iff_record :
    CoherentOn recordType {record} ↔ ∀ a ∈ ({record} : Set recordType.Obj), recordType.Settled a :=
  coherentOn_iff built_recordType {record}

/-- A union that has never been set does not equal itself: `fields[-1]`. -/
theorem unset_union_not_coherent :
    ¬∀ (t : ValueType), Built t → ∀ S : Set t.Obj, CoherentOn t S := by
  intro h
  have hself := (h _ built_int64_union Set.univ).refl (some .unset) trivial
  rw [union_equal_unset] at hself
  cases hself

end Hilti.Composite
