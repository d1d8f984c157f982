import Hilti.Strings.Charsets
import Mathlib.Data.List.Nodup
import Mathlib.Data.List.TakeWhile

/-!
# Dispatching on MIME types

The model of `libspicy/mime.c`: one map takes an exact type, a main type with its slash, or the empty
string to the parsers that are registered for it, the last one first.  Registrations are told apart by
the order in which they happened.

The map goes by the content of its keys: `bytesHash_flatten` says that the way a type is cut into
blocks does not matter to its hash, as long as no block has 64 KiB.
-/

namespace Hilti.Mime

open Hilti.Strings

set_option autoImplicit false

/-! ## Hashing -/

/-! ## State -/

def slash : UInt8 := 47

def star : UInt8 := 42

/-- The parts of `spicy_parser` that matter here; strings are given by their characters. -/
structure Parser where
  name : List Char
  mimeTypes : Option (List (List Char))
  newFunc : Bool
  deriving DecidableEq

/-- `__mime_parser`. -/
structure MimeParser where
  id : ℕ
  parser : Parser

/-- The field `mime_types` of the globals. -/
structure Globals where
  mimeTypes : List UInt8 → List MimeParser
  fresh : ℕ

/-- A parser that has been connected to a sink: `mimetype` and `tryMode` are the arguments with
which its parse object was made. -/
structure Connection where
  parser : Parser
  mimetype : List UInt8
  tryMode : Bool
  id : ℕ

/-! ## Registering -/

/-- `hlt_string_encode` for ASCII. -/
def encode (s : List Char) : List UInt8 :=
  s.map asciiByte

/-- `__add_parser`. -/
def addParser (g : Globals) (mt : List UInt8) (parser : Parser) : Globals :=
  ⟨Function.update g.mimeTypes mt (⟨g.fresh, parser⟩ :: g.mimeTypes mt), g.fresh + 1⟩

/-- `__main_type`. -/
def mainType (mtype : List UInt8) : Option (List UInt8) :=
  let i := mtype.idxOf slash
  if i ≠ mtype.length then some (mtype.take (i + 1)) else none

/-- What the loop of `spicyhilti_mime_register_parser` makes of a type. -/
def keyOf (raw : List UInt8) : List UInt8 :=
  let b :=
    if raw.length > 2 ∧ raw[raw.length - 1]? = some star ∧ raw[raw.length - 2]? = some slash then
      (mainType raw).getD raw
    else raw
  if raw.length = 1 ∧ raw[0]? = some star then [] else b

/-- `spicyhilti_mime_register_parser`. -/
def registerParser (g : Globals) (parser : Parser) : Globals :=
  match parser.mimeTypes, parser.newFunc with
  | some mimeTypes, true => mimeTypes.foldl (fun g mt => addParser g (keyOf (encode mt)) parser) g
  | _, _ => g

def registerAll (parsers : List Parser) : Globals :=
  parsers.foldl registerParser ⟨fun _ => [], 0⟩

/-! ## Connecting -/

/-- `__connect_one`; the parsers of a sink are a list with the last one first. -/
def connectOne (g : Globals) (tryMode : Bool) (sink : List Connection) (mtype : List UInt8) :
    List Connection :=
  (g.mimeTypes mtype).foldl (fun sink mp => ⟨mp.parser, mtype, tryMode, mp.id⟩ :: sink) sink

/-- `spicyhilti_sink_connect_mimetype_bytes`. -/
def connectMimetypeBytes (g : Globals) (sink : List Connection) (mtype : List UInt8)
    (tryMode : Bool) : List Connection :=
  let sink := connectOne g tryMode sink mtype
  let sink :=
    match mainType mtype with
    | some mtype2 => connectOne g tryMode sink mtype2
    | none => sink
  connectOne g tryMode sink []

/-- `spicyhilti_sink_connect_mimetype_string`, which does not pass its `try_mode` on. -/
def connectMimetypeString (g : Globals) (sink : List Connection) (mtype : List Char)
    (_tryMode : Bool) : List Connection :=
  connectMimetypeBytes g sink (encode mtype) false

/-! ## What is expected -/

/-- The registrations that parsers ask for, in their order. -/
def registrations (parsers : List Parser) : List (Parser × List Char) :=
  parsers.flatMap fun parser =>
    match parser.mimeTypes, parser.newFunc with
    | some mimeTypes, true => mimeTypes.map fun mt => (parser, mt)
    | _, _ => []

/-- A registration is for this type, for its main type, or for any type. -/
def Matches (t x : List UInt8) : Prop :=
  x = t ∨ (slash ∈ t ∧ x = t.takeWhile (· ≠ slash) ++ [slash, star]) ∨ x = [star]

instance (t x : List UInt8) : Decidable (Matches t x) := by
  unfold Matches
  infer_instance

/-- The registrations that match, with their numbers. -/
def matching (parsers : List Parser) (t : List UInt8) : List ((Parser × List Char) × ℕ) :=
  (registrations parsers).zipIdx.filter fun r => Matches t (encode r.1.2)

/-- Connecting a type adds each registration that matches once, in the mode asked for, and so does
connecting any string that it encodes. -/
def Dispatches (parsers : List Parser) (t : List UInt8) (tryMode : Bool) : Prop :=
  ∀ sink, (∃ added, connectMimetypeBytes (registerAll parsers) sink t tryMode = added ++ sink ∧
      (added.map fun c => (c.parser, c.tryMode, c.id)).Perm
        ((matching parsers t).map fun r => (r.1.1, tryMode, r.2))) ∧
    ∀ s, encode s = t → connectMimetypeString (registerAll parsers) sink s tryMode =
      connectMimetypeBytes (registerAll parsers) sink t tryMode

/-! ## Main types -/

theorem mainType_append {a : List UInt8} (b : List UInt8) (ha : slash ∉ a) :
    mainType (a ++ slash :: b) = some (a ++ [slash]) := by
  have hidx : (a ++ slash :: b).idxOf slash = a.length := by
    rw [List.idxOf_append_of_notMem ha, List.idxOf_cons_self, Nat.add_zero]
  have hne : a.length ≠ (a ++ slash :: b).length := by
    rw [List.length_append, List.length_cons]
    omega
  simp only [mainType, hidx]
  rw [if_pos hne, List.take_length_add_append, List.take_one]
  rfl

theorem mainType_of_notMem {t : List UInt8} (h : slash ∉ t) : mainType t = none := by
  simp [mainType, h]

theorem takeWhile_slash {a : List UInt8} (b : List UInt8) (ha : slash ∉ a) :
    (a ++ slash :: b).takeWhile (· ≠ slash) = a := by
  rw [List.takeWhile_append_of_pos, List.takeWhile_cons_of_neg (by simp), List.append_nil]
  intro c hc
  exact decide_eq_true fun heq => ha (heq ▸ hc)

theorem mainType_eq_some {t m : List UInt8} :
    mainType t = some m ↔ slash ∈ t ∧ m = t.takeWhile (· ≠ slash) ++ [slash] := by
  by_cases h : slash ∈ t
  · obtain ⟨a, b, rfl, ha⟩ := List.eq_append_cons_of_mem h
    rw [mainType_append b ha, takeWhile_slash b ha, Option.some_inj]
    exact ⟨fun hm => ⟨h, hm.symm⟩, fun hm => hm.2.symm⟩
  · simp [mainType_of_notMem h, h]

theorem matches_iff {t x : List UInt8} :
    Matches t x ↔ x = t ∨ (∃ p, mainType t = some (p ++ [slash]) ∧ x = p ++ [slash, star]) ∨
      x = [star] := by
  unfold Matches
  refine or_congr Iff.rfl (or_congr ⟨?_, ?_⟩ Iff.rfl)
  · rintro ⟨hmem, hx⟩
    exact ⟨_, mainType_eq_some.mpr ⟨hmem, rfl⟩, hx⟩
  · rintro ⟨p, hp, rfl⟩
    obtain ⟨hmem, hp⟩ := mainType_eq_some.mp hp
    exact ⟨hmem, by rw [List.append_cancel_right hp]⟩

/-! ## Keys -/

def keys (t : List UInt8) : List (List UInt8) :=
  t :: ((mainType t).toList ++ [[]])

theorem count_keys (t k : List UInt8) :
    (keys t).count k = (if t = k then 1 else 0) + (if mainType t = some k then 1 else 0) +
      if k = [] then 1 else 0 := by
  have hmain : (mainType t).toList.count k = if mainType t = some k then 1 else 0 := by
    cases mainType t with
    | none => rfl
    | some m => simp [List.count_singleton]
  rw [keys, List.count_cons, List.count_append, hmain, List.count_singleton]
  simp only [beq_iff_eq, eq_comm (a := ([] : List UInt8))]
  omega

/-- A registration that is for any subtype. -/
def IsPattern (x : List UInt8) : Prop :=
  2 < x.length ∧ [slash, star] <:+ x

instance (x : List UInt8) : Decidable (IsPattern x) := by
  unfold IsPattern
  infer_instance

theorem isPattern_iff {x : List UInt8} :
    IsPattern x ↔ x.length > 2 ∧ x[x.length - 1]? = some star ∧ x[x.length - 2]? = some slash := by
  constructor
  · rintro ⟨hlen, p, rfl⟩
    refine ⟨hlen, ?_, ?_⟩ <;> simp
  · rintro ⟨hlen, hstar, hslash⟩
    refine ⟨hlen, x.take (x.length - 2), ?_⟩
    have hdrop : x.drop (x.length - 2) = [slash, star] := by
      apply List.ext_getElem?
      intro i
      rw [List.getElem?_drop]
      match i with
      | 0 => exact hslash
      | 1 =>
        rw [show x.length - 2 + 1 = x.length - 1 by omega]
        exact hstar
      | i + 2 =>
        rw [List.getElem?_eq_none (by omega)]
        rfl
    rw [← hdrop, List.take_append_drop]

theorem keyOf_star : keyOf [star] = [] :=
  rfl

theorem mainType_of_isPattern {x : List UInt8} (h : IsPattern x) :
    mainType x = some (keyOf x) := by
  have hmem : slash ∈ x := h.2.subset (by simp)
  have hlen := h.1
  obtain ⟨a, b, heq, ha⟩ := List.eq_append_cons_of_mem hmem
  have hmain : mainType x = some (a ++ [slash]) := heq ▸ mainType_append b ha
  rw [keyOf, if_neg (by omega), if_pos (isPattern_iff.mp h), hmain, Option.getD_some]

theorem keyOf_other {x : List UInt8} (hstar : x ≠ [star]) (h : ¬ IsPattern x) : keyOf x = x := by
  rw [isPattern_iff] at h
  rw [keyOf, if_neg h, if_neg]
  rintro ⟨hlen, hhead⟩
  obtain ⟨c, rfl⟩ := List.length_eq_one_iff.mp hlen
  simp only [List.getElem?_cons_zero, Option.some_inj] at hhead
  exact hstar (by rw [hhead])

/-! ## Types that are told apart -/

/-- The type `t` is not confused with what the registration `x` is encoded as. -/
def Clear (t x : List UInt8) : Prop :=
  if x = [star] then t ≠ []
  else if IsPattern x then
    if mainType x = some x.dropLast then t ≠ x.dropLast else mainType t = mainType x → t = x
  else x ≠ [] ∧ mainType t ≠ some x ∧ (x = [slash, star] → t.head? = some slash → t = x)

instance (t x : List UInt8) : Decidable (Clear t x) := by
  unfold Clear
  infer_instance

/-- The number of times that connecting a type comes across a registration is the right one. -/
def Once (t x : List UInt8) : Prop :=
  (keys t).count (keyOf x) = if Matches t x then 1 else 0

theorem mainType_ne_nil (t : List UInt8) : mainType t ≠ some [] := by
  intro h
  have hm := (mainType_eq_some.mp h).2
  simp at hm

theorem mainType_main {p : List UInt8} (hp : slash ∉ p) :
    mainType (p ++ [slash]) = some (p ++ [slash]) :=
  mainType_append [] hp

theorem notMem_of_mainType {t p : List UInt8} (h : mainType t = some (p ++ [slash])) :
    slash ∉ p := by
  obtain ⟨_, hm⟩ := mainType_eq_some.mp h
  rw [List.append_cancel_right hm]
  intro hmem
  simpa using List.mem_takeWhile_imp hmem

theorem once_star (t : List UInt8) : Once t [star] ↔ t ≠ [] := by
  have hmatch : Matches t [star] := .inr (.inr rfl)
  rw [Once, keyOf_star, count_keys, if_pos hmatch, if_neg (mainType_ne_nil t), if_pos rfl]
  by_cases ht : t = []
  · simp [ht]
  · simp [ht]

theorem once_main {t p : List UInt8} (hp : slash ∉ p) (hne : p ≠ []) :
    Once t (p ++ [slash, star]) ↔ t ≠ p ++ [slash] := by
  have hpattern : IsPattern (p ++ [slash, star]) := by
    refine ⟨?_, List.suffix_append _ _⟩
    have := List.length_pos_iff.mpr hne
    rw [List.length_append, List.length_cons, List.length_singleton]
    omega
  have hkey : keyOf (p ++ [slash, star]) = p ++ [slash] := by
    have h := mainType_of_isPattern hpattern
    rw [mainType_append [star] hp, Option.some_inj] at h
    exact h.symm
  have hmatch : Matches t (p ++ [slash, star]) ↔ mainType t = some (p ++ [slash]) := by
    rw [matches_iff]
    constructor
    · rintro (rfl | ⟨q, hq, heq⟩ | heq)
      · exact mainType_append [star] hp
      · rw [hq, List.append_cancel_right heq]
      · simp [List.append_eq_singleton_iff] at heq
    · exact fun h => .inr (.inl ⟨p, h, rfl⟩)
  rw [Once, hkey, count_keys, if_neg (show p ++ [slash] ≠ [] by simp)]
  simp only [hmatch]
  by_cases ht : t = p ++ [slash]
  · simp [ht, mainType_main hp]
  · simp [ht]

theorem once_nested {t p q r : List UInt8} (hq : slash ∉ q) (hp : p = q ++ slash :: r) :
    Once t (p ++ [slash, star]) ↔ (mainType t = some (q ++ [slash]) → t = p ++ [slash, star]) := by
  have hmain : mainType (p ++ [slash, star]) = some (q ++ [slash]) := by
    rw [hp, List.append_assoc]
    exact mainType_append _ hq
  have hpattern : IsPattern (p ++ [slash, star]) := by
    refine ⟨?_, List.suffix_append _ _⟩
    rw [hp]
    simp only [List.length_append, List.length_cons, List.length_nil]
    omega
  have hkey : keyOf (p ++ [slash, star]) = q ++ [slash] := by
    have h := mainType_of_isPattern hpattern
    rw [hmain, Option.some_inj] at h
    exact h.symm
  have hmatch : Matches t (p ++ [slash, star]) ↔ t = p ++ [slash, star] := by
    rw [matches_iff]
    constructor
    · rintro (heq | ⟨q', hq', heq⟩ | heq)
      · exact heq.symm
      · -- A main type has no further slash.
        refine absurd ?_ (notMem_of_mainType hq')
        rw [← List.append_cancel_right heq, hp]
        simp
      · simp [List.append_eq_singleton_iff] at heq
    · exact fun h => .inl h.symm
  have hne : q ++ [slash] ≠ p ++ [slash, star] := by
    intro heq
    have := congrArg List.length heq
    simp only [hp, List.length_append, List.length_cons, List.length_nil] at this
    omega
  rw [Once, hkey, count_keys, if_neg (show q ++ [slash] ≠ [] by simp)]
  simp only [hmatch]
  by_cases ht : t = q ++ [slash]
  · have hmain' : mainType t = some (q ++ [slash]) := ht ▸ mainType_main hq
    have hx : t ≠ p ++ [slash, star] := ht ▸ hne
    simp only [if_pos ht, if_pos hmain', if_neg hx]
    exact ⟨fun h => by omega, fun h => absurd (h hmain') hx⟩
  · by_cases hx : t = p ++ [slash, star]
    · have hmain' : mainType t = some (q ++ [slash]) := hx ▸ hmain
      simp only [if_neg ht, if_pos hmain', if_pos hx]
      exact ⟨fun _ _ => hx, fun _ => trivial⟩
    · by_cases hmain' : mainType t = some (q ++ [slash])
      · simp [ht, hx, hmain']
      · simp [ht, hx, hmain']

theorem count_other {a b n s h : Prop} [Decidable a] [Decidable b] [Decidable n] [Decidable s]
    [Decidable h] (hs : s → h → ¬ b) (hb : n → ¬ b) (hn : n → ¬ s) :
    ((if a then 1 else 0) + (if b then 1 else 0) + (if n then 1 else 0) =
      if a ∨ s ∧ h then 1 else 0) ↔ ¬ n ∧ ¬ b ∧ (s → h → a) := by
  by_cases hn' : n
  · have hb' := hb hn'
    have hs' := hn hn'
    by_cases a <;> simp [*]
  · by_cases hb' : b
    · have hsh : ¬ (s ∧ h) := fun hsh => hs hsh.1 hsh.2 hb'
      by_cases a <;> simp [*]
    · by_cases a <;> simp [*]

theorem once_other {t x : List UInt8} (hstar : x ≠ [star]) (hpattern : ¬ IsPattern x) :
    Once t x ↔
      x ≠ [] ∧ mainType t ≠ some x ∧ (x = [slash, star] → t.head? = some slash → t = x) := by
  have hmatch : Matches t x ↔ t = x ∨ (x = [slash, star] ∧ mainType t = some [slash]) := by
    rw [matches_iff]
    constructor
    · rintro (heq | ⟨p, hp, heq⟩ | heq)
      · exact .inl heq.symm
      · have hp' : p = [] := by
          by_contra hne
          refine hpattern ⟨?_, heq ▸ List.suffix_append _ _⟩
          have := List.length_pos_iff.mpr hne
          rw [heq, List.length_append, List.length_cons, List.length_singleton]
          omega
        subst hp'
        exact .inr ⟨heq, hp⟩
      · exact absurd heq hstar
    · rintro (heq | ⟨heq, hmain⟩)
      · exact .inl heq.symm
      · exact .inr (.inl ⟨[], hmain, heq⟩)
  have hhead : t.head? = some slash ↔ mainType t = some [slash] := by
    cases t with
    | nil => simp [mainType_of_notMem]
    | cons c t =>
      rw [mainType_eq_some, List.head?_cons, Option.some_inj]
      constructor
      · rintro rfl
        exact ⟨List.mem_cons_self, by simp⟩
      · rintro ⟨_, h⟩
        by_contra hne
        rw [List.takeWhile_cons_of_pos (by simpa using hne)] at h
        simp at h
  rw [Once, keyOf_other hstar hpattern, count_keys, hhead]
  simp only [hmatch]
  have hslash : x = [slash, star] → mainType t = some [slash] → mainType t ≠ some x := by
    intro hx hmain h
    rw [hx, hmain] at h
    cases h
  have hnil : x = [] → mainType t ≠ some x := fun h => h ▸ mainType_ne_nil t
  have hne : x = [] → x ≠ [slash, star] := by
    rintro rfl
    exact List.cons_ne_nil _ _ ∘ Eq.symm
  rw [count_other hslash hnil hne]

theorem once_iff (t x : List UInt8) : Once t x ↔ Clear t x := by
  unfold Clear
  by_cases hstar : x = [star]
  · rw [if_pos hstar, hstar, once_star]
  · rw [if_neg hstar]
    by_cases hpattern : IsPattern x
    · rw [if_pos hpattern]
      obtain ⟨hlen, p, hx⟩ := hpattern
      have hne : p ≠ [] := by
        rintro rfl
        simp [← hx] at hlen
      have hlast : x.dropLast = p ++ [slash] := by
        rw [← hx, show [slash, star] = [slash] ++ [star] from rfl, ← List.append_assoc,
          List.dropLast_concat]
      rw [← hx] at hlast ⊢
      rw [hlast]
      by_cases hp : slash ∈ p
      · obtain ⟨q, r, hsplit, hq⟩ := List.eq_append_cons_of_mem hp
        have hmain : mainType (p ++ [slash, star]) = some (q ++ [slash]) := by
          rw [hsplit, List.append_assoc]
          exact mainType_append _ hq
        have hother : mainType (p ++ [slash, star]) ≠ some (p ++ [slash]) :=
          fun h => notMem_of_mainType h hp
        rw [if_neg hother, hmain, once_nested hq hsplit]
      · rw [if_pos (mainType_append [star] hp), once_main hp hne]
    · rw [if_neg hpattern, once_other hstar hpattern]

/-! ## Grouping by a key -/

section

variable {α β κ : Type} [DecidableEq β] [BEq κ] [LawfulBEq κ] [DecidableEq κ]

theorem count_map_filter {l : List α} {g : α → β} (hl : (l.map g).Nodup) (p : α → Bool) {r : α}
    (hr : r ∈ l) : ((l.filter p).map g).count (g r) = if p r then 1 else 0 := by
  have hnodup : ((l.filter p).map g).Nodup := hl.sublist (List.filter_sublist.map g)
  have hmem : g r ∈ (l.filter p).map g ↔ p r := by
    constructor
    · intro h
      obtain ⟨r', hr', heq⟩ := List.mem_map.mp h
      obtain ⟨hr', hp⟩ := List.mem_filter.mp hr'
      rwa [← List.inj_on_of_nodup_map hl hr' hr heq]
    · exact fun h => List.mem_map_of_mem (List.mem_filter.mpr ⟨hr, h⟩)
  by_cases hp : p r
  · rw [if_pos hp, List.count_eq_one_of_mem hnodup (hmem.mpr hp)]
  · rw [if_neg hp, List.count_eq_zero_of_not_mem fun h => hp (hmem.mp h)]

theorem flatMap_group_perm_iff {l : List α} {g : α → β} (hl : (l.map g).Nodup) (f : α → κ)
    (p : α → Bool) (ks : List κ) :
    (ks.flatMap fun k => (l.filter fun r => f r = k).map g).Perm ((l.filter p).map g) ↔
      ∀ r ∈ l, ks.count (f r) = if p r then 1 else 0 := by
  have hcount : ∀ r ∈ l,
      (ks.flatMap fun k => (l.filter fun r => f r = k).map g).count (g r) = ks.count (f r) := by
    intro r hr
    induction ks with
    | nil => rfl
    | cons k ks ih =>
      have hkey : (k == f r) = decide (f r = k) := by
        rw [Bool.eq_iff_iff, beq_iff_eq, decide_eq_true_iff, eq_comm]
      rw [List.flatMap_cons, List.count_append, ih, count_map_filter hl _ hr, List.count_cons,
        hkey, Nat.add_comm]
  rw [List.perm_iff_count]
  constructor
  · intro h r hr
    rw [← hcount r hr, h, count_map_filter hl p hr]
  · intro h v
    by_cases hv : v ∈ l.map g
    · obtain ⟨r, hr, rfl⟩ := List.mem_map.mp hv
      rw [hcount r hr, h r hr, count_map_filter hl p hr]
    · rw [List.count_eq_zero_of_not_mem, List.count_eq_zero_of_not_mem]
      · exact fun h => hv ((List.filter_sublist.map g).subset h)
      · intro h
        obtain ⟨k, _, hk⟩ := List.mem_flatMap.mp h
        exact hv ((List.filter_sublist.map g).subset hk)

end

/-! ## Registering and connecting -/

def mimeParser (r : (Parser × List Char) × ℕ) : MimeParser :=
  ⟨r.2, r.1.1⟩

def Registered (g : Globals) (rs : List (Parser × List Char)) : Prop :=
  g.fresh = rs.length ∧ ∀ k, g.mimeTypes k =
    ((rs.zipIdx.filter fun r => keyOf (encode r.1.2) = k).map mimeParser).reverse

theorem Registered.addParser {g : Globals} {rs : List (Parser × List Char)} (h : Registered g rs)
    (parser : Parser) (mt : List Char) :
    Registered (addParser g (keyOf (encode mt)) parser) (rs ++ [(parser, mt)]) := by
  obtain ⟨hfresh, htypes⟩ := h
  refine ⟨?_, fun k => ?_⟩
  · rw [Mime.addParser, hfresh, List.length_append, List.length_singleton]
  · rw [List.zipIdx_append, List.filter_append, List.map_append, List.reverse_append, ← htypes]
    by_cases hk : keyOf (encode mt) = k
    · subst hk
      simp [Mime.addParser, mimeParser, hfresh]
    · simp [Mime.addParser, hk, Function.update_of_ne (Ne.symm hk)]

theorem Registered.foldl {g : Globals} {rs : List (Parser × List Char)} (h : Registered g rs)
    (parser : Parser) (mimeTypes : List (List Char)) :
    Registered (mimeTypes.foldl (fun g mt => Mime.addParser g (keyOf (encode mt)) parser) g)
      (rs ++ mimeTypes.map fun mt => (parser, mt)) := by
  induction mimeTypes generalizing g rs with
  | nil => simpa using h
  | cons mt mimeTypes ih =>
    rw [List.foldl_cons, List.map_cons, ← List.singleton_append, ← List.append_assoc]
    exact ih (h.addParser parser mt)

theorem Registered.registerParser {g : Globals} {rs : List (Parser × List Char)}
    (h : Registered g rs) (parser : Parser) :
    Registered (registerParser g parser) (rs ++ registrations [parser]) := by
  unfold Mime.registerParser registrations
  rw [List.flatMap_singleton]
  split
  · exact h.foldl parser _
  · simpa using h

theorem registered_all (parsers : List Parser) :
    Registered (registerAll parsers) (registrations parsers) := by
  induction parsers using List.reverseRecOn with
  | nil => exact ⟨rfl, fun _ => rfl⟩
  | append_singleton parsers parser ih =>
    rw [registerAll, List.foldl_append, List.foldl_cons, List.foldl_nil, registrations,
      List.flatMap_append]
    exact ih.registerParser parser

def connection (tryMode : Bool) (k : List UInt8) (mp : MimeParser) : Connection :=
  ⟨mp.parser, k, tryMode, mp.id⟩

theorem connectOne_eq (g : Globals) (tryMode : Bool) (sink : List Connection) (k : List UInt8) :
    connectOne g tryMode sink k =
      ((g.mimeTypes k).map (connection tryMode k)).reverse ++ sink := by
  unfold connectOne
  generalize g.mimeTypes k = mps
  induction mps generalizing sink with
  | nil => rfl
  | cons mp mps ih => rw [List.foldl_cons, ih, List.map_cons, List.reverse_cons,
      List.append_assoc, List.singleton_append, connection]

theorem connectMimetypeBytes_eq (g : Globals) (sink : List Connection) (t : List UInt8)
    (tryMode : Bool) : connectMimetypeBytes g sink t tryMode =
      ((keys t).flatMap fun k => (g.mimeTypes k).map (connection tryMode k)).reverse ++ sink := by
  cases hmain : mainType t with
  | none => simp [connectMimetypeBytes, keys, hmain, connectOne_eq]
  | some m => simp [connectMimetypeBytes, keys, hmain, connectOne_eq]

def shown (c : Connection) : Parser × Bool × ℕ :=
  (c.parser, c.tryMode, c.id)

theorem connect_perm (parsers : List Parser) (t : List UInt8) (tryMode : Bool) :
    ((((keys t).flatMap fun k => ((registerAll parsers).mimeTypes k).map
        (connection tryMode k)).reverse).map shown).Perm
      ((keys t).flatMap fun k => ((registrations parsers).zipIdx.filter fun r =>
        keyOf (encode r.1.2) = k).map fun r => (r.1.1, tryMode, r.2)) := by
  refine ((List.reverse_perm _).map shown).trans ?_
  rw [List.map_flatMap]
  refine List.Perm.flatMap_left _ fun k _ => ?_
  rw [(registered_all parsers).2 k, List.map_reverse, List.map_reverse]
  refine (List.reverse_perm _).trans ?_
  rw [List.map_map, List.map_map]
  exact List.Perm.refl _

/-! ## Dispatching -/

theorem exists_encode_iff {t : List UInt8} : (∃ s, encode s = t) ↔ ∀ c ∈ t, c.toNat < 128 := by
  constructor
  · rintro ⟨s, rfl⟩ c hc
    obtain ⟨ch, _, rfl⟩ := List.mem_map.mp hc
    exact asciiByte_lt ch
  · intro h
    refine ⟨t.map fun c => Char.ofNat c.toNat, ?_⟩
    rw [encode, List.map_map]
    conv_rhs => rw [← List.map_id t]
    refine List.map_congr_left fun c hc => ?_
    have hc := h c hc
    have hvalid : (Char.ofNat c.toNat).toNat = c.toNat := by
      rw [Char.ofNat, dif_pos (.inl (by omega))]
      rfl
    rw [Function.comp_apply, asciiByte_of_lt (by omega), hvalid, UInt8.ofNat_toNat, id]

theorem forall_zipIdx {rs : List (Parser × List Char)} {P : Parser × List Char → Prop} :
    (∀ r ∈ rs.zipIdx, P r.1) ↔ ∀ r ∈ rs, P r := by
  have hmap : rs.zipIdx.map Prod.fst = rs := List.zipIdx_map_fst 0 rs
  conv_rhs => rw [← hmap, List.forall_mem_map]

theorem connects_iff (parsers : List Parser) (t : List UInt8) (tryMode : Bool)
    (sink : List Connection) :
    (∃ added, connectMimetypeBytes (registerAll parsers) sink t tryMode = added ++ sink ∧
      (added.map shown).Perm ((matching parsers t).map fun r => (r.1.1, tryMode, r.2))) ↔
      ∀ r ∈ registrations parsers, Clear t (encode r.2) := by
  have hnodup : ((registrations parsers).zipIdx.map fun r => (r.1.1, tryMode, r.2)).Nodup := by
    refine List.Nodup.of_map (fun v => v.2.2) ?_
    rw [List.map_map]
    exact (List.zipIdx_map_snd 0 (registrations parsers)).symm ▸ List.nodup_range'
  have hgroup := flatMap_group_perm_iff hnodup (fun r => keyOf (encode r.1.2))
    (fun r => Matches t (encode r.1.2)) (keys t)
  have hperm := connect_perm parsers t tryMode
  rw [connectMimetypeBytes_eq]
  constructor
  · rintro ⟨added, heq, hadded⟩
    rw [← List.append_cancel_right heq] at hadded
    have honce := hgroup.mp (hperm.symm.trans hadded)
    refine forall_zipIdx.mp fun r hr => (once_iff _ _).mp ?_
    simpa [Once] using honce r hr
  · intro h
    refine ⟨_, rfl, hperm.trans (hgroup.mpr fun r hr => ?_)⟩
    have honce := (once_iff _ _).mpr (forall_zipIdx.mpr h r hr)
    simpa [Once] using honce

theorem connectMimetypeString_iff (parsers : List Parser) (t : List UInt8) (tryMode : Bool)
    (sink : List Connection) (hclear : ∀ r ∈ registrations parsers, Clear t (encode r.2)) :
    (∀ s, encode s = t → connectMimetypeString (registerAll parsers) sink s tryMode =
      connectMimetypeBytes (registerAll parsers) sink t tryMode) ↔
      tryMode = false ∨ (∀ r ∈ registrations parsers, ¬ Matches t (encode r.2)) ∨
        ∃ c ∈ t, 128 ≤ c.toNat := by
  cases tryMode with
  | false =>
    refine ⟨fun _ => .inl rfl, fun _ s hs => ?_⟩
    rw [connectMimetypeString, hs]
  | true =>
    obtain ⟨tried, htried, hperm⟩ := (connects_iff parsers t true sink).mpr hclear
    obtain ⟨plain, hplain, hperm'⟩ := (connects_iff parsers t false sink).mpr hclear
    constructor
    · intro h
      by_cases hascii : ∀ c ∈ t, c.toNat < 128
      · obtain ⟨s, hs⟩ := exists_encode_iff.mpr hascii
        have heq := h s hs
        rw [connectMimetypeString, hs, htried, hplain] at heq
        rw [List.append_cancel_right heq] at hperm'
        -- A parser would have been connected in both modes.
        have hnil : matching parsers t = [] := by
          by_contra hne
          obtain ⟨r, hr⟩ := List.exists_mem_of_ne_nil _ hne
          have hmem := (hperm.symm.trans hperm').subset (List.mem_map_of_mem hr)
          obtain ⟨r', _, heq⟩ := List.mem_map.mp hmem
          cases congrArg (fun v => v.2.1) heq
        refine .inr (.inl (forall_zipIdx.mp fun r hr hmatch => ?_))
        have hr : r ∈ matching parsers t := List.mem_filter.mpr ⟨hr, decide_eq_true hmatch⟩
        rw [hnil] at hr
        cases hr
      · push Not at hascii
        exact .inr (.inr hascii)
    · rintro (h | hnone | ⟨c, hc, hge⟩) s hs
      · cases h
      · have hnil : matching parsers t = [] := by
          refine List.filter_eq_nil_iff.mpr fun r hr => ?_
          simpa using forall_zipIdx.mpr hnone r hr
        rw [hnil] at hperm hperm'
        rw [connectMimetypeString, hs, htried, hplain,
          List.map_eq_nil_iff.mp (List.perm_nil.mp hperm),
          List.map_eq_nil_iff.mp (List.perm_nil.mp hperm')]
      · have := exists_encode_iff.mp ⟨s, hs⟩ c hc
        omega

/-- Types are dispatched exactly as long as the type is told apart from all registrations, and
strings have nothing to lose: they are not to be tried, or nothing matches them. -/
theorem dispatches_iff (parsers : List Parser) (t : List UInt8) (tryMode : Bool) :
    Dispatches parsers t tryMode ↔
      (∀ r ∈ registrations parsers, Clear t (encode r.2)) ∧
        (tryMode = false ∨ (∀ r ∈ registrations parsers, ¬ Matches t (encode r.2)) ∨
          ∃ c ∈ t, 128 ≤ c.toNat) := by
  constructor
  · intro h
    have hclear := (connects_iff parsers t tryMode []).mp (h []).1
    exact ⟨hclear, (connectMimetypeString_iff parsers t tryMode [] hclear).mp (h []).2⟩
  · rintro ⟨hclear, hmode⟩ sink
    exact ⟨(connects_iff parsers t tryMode sink).mpr hclear,
      (connectMimetypeString_iff parsers t tryMode sink hclear).mpr hmode⟩

/-- A parser for `a/b` is connected by the string without trying. -/
theorem string_not_dispatches :
    ¬ Dispatches [⟨['P'], some [['a', '/', 'b']], true⟩] [97, 47, 98] true := by
  intro h
  rcases (connectMimetypeString_iff _ _ true [] (by decide)).mp (h []).2 with hmode | hnone | hbyte
  · cases hmode
  · exact hnone (⟨['P'], some [['a', '/', 'b']], true⟩, ['a', '/', 'b']) (by decide) (by decide)
  · revert hbyte
    decide

end Hilti.Mime
