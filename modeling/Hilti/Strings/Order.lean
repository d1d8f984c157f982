import Mathlib.Data.Char
import Mathlib.Data.List.Lex
import Hilti.Strings.Utf8

/-!
# Comparing strings

`hlt_string_cmp` decodes both strings in step and returns the difference of the first two code
points that differ, as an `int8_t`; it counts code points where it compares with lengths in
bytes.  So it finds the lexicographic order where the difference keeps its sign, and where it
does not go past the end of a string that is not all ASCII.
-/

namespace Hilti.Strings

open Hilti.Bytes

set_option autoImplicit false

/-! ## What is expected -/

/-- A string with its text.  The empty text can be a null pointer. -/
structure Text where
  null : Bool
  chars : List Char
  null_empty : null = true → chars = []

/-- The string of a text. -/
def Text.str (s : Text) : HltString :=
  if s.null then none else some (encode s.chars)

theorem Text.bytes_eq (s : Text) : bytesOf s.str = encode s.chars := by
  unfold Text.str
  cases hnull : s.null with
  | false => rfl
  | true => rw [s.null_empty hnull]; rfl

/-- The comparison gives the lexicographic order of the code points, equality is what it finds to
be equal, and equal strings have the same hash. -/
def Coherent (s t : Text) : Prop :=
  ∃ r, stringCmp s.str t.str = some (.ok r) ∧ (r < 0 ↔ s.chars < t.chars) ∧
    (0 < r ↔ t.chars < s.chars) ∧ (r = 0 ↔ stringEqual s.str t.str = true) ∧
    (s.chars = t.chars → stringHash s.str = stringHash t.str)

/-! ## When this is so -/

/-- The difference of two code points has the same sign as an `int8_t`. -/
def SignKept (x : ℤ) : Prop :=
  (toInt8 x < 0 ↔ x < 0) ∧ (0 < toInt8 x ↔ 0 < x)

instance (x : ℤ) : Decidable (SignKept x) :=
  inferInstanceAs (Decidable (_ ∧ _))

def Ascii (cs : List Char) : Prop :=
  ∀ c ∈ cs, c.toNat < 0x80

/-- What is left of the texts `cs` and `ds` behind a common beginning: there is no noncharacter
up to the first difference, it keeps its sign, and a text that ends there is all ASCII.  Behind
its end, the code point is -1. -/
def DiffersRight (cs ds : List Char) : List Char → List Char → Prop
  | [], [] => Ascii cs
  | [], d :: _ => Ascii cs ∧ ¬ Noncharacter d ∧ SignKept (-1 - d.toNat)
  | c :: _, [] => Ascii ds ∧ ¬ Noncharacter c ∧ SignKept (c.toNat + 1)
  | c :: r, d :: t => ¬ Noncharacter c ∧ ¬ Noncharacter d ∧
      if c = d then DiffersRight cs ds r t else SignKept (c.toNat - d.toNat)

/-- Two strings that are compared right.  Two empty ones have to be both null pointers, or none. -/
def Comparable (s t : Text) : Prop :=
  if s.chars = [] ∧ t.chars = [] then s.null = t.null
  else s.chars = [] ∨ t.chars = [] ∨ DiffersRight s.chars t.chars s.chars t.chars

/-! ## The loop -/

open Classical in
/-- What the loop of `hlt_string_cmp` returns for the rest of the texts `cs` and `ds`. -/
noncomputable def cmpResult (cs ds : List Char) :
    List Char → List Char → Option (Except Excpt ℤ)
  | [], [] => if Ascii cs then some (.ok 0) else none
  | [], d :: _ =>
    if ¬ Ascii cs then none
    else if Noncharacter d then some (.error .valueError)
    else some (.ok (toInt8 (-1 - d.toNat)))
  | c :: _, [] =>
    if Noncharacter c then some (.error .valueError)
    else if ¬ Ascii ds then none
    else some (.ok (toInt8 (c.toNat + 1)))
  | c :: r, d :: t =>
    if Noncharacter c then some (.error .valueError)
    else if Noncharacter d then some (.error .valueError)
    else if c = d then cmpResult cs ds r t
    else some (.ok (toInt8 (c.toNat - d.toNat)))

section

variable {cs ds p r t : List Char} {len : ℕ}

theorem iterate_end (cs : List Char) :
    utf8procIterate (encode []) ((encode cs).length - cs.length : ℤ) =
      if (encode cs).length = cs.length then some (0, -1) else none := by
  have hle := length_le_encode cs
  split
  · rename_i h
    rw [utf8procIterate, if_pos (by omega)]
  · rw [utf8procIterate, if_neg (by omega)]
    rfl

theorem ascii_iff (cs : List Char) : (encode cs).length = cs.length ↔ Ascii cs :=
  length_encode_eq_iff cs

theorem iterate_at (p r : List Char) (c : Char) :
    utf8procIterate (encode (c :: r)) ((encode (p ++ c :: r)).length - p.length : ℤ) = some
      (if Noncharacter c then (errorInvalidUtf8, -1) else (↑c.utf8Size, (c.toNat : ℤ))) := by
  have hle := length_le_encode p
  have hlen : (encode (p ++ c :: r)).length =
      (encode p).length + (c.utf8Size + (encode r).length) := by
    rw [encode_append, List.length_append, encode_cons, List.length_append,
      String.length_utf8EncodeChar]
  rw [encode_cons]
  exact iterate_char c (encode r) (.inr (by omega))

theorem drop_char (c : Char) (r : List Char) :
    (encode (c :: r)).drop (c.utf8Size : ℤ).toNat = encode r := by
  rw [Int.toNat_natCast, encode_cons, ← String.length_utf8EncodeChar, List.drop_left]

theorem cmpLoop_eq (p : List Char) (hcs : cs = p ++ r) (hds : ds = p ++ t) (fuel : ℕ)
    (hfuel : r.length < fuel) :
    cmpLoop (encode cs).length (encode ds).length fuel p.length (encode r) (encode t) =
      cmpResult cs ds r t := by
  induction fuel generalizing p r t with
  | zero => omega
  | succ fuel ih =>
    cases r with
    | nil =>
      have hp : p = cs := by rw [hcs, List.append_nil]
      cases t with
      | nil =>
        have hd : ds = cs := by rw [hds, List.append_nil, hp]
        subst hp hd
        rw [cmpLoop, iterate_end, cmpResult]
        by_cases hascii : Ascii ds
        · have hlen := (ascii_iff ds).mpr hascii
          simp [hascii, hlen]
        · rw [if_neg (fun h => hascii ((ascii_iff ds).mp h)), if_neg hascii]
          rfl
      | cons d t =>
        subst hp hds
        rw [cmpLoop, iterate_end, iterate_at, cmpResult]
        by_cases hascii : Ascii p
        · have hlen := (ascii_iff p).mpr hascii
          by_cases hnon : Noncharacter d
          · simp [hascii, hlen, hnon, errorInvalidUtf8]
          · have hne : (-1 : ℤ) ≠ d.toNat := by omega
            simp [hascii, hlen, hnon, hne]
        · rw [if_neg (fun h => hascii ((ascii_iff p).mp h)), if_pos hascii]
          rfl
    | cons c r =>
      cases t with
      | nil =>
        have hp : p = ds := by rw [hds, List.append_nil]
        subst hp hcs
        rw [cmpLoop, iterate_end, iterate_at, cmpResult]
        by_cases hnon : Noncharacter c
        · simp [hnon, errorInvalidUtf8]
        · by_cases hascii : Ascii p
          · have hlen := (ascii_iff p).mpr hascii
            have hne : (c.toNat : ℤ) ≠ -1 := by omega
            simp [hascii, hlen, hnon, hne]
          · rw [if_neg (fun h => hascii ((ascii_iff p).mp h)), if_neg hnon, if_neg hnon,
              if_pos hascii]
            simp
      | cons d t =>
        have hiter : utf8procIterate (encode (c :: r)) ((encode cs).length - p.length : ℤ) = _ :=
          hcs ▸ iterate_at p r c
        have hiter' : utf8procIterate (encode (d :: t)) ((encode ds).length - p.length : ℤ) = _ :=
          hds ▸ iterate_at p t d
        rw [cmpLoop, hiter, hiter', cmpResult]
        by_cases hnon : Noncharacter c
        · simp [hnon, errorInvalidUtf8]
        · by_cases hnon' : Noncharacter d
          · simp [hnon, hnon', errorInvalidUtf8]
          · by_cases hcd : c = d
            · subst hcd
              have hnext := ih (r := r) (t := t) (p ++ [c]) (by simp [hcs]) (by simp [hds])
                (by simp only [List.length_cons] at hfuel; omega)
              have hlt : p.length ≠ (encode cs).length ∧ p.length ≠ (encode ds).length := by
                have h₁ := length_le_encode cs
                have h₂ := length_le_encode ds
                rw [hcs, hds] at *
                simp only [List.length_append, List.length_cons] at h₁ h₂
                omega
              have hsize : ¬ (c.utf8Size : ℤ) < 0 := by omega
              rw [List.length_append, List.length_singleton] at hnext
              simp [hnon, hlt.1, hlt.2, hsize, hnext]
            · have hne : (c.toNat : ℤ) ≠ d.toNat := by
                intro h
                exact hcd (Char.toNat_inj.mp (by omega))
              have hsize : ¬ (c.utf8Size : ℤ) < 0 := by omega
              have hsize' : ¬ (d.utf8Size : ℤ) < 0 := by omega
              simp [hnon, hnon', hcd, hne, hsize, hsize']

/-! ## The order -/

theorem lt_iff_toNat (c d : Char) : c < d ↔ c.toNat < d.toNat :=
  Iff.rfl

theorem cmpResult_right (cs ds r t : List Char) :
    (∃ x, cmpResult cs ds r t = some (.ok x) ∧ (x < 0 ↔ r < t) ∧ (0 < x ↔ t < r)) ↔
      DiffersRight cs ds r t := by
  induction r generalizing t with
  | nil =>
    cases t with
    | nil =>
      rw [cmpResult, DiffersRight]
      by_cases hascii : Ascii cs <;> simp [hascii]
    | cons d t =>
      rw [cmpResult, DiffersRight]
      by_cases hascii : Ascii cs
      · by_cases hnon : Noncharacter d
        · simp [hascii, hnon]
        · have hneg : (-1 - d.toNat : ℤ) < 0 := by omega
          simp [hascii, hnon, SignKept, hneg]
          omega
      · simp [hascii]
  | cons c r ih =>
    cases t with
    | nil =>
      rw [cmpResult, DiffersRight]
      by_cases hnon : Noncharacter c
      · simp [hnon]
      · by_cases hascii : Ascii ds
        · have hpos : (0 : ℤ) < c.toNat + 1 := by omega
          simp [hascii, hnon, SignKept, hpos]
          omega
        · simp [hascii, hnon]
    | cons d t =>
      rw [cmpResult, DiffersRight]
      by_cases hnon : Noncharacter c
      · simp [hnon]
      · by_cases hnon' : Noncharacter d
        · simp [hnon, hnon']
        · by_cases hcd : c = d
          · subst hcd
            simp only [hnon, not_false_eq_true, if_true, if_false, true_and, ← ih]
            simp
          · have hne : c.toNat ≠ d.toNat := fun h => hcd (Char.toNat_inj.mp h)
            have hlt : c :: r < d :: t ↔ c.toNat < d.toNat := by
              simp [List.cons_lt_cons_iff, hcd, lt_iff_toNat]
            have hgt : d :: t < c :: r ↔ d.toNat < c.toNat := by
              simp [List.cons_lt_cons_iff, Ne.symm hcd, lt_iff_toNat]
            simp only [hnon, hnon', hcd, not_false_eq_true, if_false, true_and, SignKept, hlt, hgt]
            simp

end

/-! ## Equality and hashes -/

theorem stringEqual_iff (s t : Text) : stringEqual s.str t.str = true ↔
    s.null = t.null ∧ s.chars = t.chars := by
  unfold Text.str
  cases hs : s.null <;> cases ht : t.null
  · simp only [Bool.false_eq_true, if_false, stringEqual, true_and]
    constructor
    · intro h
      split at h
      · cases h
      · exact encode_injective (of_decide_eq_true h)
    · intro h
      simp [h]
  · simp [stringEqual]
  · simp [stringEqual]
  · simp [stringEqual, s.null_empty hs, t.null_empty ht]

theorem stringHash_eq {s t : Text} (h : s.chars = t.chars) :
    stringHash s.str = stringHash t.str := by
  have hbytes : ∀ s : Text, stringHash s.str =
      hashBytes (encode s.chars) (BitVec.ofNat 16 (encode s.chars).length) 0 := by
    intro s
    unfold Text.str
    cases hs : s.null with
    | false => rfl
    | true => rw [s.null_empty hs]; rfl
  rw [hbytes, hbytes, h]

/-! ## All comparisons -/

theorem stringCmp_empty {s t : Text} (h : s.chars = [] ∨ t.chars = []) :
    ∃ r, stringCmp s.str t.str = some (.ok r) ∧ (r < 0 ↔ s.chars < t.chars) ∧
      (0 < r ↔ t.chars < s.chars) := by
  rw [stringCmp, s.bytes_eq, t.bytes_eq]
  cases hs : s.chars with
  | nil =>
    cases ht : t.chars with
    | nil => exact ⟨0, rfl, by simp, by simp⟩
    | cons d r =>
      have hne : (encode (d :: r)).length ≠ 0 := by
        rw [ne_eq, List.length_eq_zero_iff, encode_eq_nil]
        exact List.cons_ne_nil d r
      refine ⟨-1, ?_, by simp, by simp⟩
      rw [encode_nil, List.length_nil]
      simp only [hne, and_false, if_false, if_true]
  | cons c r =>
    have ht : t.chars = [] := by
      rcases h with h | h
      · rw [hs] at h
        cases h
      · exact h
    have hne : (encode (c :: r)).length ≠ 0 := by
      rw [ne_eq, List.length_eq_zero_iff, encode_eq_nil]
      exact List.cons_ne_nil c r
    rw [ht]
    refine ⟨1, ?_, by simp, by simp⟩
    rw [encode_nil, List.length_nil]
    simp only [hne, false_and, if_false, if_true]

theorem stringCmp_nonempty {s t : Text} (hs : s.chars ≠ []) (ht : t.chars ≠ []) :
    stringCmp s.str t.str = cmpResult s.chars t.chars s.chars t.chars := by
  have hs' : (encode s.chars).length ≠ 0 := by rwa [ne_eq, List.length_eq_zero_iff, encode_eq_nil]
  have ht' : (encode t.chars).length ≠ 0 := by rwa [ne_eq, List.length_eq_zero_iff, encode_eq_nil]
  have hle := length_le_encode s.chars
  rw [stringCmp, s.bytes_eq, t.bytes_eq, if_neg (fun h => hs' h.1), if_neg hs', if_neg ht']
  exact cmpLoop_eq [] rfl rfl _ (Nat.lt_succ_of_le hle)

/-- Two strings are compared, tested for equality and hashed coherently exactly when they are
comparable. -/
theorem coherent_iff (s t : Text) : Coherent s t ↔ Comparable s t := by
  have hzero : ∀ r : ℤ, (r < 0 ↔ s.chars < t.chars) → (0 < r ↔ t.chars < s.chars) →
      (r = 0 ↔ s.chars = t.chars) := by
    intro r hlt hgt
    rcases lt_trichotomy s.chars t.chars with h | h | h
    · have := hlt.mpr h
      exact ⟨fun _ => by omega, fun heq => absurd h (heq ▸ lt_irrefl _)⟩
    · refine ⟨fun _ => h, fun _ => ?_⟩
      have h₁ : ¬ r < 0 := fun hr => absurd (hlt.mp hr) (h ▸ lt_irrefl _)
      have h₂ : ¬ 0 < r := fun hr => absurd (hgt.mp hr) (h ▸ lt_irrefl _)
      omega
    · have := hgt.mpr h
      exact ⟨fun _ => by omega, fun heq => absurd h (heq ▸ lt_irrefl _)⟩
  have hequal : Coherent s t ↔
      (∃ r, stringCmp s.str t.str = some (.ok r) ∧ (r < 0 ↔ s.chars < t.chars) ∧
        (0 < r ↔ t.chars < s.chars)) ∧ (s.chars = t.chars → s.null = t.null) := by
    constructor
    · rintro ⟨r, hr, hlt, hgt, heq, -⟩
      refine ⟨⟨r, hr, hlt, hgt⟩, fun h => ?_⟩
      exact ((stringEqual_iff s t).mp (heq.mp ((hzero r hlt hgt).mpr h))).1
    · rintro ⟨⟨r, hr, hlt, hgt⟩, hnull⟩
      refine ⟨r, hr, hlt, hgt, ?_, fun h => stringHash_eq h⟩
      rw [hzero r hlt hgt, stringEqual_iff]
      exact ⟨fun h => ⟨hnull h, h⟩, fun h => h.2⟩
  rw [hequal, Comparable]
  by_cases hs : s.chars = []
  · by_cases ht : t.chars = []
    · simp only [hs, ht, and_self, if_true]
      have hcmp := stringCmp_empty (.inl hs : s.chars = [] ∨ t.chars = [])
      rw [hs, ht] at hcmp
      exact ⟨fun h => h.2 trivial, fun h => ⟨hcmp, fun _ => h⟩⟩
    · simp only [hs, ht, and_false, if_false, true_or, iff_true]
      have hcmp := stringCmp_empty (.inl hs : s.chars = [] ∨ t.chars = [])
      rw [hs] at hcmp
      exact ⟨hcmp, fun h => absurd h.symm ht⟩
  · have hfalse : ¬ (s.chars = [] ∧ t.chars = []) := fun h => hs h.1
    rw [if_neg hfalse]
    by_cases ht : t.chars = []
    · have hcmp := stringCmp_empty (.inr ht : s.chars = [] ∨ t.chars = [])
      exact ⟨fun _ => .inr (.inl ht), fun _ => ⟨hcmp, fun h => absurd (h.trans ht) hs⟩⟩
    · have hnull : s.null = t.null := by
        rw [Bool.eq_false_iff.mpr fun h => hs (s.null_empty h),
          Bool.eq_false_iff.mpr fun h => ht (t.null_empty h)]
      rw [stringCmp_nonempty hs ht, cmpResult_right]
      simp [hs, ht, hnull]

/-- The code points 0x141 and 0x41 differ by 0x100, which is 0 as an `int8_t`. -/
theorem different_compare_equal :
    stringCmp (some (encode [Char.ofNat 0x141])) (some (encode [Char.ofNat 0x41])) =
        some (.ok 0) ∧
      ¬ Coherent ⟨false, [Char.ofNat 0x141], nofun⟩ ⟨false, [Char.ofNat 0x41], nofun⟩ := by
  have hcmp : stringCmp (some (encode [Char.ofNat 0x141])) (some (encode [Char.ofNat 0x41])) =
      some (.ok 0) := by decide
  refine ⟨hcmp, fun h => ?_⟩
  obtain ⟨r, hr, -, hgt, -⟩ := h
  obtain rfl : 0 = r := Except.ok.inj (Option.some.inj (hcmp.symm.trans hr))
  exact absurd (hgt.mpr (by decide)) (lt_irrefl 0)

end Hilti.Strings
