import Hilti.Strings.Model

/-!
# Texts in UTF-8

A text is a sequence of Unicode scalar values, and `encode` are its bytes.  `utf8proc_iterate`
decodes each of them but the noncharacters, which it refuses.
-/

namespace Hilti.Strings

open Hilti.Bytes

set_option autoImplicit false

/-- The bytes of a text. -/
def encode (cs : List Char) : List UInt8 :=
  cs.flatMap String.utf8EncodeChar

@[simp] theorem encode_nil : encode [] = [] := rfl

@[simp] theorem encode_cons (c : Char) (cs : List Char) :
    encode (c :: cs) = String.utf8EncodeChar c ++ encode cs := rfl

theorem encode_append (cs ds : List Char) : encode (cs ++ ds) = encode cs ++ encode ds :=
  List.flatMap_append

/-- The scalar values that Unicode reserves for internal use. -/
def Noncharacter (c : Char) : Prop :=
  0xFDD0 ≤ c.toNat ∧ c.toNat < 0xFDF0 ∨ 0xFFFE ≤ c.toNat % 0x10000

instance (c : Char) : Decidable (Noncharacter c) :=
  inferInstanceAs (Decidable (_ ∨ _))

theorem toNat_range (c : Char) : c.toNat < 0xD800 ∨ 0xDFFF < c.toNat ∧ c.toNat < 0x110000 :=
  c.valid

/-! ## Decoding one of them -/

theorem utf8EncodeChar_eq (c : Char) : String.utf8EncodeChar c =
    if c.toNat ≤ 0x7F then [UInt8.ofNat c.toNat]
    else if c.toNat ≤ 0x7FF then
      [UInt8.ofNat (c.toNat / 64 % 32 + 192), UInt8.ofNat (c.toNat % 64 + 128)]
    else if c.toNat ≤ 0xFFFF then
      [UInt8.ofNat (c.toNat / 4096 % 16 + 224), UInt8.ofNat (c.toNat / 64 % 64 + 128),
        UInt8.ofNat (c.toNat % 64 + 128)]
    else
      [UInt8.ofNat (c.toNat / 262144 % 8 + 240), UInt8.ofNat (c.toNat / 4096 % 64 + 128),
        UInt8.ofNat (c.toNat / 64 % 64 + 128), UInt8.ofNat (c.toNat % 64 + 128)] := rfl

theorem toNat_ofNat {n : ℕ} (h : n < 256) : (UInt8.ofNat n).toNat = n :=
  UInt8.toNat_ofNat_of_lt' h

theorem iterate_of {str : List UInt8} {strlen : ℤ} {b0 : UInt8} {length : ℕ} {uc : ℤ}
    (hb0 : str[0]? = some b0) (hclass : utf8class b0 = length) (hpos : 0 < length)
    (hlen : strlen < 0 ∨ length ≤ strlen)
    (hcont : continuationLoop str (length - 1) 1 = some true)
    (huc : codePoint str length = some uc) :
    utf8procIterate str strlen =
      some (if uc < 0 ∨ uc % 0x10000 ≥ 0xFFFE then (errorInvalidUtf8, -1) else (length, uc)) := by
  have hstrlen : strlen ≠ 0 := by omega
  have hbound : ¬ (0 ≤ strlen ∧ (length : ℤ) > strlen) := by omega
  rw [utf8procIterate, if_neg hstrlen]
  simp only [hb0, Option.bind_eq_bind, Option.bind_some, hclass, Nat.ne_of_gt hpos, hbound,
    if_false, hcont, huc, Bool.not_true, Bool.false_eq_true]
  split <;> rfl

section

variable (c : Char) (rest : List UInt8)

/-- The first byte, the continuation bytes and the code point of an encoded character. -/
structure Decodes (str : List UInt8) (length : ℕ) (uc : ℤ) : Prop where
  first : ∃ b0, str[0]? = some b0 ∧ utf8class b0 = length
  continued : continuationLoop str (length - 1) 1 = some true
  codePoint_eq : codePoint str length = some uc

theorem decodes_one (h : c.toNat ≤ 0x7F) :
    Decodes (String.utf8EncodeChar c ++ rest) 1 c.toNat := by
  have hbytes : String.utf8EncodeChar c = [UInt8.ofNat c.toNat] := by
    rw [utf8EncodeChar_eq, if_pos h]
  have hb := toNat_ofNat (n := c.toNat) (by omega)
  rw [hbytes]
  generalize UInt8.ofNat c.toNat = b at hb
  refine ⟨⟨b, rfl, ?_⟩, rfl, ?_⟩
  · rw [utf8class, if_pos (by omega)]
  · simp [codePoint, hb]

theorem decodes_two (h : 0x7F < c.toNat) (h' : c.toNat ≤ 0x7FF) :
    Decodes (String.utf8EncodeChar c ++ rest) 2 c.toNat := by
  have hbytes : String.utf8EncodeChar c =
      [UInt8.ofNat (c.toNat / 64 % 32 + 192), UInt8.ofNat (c.toNat % 64 + 128)] := by
    rw [utf8EncodeChar_eq, if_neg (not_le.mpr h), if_pos h']
  have hb0 := toNat_ofNat (n := c.toNat / 64 % 32 + 192) (by omega)
  have hb1 := toNat_ofNat (n := c.toNat % 64 + 128) (by omega)
  rw [hbytes]
  generalize UInt8.ofNat (c.toNat / 64 % 32 + 192) = b0 at hb0
  generalize UInt8.ofNat (c.toNat % 64 + 128) = b1 at hb1
  refine ⟨⟨b0, rfl, ?_⟩, ?_, ?_⟩
  · rw [utf8class, if_neg (by omega), if_neg (by omega), if_pos (by omega)]
  · have h1 : b1.toNat / 0x40 = 2 := by omega
    simp [continuationLoop, h1]
  · have huc : b0.toNat % 0x20 * 2 ^ 6 + b1.toNat % 0x40 = c.toNat := by omega
    simp only [codePoint, List.cons_append, List.nil_append, List.getElem?_cons_zero,
      List.getElem?_cons_succ, Option.bind_eq_bind, Option.bind_some, huc]
    rw [if_neg (by omega)]

theorem decodes_three (h : 0x7FF < c.toNat) (h' : c.toNat ≤ 0xFFFF) :
    Decodes (String.utf8EncodeChar c ++ rest) 3
      (if 0xFDD0 ≤ c.toNat ∧ c.toNat < 0xFDF0 then -1 else c.toNat) := by
  have hbytes : String.utf8EncodeChar c =
      [UInt8.ofNat (c.toNat / 4096 % 16 + 224), UInt8.ofNat (c.toNat / 64 % 64 + 128),
        UInt8.ofNat (c.toNat % 64 + 128)] := by
    rw [utf8EncodeChar_eq, if_neg (by omega), if_neg (not_le.mpr h),
      if_pos h']
  have hb0 := toNat_ofNat (n := c.toNat / 4096 % 16 + 224) (by omega)
  have hb1 := toNat_ofNat (n := c.toNat / 64 % 64 + 128) (by omega)
  have hb2 := toNat_ofNat (n := c.toNat % 64 + 128) (by omega)
  have hrange := toNat_range c
  rw [hbytes]
  generalize UInt8.ofNat (c.toNat / 4096 % 16 + 224) = b0 at hb0
  generalize UInt8.ofNat (c.toNat / 64 % 64 + 128) = b1 at hb1
  generalize UInt8.ofNat (c.toNat % 64 + 128) = b2 at hb2
  refine ⟨⟨b0, rfl, ?_⟩, ?_, ?_⟩
  · rw [utf8class, if_neg (by omega), if_neg (by omega), if_neg (by omega), if_pos (by omega)]
  · have h1 : b1.toNat / 0x40 = 2 := by omega
    have h2 : b2.toNat / 0x40 = 2 := by omega
    simp [continuationLoop, h1, h2]
  · have huc : b0.toNat % 0x10 * 2 ^ 12 + b1.toNat % 0x40 * 2 ^ 6 + b2.toNat % 0x40 = c.toNat := by
      omega
    simp only [codePoint, List.cons_append, List.nil_append, List.getElem?_cons_zero,
      List.getElem?_cons_succ, Option.bind_eq_bind, Option.bind_some, huc]
    by_cases hnon : 0xFDD0 ≤ c.toNat ∧ c.toNat < 0xFDF0
    · rw [if_pos (by omega), if_pos hnon]
    · rw [if_neg (by omega), if_neg hnon]

theorem decodes_four (h : 0xFFFF < c.toNat) :
    Decodes (String.utf8EncodeChar c ++ rest) 4 c.toNat := by
  have hbytes : String.utf8EncodeChar c =
      [UInt8.ofNat (c.toNat / 262144 % 8 + 240), UInt8.ofNat (c.toNat / 4096 % 64 + 128),
        UInt8.ofNat (c.toNat / 64 % 64 + 128), UInt8.ofNat (c.toNat % 64 + 128)] := by
    rw [utf8EncodeChar_eq, if_neg (by omega),
      if_neg (by omega), if_neg (not_le.mpr h)]
  have hb0 := toNat_ofNat (n := c.toNat / 262144 % 8 + 240) (by omega)
  have hb1 := toNat_ofNat (n := c.toNat / 4096 % 64 + 128) (by omega)
  have hb2 := toNat_ofNat (n := c.toNat / 64 % 64 + 128) (by omega)
  have hb3 := toNat_ofNat (n := c.toNat % 64 + 128) (by omega)
  have hrange := toNat_range c
  rw [hbytes]
  generalize UInt8.ofNat (c.toNat / 262144 % 8 + 240) = b0 at hb0
  generalize UInt8.ofNat (c.toNat / 4096 % 64 + 128) = b1 at hb1
  generalize UInt8.ofNat (c.toNat / 64 % 64 + 128) = b2 at hb2
  generalize UInt8.ofNat (c.toNat % 64 + 128) = b3 at hb3
  refine ⟨⟨b0, rfl, ?_⟩, ?_, ?_⟩
  · rw [utf8class, if_neg (by omega), if_neg (by omega), if_neg (by omega), if_neg (by omega),
      if_pos (by omega)]
  · have h1 : b1.toNat / 0x40 = 2 := by omega
    have h2 : b2.toNat / 0x40 = 2 := by omega
    have h3 : b3.toNat / 0x40 = 2 := by omega
    simp [continuationLoop, h1, h2, h3]
  · have huc : b0.toNat % 0x08 * 2 ^ 18 + b1.toNat % 0x40 * 2 ^ 12 + b2.toNat % 0x40 * 2 ^ 6 +
        b3.toNat % 0x40 = c.toNat := by
      omega
    simp only [codePoint, List.cons_append, List.nil_append, List.getElem?_cons_zero,
      List.getElem?_cons_succ, Option.bind_eq_bind, Option.bind_some, huc]
    rw [if_neg (by omega)]

end

theorem utf8Size_eq (c : Char) : c.utf8Size =
    if c.toNat ≤ 0x7F then 1 else if c.toNat ≤ 0x7FF then 2 else if c.toNat ≤ 0xFFFF then 3
    else 4 := by
  rw [← String.length_utf8EncodeChar, utf8EncodeChar_eq]
  split
  · rfl
  · split
    · rfl
    · split <;> rfl

theorem decodes_char (c : Char) (rest : List UInt8) :
    ∃ uc : ℤ, Decodes (String.utf8EncodeChar c ++ rest) c.utf8Size uc ∧
      (Noncharacter c → uc < 0 ∨ uc % 0x10000 ≥ 0xFFFE) ∧
      (¬ Noncharacter c → uc = c.toNat ∧ ¬ (uc < 0 ∨ uc % 0x10000 ≥ 0xFFFE)) := by
  have hrange := toNat_range c
  rw [utf8Size_eq]
  unfold Noncharacter
  by_cases h1 : c.toNat ≤ 0x7F
  · rw [if_pos h1]
    exact ⟨_, decodes_one c rest h1, by omega, by omega⟩
  · rw [if_neg h1]
    by_cases h2 : c.toNat ≤ 0x7FF
    · rw [if_pos h2]
      exact ⟨_, decodes_two c rest (not_le.mp h1) h2, by omega, by omega⟩
    · rw [if_neg h2]
      by_cases h3 : c.toNat ≤ 0xFFFF
      · rw [if_pos h3]
        refine ⟨_, decodes_three c rest (not_le.mp h2) h3, ?_⟩
        by_cases hnon : 0xFDD0 ≤ c.toNat ∧ c.toNat < 0xFDF0
        · rw [if_pos hnon]
          exact ⟨by omega, by omega⟩
        · rw [if_neg hnon]
          exact ⟨by omega, by omega⟩
      · rw [if_neg h3]
        exact ⟨_, decodes_four c rest (not_le.mp h3), by omega, by omega⟩

theorem iterate_char (c : Char) (rest : List UInt8) {strlen : ℤ}
    (hlen : strlen < 0 ∨ c.utf8Size ≤ strlen) :
    utf8procIterate (String.utf8EncodeChar c ++ rest) strlen = some
      (if Noncharacter c then (errorInvalidUtf8, -1) else (↑c.utf8Size, (c.toNat : ℤ))) := by
  obtain ⟨uc, ⟨⟨b0, hb0, hclass⟩, hcont, huc⟩, hnon⟩ := decodes_char c rest
  rw [iterate_of hb0 hclass c.utf8Size_pos hlen hcont huc]
  by_cases h : Noncharacter c
  · rw [if_pos h, if_pos (hnon.1 h)]
  · obtain ⟨rfl, hnot⟩ := hnon.2 h
    rw [if_neg h, if_neg hnot]

/-! ## The code -/

theorem utf8EncodeChar_append_inj {c d : Char} {r t : List UInt8}
    (h : String.utf8EncodeChar c ++ r = String.utf8EncodeChar d ++ t) : c = d ∧ r = t := by
  have hc := List.utf8DecodeChar?_utf8Encode_singleton_append (b := r.toByteArray) (c := c)
  have hd := List.utf8DecodeChar?_utf8Encode_singleton_append (b := t.toByteArray) (c := d)
  simp only [List.utf8Encode_singleton, ← List.toByteArray_append] at hc hd
  rw [h, hd] at hc
  obtain rfl := Option.some.inj hc
  exact ⟨rfl, List.append_cancel_left h⟩

theorem encode_eq_nil {cs : List Char} : encode cs = [] ↔ cs = [] := by
  cases cs with
  | nil => simp
  | cons c cs => simp

theorem encode_prefix_iff (ps cs : List Char) : encode ps <+: encode cs ↔ ps <+: cs := by
  induction ps generalizing cs with
  | nil => simp
  | cons p ps ih =>
    cases cs with
    | nil =>
      simp only [encode_nil, List.prefix_nil, encode_eq_nil]
    | cons c cs =>
      rw [List.cons_prefix_cons]
      constructor
      · rintro ⟨t, ht⟩
        rw [encode_cons, encode_cons, List.append_assoc] at ht
        obtain ⟨rfl, hrest⟩ := utf8EncodeChar_append_inj ht
        exact ⟨rfl, (ih cs).mp ⟨t, hrest⟩⟩
      · rintro ⟨rfl, hpre⟩
        obtain ⟨t, ht⟩ := (ih cs).mpr hpre
        exact ⟨t, by rw [encode_cons, encode_cons, List.append_assoc, ht]⟩

theorem encode_injective : Function.Injective encode := by
  intro cs ds h
  have hcd : cs <+: ds := (encode_prefix_iff cs ds).mp (h ▸ List.prefix_refl _)
  have hdc : ds <+: cs := (encode_prefix_iff ds cs).mp (h ▸ List.prefix_refl _)
  exact hcd.eq_of_length (Nat.le_antisymm hcd.length_le hdc.length_le)

theorem length_le_encode (cs : List Char) : cs.length ≤ (encode cs).length := by
  induction cs with
  | nil => exact Nat.le_refl _
  | cons c cs ih =>
    rw [encode_cons, List.length_append, String.length_utf8EncodeChar, List.length_cons]
    have := c.utf8Size_pos
    omega

theorem length_encode_eq_iff (cs : List Char) :
    (encode cs).length = cs.length ↔ ∀ c ∈ cs, c.toNat < 0x80 := by
  induction cs with
  | nil => simp
  | cons c cs ih =>
    have hle := length_le_encode cs
    have hpos := c.utf8Size_pos
    have hone : c.utf8Size = 1 ↔ c.toNat < 0x80 := by
      rw [utf8Size_eq]
      split_ifs <;> omega
    rw [encode_cons, List.length_append, String.length_utf8EncodeChar, List.length_cons,
      List.forall_mem_cons, ← ih, ← hone]
    omega

end Hilti.Strings
