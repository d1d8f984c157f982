import Hilti.Strings.Utf8
import Hilti.Util.Expand

/-!
# Escaping is reversible

Expanding what `escapeBytes` makes of some bytes gives them back.  For `escapeUTF8` and a text that is
so exactly if each of its characters is kept: `utf8proc_iterate` does not take noncharacters, and a
character below U+10000 is written as its low byte alone where that is printable, whether or not it
is the whole of it.
-/

namespace Hilti.Util

open Hilti.Strings

set_option autoImplicit false

/-- The text expands to `d`. -/
def Expands (s d : List UInt8) : Prop :=
  (expandEscapes s).result = .ok d

/-- A character that comes back. -/
def Kept (c : Char) : Prop :=
  ¬ Noncharacter c ∧
    ¬ (128 ≤ c.toNat ∧ c.toNat < 65536 ∧ 32 ≤ c.toNat % 256 ∧ c.toNat % 256 ≤ 126)

instance (c : Char) : Decidable (Kept c) :=
  inferInstanceAs (Decidable (_ ∧ _))

/-! ## Expanding the parts -/

section

variable {b e : UInt8} {c d s piece rest hex : List UInt8} {inside : Bool}

theorem expands_nil_iff : Expands [] d ↔ d = [] := by
  rw [Expands, expandEscapes]
  exact ⟨fun h => (Except.ok.inj h).symm, fun h => h ▸ rfl⟩

theorem expands_ok_iff (h : expandOne b c = ⟨.ok (piece, rest), inside⟩) :
    Expands (b :: c) d ↔ ∃ t, Expands rest t ∧ d = piece ++ t := by
  rw [Expands, expandEscapes_ok h]
  cases hrest : (expandEscapes rest).result with
  | error message =>
    constructor
    · rintro ⟨⟩
    · rintro ⟨t, ht, -⟩
      rw [Expands, hrest] at ht
      cases ht
  | ok t =>
    constructor
    · rintro ⟨⟩
      exact ⟨t, hrest, rfl⟩
    · rintro ⟨t', ht', rfl⟩
      rw [Expands, hrest] at ht'
      cases ht'
      rfl

theorem not_expands {message : String} (h : expandOne b c = ⟨.error message, inside⟩) :
    ¬ Expands (b :: c) d := by
  rw [Expands, expandEscapes_error h]
  exact nofun

theorem expands_plain_iff (hb : b ≠ 92) : Expands (b :: s) d ↔ ∃ t, Expands s t ∧ d = b :: t := by
  have h : expandOne b s = ⟨.ok ([b], s), true⟩ := if_pos hb
  exact expands_ok_iff h

theorem expands_plains_iff {p : List UInt8} (hp : ∀ b ∈ p, b ≠ 92) :
    Expands (p ++ s) d ↔ ∃ t, Expands s t ∧ d = p ++ t := by
  induction p generalizing d with
  | nil =>
    constructor
    · exact fun h => ⟨d, h, rfl⟩
    · rintro ⟨t, ht, rfl⟩
      exact ht
  | cons b p ih =>
    rw [List.cons_append, expands_plain_iff (hp b List.mem_cons_self)]
    constructor
    · rintro ⟨t, ht, rfl⟩
      obtain ⟨t, ht', rfl⟩ := (ih fun b hb => hp b (List.mem_cons_of_mem _ hb)).mp ht
      exact ⟨t, ht', rfl⟩
    · rintro ⟨t, ht, rfl⟩
      exact ⟨p ++ t, (ih fun b hb => hp b (List.mem_cons_of_mem _ hb)).mpr ⟨t, ht, rfl⟩, rfl⟩

theorem expands_short_iff (hb : shortEscape e = some b) :
    Expands (92 :: e :: s) d ↔ ∃ t, Expands s t ∧ d = b :: t :=
  expands_ok_iff (expandOne_short_escape hb s)

theorem expands_numeric_iff (hn : numericLength e = some hex.length) (hhex : ∀ c ∈ hex, IsHex c)
    (hcode : e ≠ 120 → hexValue hex < 0x110000) :
    Expands (92 :: e :: (hex ++ s)) d ↔ ∃ t, Expands s t ∧ d = numericPiece e [] hex ++ t := by
  have hpos : hex ≠ [] := by
    rintro rfl
    exact absurd (numericLength_range hn).1 (by decide)
  have hsign : Sign [] (hex ++ s) := sign_nil hhex (.inl hpos)
  have hfull := expandOne_full hn hsign hhex (Nat.zero_add _)
  rw [if_neg] at hfull
  · exact expands_ok_iff hfull
  · rw [numericPiece_eq_nil hn hsign (Nat.zero_add _)]
    rintro ⟨he, ⟨-, hge⟩ | ⟨hminus, -⟩⟩
    · exact Nat.not_le.mpr (hcode he) hge
    · cases hminus

end

/-! ## Digits -/

theorem digit_hexDigit {d : ℕ} (h : d < 16) : digit 16 (hexDigit d) = some d := by
  have hall : ∀ d : Fin 16, digit 16 (hexDigit d) = some d.val := by decide
  exact hall ⟨d, h⟩

theorem length_hexDigits (width n : ℕ) : (hexDigits width n).length = width := by
  induction width generalizing n with
  | zero => rfl
  | succ width ih => rw [hexDigits, List.length_append, ih]; rfl

theorem mem_hexDigits {width n : ℕ} {c : UInt8} (h : c ∈ hexDigits width n) :
    ∃ d < 16, c = hexDigit d := by
  induction width generalizing n with
  | zero => cases h
  | succ width ih =>
    rcases List.mem_append.mp h with hfront | hlast
    · exact ih hfront
    · exact ⟨n % 16, Nat.mod_lt _ (by decide), List.mem_singleton.mp hlast⟩

theorem isHex_hexDigits {width n : ℕ} : ∀ c ∈ hexDigits width n, IsHex c := by
  intro c hc
  obtain ⟨d, hd, rfl⟩ := mem_hexDigits hc
  rw [IsHex, digit_hexDigit hd]
  rfl

theorem isprint_hexDigits {width n : ℕ} : ∀ c ∈ hexDigits width n, isprint c = true ∧ c ≠ 92 := by
  intro c hc
  obtain ⟨d, hd, rfl⟩ := mem_hexDigits hc
  have hall : ∀ d : Fin 16, isprint (hexDigit d) = true ∧ hexDigit d ≠ 92 := by decide
  exact hall ⟨d, hd⟩

theorem hexValue_hexDigits {width n : ℕ} (h : n < 16 ^ width) :
    hexValue (hexDigits width n) = n := by
  induction width generalizing n with
  | zero => exact (Nat.lt_one_iff.mp h).symm
  | succ width ih =>
    have hfront := ih (n := n / 16) (by rw [pow_succ] at h; omega)
    rw [hexValue, valueFrom] at hfront ⊢
    rw [hexDigits, List.foldl_append, hfront, List.foldl_cons, List.foldl_nil,
      digit_hexDigit (Nat.mod_lt _ (by decide)), Option.getD_some]
    omega

/-! ## Bytes -/

theorem expands_escapeByte_iff (b : UInt8) (s d : List UInt8) :
    Expands (escapeByte b ++ s) d ↔ ∃ t, Expands s t ∧ d = b :: t := by
  rw [escapeByte]
  split
  · subst b
    exact expands_short_iff rfl
  split
  · subst b
    exact expands_short_iff rfl
  split
  · subst b
    exact expands_short_iff rfl
  split
  · subst b
    exact expands_short_iff rfl
  split
  · subst b
    exact expands_short_iff rfl
  split
  · exact expands_plain_iff ‹_›
  · have hvalue : numericPiece 120 [] (hexDigits 2 b.toNat) = [b] := by
      rw [numericPiece, if_pos rfl, hexValue_hexDigits b.toNat_lt, signed, if_pos rfl]
      exact congrArg (fun b => [b]) UInt8.ofNat_toNat
    have hnumeric := expands_numeric_iff (e := 120) (s := s) (d := d)
      (congrArg some (length_hexDigits 2 b.toNat)).symm isHex_hexDigits (fun h => absurd rfl h)
    rw [hvalue] at hnumeric
    exact hnumeric

theorem expands_escapeBytes (b : List UInt8) : Expands (escapeBytes b) b := by
  induction b with
  | nil => exact expands_nil_iff.mpr rfl
  | cons c b ih =>
    rw [escapeBytes, List.flatMap_cons]
    exact (expands_escapeByte_iff c _ _).mpr ⟨b, ih, rfl⟩

/-! ## Characters -/

theorem utf8procEncodeChar_char (c : Char) (h : ¬ Noncharacter c) :
    utf8procEncodeChar c.toNat = String.utf8EncodeChar c := by
  have hrange := toNat_range c
  have hnot : c.toNat ≠ 0xFFFF ∧ c.toNat ≠ 0xFFFE := by
    rw [Noncharacter] at h
    omega
  rw [utf8EncodeChar_eq, utf8procEncodeChar, if_neg (by omega), Int.toNat_natCast]
  dsimp only
  by_cases h1 : c.toNat ≤ 0x7F
  · rw [if_pos (by omega), if_pos h1]
  rw [if_neg (by omega), if_neg h1]
  by_cases h2 : c.toNat ≤ 0x7FF
  · have h0 : 0xC0 + c.toNat / 2 ^ 6 = c.toNat / 64 % 32 + 192 := by omega
    rw [if_pos (by omega), if_pos h2, h0, Nat.add_comm 0x80]
  rw [if_neg (by omega), if_neg h2, if_neg hnot.1, if_neg hnot.2]
  by_cases h3 : c.toNat ≤ 0xFFFF
  · have h0 : 0xE0 + c.toNat / 2 ^ 12 = c.toNat / 4096 % 16 + 224 := by omega
    rw [if_pos (by omega), if_pos h3, h0, Nat.add_comm 0x80, Nat.add_comm 0x80]
    rfl
  · have h0 : 0xF0 + c.toNat / 2 ^ 18 = c.toNat / 262144 % 8 + 240 := by omega
    rw [if_neg (by omega), if_pos (by omega), if_neg h3, h0, Nat.add_comm 0x80,
      Nat.add_comm 0x80, Nat.add_comm 0x80]
    rfl

/-- What `escapeUTF8` makes of a text. -/
def escapeText : List Char → List UInt8
  | [] => []
  | c :: cs => if Noncharacter c then illegalSequence else escapeCodePoint c.toNat ++ escapeText cs

theorem escapeLoop_encode (cs : List Char) : ∀ {fuel : ℕ}, (encode cs).length ≤ fuel →
    escapeLoop fuel (encode cs) = some (escapeText cs) := by
  induction cs with
  | nil => exact fun _ => by rw [encode_nil, escapeLoop]; rfl
  | cons c cs ih =>
    intro fuel hfuel
    have hsize := c.utf8Size_pos
    have hlen : (encode (c :: cs)).length = c.utf8Size + (encode cs).length := by
      rw [encode_cons, List.length_append, String.length_utf8EncodeChar]
    have hfits : (c.utf8Size : ℤ) ≤ (encode (c :: cs)).length := by
      rw [hlen]
      omega
    have hiter := iterate_char c (encode cs) (.inr hfits)
    rw [← encode_cons] at hiter
    obtain ⟨fuel, rfl⟩ := Nat.exists_eq_succ_of_ne_zero (n := fuel) (by omega)
    have hleft : (encode cs).length ≤ fuel := by omega
    have hrest := ih hleft
    have hdrop : (encode (c :: cs)).drop c.utf8Size = encode cs := by
      rw [encode_cons, ← String.length_utf8EncodeChar, List.drop_left]
    cases henc : encode (c :: cs) with
    | nil =>
      rw [henc] at hlen
      rw [List.length_nil] at hlen
      omega
    | cons b p =>
      rw [henc] at hiter hdrop
      rw [escapeLoop, hiter, escapeText]
      by_cases hnon : Noncharacter c
      · rw [if_pos hnon, if_pos hnon]
        rfl
      · rw [if_neg hnon, if_neg hnon]
        simp only [Option.bind_eq_bind, Option.bind_some]
        rw [if_neg (by omega), Int.toNat_natCast, Int.toNat_natCast, hdrop, hrest, Option.map_some]

theorem escapeUTF8_encode (cs : List Char) : escapeUTF8 (encode cs) = some (escapeText cs) :=
  escapeLoop_encode cs (Nat.le_refl _)

theorem ofNat_eq_iff {n : ℕ} (h : n < 256) (b : UInt8) : UInt8.ofNat n = b ↔ n = b.toNat := by
  rw [← UInt8.toNat_inj, toNat_ofNat h]

theorem isprint_ofNat (n : ℕ) : isprint (UInt8.ofNat n) = decide (32 ≤ n % 256 ∧ n % 256 ≤ 126) := by
  rw [isprint, UInt8.toNat_ofNat']

theorem expands_escapeCodePoint_iff {c : Char} (h : Kept c) (s d : List UInt8) :
    Expands (escapeCodePoint c.toNat ++ s) d ↔
      ∃ t, Expands s t ∧ d = String.utf8EncodeChar c ++ t := by
  obtain ⟨hnon, hkept⟩ := h
  have hrange := toNat_range c
  have hchar := utf8procEncodeChar_char c hnon
  have hone : ∀ n, c.toNat = n → n ≤ 0x7F → String.utf8EncodeChar c = [UInt8.ofNat n] := by
    rintro n rfl hle
    rw [utf8EncodeChar_eq, if_pos hle]
  have hpiece : ∀ e w, e ≠ 120 → c.toNat < 16 ^ w → c.toNat < 2 ^ 31 →
      numericPiece e [] (hexDigits w c.toNat) = String.utf8EncodeChar c := by
    intro e w he hw hlt
    rw [numericPiece, if_neg he, hexValue_hexDigits hw, signed, if_pos rfl,
      toInt_ofNat (by omega), if_pos hlt, hchar]
  have hcode : ∀ w, c.toNat < 16 ^ w → hexValue (hexDigits w c.toNat) < 0x110000 := by
    intro w hw
    rw [hexValue_hexDigits hw]
    omega
  rw [escapeCodePoint]
  split
  · rw [hone 92 ‹_› (by decide)]
    exact expands_short_iff rfl
  split
  · rw [hone 34 ‹_› (by decide)]
    exact expands_short_iff rfl
  split
  · rw [hone 10 ‹_› (by decide)]
    exact expands_short_iff rfl
  split
  · rw [hone 13 ‹_› (by decide)]
    exact expands_short_iff rfl
  split
  · rw [hone 9 ‹_› (by decide)]
    exact expands_short_iff rfl
  split
  · rw [← hpiece 85 8 (by decide) (by omega) (by omega)]
    exact expands_numeric_iff (congrArg some (length_hexDigits 8 _)).symm isHex_hexDigits
      (fun _ => hcode 8 (by omega))
  split
  · rw [← hpiece 117 4 (by decide) (by omega) (by omega)]
    exact expands_numeric_iff (congrArg some (length_hexDigits 4 _)).symm isHex_hexDigits
      (fun _ => hcode 4 (by omega))
  · rename_i hbackslash _ _ _ _ hlt hprint
    rw [isprint_ofNat, Bool.not_eq_true, Bool.not_eq_false', decide_eq_true_iff] at hprint
    have hascii : c.toNat < 128 := by omega
    rw [hone _ rfl (by omega)]
    apply expands_plain_iff
    rw [Ne, ofNat_eq_iff (by omega)]
    exact hbackslash

theorem expands_escapeText {cs : List Char} (h : ∀ c ∈ cs, Kept c) :
    Expands (escapeText cs) (encode cs) := by
  induction cs with
  | nil => exact expands_nil_iff.mpr rfl
  | cons c cs ih =>
    have hc := h c List.mem_cons_self
    rw [escapeText, if_neg hc.1]
    exact (expands_escapeCodePoint_iff hc _ _).mpr
      ⟨encode cs, ih fun c hc => h c (List.mem_cons_of_mem _ hc), rfl⟩

/-! ## Characters that do not come back

A text with a character that is not kept does not expand to itself.  What has been expanded is
compared with the text: from such a character on the text is ahead by some bytes, its surplus, and
never gives them up.  A low byte that is a backslash takes what follows for an escape sequence, but
even a `\\U` is shorter than what it has been made from. -/

section

variable {w x r p t v : List UInt8} {c : Char} {cs : List Char} {b : UInt8}

theorem surplus (h : w ++ (x ++ r) = p ++ t) (hle : p.length ≤ w.length + x.length) :
    ∃ w', t = w' ++ r ∧ w'.length + p.length = w.length + x.length := by
  rw [← List.append_assoc] at h
  refine ⟨(w ++ x).drop p.length, ?_, ?_⟩
  · have hdrop := congrArg (List.drop p.length) h
    rw [List.drop_left, List.drop_append_of_le_length (by rwa [List.length_append])] at hdrop
    exact hdrop.symm
  · rw [List.length_drop, List.length_append]
    omega

theorem length_le_of_not_mem (h : w ++ (b :: x ++ r) = p ++ t) (hb : b ∉ p) :
    p.length ≤ w.length := by
  by_contra hlt
  have hget : (w ++ (b :: x ++ r))[w.length]? = (p ++ t)[w.length]? := by rw [h]
  rw [List.getElem?_append_right (Nat.le_refl _), Nat.sub_self, List.cons_append,
    List.getElem?_cons_zero, List.getElem?_append_left (Nat.not_le.mp hlt)] at hget
  exact hb (List.mem_of_getElem? hget.symm)

theorem utf8EncodeChar_head (h : ¬ (32 ≤ c.toNat ∧ c.toNat ≤ 126)) :
    ∃ b l, String.utf8EncodeChar c = b :: l ∧ isprint b = false := by
  have hrange := toNat_range c
  have hprint : ∀ n, 127 ≤ n % 256 ∨ n % 256 < 32 → isprint (UInt8.ofNat n) = false := by
    intro n hn
    rw [isprint_ofNat, decide_eq_false_iff_not]
    omega
  rw [utf8EncodeChar_eq]
  split
  · exact ⟨_, _, rfl, hprint _ (by omega)⟩
  split
  · exact ⟨_, _, rfl, hprint _ (by omega)⟩
  split
  · exact ⟨_, _, rfl, hprint _ (by omega)⟩
  · exact ⟨_, _, rfl, hprint _ (by omega)⟩

theorem length_utf8EncodeChar_ge (h : 128 ≤ c.toNat) : 2 ≤ (String.utf8EncodeChar c).length := by
  rw [String.length_utf8EncodeChar, utf8Size_eq]
  split
  · omega
  split
  · decide
  split
  · decide
  · decide

theorem length_utf8procEncodeChar (uc : ℤ) : (utf8procEncodeChar uc).length ≤ 4 := by
  rw [utf8procEncodeChar]
  split
  · exact Nat.zero_le 4
  · dsimp only
    repeat' split
    all_goals simp

theorem length_numericPiece (e : UInt8) (sign hex : List UInt8) :
    (numericPiece e sign hex).length ≤ 4 := by
  rw [numericPiece]
  split
  · rw [List.length_singleton]
    decide
  · exact length_utf8procEncodeChar _

/-! ### The forms of a character -/

theorem escapeCodePoint_cases (c : Char) :
    (∃ e d, shortEscape e = some d ∧ e ≠ 92 ∧ escapeCodePoint c.toNat = [92, e]) ∨
      c.toNat = 92 ∧ escapeCodePoint c.toNat = [92, 92] ∨
      (∃ q, ¬ (32 ≤ c.toNat ∧ c.toNat ≤ 126) ∧ (∀ b ∈ q, isprint b = true ∧ b ≠ 92) ∧
        escapeCodePoint c.toNat = 92 :: q) ∨
      ∃ b, b = UInt8.ofNat c.toNat ∧ isprint b = true ∧ escapeCodePoint c.toNat = [b] := by
  have hdigits : ∀ e w, isprint e = true ∧ e ≠ 92 →
      ∀ b ∈ e :: hexDigits w c.toNat, isprint b = true ∧ b ≠ 92 :=
    fun e w he => List.forall_mem_cons.mpr ⟨he, isprint_hexDigits⟩
  rw [escapeCodePoint]
  split
  · exact .inr (.inl ⟨‹_›, rfl⟩)
  split
  · exact .inl ⟨34, 34, rfl, by decide, rfl⟩
  split
  · exact .inl ⟨110, 10, rfl, by decide, rfl⟩
  split
  · exact .inl ⟨114, 13, rfl, by decide, rfl⟩
  split
  · exact .inl ⟨116, 9, rfl, by decide, rfl⟩
  split
  · exact .inr (.inr (.inl ⟨_, by omega, hdigits 85 8 (by decide), rfl⟩))
  split
  · rename_i hprint
    refine .inr (.inr (.inl ⟨_, ?_, hdigits 117 4 (by decide), rfl⟩))
    rw [isprint_ofNat, Bool.not_eq_true', decide_eq_false_iff_not] at hprint
    omega
  · rename_i hprint
    rw [Bool.not_eq_true, Bool.not_eq_false'] at hprint
    exact .inr (.inr (.inr ⟨_, rfl, hprint, rfl⟩))

theorem escapeText_split : ∀ {q : List UInt8} {cs : List Char} {rest : List UInt8},
    (∀ b ∈ q, b ≠ 92 ∧ b ≠ 60) → escapeText cs = q ++ rest →
      ∃ cs₁ cs₂, cs = cs₁ ++ cs₂ ∧ cs₁.length = q.length ∧ escapeText cs₂ = rest
  | [], cs, rest, _, h => ⟨[], cs, rfl, rfl, h⟩
  | b :: q, [], rest, _, h => nomatch h
  | b :: q, c :: cs, rest, hq, h => by
    obtain ⟨hbackslash, hless⟩ := hq b List.mem_cons_self
    rw [escapeText] at h
    split at h
    · exact absurd (List.cons.inj h).1.symm hless
    · have hno : ∀ q', escapeCodePoint c.toNat ≠ 92 :: q' := by
        intro q' hesc
        rw [hesc] at h
        exact hbackslash (List.cons.inj h).1.symm
      rcases escapeCodePoint_cases c with ⟨e, d, -, -, hesc⟩ | ⟨-, hesc⟩ | ⟨q', -, -, hesc⟩ |
        ⟨b', -, -, hesc⟩
      · exact absurd hesc (hno _)
      · exact absurd hesc (hno _)
      · exact absurd hesc (hno _)
      · rw [hesc] at h
        obtain ⟨cs₁, cs₂, rfl, hlen, hrest⟩ :=
          escapeText_split (fun b hb => hq b (List.mem_cons_of_mem _ hb)) (List.cons.inj h).2
        exact ⟨c :: cs₁, cs₂, rfl, congrArg Nat.succ hlen, hrest⟩

/-! ### The surplus stays -/

def Stays (cs : List Char) : Prop :=
  ∀ w, Expands (escapeText cs) (w ++ encode cs) → w = [] ∧ ∀ c ∈ cs, Kept c

theorem Stays.not_surplus (h : Stays cs) (hexpands : Expands (escapeText cs) t)
    (hd : w ++ (x ++ encode cs) = p ++ t) (hlt : p.length < w.length + x.length) : False := by
  obtain ⟨w', rfl, hlen⟩ := surplus hd (Nat.le_of_lt hlt)
  obtain ⟨rfl, -⟩ := h w' hexpands
  rw [List.length_nil] at hlen
  omega

theorem not_expands_numeric {e : UInt8} {n : ℕ} (hn : numericLength e = some n)
    (hstays : ∀ cs₁ cs₂, cs = cs₁ ++ cs₂ → Stays cs₂) (hv : 3 ≤ v.length) :
    ¬ Expands (92 :: e :: escapeText cs) (v ++ encode cs) := by
  intro h
  have hrange := numericLength_range hn
  obtain ⟨sign, s, heq, hsign⟩ := exists_sign (escapeText cs)
  obtain ⟨hex, rest, rfl, hhex, hlen⟩ := exists_digits (n - sign.length) s
  have hle := hsign.length_le
  rw [heq] at h
  rcases hlen with hlen | ⟨hlen, hrest⟩
  · have hlen : sign.length + hex.length = n := by omega
    have hfull := expandOne_full hn hsign hhex hlen
    split at hfull
    · exact not_expands hfull h
    · obtain ⟨t, ht, hd⟩ := (expands_ok_iff hfull).mp h
      have hq : ∀ b ∈ sign ++ hex, b ≠ 92 ∧ b ≠ 60 := by
        intro b hb
        rcases List.mem_append.mp hb with hb | hb
        · rcases hsign with rfl | ⟨rfl, -⟩
          · rw [List.mem_singleton.mp hb]
            decide
          · cases hb
        · constructor
          · rintro rfl
            exact absurd (hhex 92 hb) (by decide)
          · rintro rfl
            exact absurd (hhex 60 hb) (by decide)
      obtain ⟨cs₁, cs₂, rfl, hcs₁, rfl⟩ := escapeText_split hq
        (heq.trans (List.append_assoc _ _ _).symm)
      rw [encode_append] at hd
      refine (hstays cs₁ cs₂ rfl).not_surplus ht hd ?_
      have hpiece := length_numericPiece e sign hex
      have hencode := length_le_encode cs₁
      rw [hcs₁, List.length_append] at hencode
      omega
  · obtain ⟨message, hshort⟩ := expandOne_short hn hsign hhex hrest (by omega)
    exact not_expands hshort h

theorem not_expands_backslash (cs : List Char) (hstays : ∀ cs₁ cs₂, cs₁ ≠ [] → cs = cs₁ ++ cs₂ → Stays cs₂)
    (hv : 2 ≤ v.length) : ¬ Expands (92 :: escapeText cs) (v ++ encode cs) := by
  induction cs generalizing v with
  | nil => exact not_expands rfl
  | cons c cs ih =>
    have hrest : Stays cs := hstays [c] cs (List.cons_ne_nil _ _) rfl
    have hpos : 0 < (String.utf8EncodeChar c).length := by
      rw [String.length_utf8EncodeChar]
      exact c.utf8Size_pos
    intro h
    rw [escapeText, encode_cons] at h
    split at h
    · exact not_expands rfl h
    · rcases escapeCodePoint_cases c with ⟨e, d, hd, he, hesc⟩ | ⟨hc, hesc⟩ | ⟨q, hprint, hq, hesc⟩ |
        ⟨b, -, hprint, hesc⟩
      · rw [hesc] at h
        obtain ⟨t, ht, heq⟩ := (expands_short_iff rfl).mp h
        obtain ⟨t', ht', rfl⟩ := (expands_plain_iff he).mp ht
        apply hrest.not_surplus (p := [92, e]) ht' heq
        exact Nat.lt_of_lt_of_le (Nat.lt_succ_of_le hv) (Nat.add_le_add_left hpos _)
      · rw [hesc] at h
        obtain ⟨t, ht, heq⟩ := (expands_short_iff rfl).mp h
        obtain ⟨w', rfl, hlen⟩ := surplus (p := [92]) heq (by rw [List.length_singleton]; omega)
        refine ih (fun cs₁ cs₂ hne hcs => hstays (c :: cs₁) cs₂ (List.cons_ne_nil _ _)
          (congrArg (c :: ·) hcs)) ?_ ht
        rw [List.length_singleton] at hlen
        omega
      · rw [hesc] at h
        obtain ⟨t, ht, heq⟩ := (expands_short_iff rfl).mp h
        obtain ⟨t', ht', rfl⟩ := (expands_plains_iff fun b hb => (hq b hb).2).mp ht
        obtain ⟨b, l, hhead, hb⟩ := utf8EncodeChar_head hprint
        have hle : (92 :: q).length ≤ v.length := by
          rw [hhead] at heq
          apply length_le_of_not_mem heq
          intro hmem
          rcases List.mem_cons.mp hmem with rfl | hmem
          · exact absurd hb (by decide)
          · rw [(hq b hmem).1] at hb
            cases hb
        exact hrest.not_surplus (p := 92 :: q) ht' heq (by omega)
      · rw [hesc] at h
        cases hshort : shortEscape b with
        | some d =>
          obtain ⟨t, ht, heq⟩ := (expands_short_iff hshort).mp h
          refine hrest.not_surplus (p := [d]) ht heq ?_
          rw [List.length_singleton]
          omega
        | none =>
          cases hn : numericLength b with
          | some n =>
            rw [← List.append_assoc] at h
            refine not_expands_numeric hn (fun cs₁ cs₂ hcs => hstays (c :: cs₁) cs₂
              (List.cons_ne_nil _ _) (congrArg (c :: ·) hcs)) ?_ h
            rw [List.length_append]
            omega
          | none => exact not_expands (expandOne_unknown hshort hn _) h

theorem stays (cs : List Char) : Stays cs := by
  induction hlength : cs.length using Nat.strongRecOn generalizing cs with
  | ind n ih =>
  have hshorter : ∀ cs' : List Char, cs'.length < n → Stays cs' := fun cs' h => ih _ h cs' rfl
  intro w h
  cases cs with
  | nil =>
    have hnil := expands_nil_iff.mp h
    exact ⟨(List.append_eq_nil_iff.mp hnil).1, fun c hc => absurd hc List.not_mem_nil⟩
  | cons c cs =>
    have hrest : Stays cs := hshorter cs (hlength ▸ Nat.lt_succ_self _)
    by_cases hkept : Kept c
    · rw [escapeText, if_neg hkept.1, encode_cons] at h
      obtain ⟨t, ht, heq⟩ := (expands_escapeCodePoint_iff hkept _ _).mp h
      obtain ⟨w', rfl, hlen⟩ := surplus heq (Nat.le_add_left _ _)
      obtain ⟨rfl, hall⟩ := hrest w' ht
      rw [List.length_nil] at hlen
      exact ⟨List.eq_nil_of_length_eq_zero (by omega), List.forall_mem_cons.mpr ⟨hkept, hall⟩⟩
    · exfalso
      rw [escapeText, encode_cons] at h
      split at h
      · rename_i hnon
        have hplain : ∀ b ∈ illegalSequence, b ≠ 92 ∧ isprint b = true := by
          have hall : illegalSequence.all (fun b => b != 92 && isprint b) = true := by decide
          simpa [List.all_eq_true] using hall
        rw [← List.append_nil illegalSequence] at h
        obtain ⟨t, ht, heq⟩ := (expands_plains_iff fun b hb => (hplain b hb).1).mp h
        obtain rfl := expands_nil_iff.mp ht
        obtain ⟨b, l, hhead, hb⟩ := utf8EncodeChar_head (c := c) (by rw [Noncharacter] at hnon; omega)
        rw [hhead] at heq
        have hmem : b ∈ illegalSequence ++ [] := by
          rw [← heq]
          exact List.mem_append_right _ List.mem_cons_self
        rw [List.append_nil] at hmem
        rw [(hplain b hmem).2] at hb
        cases hb
      · rename_i hnon
        have hlossy : 128 ≤ c.toNat ∧ c.toNat < 65536 ∧ 32 ≤ c.toNat % 256 ∧ c.toNat % 256 ≤ 126 := by
          by_contra hnot
          exact hkept ⟨hnon, hnot⟩
        have hesc : escapeCodePoint c.toNat = [UInt8.ofNat c.toNat] := by
          rw [escapeCodePoint, if_neg (by omega), if_neg (by omega), if_neg (by omega),
            if_neg (by omega), if_neg (by omega), if_neg (by omega), if_neg]
          rw [isprint_ofNat, Bool.not_eq_true, Bool.not_eq_false', decide_eq_true_iff]
          exact hlossy.2.2
        have hlen := length_utf8EncodeChar_ge hlossy.1
        rw [hesc] at h
        by_cases hb : UInt8.ofNat c.toNat = 92
        · rw [hb, ← List.append_assoc] at h
          refine not_expands_backslash cs (fun cs₁ cs₂ _ hcs => hshorter cs₂ ?_) ?_ h
          · rw [← hlength, hcs, List.length_cons, List.length_append]
            omega
          · rw [List.length_append]
            omega
        · obtain ⟨t, ht, heq⟩ := (expands_plain_iff hb).mp h
          refine hrest.not_surplus (p := [UInt8.ofNat c.toNat]) ht heq ?_
          rw [List.length_singleton]
          omega

end

/-- **Escaping is reversible for all bytes, and for a text exactly if it has only characters that are
kept.** -/
theorem escapes_reversible_iff (cs : List Char) (b : List UInt8) :
    (∃ esc, escapeUTF8 (encode cs) = some esc ∧ Expands esc (encode cs)) ∧
        Expands (escapeBytes b) b ↔
      ∀ c ∈ cs, Kept c := by
  constructor
  · rintro ⟨⟨esc, hesc, hexpands⟩, -⟩
    obtain rfl := Option.some.inj ((escapeUTF8_encode cs).symm.trans hesc)
    exact (stays cs [] hexpands).2
  · intro h
    exact ⟨⟨_, escapeUTF8_encode cs, expands_escapeText h⟩, expands_escapeBytes b⟩

/-- The character U+0141 is escaped as the letter `A`. -/
theorem lowByte_not_reversible :
    ¬ ∃ esc, escapeUTF8 (encode [Char.ofNat 0x141]) = some esc ∧
      Expands esc (encode [Char.ofNat 0x141]) := by
  rintro ⟨esc, hesc, hexpands⟩
  obtain rfl := Option.some.inj ((escapeUTF8_encode _).symm.trans hesc)
  exact absurd ((stays _ [] hexpands).2 _ List.mem_cons_self) (by decide)

end Hilti.Util
