import Hilti.Util.Model

/-!
# Expanding escape sequences

A text is expanded piece by piece.  `expandEscapes` stays inside of a text, and takes a numeric escape
sequence only with its hexadecimal digits, unless it comes to one that the end of the text cuts off,
or in which a minus sign stands in place of the first digit.
-/

namespace Hilti.Util

set_option autoImplicit false

/-! ## Digits -/

/-- A hexadecimal digit. -/
def IsHex (c : UInt8) : Prop :=
  (digit 16 c).isSome = true

instance (c : UInt8) : Decidable (IsHex c) :=
  inferInstanceAs (Decidable (_ = _))

/-- The number that continues `n` with some digits. -/
def valueFrom (n : ℕ) (hex : List UInt8) : ℕ :=
  hex.foldl (fun n c => n * 16 + (digit 16 c).getD 0) n

/-- The value of some digits. -/
def hexValue (hex : List UInt8) : ℕ :=
  valueFrom 0 hex

theorem valueFrom_cons (n : ℕ) (c : UInt8) (hex : List UInt8) :
    valueFrom n (c :: hex) = valueFrom (n * 16 + (digit 16 c).getD 0) hex := rfl

theorem digit_lt {c : UInt8} {d : ℕ} (h : digit 16 c = some d) : d < 16 := by
  rw [digit] at h
  split at h
  · cases h
    omega
  · split at h
    · cases h
      omega
    · split at h
      · cases h
        omega
      · cases h

theorem valueFrom_lt (hex : List UInt8) (n : ℕ) : valueFrom n hex < (n + 1) * 16 ^ hex.length := by
  induction hex generalizing n with
  | nil => simp [valueFrom]
  | cons c hex ih =>
    have hd : (digit 16 c).getD 0 < 16 := by
      cases h : digit 16 c with
      | none => decide
      | some d => exact digit_lt h
    rw [valueFrom_cons, List.length_cons, pow_succ']
    calc valueFrom (n * 16 + (digit 16 c).getD 0) hex
        < (n * 16 + (digit 16 c).getD 0 + 1) * 16 ^ hex.length := ih _
      _ ≤ ((n + 1) * 16) * 16 ^ hex.length := Nat.mul_le_mul_right _ (by omega)
      _ = (n + 1) * (16 * 16 ^ hex.length) := Nat.mul_assoc _ _ _

theorem hexValue_lt (hex : List UInt8) : hexValue hex < 16 ^ hex.length := by
  have h := valueFrom_lt hex 0
  rwa [Nat.zero_add, Nat.one_mul] at h

theorem not_isHex_minus : ¬ IsHex 45 := by decide

/-! ## Reading a number -/

section

variable {w n left : ℕ} {sign hex rest s : List UInt8}

theorem atoiLoop_cons (left : ℕ) (c : UInt8) (s : List UInt8) (first : Bool) (n : BitVec w) :
    atoiLoop 16 (left + 1) (c :: s) first n =
      match digit 16 c with
      | some d => atoiLoop 16 left s false (n * BitVec.ofNat w 16 + BitVec.ofNat w d)
      | none => if first then .fail "cannot decode number" else pure (c :: s, left + 1, n) := by
  rw [atoiLoop, deref, Read.ok_bind, Bool.true_and]
  rfl

theorem atoiLoop_hex {c : UInt8} (hc : IsHex c) (left : ℕ) (s : List UInt8) (first : Bool) (n : ℕ) :
    atoiLoop 16 (left + 1) (c :: s) first (BitVec.ofNat w n) =
      atoiLoop 16 left s false (BitVec.ofNat w (n * 16 + (digit 16 c).getD 0)) := by
  obtain ⟨d, hd⟩ := Option.isSome_iff_exists.mp hc
  rw [atoiLoop_cons, hd]
  dsimp only
  rw [Option.getD_some, BitVec.ofNat_add, BitVec.ofNat_mul]

theorem atoiLoop_full (hhex : ∀ c ∈ hex, IsHex c) (rest : List UInt8) (first : Bool) (n : ℕ) :
    atoiLoop 16 hex.length (hex ++ rest) first (BitVec.ofNat w n) =
      ⟨.ok (rest, 0, BitVec.ofNat w (valueFrom n hex)), true⟩ := by
  induction hex generalizing first n with
  | nil => rfl
  | cons c hex ih =>
    rw [List.length_cons, List.cons_append, atoiLoop_hex (hhex c List.mem_cons_self),
      ih (fun c hc => hhex c (List.mem_cons_of_mem _ hc)), valueFrom_cons]

theorem atoiLoop_short (hhex : ∀ c ∈ hex, IsHex c) (hrest : ∀ c ∈ rest.head?, ¬ IsHex c)
    (hlen : hex.length < left) (first : Bool) (n : ℕ) :
    (atoiLoop 16 left (hex ++ rest) first (BitVec.ofNat w n)).inside = decide (rest ≠ []) ∧
      ∀ s n', (atoiLoop 16 left (hex ++ rest) first (BitVec.ofNat w n)).result ≠ .ok (s, 0, n') := by
  induction hex generalizing first n left with
  | nil =>
    obtain ⟨left, rfl⟩ := Nat.exists_eq_succ_of_ne_zero (Nat.ne_of_gt hlen)
    cases rest with
    | nil =>
      cases first with
      | false => exact ⟨rfl, by rintro s n' ⟨⟩⟩
      | true => exact ⟨rfl, by rintro s n' ⟨⟩⟩
    | cons c rest =>
      have hc : digit 16 c = none := Option.not_isSome_iff_eq_none.mp (hrest c rfl)
      rw [List.nil_append, atoiLoop_cons, hc]
      cases first with
      | false => exact ⟨rfl, by rintro s n' ⟨⟩⟩
      | true => exact ⟨rfl, by rintro s n' ⟨⟩⟩
  | cons c hex ih =>
    obtain ⟨left, rfl⟩ := Nat.exists_eq_succ_of_ne_zero (Nat.ne_of_gt (Nat.zero_lt_of_lt hlen))
    rw [List.cons_append, atoiLoop_hex (hhex c List.mem_cons_self)]
    exact ih (fun c hc => hhex c (List.mem_cons_of_mem _ hc)) (Nat.lt_of_succ_lt_succ hlen) _ _

/-- What `atoi_n` takes for the sign in front of a text. -/
def Sign (sign s : List UInt8) : Prop :=
  sign = [45] ∨ sign = [] ∧ s.head? ≠ some 45

theorem Sign.length_le (h : Sign sign s) : sign.length ≤ 1 := by
  rcases h with rfl | ⟨rfl, -⟩
  · exact Nat.le_refl 1
  · exact Nat.zero_le 1

theorem exists_sign (s : List UInt8) : ∃ sign t, s = sign ++ t ∧ Sign sign t := by
  by_cases h : s.head? = some 45
  · exact ⟨[45], s.tail, List.eq_cons_of_mem_head? h, .inl rfl⟩
  · exact ⟨[], s, rfl, .inr ⟨rfl, h⟩⟩

def signed (sign : List UInt8) (n : BitVec w) : BitVec w :=
  if sign = [] then n else -n

theorem atoiN_sign (h : Sign sign s) (hleft : left ≠ 0) :
    atoiN 16 w (sign ++ s) left =
      atoiLoop 16 (left - sign.length) s true 0 >>= fun r => pure (r.1, r.2.1, signed sign r.2.2) := by
  obtain ⟨left, rfl⟩ := Nat.exists_eq_succ_of_ne_zero hleft
  rw [atoiN, isNegative, if_neg hleft]
  rcases h with rfl | ⟨rfl, hhead⟩
  · rfl
  · have hloop : ∀ x : Read (List UInt8 × ℕ × BitVec w),
        (x >>= fun r => pure (r.1, r.2.1, signed [] r.2.2)) = x := by
      rintro ⟨result, inside⟩
      cases result with
      | error message => rfl
      | ok r => rw [Read.ok_bind, Read.pure_eq, Bool.and_true]; rfl
    rw [hloop]
    cases s with
    | nil => rfl
    | cons c s =>
      have hc : c ≠ 45 := fun hc => hhead (congrArg some hc)
      simp [deref, hc]

theorem escapedNumber_full (h : Sign sign (hex ++ rest)) (hhex : ∀ c ∈ hex, IsHex c)
    (hlen : sign.length + hex.length = n) (hn : n ≠ 0) :
    escapedNumber w n (sign ++ (hex ++ rest)) =
      ⟨.ok (signed sign (BitVec.ofNat w (hexValue hex)), rest), true⟩ := by
  have hfull : atoiLoop 16 (n - sign.length) (hex ++ rest) true (0 : BitVec w) = _ :=
    Nat.sub_eq_of_eq_add (hlen.symm.trans (Nat.add_comm _ _)) ▸ atoiLoop_full hhex rest true 0
  rw [escapedNumber, atoiN_sign h hn, hfull]
  rfl

theorem escapedNumber_short (h : Sign sign (hex ++ rest)) (hhex : ∀ c ∈ hex, IsHex c)
    (hrest : ∀ c ∈ rest.head?, ¬ IsHex c) (hlen : sign.length + hex.length < n) :
    ∃ message, escapedNumber w n (sign ++ (hex ++ rest)) = ⟨.error message, decide (rest ≠ [])⟩ := by
  obtain ⟨hinside, hresult⟩ : _ ∧ ∀ s n', (atoiLoop 16 (n - sign.length) (hex ++ rest) true
      (0 : BitVec w)).result ≠ .ok (s, 0, n') :=
    atoiLoop_short (w := w) hhex hrest (Nat.lt_sub_iff_add_lt'.mpr hlen) true 0
  rw [escapedNumber, atoiN_sign h (Nat.ne_of_gt (Nat.zero_lt_of_lt hlen)), ← hinside]
  generalize atoiLoop 16 (n - sign.length) (hex ++ rest) true (0 : BitVec w) = r at hresult ⊢
  obtain ⟨result, inside⟩ := r
  cases result with
  | error message => exact ⟨message, rfl⟩
  | ok r =>
    obtain ⟨s, left, n'⟩ := r
    have hleft : left ≠ 0 := by
      rintro rfl
      exact hresult s n' rfl
    refine ⟨"cannot decode character", ?_⟩
    simp [hleft, Read.fail]

theorem exists_digits (n : ℕ) (s : List UInt8) : ∃ hex rest, s = hex ++ rest ∧
    (∀ c ∈ hex, IsHex c) ∧ (hex.length = n ∨ hex.length < n ∧ ∀ c ∈ rest.head?, ¬ IsHex c) := by
  induction n generalizing s with
  | zero => exact ⟨[], s, rfl, fun _ hc => absurd hc List.not_mem_nil, .inl rfl⟩
  | succ n ih =>
    cases s with
    | nil =>
      refine ⟨[], [], rfl, fun _ hc => absurd hc List.not_mem_nil, .inr ⟨Nat.succ_pos n, ?_⟩⟩
      rintro c ⟨⟩
    | cons c s =>
      by_cases hc : IsHex c
      · obtain ⟨hex, rest, rfl, hhex, hlen⟩ := ih s
        refine ⟨c :: hex, rest, rfl, ?_, ?_⟩
        · exact List.forall_mem_cons.mpr ⟨hc, hhex⟩
        · exact hlen.imp (congrArg Nat.succ) (And.imp_left Nat.succ_lt_succ)
      · refine ⟨[], c :: s, rfl, fun _ hc => absurd hc List.not_mem_nil, .inr ⟨Nat.succ_pos n, ?_⟩⟩
        rintro d ⟨⟩
        exact hc

end

/-! ## A piece of a text -/

/-- The number of digits of a numeric escape sequence. -/
def numericLength (e : UInt8) : Option ℕ :=
  if e = 117 then some 4 else if e = 85 then some 8 else if e = 120 then some 2 else none

def numericPiece (e : UInt8) (sign hex : List UInt8) : List UInt8 :=
  if e = 120 then [⟨signed sign (BitVec.ofNat 8 (hexValue hex))⟩]
  else utf8procEncodeChar (signed sign (BitVec.ofNat 32 (hexValue hex))).toInt

section

variable {e : UInt8} {n : ℕ} {sign hex rest s t : List UInt8}

theorem numericLength_cases (h : numericLength e = some n) :
    e = 117 ∧ n = 4 ∨ e = 85 ∧ n = 8 ∨ e = 120 ∧ n = 2 := by
  rw [numericLength] at h
  split at h
  · exact .inl ⟨‹_›, (Option.some.inj h).symm⟩
  · split at h
    · exact .inr (.inl ⟨‹_›, (Option.some.inj h).symm⟩)
    · split at h
      · exact .inr (.inr ⟨‹_›, (Option.some.inj h).symm⟩)
      · cases h

theorem numericLength_range (h : numericLength e = some n) : 2 ≤ n ∧ n ≤ 8 := by
  rcases numericLength_cases h with ⟨-, rfl⟩ | ⟨-, rfl⟩ | ⟨-, rfl⟩
  · decide
  · decide
  · decide

theorem expandCodePoint_full (h : Sign sign (hex ++ rest)) (hhex : ∀ c ∈ hex, IsHex c)
    (hlen : sign.length + hex.length = n) (hn : n ≠ 0) :
    expandCodePoint n (sign ++ (hex ++ rest)) =
      if utf8procEncodeChar (signed sign (BitVec.ofNat 32 (hexValue hex))).toInt = [] then
        .fail "cannot encode unicode code point"
      else pure (utf8procEncodeChar (signed sign (BitVec.ofNat 32 (hexValue hex))).toInt, rest) := by
  rw [expandCodePoint, escapedNumber_full h hhex hlen hn]
  rfl

theorem expandOne_full (hn : numericLength e = some n) (h : Sign sign (hex ++ rest))
    (hhex : ∀ c ∈ hex, IsHex c) (hlen : sign.length + hex.length = n) :
    expandOne 92 (e :: (sign ++ (hex ++ rest))) =
      if numericPiece e sign hex = [] then .fail "cannot encode unicode code point"
      else pure (numericPiece e sign hex, rest) := by
  have hpos : n ≠ 0 := Nat.ne_of_gt (Nat.lt_of_lt_of_le Nat.zero_lt_two (numericLength_range hn).1)
  rcases numericLength_cases hn with ⟨rfl, rfl⟩ | ⟨rfl, rfl⟩ | ⟨rfl, rfl⟩
  · exact expandCodePoint_full h hhex hlen hpos
  · exact expandCodePoint_full h hhex hlen hpos
  · have hbyte : expandOne 92 (120 :: (sign ++ (hex ++ rest))) = expandByte (sign ++ (hex ++ rest)) :=
      rfl
    rw [hbyte, expandByte, escapedNumber_full h hhex hlen hpos]
    rfl

theorem expandOne_short (hn : numericLength e = some n) (h : Sign sign (hex ++ rest))
    (hhex : ∀ c ∈ hex, IsHex c) (hrest : ∀ c ∈ rest.head?, ¬ IsHex c)
    (hlen : sign.length + hex.length < n) :
    ∃ message, expandOne 92 (e :: (sign ++ (hex ++ rest))) =
      ⟨.error message, decide (rest ≠ [])⟩ := by
  have hcode : ∃ message, expandCodePoint n (sign ++ (hex ++ rest)) =
      ⟨.error message, decide (rest ≠ [])⟩ := by
    obtain ⟨message, hnumber⟩ := escapedNumber_short (w := 32) h hhex hrest hlen
    exact ⟨message, by rw [expandCodePoint, hnumber]; rfl⟩
  rcases numericLength_cases hn with ⟨rfl, rfl⟩ | ⟨rfl, rfl⟩ | ⟨rfl, rfl⟩
  · exact hcode
  · exact hcode
  · obtain ⟨message, hnumber⟩ := escapedNumber_short (w := 8) h hhex hrest hlen
    refine ⟨message, ?_⟩
    have hbyte : expandOne 92 (120 :: (sign ++ (hex ++ rest))) = expandByte (sign ++ (hex ++ rest)) :=
      rfl
    rw [hbyte, expandByte, hnumber]
    rfl

theorem utf8procEncodeChar_eq_nil (uc : ℤ) :
    utf8procEncodeChar uc = [] ↔ uc < 0 ∨ 0x110000 ≤ uc := by
  rw [utf8procEncodeChar]
  split
  · exact ⟨fun _ => .inl ‹_›, fun _ => rfl⟩
  · dsimp only
    repeat' split
    all_goals simp
    all_goals omega

theorem toInt_ofNat {v : ℕ} (h : v < 2 ^ 32) :
    (BitVec.ofNat 32 v).toInt = if v < 2 ^ 31 then (v : ℤ) else v - 2 ^ 32 := by
  rw [BitVec.toInt_eq_toNat_cond, BitVec.toNat_ofNat, Nat.mod_eq_of_lt h]
  split
  · rw [if_pos (by omega)]
  · rw [if_neg (by omega)]
    rfl

theorem numericPiece_eq_nil (hn : numericLength e = some n) (h : Sign sign s)
    (hlen : sign.length + hex.length = n) : numericPiece e sign hex = [] ↔
      e ≠ 120 ∧ (sign = [] ∧ 0x110000 ≤ hexValue hex ∨ sign = [45] ∧ hexValue hex ≠ 0) := by
  rw [numericPiece]
  by_cases he : e = 120
  · rw [if_pos he]
    simp [he]
  · rw [if_neg he, utf8procEncodeChar_eq_nil]
    have hrange := (numericLength_range hn).2
    have hlt := hexValue_lt hex
    rcases h with rfl | ⟨rfl, -⟩
    · have hbound : hexValue hex < 16 ^ 7 := by
        apply Nat.lt_of_lt_of_le hlt
        apply Nat.pow_le_pow_right (by decide)
        rw [List.length_singleton] at hlen
        omega
      have hvalue : (signed [45] (BitVec.ofNat 32 (hexValue hex))).toInt = -(hexValue hex : ℤ) := by
        rw [signed, if_neg (List.cons_ne_nil _ _), BitVec.toInt_neg, toInt_ofNat (by omega),
          if_pos (by omega), Int.bmod_def]
        omega
      rw [hvalue]
      simp only [he, not_false_eq_true, ne_eq, List.cons_ne_nil, false_and, true_and, false_or]
      omega
    · have hbound : hexValue hex < 16 ^ 8 := by
        apply Nat.lt_of_lt_of_le hlt
        apply Nat.pow_le_pow_right (by decide)
        rw [List.length_nil] at hlen
        omega
      rw [signed, if_pos rfl, toInt_ofNat (by omega)]
      simp only [he, not_false_eq_true, ne_eq, true_and, List.nil_eq, List.cons_ne_nil, false_and,
        or_false]
      split
      · omega
      · omega

end

theorem expandEscapes_ok {b : UInt8} {c piece rest : List UInt8} {inside : Bool}
    (h : expandOne b c = ⟨.ok (piece, rest), inside⟩) :
    expandEscapes (b :: c) = ⟨(expandEscapes rest).result.map (piece ++ ·),
      inside && (expandEscapes rest).inside⟩ := by
  rw [expandEscapes]
  split
  · rename_i message herror
    rw [h] at herror
    cases herror
  · rename_i piece' rest' hok
    rw [h] at hok
    cases hok
    rw [h]

theorem expandEscapes_error {b : UInt8} {c : List UInt8} {message : String} {inside : Bool}
    (h : expandOne b c = ⟨.error message, inside⟩) :
    expandEscapes (b :: c) = ⟨.error message, inside⟩ := by
  rw [expandEscapes]
  split
  · rename_i message' herror
    rw [h] at herror
    cases herror
    rw [h]
  · rename_i piece' rest' hok
    rw [h] at hok
    cases hok

/-! ## Total and bounded -/

/-- The loop of `expandEscapes` comes from one rest of a text to another. -/
inductive Reaches : List UInt8 → List UInt8 → Prop
  | refl (s : List UInt8) : Reaches s s
  | step {b : UInt8} {c piece rest t : List UInt8} :
    (expandOne b c).result = .ok (piece, rest) → Reaches rest t → Reaches (b :: c) t

/-- Numeric escape sequences are accepted only with exactly as many hexadecimal digits. -/
def Exact (s : List UInt8) : Prop :=
  ∀ e n t, Reaches s (92 :: e :: t) → numericLength e = some n →
    ∀ piece rest, (expandOne 92 (e :: t)).result = .ok (piece, rest) →
      ∃ hex, t = hex ++ rest ∧ hex.length = n ∧ ∀ c ∈ hex, IsHex c

/-- Nothing is read behind the text, and no other escape sequences are accepted. -/
def Bounded (s : List UInt8) : Prop :=
  (expandEscapes s).inside = true ∧ Exact s

/-- What `expandEscapes` takes in one round. -/
inductive Piece : List UInt8 → Prop
  | plain {b : UInt8} : b ≠ 92 → Piece [b]
  | short {e d : UInt8} : shortEscape e = some d → Piece [92, e]
  | numeric {e : UInt8} {hex : List UInt8} : numericLength e = some hex.length →
    (∀ c ∈ hex, IsHex c) → (e ≠ 120 → hexValue hex < 0x110000) → Piece (92 :: e :: hex)

/-- Behind some pieces there is a numeric escape sequence that the end of the text cuts off, or one
with a minus sign: any `\x`, and `\u` or `\U` for zero. -/
inductive Broken : List UInt8 → Prop
  | behind {p s : List UInt8} : Piece p → Broken s → Broken (p ++ s)
  | cut {e : UInt8} {n : ℕ} {sign hex : List UInt8} : numericLength e = some n →
    sign = [] ∨ sign = [45] → (∀ c ∈ hex, IsHex c) → sign.length + hex.length < n →
    Broken (92 :: e :: (sign ++ hex))
  | minus {e : UInt8} {hex s : List UInt8} : numericLength e = some (hex.length + 1) →
    (∀ c ∈ hex, IsHex c) → (e ≠ 120 → hexValue hex = 0) → Broken (92 :: e :: 45 :: (hex ++ s))

section

variable {e b : UInt8} {c p s t hex : List UInt8}

theorem sign_nil (hhex : ∀ c ∈ hex, IsHex c) (h : hex ≠ [] ∨ s.head? ≠ some 45) :
    Sign [] (hex ++ s) := by
  refine .inr ⟨rfl, ?_⟩
  cases hex with
  | nil => exact h.resolve_left fun h => h rfl
  | cons c hex =>
    intro hc
    exact not_isHex_minus (Option.some.inj hc ▸ hhex c List.mem_cons_self)

theorem shortEscape_numericLength (h : shortEscape e = some b) : numericLength e = none := by
  have hcases : ∀ n, numericLength e ≠ some n := by
    intro n hn
    rcases numericLength_cases hn with ⟨rfl, -⟩ | ⟨rfl, -⟩ | ⟨rfl, -⟩
    · cases h
    · cases h
    · cases h
  exact Option.eq_none_iff_forall_ne_some.mpr hcases

theorem expandOne_short_escape {d : UInt8} (h : shortEscape e = some d) (s : List UInt8) :
    expandOne 92 (e :: s) = ⟨.ok ([d], s), true⟩ := by
  have hone : expandOne 92 (e :: s) = expandEscape (e :: s) := rfl
  rw [hone, expandEscape, h]
  rfl

theorem expandOne_unknown (hshort : shortEscape e = none) (hn : numericLength e = none)
    (t : List UInt8) : expandOne 92 (e :: t) = .fail "unknown escape sequence" := by
  have hne : e ≠ 117 ∧ e ≠ 85 ∧ e ≠ 120 := by
    refine ⟨?_, ?_, ?_⟩
    · rintro rfl
      cases hn
    · rintro rfl
      cases hn
    · rintro rfl
      cases hn
  have hone : expandOne 92 (e :: t) = expandEscape (e :: t) := rfl
  rw [hone, expandEscape, hshort]
  dsimp only
  rw [if_neg hne.1, if_neg hne.2.1, if_neg hne.2.2]

theorem Piece.expandOne (hp : Piece p) (s : List UInt8) :
    ∃ b c d, p ++ s = b :: c ∧ expandOne b c = ⟨.ok (d, s), true⟩ := by
  cases hp with
  | plain hb => exact ⟨_, s, _, rfl, by rw [Util.expandOne, if_pos hb]; rfl⟩
  | short hd => exact ⟨92, _, _, rfl, expandOne_short_escape hd s⟩
  | @numeric e hex hn hhex hcode =>
    have hpos : hex ≠ [] := by
      rintro rfl
      exact absurd (numericLength_range hn).1 (by decide)
    have hsign : Sign [] (hex ++ s) := sign_nil hhex (.inl hpos)
    have hfull := expandOne_full hn hsign hhex (Nat.zero_add _)
    have hnil := numericPiece_eq_nil hn hsign (Nat.zero_add hex.length)
    refine ⟨92, _, numericPiece e [] hex, rfl, hfull.trans (if_neg ?_)⟩
    rw [hnil]
    rintro ⟨he, ⟨-, hge⟩ | ⟨hsign, -⟩⟩
    · exact Nat.not_le.mpr (hcode he) hge
    · cases hsign

theorem bounded_rest {d : List UInt8} (hone : expandOne b c = ⟨.ok (d, s), true⟩)
    (h : Bounded (b :: c)) : Bounded s := by
  obtain ⟨hinside, hexact⟩ := h
  rw [expandEscapes_ok hone, Bool.true_and] at hinside
  have hok : (expandOne b c).result = .ok (d, s) := congrArg Read.result hone
  exact ⟨hinside, fun e n t hreach => hexact e n t (.step hok hreach)⟩

theorem not_bounded (h : Broken s) : ¬ Bounded s := by
  induction h with
  | behind hp _ ih =>
    obtain ⟨b, c, d, heq, hone⟩ := hp.expandOne _
    rw [heq]
    exact fun hbounded => ih (bounded_rest hone hbounded)
  | @cut e n sign hex hn hsigns hhex hlen =>
    rintro ⟨hinside, -⟩
    have hsign : Sign sign (hex ++ []) := by
      rcases hsigns with rfl | rfl
      · exact sign_nil hhex (.inr (by decide))
      · exact .inl rfl
    obtain ⟨message, hshort⟩ := expandOne_short hn hsign hhex (by rintro c ⟨⟩) hlen
    rw [List.append_nil] at hshort
    rw [expandEscapes_error hshort] at hinside
    cases hinside
  | @minus e hex s hn hhex hzero =>
    rintro ⟨-, hexact⟩
    have hsign : Sign [45] (hex ++ s) := .inl rfl
    have hlen : [(45 : UInt8)].length + hex.length = hex.length + 1 := Nat.add_comm _ _
    have hfull := expandOne_full hn hsign hhex hlen
    rw [if_neg] at hfull
    · obtain ⟨digits, heq, hdigits, hall⟩ := hexact e _ _ (.refl _) hn _ _
        (congrArg Read.result hfull)
      cases digits with
      | nil => cases hdigits
      | cons c digits =>
        obtain ⟨rfl, -⟩ := List.cons.inj heq
        exact not_isHex_minus (hall _ List.mem_cons_self)
    · rw [numericPiece_eq_nil hn hsign hlen]
      rintro ⟨he, ⟨hnil, -⟩ | ⟨-, hne⟩⟩
      · cases hnil
      · exact hne (hzero he)

theorem expandOne_cases (h : ¬ Broken (b :: c)) :
    (∃ p d s, Piece p ∧ b :: c = p ++ s ∧ expandOne b c = ⟨.ok (d, s), true⟩) ∨
      ∃ message, expandOne b c = ⟨.error message, true⟩ := by
  have hpiece : ∀ p s, Piece p → b :: c = p ++ s →
      ∃ p d s, Piece p ∧ b :: c = p ++ s ∧ expandOne b c = ⟨.ok (d, s), true⟩ := by
    intro p s hp heq
    obtain ⟨b', c', d, heq', hone⟩ := hp.expandOne s
    obtain ⟨rfl, rfl⟩ := List.cons.inj (heq.trans heq')
    exact ⟨p, d, s, hp, heq, hone⟩
  by_cases hb : b = 92
  · subst hb
    cases c with
    | nil => exact .inr ⟨_, rfl⟩
    | cons e t =>
      cases hshort : shortEscape e with
      | some d => exact .inl (hpiece [92, e] t (.short hshort) rfl)
      | none =>
        cases hn : numericLength e with
        | none => exact .inr ⟨_, expandOne_unknown hshort hn t⟩
        | some n =>
          obtain ⟨sign, t, rfl, hsign⟩ := exists_sign t
          obtain ⟨hex, rest, rfl, hhex, hlen⟩ := exists_digits (n - sign.length) t
          have hle := hsign.length_le
          have hrange := numericLength_range hn
          rcases hlen with hlen | ⟨hlen, hrest⟩
          · have hlen : sign.length + hex.length = n := by omega
            have hfull := expandOne_full hn hsign hhex hlen
            by_cases hnil : numericPiece e sign hex = []
            · rw [if_pos hnil] at hfull
              exact .inr ⟨_, hfull⟩
            · rw [numericPiece_eq_nil hn hsign hlen] at hnil
              rcases hsign with rfl | ⟨rfl, -⟩
              · refine absurd (Broken.minus (s := rest) ?_ hhex fun he => ?_) h
                · rw [hn, ← hlen]
                  exact congrArg some (Nat.add_comm _ _)
                · by_contra hne
                  exact hnil ⟨he, .inr ⟨rfl, hne⟩⟩
              · rw [List.length_nil, Nat.zero_add] at hlen
                refine .inl (hpiece _ rest (.numeric (hn.trans (congrArg some hlen.symm)) hhex
                  fun he => ?_) rfl)
                by_contra hge
                exact hnil ⟨he, .inl ⟨rfl, Nat.not_lt.mp hge⟩⟩
          · obtain ⟨message, hone⟩ := expandOne_short hn hsign hhex hrest (by omega)
            by_cases hnil : rest = []
            · subst hnil
              rw [List.append_nil] at h
              refine absurd (Broken.cut hn ?_ hhex (by omega)) h
              exact hsign.symm.imp_left And.left
            · rw [decide_eq_true hnil] at hone
              exact .inr ⟨message, hone⟩
  · exact .inl (hpiece [b] c (.plain hb) rfl)

theorem bounded_of_not_broken (s : List UInt8) (h : ¬ Broken s) : Bounded s := by
  cases s with
  | nil =>
    refine ⟨by rw [expandEscapes]; rfl, fun e n t hreach => ?_⟩
    cases hreach
  | cons b c =>
    rcases expandOne_cases h with ⟨p, d, s, hp, heq, hone⟩ | ⟨message, hone⟩
    · have hlt : s.length < (b :: c).length :=
        Nat.lt_succ_of_le (expandOne_length (congrArg Read.result hone))
      have hrest : Bounded s := bounded_of_not_broken s fun hs => h (heq ▸ .behind hp hs)
      refine ⟨by rw [expandEscapes_ok hone]; exact hrest.1, fun e n t hreach hn piece rest hok => ?_⟩
      cases hreach with
      | refl =>
        cases hp with
        | plain hb => exact absurd (List.cons.inj heq).1.symm hb
        | short hd =>
          obtain ⟨-, htail⟩ := List.cons.inj heq
          obtain ⟨rfl, -⟩ := List.cons.inj htail
          rw [shortEscape_numericLength hd] at hn
          cases hn
        | @numeric e' hex hn' hhex _ =>
          obtain ⟨-, htail⟩ := List.cons.inj heq
          obtain ⟨rfl, rfl⟩ := List.cons.inj htail
          rw [hone] at hok
          cases hok
          exact ⟨hex, rfl, Option.some.inj (hn'.symm.trans hn), hhex⟩
      | step hone' hreach =>
        rw [hone] at hone'
        cases hone'
        exact hrest.2 e n t hreach hn piece rest hok
    · refine ⟨by rw [expandEscapes_error hone], fun e n t hreach hn piece rest hok => ?_⟩
      cases hreach with
      | refl =>
        rw [hone] at hok
        cases hok
      | step hone' _ =>
        rw [hone] at hone'
        cases hone'
termination_by s.length

end

/-- **Expanding stays inside of a text and accepts only complete escape sequences exactly if the
text is not broken.** -/
theorem bounded_iff (s : List UInt8) : Bounded s ↔ ¬ Broken s :=
  ⟨fun h hbroken => not_bounded hbroken h, bounded_of_not_broken s⟩

/-- The text `\x-1` is accepted. -/
theorem minus_not_bounded : ¬ Bounded [92, 120, 45, 49] := by
  rintro ⟨-, hexact⟩
  obtain ⟨hex, heq, -, hhex⟩ := hexact 120 2 [45, 49] (.refl _) rfl [255] [] (by decide)
  rw [List.append_nil] at heq
  exact absurd (hhex 45 (heq ▸ List.mem_cons_self)) (by decide)

end Hilti.Util
