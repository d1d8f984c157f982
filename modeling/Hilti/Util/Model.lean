import Mathlib.Data.Nat.Notation
import Mathlib.Data.Int.Notation
import Hilti.Strings.Model

/-!
# Escape sequences (`util/util.cc`)

The model of `expandEscapes`, `escapeUTF8` and `escapeBytes`, with `atoi_n` and
`utf8proc_encode_char`.  A text is a list of bytes, and an iterator what is left of it.  Behind its
last byte there is the NUL that a `std::string` keeps; a result says whether all the bytes that were
read stand before that.  Bytes are printable as in the C locale.  Arithmetic on signed numbers wraps
around.
-/

namespace Hilti.Util

open Hilti.Strings

set_option autoImplicit false

/-! ## Reading -/

/-- A result, or the message of a `std::runtime_error`, and whether only bytes of the text have been
read. -/
structure Read (α : Type) where
  result : Except String α
  inside : Bool
  deriving DecidableEq

namespace Read

variable {α β : Type}

def fail (message : String) : Read α :=
  ⟨.error message, true⟩

def bind (x : Read α) (f : α → Read β) : Read β :=
  match x.result with
  | .ok a => ⟨(f a).result, x.inside && (f a).inside⟩
  | .error message => ⟨.error message, x.inside⟩

instance : Monad Read where
  pure a := ⟨.ok a, true⟩
  bind := bind

@[simp] theorem pure_eq (a : α) : (pure a : Read α) = ⟨.ok a, true⟩ := rfl

@[simp] theorem ok_bind (a : α) (inside : Bool) (f : α → Read β) :
    (⟨.ok a, inside⟩ : Read α) >>= f = ⟨(f a).result, inside && (f a).inside⟩ := rfl

@[simp] theorem error_bind (message : String) (inside : Bool) (f : α → Read β) :
    (⟨.error message, inside⟩ : Read α) >>= f = ⟨.error message, inside⟩ := rfl

end Read

/-- `*s`. -/
def deref : List UInt8 → Read UInt8
  | [] => ⟨.ok 0, false⟩
  | c :: _ => ⟨.ok c, true⟩

/-! ## Numbers -/

/-- The value of a digit in `atoi_n`. -/
def digit (base : ℕ) (c : UInt8) : Option ℕ :=
  if 48 ≤ c.toNat ∧ c.toNat ≤ 57 then some (c.toNat - 48)
  else if 97 ≤ c.toNat ∧ c.toNat < 97 - 10 + base then some (c.toNat - 97 + 10)
  else if 65 ≤ c.toNat ∧ c.toNat < 65 - 10 + base then some (c.toNat - 65 + 10)
  else none

/-- The loop of `atoi_n`, with `left` the distance from `s` to `e`. -/
def atoiLoop (base : ℕ) {w : ℕ} : ℕ → List UInt8 → Bool → BitVec w →
    Read (List UInt8 × ℕ × BitVec w)
  | 0, s, _, n => pure (s, 0, n)
  | left + 1, s, first, n => do
    let c ← deref s
    match digit base c with
    | some d => atoiLoop base left s.tail false (n * BitVec.ofNat w base + BitVec.ofNat w d)
    | none => if first then .fail "cannot decode number" else pure (s, left + 1, n)

/-- The condition `s != e && *s == '-'`, for an `e` that is `left` behind `s`. -/
def isNegative (s : List UInt8) (left : ℕ) : Read Bool :=
  if left = 0 then pure false else (deref s >>= fun c => pure (decide (c = 45)))

/-- `atoi_n`, for an `e` that is `left` behind `s`: where it stops, how far that is from `e`, and
the number. -/
def atoiN (base : ℕ) (w : ℕ) (s : List UInt8) (left : ℕ) : Read (List UInt8 × ℕ × BitVec w) := do
  let neg ← isNegative s left
  if neg then do
    let (s, left, n) ← atoiLoop base (left - 1) s.tail true 0
    pure (s, left, -n)
  else atoiLoop base left s true 0

/-- `utf8proc_encode_char`: the bytes that it writes. -/
def utf8procEncodeChar (uc : ℤ) : List UInt8 :=
  if uc < 0 then []
  else
    let uc := uc.toNat
    if uc < 0x80 then [UInt8.ofNat uc]
    else if uc < 0x800 then [UInt8.ofNat (0xC0 + uc / 2 ^ 6), UInt8.ofNat (0x80 + uc % 0x40)]
    else if uc = 0xFFFF then [0xFF]
    else if uc = 0xFFFE then [0xFE]
    else if uc < 0x10000 then
      [UInt8.ofNat (0xE0 + uc / 2 ^ 12), UInt8.ofNat (0x80 + uc / 2 ^ 6 % 0x40),
        UInt8.ofNat (0x80 + uc % 0x40)]
    else if uc < 0x110000 then
      [UInt8.ofNat (0xF0 + uc / 2 ^ 18), UInt8.ofNat (0x80 + uc / 2 ^ 12 % 0x40),
        UInt8.ofNat (0x80 + uc / 2 ^ 6 % 0x40), UInt8.ofNat (0x80 + uc % 0x40)]
    else []

/-! ## Expanding -/

/-- The number of `n` digits behind `\u`, `\U` and `\x`, and what is left behind it. -/
def escapedNumber (w n : ℕ) (c : List UInt8) : Read (BitVec w × List UInt8) := do
  let (c, left, val) ← atoiN 16 w c n
  if left ≠ 0 then .fail "cannot decode character" else pure (val, c)

/-- The cases of `\u` and `\U`. -/
def expandCodePoint (n : ℕ) (c : List UInt8) : Read (List UInt8 × List UInt8) := do
  let (val, c) ← escapedNumber 32 n c
  let tmp := utf8procEncodeChar val.toInt
  if tmp = [] then .fail "cannot encode unicode code point" else pure (tmp, c)

/-- The case of `\x`. -/
def expandByte (c : List UInt8) : Read (List UInt8 × List UInt8) := do
  let (val, c) ← escapedNumber 8 2 c
  pure ([⟨val⟩], c)

/-- The byte for one of `\\`, `\"`, `\n`, `\r` and `\t`. -/
def shortEscape (e : UInt8) : Option UInt8 :=
  if e = 92 then some 92
  else if e = 34 then some 34
  else if e = 110 then some 10
  else if e = 114 then some 13
  else if e = 116 then some 9
  else none

/-- What stands behind a backslash: the bytes that are added, and what is left. -/
def expandEscape : List UInt8 → Read (List UInt8 × List UInt8)
  | [] => .fail "broken escape sequence"
  | e :: c =>
    match shortEscape e with
    | some d => pure ([d], c)
    | none =>
      if e = 117 then expandCodePoint 4 c
      else if e = 85 then expandCodePoint 8 c
      else if e = 120 then expandByte c
      else .fail "unknown escape sequence"

/-- A round of the loop of `expandEscapes`, at the byte `b`. -/
def expandOne (b : UInt8) (c : List UInt8) : Read (List UInt8 × List UInt8) :=
  if b ≠ 92 then pure ([b], c) else expandEscape c

/-! ### What is left is shorter -/

theorem atoiLoop_length {base w : ℕ} : ∀ {left : ℕ} {s : List UInt8} {first : Bool} {n : BitVec w}
    {s' : List UInt8} {left' : ℕ} {n' : BitVec w},
    (atoiLoop base left s first n).result = .ok (s', left', n') → s'.length ≤ s.length
  | 0, s, first, n, s', left', n', h => by
    cases h
    exact Nat.le_refl _
  | left + 1, s, first, n, s', left', n', h => by
    obtain ⟨c, hc⟩ : ∃ c, (deref s).result = .ok c := by
      cases s with
      | nil => exact ⟨0, rfl⟩
      | cons c s => exact ⟨c, rfl⟩
    change (Read.bind (deref s) _).result = _ at h
    rw [Read.bind, hc] at h
    dsimp only at h
    cases hd : digit base c with
    | some d =>
      rw [hd] at h
      have hle := atoiLoop_length h
      rw [List.length_tail] at hle
      omega
    | none =>
      rw [hd] at h
      cases first with
      | true => cases h
      | false =>
        cases h
        exact Nat.le_refl _

theorem Read.bind_ok {α β : Type} {x : Read α} {f : α → Read β} {b : β}
    (h : (x >>= f).result = .ok b) : ∃ a, x.result = .ok a ∧ (f a).result = .ok b := by
  obtain ⟨result, inside⟩ := x
  cases result with
  | error message => cases h
  | ok a => exact ⟨a, rfl, h⟩

theorem atoiN_length {base w : ℕ} {s s' : List UInt8} {left left' : ℕ} {n : BitVec w}
    (h : (atoiN base w s left).result = .ok (s', left', n)) : s'.length ≤ s.length := by
  rw [atoiN] at h
  obtain ⟨neg, -, h⟩ := Read.bind_ok h
  cases neg with
  | false => exact atoiLoop_length h
  | true =>
    obtain ⟨⟨s₁, left₁, n₁⟩, hloop, h⟩ := Read.bind_ok h
    cases h
    have hle := atoiLoop_length hloop
    rw [List.length_tail] at hle
    omega

theorem escapedNumber_length {w n : ℕ} {c c' : List UInt8} {val : BitVec w}
    (h : (escapedNumber w n c).result = .ok (val, c')) : c'.length ≤ c.length := by
  obtain ⟨⟨s₁, left₁, n₁⟩, hatoi, h⟩ := Read.bind_ok h
  dsimp only at h
  by_cases hleft : left₁ ≠ 0
  · rw [if_pos hleft] at h
    cases h
  · rw [if_neg hleft] at h
    cases h
    exact atoiN_length hatoi

theorem expandCodePoint_length {n : ℕ} {c c' piece : List UInt8}
    (h : (expandCodePoint n c).result = .ok (piece, c')) : c'.length ≤ c.length := by
  obtain ⟨⟨val, c₁⟩, hnumber, h⟩ := Read.bind_ok h
  dsimp only at h
  by_cases htmp : utf8procEncodeChar val.toInt = []
  · rw [if_pos htmp] at h
    cases h
  · rw [if_neg htmp] at h
    cases h
    exact escapedNumber_length hnumber

theorem expandByte_length {c c' piece : List UInt8}
    (h : (expandByte c).result = .ok (piece, c')) : c'.length ≤ c.length := by
  obtain ⟨⟨val, c₁⟩, hnumber, h⟩ := Read.bind_ok h
  cases h
  exact escapedNumber_length hnumber

theorem expandOne_length {b : UInt8} {c c' piece : List UInt8}
    (h : (expandOne b c).result = .ok (piece, c')) : c'.length ≤ c.length := by
  rw [expandOne] at h
  split at h
  · cases h
    exact Nat.le_refl _
  · match c with
    | [] => cases h
    | e :: c =>
      rw [expandEscape] at h
      apply Nat.le_succ_of_le
      cases hshort : shortEscape e with
      | some d =>
        rw [hshort] at h
        cases h
        exact Nat.le_refl _
      | none =>
        rw [hshort] at h
        dsimp only at h
        split at h
        · exact expandCodePoint_length h
        · split at h
          · exact expandCodePoint_length h
          · split at h
            · exact expandByte_length h
            · cases h

/-- `expandEscapes`. -/
def expandEscapes : List UInt8 → Read (List UInt8)
  | [] => pure []
  | b :: c =>
    match _h : (expandOne b c).result with
    | .error message => ⟨.error message, (expandOne b c).inside⟩
    | .ok (piece, rest) =>
      ⟨(expandEscapes rest).result.map (piece ++ ·),
        (expandOne b c).inside && (expandEscapes rest).inside⟩
termination_by s => s.length
decreasing_by
  all_goals exact Nat.lt_succ_of_le (expandOne_length ‹_›)

/-! ## Escaping -/

/-- `isprint`. -/
def isprint (c : UInt8) : Bool :=
  32 ≤ c.toNat ∧ c.toNat ≤ 126

/-- A hexadecimal digit of `printf`. -/
def hexDigit (d : ℕ) : UInt8 :=
  UInt8.ofNat (if d < 10 then 48 + d else 87 + d)

/-- What `printf` makes of `%0*x`, for a number that does not need more digits. -/
def hexDigits : ℕ → ℕ → List UInt8
  | 0, _ => []
  | width + 1, n => hexDigits width (n / 16) ++ [hexDigit (n % 16)]

/-- What `escapeUTF8` adds for a code point. -/
def escapeCodePoint (cp : ℕ) : List UInt8 :=
  if cp = 92 then [92, 92]
  else if cp = 34 then [92, 34]
  else if cp = 10 then [92, 110]
  else if cp = 13 then [92, 114]
  else if cp = 9 then [92, 116]
  else if cp ≥ 65536 then [92, 85] ++ hexDigits 8 cp
  else if ! isprint (UInt8.ofNat cp) then [92, 117] ++ hexDigits 4 cp
  else [UInt8.ofNat cp]

/-- The text `<illegal UTF8 sequence>`. -/
def illegalSequence : List UInt8 :=
  "<illegal UTF8 sequence>".toList.map fun c => UInt8.ofNat c.toNat

/-- The loop of `escapeUTF8`.  No character has less than one byte. -/
def escapeLoop : ℕ → List UInt8 → Option (List UInt8)
  | _, [] => some []
  | 0, _ :: _ => none
  | fuel + 1, b :: p => do
    let (n, cp) ← utf8procIterate (b :: p) (b :: p).length
    if n < 0 then some illegalSequence
    else (escapeLoop fuel ((b :: p).drop n.toNat)).map fun esc => escapeCodePoint cp.toNat ++ esc

/-- `escapeUTF8`. -/
def escapeUTF8 (s : List UInt8) : Option (List UInt8) :=
  escapeLoop s.length s

/-- What `escapeBytes` adds for a byte. -/
def escapeByte (c : UInt8) : List UInt8 :=
  if c = 92 then [92, 92]
  else if c = 34 then [92, 34]
  else if c = 10 then [92, 110]
  else if c = 13 then [92, 114]
  else if c = 9 then [92, 116]
  else if isprint c then [c]
  else [92, 120] ++ hexDigits 2 c.toNat

/-- `escapeBytes`. -/
def escapeBytes (s : List UInt8) : List UInt8 :=
  s.flatMap escapeByte

end Hilti.Util
