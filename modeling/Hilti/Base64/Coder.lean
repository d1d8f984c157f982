import Mathlib.Data.List.Basic
import Mathlib.Data.Int.Notation

/-!
# Base64, piece by piece

The model of the two halves of libb64 (`cencode.c`, `cdecode.c`).  Each keeps its state between
blocks, so that the pieces of an encoding can be cut anywhere.  What is decoded lags behind what has
been encoded by at most one byte.
-/

namespace Hilti.Base64

set_option autoImplicit false

abbrev Data := List UInt8

/-! ## Encoding -/

inductive EncodeStep where
  | A
  | B
  | C
  deriving DecidableEq

/-- `base64_encodestate`. -/
structure EncodeState where
  step : EncodeStep
  result : UInt8
  stepcount : ℕ
  deriving DecidableEq

/-- `base64_init_encodestate`. -/
def initEncodeState : EncodeState :=
  ⟨.A, 0, 0⟩

/-- `base64_encode_value`. -/
def encodeValue (value : UInt8) : UInt8 :=
  if value > 63 then 61
  else if value < 26 then 65 + value
  else if value < 52 then 97 + (value - 26)
  else if value < 62 then 48 + (value - 52)
  else if value = 62 then 43
  else 47

/-- `base64_encode_block` for one byte: what is written, and the state. -/
def encodeByte (s : EncodeState) (fragment : UInt8) : Data × EncodeState :=
  match s.step with
  | .A => ([encodeValue ((fragment &&& 0xfc) >>> 2)], ⟨.B, (fragment &&& 0x03) <<< 4, s.stepcount⟩)
  | .B => ([encodeValue (s.result ||| (fragment &&& 0xf0) >>> 4)],
      ⟨.C, (fragment &&& 0x0f) <<< 2, s.stepcount⟩)
  | .C =>
    let out := [encodeValue (s.result ||| (fragment &&& 0xc0) >>> 6), encodeValue (fragment &&& 0x3f)]
    if s.stepcount + 1 = 18 then (out ++ [10], ⟨.A, fragment &&& 0x3f, 0⟩)
    else (out, ⟨.A, fragment &&& 0x3f, s.stepcount + 1⟩)

/-- `base64_encode_block`. -/
def encodeBlock (s : EncodeState) : Data → Data × EncodeState
  | [] => ([], s)
  | x :: xs =>
    let (out, s) := encodeByte s x
    let (rest, s) := encodeBlock s xs
    (out ++ rest, s)

/-- `base64_encode_blockend`. -/
def encodeBlockend (s : EncodeState) : Data :=
  match s.step with
  | .A => [10]
  | .B => [encodeValue s.result, 61, 61, 10]
  | .C => [encodeValue s.result, 61, 10]

/-! ## Decoding -/

inductive DecodeStep where
  | a
  | b
  | c
  | d
  deriving DecidableEq

/-- `base64_decodestate`.  Behind a complete byte `plainchar` is not set, and not used. -/
structure DecodeState where
  step : DecodeStep
  plainchar : UInt8
  deriving DecidableEq

/-- `base64_init_decodestate`. -/
def initDecodeState : DecodeState :=
  ⟨.a, 0⟩

/-- The table `decoding`. -/
def decoding (i : ℕ) : ℤ :=
  if i = 0 then 62
  else if i = 4 then 63
  else if 5 ≤ i ∧ i < 15 then i + 47
  else if i = 18 then -2
  else if 22 ≤ i ∧ i < 48 then i - 22
  else if 54 ≤ i then i - 28
  else -1

/-- `base64_decode_value`.  There is no result for the character behind the end of the table. -/
def decodeValue (value : UInt8) : Option ℤ :=
  let value := value - 43
  if value ≥ 128 ∨ value > 80 then some (-1)
  else if value = 80 then none
  else some (decoding value.toNat)

/-- `base64_decode_block` for one value that counts. -/
def decodeFragment (s : DecodeState) (fragment : UInt8) : Data × DecodeState :=
  match s.step with
  | .a => ([], ⟨.b, (fragment &&& 0x3f) <<< 2⟩)
  | .b => ([s.plainchar ||| (fragment &&& 0x30) >>> 4], ⟨.c, (fragment &&& 0x0f) <<< 4⟩)
  | .c => ([s.plainchar ||| (fragment &&& 0x3c) >>> 2], ⟨.d, (fragment &&& 0x03) <<< 6⟩)
  | .d => ([s.plainchar ||| (fragment &&& 0x3f)], ⟨.a, 0⟩)

/-- `base64_decode_block`. -/
def decodeBlock (s : DecodeState) : Data → Option (Data × DecodeState)
  | [] => some ([], s)
  | x :: xs => do
    let value ← decodeValue x
    if value < 0 then decodeBlock s xs
    else
      let (out, s) := decodeFragment s value.toNat.toUInt8
      let (rest, s) ← decodeBlock s xs
      some (out ++ rest, s)

/-! ## Bits -/

theorem forall_byte {P : UInt8 → Prop} (h : ∀ v : BitVec 8, P ⟨v⟩) (x : UInt8) : P x :=
  h x.toBitVec

theorem decodeValue_encodeValue :
    ∀ v : UInt8, v < 64 → decodeValue (encodeValue v) = some (Int.ofNat v.toNat) := by
  apply forall_byte
  decide

theorem first_lt : ∀ x : UInt8, (x &&& 0xfc) >>> 2 < 64 := by
  apply forall_byte
  decide

theorem last_lt : ∀ x : UInt8, x &&& 0x3f < 64 := by
  apply forall_byte
  decide

theorem or_lt {x y : UInt8} (hx : x < 64) (hy : y < 64) : x ||| y < 64 := by
  rw [UInt8.lt_iff_toNat_lt, UInt8.toNat_or]
  exact Nat.or_lt_two_pow (n := 6) (UInt8.lt_iff_toNat_lt.mp hx) (UInt8.lt_iff_toNat_lt.mp hy)

theorem and_or_right (x y z : UInt8) : (x ||| y) &&& z = (x &&& z) ||| (y &&& z) := by
  apply UInt8.toNat_inj.mp
  rw [UInt8.toNat_and, UInt8.toNat_or, UInt8.toNat_or, UInt8.toNat_and, UInt8.toNat_and]
  exact Nat.and_or_distrib_right _ _ _

/-! ### The value across two bytes

`y` is the byte that is not complete yet, and `x` the next one. -/

theorem high_six (x : UInt8) : (((x &&& 0xfc) >>> 2) &&& 0x3f) <<< 2 = x &&& 0xfc := by
  revert x
  apply forall_byte
  decide

theorem second_lt (y x : UInt8) : (y &&& 0x03) <<< 4 ||| (x &&& 0xf0) >>> 4 < 64 := by
  refine or_lt ?_ ?_
  · revert y
    apply forall_byte
    decide
  · revert x
    apply forall_byte
    decide

theorem second_out (y x : UInt8) :
    (y &&& (0xfc : UInt8)) ||| (((y &&& 0x03) <<< 4 ||| (x &&& 0xf0) >>> 4) &&& 0x30) >>> 4 = y := by
  have hx : ∀ x : UInt8, (x &&& 0xf0) >>> 4 &&& 0x30 = 0 := by
    apply forall_byte
    decide
  rw [and_or_right, hx]
  revert y
  apply forall_byte
  decide

theorem second_rest (y x : UInt8) :
    (((y &&& 0x03) <<< 4 ||| (x &&& 0xf0) >>> 4) &&& 0x0f) <<< 4 = x &&& 0xf0 := by
  have hy : ∀ y : UInt8, (y &&& 0x03) <<< 4 &&& 0x0f = 0 := by
    apply forall_byte
    decide
  rw [and_or_right, hy]
  revert x
  apply forall_byte
  decide

theorem third_lt (y x : UInt8) : (y &&& 0x0f) <<< 2 ||| (x &&& 0xc0) >>> 6 < 64 := by
  refine or_lt ?_ ?_
  · revert y
    apply forall_byte
    decide
  · revert x
    apply forall_byte
    decide

theorem third_out (y x : UInt8) :
    (y &&& (0xf0 : UInt8)) ||| (((y &&& 0x0f) <<< 2 ||| (x &&& 0xc0) >>> 6) &&& 0x3c) >>> 2 = y := by
  have hx : ∀ x : UInt8, (x &&& 0xc0) >>> 6 &&& 0x3c = 0 := by
    apply forall_byte
    decide
  rw [and_or_right, hx]
  revert y
  apply forall_byte
  decide

theorem third_rest (y x : UInt8) :
    (((y &&& 0x0f) <<< 2 ||| (x &&& 0xc0) >>> 6) &&& 0x03) <<< 6 = x &&& 0xc0 := by
  have hy : ∀ y : UInt8, (y &&& 0x0f) <<< 2 &&& 0x03 = 0 := by
    apply forall_byte
    decide
  rw [and_or_right, hy]
  revert x
  apply forall_byte
  decide

theorem fourth_out (x : UInt8) : (x &&& 0xc0) ||| (x &&& 0x3f &&& 0x3f) = x := by
  revert x
  apply forall_byte
  decide

/-! ## Decoding what has been encoded -/

/-- The decoder has all bytes that have been encoded, but for those pending: the last one, if the
encoder has not finished a group. -/
def Link (e : EncodeState) (d : DecodeState) (pending : Data) : Prop :=
  match e.step with
  | .A => d.step = .a ∧ pending = []
  | .B => ∃ y, d = ⟨.b, y &&& 0xfc⟩ ∧ e.result = (y &&& 0x03) <<< 4 ∧ pending = [y]
  | .C => ∃ y, d = ⟨.c, y &&& 0xf0⟩ ∧ e.result = (y &&& 0x0f) <<< 2 ∧ pending = [y]

theorem decodeBlock_cons (d : DecodeState) (x : UInt8) (xs : Data) :
    decodeBlock d (x :: xs) = (decodeValue x).bind fun value =>
      if value < 0 then decodeBlock d xs
      else (decodeBlock (decodeFragment d value.toNat.toUInt8).2 xs).map fun r =>
        ((decodeFragment d value.toNat.toUInt8).1 ++ r.1, r.2) := by
  rw [decodeBlock]
  refine congrArg (Option.bind _) (funext fun value => ?_)
  obtain ⟨out, s⟩ := decodeFragment d value.toNat.toUInt8
  dsimp only
  cases decodeBlock s xs <;> rfl

theorem decodeBlock_value {v : UInt8} (hv : v < 64) (d : DecodeState) (code : Data) :
    decodeBlock d (encodeValue v :: code) =
      (decodeBlock (decodeFragment d v).2 code).map fun r => ((decodeFragment d v).1 ++ r.1, r.2) := by
  have hnonneg : ¬ Int.ofNat v.toNat < 0 := Int.not_lt.mpr (Int.natCast_nonneg _)
  have hback : (Int.ofNat v.toNat).toNat.toUInt8 = v := UInt8.ofNat_toNat
  rw [decodeBlock_cons, decodeValue_encodeValue v hv, Option.bind_some, if_neg hnonneg, hback]

theorem decodeBlock_skip {x : UInt8} {value : ℤ} (hx : decodeValue x = some value) (hneg : value < 0)
    (d : DecodeState) (code : Data) : decodeBlock d (x :: code) = decodeBlock d code := by
  rw [decodeBlock_cons, hx, Option.bind_some, if_pos hneg]

theorem decodeBlock_append (d : DecodeState) (a b : Data) :
    decodeBlock d (a ++ b) = (decodeBlock d a).bind fun r =>
      (decodeBlock r.2 b).map fun r' => (r.1 ++ r'.1, r'.2) := by
  induction a generalizing d with
  | nil => cases h : decodeBlock d b <;> simp [decodeBlock, h]
  | cons x xs ih =>
    rw [List.cons_append, decodeBlock_cons, decodeBlock_cons]
    cases decodeValue x with
    | none => rfl
    | some value =>
      dsimp only [Option.bind_some]
      by_cases hneg : value < 0
      · rw [if_pos hneg, if_pos hneg, ih]
      · rw [if_neg hneg, if_neg hneg, ih]
        cases decodeBlock (decodeFragment d value.toNat.toUInt8).2 xs with
        | none => rfl
        | some r =>
          cases h : decodeBlock r.2 b <;> simp [h]

theorem encodeByte_link {e : EncodeState} {d : DecodeState} {pending : Data} (h : Link e d pending)
    (x : UInt8) : ∃ out d' pending', decodeBlock d (encodeByte e x).1 = some (out, d') ∧
      Link (encodeByte e x).2 d' pending' ∧ pending ++ [x] = out ++ pending' := by
  obtain ⟨step, result, stepcount⟩ := e
  obtain ⟨dstep, plainchar⟩ := d
  cases step with
  | A =>
    obtain ⟨hd, rfl⟩ : dstep = .a ∧ pending = [] := h
    subst hd
    refine ⟨[], ⟨.b, x &&& 0xfc⟩, [x], ?_, ⟨x, rfl, rfl, rfl⟩, rfl⟩
    rw [encodeByte, decodeBlock_value (first_lt x)]
    simp [decodeFragment, decodeBlock, high_six]
  | B =>
    obtain ⟨y, hd, hresult, rfl⟩ := h
    cases hd
    refine ⟨[y], ⟨.c, x &&& 0xf0⟩, [x], ?_, ⟨x, rfl, rfl, rfl⟩, rfl⟩
    dsimp only at hresult
    rw [encodeByte, hresult]
    dsimp only
    rw [decodeBlock_value (second_lt y x)]
    simp [decodeFragment, decodeBlock, second_out, second_rest]
  | C =>
    obtain ⟨y, hd, hresult, rfl⟩ := h
    cases hd
    dsimp only at hresult
    have hout : ∀ rest : Data, (rest = [] ∨ rest = [10]) →
        decodeBlock ⟨.c, y &&& 0xf0⟩ (encodeValue ((y &&& 0x0f) <<< 2 ||| (x &&& 0xc0) >>> 6) ::
          encodeValue (x &&& 0x3f) :: rest) = some ([y, x], ⟨.a, 0⟩) := by
      intro rest hrest
      have hend : decodeBlock ⟨.a, 0⟩ rest = some ([], ⟨.a, 0⟩) := by
        rcases hrest with rfl | rfl <;> rfl
      rw [decodeBlock_value (third_lt y x), decodeBlock_value (last_lt x)]
      simp [decodeFragment, hend, third_out, third_rest, fourth_out]
    rw [encodeByte, hresult]
    dsimp only
    split
    · exact ⟨[y, x], ⟨.a, 0⟩, [], hout [10] (.inr rfl), ⟨rfl, rfl⟩, rfl⟩
    · exact ⟨[y, x], ⟨.a, 0⟩, [], hout [] (.inl rfl), ⟨rfl, rfl⟩, rfl⟩

theorem encodeBlock_link {e : EncodeState} {d : DecodeState} {pending : Data} (h : Link e d pending)
    (data : Data) : ∃ out d' pending', decodeBlock d (encodeBlock e data).1 = some (out, d') ∧
      Link (encodeBlock e data).2 d' pending' ∧ pending ++ data = out ++ pending' := by
  induction data generalizing e d pending with
  | nil => exact ⟨[], d, pending, rfl, h, List.append_nil _⟩
  | cons x xs ih =>
    obtain ⟨out₁, d₁, pending₁, hone, h₁, heq₁⟩ := encodeByte_link h x
    obtain ⟨out₂, d₂, pending₂, hrest, h₂, heq₂⟩ := ih h₁
    refine ⟨out₁ ++ out₂, d₂, pending₂, ?_, h₂, ?_⟩
    · rw [encodeBlock, decodeBlock_append, hone, Option.bind_some, hrest]
      rfl
    · rw [List.append_assoc, ← heq₂, ← List.append_assoc, ← heq₁, List.append_assoc]
      rfl

theorem encodeBlockend_link {e : EncodeState} {d : DecodeState} {pending : Data}
    (h : Link e d pending) :
    ∃ d', decodeBlock d (encodeBlockend e).dropLast = some (pending, d') := by
  obtain ⟨step, result, stepcount⟩ := e
  have hpad : decodeValue 61 = some (-2) := by decide
  cases step with
  | A =>
    obtain ⟨-, rfl⟩ := h
    exact ⟨d, rfl⟩
  | B =>
    obtain ⟨y, rfl, hresult, rfl⟩ := h
    dsimp only at hresult
    have hzero : (y &&& 0x03) <<< 4 ||| ((0 : UInt8) &&& 0xf0) >>> 4 = (y &&& 0x03) <<< 4 := by simp
    have hlt := second_lt y 0
    have hout := second_out y 0
    rw [hzero] at hlt hout
    refine ⟨⟨.c, ((y &&& 0x03) <<< 4 &&& 0x0f) <<< 4⟩, ?_⟩
    rw [encodeBlockend, hresult]
    change decodeBlock _ [encodeValue ((y &&& 0x03) <<< 4), 61, 61] = _
    rw [decodeBlock_value hlt, decodeBlock_skip hpad (by decide), decodeBlock_skip hpad (by decide)]
    simp [decodeFragment, decodeBlock, hout]
  | C =>
    obtain ⟨y, rfl, hresult, rfl⟩ := h
    dsimp only at hresult
    have hzero : (y &&& 0x0f) <<< 2 ||| ((0 : UInt8) &&& 0xc0) >>> 6 = (y &&& 0x0f) <<< 2 := by simp
    have hlt := third_lt y 0
    have hout := third_out y 0
    rw [hzero] at hlt hout
    refine ⟨⟨.d, ((y &&& 0x0f) <<< 2 &&& 0x03) <<< 6⟩, ?_⟩
    rw [encodeBlockend, hresult]
    change decodeBlock _ [encodeValue ((y &&& 0x0f) <<< 2), 61] = _
    rw [decodeBlock_value hlt, decodeBlock_skip hpad (by decide)]
    simp [decodeFragment, decodeBlock, hout]

/-! ## Lengths -/

/-- The encoder has seen `n` bytes. -/
def Seen (e : EncodeState) (n : ℕ) : Prop :=
  e.stepcount = n / 3 % 18 ∧ e.step = if n % 3 = 0 then .A else if n % 3 = 1 then .B else .C

theorem initEncodeState_seen : Seen initEncodeState 0 :=
  ⟨rfl, rfl⟩

/-- How many characters there are for `n` bytes, with a newline behind every line. -/
def chars (n : ℕ) : ℕ :=
  n + n / 3 + n / 54

theorem encodeByte_seen {e : EncodeState} {n : ℕ} (h : Seen e n) (x : UInt8) :
    Seen (encodeByte e x).2 (n + 1) ∧ (encodeByte e x).1.length + chars n = chars (n + 1) := by
  obtain ⟨step, result, stepcount⟩ := e
  obtain ⟨hcount, hstep⟩ := h
  dsimp only at hcount hstep
  rw [chars, chars]
  by_cases h0 : n % 3 = 0
  · rw [if_pos h0] at hstep
    subst hstep
    refine ⟨⟨?_, ?_⟩, ?_⟩
    · change stepcount = _
      omega
    · rw [if_neg (by omega), if_pos (by omega)]
      rfl
    · change 1 + _ = _
      omega
  · by_cases h1 : n % 3 = 1
    · rw [if_neg h0, if_pos h1] at hstep
      subst hstep
      refine ⟨⟨?_, ?_⟩, ?_⟩
      · change stepcount = _
        omega
      · rw [if_neg (by omega), if_neg (by omega)]
        rfl
      · change 1 + _ = _
        omega
    · rw [if_neg h0, if_neg h1] at hstep
      subst hstep
      rw [encodeByte]
      dsimp only
      split
      · refine ⟨⟨?_, ?_⟩, ?_⟩
        · change 0 = _
          omega
        · rw [if_pos (by omega)]
        · change 3 + _ = _
          omega
      · refine ⟨⟨?_, ?_⟩, ?_⟩
        · change stepcount + 1 = _
          omega
        · rw [if_pos (by omega)]
        · change 2 + _ = _
          omega

theorem encodeBlock_seen {e : EncodeState} {n : ℕ} (h : Seen e n) (data : Data) :
    Seen (encodeBlock e data).2 (n + data.length) ∧
      (encodeBlock e data).1.length + chars n = chars (n + data.length) := by
  induction data generalizing e n with
  | nil => exact ⟨h, Nat.zero_add _⟩
  | cons x xs ih =>
    obtain ⟨h₁, hlen₁⟩ := encodeByte_seen h x
    obtain ⟨h₂, hlen₂⟩ := ih h₁
    rw [List.length_cons, show n + (xs.length + 1) = n + 1 + xs.length by omega]
    refine ⟨h₂, ?_⟩
    rw [encodeBlock, List.length_append]
    omega

/-- How much there is behind `n` bytes. -/
def endChars (n : ℕ) : ℕ :=
  if n % 3 = 0 then 1 else if n % 3 = 1 then 4 else 3

theorem encodeBlockend_length {e : EncodeState} {n : ℕ} (h : Seen e n) :
    (encodeBlockend e).length = endChars n := by
  rw [encodeBlockend, h.2, endChars]
  by_cases h0 : n % 3 = 0
  · rw [if_pos h0, if_pos h0]
    rfl
  · rw [if_neg h0, if_neg h0]
    by_cases h1 : n % 3 = 1
    · rw [if_pos h1, if_pos h1]
      rfl
    · rw [if_neg h1, if_neg h1]
      rfl

theorem decodeFragment_length (d : DecodeState) (v : UInt8) :
    (decodeFragment d v).1.length ≤ 1 := by
  rw [decodeFragment]
  cases d.step <;> simp

theorem decodeBlock_length {d d' : DecodeState} {code out : Data}
    (h : decodeBlock d code = some (out, d')) : out.length ≤ code.length := by
  induction code generalizing d out with
  | nil =>
    cases h
    exact Nat.le_refl 0
  | cons x xs ih =>
    rw [decodeBlock_cons] at h
    obtain ⟨value, -, h⟩ := Option.bind_eq_some_iff.mp h
    rw [List.length_cons]
    split at h
    · exact Nat.le_succ_of_le (ih h)
    · obtain ⟨⟨rest, d₂⟩, hrest, h⟩ := Option.map_eq_some_iff.mp h
      cases h
      have hone := decodeFragment_length d value.toNat.toUInt8
      have hle := ih hrest
      rw [List.length_append]
      exact Nat.add_comm 1 xs.length ▸ Nat.add_le_add hone hle

end Hilti.Base64
