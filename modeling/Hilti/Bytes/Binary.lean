import Mathlib.Data.Nat.Digits.Lemmas
import Hilti.Bytes.Convert

/-!
# Binary numbers in bytes objects

`hlt_bytes_to_uint_binary` and `hlt_bytes_to_int_binary` read the bytes with the most
significant one first.  For the other order the eight bytes of the variable are swapped,
which leaves the number in the upper ones, and for a signed number the upper bytes are
filled with the sign.
-/

namespace Hilti.Bytes

open Hilti.Lib

set_option autoImplicit false

/-! ## The functions -/

/-- `Hilti::ByteOrder`. -/
inductive ByteOrder where
  | little
  | big
  | host
  deriving DecidableEq

/-- `Spicy::ByteOrder::Network` has the value of `Big`. -/
def ByteOrder.network : ByteOrder := .big

/-- The bytes of an integer in memory, for the unions of `util.c`. -/
def memoryOf : ℕ → ℕ → List UInt8
  | 0, _ => []
  | n + 1, v => UInt8.ofNat v :: memoryOf n (v / 256)

def fromMemory (c : List UInt8) : ℕ :=
  Nat.ofDigits 256 (c.map UInt8.toNat)

/-- `hlt_flip64`. -/
def flip64 (v : BitVec 64) : BitVec 64 :=
  match memoryOf 8 v.toNat with
  | [c0, c1, c2, c3, c4, c5, c6, c7] =>
    BitVec.ofNat 64 (fromMemory [c7, c6, c5, c4, c3, c2, c1, c0])
  | _ => v

/-- `hlt_int_flip`.  A shift by the whole width has no defined result. -/
def intFlip (v : BitVec 64) (n : ℕ) : Option (BitVec 64) :=
  if n = 0 ∨ 8 < n then none else some (flip64 v >>> (64 - n * 8))

/-- The body of the loops. -/
def binaryStep (i : BitVec 64) (ch : UInt8) : Except Error (BitVec 64) :=
  .ok ((i <<< 8) ||| ch.toBitVec.setWidth 64)

/-- `hlt_bytes_to_uint_binary`. -/
def bytesToUintBinary (H : Heap) (fuel : ℕ) (b : ℕ) (byteOrder : ByteOrder) :
    Option (Except Error (BitVec 64)) := do
  let len ← bytesLen H b
  if len > 8 then some (.error .valueError)
  else do
    let cur ← bytesBegin H b
    match ← scanLoop H binaryStep fuel cur 0 with
    | .error e => some (.error e)
    | .ok i => do
      let i ← if byteOrder = .little then intFlip i len.toNat else some i
      some (.ok i)

/-- The sign extension of `hlt_bytes_to_int_binary`, with a shift that must not be negative. -/
def signExtend (i : BitVec 64) (len : ℕ) : Option (BitVec 64) :=
  if len = 0 then none
  else if i &&& (1#64 <<< (len * 8 - 1)) ≠ 0 then
    if len = 8 then some (-(~~~i + 1#64))
    else some (-(i ^^^ ((1#64 <<< (len * 8)) - 1#64)) - 1#64)
  else some i

/-- `hlt_bytes_to_int_binary`. -/
def bytesToIntBinary (H : Heap) (fuel : ℕ) (b : ℕ) (byteOrder : ByteOrder) :
    Option (Except Error (BitVec 64)) := do
  let len ← bytesLen H b
  if len > 8 then some (.error .valueError)
  else do
    let cur ← bytesBegin H b
    match ← scanLoop H binaryStep fuel cur 0 with
    | .error e => some (.error e)
    | .ok i => do
      let i ← if byteOrder = .little then intFlip i len.toNat else some i
      (signExtend i len.toNat).map .ok

/-! ## The number of a list of bytes -/

/-- The number that bytes denote in an order: in all but the little one the most significant byte is
the first. -/
def unsignedOf (byteOrder : ByteOrder) (l : List UInt8) : ℕ :=
  fromMemory (if byteOrder = .little then l else l.reverse)

/-- The number in two's complement. -/
def signedOf (byteOrder : ByteOrder) (l : List UInt8) : ℤ :=
  if unsignedOf byteOrder l < 2 ^ (8 * l.length - 1) then unsignedOf byteOrder l
  else unsignedOf byteOrder l - 2 ^ (8 * l.length)

theorem fromMemory_cons (ch : UInt8) (l : List UInt8) :
    fromMemory (ch :: l) = ch.toNat + 256 * fromMemory l := by
  simp [fromMemory, Nat.ofDigits_cons]

theorem fromMemory_append (l m : List UInt8) :
    fromMemory (l ++ m) = fromMemory l + 256 ^ l.length * fromMemory m := by
  simp [fromMemory, Nat.ofDigits_append]

theorem fromMemory_lt (l : List UInt8) : fromMemory l < 256 ^ l.length := by
  have hlt := Nat.ofDigits_lt_base_pow_length (b := 256) (l := l.map UInt8.toNat) (by decide)
    (by simpa using fun ch _ => ch.toNat_lt)
  simpa [fromMemory] using hlt

theorem fromMemory_zeros (n : ℕ) : fromMemory (List.replicate n 0) = 0 := by
  induction n with
  | zero => rfl
  | succ n ih => rw [List.replicate_succ, fromMemory_cons, ih]; rfl

theorem memoryOf_zero (n : ℕ) : memoryOf n 0 = List.replicate n 0 := by
  induction n with
  | zero => rfl
  | succ n ih => rw [memoryOf, Nat.zero_div, ih, List.replicate_succ]; rfl

theorem memoryOf_fromMemory : ∀ (n : ℕ) (l : List UInt8), l.length ≤ n →
    memoryOf n (fromMemory l) = l ++ List.replicate (n - l.length) 0
  | n, [], _ => memoryOf_zero n
  | 0, _ :: _, h => by simp at h
  | n + 1, ch :: l, h => by
    have hdiv : fromMemory (ch :: l) / 256 = fromMemory l := by
      have := ch.toNat_lt
      rw [fromMemory_cons]
      omega
    have hlow : UInt8.ofNat (fromMemory (ch :: l)) = ch := by
      apply UInt8.toNat_inj.mp
      have := ch.toNat_lt
      rw [UInt8.toNat_ofNat', fromMemory_cons]
      omega
    rw [memoryOf, hdiv, hlow, memoryOf_fromMemory n l (by simpa using h), List.length_cons,
      Nat.add_sub_add_right]
    rfl

theorem eight_bytes {l : List UInt8} (h : l.length = 8) :
    ∃ c0 c1 c2 c3 c4 c5 c6 c7, l = [c0, c1, c2, c3, c4, c5, c6, c7] := by
  match l, h with
  | [c0, c1, c2, c3, c4, c5, c6, c7], _ => exact ⟨c0, c1, c2, c3, c4, c5, c6, c7, rfl⟩

theorem flip64_fromMemory (l : List UInt8) (h : l.length ≤ 8) :
    flip64 (BitVec.ofNat 64 (fromMemory l)) =
      BitVec.ofNat 64 (fromMemory (List.replicate (8 - l.length) 0 ++ l.reverse)) := by
  have hlt : fromMemory l < 2 ^ 64 := by
    calc fromMemory l < 256 ^ l.length := fromMemory_lt l
      _ ≤ 256 ^ 8 := Nat.pow_le_pow_right (by decide) h
      _ = 2 ^ 64 := by norm_num
  have hmem := memoryOf_fromMemory 8 l h
  rw [flip64, BitVec.toNat_ofNat, Nat.mod_eq_of_lt hlt, hmem]
  have hlen : (l ++ List.replicate (8 - l.length) 0).length = 8 := by simp; omega
  obtain ⟨c0, c1, c2, c3, c4, c5, c6, c7, hc⟩ := eight_bytes hlen
  have hrev := congrArg List.reverse hc
  rw [List.reverse_append, List.reverse_replicate] at hrev
  rw [hc, hrev]
  rfl

theorem intFlip_fromMemory (l : List UInt8) (hne : l ≠ []) (h : l.length ≤ 8) :
    intFlip (BitVec.ofNat 64 (fromMemory l)) l.length =
      some (BitVec.ofNat 64 (fromMemory l.reverse)) := by
  have hpos : 0 < l.length := List.length_pos_iff.mpr hne
  have hlt : fromMemory l.reverse < 256 ^ l.length := by
    simpa using fromMemory_lt l.reverse
  have hpow : (256 : ℕ) ^ (8 - l.length) = 2 ^ (64 - l.length * 8) := by
    rw [show (256 : ℕ) = 2 ^ 8 from rfl, ← pow_mul]
    congr 1
    omega
  have hall : (256 : ℕ) ^ (8 - l.length) * 256 ^ l.length = 2 ^ 64 := by
    rw [← pow_add, show 8 - l.length + l.length = 8 by omega]
    norm_num
  have hbig : 256 ^ (8 - l.length) * fromMemory l.reverse < 2 ^ 64 := by
    rw [← hall]
    exact Nat.mul_lt_mul_of_pos_left hlt (by positivity)
  have hsmall : fromMemory l.reverse < 2 ^ 64 :=
    lt_of_le_of_lt (Nat.le_mul_of_pos_left _ (by positivity)) hbig
  rw [intFlip, if_neg (by omega), flip64_fromMemory l h, fromMemory_append, fromMemory_zeros,
    List.length_replicate, Nat.zero_add]
  congr 1
  apply BitVec.eq_of_toNat_eq
  rw [BitVec.toNat_ushiftRight, BitVec.toNat_ofNat, BitVec.toNat_ofNat, Nat.mod_eq_of_lt hbig,
    Nat.mod_eq_of_lt hsmall, Nat.shiftRight_eq_div_pow, hpow,
    Nat.mul_div_cancel_left _ (by positivity)]

theorem binaryStep_ofNat (n : ℕ) (ch : UInt8) :
    binaryStep (BitVec.ofNat 64 n) ch = .ok (BitVec.ofNat 64 (n * 256 + ch.toNat)) := by
  have hch : ch.toNat < 2 ^ 8 := ch.toNat_lt
  have hshift : (n % 2 ^ 64) <<< 8 % 2 ^ 64 = (n % 2 ^ 56) <<< 8 := by
    simp only [Nat.shiftLeft_eq]
    omega
  rw [binaryStep]
  congr 1
  apply BitVec.eq_of_toNat_eq
  rw [BitVec.toNat_or, BitVec.toNat_shiftLeft, BitVec.toNat_setWidth, BitVec.toNat_ofNat,
    BitVec.toNat_ofNat, UInt8.toNat_toBitVec, Nat.mod_eq_of_lt (show ch.toNat < 2 ^ 64 by omega),
    hshift, ← Nat.shiftLeft_add_eq_or_of_lt hch, Nat.shiftLeft_eq]
  omega

theorem foldlM_binary : ∀ (l : List UInt8) (n : ℕ), l.foldlM binaryStep (BitVec.ofNat 64 n) =
    .ok (BitVec.ofNat 64 (n * 256 ^ l.length + fromMemory l.reverse))
  | [], n => by
    rw [List.length_nil, pow_zero, mul_one]
    rfl
  | ch :: l, n => by
    rw [List.foldlM_cons, binaryStep_ofNat]
    show l.foldlM binaryStep (BitVec.ofNat 64 (n * 256 + ch.toNat)) = _
    rw [foldlM_binary l, List.reverse_cons, fromMemory_append, List.length_reverse,
      List.length_cons, fromMemory_cons, pow_succ]
    congr 2
    simp only [fromMemory, List.map_nil, Nat.ofDigits_nil]
    ring

/-! ## The sign -/

theorem sign_bit {V k : ℕ} (hV : V < 2 ^ (k + 1)) (hk : k < 64) :
    BitVec.ofNat 64 V &&& (1#64 <<< k) ≠ 0 ↔ 2 ^ k ≤ V := by
  have hpow : (2 : ℕ) ^ (k + 1) = 2 * 2 ^ k := pow_succ' 2 k
  have hbit : (BitVec.ofNat 64 V).getLsbD k = decide (2 ^ k ≤ V) := by
    rw [BitVec.getLsbD_ofNat, Nat.testBit_eq_decide_div_mod_eq, decide_eq_true hk, Bool.true_and]
    congr 1
    apply propext
    constructor
    · intro h
      by_contra hlt
      rw [Nat.div_eq_of_lt (not_le.mp hlt)] at h
      simp at h
    · intro h
      rw [Nat.div_eq_of_lt_le (k := 1) (by omega) (by omega)]
  rw [← BitVec.twoPow_eq, BitVec.and_twoPow, hbit]
  by_cases h : 2 ^ k ≤ V
  · rw [decide_eq_true h, if_pos rfl]
    refine iff_of_true (fun hzero => ?_) h
    have htoNat := congrArg BitVec.toNat hzero
    rw [BitVec.toNat_twoPow, Nat.mod_eq_of_lt (Nat.pow_lt_pow_right (by decide) hk)] at htoNat
    exact absurd htoNat (by positivity)
  · rw [decide_eq_false h, if_neg Bool.false_ne_true]
    exact iff_of_false (fun hne => hne rfl) h

theorem xor_ones {V k : ℕ} (hV : V < 2 ^ k) : V ^^^ (2 ^ k - 1) = 2 ^ k - 1 - V := by
  have h := congrArg BitVec.toNat (BitVec.xor_allOnes (x := BitVec.ofNat k V))
  rwa [BitVec.toNat_xor, BitVec.toNat_allOnes, BitVec.toNat_not, BitVec.toNat_ofNat,
    Nat.mod_eq_of_lt hV] at h

theorem ones_above {V k : ℕ} (hV : V < 2 ^ k) (hk : k < 64) :
    -(BitVec.ofNat 64 V ^^^ ((1#64 <<< k) - 1#64)) - 1#64 = BitVec.ofInt 64 ((V : ℤ) - 2 ^ k) := by
  have hpow : (2 : ℕ) ^ k < 2 ^ 64 := Nat.pow_lt_pow_right (by decide) hk
  have hpos : 0 < (2 : ℕ) ^ k := by positivity
  have hmask : ((1#64 <<< k) - 1#64).toNat = 2 ^ k - 1 := by
    rw [← BitVec.twoPow_eq, BitVec.toNat_sub, BitVec.toNat_twoPow, Nat.mod_eq_of_lt hpow]
    simp only [BitVec.toNat_ofNat]
    omega
  have hxor : (BitVec.ofNat 64 V ^^^ ((1#64 <<< k) - 1#64)).toNat = 2 ^ k - 1 - V := by
    rw [BitVec.toNat_xor, hmask, BitVec.toNat_ofNat, Nat.mod_eq_of_lt (hV.trans hpow), xor_ones hV]
  have hcast : ((2 ^ k : ℕ) : ℤ) = 2 ^ k := by push_cast; rfl
  generalize BitVec.ofNat 64 V ^^^ ((1#64 <<< k) - 1#64) = w at hxor
  apply BitVec.eq_of_toNat_eq
  rw [BitVec.toNat_ofInt, BitVec.toNat_sub, BitVec.toNat_neg, hxor, ← hcast]
  simp only [BitVec.toNat_ofNat]
  generalize (2 : ℕ) ^ k = m at hV hpow hpos
  omega

theorem signExtend_ofNat {V n : ℕ} (hn : n ≠ 0) (hn' : n ≤ 8) (hV : V < 2 ^ (8 * n)) :
    ∃ r, signExtend (BitVec.ofNat 64 V) n = some r ∧
      r.toInt = if V < 2 ^ (8 * n - 1) then (V : ℤ) else V - 2 ^ (8 * n) := by
  have hsplit : (2 : ℕ) ^ (8 * n) = 2 * 2 ^ (8 * n - 1) := by
    rw [← pow_succ']
    congr 1
    omega
  have hle : (2 : ℕ) ^ (8 * n) ≤ 2 ^ 64 := Nat.pow_le_pow_right (by decide) (by omega)
  have hbit := sign_bit (V := V) (k := 8 * n - 1) (by rwa [show 8 * n - 1 + 1 = 8 * n by omega])
    (by omega)
  have hcast : ((2 ^ (8 * n) : ℕ) : ℤ) = 2 ^ (8 * n) := by push_cast; rfl
  rw [signExtend, if_neg hn, Nat.mul_comm n 8]
  by_cases hneg : 2 ^ (8 * n - 1) ≤ V
  · rw [if_pos (hbit.mpr hneg), if_neg (not_lt.mpr hneg)]
    by_cases h8 : n = 8
    · subst h8
      refine ⟨_, if_pos rfl, ?_⟩
      rw [show ∀ w : BitVec 64, -(~~~w + 1#64) = w from fun w => by
        rw [← BitVec.neg_eq_not_add, BitVec.neg_neg], BitVec.toInt_eq_toNat_bmod,
        BitVec.toNat_ofNat, Nat.mod_eq_of_lt hV]
      norm_num at hneg hV ⊢
      rw [Int.bmod_def]
      omega
    · refine ⟨_, if_neg h8, ?_⟩
      have hlt : (2 : ℕ) ^ (8 * n) ≤ 2 ^ 56 := Nat.pow_le_pow_right (by decide) (by omega)
      rw [ones_above hV (by omega), BitVec.toInt_ofInt, ← hcast]
      apply Int.bmod_eq_of_le
      · omega
      · omega
  · refine ⟨_, if_neg (fun h => hneg (hbit.mp h)), ?_⟩
    rw [if_pos (not_le.mp hneg), BitVec.toInt_eq_toNat_bmod, BitVec.toNat_ofNat,
      Nat.mod_eq_of_lt (by omega)]
    apply Int.bmod_eq_of_le
    · omega
    · omega

/-! ## Any object of a program -/

/-- The conversions of up to eight bytes give the number of the bytes in the order, and those of
any other number of bytes are refused. -/
def BinaryExact (byteOrder : ByteOrder) (l : List UInt8)
    (u i : Option (Except Error (BitVec 64))) : Prop :=
  if 1 ≤ l.length ∧ l.length ≤ 8 then
    (∃ r, u = some (.ok r) ∧ r.toNat = unsignedOf byteOrder l) ∧
      ∃ r, i = some (.ok r) ∧ r.toInt = signedOf byteOrder l
  else u = some (.error .valueError) ∧ i = some (.error .valueError)

section

variable {H : Heap} {x : Shape}

theorem scanBinary (hx : Rep H x) : ∃ i, bytesBegin H x.first = some i ∧
    ∀ fuel, x.obj.content.length < fuel → scanLoop H binaryStep fuel i 0 =
      some (.ok (BitVec.ofNat 64 (fromMemory x.obj.content.reverse))) := by
  obtain ⟨i, hbegin, hscan⟩ := scanLoop_begin binaryStep hx 0
  refine ⟨i, hbegin, fun fuel hf => ?_⟩
  have hfold := foldlM_binary x.obj.content 0
  rw [Nat.zero_mul, Nat.zero_add] at hfold
  rw [hscan fuel hf]
  exact congrArg some hfold

theorem ordered_bind {β : Type} (byteOrder : ByteOrder) {l : List UInt8} (hne : l ≠ [])
    (hle : l.length ≤ 8) (f : BitVec 64 → Option β) :
    (if byteOrder = .little then
        (intFlip (BitVec.ofNat 64 (fromMemory l.reverse)) l.length).bind f
      else f (BitVec.ofNat 64 (fromMemory l.reverse))) =
      f (BitVec.ofNat 64 (unsignedOf byteOrder l)) := by
  unfold unsignedOf
  by_cases hord : byteOrder = .little
  · have hflip := intFlip_fromMemory l.reverse (by simpa using hne) (by simpa using hle)
    rw [List.length_reverse, List.reverse_reverse] at hflip
    rw [if_pos hord, if_pos hord, hflip, Option.bind_some]
  · rw [if_neg hord, if_neg hord]

theorem unsignedOf_lt (byteOrder : ByteOrder) (l : List UInt8) :
    unsignedOf byteOrder l < 2 ^ (8 * l.length) := by
  have hpow : (2 : ℕ) ^ (8 * l.length) = 256 ^ l.length := by
    rw [pow_mul]
    norm_num
  rw [hpow, unsignedOf]
  split
  · exact fromMemory_lt l
  · simpa using fromMemory_lt l.reverse

theorem binaryExact_iff (hx : Rep H x) (fuel : ℕ) (hf : x.obj.content.length < fuel)
    (byteOrder : ByteOrder) :
    BinaryExact byteOrder x.obj.content (bytesToUintBinary H fuel x.first byteOrder)
      (bytesToIntBinary H fuel x.first byteOrder) ↔ x.obj.content ≠ [] := by
  obtain ⟨i, hbegin, hscan⟩ := scanBinary hx
  have hscan := hscan fuel hf
  have hlen : bytesLen H x.first = some (x.obj.content.length : ℤ) := hx.len_eq
  generalize x.obj.content = l at hscan hlen
  unfold BinaryExact bytesToUintBinary bytesToIntBinary
  simp only [hlen, hbegin, hscan, Option.bind_eq_bind, Option.bind_some, Int.toNat_natCast]
  by_cases hnil : l = []
  · subst hnil
    refine iff_of_false (fun h => ?_) (by simp)
    simp [signExtend] at h
  rw [iff_true_right hnil]
  have hpos : 1 ≤ l.length := List.length_pos_iff.mpr hnil
  by_cases hle : l.length ≤ 8
  · have hord {β : Type} := ordered_bind (β := β) byteOrder hnil hle
    have hV := unsignedOf_lt byteOrder l
    have hlt : unsignedOf byteOrder l < 2 ^ 64 :=
      lt_of_lt_of_le hV (Nat.pow_le_pow_right (by decide) (by omega))
    obtain ⟨r, hr, hval⟩ := signExtend_ofNat (n := l.length) (by omega) hle hV
    rw [if_pos ⟨hpos, hle⟩]
    refine ⟨⟨BitVec.ofNat 64 (unsignedOf byteOrder l), ?_, ?_⟩, r, ?_, ?_⟩
    · rw [if_neg (by omega), hord]
    · rw [BitVec.toNat_ofNat, Nat.mod_eq_of_lt hlt]
    · rw [if_neg (by omega), hord, hr, Option.map_some]
    · rw [hval]
      rfl
  · rw [if_neg (fun h => hle h.2), if_pos (by omega), if_pos (by omega)]
    exact ⟨rfl, rfl⟩

end

/-- In any run, for any object in any chunks and any order, exactly the empty object is not treated
as it should be. -/
theorem binary_exact_iff (ops : List Op) (A : Spec)
    (hrun : Spec.machine.run Spec.machine.start ops = some A) (b : ℕ) (o : Obj)
    (ho : A.objs[b]? = some o) (byteOrder : ByteOrder) :
    ∃ s a, machine.run machine.start ops = some s ∧ s.objs[b]? = some a ∧
      ∀ fuel, o.content.length < fuel →
        (BinaryExact byteOrder o.content (bytesToUintBinary s.heap fuel a byteOrder)
          (bytesToIntBinary s.heap fuel a byteOrder) ↔ o.content ≠ []) := by
  obtain ⟨s, hs, hprog⟩ := start_sim.run ops hrun
  obtain ⟨xs, hsim⟩ := hprog.sim
  obtain ⟨x, -, rfl, hfirst, hx⟩ := hsim.object ho
  exact ⟨s, x.first, hs, hfirst, fun fuel hf => binaryExact_iff hx fuel hf byteOrder⟩

/-- Three bytes in two chunks, in the order of a little-endian number. -/
theorem binary_exact_three : ∃ s a r, machine.run machine.start
    [.newFromData [1, 2], .appendRaw 0 [255]] = some s ∧ s.objs[0]? = some a ∧
    bytesToIntBinary s.heap 4 a .little = some (.ok r) ∧ r.toInt = -65023 := by
  obtain ⟨s, a, hs, ha, hall⟩ := binary_exact_iff [.newFromData [1, 2], .appendRaw 0 [255]] _ rfl
    0 _ rfl .little
  have hexact := (hall 4 (by decide)).mpr (by decide)
  obtain ⟨-, r, hr, hval⟩ := hexact
  exact ⟨s, a, r, hs, ha, hr, hval.trans (by decide)⟩

/-- The empty object is converted to 0. -/
theorem binary_empty : ∃ s, machine.run machine.start [.new] = some s ∧
    bytesToUintBinary s.heap 1 0 .big = some (.ok 0) ∧
    ¬ BinaryExact .big [] (bytesToUintBinary s.heap 1 0 .big) (bytesToIntBinary s.heap 1 0 .big) := by
  have hzero : ∃ s, machine.run machine.start [.new] = some s ∧
      bytesToUintBinary s.heap 1 0 .big = some (.ok 0) := ⟨_, rfl, by decide⟩
  obtain ⟨s, hs, hu⟩ := hzero
  refine ⟨s, hs, hu, fun h => ?_⟩
  have herror := h.1
  rw [hu] at herror
  cases herror

end Hilti.Bytes
