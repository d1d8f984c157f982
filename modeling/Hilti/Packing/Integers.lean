import Hilti.Bytes.Extract
import Hilti.Bytes.Binary

/-!
# Packing and unpacking integers

The code that `_integerPack` and `_integerUnpack` generate, without a range of bits to
select.  Packing writes the bytes of an integer to a new object one by one, and
unpacking puts them together again wherever they are then found.
-/

namespace Hilti.Packing

open Hilti.Lib Hilti.Bytes

set_option autoImplicit false

/-! ## The generated code -/

/-- A format for integers of `Hilti::Packed`, from `Int8` to `UInt64Little`. -/
structure IntegerFormat where
  octets : ℕ
  octets_mem : octets ∈ [1, 2, 4, 8]
  sign : Bool
  order : ByteOrder

namespace IntegerFormat

def width (f : IntegerFormat) : ℕ := f.octets * 8

/-- The places of the bytes in the integer, as `visit(type::Integer*)` lists them; the flag is
whether `abi()->byteOrder()` is `ABI::BigEndian`. -/
def bytes (f : IntegerFormat) (hostBig : Bool) : List ℕ :=
  if f.order = .big ∨ (f.order = .host ∧ hostBig) then (List.range f.octets).reverse
  else List.range f.octets

end IntegerFormat

/-- `_castToWidth`. -/
def castToWidth {width : ℕ} (val : BitVec width) (twidth : ℕ) (sign : Bool) : BitVec twidth :=
  if width < twidth then
    if sign then val.signExtend twidth else val.setWidth twidth
  else val.setWidth twidth

/-- The byte `ch` of a round of `_integerPack`. -/
def packedByte {width : ℕ} (nval : BitVec width) (sign : Bool) (i : ℕ) : UInt8 :=
  let val := if sign then nval.sshiftRight (i * 8) else nval >>> (i * 8)
  ⟨val.setWidth 8⟩

/-- The bytes that are packed. -/
def packedBytes (f : IntegerFormat) (hostBig : Bool) {width : ℕ} (value : BitVec width) :
    List UInt8 :=
  (f.bytes hostBig).map (packedByte (castToWidth value f.width false) f.sign)

/-- `_integerPack`: the calls of `hlt_bytes_new` and `hlt_bytes_append_raw_copy`, in a program that
has obtained `n` objects. -/
def integerPack (n : ℕ) (f : IntegerFormat) (hostBig : Bool) {width : ℕ} (value : BitVec width) :
    List Op :=
  .new :: (packedBytes f hostBig value).map fun ch => .appendRaw n [ch]

/-- The loop of `_integerUnpack`. -/
def unpackLoop (H : Heap) (stop : Iter) {width : ℕ} :
    List ℕ → BitVec width → Iter → Option (Except Raised (BitVec width) × Iter)
  | [], unpacked, p => some (.ok unpacked, p)
  | i :: bytes, unpacked, p => do
    match ← extractOne H p stop with
    | (.error e, p) => some (.error e, p)
    | (.ok ch, p) =>
      let byte := ch.toBitVec.setWidth width
      let byte := if i ≠ 0 then byte <<< (i * 8) else byte
      unpackLoop H stop bytes (unpacked ||| byte) p

/-- `_integerUnpack`. -/
def integerUnpack (H : Heap) (f : IntegerFormat) (hostBig : Bool) (twidth : ℕ) (start stop : Iter) :
    Option (Except Raised (BitVec twidth) × Iter) := do
  let (unpacked, p) ← unpackLoop H stop (f.bytes hostBig) (0 : BitVec f.width) start
  some (unpacked.map fun val => castToWidth val twidth f.sign, p)

/-- The format can hold the integer. -/
def IntegerFormat.Holds (f : IntegerFormat) {width : ℕ} (value : BitVec width) : Prop :=
  if f.sign then -2 ^ (f.width - 1) ≤ value.toInt ∧ value.toInt < 2 ^ (f.width - 1)
  else value.toNat < 2 ^ f.width

variable {width : ℕ} {f : IntegerFormat} {hostBig : Bool}

/-! ## The bytes of an integer -/

theorem IntegerFormat.mem_bytes {i : ℕ} : i ∈ f.bytes hostBig ↔ i < f.octets := by
  unfold IntegerFormat.bytes
  split <;> simp

theorem IntegerFormat.bytes_length : (f.bytes hostBig).length = f.octets := by
  unfold IntegerFormat.bytes
  split <;> simp

theorem packedByte_getLsbD (nval : BitVec width) (sign : Bool) {i j : ℕ} (hj : j < 8)
    (hi : i * 8 + j < width) :
    (packedByte nval sign i).toBitVec.getLsbD j = nval.getLsbD (i * 8 + j) := by
  unfold packedByte
  cases sign with
  | false => simp [hj]
  | true => simp [hj, BitVec.getLsbD_sshiftRight, hi, show ¬ width ≤ j by omega]

/-- What the loop puts together of the bytes of `nval`. -/
def joined (nval : BitVec width) (sign : Bool) (bytes : List ℕ) (unpacked : BitVec width) :
    BitVec width :=
  bytes.foldl (fun unpacked i =>
    unpacked ||| (packedByte nval sign i).toBitVec.setWidth width <<< (i * 8)) unpacked

theorem joined_getLsbD {nval : BitVec width} {sign : Bool} {bytes : List ℕ}
    (hbytes : ∀ i ∈ bytes, (i + 1) * 8 ≤ width) (unpacked : BitVec width) {j : ℕ} (hj : j < width) :
    (joined nval sign bytes unpacked).getLsbD j =
      (unpacked.getLsbD j || decide (j / 8 ∈ bytes) && nval.getLsbD j) := by
  induction bytes generalizing unpacked with
  | nil => simp [joined]
  | cons i bytes ih =>
    rw [joined, List.foldl_cons, ← joined, ih fun c hc => hbytes c (by simp [hc])]
    have hi := hbytes i (by simp)
    have hbit : ((packedByte nval sign i).toBitVec.setWidth width <<< (i * 8)).getLsbD j =
        (decide (j / 8 = i) && nval.getLsbD j) := by
      by_cases hji : j / 8 = i
      · have hbyte := packedByte_getLsbD nval sign (i := i) (j := j - i * 8) (by omega) (by omega)
        rw [show i * 8 + (j - i * 8) = j by omega] at hbyte
        simp [hj, hji, show ¬ j < i * 8 by omega, hbyte]
      · by_cases hlt : j < i * 8
        · simp [hlt, hji]
        · have hzero := BitVec.getLsbD_of_ge (packedByte nval sign i).toBitVec (j - i * 8) (by omega)
          simp [hzero, hji]
    rw [BitVec.getLsbD_or, hbit]
    by_cases hji : j / 8 = i
    · cases nval.getLsbD j <;> simp [hji]
    · simp [hji]

theorem joined_bytes (nval : BitVec f.width) (sign : Bool) :
    joined nval sign (f.bytes hostBig) 0 = nval := by
  refine BitVec.eq_of_getLsbD_eq fun j hj => ?_
  unfold IntegerFormat.width at hj
  rw [joined_getLsbD (fun i hi => ?_) _ (by exact hj)]
  · simp [IntegerFormat.mem_bytes, show j / 8 < f.octets by omega]
  · have hlt := IntegerFormat.mem_bytes.mp hi
    unfold IntegerFormat.width
    omega

/-! ## Casts -/

theorem castToWidth_false (val : BitVec width) (twidth : ℕ) :
    castToWidth val twidth false = val.setWidth twidth := by
  simp [castToWidth]

theorem signExtend_setWidth {m : ℕ} (hm : m < width) (value : BitVec width) :
    (value.setWidth (m + 1)).signExtend width = value ↔
      -2 ^ m ≤ value.toInt ∧ value.toInt < 2 ^ m := by
  have hdvd : ((2 ^ (m + 1) : ℕ) : ℤ) ∣ value.toInt - value.toNat := by
    have hpow : ((2 ^ (m + 1) : ℕ) : ℤ) ∣ ((2 ^ width : ℕ) : ℤ) :=
      Int.natCast_dvd_natCast.mpr (pow_dvd_pow 2 (by omega))
    rw [BitVec.toInt_eq_toNat_bmod]
    exact hpow.trans Int.dvd_bmod_sub_self
  rw [← BitVec.toInt_inj, BitVec.toInt_signExtend_of_le (by omega), BitVec.toInt_setWidth,
    Int.bmod_eq_iff (by positivity), and_iff_left_of_imp fun _ => hdvd]
  push_cast
  rw [pow_succ]
  omega

theorem castToWidth_castToWidth (f : IntegerFormat) (value : BitVec width) :
    castToWidth (castToWidth value f.width false) width f.sign = value ↔ f.Holds value := by
  have hpos : 0 < f.width := by
    have hmem := f.octets_mem
    simp only [List.mem_cons, List.not_mem_nil, or_false] at hmem
    unfold IntegerFormat.width
    omega
  rw [castToWidth_false]
  unfold castToWidth IntegerFormat.Holds
  by_cases hw : f.width < width
  · rw [if_pos hw]
    cases f.sign with
    | true =>
      obtain ⟨m, hm⟩ : ∃ m, f.width = m + 1 := ⟨f.width - 1, by omega⟩
      rw [if_pos rfl, if_pos rfl, hm]
      exact signExtend_setWidth (by omega) value
    | false =>
      rw [if_neg (by simp), if_neg (by simp), ← BitVec.toNat_inj, BitVec.toNat_setWidth_of_le (by omega),
        BitVec.toNat_setWidth]
      exact Nat.mod_eq_iff_lt (by positivity)
  · rw [if_neg hw, BitVec.setWidth_setWidth_of_le _ (by omega), BitVec.setWidth_eq]
    refine iff_of_true rfl ?_
    split
    · have hle : (2 : ℤ) ^ (width - 1) ≤ 2 ^ (f.width - 1) :=
        pow_le_pow_right₀ (by decide) (by omega)
      have hlow := value.le_toInt
      have hhigh := value.toInt_lt
      omega
    · exact value.isLt.trans_le (Nat.pow_le_pow_right (by decide) (by omega))

/-! ## Packing -/

theorem run_appendRaw (A : Spec) (l : List UInt8) : ∀ data,
    Spec.machine.run (A.add data) (l.map fun ch => .appendRaw A.objs.length [ch]) =
      some (A.add (data ++ l)) := by
  induction l with
  | nil =>
    intro data
    rw [List.append_nil]
    rfl
  | cons ch l ih =>
    intro data
    have hstep : Spec.machine.next (A.add data) (.appendRaw A.objs.length [ch]) =
        some (A.add (data ++ [ch])) := by
      simp [Spec.machine, Spec.step, Spec.write, Spec.add]
    rw [List.map_cons, Machine.run_cons, hstep, Option.bind_some, ih, List.append_assoc]
    rfl

theorem run_integerPack (A : Spec) (f : IntegerFormat) (hostBig : Bool) (value : BitVec width) :
    Spec.machine.run A (integerPack A.objs.length f hostBig value) =
      some (A.add (packedBytes f hostBig value)) :=
  run_appendRaw A _ []

/-! ## Unpacking -/

section

variable {H : Heap} {cs l r : Cells} {i stop : Iter} {a k m : ℕ} {c : Chunk}

/-- Both paths give the byte, unless the end is beyond its own chunk. -/
theorem extractOne_byte (h : Layout H cs) (hi : Designates cs i k) (hj : Stands cs stop m l a c r)
    (hin : stop.cur ≤ c.data.length) (hkm : k < m) {x : UInt8} (hx : (content cs)[k]? = some x) :
    ∃ i', extractOne H i stop = some (.ok x, i') ∧ Designates cs i' (k + 1) := by
  obtain ⟨l', a', c', r', hi⟩ := hi
  have hchunk := (h.cell hi.split).1.1
  have hstart := hi.start_le
  by_cases hfast : (some a' = stop.bytes ∧ i.cur + 1 < stop.cur) ∨
      (some a' ≠ stop.bytes ∧ i.cur + 1 < c'.data.length)
  · have hcur : i.cur < c'.data.length := by
      obtain ⟨hsame, hlt⟩ | ⟨-, hlt⟩ := hfast
      · obtain rfl : a' = a := Option.some.inj (hsame.trans hj.bytes_eq)
        obtain ⟨-, rfl, -⟩ := h.split_unique hi.split hj.split
        omega
      · omega
    have hbyte := hi.getElem? hcur
    have hpos := hi.pos_eq
    rw [hx] at hbyte
    refine ⟨⟨some a', i.cur + 1⟩, ?_, l', a', c', r', hi.split, rfl, Nat.le_succ_of_le hstart, ?_⟩
    · simp only [extractOne, hi.bytes_eq, hchunk, Option.bind_eq_bind, Option.bind_some,
        if_pos hfast, hbyte]
    · show k + 1 = _ + (i.cur + 1 - _)
      omega
  · obtain ⟨i', hslow, hi'⟩ := extractOneSlowpath_byte h hi ⟨_, _, _, _, hj⟩ hkm hx
    refine ⟨i', ?_, hi'⟩
    simp only [extractOne, hi.bytes_eq, hchunk, Option.bind_eq_bind, Option.bind_some,
      if_neg hfast, hslow]

theorem unpackLoop_eq (h : Layout H cs) (hj : Stands cs stop m l a c r)
    (hin : stop.cur ≤ c.data.length) (nval : BitVec width) (sign : Bool) (bytes : List ℕ) :
    ∀ i k unpacked, Designates cs i k → k + bytes.length ≤ m →
      bytes.map (packedByte nval sign) <+: (content cs).drop k →
      ∃ i', unpackLoop H stop bytes unpacked i = some (.ok (joined nval sign bytes unpacked), i') ∧
        Designates cs i' (k + bytes.length) := by
  induction bytes with
  | nil => exact fun i k unpacked hi _ _ => ⟨i, rfl, hi⟩
  | cons b bytes ih =>
    intro i k unpacked hi hkm hpre
    obtain ⟨rest, hrest⟩ := hpre
    rw [List.length_cons] at hkm
    have hx : (content cs)[k]? = some (packedByte nval sign b) := by
      rw [← List.head?_drop, ← hrest]
      rfl
    obtain ⟨i₁, hextract, hi₁⟩ := extractOne_byte h hi hj hin (by omega) hx
    have hpre : bytes.map (packedByte nval sign) <+: (content cs).drop (k + 1) := by
      refine ⟨rest, ?_⟩
      rw [← List.tail_drop, ← hrest]
      rfl
    obtain ⟨i', hloop, hi'⟩ := ih i₁ (k + 1) _ hi₁ (by omega) hpre
    refine ⟨i', ?_, ?_⟩
    · have hshift : ∀ byte : BitVec width, (if b ≠ 0 then byte <<< (b * 8) else byte) =
          byte <<< (b * 8) := by
        intro byte
        by_cases hb : b = 0
        · simp [hb]
        · rw [if_pos hb]
      simp only [unpackLoop, hextract, Option.bind_eq_bind, Option.bind_some, hshift]
      exact hloop
    · rwa [List.length_cons, show k + (bytes.length + 1) = k + 1 + bytes.length by omega]

theorem integerUnpack_eq (h : Layout H cs) (hi : Designates cs i k)
    (hj : Stands cs stop m l a c r) (hin : stop.cur ≤ c.data.length) (hkm : k + f.octets ≤ m)
    {value : BitVec width} (hpre : packedBytes f hostBig value <+: (content cs).drop k) :
    ∃ i', integerUnpack H f hostBig width i stop =
        some (.ok (castToWidth (castToWidth value f.width false) width f.sign), i') ∧
      Designates cs i' (k + f.octets) := by
  obtain ⟨i', hloop, hi'⟩ := unpackLoop_eq h hj hin (castToWidth value f.width false) f.sign
    (f.bytes hostBig) i k 0 hi (by rwa [IntegerFormat.bytes_length]) hpre
  rw [joined_bytes] at hloop
  rw [IntegerFormat.bytes_length] at hi'
  exact ⟨i', by rw [integerUnpack, hloop]; rfl, hi'⟩

end

/-! ## Round trips -/

/-- A program packs an integer and goes on with any other operations.  Wherever the bytes then
are in an object, in whatever chunks, unpacking from there ends right behind them, and it gives
the same integer if and only if the format can hold it. -/
theorem integer_roundtrip (f : IntegerFormat) (hostBig : Bool) (value : BitVec width)
    (ops more : List Op) {A A' : Spec} (hops : Spec.machine.run Spec.machine.start ops = some A)
    (hmore : Spec.machine.run (A.add (packedBytes f hostBig value)) more = some A') :
    ∃ s, machine.run machine.start
        (ops ++ integerPack A.objs.length f hostBig value ++ more) = some s ∧
      ∀ (n : ℕ) (o : Obj), A'.objs[n]? = some o → ∃ e cs, s.objs[n]? = some e.1 ∧ Layout s.heap (e :: cs) ∧
        content (e :: cs) = o.content ∧
        ∀ i stop k m l a c r, Designates (e :: cs) i k → Stands (e :: cs) stop m l a c r →
          stop.cur ≤ c.data.length → k + f.octets ≤ m →
          packedBytes f hostBig value <+: o.content.drop k →
          ∃ result i', integerUnpack s.heap f hostBig width i stop = some (.ok result, i') ∧
            Designates (e :: cs) i' (k + f.octets) ∧ (result = value ↔ f.Holds value) := by
  have hrun : Spec.machine.run Spec.machine.start
      (ops ++ integerPack A.objs.length f hostBig value ++ more) = some A' := by
    rw [List.append_assoc, Machine.run_append, hops, Option.bind_some, Machine.run_append,
      run_integerPack, Option.bind_some, hmore]
  obtain ⟨s, hs, hobjs⟩ := run_layout _ A' hrun
  refine ⟨s, hs, fun n o ho => ?_⟩
  obtain ⟨e, cs, he, hlayout, hcontent⟩ := hobjs n o ho
  refine ⟨e, cs, he, hlayout, hcontent, fun i stop k m l a c r hi hj hin hkm hpre => ?_⟩
  rw [← hcontent] at hpre
  obtain ⟨i', hunpack, hi'⟩ := integerUnpack_eq hlayout hi hj hin hkm hpre
  exact ⟨_, i', hunpack, hi', castToWidth_castToWidth f value⟩

def int16Big : IntegerFormat := ⟨2, by decide, true, .big⟩

/-- The number 258 is packed, and appended to an object with one byte. -/
theorem integer_roundtrip_appended :
    ∃ s, machine.run machine.start ([.newFromData [7]] ++
        integerPack 1 int16Big false (258 : BitVec 32) ++ [.append 0 1]) = some s ∧
      ∃ e cs, s.objs[0]? = some e.1 ∧ Layout s.heap (e :: cs) ∧ content (e :: cs) = [7, 1, 2] := by
  have hbytes : packedBytes int16Big false (258 : BitVec 32) = [1, 2] := by decide
  have hmore : Spec.machine.run
      (Spec.add ⟨[⟨[7], 0⟩], []⟩ (packedBytes int16Big false (258 : BitVec 32))) [.append 0 1] =
        some ⟨[⟨[7, 1, 2], 0⟩, ⟨[1, 2], 0⟩], []⟩ := by
    rw [hbytes]
    rfl
  obtain ⟨s, hs, hobjs⟩ :=
    integer_roundtrip int16Big false (258 : BitVec 32) [.newFromData [7]] [.append 0 1] rfl hmore
  obtain ⟨e, cs, he, hlayout, hcontent, -⟩ := hobjs 0 _ rfl
  exact ⟨s, hs, e, cs, he, hlayout, hcontent⟩

end Hilti.Packing
