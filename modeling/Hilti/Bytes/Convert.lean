import Mathlib.Data.Nat.Digits.Defs
import Mathlib.Tactic.IntervalCases
import Hilti.Bytes.Compare

/-!
# Numbers in bytes objects

`hlt_bytes_to_int` reads a number that is written in digits, `hlt_bytes_to_uint_binary` and
`hlt_bytes_to_int_binary` one that is given by its bytes.  All three go over the bytes with
an iterator and keep what they have read so far in an `int64_t`, whose arithmetic wraps
around.
-/

namespace Hilti.Bytes

open Hilti.Lib

set_option autoImplicit false

/-! ## The loop -/

/-- The loop of the conversions: each byte up to the end changes the variables or raises
an exception. -/
def scanLoop {σ : Type} (H : Heap) (step : σ → UInt8 → Except Error σ) :
    ℕ → Iter → σ → Option (Except Error σ)
  | 0, _, _ => none
  | fuel + 1, cur, v => do
    let e ← isEnd H cur
    if e then some (.ok v)
    else do
      let ch ← byteAt H cur
      match step v ch with
      | .error x => some (.error x)
      | .ok v => do
        let cur ← incrOnce H cur
        scanLoop H step fuel cur v

section

variable {σ : Type} {H : Heap} {x : Shape} (step : σ → UInt8 → Except Error σ)

theorem scanLoop_spec (hx : Rep H x) (fuel : ℕ) :
    ∀ {i : Iter} {k a p : ℕ} {c : Chunk} {cs : Chunks} (v : σ), Normal H x i k a c p cs →
      x.written.length - k < fuel →
      scanLoop H step fuel i v = some ((x.written.drop k).foldlM step v) := by
  induction fuel with
  | zero =>
    intro i k a p c cs v _ hf
    omega
  | succ fuel ih =>
    intro i k a p c cs v h hf
    have hle := h.pos_le
    rw [scanLoop, h.isEnd_eq hx]
    simp only [Option.bind_eq_bind, Option.bind_some, decide_eq_true_eq]
    by_cases hk : k = x.written.length
    · rw [if_pos hk, List.drop_of_length_le hk.ge]
      rfl
    have hk' : k < x.written.length := by omega
    rw [if_neg hk, List.drop_eq_getElem_cons hk', List.foldlM_cons, h.byteAt_eq hk',
      Option.bind_some]
    cases step v x.written[k] with
    | error e => rfl
    | ok v' =>
      obtain ⟨i', _, _, _, _, hincr, h', -⟩ := h.incrOnce_spec hx hk'
      rw [hincr]
      exact ih v' h' (by omega)

theorem scanLoop_begin (hx : Rep H x) (v : σ) :
    ∃ i, bytesBegin H x.first = some i ∧ ∀ fuel, x.obj.content.length < fuel →
      scanLoop H step fuel i v = some (x.obj.content.foldlM step v) := by
  obtain ⟨i, _, _, _, _, hbegin, h⟩ := bytesBegin_normal hx
  refine ⟨i, hbegin, fun fuel hf => ?_⟩
  exact scanLoop_spec step hx fuel v h (by rwa [← List.length_drop])

end

/-! ## Numbers in digits -/

/-- `isdigit`, `isalpha` and `tolower` in a locale without other letters. -/
def isDigit (ch : UInt8) : Bool :=
  48 ≤ ch && ch ≤ 57

def isAlpha (ch : UInt8) : Bool :=
  (65 ≤ ch && ch ≤ 90) || (97 ≤ ch && ch ≤ 122)

def toLower (ch : UInt8) : UInt8 :=
  if 65 ≤ ch && ch ≤ 90 then ch + 32 else ch

/-- An `int64_t` after an operation that has the given result in the integers. -/
def int64 (v : ℤ) : ℤ :=
  v.bmod (2 ^ 64)

/-- The variables of `hlt_bytes_to_int`. -/
structure IntVars where
  value : ℤ
  t : ℤ
  first : Bool
  negate : Bool

/-- What the loop does once it has the digit of a character. -/
def IntVars.accept (v : IntVars) (base : ℤ) : Except Error IntVars :=
  if v.t ≥ base then .error .valueError
  else .ok { v with value := int64 (v.value * base + v.t), first := false }

/-- The body of the loop of `hlt_bytes_to_int`.  A minus sign goes on with the digit that
`t` has initially. -/
def toIntStep (base : ℤ) (v : IntVars) (ch : UInt8) : Except Error IntVars :=
  if isDigit ch then { v with t := int8 ch - 48 }.accept base
  else if isAlpha ch then { v with t := 10 + int8 (toLower ch) - 97 }.accept base
  else if v.first ∧ ch = 45 then { v with negate := true }.accept base
  else .error .valueError

/-- `hlt_bytes_to_int`. -/
def bytesToInt (H : Heap) (fuel : ℕ) (b : ℕ) (base : ℤ) : Option (Except Error ℤ) := do
  let cur ← bytesBegin H b
  let r ← scanLoop H (toIntStep base) fuel cur ⟨0, 0, true, false⟩
  some (r.map fun v => if v.negate then int64 (-v.value) else v.value)

/-- What a character stands for as a digit. -/
def charValue (ch : UInt8) : Option ℕ :=
  if isDigit ch then some (ch.toNat - 48)
  else if isAlpha ch then some (10 + ((toLower ch).toNat - 97))
  else none

/-- The digit of a base that a character is. -/
def digitOf (base : ℕ) (ch : UInt8) : Option ℕ :=
  (charValue ch).filter (· < base)

/-- The number that digits denote. -/
def numberOf (base : ℕ) (text : List UInt8) : Option ℕ :=
  (text.mapM (digitOf base)).map fun ds => Nat.ofDigits base ds.reverse

/-- The content is an optional minus sign and at least one digit, and denotes the number. -/
def Denotes (base : ℕ) (l : List UInt8) (v : ℤ) : Prop :=
  ∃ text n, text ≠ [] ∧ numberOf base text = some n ∧
    ((l = text ∧ v = n) ∨ (l = 45 :: text ∧ v = -n))

/-- The characters after an optional minus sign. -/
def unsigned : List UInt8 → List UInt8
  | 45 :: l => l
  | l => l

def FitsInt64 (v : ℤ) : Prop :=
  -2 ^ 63 ≤ v ∧ v < 2 ^ 63

theorem isDigit_iff (ch : UInt8) : isDigit ch ↔ 48 ≤ ch.toNat ∧ ch.toNat ≤ 57 := by
  simp [isDigit, UInt8.le_iff_toNat_le]

theorem isAlpha_iff (ch : UInt8) : isAlpha ch ↔
    (65 ≤ ch.toNat ∧ ch.toNat ≤ 90) ∨ (97 ≤ ch.toNat ∧ ch.toNat ≤ 122) := by
  simp [isAlpha, UInt8.le_iff_toNat_le]

theorem toLower_toNat {ch : UInt8} (h : isAlpha ch) :
    97 ≤ (toLower ch).toNat ∧ (toLower ch).toNat ≤ 122 := by
  rw [isAlpha_iff] at h
  unfold toLower
  split
  · rename_i hup
    simp only [Bool.and_eq_true, decide_eq_true_eq, UInt8.le_iff_toNat_le] at hup
    have hup' : 65 ≤ ch.toNat ∧ ch.toNat ≤ 90 := hup
    rw [UInt8.toNat_add, show (32 : UInt8).toNat = 32 from rfl]
    omega
  · rename_i hup
    simp only [Bool.and_eq_true, decide_eq_true_eq, UInt8.le_iff_toNat_le] at hup
    have hup' : ¬ (65 ≤ ch.toNat ∧ ch.toNat ≤ 90) := hup
    omega

theorem int8_small {ch : UInt8} (h : ch.toNat < 128) : int8 ch = ch.toNat := if_pos h

theorem toIntStep_value {ch : UInt8} {d : ℕ} (hch : charValue ch = some d) (base : ℤ)
    (v : IntVars) : toIntStep base v ch = { v with t := d }.accept base := by
  unfold charValue at hch
  unfold toIntStep
  by_cases hd : isDigit ch
  · rw [if_pos hd] at hch ⊢
    cases hch
    rw [isDigit_iff] at hd
    rw [int8_small (by omega), Nat.cast_sub hd.1]
    rfl
  · rw [if_neg hd] at hch ⊢
    by_cases ha : isAlpha ch
    · rw [if_pos ha] at hch ⊢
      cases hch
      have hlow := toLower_toNat ha
      rw [int8_small (by omega)]
      congr 2
      push_cast [Nat.cast_sub hlow.1]
      ring
    · simp [ha] at hch

theorem toIntStep_other {ch : UInt8} (hch : charValue ch = none) (base : ℤ) {v : IntVars}
    (hv : ¬ (v.first = true ∧ ch = 45)) : toIntStep base v ch = .error .valueError := by
  unfold charValue at hch
  unfold toIntStep
  split at hch
  · cases hch
  · rename_i hd
    split at hch
    · cases hch
    · rename_i ha
      rw [if_neg hd, if_neg ha, if_neg hv]

theorem toIntStep_digit {base : ℕ} {ch : UInt8} {d : ℕ} (hd : digitOf base ch = some d)
    (v : IntVars) : toIntStep base v ch = .ok ⟨int64 (v.value * base + d), d, false, v.negate⟩ := by
  obtain ⟨hch, hlt⟩ := Option.filter_eq_some_iff.mp hd
  have hlt' : ¬ (d : ℤ) ≥ base := by
    have : d < base := by simpa using hlt
    omega
  rw [toIntStep_value hch, IntVars.accept, if_neg hlt']

theorem toIntStep_refused {base : ℕ} {ch : UInt8} (hd : digitOf base ch = none) {v : IntVars}
    (hv : ¬ (v.first = true ∧ ch = 45)) : toIntStep base v ch = .error .valueError := by
  cases hch : charValue ch with
  | none => exact toIntStep_other hch base hv
  | some d =>
    have hge : (d : ℤ) ≥ base := by
      have hge := Option.filter_eq_none_iff.mp hd d hch
      simp only [decide_eq_true_eq, not_lt] at hge
      exact_mod_cast hge
    rw [toIntStep_value hch, IntVars.accept, if_pos hge]

theorem int64_step (n : ℤ) (base d : ℤ) : int64 (int64 n * base + d) = int64 (n * base + d) := by
  unfold int64
  rw [← Int.bmod_add_bmod, Int.bmod_mul_bmod, Int.bmod_add_bmod]

theorem foldlM_digits (base : ℕ) : ∀ (text : List UInt8) (ds : List ℕ) (v : IntVars) (n : ℕ),
    text.mapM (digitOf base) = some ds → v.value = int64 n →
    ∃ v', text.foldlM (toIntStep base) v = .ok v' ∧ v'.negate = v.negate ∧
      v'.value = int64 (n * base ^ ds.length + Nat.ofDigits base ds.reverse : ℕ)
  | [], ds, v, n, h, hv => by
    cases h
    exact ⟨v, rfl, rfl, by simpa using hv⟩
  | ch :: text, ds, v, n, h, hv => by
    rw [List.mapM_cons] at h
    obtain ⟨d, hd, h⟩ := Option.bind_eq_some_iff.mp h
    obtain ⟨ds', hds, h⟩ := Option.bind_eq_some_iff.mp h
    cases h
    have hvalue : int64 (v.value * base + d) = int64 (n * base + d : ℕ) := by
      rw [hv, int64_step]
      push_cast
      rfl
    obtain ⟨v', hv', hneg, hval⟩ := foldlM_digits base text ds'
      ⟨int64 (v.value * base + d), d, false, v.negate⟩ (n * base + d) hds hvalue
    refine ⟨v', ?_, hneg, ?_⟩
    · rw [List.foldlM_cons, toIntStep_digit hd]
      exact hv'
    · rw [hval, Nat.ofDigits_reverse_cons, List.length_cons, pow_succ]
      congr 2
      ring

theorem foldlM_refused (base : ℕ) : ∀ (text : List UInt8) (v : IntVars),
    text.mapM (digitOf base) = none → (v.first = true → text.head? ≠ some 45) →
    text.foldlM (toIntStep base) v = .error .valueError
  | [], _, h, _ => by cases h
  | ch :: text, v, h, hv => by
    rw [List.foldlM_cons]
    cases hd : digitOf base ch with
    | none =>
      rw [toIntStep_refused hd fun hfirst => hv hfirst.1 (by rw [hfirst.2]; rfl)]
      rfl
    | some d =>
      have hrest : text.mapM (digitOf base) = none := by
        cases hm : text.mapM (digitOf base) with
        | none => rfl
        | some ds => simp [List.mapM_cons, hd, hm] at h
      rw [toIntStep_digit hd]
      exact foldlM_refused base text _ hrest (by simp)

/-- What `hlt_bytes_to_int` computes of a content. -/
def toIntOf (base : ℕ) (l : List UInt8) : Except Error ℤ :=
  match numberOf base (unsigned l) with
  | none => .error .valueError
  | some n => .ok (int64 (if l.head? = some 45 then -n else n))

theorem unsigned_of_head {l : List UInt8} (h : l.head? ≠ some 45) : unsigned l = l := by
  unfold unsigned
  split
  · simp at h
  · rfl

theorem digitOf_minus (base : ℕ) : digitOf base 45 = none := by
  rw [digitOf, show charValue 45 = none by decide]
  rfl

theorem toIntStep_minus {base : ℤ} (hbase : 0 < base) :
    toIntStep base ⟨0, 0, true, false⟩ 45 = .ok ⟨0, 0, false, true⟩ := by
  have h1 : isDigit 45 = false := by decide
  have h2 : isAlpha 45 = false := by decide
  have h3 : ¬ (0 : ℤ) ≥ base := by omega
  simp only [toIntStep, h1, h2, IntVars.accept, if_neg h3]
  simp [int64]

theorem foldlM_number (base : ℕ) (text : List UInt8) (v : IntVars) (hv : v.value = 0)
    (hhead : v.first = true → text.head? ≠ some 45) :
    (text.foldlM (toIntStep base) v).map (fun v => if v.negate then int64 (-v.value) else v.value) =
      match numberOf base text with
      | none => .error .valueError
      | some n => .ok (int64 (if v.negate then -n else n)) := by
  unfold numberOf
  cases hds : text.mapM (digitOf base) with
  | none =>
    rw [foldlM_refused base text v hds hhead]
    rfl
  | some ds =>
    have hzero : v.value = int64 (0 : ℕ) := by simp [hv, int64]
    obtain ⟨v', hv', hneg, hval⟩ := foldlM_digits base text ds v 0 hds hzero
    rw [hv']
    cases hn : v.negate <;>
      simp [Except.map, hneg, hn, hval, int64, Int.bmod_neg_bmod]

theorem foldlM_toInt {base : ℕ} (hbase : 0 < base) (l : List UInt8) :
    (l.foldlM (toIntStep base) ⟨0, 0, true, false⟩).map
      (fun v => if v.negate then int64 (-v.value) else v.value) = toIntOf base l := by
  unfold toIntOf
  by_cases hhead : l.head? = some 45
  · obtain ⟨text, rfl⟩ := List.head?_eq_some_iff.mp hhead
    rw [List.foldlM_cons, toIntStep_minus (by exact_mod_cast hbase)]
    simp only [hhead, if_true]
    exact foldlM_number base text ⟨0, 0, false, true⟩ rfl (by simp)
  · simp only [unsigned_of_head hhead, if_neg hhead]
    exact foldlM_number base l ⟨0, 0, true, false⟩ rfl fun _ => hhead

theorem bytesToInt_spec {H : Heap} {x : Shape} (hx : Rep H x) {base : ℕ} (hbase : 0 < base)
    (fuel : ℕ) (hf : x.obj.content.length < fuel) :
    bytesToInt H fuel x.first base = some (toIntOf base x.obj.content) := by
  obtain ⟨i, hbegin, hscan⟩ := scanLoop_begin (toIntStep base) hx ⟨0, 0, true, false⟩
  rw [bytesToInt, hbegin, Option.bind_eq_bind, Option.bind_some, hscan fuel hf, Option.bind_eq_bind,
    Option.bind_some, foldlM_toInt hbase]

/-! ## Which contents are numbers -/

theorem toIntOf_denotes {base : ℕ} {l : List UInt8} {v : ℤ} (h : Denotes base l v)
    (hv : FitsInt64 v) : toIntOf base l = .ok v := by
  have hfit : int64 v = v := by
    obtain ⟨h1, h2⟩ := hv
    exact Int.bmod_eq_of_le (by omega) (by omega)
  obtain ⟨text, n, hne, hn, ⟨rfl, rfl⟩ | ⟨rfl, rfl⟩⟩ := h
  · have hhead : l.head? ≠ some 45 := by
      intro hhead
      obtain ⟨text', rfl⟩ := List.head?_eq_some_iff.mp hhead
      simp [numberOf, List.mapM_cons, digitOf_minus] at hn
    simp only [toIntOf, unsigned_of_head hhead, hn, if_neg hhead, hfit]
  · simp only [toIntOf, unsigned, hn, List.head?_cons, if_true, hfit]

theorem mapM_eq_none {α β : Type} {f : α → Option β} {x : α} :
    ∀ {l : List α}, x ∈ l → f x = none → l.mapM f = none
  | y :: l, hmem, hx => by
    rw [List.mapM_cons]
    rcases List.mem_cons.mp hmem with rfl | hmem
    · rw [hx]
      rfl
    · rw [mapM_eq_none hmem hx]
      cases f y <;> rfl

theorem toIntOf_refused {base : ℕ} {l : List UInt8} {ch : UInt8} (hmem : ch ∈ unsigned l)
    (hch : digitOf base ch = none) : toIntOf base l = .error .valueError := by
  have hnone := mapM_eq_none hmem hch
  simp only [toIntOf, numberOf, hnone, Option.map_none]

/-- What the tests expect of `hlt_bytes_to_int`: a number that fits is converted, no content at
all is 0, and what has other characters in it is refused. -/
structure ConvertedInt (base : ℕ) (l : List UInt8) (r : Except Error ℤ) : Prop where
  number : ∀ v, Denotes base l v → FitsInt64 v → r = .ok v
  empty : l = [] → r = .ok 0
  refused : ∀ ch ∈ unsigned l, digitOf base ch = none → r = .error .valueError

/-- In any run, and for any object in any chunks. -/
theorem toInt_converts (ops : List Op) (A : Spec)
    (hrun : Spec.machine.run Spec.machine.start ops = some A) (b : ℕ) (o : Obj)
    (ho : A.objs[b]? = some o) (base : ℕ) (hbase : 2 ≤ base) (hbase' : base ≤ 36) :
    ∃ s a, machine.run machine.start ops = some s ∧ s.objs[b]? = some a ∧
      ∀ fuel, o.content.length < fuel →
        ∃ r, bytesToInt s.heap fuel a base = some r ∧ ConvertedInt base o.content r := by
  obtain ⟨s, hs, hprog⟩ := start_sim.run ops hrun
  obtain ⟨xs, hsim⟩ := hprog.sim
  obtain ⟨x, -, rfl, hfirst, hx⟩ := hsim.object ho
  refine ⟨s, x.first, hs, hfirst, fun fuel hf => ?_⟩
  refine ⟨_, bytesToInt_spec hx (by omega) fuel hf, fun v hv hfit => toIntOf_denotes hv hfit, ?_,
    fun ch hmem hch => toIntOf_refused hmem hch⟩
  intro hnil
  simp [hnil, toIntOf, numberOf, unsigned, int64]

/-- The content `-1f` in two chunks. -/
theorem toInt_converts_hex : ∃ s a, machine.run machine.start
    [.newFromData [45, 49], .appendRaw 0 [102]] = some s ∧ s.objs[0]? = some a ∧
    bytesToInt s.heap 4 a 16 = some (.ok (-31)) := by
  obtain ⟨s, a, hs, ha, hall⟩ := toInt_converts [.newFromData [45, 49], .appendRaw 0 [102]] _ rfl
    0 _ rfl 16 (by decide) (by decide)
  obtain ⟨r, hr, hconv⟩ := hall 4 (by decide)
  have hden : Denotes 16 [45, 49, 102] (-31) :=
    ⟨[49, 102], 31, by decide, by decide, .inr ⟨rfl, rfl⟩⟩
  have hvalue := hconv.number (-31) hden ⟨by decide, by decide⟩
  exact ⟨s, a, hs, ha, by rw [← hvalue]; exact hr⟩

/-- A number that fits is converted, and anything else is refused. -/
def ExactInt (base : ℕ) (l : List UInt8) (r : Except Error ℤ) : Prop :=
  (∀ v, Denotes base l v → FitsInt64 v → r = .ok v) ∧
    ((¬ ∃ v, Denotes base l v ∧ FitsInt64 v) → r = .error .valueError)

/-- No content at all is converted to 0. -/
theorem toInt_empty : ∃ s r, machine.run machine.start [.new] = some s ∧
    bytesToInt s.heap 1 0 10 = some r ∧ ¬ ExactInt 10 [] r := by
  refine ⟨_, .ok 0, rfl, by decide, fun h => ?_⟩
  have hnot : ¬ ∃ v, Denotes 10 [] v ∧ FitsInt64 v := by
    rintro ⟨v, ⟨text, n, hne, -, ⟨heq, -⟩ | ⟨heq, -⟩⟩, -⟩
    · exact hne heq.symm
    · cases heq
  have hrefused := h.2 hnot
  cases hrefused

end Hilti.Bytes
