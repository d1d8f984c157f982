import Mathlib.Data.BitVec
import Mathlib.Tactic.Ring

/-!
# Integer powers

The model of `hlt_int_pow` (`libhilti/int.c`).  The running square has 64 bits, but the result is an
`int`: it is exact for as long as the power fits into 32 bits.
-/

namespace Hilti.Integers

set_option autoImplicit false

/-- The loop of `hlt_int_pow`. -/
def powLoop : ℕ → BitVec 32 → BitVec 64 → BitVec 64 → Option (BitVec 32)
  | 0, _, _, _ => none
  | fuel + 1, result, base, exp =>
    if exp = 0 then some result
    else
      -- `int` times `uint64_t`, stored in an `int`
      let result := if exp % 2 = 0 then result else (result.signExtend 64 * base).setWidth 32
      powLoop fuel result (base * base) (exp >>> 1)

/-- `hlt_int_pow`.  Each round takes one bit from the exponent. -/
def intPow (base exp : BitVec 64) : Option (BitVec 64) :=
  (powLoop 65 1 base exp).map fun result => result.signExtend 64

/-- The power is that of the integers, reduced to a signed 64-bit value. -/
def ExactPow (base exp : BitVec 64) : Prop :=
  ∃ r, intPow base exp = some r ∧ r.toInt = (base.toInt ^ exp.toNat).bmod (2 ^ 64)

/-! ## The loop -/

theorem setWidth_step (result : BitVec 32) (base : BitVec 64) :
    (result.signExtend 64 * base).setWidth 32 = result * base.setWidth 32 := by
  rw [BitVec.setWidth_mul _ _ (by decide)]
  congr 1
  apply BitVec.eq_of_getLsbD_eq
  intro i hi
  simp [hi, BitVec.getElem_signExtend, Nat.lt_trans hi (show 32 < 64 by decide)]

theorem powLoop_eq (fuel : ℕ) (result : BitVec 32) (base exp : BitVec 64)
    (hfuel : exp.toNat < 2 ^ fuel) :
    powLoop (fuel + 1) result base exp = some (result * base.setWidth 32 ^ exp.toNat) := by
  induction fuel generalizing result base exp with
  | zero =>
    have hzero : exp = 0 := BitVec.eq_of_toNat_eq (by simpa using hfuel)
    simp [powLoop, hzero]
  | succ fuel ih =>
    by_cases hzero : exp = 0
    · simp [powLoop, hzero]
    have hhalf : (exp >>> 1).toNat = exp.toNat / 2 := by
      rw [BitVec.toNat_ushiftRight, Nat.shiftRight_one]
    have hsquare : (base * base).setWidth 32 = base.setWidth 32 ^ 2 := by
      rw [BitVec.setWidth_mul _ _ (by decide), sq]
    rw [powLoop, if_neg hzero, ih _ _ _ (by rw [hhalf]; omega), hhalf, hsquare, ← pow_mul]
    congr 1
    by_cases hodd : exp % 2 = 0
    · have heven : 2 * (exp.toNat / 2) = exp.toNat := by
        have hmod : exp.toNat % 2 = 0 := congrArg BitVec.toNat hodd
        omega
      rw [if_pos hodd, heven]
    · have hrest : exp.toNat = 2 * (exp.toNat / 2) + 1 := by
        have hmod : exp.toNat % 2 ≠ 0 := fun h => hodd (BitVec.eq_of_toNat_eq h)
        omega
      rw [if_neg hodd, setWidth_step]
      conv_rhs => rw [hrest]
      ring

/-! ## The value -/

theorem toInt_pow (c : BitVec 32) (n : ℕ) : (c ^ n).toInt = (c.toInt ^ n).bmod (2 ^ 32) := by
  induction n with
  | zero =>
    rw [pow_zero, pow_zero]
    decide
  | succ n ih =>
    rw [pow_succ, BitVec.toInt_mul, ih, Int.bmod_mul_bmod, ← pow_succ]

theorem bmod_pow (a : ℤ) (m n : ℕ) : (a.bmod m ^ n).bmod m = (a ^ n).bmod m := by
  induction n with
  | zero => rw [pow_zero, pow_zero]
  | succ n ih =>
    rw [pow_succ, ← Int.bmod_mul_bmod, ih, Int.bmod_mul_bmod, Int.mul_bmod_bmod, ← pow_succ]

theorem intPow_eq (base exp : BitVec 64) :
    ∃ r, intPow base exp = some r ∧ r.toInt = (base.toInt ^ exp.toNat).bmod (2 ^ 32) := by
  refine ⟨_, by rw [intPow, powLoop_eq 64 _ _ _ exp.isLt]; rfl, ?_⟩
  have hbase : (base.setWidth 32).toInt = base.toInt.bmod (2 ^ 32) := by
    rw [BitVec.toInt_setWidth, BitVec.toInt_eq_toNat_bmod, Int.bmod_bmod_of_dvd (by decide)]
  rw [BitVec.toInt_signExtend_of_le (by decide), one_mul, toInt_pow, hbase, bmod_pow]

/-- The result is exact if and only if the reduced power is a signed 32-bit value. -/
theorem exactPow_iff (base exp : BitVec 64) :
    ExactPow base exp ↔
      -2 ^ 31 ≤ (base.toInt ^ exp.toNat).bmod (2 ^ 64) ∧
        (base.toInt ^ exp.toNat).bmod (2 ^ 64) < 2 ^ 31 := by
  obtain ⟨r, hr, hvalue⟩ := intPow_eq base exp
  have hexact : ExactPow base exp ↔
      (base.toInt ^ exp.toNat).bmod (2 ^ 32) = (base.toInt ^ exp.toNat).bmod (2 ^ 64) := by
    rw [← hvalue]
    constructor
    · rintro ⟨r', hr', hvalue'⟩
      cases hr.symm.trans hr'
      exact hvalue'
    · exact fun h => ⟨r, hr, h⟩
  rw [hexact, ← Int.bmod_bmod_of_dvd (n := 2 ^ 32) (m := 2 ^ 64) (by decide)]
  constructor
  · intro h
    rw [← h]
    exact ⟨Int.le_bmod (by decide), Int.bmod_lt (by decide)⟩
  · rintro ⟨hge, hlt⟩
    exact Int.bmod_eq_of_le (by simpa using hge) (by simpa using hlt)

/-- 2 to the power of 32 is 0 in an `int`. -/
theorem not_exactPow : ¬ ExactPow 2 32 := by
  rintro ⟨r, hr, hvalue⟩
  have hzero : intPow 2 32 = some 0 := by decide
  cases hzero.symm.trans hr
  exact absurd hvalue (by decide)

end Hilti.Integers
