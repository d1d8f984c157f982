import Mathlib.Data.Nat.Log
import Mathlib.Tactic.Linarith
import Mathlib.Tactic.Ring

/-!
# Rounding to significant bits

A natural number as a binary floating-point format with `p` significant bits holds it, while
its exponent stays in range: rounded to the nearest such number, and to the even one if two
are as near.
-/

namespace Hilti.Lib

set_option autoImplicit false

/-- The place of the last bit that is kept. -/
def lastBit (p m : ℕ) : ℕ :=
  m.log2 + 1 - p

def roundBits (p m : ℕ) : ℕ :=
  let unit := 2 ^ lastBit p m
  let q := m / unit
  let r := m % unit
  (if unit < 2 * r ∨ (unit = 2 * r ∧ q % 2 = 1) then q + 1 else q) * unit

theorem roundBits_error (p m : ℕ) :
    2 * m ≤ 2 * roundBits p m + 2 ^ lastBit p m ∧
      2 * roundBits p m ≤ 2 * m + 2 ^ lastBit p m := by
  have hdiv := Nat.div_add_mod m (2 ^ lastBit p m)
  have hlt := Nat.mod_lt m (show 2 ^ lastBit p m > 0 by positivity)
  rw [roundBits]
  generalize 2 ^ lastBit p m = u at hdiv hlt
  split
  · have hstep : (m / u + 1) * u = u * (m / u) + u := by ring
    omega
  · have hstep : m / u * u = u * (m / u) := Nat.mul_comm _ _
    omega

section

variable {p : ℕ} (hp : 0 < p)

include hp

theorem lastBit_zero : lastBit p 0 = 0 := by
  rw [lastBit, Nat.log2_zero]
  omega

theorem roundBits_exact {m : ℕ} (h : m < 2 ^ p) : roundBits p m = m := by
  have hlast : lastBit p m = 0 := by
    by_cases hm : m = 0
    · rw [hm, lastBit_zero hp]
    · have hlog : m.log2 < p := (Nat.log2_lt hm).mpr h
      rw [lastBit]
      omega
  rw [roundBits, hlast]
  simp [Nat.mod_one]

theorem unit_le {m : ℕ} (h : 0 < lastBit p m) : 2 ^ lastBit p m * 2 ^ p ≤ 2 * m := by
  have hm : m ≠ 0 := by
    rintro rfl
    rw [lastBit_zero hp] at h
    exact lt_irrefl 0 h
  have hlog : 2 ^ m.log2 ≤ m := Nat.log2_self_le hm
  calc 2 ^ lastBit p m * 2 ^ p = 2 ^ (m.log2 + 1) := by
        rw [← pow_add]
        congr 1
        rw [lastBit] at h ⊢
        omega
    _ = 2 * 2 ^ m.log2 := pow_succ' 2 _
    _ ≤ 2 * m := by omega

theorem roundBits_near (m : ℕ) :
    2 ^ p * m ≤ 2 ^ p * roundBits p m + m ∧ 2 ^ p * roundBits p m ≤ 2 ^ p * m + m := by
  by_cases h : 0 < lastBit p m
  · have hunit := unit_le hp h
    obtain ⟨hlow, hhigh⟩ := roundBits_error p m
    constructor
    · have hscaled := Nat.mul_le_mul_left (2 ^ p) hlow
      have hexpand : 2 ^ p * (2 * roundBits p m + 2 ^ lastBit p m) =
          2 * (2 ^ p * roundBits p m) + 2 ^ lastBit p m * 2 ^ p := by ring
      have hexpand' : 2 ^ p * (2 * m) = 2 * (2 ^ p * m) := by ring
      omega
    · have hscaled := Nat.mul_le_mul_left (2 ^ p) hhigh
      have hexpand : 2 ^ p * (2 * m + 2 ^ lastBit p m) =
          2 * (2 ^ p * m) + 2 ^ lastBit p m * 2 ^ p := by ring
      have hexpand' : 2 ^ p * (2 * roundBits p m) = 2 * (2 ^ p * roundBits p m) := by ring
      omega
  · have hm : m < 2 ^ p := by
      by_contra hge
      have hm0 : m ≠ 0 := by
        rintro rfl
        exact hge (by positivity)
      have hlog : p ≤ m.log2 := (Nat.le_log2 hm0).mpr (not_lt.mp hge)
      rw [lastBit] at h
      omega
    rw [roundBits_exact hp hm]
    omega

end

end Hilti.Lib
