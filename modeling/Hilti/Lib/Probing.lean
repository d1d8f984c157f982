import Mathlib

/-!
# Probing

Looking at the places of a ring of `n` places one after the other, in steps of a fixed width.  A
width that is coprime to `n` leads to every place before it comes back to the first one.
-/

namespace Hilti.Lib.Probing

set_option autoImplicit false

/-- The place that is looked at after `j` steps. -/
def place (n start inc j : ℕ) : ℕ :=
  (start + j * inc) % n

variable {n start inc : ℕ}

theorem place_zero (h : start < n) : place n start inc 0 = start := by
  rw [place, Nat.zero_mul, Nat.add_zero, Nat.mod_eq_of_lt h]

theorem place_lt (hn : 0 < n) (j : ℕ) : place n start inc j < n :=
  Nat.mod_lt _ hn

theorem place_succ (hn : 0 < n) (hinc : inc < n) (j : ℕ) :
    (if place n start inc j + inc ≥ n then place n start inc j + inc - n
      else place n start inc j + inc) = place n start inc (j + 1) := by
  have hlt : place n start inc j < n := place_lt hn j
  have hnext : place n start inc (j + 1) = (place n start inc j + inc) % n := by
    rw [place, place, Nat.mod_add_mod, Nat.succ_mul, Nat.add_assoc]
  rw [hnext]
  split
  · rename_i hge
    rw [Nat.mod_eq_sub_mod hge, Nat.mod_eq_of_lt (by omega)]
  · rename_i hlt'
    exact (Nat.mod_eq_of_lt (not_le.mp hlt')).symm

theorem place_inj (hcop : Nat.Coprime inc n) {j k : ℕ} (hj : j < n) (hk : k < n)
    (h : place n start inc j = place n start inc k) : j = k := by
  have hmod : j * inc ≡ k * inc [MOD n] := Nat.ModEq.add_left_cancel' start h
  have hcancel : j ≡ k [MOD n] := Nat.ModEq.cancel_right_of_coprime hcop.symm hmod
  exact Nat.ModEq.eq_of_lt_of_lt hcancel hj hk

theorem exists_place (hcop : Nat.Coprime inc n) {i : ℕ} (hi : i < n) :
    ∃ j < n, place n start inc j = i := by
  have hn : 0 < n := by omega
  have hinj : Function.Injective fun j : Fin n => (⟨place n start inc j, place_lt hn j⟩ : Fin n) :=
    fun j k h => Fin.ext (place_inj hcop j.isLt k.isLt (Fin.mk.inj h))
  obtain ⟨j, hj⟩ := Finite.surjective_of_injective hinj ⟨i, hi⟩
  exact ⟨j, j.isLt, Fin.mk.inj hj⟩

theorem exists_first (hcop : Nat.Coprime inc n) {stop : ℕ → Prop} {i : ℕ} (hi : i < n)
    (hstop : stop i) : ∃ j < n, stop (place n start inc j) ∧
      ∀ k < j, ¬stop (place n start inc k) := by
  classical
  obtain ⟨j, hj, hplace⟩ : ∃ j < n, place n start inc j = i := exists_place hcop hi
  have hex : ∃ j, stop (place n start inc j) := ⟨j, hplace ▸ hstop⟩
  exact ⟨Nat.find hex, (Nat.find_min' hex (hplace ▸ hstop)).trans_lt hj, Nat.find_spec hex,
    fun k hk => Nat.find_min hex hk⟩

end Hilti.Lib.Probing
