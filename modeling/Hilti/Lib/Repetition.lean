import Mathlib

/-! # Repetition in a quantale

Languages, and relations that stand for what an expression matches, are the elements of a quantale:
products are sequences and joins are choices.  `upTo a n` is the choice between at most `n`
repetitions of `a`, and `atLeast a m` that between `m` or more. -/

namespace Hilti.Lib

set_option autoImplicit false

open Quantale

variable {α : Type} [Monoid α] [CompleteLattice α]

/-- At most `n` repetitions. -/
def upTo (a : α) (n : ℕ) : α := ⨆ k ≤ n, a ^ k

/-- At least `m` repetitions. -/
def atLeast (a : α) (m : ℕ) : α := ⨆ k ≥ m, a ^ k

/-- At least `m` and at most `n` repetitions. -/
def between (a : α) (m n : ℕ) : α := ⨆ k, ⨆ (_ : m ≤ k ∧ k ≤ n), a ^ k

variable {a : α}

theorem pow_le_upTo {k n : ℕ} (h : k ≤ n) : a ^ k ≤ upTo a n :=
  le_iSup₂_of_le k h le_rfl

theorem pow_le_between {k m n : ℕ} (hm : m ≤ k) (hn : k ≤ n) : a ^ k ≤ between a m n :=
  le_iSup₂_of_le k ⟨hm, hn⟩ le_rfl

theorem upTo_le {b : α} {n : ℕ} (h : ∀ k ≤ n, a ^ k ≤ b) : upTo a n ≤ b :=
  iSup₂_le h

theorem between_le {b : α} {m n : ℕ} (h : ∀ k, m ≤ k → k ≤ n → a ^ k ≤ b) : between a m n ≤ b :=
  iSup₂_le fun k hk => h k hk.1 hk.2

theorem upTo_mono {m n : ℕ} (h : m ≤ n) : upTo a m ≤ upTo a n :=
  upTo_le fun _ hk => pow_le_upTo (hk.trans h)

theorem upTo_zero : upTo a 0 = 1 := by
  refine le_antisymm (upTo_le fun k hk => ?_) (pow_zero a ▸ pow_le_upTo le_rfl)
  rw [Nat.le_zero.mp hk, pow_zero]

theorem upTo_eq_between (n : ℕ) : upTo a n = between a 0 n :=
  le_antisymm (upTo_le fun _ hk => pow_le_between (Nat.zero_le _) hk)
    (between_le fun _ _ hk => pow_le_upTo hk)

theorem upTo_one : upTo a 1 = a ⊔ 1 := by
  refine le_antisymm (upTo_le fun k hk => ?_) (sup_le ?_ ?_)
  · rcases Nat.le_one_iff_eq_zero_or_eq_one.mp hk with rfl | rfl
    · exact (pow_zero a).le.trans le_sup_right
    · exact (pow_one a).le.trans le_sup_left
  · exact (pow_one a).ge.trans (pow_le_upTo le_rfl)
  · exact (pow_zero a).ge.trans (pow_le_upTo (Nat.zero_le 1))

theorem atLeast_zero : atLeast a 0 = ⨆ k, a ^ k := by
  simp [atLeast]

theorem atLeast_eq (m : ℕ) : atLeast a m = a ^ m ⊔ atLeast a (m + 1) := by
  refine le_antisymm (iSup₂_le fun k hk => ?_) (sup_le ?_ ?_)
  · rcases Nat.eq_or_lt_of_le hk with rfl | hlt
    · exact le_sup_left
    · exact le_sup_of_le_right (le_iSup₂_of_le k hlt le_rfl)
  · exact le_iSup₂_of_le m le_rfl le_rfl
  · exact iSup₂_le fun k hk => le_iSup₂_of_le k (Nat.le_of_succ_le hk) le_rfl

theorem between_self (m : ℕ) : between a m m = a ^ m := by
  refine le_antisymm (between_le fun k hm hk => ?_) (pow_le_between le_rfl le_rfl)
  rw [Nat.le_antisymm hk hm]

variable [IsQuantale α]

theorem mul_choice (b : α) (p : ℕ → Prop) (f : ℕ → α) :
    b * (⨆ k, ⨆ (_ : p k), f k) = ⨆ k, ⨆ (_ : p k), b * f k := by
  rw [iSup_subtype', iSup_subtype', mul_iSup_distrib]

theorem choice_mul (b : α) (p : ℕ → Prop) (f : ℕ → α) :
    (⨆ k, ⨆ (_ : p k), f k) * b = ⨆ k, ⨆ (_ : p k), f k * b := by
  rw [iSup_subtype', iSup_subtype', iSup_mul_distrib]

theorem pow_mul_atLeast (m n : ℕ) : a ^ m * atLeast a n = atLeast a (m + n) := by
  simp only [atLeast, mul_choice, ← pow_add]
  refine le_antisymm (iSup₂_le fun k hk => ?_) (iSup₂_le fun k hk => ?_)
  · exact le_iSup₂_of_le (m + k) (Nat.add_le_add_left hk m) le_rfl
  · have hk' : m + n ≤ k := hk
    exact le_iSup₂_of_le (k - m) (show n ≤ k - m by omega) (by rw [Nat.add_sub_of_le (by omega)])

theorem between_mul_between (m n m' n' : ℕ) (h : m ≤ n) (h' : m' ≤ n') :
    between a m n * between a m' n' = between a (m + m') (n + n') := by
  simp only [between, mul_choice, choice_mul, ← pow_add]
  refine le_antisymm (iSup₂_le fun k hk => iSup₂_le fun l hl => ?_) (iSup₂_le fun k hk => ?_)
  · exact le_iSup₂_of_le (l + k) ⟨by omega, by omega⟩ le_rfl
  · -- as many as possible of the first, and the rest of the second
    refine le_iSup₂_of_le (max m' (k - n)) ⟨by omega, by omega⟩ ?_
    refine le_iSup₂_of_le (k - max m' (k - n)) ⟨by omega, by omega⟩ ?_
    rw [Nat.sub_add_cancel (by omega)]

theorem upTo_mul_upTo (m n : ℕ) : upTo a m * upTo a n = upTo a (m + n) := by
  simp only [upTo_eq_between]
  exact between_mul_between 0 m 0 n (Nat.zero_le m) (Nat.zero_le n)

theorem pow_mul_upTo (m n : ℕ) : a ^ m * upTo a n = between a m (m + n) := by
  rw [upTo_eq_between, ← between_self, between_mul_between m m 0 n le_rfl (Nat.zero_le n),
    Nat.add_zero]

theorem sup_one_pow (n : ℕ) : (a ⊔ 1) ^ n = upTo a n := by
  induction n with
  | zero => rw [pow_zero, upTo_zero]
  | succ n ih => rw [pow_succ, ih, ← upTo_one, upTo_mul_upTo]

theorem upTo_of_stable {n : ℕ} (h : a ^ (n + 1) ≤ upTo a n) {m : ℕ} (hm : n ≤ m) :
    upTo a m = upTo a n := by
  refine le_antisymm (upTo_le fun k _ => ?_) (upTo_mono hm)
  induction k with
  | zero => exact pow_le_upTo (Nat.zero_le n)
  | succ k ih =>
    have hk : k ≤ m := by omega
    calc a ^ (k + 1) = a ^ k * a := pow_succ a k
      _ ≤ upTo a n * a := mul_le_mul_left (ih hk) a
      _ ≤ upTo a n := by
        simp only [upTo, choice_mul, ← pow_succ]
        refine iSup₂_le fun l hl => ?_
        rcases Nat.eq_or_lt_of_le hl with rfl | hlt
        · exact h
        · exact pow_le_upTo hlt

theorem upTo_of_one_le (h : 1 ≤ a) (n : ℕ) : upTo a n = a ^ n :=
  le_antisymm (upTo_le fun _ hk => pow_le_pow_right' h hk) (pow_le_upTo le_rfl)

theorem between_of_one_le (h : 1 ≤ a) {m n : ℕ} (hmn : m ≤ n) : between a m n = a ^ n :=
  le_antisymm (between_le fun _ _ hk => pow_le_pow_right' h hk) (pow_le_between hmn le_rfl)

theorem pow_of_stable (h : 1 ≤ a) {n : ℕ} (hn : a ^ (n + 1) ≤ a ^ n) {m : ℕ} (hm : n ≤ m) :
    a ^ m = a ^ n := by
  rw [← upTo_of_one_le h, ← upTo_of_one_le h]
  exact upTo_of_stable (by rwa [upTo_of_one_le h]) hm

end Hilti.Lib
