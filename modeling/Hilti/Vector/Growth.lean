import Hilti.Vector.Entries

/-!
# Growing vectors

The capacities that `hlt_vector_set` and `hlt_vector_push_back` ask for are larger than what
there was, and those for 32-bit indexes stay within 64 bits.
-/

namespace Hilti.Vector

open Hilti.Lib

set_option autoImplicit false

variable {α β : Type}

/-! ## Capacities -/

theorem float_near (m : ℕ) :
    2 ^ 24 * m ≤ 2 ^ 24 * float m + m ∧ 2 ^ 24 * float m ≤ 2 ^ 24 * m + m :=
  roundBits_near (by decide) m

theorem grownTwice_bounds (c : ℕ) :
    5 * (c + 1) ≤ 2 * grownTwice c ∧ 10 * grownTwice c ≤ 31 * (c + 1) := by
  obtain ⟨hlow, hhigh⟩ := float_near (c + 1)
  obtain ⟨hlow', hhigh'⟩ := float_near (3 * float (c + 1))
  rw [grownTwice]
  omega

theorem growTwice_bounds {c : ℕ} (hc : 0 < c) :
    4 * c ≤ float (float c * grownTwice c) ∧
      (c < 2 ^ 31 - 1 → float (float c * grownTwice c) / 2 < 2 ^ 63) := by
  obtain ⟨hlow, hhigh⟩ := float_near c
  obtain ⟨hlow', hhigh'⟩ := grownTwice_bounds c
  obtain ⟨hlow'', hhigh''⟩ := float_near (float c * grownTwice c)
  constructor
  · have hmul : float c * 5 ≤ float c * grownTwice c := Nat.mul_le_mul_left _ (by omega)
    omega
  · intro hlt
    have hmul : float c * grownTwice c ≤ (2 ^ 31 + 128) * 6657199309 :=
      Nat.mul_le_mul (by omega) (by omega)
    omega

theorem toInt64_eq_some {twice : ℕ} {c : ℤ} :
    toInt64 twice = some c ↔ twice / 2 < 2 ^ 63 ∧ c = (twice / 2 : ℕ) := by
  unfold toInt64
  split
  · rename_i h
    rw [Option.some.injEq]
    exact ⟨fun hc => ⟨h, hc.symm⟩, fun hc => hc.2.symm⟩
  · rename_i h
    exact ⟨fun hc => (by cases hc), fun hc => absurd hc.1 h⟩

theorem growNext_gt {c c' : ℤ} (hc : 0 < c) (h : growNext c = some c') : c < c' := by
  obtain ⟨-, rfl⟩ := toInt64_eq_some.mp h
  have hlow := (grownTwice_bounds c.toNat).1
  omega

theorem growLoop_gt {i c c' : ℤ} {fuel : ℕ} (h : growLoop i fuel c = some c') : i < c' := by
  induction fuel generalizing c with
  | zero => cases h
  | succ fuel ih =>
    rw [growLoop] at h
    split at h
    · obtain ⟨c'', -, h⟩ := Option.bind_eq_some_iff.mp h
      exact ih h
    · cases h
      omega

theorem growLoop_some {i c : ℤ} (fuel : ℕ) (hc : 0 < c) (hi : i < 2 ^ 31 - 1)
    (hfuel : i < c * 2 ^ fuel) : ∃ c', growLoop i (fuel + 1) c = some c' := by
  induction fuel generalizing c with
  | zero =>
    rw [growLoop, if_neg (by omega)]
    exact ⟨c, rfl⟩
  | succ fuel ih =>
    rw [growLoop]
    split
    · rename_i hle
      obtain ⟨hlow, hhigh⟩ := growTwice_bounds (c := c.toNat) (by omega)
      have hsome := toInt64_eq_some.mpr ⟨hhigh (by omega), rfl⟩
      rw [Option.bind_eq_bind, hsome, Option.bind_some]
      refine ih (by omega) ?_
      have hdouble : 2 * c ≤ ((float (float c.toNat * grownTwice c.toNat) / 2 : ℕ) : ℤ) := by omega
      calc i < c * 2 ^ (fuel + 1) := hfuel
        _ = 2 * c * 2 ^ fuel := by ring
        _ ≤ _ := by gcongr
    · exact ⟨c, rfl⟩

theorem growTo_some {i c : ℤ} (hc : 0 < c) (hi : i < 2 ^ 31 - 1) :
    ∃ c', growTo i c = some c' := by
  refine growLoop_some 63 hc hi ?_
  have hpos : 1 * 2 ^ 63 ≤ c * 2 ^ 63 := by gcongr; omega
  omega

/-! ## Growing the arrays -/

theorem realloc_length {l : List β} {n : ℤ} (h : (l.length : ℤ) ≤ n) (zero : β) :
    ((l ++ List.replicate (n.toNat - l.length) zero).length : ℤ) = n := by
  rw [List.length_append, List.length_replicate]
  omega

variable [Inhabited α]

def Vec.grown (v : Vec α) (n : ℤ) : Vec α :=
  { v with
    elems := v.elems ++ List.replicate (n.toNat - v.elems.length) default
    occupied := v.occupied ++ List.replicate (n.toNat - v.occupied.length) false
    timers := v.timers.map fun l => l ++ List.replicate (n.toNat - l.length) none
    capacity := n }

section

variable {v v' : Vec α} {n : ℤ}

theorem reserve_eq (v : Vec α) (n : ℤ) : reserve v n =
    if v.capacity ≥ n then some v else if v.Fits n then some (v.grown n) else none := by
  unfold reserve
  split
  · rfl
  · have hrealloc (size : ℕ) {γ : Type} (l : List γ) (zero : γ) :
        realloc l zero size n = if size * n.toNat < 2 ^ 64 then
          some (l ++ List.replicate (n.toNat - l.length) zero) else none := rfl
    by_cases hsize : v.size * n.toNat < 2 ^ 64
    · by_cases hn : n.toNat < 2 ^ 64
      · rw [hrealloc, hrealloc, one_mul, if_pos hsize, if_pos hn]
        cases hl : v.timers with
        | none =>
          rw [if_pos ⟨hsize, hn, fun h => by rw [hl] at h; cases h⟩, Vec.grown, hl]
          rfl
        | some l =>
          dsimp only
          rw [hrealloc]
          by_cases hfit : 8 * n.toNat < 2 ^ 64
          · rw [if_pos hfit, if_pos ⟨hsize, hn, fun _ => hfit⟩, Vec.grown, hl]
            rfl
          · rw [if_neg hfit, if_neg fun h => hfit (h.2.2 (by rw [hl]; rfl))]
            rfl
      · rw [hrealloc, hrealloc, one_mul, if_pos hsize, if_neg hn, if_neg fun h => hn h.2.1]
        rfl
    · rw [hrealloc, if_neg hsize, if_neg fun h => hsize h.1]
      rfl

theorem getElem?_grown {l : List β} {i : ℕ} {x : β} (h : l[i]? = some x) (m : ℕ) (zero : β) :
    (l ++ List.replicate m zero)[i]? = some x := by
  rw [List.getElem?_append_left (List.getElem?_eq_some_iff.mp h).1, h]

theorem Vec.grown_slot (v : Vec α) (n : ℤ) (i : ℕ) : (v.grown n).slot i = v.slot i := by
  cases hl : v.timers with
  | none => simp [Vec.slot, Vec.grown, hl]
  | some l =>
    simp only [Vec.slot, Vec.grown, hl, Option.map_some, Option.bind_some]
    by_cases hi : i < l.length
    · rw [List.getElem?_append_left hi]
    · rw [List.getElem?_append_right (not_lt.mp hi), List.getElem?_eq_none (not_lt.mp hi),
        List.getElem?_replicate]
      split <;> rfl

theorem Vec.grown_kind (v : Vec α) (n : ℤ) : (v.grown n).kind = v.kind := by
  simp only [Vec.kind, Vec.grown, Option.isSome_map]

theorem Vec.Sound.grown (h : v.Sound) (hn : v.capacity ≤ n) (hfits : v.Fits n) :
    (v.grown n).Sound where
  last_ge := h.last_ge
  last_lt := lt_of_lt_of_le h.last_lt hn
  capacity_pos := lt_of_lt_of_le h.capacity_pos hn
  elems_length := realloc_length (by rw [h.elems_length]; exact hn) _
  occupied_length := realloc_length (by rw [h.occupied_length]; exact hn) _
  timers_length := by
    intro l hl
    obtain ⟨l', hl', rfl⟩ := Option.map_eq_some_iff.mp hl
    exact realloc_length (by rw [h.timers_length l' hl']; exact hn) _
  fits := ⟨hfits.1, hfits.2.1, fun hs => hfits.2.2 (by rwa [Vec.grown, Option.isSome_map] at hs)⟩

end

end Hilti.Vector
