import Mathlib.Tactic.Common

/-!
# Packed flags

Flags in an array of words of a fixed width.  The array has the flags of some first indexes; all
others have a default.  It may be extended by words that hold the default, and one flag may be
changed without any other.
-/

namespace Hilti.Lib.Packed

set_option autoImplicit false

variable {w : ℕ} (default : Bool) (words : List (BitVec w))

def flag (i : ℕ) : Bool :=
  (words[i / w]?).elim default fun word => word.getLsbD (i % w)

theorem flag_extend {fill : BitVec w} (hfill : ∀ j < w, fill.getLsbD j = default) (hw : 0 < w)
    (n i : ℕ) : flag default (words ++ List.replicate n fill) i = flag default words i := by
  unfold flag
  rw [List.getElem?_append]
  split
  · rfl
  · rename_i hlt
    rw [List.getElem?_eq_none (Nat.not_lt.mp hlt), List.getElem?_replicate]
    split
    · exact hfill _ (Nat.mod_lt _ hw)
    · rfl

theorem flag_modify (k : ℕ) (f : BitVec w → BitVec w) (i : ℕ) : flag default (words.modify k f) i =
    if i / w = k then (words[k]?).elim default fun word => (f word).getLsbD (i % w)
    else flag default words i := by
  unfold flag
  rw [List.getElem?_modify]
  split
  · rename_i hk
    rw [if_pos hk.symm, ← hk]
    cases words[k]? <;> rfl
  · rename_i hk
    rw [if_neg (Ne.symm hk)]
    cases words[i / w]? <;> rfl

theorem flag_modify_one {i : ℕ} {f : BitVec w → BitVec w} {b : Bool} (hw : 0 < w)
    (hi : i / w < words.length)
    (hf : ∀ word, ∀ j < w, (f word).getLsbD j = if j = i % w then b else word.getLsbD j) (m : ℕ) :
    flag default (words.modify (i / w) f) m = if m = i then b else flag default words m := by
  rw [flag_modify, List.getElem?_eq_getElem hi, Option.elim_some]
  by_cases hword : m / w = i / w
  · rw [if_pos hword, hf _ _ (Nat.mod_lt _ hw)]
    have hiff : m % w = i % w ↔ m = i := by
      constructor
      · intro hmod
        rw [← Nat.div_add_mod m w, ← Nat.div_add_mod i w, hword, hmod]
      · rintro rfl
        rfl
    simp only [hiff]
    split
    · rfl
    · unfold flag
      rw [hword, List.getElem?_eq_getElem hi, Option.elim_some]
  · have hne : m ≠ i := by
      rintro rfl
      exact hword rfl
    rw [if_neg hword, if_neg hne]

end Hilti.Lib.Packed
