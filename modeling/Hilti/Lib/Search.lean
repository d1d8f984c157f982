import Mathlib.Tactic

/-!
# Searching a list that comes in parts

`FirstAt` says where a list is cut for the first time such that the rest is a hit.  A
search that knows how a hit starts, and looks for that element in one part of the list
only, gets from a part to the next one only if the part ends with the element; `Reaches`
says which positions it gets to.
-/

namespace Hilti.Lib

set_option autoImplicit false

section

variable {α : Type}

/-- The rest of the list from `k` on is the first hit. -/
def FirstAt (hit : List α → Prop) (l : List α) (k : ℕ) : Prop :=
  hit (l.drop k) ∧ ∀ j < k, ¬ hit (l.drop j)

instance (hit : List α → Prop) [DecidablePred hit] (l : List α) (k : ℕ) :
    Decidable (FirstAt hit l k) :=
  inferInstanceAs (Decidable (_ ∧ _))

/-- Every part before the one that holds position `k` ends with `a`. -/
def Reaches (a : α) : List (List α) → ℕ → Prop
  | [], _ => False
  | part :: parts, k => k < part.length ∨ (part.getLast? = some a ∧ Reaches a parts (k - part.length))

instance Reaches.decidable [DecidableEq α] (a : α) :
    (parts : List (List α)) → (k : ℕ) → Decidable (Reaches a parts k)
  | [], _ => inferInstanceAs (Decidable False)
  | part :: parts, k =>
    have := Reaches.decidable a parts (k - part.length)
    inferInstanceAs (Decidable (k < part.length ∨
      (part.getLast? = some a ∧ Reaches a parts (k - part.length))))

/-- Parts without the first one if that is empty. -/
def trimParts (part : List α) (parts : List (List α)) : List (List α) :=
  if part = [] then parts else part :: parts

theorem flatten_trimParts (part : List α) (parts : List (List α)) :
    (trimParts part parts).flatten = part ++ parts.flatten := by
  unfold trimParts
  split
  · rename_i h
    rw [h, List.nil_append]
  · rfl

def Outcome (hit : List α → Prop) (a : α) (parts : List (List α)) (r : ℕ) : Prop :=
  (FirstAt hit parts.flatten r ∧ Reaches a parts r) ∨
    ((∀ k, FirstAt hit parts.flatten k → ¬ Reaches a parts k) ∧ r = parts.flatten.length)

theorem FirstAt.unique {hit : List α → Prop} {l : List α} {j k : ℕ} (hj : FirstAt hit l j)
    (hk : FirstAt hit l k) : j = k := by
  rcases Nat.lt_trichotomy j k with hlt | heq | hgt
  · exact absurd hj.1 (hk.2 j hlt)
  · exact heq
  · exact absurd hk.1 (hj.2 k hgt)

theorem exists_firstAt {hit : List α → Prop} {l : List α} {k : ℕ} (h : hit (l.drop k)) :
    ∃ j, FirstAt hit l j := by
  classical
  have hex : ∃ j, hit (l.drop j) := ⟨k, h⟩
  exact ⟨Nat.find hex, Nat.find_spec hex, fun j hj => Nat.find_min hex hj⟩

theorem firstAt_add {hit : List α → Prop} {l : List α} {n : ℕ} (hno : ∀ j < n, ¬ hit (l.drop j))
    (k : ℕ) : FirstAt hit l (k + n) ↔ FirstAt hit (l.drop n) k := by
  unfold FirstAt
  rw [List.drop_drop, Nat.add_comm n k]
  refine and_congr_right fun _ => ⟨fun h j hj => ?_, fun h j hj => ?_⟩
  · rw [List.drop_drop]
    exact h (n + j) (by omega)
  · by_cases hlt : j < n
    · exact hno j hlt
    · have := h (j - n) (by omega)
      rwa [List.drop_drop, Nat.add_sub_cancel' (by omega)] at this

/-- Going `n` elements on inside of a part, but not past its end unless it ends with `a`. -/
theorem reaches_add {a : α} {part : List α} {parts : List (List α)} {n : ℕ} (hn : n ≤ part.length)
    (hlast : part.drop n ≠ [] ∨ part.getLast? = some a) (k : ℕ) :
    Reaches a (part :: parts) (k + n) ↔ Reaches a (trimParts (part.drop n) parts) k := by
  unfold trimParts
  split
  · rename_i hnil
    have hlen : part.length = n := by
      have := List.drop_eq_nil_iff.mp hnil
      omega
    have hsome := hlast.resolve_left (not_not.mpr hnil)
    rw [Reaches, hlen, Nat.add_sub_cancel]
    constructor
    · rintro (hlt | ⟨-, h⟩)
      · omega
      · exact h
    · exact fun h => .inr ⟨hsome, h⟩
  · rename_i hne
    have hlt : n < part.length := by
      by_contra hge
      exact hne (List.drop_eq_nil_iff.mpr (by omega))
    have hgetLast : (part.drop n).getLast? = part.getLast? := by
      rw [List.getLast?_drop, if_neg (by omega)]
    rw [Reaches, Reaches, hgetLast, List.length_drop]
    have hsub : k + n - part.length = k - (part.length - n) := by omega
    rw [hsub]
    exact or_congr ⟨fun h => by omega, fun h => by omega⟩ Iff.rfl

variable {hit : List α → Prop} {a : α} {part : List α} {parts : List (List α)}

theorem Outcome.skip {n r : ℕ} (hn : n ≤ part.length)
    (hlast : part.drop n ≠ [] ∨ part.getLast? = some a)
    (hno : ∀ j < n, ¬ hit ((part :: parts).flatten.drop j))
    (h : Outcome hit a (trimParts (part.drop n) parts) r) : Outcome hit a (part :: parts) (r + n) := by
  have hflat : (trimParts (part.drop n) parts).flatten = (part :: parts).flatten.drop n := by
    rw [flatten_trimParts, List.flatten_cons, List.drop_append_of_le_length hn]
  unfold Outcome at h ⊢
  rw [hflat] at h
  obtain ⟨hfirst, hreach⟩ | ⟨hnone, hr⟩ := h
  · exact .inl ⟨(firstAt_add hno r).mpr hfirst, (reaches_add hn hlast r).mpr hreach⟩
  · refine .inr ⟨fun k hk => ?_, ?_⟩
    · by_cases hlt : k < n
      · exact absurd hk.1 (hno k hlt)
      · obtain ⟨m, rfl⟩ : ∃ m, k = m + n := ⟨k - n, by omega⟩
        rw [reaches_add hn hlast]
        exact hnone m ((firstAt_add hno m).mp hk)
    · rw [hr, List.length_drop, List.flatten_cons, List.length_append]
      omega

theorem Outcome.found {k : ℕ} (hk : k < part.length)
    (hfirst : FirstAt hit (part :: parts).flatten k) : Outcome hit a (part :: parts) k :=
  .inl ⟨hfirst, .inl hk⟩

theorem Outcome.stop (hstart : ∀ l, hit l → l.head? = some a) (hmem : a ∉ part) :
    Outcome hit a (part :: parts) (part :: parts).flatten.length := by
  refine .inr ⟨fun k hk hreach => ?_, rfl⟩
  obtain hlt | ⟨hlast, -⟩ := hreach
  · have hhead := hstart _ hk.1
    rw [List.flatten_cons, List.head?_drop, List.getElem?_append_left hlt] at hhead
    exact hmem (List.mem_of_getElem? hhead)
  · exact hmem (List.mem_of_getLast? hlast)

theorem Outcome.nil (hstart : ∀ l, hit l → l.head? = some a) (hnil : parts.flatten = []) :
    Outcome hit a parts 0 := by
  refine .inr ⟨fun k hk _ => ?_, by rw [hnil]; rfl⟩
  have hhead := hstart _ hk.1
  simp [hnil] at hhead

end

end Hilti.Lib
