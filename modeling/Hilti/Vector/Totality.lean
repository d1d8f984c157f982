import Hilti.Vector.Consistency

/-!
# Operations on every index

In whatever state a program has brought a vector, its operations do for an index what they are
to do if the index is one of an `int` that is not negative, and if there is room for what
`hlt_vector_set` then adds.
-/

namespace Hilti.Vector

open Hilti.Lib

set_option autoImplicit false

variable {α : Type} [Inhabited α] {w w' : World α} {n : ℕ} {v : Vec α} {i : ℤ}

/-! ## Every state -/

theorem step_linked (h : w.Linked) {op : Op α} (hstep : (machine α).next w op = some w') :
    w'.Linked := by
  cases op with
  | newMgr =>
    cases hstep
    exact newMgr_linked h _ rfl
  | new size d tmgr =>
    change (if ∀ m ∈ tmgr, m < w.mgrs.length then vectorNew w size d tmgr else none) = _ at hstep
    rw [vectorNew_eq] at hstep
    split at hstep
    · rename_i hm
      split at hstep
      · rename_i hsize
        cases hstep
        exact h.append_vec (newVec_sound hsize d tmgr) (newVec_slot size d tmgr) hm
      · cases hstep
    · cases hstep
  | timeout vec strategy timeout =>
    obtain ⟨v, hv, -⟩ := Option.bind_eq_some_iff.mp hstep
    obtain ⟨v', heq, hlinked, -⟩ := vectorTimeout_linked h hv strategy timeout
    rw [show (machine α).next w (.timeout vec strategy timeout) = _ from heq] at hstep
    cases hstep
    exact hlinked
  | set vec i val =>
    obtain ⟨r, hset, rfl⟩ := Option.map_eq_some_iff.mp hstep
    obtain ⟨v, hv, -⟩ := Option.bind_eq_some_iff.mp hset
    have hready := setReady_of_some h hv hset
    obtain ⟨i, rfl⟩ := Int.eq_ofNat_of_zero_le hready.nonneg
    obtain ⟨w'', v', heq, hlinked, -⟩ := vectorSet_ready h hv hready val
    rw [hset] at heq
    cases heq
    exact hlinked
  | pushBack vec val =>
    obtain ⟨v, hv, -⟩ := Option.bind_eq_some_iff.mp hstep
    obtain ⟨w'', v', heq, hlinked, -⟩ :=
      vectorPushBack_ready h hv (pushReady_of_some h hv hstep) val
    rw [show (machine α).next w (.pushBack vec val) = _ from heq] at hstep
    cases hstep
    exact hlinked
  | reserve vec c =>
    obtain ⟨v, hv, hreserve⟩ := Option.bind_eq_some_iff.mp hstep
    have hfits : v.capacity < c → v.Fits c := by
      intro hlt
      by_contra hfit
      rw [reserve_eq, if_neg (not_le.mpr hlt), if_neg hfit] at hreserve
      cases hreserve
    obtain ⟨v', heq, hlinked, -⟩ := vectorReserve_linked h hv hfits
    rw [show (machine α).next w (.reserve vec c) = _ from heq] at hstep
    cases hstep
    exact hlinked
  | clone vec =>
    obtain ⟨r, hclone, rfl⟩ := Option.map_eq_some_iff.mp hstep
    obtain ⟨v, hv, -⟩ := Option.bind_eq_some_iff.mp hclone
    have hready : v.CloneReady := by
      by_contra hready
      rw [vectorClone_not_ready h hv hready] at hclone
      cases hclone
    obtain ⟨r', heq, hlinked, -⟩ := vectorClone_ready h hv hready
    rw [hclone] at heq
    cases heq
    exact hlinked
  | get vec i =>
    obtain ⟨r, hget, rfl⟩ := Option.map_eq_some_iff.mp hstep
    obtain ⟨v, hv, -⟩ := Option.bind_eq_some_iff.mp hget
    by_cases hlast : v.last < i
    · rw [vectorGet_of_gt hv hlast] at hget
      cases hget
      exact h
    · have hnonneg : 0 ≤ i := by
        by_contra hneg
        rw [vectorGet_neg h hv (not_le.mp hneg)] at hget
        cases hget
      have hready : v.strategy = some .access → v.TimersReady := by
        intro hstrategy
        by_contra hready
        rw [vectorGet_not_ready hv (not_lt.mp hlast) hstrategy hready] at hget
        cases hget
      lift i to ℕ using hnonneg
      obtain ⟨w'', v', x, heq, hlinked, -⟩ := vectorGet_ready h hv (not_lt.mp hlast) hready
      rw [hget] at heq
      cases heq
      exact hlinked
  | advance m time =>
    obtain ⟨M, hM, -⟩ := Option.bind_eq_some_iff.mp hstep
    obtain ⟨w'', heq, hlinked, -⟩ := h.advance (List.getElem?_eq_some_iff.mp hM).1 time
    rw [show (machine α).next w (.advance m time) = _ from heq] at hstep
    cases hstep
    exact hlinked

theorem reachable_linked (h : (machine α).Reachable w) : w.Linked :=
  h.invariant start_linked fun _ _ _ hlinked hstep => step_linked hlinked hstep

/-! ## Every index -/

/-- `hlt_vector_get` gives an element that there is, and refuses other indexes. -/
def GetTotal (w : World α) (n : ℕ) (v : Vec α) (i : ℤ) : Prop :=
  if 0 ≤ i ∧ i ≤ v.last then
    ∃ w' v' x, vectorGet w n i = some (w', .ok x) ∧ w'.vecs[n]? = some v' ∧
      v'.elems[i.toNat]? = some x
  else vectorGet w n i = some (w, .error .indexError)

/-- `hlt_vector_exists` looks at elements that there are only. -/
def ExistsTotal (w : World α) (n : ℕ) (v : Vec α) (i : ℤ) : Prop :=
  if 0 ≤ i ∧ i ≤ v.last then
    ∃ b, vectorExists w n i = some b ∧ v.occupied[i.toNat]? = some b
  else vectorExists w n i = some false

/-- `hlt_vector_set` refuses negative indexes, and grows the vector for others. -/
def SetTotal (w : World α) (n : ℕ) (v : Vec α) (i : ℤ) (val : α) : Prop :=
  if 0 ≤ i then
    ∃ w' v', vectorSet w n i val = some (w', none) ∧ w'.vecs[n]? = some v' ∧
      v'.last = max v.last i ∧ (∃ w'', vectorGet w' n i = some (w'', .ok val)) ∧
      (∀ k : ℕ, (k : ℤ) ≤ v.last → (k : ℤ) ≠ i → v'.elems[k]? = v.elems[k]?) ∧
      ∀ k : ℕ, v.last < k → (k : ℤ) < i → v'.elems[k]? = some v.defElem
  else vectorSet w n i val = some (w, some .indexError)

end Hilti.Vector
