import Hilti.Vector.Writing

/-!
# Reading elements

`hlt_vector_get` and `hlt_vector_exists` compare an index with the last one, but not with zero.
-/

namespace Hilti.Vector

open Hilti.Lib

set_option autoImplicit false

variable {α : Type} {w : World α} {n : ℕ} {v : Vec α}

theorem accessEntry_ready (h : w.Linked) (hv : w.vecs[n]? = some v) {i : ℕ}
    (hi : (i : ℤ) ≤ v.last) (hready : v.strategy = some .access → v.TimersReady) :
    ∃ w', accessEntry w n i = some (w', none) ∧ w'.Linked ∧ w'.frame = w.frame ∧
      (w'.vecs = w.vecs ∨ w.Expired v ∧ w'.vecs = w.vecs.set n (v.cleared i)) := by
  have hstay : accessEntry w n i = some (w, none) → ∃ w', accessEntry w n i = some (w', none) ∧
      w'.Linked ∧ w'.frame = w.frame ∧
        (w'.vecs = w.vecs ∨ w.Expired v ∧ w'.vecs = w.vecs.set n (v.cleared i)) :=
    fun heq => ⟨w, heq, h, rfl, .inl rfl⟩
  cases hm : v.tmgr with
  | none =>
    apply hstay
    simp only [accessEntry, hv, Option.bind_eq_bind, Option.bind_some, hm]
  | some m =>
    by_cases hstrategy : v.strategy = some .access ∧ v.timeout ≠ 0
    · obtain ⟨l, hl⟩ :=
        Option.isSome_iff_exists.mp (hready hstrategy.1 (by rw [hm]; rfl) hstrategy.2)
      have hlt := ((h.sound n v hv).index hi).2.2 l hl
      cases hx : l[i] with
      | none =>
        apply hstay
        simp only [accessEntry, hv, Option.bind_eq_bind, Option.bind_some, hm, if_pos hstrategy, hl,
          load_natCast, List.getElem?_eq_getElem hlt, hx]
      | some x =>
        have hget : l[i]? = some (some x) := by rw [List.getElem?_eq_getElem hlt, hx]
        obtain ⟨-, t, ht, hvec, hidx, -, hmgr⟩ :=
          h.slot n v i x hv (Vec.slot_eq_some.mpr ⟨l, hl, hget⟩)
        obtain ⟨M, hM⟩ : ∃ M, w.mgrs[m]? = some M :=
          ⟨_, List.getElem?_eq_getElem (h.mgr n v m hv hm)⟩
        obtain ⟨w', hupdate, hlinked, hframe, hvecs⟩ :=
          h.update_timer ht ((hmgr not_false).2.trans hm) hM ((M.time + v.timeout) % 2 ^ 64)
        refine ⟨w', ?_, hlinked, hframe, ?_⟩
        · simp only [accessEntry, hv, Option.bind_eq_bind, Option.bind_some, hm, if_pos hstrategy,
            hl, load_natCast, hget, hM, hupdate]
        · rcases hvecs with ⟨-, hvecs⟩ | ⟨hle, v', i', hv', hidx', hvecs⟩
          · exact .inl hvecs
          · have hii : i' = i := by omega
            rw [hvec] at hv' hvecs
            have hvv : v' = v := Option.some.inj (hv'.symm.trans hv)
            rw [hvv, hii] at hvecs
            exact .inr ⟨⟨M, by rw [hm]; exact hM, hstrategy.2, hle⟩, hvecs⟩
    · apply hstay
      simp only [accessEntry, hv, Option.bind_eq_bind, Option.bind_some, hm, if_neg hstrategy]

theorem vectorGet_ready (h : w.Linked) (hv : w.vecs[n]? = some v) {i : ℕ} (hi : (i : ℤ) ≤ v.last)
    (hready : v.strategy = some .access → v.TimersReady) :
    ∃ w' v' x, vectorGet w n i = some (w', .ok x) ∧ w'.Linked ∧ w'.frame = w.frame ∧
      w'.vecs[n]? = some v' ∧ v'.elems[i]? = some x ∧
      (v.elems[i]? = some x ∨ w.Expired v ∧ x = v.defElem) := by
  obtain ⟨w', haccess, hlinked, hframe, hvecs⟩ := accessEntry_ready h hv hi hready
  have hlt := ((h.sound n v hv).index hi).1
  obtain ⟨v', x, hv', hx, hcase⟩ : ∃ v' x, w'.vecs[n]? = some v' ∧ v'.elems[i]? = some x ∧
      (v.elems[i]? = some x ∨ w.Expired v ∧ x = v.defElem) := by
    rcases hvecs with hvecs | ⟨hexp, hvecs⟩
    · rw [hvecs]
      exact ⟨v, _, hv, List.getElem?_eq_getElem hlt, .inl (List.getElem?_eq_getElem hlt)⟩
    · rw [hvecs]
      exact ⟨v.cleared i, _, getElem?_set_of_some hv _, List.getElem?_set_self hlt,
        .inr ⟨hexp, rfl⟩⟩
  refine ⟨w', v', x, ?_, hlinked, hframe, hv', hx, hcase⟩
  simp only [vectorGet, hv, Option.bind_eq_bind, Option.bind_some, if_neg (not_lt.mpr hi),
    haccess, hv', load_natCast, hx]

theorem vectorGet_not_ready (hv : w.vecs[n]? = some v) {i : ℤ} (hi : i ≤ v.last)
    (hstrategy : v.strategy = some .access) (hready : ¬ v.TimersReady) :
    vectorGet w n i = none := by
  have hm : v.tmgr.isSome := by
    by_contra hm
    exact hready fun h => absurd h hm
  have htimeout : v.timeout ≠ 0 := by
    intro htimeout
    exact hready fun _ h => absurd htimeout h
  have hl : v.timers = none := by
    by_contra hl
    exact hready fun _ _ => Option.isSome_iff_ne_none.mpr hl
  obtain ⟨m, hm⟩ := Option.isSome_iff_exists.mp hm
  simp only [vectorGet, hv, Option.bind_eq_bind, Option.bind_some, if_neg (not_lt.mpr hi),
    accessEntry, hm, if_pos (And.intro hstrategy htimeout), hl, Option.bind_none]

theorem vectorGet_of_gt (hv : w.vecs[n]? = some v) {i : ℤ} (hi : v.last < i) :
    vectorGet w n i = some (w, .error .indexError) := by
  simp only [vectorGet, hv, Option.bind_eq_bind, Option.bind_some, if_pos hi]

theorem vectorGet_neg (h : w.Linked) (hv : w.vecs[n]? = some v) {i : ℤ} (hi : i < 0) :
    vectorGet w n i = none := by
  have hge := (h.sound n v hv).last_ge
  have hload : ∀ l : List α, load l i = none := fun l => if_neg (not_le.mpr hi)
  simp only [vectorGet, hv, Option.bind_eq_bind, Option.bind_some,
    if_neg (show ¬ i > v.last by omega), hload, Option.bind_none, Option.bind_fun_none]

theorem vectorExists_ready (h : w.Linked) (hv : w.vecs[n]? = some v) {i : ℕ}
    (hi : (i : ℤ) ≤ v.last) : vectorExists w n i = v.occupied[i]? ∧ i < v.occupied.length := by
  refine ⟨?_, ((h.sound n v hv).index hi).2.1⟩
  simp only [vectorExists, hv, Option.bind_eq_bind, Option.bind_some, if_neg (not_lt.mpr hi),
    load_natCast]

theorem vectorExists_of_gt (hv : w.vecs[n]? = some v) {i : ℤ} (hi : v.last < i) :
    vectorExists w n i = some false := by
  simp only [vectorExists, hv, Option.bind_eq_bind, Option.bind_some, if_pos hi]

end Hilti.Vector
