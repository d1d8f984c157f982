import Hilti.Vector.Timers

/-!
# Setting an entry

What `_set_entry` does to the entry and to its timers, in a state in which those are linked.  It
goes through unless the vector is to have timers, but has no room for them.
-/

namespace Hilti.Vector

open Hilti.Lib

set_option autoImplicit false

variable {α β : Type}

theorem set_eq_self {l : List β} {n : ℕ} {x : β} (h : l[n]? = some x) : l.set n x = l := by
  obtain ⟨hlt, rfl⟩ := List.getElem?_eq_some_iff.mp h
  exact List.set_getElem_self hlt

def Vec.stopped (v : Vec α) (i : ℕ) : Vec α :=
  { v with timers := v.timers.map fun l => l.set i none }

def Vec.written (v : Vec α) (i : ℕ) (val : α) : Vec α :=
  { v with elems := v.elems.set i val, occupied := v.occupied.set i true }

def Vec.TimersReady (v : Vec α) : Prop :=
  v.tmgr.isSome → v.timeout ≠ 0 → v.timers.isSome

instance (v : Vec α) : Decidable v.TimersReady :=
  inferInstanceAs (Decidable (_ → _ → _))

/-- A timer started now for a vector would fire at once. -/
def World.Expired (w : World α) (v : Vec α) : Prop :=
  ∃ M, v.tmgr.bind (w.mgrs[·]?) = some M ∧ v.timeout ≠ 0 ∧
    (M.time + v.timeout) % 2 ^ 64 ≤ M.time

section

variable {v : Vec α} {i : ℕ}

theorem Vec.stopped_frame (v : Vec α) (i : ℕ) : (v.stopped i).frame = v.frame := by
  simp only [Vec.frame, Vec.stopped, Option.isSome_map]

theorem Vec.Sound.stopped (h : v.Sound) (i : ℕ) : (v.stopped i).Sound where
  last_ge := h.last_ge
  last_lt := h.last_lt
  capacity_pos := h.capacity_pos
  elems_length := h.elems_length
  occupied_length := h.occupied_length
  timers_length := (h.cleared i).timers_length
  fits := (h.cleared i).fits

theorem Vec.Sound.stopped_slot (h : v.Sound) (hi : (i : ℤ) ≤ v.last) (j : ℕ) :
    (v.stopped i).slot j = if j = i then none else v.slot j :=
  h.cleared_slot hi j

theorem Vec.Sound.written (h : v.Sound) (i : ℕ) (val : α) : (v.written i val).Sound where
  last_ge := h.last_ge
  last_lt := h.last_lt
  capacity_pos := h.capacity_pos
  elems_length := by
    rw [Vec.written, List.length_set]
    exact h.elems_length
  occupied_length := by
    rw [Vec.written, List.length_set]
    exact h.occupied_length
  timers_length := h.timers_length
  fits := h.fits

theorem Vec.Sound.stopped_eq (h : v.Sound) (hi : (i : ℤ) ≤ v.last) (hslot : v.slot i = none) :
    v.stopped i = v := by
  have hmap : v.timers.map (fun l => l.set i none) = v.timers := by
    cases hl : v.timers with
    | none => rfl
    | some l =>
      have hlt := (h.index hi).2.2 l hl
      have hget : l[i]? = some none := by
        simpa [Vec.slot, hl, List.getElem?_eq_getElem hlt] using hslot
      rw [Option.map_some, set_eq_self hget]
  rw [Vec.stopped, hmap]

end

namespace World.Inv

variable {P : ℕ → Prop} {w : World α} {n m i x : ℕ} {v : Vec α}

theorem stop_timer (h : w.Inv P) (hv : w.vecs[n]? = some v) (hi : (i : ℤ) ≤ v.last)
    (hP : ∀ x, v.slot i = some x → ¬ P x) :
    ∃ w', stopTimer w n i = some w' ∧ w'.Inv P ∧ w'.vecs = w.vecs.set n (v.stopped i) ∧
      w'.mgrs.map Mgr.time = w.mgrs.map Mgr.time := by
  have hsound := h.sound n v hv
  cases hslot : v.slot i with
  | none =>
    refine ⟨w, ?_, h, ?_, rfl⟩
    · simp only [Vector.stopTimer, hv, Option.bind_eq_bind, Option.bind_some]
      split
      · rename_i l _ hl
        have hlt := (hsound.index hi).2.2 l hl
        have hget : l[i]? = some none := by
          simpa [Vec.slot, hl, List.getElem?_eq_getElem hlt] using hslot
        simp only [load_natCast, hget, Option.bind_some]
      · rfl
    · rw [hsound.stopped_eq hi hslot]
      exact (set_eq_self hv).symm
  | some x =>
    obtain ⟨-, t, ht, -, -, -, hnP⟩ := h.slot n v i x hv hslot
    obtain ⟨hm, hmgr⟩ := hnP (hP x hslot)
    obtain ⟨m, hm⟩ := Option.isSome_iff_exists.mp hm
    obtain ⟨l, hl, hget⟩ := Vec.slot_eq_some.mp hslot
    obtain ⟨M, hM⟩ : ∃ M, w.mgrs[m]? = some M :=
      ⟨_, List.getElem?_eq_getElem (h.mgr n v m hv hm)⟩
    have hset := (Vec.setTimer_spec hl ((hsound.index hi).2.2 l hl) none).1
    have hstopped : v.stopped i = { v with timers := some (l.set i none) } := by
      simp only [Vec.stopped, hl, Option.map_some]
    refine ⟨⟨w.vecs.set n (v.stopped i), w.timers.set x { t with mgr := none, time := 0 },
      w.mgrs.set m { M with queue := M.queue.erase x }⟩, ?_, ?_, rfl, map_set_of_some hM rfl⟩
    · simp only [Vector.stopTimer, hv, Option.bind_eq_bind, Option.bind_some, hm, hl, load_natCast,
        hget, timerCancel, ht, hmgr, hM, hset, hstopped]
      rfl
    · refine h.detach hv hslot ht (hsound.stopped i) rfl rfl (hsound.stopped_slot hi) rfl
        List.length_set fun k N hN => ?_
      rcases getElem?_set_cases hN with ⟨rfl, rfl⟩ | ⟨hk, hN'⟩
      · exact ⟨M, hM, List.erase_sublist, (h.nodup k M hM).not_mem_erase⟩
      · refine ⟨N, hN', List.Sublist.refl _, ?_⟩
        exact h.not_queued ht (hmgr.trans hm) { M with queue := M.queue.erase x }
          (h.nodup m M hM).not_mem_erase k N hN

theorem congr_pending {Q : ℕ → Prop} (h : w.Inv P) (hPQ : ∀ x, P x ↔ Q x) : w.Inv Q := by
  have hPQ : P = Q := funext fun x => propext (hPQ x)
  rwa [← hPQ]

theorem start_timer (h : w.Inv P) (hv : w.vecs[n]? = some v) (hi : (i : ℤ) ≤ v.last)
    (hslot : v.slot i = none) (hm : v.tmgr = some m) (htimeout : v.timeout ≠ 0)
    {l : List (Option ℕ)} (hl : v.timers = some l) (hP : ¬ P w.timers.length) :
    ∃ w' v', startTimer w n i m = some w' ∧ w'.Inv P ∧ w'.frame = w.frame ∧
      w'.mgrs.map Mgr.time = w.mgrs.map Mgr.time ∧ w'.vecs = w.vecs.set n v' ∧
      (w.Expired v → v'.elems = v.elems.set i v.defElem) ∧
      (¬ w.Expired v → v'.elems = v.elems ∧ v'.occupied = v.occupied) := by
  have hsound := h.sound n v hv
  obtain ⟨hset, hsetslot⟩ :=
    Vec.setTimer_spec hl ((hsound.index hi).2.2 l hl) (some w.timers.length)
  obtain ⟨M, hM⟩ : ∃ M, w.mgrs[m]? = some M :=
    ⟨_, List.getElem?_eq_getElem (h.mgr n v m hv hm)⟩
  set v₁ : Vec α := { v with timers := some (l.set i (some w.timers.length)) } with hv₁
  have hattached := h.attach hv hslot hi (hsound.setTimers hl (some w.timers.length)) rfl rfl
    hsetslot hltTimeUnset
  obtain ⟨-, M', w', -, hM', heq, hinv, hframe, htimes, hvecs⟩ :=
    hattached.schedule (.inl rfl) (getElem?_set_of_some hv v₁) (by rw [hsetslot, if_pos rfl])
      hm ((M.time + v.timeout) % 2 ^ 64)
  have hMM : M' = M := Option.some.inj (hM'.symm.trans hM)
  subst hMM
  have hexpired : w.Expired v ↔ (M'.time + v.timeout) % 2 ^ 64 ≤ M'.time := by
    simp only [World.Expired, hm, Option.bind_some, hM, Option.some.injEq, exists_eq_left']
    exact ⟨fun h => h.2, fun h => ⟨htimeout, h⟩⟩
  have hstart : Vector.startTimer w n i m = some w' := by
    simp only [Vector.startTimer, hv, Option.bind_eq_bind, Option.bind_some, hM, hset]
    exact heq
  have hframe' : w'.frame = w.frame :=
    hframe.trans (World.frame_setVec hv (by simp only [Vec.frame, hl, Option.isSome_some]))
  have hinv' : w'.Inv P := by
    refine hinv.congr_pending fun y => ⟨fun hy => hy.1.resolve_left hy.2, fun hy => ⟨.inr hy, ?_⟩⟩
    rintro rfl
    exact hP hy
  by_cases htime : (M'.time + v.timeout) % 2 ^ 64 ≤ M'.time
  · rw [if_pos htime, List.set_set] at hvecs
    refine ⟨w', v₁.cleared i, hstart, hinv', hframe', htimes, hvecs, fun _ => rfl,
      fun hnot => absurd (hexpired.mpr htime) hnot⟩
  · rw [if_neg htime] at hvecs
    exact ⟨w', v₁, hstart, hinv', hframe', htimes, hvecs,
      fun hyes => absurd (hexpired.mp hyes) htime, fun _ => ⟨rfl, rfl⟩⟩

end World.Inv

def World.Linked (w : World α) : Prop :=
  w.Inv fun _ => False

theorem World.Expired.congr {w w' : World α} {v v' : Vec α}
    (hmgrs : w'.mgrs.map Mgr.time = w.mgrs.map Mgr.time) (htmgr : v'.tmgr = v.tmgr)
    (htimeout : v'.timeout = v.timeout) (h : w.Expired v) : w'.Expired v' := by
  obtain ⟨M, hM, hne, hle⟩ := h
  obtain ⟨m, hm, hM⟩ := Option.bind_eq_some_iff.mp hM
  have hget := congrArg (fun l => l[m]?) hmgrs
  simp only [List.getElem?_map, hM, Option.map_some] at hget
  obtain ⟨M', hM', htime⟩ := Option.map_eq_some_iff.mp hget
  refine ⟨M', ?_, by rwa [htimeout], by rwa [htimeout, htime]⟩
  rw [htmgr, hm]
  exact hM'

section

variable {w : World α} {n i : ℕ} {v : Vec α}

theorem setEntry_stored (h : w.Linked) (hv : w.vecs[n]? = some v) (hi : (i : ℤ) ≤ v.last)
    (val : α) :
    ∃ w₁, w₁.Linked ∧ w₁.frame = w.frame ∧
      w₁.vecs = w.vecs.set n ((v.stopped i).written i val) ∧
      w₁.mgrs.map Mgr.time = w.mgrs.map Mgr.time ∧
      setEntry w n i val = match v.tmgr with
        | none => some w₁
        | some m => if v.timeout ≠ 0 then startTimer w₁ n i m else some w₁ := by
  have hsound := h.sound n v hv
  obtain ⟨helems, hoccupied, -⟩ := hsound.index hi
  obtain ⟨w₁, hstop, hinv₁, hvecs₁, hmgrs₁⟩ := h.stop_timer hv hi fun _ _ => not_false
  have hv₁ : w₁.vecs[n]? = some (v.stopped i) := by
    rw [hvecs₁]
    exact getElem?_set_of_some hv _
  have hframe₁ : w₁.frame = w.frame := by
    rw [World.frame, World.frame, hvecs₁, map_set_of_some hv (v.stopped_frame i)]
    congr 1
    have hlen := congrArg List.length hmgrs₁
    rwa [List.length_map, List.length_map] at hlen
  refine ⟨w₁.setVec n ((v.stopped i).written i val), ?_, ?_, ?_, hmgrs₁, ?_⟩
  · exact hinv₁.update hv₁ ((hsound.stopped i).written i val) (fun _ => rfl) le_rfl (.inl rfl)
  · rw [← hframe₁]
    exact World.frame_setVec hv₁ rfl
  · rw [World.setVec, hvecs₁, List.set_set]
  · simp only [setEntry, hstop, Option.bind_eq_bind, Option.bind_some, hv₁]
    rw [show (v.stopped i).elems = v.elems from rfl, show (v.stopped i).occupied = v.occupied
      from rfl, store_natCast helems, Option.bind_some, store_natCast hoccupied]
    rfl

theorem setEntry_ready (h : w.Linked) (hv : w.vecs[n]? = some v) (hi : (i : ℤ) ≤ v.last)
    (hready : v.TimersReady) (val : α) :
    ∃ w' v', setEntry w n i val = some w' ∧ w'.Linked ∧ w'.frame = w.frame ∧
      w'.mgrs.map Mgr.time = w.mgrs.map Mgr.time ∧ w'.vecs = w.vecs.set n v' ∧
      (w.Expired v → v'.elems = v.elems.set i v.defElem) ∧
      (¬ w.Expired v → v'.elems = v.elems.set i val ∧ v'.occupied = v.occupied.set i true) := by
  obtain ⟨w₁, hlinked, hframe, hvecs, hmgrs, heq⟩ := setEntry_stored h hv hi val
  set v₁ := (v.stopped i).written i val with hv₁
  by_cases htimer : v.tmgr.isSome ∧ v.timeout ≠ 0
  · obtain ⟨hm, htimeout⟩ := htimer
    obtain ⟨l, hl⟩ := Option.isSome_iff_exists.mp (hready hm htimeout)
    obtain ⟨m, hm⟩ := Option.isSome_iff_exists.mp hm
    have hexpired : w₁.Expired v₁ ↔ w.Expired v :=
      ⟨fun h => h.congr hmgrs.symm rfl rfl, fun h => h.congr hmgrs rfl rfl⟩
    have hslot : v₁.slot i = none :=
      ((h.sound n v hv).stopped_slot hi i).trans (if_pos rfl)
    have hl₁ : v₁.timers = some (l.set i none) := by
      rw [hv₁, Vec.written, Vec.stopped, hl]
      rfl
    obtain ⟨w', v', hstart, hlinked', hframe', htimes', hvecs', hyes, hno⟩ :=
      hlinked.start_timer (v := v₁) (by rw [hvecs]; exact getElem?_set_of_some hv v₁) hi hslot hm
        htimeout hl₁ not_false
    refine ⟨w', v', ?_, hlinked', hframe'.trans hframe, htimes'.trans hmgrs, ?_, fun h => ?_,
      fun h => ?_⟩
    · rw [heq, hm]
      dsimp only
      rw [if_pos htimeout, hstart]
    · rw [hvecs', hvecs, List.set_set]
    · rw [hyes (hexpired.mpr h)]
      exact List.set_set _
    · exact hno fun hyes => h (hexpired.mp hyes)
  · refine ⟨w₁, v₁, ?_, hlinked, hframe, hmgrs, hvecs, fun h => ?_, fun _ => ⟨rfl, rfl⟩⟩
    · rw [heq]
      cases hm : v.tmgr with
      | none => rfl
      | some m =>
        have htimeout : v.timeout = 0 := by
          by_contra hne
          exact htimer ⟨by rw [hm]; rfl, hne⟩
        dsimp only
        rw [if_neg (not_not.mpr htimeout)]
    · obtain ⟨M, hM, hne, -⟩ := h
      obtain ⟨m, hm, -⟩ := Option.bind_eq_some_iff.mp hM
      exact absurd ⟨by rw [hm]; rfl, hne⟩ htimer

theorem setEntry_not_ready (h : w.Linked) (hv : w.vecs[n]? = some v) (hi : (i : ℤ) ≤ v.last)
    (hready : ¬ v.TimersReady) (val : α) : setEntry w n i val = none := by
  obtain ⟨w₁, hlinked, hframe, hvecs, hmgrs, heq⟩ := setEntry_stored h hv hi val
  have hm : v.tmgr.isSome := by
    by_contra hm
    exact hready fun h => absurd h hm
  have htimeout : v.timeout ≠ 0 := by
    intro htimeout
    exact hready fun _ h => absurd htimeout h
  have hl : v.timers = none := by
    by_contra hl
    exact hready fun _ _ => Option.isSome_iff_ne_none.mpr hl
  obtain ⟨m, hm⟩ := Option.isSome_iff_exists.mp hm
  have hv₁ : w₁.vecs[n]? = some ((v.stopped i).written i val) := by
    rw [hvecs]
    exact getElem?_set_of_some hv _
  have hset : ((v.stopped i).written i val).setTimer i (some w₁.timers.length) = none := by
    simp only [Vec.setTimer, Vec.written, Vec.stopped, hl, Option.map_none, Option.bind_eq_bind,
      Option.bind_none]
  rw [heq, hm]
  dsimp only
  rw [if_pos htimeout]
  cases hM : w₁.mgrs[m]? with
  | none => simp only [startTimer, hv₁, hM, Option.bind_eq_bind, Option.bind_some, Option.bind_none]
  | some M => simp only [startTimer, hv₁, hM, hset, Option.bind_eq_bind, Option.bind_some,
      Option.bind_none]

end

end Hilti.Vector
