import Hilti.Vector.Links

/-!
# Starting, stopping and firing the timers of vectors

Each operation on timers goes through in a state in which entries and timers are linked, and
leaves behind such a state.  Of a vector it changes no more than elements and their timers.
-/

namespace Hilti.Vector

open Hilti.Lib

set_option autoImplicit false

variable {α β : Type}

/-! ## What timers leave as it is -/

def Vec.frame (v : Vec α) : ℕ × ℤ × ℤ × α × Option ℕ × ℕ × Option ExpireStrategy × Bool :=
  (v.size, v.last, v.capacity, v.defElem, v.tmgr, v.timeout, v.strategy, v.timers.isSome)

theorem Vec.frame_eq {v v' : Vec α} : v'.frame = v.frame ↔
    v'.size = v.size ∧ v'.last = v.last ∧ v'.capacity = v.capacity ∧ v'.defElem = v.defElem ∧
      v'.tmgr = v.tmgr ∧ v'.timeout = v.timeout ∧ v'.strategy = v.strategy ∧
      v'.timers.isSome = v.timers.isSome := by
  simp only [Vec.frame, Prod.mk.injEq]

/-- What no operation changes of a vector but `hlt_vector_timeout`. -/
def Vec.kind (v : Vec α) : ℕ × α × Option ℕ × ℕ × Option ExpireStrategy × Bool :=
  (v.size, v.defElem, v.tmgr, v.timeout, v.strategy, v.timers.isSome)

theorem Vec.kind_eq {v v' : Vec α} : v'.kind = v.kind ↔
    v'.size = v.size ∧ v'.defElem = v.defElem ∧ v'.tmgr = v.tmgr ∧ v'.timeout = v.timeout ∧
      v'.strategy = v.strategy ∧ v'.timers.isSome = v.timers.isSome := by
  simp only [Vec.kind, Prod.mk.injEq]

theorem Vec.kind_of_frame {v v' : Vec α} (h : v'.frame = v.frame) : v'.kind = v.kind := by
  obtain ⟨hsize, -, -, hdef, htmgr, htimeout, hstrategy, htimers⟩ := Vec.frame_eq.mp h
  exact Vec.kind_eq.mpr ⟨hsize, hdef, htmgr, htimeout, hstrategy, htimers⟩

def World.frame (w : World α) :
    List (ℕ × ℤ × ℤ × α × Option ℕ × ℕ × Option ExpireStrategy × Bool) × ℕ :=
  (w.vecs.map Vec.frame, w.mgrs.length)

theorem World.frame_vec {w w' : World α} (h : w'.frame = w.frame) {n : ℕ} {v' : Vec α}
    (hv' : w'.vecs[n]? = some v') : ∃ v, w.vecs[n]? = some v ∧ v'.frame = v.frame := by
  have hmap := congrArg (fun f => f.1[n]?) h
  simp only [World.frame, List.getElem?_map, hv', Option.map_some] at hmap
  obtain ⟨v, hv, hframe⟩ := Option.map_eq_some_iff.mp hmap.symm
  exact ⟨v, hv, hframe.symm⟩

theorem map_set_of_some {γ : Type} {f : β → γ} {l : List β} {n : ℕ} {x y : β}
    (h : l[n]? = some x) (hf : f y = f x) : (l.set n y).map f = l.map f := by
  rw [List.map_set, hf]
  apply List.ext_getElem? fun k => ?_
  by_cases hk : k = n
  · rw [hk, getElem?_set_of_some (x := f x) (by rw [List.getElem?_map, h]; rfl),
      List.getElem?_map, h]
    rfl
  · rw [List.getElem?_set_ne (Ne.symm hk)]

theorem World.frame_setVec {w : World α} {n : ℕ} {v v' : Vec α} (hv : w.vecs[n]? = some v)
    (hframe : v'.frame = v.frame) : (w.setVec n v').frame = w.frame := by
  rw [World.frame, World.frame, World.setVec, map_set_of_some hv hframe]

theorem World.frame_setMgr (w : World α) (m : ℕ) (M : Mgr) : (w.setMgr m M).frame = w.frame := by
  rw [World.frame, World.frame, World.setMgr, List.length_set]

/-! ## An entry that expires -/

def Vec.cleared (v : Vec α) (i : ℕ) : Vec α :=
  { v with
    timers := v.timers.map fun l => l.set i none
    occupied := v.occupied.set i false
    elems := v.elems.set i v.defElem }

section

variable {v : Vec α} {i : ℕ}

theorem Vec.cleared_frame (v : Vec α) (i : ℕ) : (v.cleared i).frame = v.frame := by
  simp only [Vec.frame, Vec.cleared, Option.isSome_map]

theorem Vec.Sound.cleared (h : v.Sound) (i : ℕ) : (v.cleared i).Sound where
  last_ge := h.last_ge
  last_lt := h.last_lt
  capacity_pos := h.capacity_pos
  elems_length := by
    rw [Vec.cleared, List.length_set]
    exact h.elems_length
  occupied_length := by
    rw [Vec.cleared, List.length_set]
    exact h.occupied_length
  timers_length := by
    intro l hl
    obtain ⟨l', hl', rfl⟩ := Option.map_eq_some_iff.mp hl
    rw [List.length_set]
    exact h.timers_length l' hl'
  fits := ⟨h.fits.1, h.fits.2.1, fun hs => h.fits.2.2 (by rwa [Vec.cleared, Option.isSome_map] at hs)⟩

theorem Vec.Sound.index (h : v.Sound) (hi : (i : ℤ) ≤ v.last) :
    i < v.elems.length ∧ i < v.occupied.length ∧ ∀ l, v.timers = some l → i < l.length := by
  have hlast := h.last_lt
  have helems := h.elems_length
  have hoccupied := h.occupied_length
  refine ⟨by omega, by omega, fun l hl => ?_⟩
  have htimers := h.timers_length l hl
  omega

theorem Vec.Sound.cleared_slot (h : v.Sound) (hi : (i : ℤ) ≤ v.last) (j : ℕ) :
    (v.cleared i).slot j = if j = i then none else v.slot j := by
  cases hl : v.timers with
  | none => simp [Vec.slot, Vec.cleared, hl]
  | some l =>
    have hset := (Vec.setTimer_spec hl ((h.index hi).2.2 l hl) none).2 j
    rw [← hset]
    simp only [Vec.slot, Vec.cleared, hl, Option.map_some]

theorem vectorExpire_eq {w : World α} {n : ℕ} (hv : w.vecs[n]? = some v) (h : v.Sound)
    (hi : (i : ℤ) ≤ v.last) (hx : (v.slot i).isSome) (hm : v.tmgr.isSome) :
    vectorExpire w n i = some (w.setVec n (v.cleared i)) := by
  obtain ⟨x, hx⟩ := Option.isSome_iff_exists.mp hx
  obtain ⟨l, hl, -⟩ := Vec.slot_eq_some.mp hx
  obtain ⟨helems, hoccupied, htimers⟩ := h.index hi
  have hset := (Vec.setTimer_spec hl (htimers l hl) none).1
  simp only [vectorExpire, hv, Option.bind_eq_bind, Option.bind_some, hm, if_true, hset,
    store_natCast hoccupied, store_natCast helems, Vec.cleared, hl, Option.map_some]

end

namespace World.Inv

variable {P : ℕ → Prop} {w : World α} {n m x : ℕ} {v : Vec α} {t : Timer}

/-! ## Firing -/

theorem timerFire_eq (h : w.Inv P) (ht : w.timers[x]? = some t) (hm : t.mgr.isSome) :
    ∃ (v : Vec α) (i : ℕ), w.vecs[t.vec]? = some v ∧ t.idx = i ∧ v.slot i = some x ∧
      timerFire w x = some ((w.setVec t.vec (v.cleared i)).setTimer x { t with mgr := none }) := by
  obtain ⟨v, i, hv, hidx, hx⟩ := h.timer x t ht hm
  obtain ⟨m, hm⟩ := Option.isSome_iff_exists.mp hm
  obtain ⟨hle, t', ht', -, -, hP, hnP⟩ := h.slot _ v i x hv hx
  have hscheduled : ¬ P x := by
    intro hPx
    rw [ht] at ht'
    cases ht'
    rw [hP hPx] at hm
    cases hm
  have hexpire := vectorExpire_eq hv (h.sound _ v hv) hle (by rw [hx]; rfl) (hnP hscheduled).1
  refine ⟨v, i, hv, hidx, hx, ?_⟩
  simp only [timerFire, ht, Option.bind_eq_bind, Option.bind_some, hm, hidx, hexpire]

theorem fire (h : w.Inv P) (ht : w.timers[x]? = some t) (hm : t.mgr.isSome)
    (hqueue : ∀ (m : ℕ) (M : Mgr), w.mgrs[m]? = some M → x ∉ M.queue) :
    ∃ w', timerFire w x = some w' ∧ w'.Inv P ∧ w'.frame = w.frame ∧ w'.mgrs = w.mgrs ∧
      ∃ (v : Vec α) (i : ℕ), w.vecs[t.vec]? = some v ∧ t.idx = i ∧
        w'.vecs = w.vecs.set t.vec (v.cleared i) := by
  obtain ⟨v, i, hv, hidx, hx, heq⟩ := h.timerFire_eq ht hm
  have hsound := h.sound _ v hv
  have hle := (h.slot _ v i x hv hx).1
  refine ⟨_, heq, ?_, World.frame_setVec hv (v.cleared_frame i), rfl, v, i, hv, hidx, rfl⟩
  exact h.detach hv hx ht (hsound.cleared i) rfl rfl (hsound.cleared_slot hle) rfl rfl
    fun m M hM => ⟨M, hM, List.Sublist.refl _, hqueue m M hM⟩

theorem queue_mgr (h : w.Inv P) (ht : w.timers[x]? = some t) {M : Mgr} (hM : w.mgrs[m]? = some M)
    (hx : x ∈ M.queue) : t.mgr = some m := by
  obtain ⟨t', ht', hm⟩ := h.queue m M x hM hx
  rw [ht] at ht'
  cases ht'
  exact hm

theorem not_queued (h : w.Inv P) (ht : w.timers[x]? = some t) (hm : t.mgr = some m) (M' : Mgr)
    (hx : x ∉ M'.queue) (k : ℕ) (N : Mgr) (hN : (w.setMgr m M').mgrs[k]? = some N) :
    x ∉ N.queue := by
  intro hmem
  rcases getElem?_set_cases hN with ⟨-, rfl⟩ | ⟨hk, hN⟩
  · exact hx hmem
  · have hmgr := h.queue_mgr ht hN hmem
    rw [hm] at hmgr
    cases hmgr
    exact hk rfl

theorem fire_dequeued (h : w.Inv P) (ht : w.timers[x]? = some t) (hm : t.mgr = some m) {M : Mgr}
    (hM : w.mgrs[m]? = some M) (M' : Mgr) (hsub : M'.queue.Sublist M.queue) (hx : x ∉ M'.queue) :
    ∃ w', timerFire (w.setMgr m M') x = some w' ∧ w'.Inv P ∧ w'.frame = w.frame ∧
      w'.mgrs = w.mgrs.set m M' ∧
      ∃ (v : Vec α) (i : ℕ), w.vecs[t.vec]? = some v ∧ t.idx = i ∧
        w'.vecs = w.vecs.set t.vec (v.cleared i) := by
  have hdequeued : (w.setMgr m M').Inv P :=
    h.setQueue hM ((h.nodup m M hM).sublist hsub) fun y hy => .inl (hsub.mem hy)
  obtain ⟨w', heq, hinv, hframe, hrest⟩ :=
    hdequeued.fire ht (by rw [hm]; rfl) (h.not_queued ht hm M' hx)
  exact ⟨w', heq, hinv, hframe.trans (w.frame_setMgr m M'), hrest⟩

/-! ## Scheduling -/

theorem enqueue (h : w.Inv P) (ht : w.timers[x]? = some t) (hm : t.mgr = some m) {M M' : Mgr}
    (hM : w.mgrs[m]? = some M) (timers : List Timer) {queue : List ℕ} (hqueue : queue.Nodup)
    (hsub : ∀ y ∈ queue, y ∈ M.queue) (hx : x ∉ queue)
    (hM' : M'.queue = queueInsert timers queue x) :
    (w.setMgr m M').Inv P := by
  have hperm : M'.queue.Perm (x :: queue) := by
    rw [hM']
    exact List.perm_orderedInsert _ _ _
  refine h.setQueue hM (hperm.nodup_iff.mpr (List.nodup_cons.mpr ⟨hx, hqueue⟩)) fun y hy => ?_
  rcases List.mem_cons.mp (hperm.mem_iff.mp hy) with rfl | hy
  · exact .inr ⟨t, ht, hm⟩
  · exact .inl (hsub y hy)

theorem schedule (h : w.Inv P) (hx : P x) {i : ℕ} (hv : w.vecs[n]? = some v)
    (hslot : v.slot i = some x) (hm : v.tmgr = some m) (time : ℕ) :
    ∃ t M w', w.timers[x]? = some t ∧ w.mgrs[m]? = some M ∧
      timerMgrSchedule w m time x = some w' ∧ w'.Inv (fun y => P y ∧ y ≠ x) ∧
      w'.frame = w.frame ∧ w'.mgrs.map Mgr.time = w.mgrs.map Mgr.time ∧
      w'.vecs = if time ≤ M.time then w.vecs.set n (v.cleared i) else w.vecs := by
  obtain ⟨hle, t, ht, hvec, hidx, hP, -⟩ := h.slot n v i x hv hslot
  subst hvec
  have hnone : t.mgr = none := hP hx
  obtain ⟨M, hM⟩ : ∃ M, w.mgrs[m]? = some M :=
    ⟨_, List.getElem?_eq_getElem (h.mgr _ v m hv hm)⟩
  have hassigned := h.assign hx ht hv hidx hslot hm time
  have hset := getElem?_set_of_some ht { t with mgr := some m, time := time }
  have hout : ∀ (k : ℕ) (N : Mgr), w.mgrs[k]? = some N → x ∉ N.queue := by
    intro k N hN hmem
    have hmgr := h.queue_mgr ht hN hmem
    rw [hnone] at hmgr
    cases hmgr
  by_cases htime : time ≤ M.time
  · obtain ⟨w', heq, hinv, hframe, hmgrs, v', i', hv', hidx', hvecs⟩ :=
      hassigned.fire hset rfl hout
    have hvv : v' = v := Option.some.inj (hv'.symm.trans hv)
    have hii : i' = i := by
      have hidx'' : t.idx = i' := hidx'
      omega
    refine ⟨t, M, w', ht, hM, ?_, hinv, hframe, by rw [hmgrs]; rfl, ?_⟩
    · simp only [timerMgrSchedule, ht, hM, Option.bind_eq_bind, Option.bind_some, hnone,
        Option.isSome_none, Bool.false_eq_true, if_false, if_pos htime]
      exact heq
    · rw [if_pos htime, hvecs, hvv, hii]
      rfl
  · let w₁ := w.setTimer x { t with mgr := some m, time := time }
    refine ⟨t, M, w₁.setMgr m { M with queue := queueInsert w₁.timers M.queue x }, ht, hM,
      ?_, ?_, ?_, map_set_of_some hM rfl, ?_⟩
    · simp only [timerMgrSchedule, ht, hM, Option.bind_eq_bind, Option.bind_some, hnone,
        Option.isSome_none, Bool.false_eq_true, if_false, if_neg htime]
      rfl
    · exact hassigned.enqueue hset rfl hM _ (h.nodup m M hM) (fun y hy => hy) (hout m M hM) rfl
    · exact World.frame_setMgr _ m _
    · rw [if_neg htime]
      rfl

/-! ## Updating and advancing -/

theorem update_timer (h : w.Inv P) (ht : w.timers[x]? = some t) (hm : t.mgr = some m) {M : Mgr}
    (hM : w.mgrs[m]? = some M) (time : ℕ) :
    ∃ w', timerUpdate w x time = some (w', none) ∧ w'.Inv P ∧ w'.frame = w.frame ∧
      (M.time < time ∧ w'.vecs = w.vecs ∨ time ≤ M.time ∧
        ∃ (v : Vec α) (i : ℕ), w.vecs[t.vec]? = some v ∧ t.idx = i ∧
          w'.vecs = w.vecs.set t.vec (v.cleared i)) := by
  obtain ⟨mgr, time₀, vec, idx⟩ := t
  obtain rfl : mgr = some m := hm
  have hnot : x ∉ M.queue.erase x := (h.nodup m M hM).not_mem_erase
  by_cases htime : time > M.time
  · let w₁ := w.setTimer x ⟨some m, time, vec, idx⟩
    refine ⟨w₁.setMgr m { M with queue := queueInsert w₁.timers (M.queue.erase x) x }, ?_, ?_,
      World.frame_setMgr w₁ m _, .inl ⟨htime, rfl⟩⟩
    · simp only [timerUpdate, ht, Option.bind_eq_bind, Option.bind_some, hM, if_pos htime]
      rfl
    · exact (h.setTime ht time).enqueue (getElem?_set_of_some ht _) rfl hM _
        ((h.nodup m M hM).erase x) (fun y hy => List.mem_of_mem_erase hy) hnot rfl
  · obtain ⟨w', heq, hinv, hframe, -, hcleared⟩ :=
      h.fire_dequeued ht rfl hM { M with queue := M.queue.erase x } List.erase_sublist hnot
    refine ⟨w', ?_, hinv, hframe, .inr ⟨not_lt.mp htime, hcleared⟩⟩
    simp only [timerUpdate, ht, Option.bind_eq_bind, Option.bind_some, hM, if_neg htime, heq]

theorem advance_loop (h : w.Inv P) (m time : ℕ) (queue : List ℕ) {M : Mgr}
    (hM : w.mgrs[m]? = some M) (hqueue : M.queue = queue) :
    ∃ w', advanceLoop m time queue w = some w' ∧ w'.Inv P ∧ w'.frame = w.frame := by
  induction queue generalizing w M with
  | nil => exact ⟨w, rfl, h, rfl⟩
  | cons x queue ih =>
    obtain ⟨t, ht, hm⟩ := h.queue m M x hM (by rw [hqueue]; exact List.mem_cons_self)
    have hnodup := h.nodup m M hM
    rw [hqueue, List.nodup_cons] at hnodup
    by_cases htime : t.time > time
    · refine ⟨w, ?_, h, rfl⟩
      simp only [advanceLoop, ht, Option.bind_eq_bind, Option.bind_some, if_pos htime]
    · obtain ⟨w₁, heq, hinv, hframe, hmgrs, -⟩ :=
        h.fire_dequeued ht hm hM { M with queue := queue }
          (by rw [hqueue]; exact List.sublist_cons_self x queue) hnodup.1
      obtain ⟨w', hloop, hinv', hframe'⟩ :=
        ih hinv (M := { M with queue := queue })
          (by rw [hmgrs]; exact getElem?_set_of_some hM _) rfl
      refine ⟨w', ?_, hinv', hframe'.trans hframe⟩
      simp only [advanceLoop, ht, Option.bind_eq_bind, Option.bind_some, if_neg htime, hM, heq,
        hloop]

theorem advance (h : w.Inv P) {m : ℕ} (hm : m < w.mgrs.length) (time : ℕ) :
    ∃ w', timerMgrAdvance w m time = some w' ∧ w'.Inv P ∧ w'.frame = w.frame := by
  obtain ⟨M, hM⟩ : ∃ M, w.mgrs[m]? = some M := ⟨_, List.getElem?_eq_getElem hm⟩
  have hset : (w.setMgr m { M with time := time }).Inv P :=
    h.setQueue hM (h.nodup m M hM) fun y hy => .inl hy
  obtain ⟨w', heq, hinv, hframe⟩ :=
    hset.advance_loop m time M.queue (getElem?_set_of_some hM _) rfl
  refine ⟨w', ?_, hinv, hframe.trans (w.frame_setMgr m _)⟩
  simp only [timerMgrAdvance, hM, Option.bind_eq_bind, Option.bind_some, heq]

end World.Inv

end Hilti.Vector
