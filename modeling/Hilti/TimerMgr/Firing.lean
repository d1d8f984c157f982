import Hilti.TimerMgr.Queue

/-! # What an advance fires

`Inv` ties the manager links of the timers to the queue. Every operation keeps it except an update
that moves a timer ahead of its parent in the heap: `hlt_timer_update` stores the new time before it
calls `priority_queue_change_priority`, which therefore takes the new time for the old one and sifts
the timer down. From `Inv` it follows what an advance does. -/

namespace Hilti.TimerMgr
open Hilti.Lib
set_option autoImplicit false

/-- A timer is scheduled when it is linked to the manager. -/
def Scheduled (m : Mgr) (x : ℕ) : Prop := (m.timers x).mgr = true

def Inv (m : Mgr) : Prop := HeapOf m.key m.queue (Scheduled m)

theorem inv_new : Inv hltTimerMgrNew :=
  (heapOf_new hltTimerMgrNew.key).congr (fun x => by simp [Scheduled, hltTimerMgrNew]) fun _ h => h.elim

theorem key_setTimer_ne (m : Mgr) {x y : ℕ} (t : Timer) (h : y ≠ x) :
    (m.setTimer x t).key y = m.key y := by
  simp [Mgr.setTimer, Mgr.key, h]

@[simp] theorem key_setTimer_self (m : Mgr) (x : ℕ) (t : Timer) : (m.setTimer x t).key x = t.time := by
  simp [Mgr.setTimer, Mgr.key]

theorem scheduled_setTimer_ne (m : Mgr) {x y : ℕ} (t : Timer) (h : y ≠ x) :
    Scheduled (m.setTimer x t) y ↔ Scheduled m y := by
  simp [Mgr.setTimer, Scheduled, h]

@[simp] theorem scheduled_setTimer_self (m : Mgr) (x : ℕ) (t : Timer) :
    Scheduled (m.setTimer x t) x ↔ t.mgr = true := by
  simp [Mgr.setTimer, Scheduled]

theorem inv_of_unlinked {m m' : Mgr} (x : ℕ) (h : HeapOf m.key m'.queue fun y => Scheduled m y ∧ y ≠ x)
    (ht : ∀ y, y ≠ x → m'.timers y = m.timers y) (hx : (m'.timers x).mgr = false) : Inv m' := by
  refine h.congr ?_ ?_
  · intro y
    by_cases hy : y = x
    · subst hy
      simp [Scheduled, hx]
    · simp [Scheduled, ht y hy, hy]
  · intro y hy
    simp [Mgr.key, ht y hy.2]

/-! ## Firing -/

theorem hltTimerFire_scheduled {m : Mgr} {x : ℕ} (h : Scheduled m x) :
    hltTimerFire m x =
      { m.setTimer x { m.timers x with mgr := false } with fired := m.fired ++ [x] } := by
  have hm : (m.timers x).mgr = true := h
  unfold hltTimerFire
  rw [if_pos hm]

theorem hltTimerFire_inv {m : Mgr} {q : IndexedHeap ℕ} {x : ℕ} (hx : Scheduled m x)
    (h : HeapOf m.key q fun y => Scheduled m y ∧ y ≠ x) :
    Inv (hltTimerFire { m with queue := q } x) := by
  rw [hltTimerFire_scheduled (m := { m with queue := q }) hx]
  refine inv_of_unlinked x h ?_ ?_
  · intro y hy
    simp [Mgr.setTimer, hy]
  · simp [Mgr.setTimer]

/-! ## Advancing -/

/-- What `hlt_timer_mgr_advance` to time `t` has to do to manager `m`. -/
structure Advanced (m : Mgr) (t : ℕ) (m' : Mgr) : Prop where
  fires : ∃ l : List ℕ, m'.fired = m.fired ++ l ∧ l.Nodup ∧
    (∀ x, x ∈ l ↔ Scheduled m x ∧ m.key x ≤ t) ∧ l.Pairwise fun x y => m.key x ≤ m.key y
  keeps : ∀ x, Scheduled m' x ↔ Scheduled m x ∧ t < m.key x
  times : ∀ x, m'.key x = m.key x

theorem advanced_done {m : Mgr} {t : ℕ} (h : ∀ x, Scheduled m x → t < m.key x) : Advanced m t m where
  fires := by
    refine ⟨[], (List.append_nil _).symm, List.nodup_nil, ?_, List.Pairwise.nil⟩
    intro x
    simp only [List.not_mem_nil, false_iff, not_and]
    intro hx hle
    exact absurd (h x hx) (by omega)
  keeps := fun x => ⟨fun hx => ⟨hx, h x hx⟩, fun hx => hx.1⟩
  times := fun _ => rfl

theorem advanced_fire {m m' : Mgr} {q : IndexedHeap ℕ} {t x : ℕ} (hx : Scheduled m x)
    (hle : m.key x ≤ t) (hmin : ∀ y, Scheduled m y → m.key x ≤ m.key y)
    (h : Advanced (hltTimerFire { m with queue := q } x) t m') : Advanced m t m' := by
  have hfire := hltTimerFire_scheduled (m := { m with queue := q }) hx
  rw [hfire] at h
  have hkey : ∀ y, Mgr.key (hltTimerFire { m with queue := q } x) y = m.key y := by
    intro y
    rw [hfire]
    by_cases hy : y = x
    · subst hy
      simp [Mgr.key, Mgr.setTimer]
    · simp [Mgr.key, Mgr.setTimer, hy]
  have hsch : ∀ y, Scheduled (hltTimerFire { m with queue := q } x) y ↔ Scheduled m y ∧ y ≠ x := by
    intro y
    rw [hfire]
    by_cases hy : y = x
    · subst hy
      simp [Scheduled, Mgr.setTimer]
    · simp [Scheduled, Mgr.setTimer, hy]
  rw [← hfire] at h
  obtain ⟨l, hl, hnd, hmem, hpw⟩ := h.fires
  simp only [hkey, hsch] at hmem hpw
  have hfired : (hltTimerFire { m with queue := q } x).fired = m.fired ++ [x] := by
    rw [hfire]
  refine ⟨⟨x :: l, ?_, ?_, ?_, ?_⟩, ?_, ?_⟩
  · rw [hl, hfired, List.append_assoc]
    rfl
  · refine List.nodup_cons.mpr ⟨?_, hnd⟩
    intro hxl
    exact ((hmem x).mp hxl).1.2 rfl
  · intro y
    rw [List.mem_cons, hmem y]
    by_cases hy : y = x
    · subst hy
      simp [hx, hle]
    · simp [hy]
  · refine List.pairwise_cons.mpr ⟨?_, hpw⟩
    intro y hy
    exact hmin y ((hmem y).mp hy).1.1
  · intro y
    rw [h.keeps y, hkey, hsch]
    constructor
    · rintro ⟨⟨hy, -⟩, hlt⟩
      exact ⟨hy, hlt⟩
    · rintro ⟨hy, hlt⟩
      refine ⟨⟨hy, ?_⟩, hlt⟩
      rintro rfl
      omega
  · intro y
    rw [h.times y, hkey]

theorem advanceLoop_spec (t fuel : ℕ) (m : Mgr) (h : Inv m) (hf : m.queue.size ≤ fuel) :
    Inv (advanceLoop t fuel m) ∧ Advanced m t (advanceLoop t fuel m) := by
  induction fuel generalizing m with
  | zero =>
    have := h.size_pos
    omega
  | succ fuel ih =>
    unfold advanceLoop
    split
    · rename_i hpeek
      refine ⟨h, advanced_done ?_⟩
      intro x hx
      exact absurd hx (priorityQueuePeek_eq_none h hpeek x)
    · rename_i x hpeek
      obtain ⟨hx, hmin, hpop, hsize⟩ := priorityQueuePop_heapOf h hpeek
      split
      · rename_i hgt
        refine ⟨h, advanced_done ?_⟩
        intro y hy
        exact lt_of_lt_of_le hgt (hmin y hy)
      · rename_i hgt
        have hinv := hltTimerFire_inv hx hpop
        have hq : (hltTimerFire { m with queue := priorityQueuePop m.key m.queue } x).queue =
            priorityQueuePop m.key m.queue := by
          rw [hltTimerFire_scheduled (m := { m with queue := priorityQueuePop m.key m.queue }) hx]
          rfl
        obtain ⟨hi, ha⟩ := ih _ hinv (by rw [hq]; omega)
        exact ⟨hi, advanced_fire hx (by omega) hmin ha⟩

theorem hltTimerMgrAdvance_spec {m : Mgr} (h : Inv m) (t : ℕ) :
    Inv (hltTimerMgrAdvance m t) ∧ Advanced m t (hltTimerMgrAdvance m t) := by
  obtain ⟨hi, ha⟩ := advanceLoop_spec t m.queue.size { m with time := t } h le_rfl
  exact ⟨hi, ⟨ha.fires, ha.keeps, ha.times⟩⟩

/-! ## The other operations -/

theorem hltTimerMgrSchedule_inv {m : Mgr} (h : Inv m) (t x : ℕ) : Inv (hltTimerMgrSchedule m t x).1 := by
  unfold hltTimerMgrSchedule
  split
  · exact h
  · rename_i hx
    have hx' : ¬ Scheduled m x := hx
    have hS : ∀ y, Scheduled (m.setTimer x ⟨true, t⟩) y ↔ Scheduled m y ∨ y = x := by
      intro y
      by_cases hy : y = x
      · subst hy
        simp
      · rw [scheduled_setTimer_ne m _ hy]
        simp [hy]
    have hkey : ∀ y, Scheduled m y → (m.setTimer x ⟨true, t⟩).key y = m.key y := by
      intro y hy
      exact key_setTimer_ne m _ fun e => hx' (e ▸ hy)
    have hq : HeapOf (m.setTimer x ⟨true, t⟩).key m.queue (Scheduled m) :=
      HeapOf.congr h (fun _ => Iff.rfl) hkey
    dsimp only
    split
    · -- The time has passed: the timer fires without having been in the queue.
      refine hltTimerFire_inv (m := m.setTimer x ⟨true, t⟩) (q := m.queue) (by simp) ?_
      refine hq.congr ?_ fun _ _ => rfl
      intro y
      rw [hS y]
      constructor
      · exact fun hy => ⟨.inl hy, fun e => hx' (e ▸ hy)⟩
      · rintro ⟨hy | hy, hne⟩
        · exact hy
        · exact absurd hy hne
    · exact (priorityQueueInsert_heapOf hq hx').congr (fun y => (hS y).symm) fun _ _ => rfl

/-- An update moves no timer ahead of its parent in the heap. -/
def UpdateMeets (m : Mgr) (x t : ℕ) : Prop :=
  Scheduled m x → m.time < t → 1 < m.queue.pos x → m.key (m.queue.d (m.queue.pos x / 2)) ≤ t

theorem hltTimerUpdate_inv {m : Mgr} (h : Inv m) (x t : ℕ) (hc : UpdateMeets m x t) :
    Inv (hltTimerUpdate m x t).1 := by
  unfold hltTimerUpdate
  split
  · rename_i hx
    split
    · rename_i ht
      -- The key read back as the old one is already the new one, so the timer goes down.
      have hdown : (priorityQueueChangePriority (m.setTimer x { m.timers x with time := t }) t x) =
          { m.setTimer x { m.timers x with time := t } with
            queue := m.queue.percolateDown (Function.update m.key x t) (m.queue.pos x) } := by
        have hk : (m.setTimer x { m.timers x with time := t }).key = Function.update m.key x t := by
          funext y
          by_cases hy : y = x
          · subst hy
            simp
          · rw [key_setTimer_ne m _ hy, Function.update_of_ne hy]
        have hset : (m.setTimer x { m.timers x with time := t }).setTimer x
            { (m.setTimer x { m.timers x with time := t }).timers x with time := t } =
            m.setTimer x { m.timers x with time := t } := by
          simp [Mgr.setTimer]
        unfold priorityQueueChangePriority
        dsimp only
        rw [hset, hk, Function.update_self, if_neg (lt_irrefl t)]
        rfl
      rw [hdown]
      have hheap := percolateDown_rekeyed h hx t (hc hx ht)
      refine HeapOf.congr hheap ?_ ?_
      · intro y
        by_cases hy : y = x
        · subst hy
          simp [Scheduled, Mgr.setTimer]
        · simp [Scheduled, Mgr.setTimer, hy]
      · intro y _
        by_cases hy : y = x
        · subst hy
          simp [Mgr.key, Mgr.setTimer]
        · simp [Mgr.key, Mgr.setTimer, hy]
    · exact hltTimerFire_inv hx (priorityQueueRemove_heapOf h hx)
  · exact h

theorem hltTimerCancel_inv {m : Mgr} (h : Inv m) {x : ℕ} (hx : Scheduled m x) :
    ∃ m', hltTimerCancel m x = some m' ∧ Inv m' := by
  have hm : (m.timers x).mgr = true := hx
  unfold hltTimerCancel
  rw [if_pos hm]
  refine ⟨_, rfl, inv_of_unlinked x (priorityQueueRemove_heapOf h hx) ?_ ?_⟩
  · intro y hy
    simp [Mgr.setTimer, hy]
  · simp [Mgr.setTimer]

/-! ## Runs -/

/-- What an operation must meet in the state it is called in: an update moves no timer ahead of its
parent in the heap, and only scheduled timers are cancelled. -/
def Meets (m : Mgr) : Op → Prop
  | .schedule _ _ => True
  | .update x t => UpdateMeets m x t
  | .cancel x => Scheduled m x
  | .advance _ => True

theorem next_inv (m : Mgr) (op : Op) (h : Inv m) (hc : Meets m op) :
    ∃ m', machine.next m op = some m' ∧ Inv m' := by
  cases op with
  | schedule t x => exact ⟨_, rfl, hltTimerMgrSchedule_inv h t x⟩
  | update x t => exact ⟨_, rfl, hltTimerUpdate_inv h x t hc⟩
  | cancel x => exact hltTimerCancel_inv h hc
  | advance t => exact ⟨_, rfl, (hltTimerMgrAdvance_spec h t).1⟩

/-- After any run whose operations meet their conditions, an advance to `t` fires exactly the timers
scheduled at that moment with a time of at most `t`, each once and in the order of their times, and
leaves the later ones scheduled. -/
theorem advance_fires_exactly (ops : List Op) (t : ℕ) (h : machine.Along Meets hltTimerMgrNew ops) :
    ∃ m, machine.run hltTimerMgrNew ops = some m ∧ Advanced m t (hltTimerMgrAdvance m t) := by
  obtain ⟨m, hm, hi⟩ := Machine.run_invariant next_inv ops hltTimerMgrNew inv_new h
  exact ⟨m, hm, (hltTimerMgrAdvance_spec hi t).2⟩

/-- A run that schedules two timers, puts the earlier one off and cancels the other. -/
theorem advance_fires_exactly_after_update :
    machine.Along Meets hltTimerMgrNew [.schedule 10 0, .schedule 20 1, .update 0 30, .cancel 1] ∧
      ∃ m, machine.run hltTimerMgrNew [.schedule 10 0, .schedule 20 1, .update 0 30, .cancel 1] = some m ∧
        Advanced m 40 (hltTimerMgrAdvance m 40) := by
  have h : machine.Along Meets hltTimerMgrNew [.schedule 10 0, .schedule 20 1, .update 0 30, .cancel 1] := by
    refine ⟨trivial, fun m hm => ?_⟩
    cases hm
    refine ⟨trivial, fun m hm => ?_⟩
    cases hm
    refine ⟨fun _ _ hpos => absurd hpos (by decide), fun m hm => ?_⟩
    cases hm
    exact ⟨rfl, fun _ _ => trivial⟩
  exact ⟨h, advance_fires_exactly _ 40 h⟩

/-- Timer 1 is put forward from 20 to 5, ahead of timer 0 in the root of the heap, and an advance to
7 does not fire it. -/
theorem advance_misses_timer_put_forward :
    ∃ m, machine.run hltTimerMgrNew [.schedule 10 0, .schedule 20 1, .update 1 5] = some m ∧
      Scheduled m 1 ∧ m.key 1 ≤ 7 ∧ 1 ∉ (hltTimerMgrAdvance m 7).fired ∧
      ¬ Advanced m 7 (hltTimerMgrAdvance m 7) := by
  refine ⟨_, rfl, rfl, by decide, by decide, ?_⟩
  intro h
  have hk := (h.keeps 1).mp (by rfl)
  exact absurd hk.2 (by decide)

end Hilti.TimerMgr
