import Hilti.TimerMgr.Calls

/-! # The time of a manager (`libhilti/timer.c`)

Only `hlt_timer_mgr_advance` writes the time of a manager, and it writes whatever it is given. So the
time goes back when it is given a smaller one, and a timer for a time that has been passed then waits
for it to come again. -/

namespace Hilti.TimerMgr.Calls
open Hilti.Lib
set_option autoImplicit false

@[simp] theorem setQueue_time (s : Timers) (m : ℕ) (q : IndexedHeap ℕ) :
    (s.setQueue m q).time = s.time := rfl

@[simp] theorem fire_time (s : Timers) (x : ℕ) (rest : Rest) : (s.fire x rest).time = s.time := rfl

theorem advanceLoop_time (m t fuel : ℕ) (s : Timers) : (advanceLoop m t fuel s).time = s.time := by
  induction fuel generalizing s with
  | zero => rfl
  | succ fuel ih =>
    unfold advanceLoop
    split
    · rfl
    · dsimp only
      split
      · rfl
      · split
        · exact ih _
        · rfl

theorem expireLoop_time (m : ℕ) (fire : Bool) (fuel : ℕ) (s : Timers) :
    (expireLoop m fire fuel s).time = s.time := by
  induction fuel generalizing s with
  | zero => rfl
  | succ fuel ih =>
    unfold expireLoop
    split
    · rfl
    · dsimp only
      split
      · rfl
      · exact ih _

theorem hltTimerMgrAdvance_time (s : Timers) (m t : ℕ) :
    (hltTimerMgrAdvance s m t).time = Function.update s.time m t :=
  advanceLoop_time m t _ _

theorem hltTimerMgrSchedule_time (s : Timers) (m t x : ℕ) :
    (hltTimerMgrSchedule s m t x).1.time = s.time := by
  unfold hltTimerMgrSchedule
  split
  · rfl
  · dsimp only
    split <;> rfl

theorem hltTimerUpdate_time (s : Timers) (x t : ℕ) : (hltTimerUpdate s x t).1.time = s.time := by
  unfold hltTimerUpdate
  split
  · rfl
  · split
    · dsimp only [priorityQueueChangePriority]
      split <;> rfl
    · rfl

theorem next_time {s s' : Timers} {op : Op} (hop : ∀ m t, op ≠ .advance m t)
    (hnext : next s op = some s') : s'.time = s.time := by
  cases op with
  | schedule m t x =>
    cases hnext
    exact hltTimerMgrSchedule_time s m t x
  | update x t =>
    cases hnext
    exact hltTimerUpdate_time s x t
  | cancel x =>
    have hcancel : hltTimerCancel s x = some s' := hnext
    unfold hltTimerCancel at hcancel
    split at hcancel
    · cases hcancel
    · cases hcancel
      rfl
  | advance m t => exact absurd rfl (hop m t)
  | expire m fire =>
    cases hnext
    exact expireLoop_time m fire _ s
  | callbackReturns =>
    have hreturn : callbackReturns s = some s' := hnext
    unfold callbackReturns at hreturn
    split at hreturn
    · cases hreturn
    · dsimp only at hreturn
      split at hreturn <;> cases hreturn
      · rfl
      · exact advanceLoop_time _ _ _ _
      · exact expireLoop_time _ _ _ _

/-! ## One step -/

/-- An advance does not go back. -/
def Onward (s : Timers) : Op → Prop
  | .advance m t => s.time m ≤ t
  | _ => True

instance (s : Timers) : (op : Op) → Decidable (Onward s op)
  | .advance m t => inferInstanceAs (Decidable (s.time m ≤ t))
  | .schedule _ _ _ => isTrue trivial
  | .update _ _ => isTrue trivial
  | .cancel _ => isTrue trivial
  | .expire _ _ => isTrue trivial
  | .callbackReturns => isTrue trivial

theorem next_onward {s s' : Timers} {op : Op} (hop : Onward s op) (hnext : next s op = some s')
    (m : ℕ) : s.time m ≤ s'.time m := by
  by_cases hadvance : ∃ k t, op = .advance k t
  · obtain ⟨k, t, rfl⟩ := hadvance
    cases hnext
    rw [hltTimerMgrAdvance_time]
    by_cases hm : m = k
    · rw [hm, Function.update_self]
      exact hop
    · rw [Function.update_of_ne hm]
  · rw [next_time (fun k t heq => hadvance ⟨k, t, heq⟩) hnext]

theorem run_onward {ops : List Op} {s s' : Timers} (hrun : machine.run s ops = some s')
    (hops : machine.Along Onward s ops) (m : ℕ) : s.time m ≤ s'.time m :=
  Machine.run_keeps (P := fun u => s.time m ≤ u.time m)
    (fun _ _ _ hle hop hnext => hle.trans (next_onward hop hnext m)) hrun le_rfl hops

theorem schedule_fires {s : Timers} {m t x : ℕ} (hx : s.link x = none) (ht : t ≤ s.time m) :
    (hltTimerMgrSchedule s m t x).1.firing = x :: s.firing := by
  unfold hltTimerMgrSchedule
  rw [if_neg (not_not.mpr hx)]
  dsimp only
  rw [if_pos ht]
  rfl

/-! ## Runs -/

/-- In each step of a run no manager's time goes back, an advance to a smaller time changes nothing,
and a timer that gets scheduled for a time that its manager has had or passed fires at once. -/
def TimeKept (ops : List Op) : Prop :=
  ∀ before op after s s', ops = before ++ op :: after → machine.run timersNew before = some s →
    next s op = some s' →
    (∀ m, s.time m ≤ s'.time m) ∧
    (∀ m t, op = .advance m t → t < s.time m → s' = s) ∧
    ∀ m t x, op = .schedule m t x → s.link x = none →
      (∃ early s₀, early <+: before ∧ machine.run timersNew early = some s₀ ∧ t ≤ s₀.time m) →
      s'.firing = x :: s.firing

theorem timeKept_of_onward {ops : List Op} (hops : machine.Along Onward timersNew ops) :
    TimeKept ops := by
  intro before op after s s' heq hrun hnext
  rw [heq] at hops
  obtain ⟨hbefore, hrest⟩ := Machine.along_append hops
  have hop : Onward s op := (hrest s hrun).1
  refine ⟨next_onward hop hnext, fun m t hadvance hlt => ?_, fun m t x hschedule hx hpassed => ?_⟩
  · rw [hadvance] at hop
    exact absurd hlt (not_lt.mpr hop)
  · obtain ⟨early, s₀, ⟨rest, hrest⟩, hearly, ht⟩ := hpassed
    rw [← hrest, Machine.run_append, hearly] at hrun
    rw [← hrest] at hbefore
    have hle := run_onward hrun ((Machine.along_append hbefore).2 s₀ hearly) m
    rw [hschedule] at hnext
    cases hnext
    exact schedule_fires hx (ht.trans hle)

theorem onward_of_timeKept {before ops : List Op} {s : Timers}
    (hkept : TimeKept (before ++ ops)) (hrun : machine.run timersNew before = some s) :
    machine.Along Onward s ops := by
  induction ops generalizing before s with
  | nil => trivial
  | cons op ops ih =>
    refine ⟨?_, fun s' hnext => ?_⟩
    · by_cases hadvance : ∃ m t, op = .advance m t
      · obtain ⟨m, t, rfl⟩ := hadvance
        have hle := (hkept before _ ops s _ rfl hrun rfl).1 m
        rw [hltTimerMgrAdvance_time, Function.update_self] at hle
        exact hle
      · cases op with
        | advance m t => exact absurd ⟨m, t, rfl⟩ hadvance
        | _ => trivial
    · have hrun' : machine.run timersNew (before ++ [op]) = some s' := by
        rw [Machine.run_append, hrun, Option.bind_some, Machine.run_cons]
        have hnext : machine.next s op = some s' := hnext
        rw [hnext]
        rfl
      refine ih ?_ hrun'
      rwa [List.append_assoc]

/-- Time is kept in exactly the runs in which no advance goes back. -/
theorem timeKept_iff (ops : List Op) : TimeKept ops ↔ machine.Along Onward timersNew ops :=
  ⟨fun hkept => @onward_of_timeKept [] ops timersNew hkept rfl, timeKept_of_onward⟩

/-- An advance to an earlier time, after which a timer for a time that has been passed waits. -/
theorem time_goes_back :
    ¬ TimeKept [.advance 0 5, .advance 0 2] ∧
    ∃ s, machine.run timersNew [.advance 0 5, .advance 0 2, .schedule 0 4 1] = some s ∧
      s.time 0 = 2 ∧ s.firing = [] ∧ Queued s 0 1 := by
  refine ⟨fun hkept => ?_, _, rfl, rfl, rfl, 1, by decide, by decide, rfl⟩
  have hle := (hkept [.advance 0 5] (.advance 0 2) [] _ _ rfl rfl rfl).1 0
  exact absurd hle (by decide)

end Hilti.TimerMgr.Calls
