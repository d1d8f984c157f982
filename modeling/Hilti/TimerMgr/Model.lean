import Hilti.Lib.Machine
import Hilti.Lib.IndexedHeap
import Mathlib.Order.Nat

/-! # Timers and their manager (`libhilti/timer.c`, `3rdparty/libpqueue`)

One timer manager with its priority queue. Timers are named by numbers; `timers` is the memory of
the timer objects, of which the queue holds references. Times are `hlt_time` values, which the code
only compares. Firing a timer runs its callback, which the model records and which is taken not to
call back into the manager. -/

namespace Hilti.TimerMgr
open Hilti.Lib
set_option autoImplicit false

/-- The fields of `hlt_timer` that matter here. There is one manager, so the link is a flag. The
slot `queue_pos` lives in the queue's `pos`. -/
structure Timer where
  mgr : Bool
  time : ℕ

/-- `hlt_timer_mgr`, the timer objects, and the record of what has fired. -/
structure Mgr where
  time : ℕ
  timers : ℕ → Timer
  queue : IndexedHeap ℕ
  fired : List ℕ

inductive Excpt
  | timerNotScheduled
  | timerAlreadyScheduled
  deriving DecidableEq

/-- `getpri`. -/
def Mgr.key (m : Mgr) (x : ℕ) : ℕ := (m.timers x).time

/-- `HLT_TIME_UNSET`. -/
def hltTimeUnset : ℕ := 2 ^ 64 - 1

/-- `hlt_timer_mgr_new`, before any timer is scheduled; `priority_queue_init` sets `size` to 1. -/
def hltTimerMgrNew : Mgr where
  time := 0
  timers := fun _ => ⟨false, hltTimeUnset⟩
  queue := ⟨fun _ => 0, fun _ => 0, 1⟩
  fired := []

def Mgr.setTimer (m : Mgr) (x : ℕ) (t : Timer) : Mgr := { m with timers := Function.update m.timers x t }

/-! ## The priority queue -/

/-- `priority_queue_insert`. -/
def priorityQueueInsert (key : ℕ → ℕ) (q : IndexedHeap ℕ) (x : ℕ) : IndexedHeap ℕ :=
  ({ q with d := Function.update q.d q.size x, size := q.size + 1 } : IndexedHeap ℕ).bubbleUp key q.size

/-- `priority_queue_remove`. The last element takes the free slot. -/
def priorityQueueRemove (key : ℕ → ℕ) (q : IndexedHeap ℕ) (x : ℕ) : IndexedHeap ℕ :=
  let posn := q.pos x
  let q : IndexedHeap ℕ := { q with d := Function.update q.d posn (q.d (q.size - 1)), size := q.size - 1 }
  if key x > key (q.d posn) then q.bubbleUp key posn else q.percolateDown key posn

/-- `priority_queue_peek`. -/
def priorityQueuePeek (q : IndexedHeap ℕ) : Option ℕ :=
  if q.size = 1 then none else some (q.d 1)

/-- `priority_queue_pop`, of a queue that is not empty. -/
def priorityQueuePop (key : ℕ → ℕ) (q : IndexedHeap ℕ) : IndexedHeap ℕ :=
  ({ q with d := Function.update q.d 1 (q.d (q.size - 1)), size := q.size - 1 } : IndexedHeap ℕ).percolateDown
    key 1

/-- `priority_queue_change_priority`: it reads the old priority from the element itself. -/
def priorityQueueChangePriority (m : Mgr) (newPri x : ℕ) : Mgr :=
  let oldPri := m.key x
  let m := m.setTimer x { m.timers x with time := newPri }
  let posn := m.queue.pos x
  if oldPri > newPri then { m with queue := m.queue.bubbleUp m.key posn }
  else { m with queue := m.queue.percolateDown m.key posn }

/-! ## The manager -/

/-- `__hlt_timer_fire`. -/
def hltTimerFire (m : Mgr) (x : ℕ) : Mgr :=
  if (m.timers x).mgr then
    { m.setTimer x { m.timers x with mgr := false } with fired := m.fired ++ [x] }
  else m

/-- `hlt_timer_update`. -/
def hltTimerUpdate (m : Mgr) (x t : ℕ) : Mgr × Option Excpt :=
  if (m.timers x).mgr then
    if t > m.time then
      (priorityQueueChangePriority (m.setTimer x { m.timers x with time := t }) t x, none)
    else (hltTimerFire { m with queue := priorityQueueRemove m.key m.queue x } x, none)
  else (m, some .timerNotScheduled)

/-- `hlt_timer_cancel`; it follows the manager link of the timer unchecked, so that there is no
result when that is null. -/
def hltTimerCancel (m : Mgr) (x : ℕ) : Option Mgr :=
  if (m.timers x).mgr then
    some ({ m with queue := priorityQueueRemove m.key m.queue x }.setTimer x ⟨false, 0⟩)
  else none

/-- `hlt_timer_mgr_schedule`. -/
def hltTimerMgrSchedule (m : Mgr) (t x : ℕ) : Mgr × Option Excpt :=
  if (m.timers x).mgr then (m, some .timerAlreadyScheduled)
  else
    let m := m.setTimer x ⟨true, t⟩
    if t ≤ m.time then (hltTimerFire m x, none)
    else ({ m with queue := priorityQueueInsert m.key m.queue x }, none)

/-- The loop of `hlt_timer_mgr_advance`. Each round takes one timer out of the queue. -/
def advanceLoop (t : ℕ) : ℕ → Mgr → Mgr
  | 0, m => m
  | fuel + 1, m =>
      match priorityQueuePeek m.queue with
      | none => m
      | some x =>
          if m.key x > t then m
          else advanceLoop t fuel (hltTimerFire { m with queue := priorityQueuePop m.key m.queue } x)

/-- `hlt_timer_mgr_advance`. -/
def hltTimerMgrAdvance (m : Mgr) (t : ℕ) : Mgr :=
  advanceLoop t m.queue.size { m with time := t }

inductive Op
  | schedule (t x : ℕ)
  | update (x t : ℕ)
  | cancel (x : ℕ)
  | advance (t : ℕ)

def next (m : Mgr) : Op → Option Mgr
  | .schedule t x => some (hltTimerMgrSchedule m t x).1
  | .update x t => some (hltTimerUpdate m x t).1
  | .cancel x => hltTimerCancel m x
  | .advance t => some (hltTimerMgrAdvance m t)

/-- A manager driven by the four operations. -/
def machine : Machine Mgr Op where
  start := hltTimerMgrNew
  next := next

end Hilti.TimerMgr
