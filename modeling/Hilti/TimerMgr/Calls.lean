import Hilti.TimerMgr.Queue

/-! # Timers whose callbacks call back (`libhilti/timer.c`)

Any number of timer managers and timers, with the calls that a callback makes while its timer is
being fired. A callback is run from within `__hlt_timer_fire`, which clears the manager link of the
timer only afterwards; so a state has the callbacks that are running, each with what the function
that fired the timer does next. The slot of a timer is a field of the timer, not of a queue. -/

namespace Hilti.TimerMgr.Calls
open Hilti.Lib
set_option autoImplicit false

/-- The slots of a priority queue. -/
structure Slots where
  d : ℕ → ℕ
  size : ℕ

/-- What is left to do when a callback returns. -/
inductive Rest
  | finished
  | advance (m t : ℕ)
  | expire (m : ℕ)
  deriving DecidableEq

/-- All timer managers and timers. `time` and `slots` are fields of the managers; `link`, `due` and
`queuePos` are the fields `mgr`, `time` and `queue_pos` of the timers. `calls` are the timers whose
callbacks are running, the innermost first. -/
structure Timers where
  time : ℕ → ℕ
  slots : ℕ → Slots
  link : ℕ → Option ℕ
  due : ℕ → ℕ
  queuePos : ℕ → ℕ
  calls : List (ℕ × Rest)

def timersNew : Timers where
  time := fun _ => 0
  slots := fun _ => ⟨fun _ => 0, 1⟩
  link := fun _ => none
  due := fun _ => hltTimeUnset
  queuePos := fun _ => 0
  calls := []

/-- The queue of the manager `m`. -/
def Timers.queue (s : Timers) (m : ℕ) : IndexedHeap ℕ :=
  ⟨(s.slots m).d, s.queuePos, (s.slots m).size⟩

def Timers.setQueue (s : Timers) (m : ℕ) (q : IndexedHeap ℕ) : Timers :=
  { s with slots := Function.update s.slots m ⟨q.d, q.size⟩, queuePos := q.pos }

/-- The timers that are being fired. -/
def Timers.firing (s : Timers) : List ℕ := s.calls.map Prod.fst

/-- `__hlt_timer_fire` of a timer that has a manager, up to the call of the callback. -/
def Timers.fire (s : Timers) (x : ℕ) (rest : Rest) : Timers :=
  { s with calls := (x, rest) :: s.calls }

/-- `hlt_timer_mgr_schedule`. -/
def hltTimerMgrSchedule (s : Timers) (m t x : ℕ) : Timers × Option Excpt :=
  if s.link x ≠ none then (s, some .timerAlreadyScheduled)
  else
    let s := { s with link := Function.update s.link x (some m), due := Function.update s.due x t }
    if t ≤ s.time m then (s.fire x .finished, none)
    else (s.setQueue m (priorityQueueInsert s.due (s.queue m) x), none)

/-- `priority_queue_change_priority`. -/
def priorityQueueChangePriority (s : Timers) (m newPri x : ℕ) : Timers :=
  let oldPri := s.due x
  let s := { s with due := Function.update s.due x newPri }
  if oldPri > newPri then s.setQueue m ((s.queue m).bubbleUp s.due (s.queuePos x))
  else s.setQueue m ((s.queue m).percolateDown s.due (s.queuePos x))

/-- `hlt_timer_update`. -/
def hltTimerUpdate (s : Timers) (x t : ℕ) : Timers × Option Excpt :=
  match s.link x with
  | none => (s, some .timerNotScheduled)
  | some m =>
      if t > s.time m then
        (priorityQueueChangePriority { s with due := Function.update s.due x t } m t x, none)
      else ((s.setQueue m (priorityQueueRemove s.due (s.queue m) x)).fire x .finished, none)

/-- `hlt_timer_cancel`; without a manager it follows a null pointer. -/
def hltTimerCancel (s : Timers) (x : ℕ) : Option Timers :=
  match s.link x with
  | none => none
  | some m =>
      let s := s.setQueue m (priorityQueueRemove s.due (s.queue m) x)
      some { s with link := Function.update s.link x none, due := Function.update s.due x 0 }

/-- The loop of `hlt_timer_mgr_advance`, up to the next callback. -/
def advanceLoop (m t : ℕ) : ℕ → Timers → Timers
  | 0, s => s
  | fuel + 1, s =>
      match priorityQueuePeek (s.queue m) with
      | none => s
      | some x =>
          if s.due x > t then s
          else
            let s := s.setQueue m (priorityQueuePop s.due (s.queue m))
            if s.link x = none then advanceLoop m t fuel s else s.fire x (.advance m t)

/-- `hlt_timer_mgr_advance`. -/
def hltTimerMgrAdvance (s : Timers) (m t : ℕ) : Timers :=
  advanceLoop m t (s.slots m).size { s with time := Function.update s.time m t }

/-- The loop of `hlt_timer_mgr_expire`, up to the next callback. Without firing it leaves the
timers as they are. -/
def expireLoop (m : ℕ) (fire : Bool) : ℕ → Timers → Timers
  | 0, s => s
  | fuel + 1, s =>
      match priorityQueuePeek (s.queue m) with
      | none => s
      | some x =>
          let s := s.setQueue m (priorityQueuePop s.due (s.queue m))
          if fire = true ∧ s.link x ≠ none then s.fire x (.expire m) else expireLoop m fire fuel s

/-- `hlt_timer_mgr_expire`. -/
def hltTimerMgrExpire (s : Timers) (m : ℕ) (fire : Bool) : Timers :=
  expireLoop m fire (s.slots m).size s

/-- The rest of `__hlt_timer_fire` and of the function that called it. -/
def callbackReturns (s : Timers) : Option Timers :=
  match s.calls with
  | [] => none
  | (x, rest) :: calls =>
      let s := { s with link := Function.update s.link x none, calls := calls }
      match rest with
      | .finished => some s
      | .advance m t => some (advanceLoop m t (s.slots m).size s)
      | .expire m => some (expireLoop m true (s.slots m).size s)

/-- What a program does, inside or outside of callbacks. -/
inductive Op
  | schedule (m t x : ℕ)
  | update (x t : ℕ)
  | cancel (x : ℕ)
  | advance (m t : ℕ)
  | expire (m : ℕ) (fire : Bool)
  | callbackReturns
  deriving DecidableEq

def next (s : Timers) : Op → Option Timers
  | .schedule m t x => some (hltTimerMgrSchedule s m t x).1
  | .update x t => some (hltTimerUpdate s x t).1
  | .cancel x => hltTimerCancel s x
  | .advance m t => some (hltTimerMgrAdvance s m t)
  | .expire m fire => some (hltTimerMgrExpire s m fire)
  | .callbackReturns => callbackReturns s

def machine : Machine Timers Op where
  start := timersNew
  next := next

/-! ## Links and queues -/

/-- The timer `x` is in the queue of the manager `m`. -/
def Queued (s : Timers) (m x : ℕ) : Prop :=
  ∃ i, 1 ≤ i ∧ i < (s.slots m).size ∧ (s.slots m).d i = x

/-- The timer `x` has a manager, and it has not been taken out of the queue to be fired. -/
def Waits (s : Timers) (m x : ℕ) : Prop := s.link x = some m ∧ x ∉ s.firing

/-- Every queue holds the timers that wait in it, and the timers that are being fired are different
ones that still have a manager. -/
structure Linked (s : Timers) : Prop where
  size_pos : ∀ m, 1 ≤ (s.slots m).size
  holds : ∀ m, (s.queue m).Holds (Waits s m)
  linked : ∀ x ∈ s.firing, s.link x ≠ none
  nodup : s.firing.Nodup

theorem linked_new : Linked timersNew where
  size_pos _ := le_rfl
  holds m := by
    constructor
    · intro i hi hi'
      change i < 1 at hi'
      omega
    · intro y
      constructor
      · rintro ⟨h, -⟩
        cases h
      · rintro ⟨i, hi, hi', -⟩
        change i < 1 at hi'
        omega
  linked x hx := by
    cases hx
  nodup := List.nodup_nil

theorem Linked.of_rearranged {s s' : Timers} (h : Linked s) (m : ℕ) {q : IndexedHeap ℕ}
    {S : ℕ → Prop} (hq : Rearranged (s.queue m) q S (Waits s' m))
    (hslots : s'.slots = Function.update s.slots m ⟨q.d, q.size⟩) (hpos : s'.queuePos = q.pos)
    (hwaits : ∀ k, k ≠ m → ∀ x, Waits s' k x ↔ Waits s k x)
    (hother : ∀ k, k ≠ m → ∀ x, Waits s k x → ¬ S x)
    (hlinked : ∀ x ∈ s'.firing, s'.link x ≠ none) (hnodup : s'.firing.Nodup) : Linked s' := by
  refine ⟨fun k => ?_, fun k => ?_, hlinked, hnodup⟩
  · rw [hslots]
    by_cases hk : k = m
    · rw [hk, Function.update_self]
      exact hq.size_pos
    · rw [Function.update_of_ne hk]
      exact h.size_pos k
  · by_cases hk : k = m
    · have hqueue : s'.queue m = q := by
        unfold Timers.queue
        rw [hslots, hpos, Function.update_self]
      rw [hk, hqueue]
      exact hq.holds
    · have hslot : s'.slots k = s.slots k := by
        rw [hslots, Function.update_of_ne hk]
      have hold := h.holds k
      refine ⟨fun i hi hi' => ?_, fun y => ?_⟩
      · have hwait : Waits s k ((s.slots k).d i) :=
          (hold.mem _).mpr ⟨i, hi, by simpa [Timers.queue, hslot] using hi', rfl⟩
        change s'.queuePos ((s'.slots k).d i) = i
        rw [hpos, hslot, hq.pos_eq _ (hother k hk _ hwait)]
        exact hold.pos i hi (by simpa [Timers.queue, hslot] using hi')
      · rw [hwaits k hk y, hold.mem y]
        unfold Timers.queue
        rw [hslot]

theorem Linked.of_same {s s' : Timers} (h : Linked s) (hslots : s'.slots = s.slots)
    (hpos : s'.queuePos = s.queuePos) (hwaits : ∀ m x, Waits s' m x ↔ Waits s m x)
    (hlinked : ∀ x ∈ s'.firing, s'.link x ≠ none) (hnodup : s'.firing.Nodup) : Linked s' := by
  refine ⟨fun m => hslots ▸ h.size_pos m, fun m => ?_, hlinked, hnodup⟩
  have hqueue : s'.queue m = s.queue m := by
    unfold Timers.queue
    rw [hslots, hpos]
  have hold := h.holds m
  rw [hqueue]
  exact ⟨hold.pos, fun y => (hwaits m y).trans (hold.mem y)⟩

theorem Linked.not_firing {s : Timers} (h : Linked s) {x : ℕ} (hx : s.link x = none) :
    x ∉ s.firing :=
  fun hmem => h.linked x hmem hx

theorem Waits.unique {s : Timers} {m k x : ℕ} (h : Waits s m x) (h' : Waits s k x) : m = k :=
  Option.some.inj (h.1.symm.trans h'.1)

end Hilti.TimerMgr.Calls
