import Hilti.Lib.LinkedList
import Hilti.TimerMgr.Model

/-!
# Lists

The model of `libhilti/list.c`, with what it uses of `libhilti/timer.c`.  Lists, timers and timer
managers are given by their numbers, and each list has the memory of its nodes, also of those
that have been taken out of it.  A function without a result is one that follows a null pointer.
The slot `queue_pos` of a timer lives in the queue it is in.

Left out are reference counts, the comparison of element types, cloning, and
`hlt_timer_mgr_expire` without firing.
-/

namespace Hilti.Lists

open Hilti.Lib
open Hilti.TimerMgr (priorityQueueInsert priorityQueueRemove priorityQueuePeek priorityQueuePop)

set_option autoImplicit false

/-! ## State -/

/-- `Hilti::ExpireStrategy`. -/
inductive ExpireStrategy where
  | create
  | access
  deriving DecidableEq

/-- `__hlt_list_node`, but for its links. -/
structure Node (α : Type) where
  timer : Option ℕ
  invalid : Bool
  data : α

/-- `__hlt_list`.  `head` and `tail` are `cells.first` and `cells.last`. -/
structure HltList (α : Type) where
  cells : LinkedList (Node α)
  size : ℤ
  tmgr : Option ℕ
  timeout : ℕ
  strategy : Option ExpireStrategy

/-- `__hlt_timer` for a node of a list, with its cookie. -/
structure Timer where
  mgr : Option ℕ
  time : ℕ
  list : ℕ
  node : ℕ

/-- `__hlt_timer_mgr`. -/
structure Mgr where
  time : ℕ
  queue : IndexedHeap ℕ

structure World (α : Type) where
  lists : ℕ → Option (HltList α)
  timers : ℕ → Option Timer
  mgrs : ℕ → Option Mgr
  listCount : ℕ
  timerCount : ℕ
  mgrCount : ℕ

/-- `hlt_iterator_list`. -/
structure Iter where
  list : Option ℕ
  node : Option ℕ
  deriving DecidableEq

inductive Excpt where
  | underflow
  | invalidIterator
  | timerNotScheduled
  deriving DecidableEq

/-- `HLT_TIME_UNSET`. -/
def hltTimeUnset : ℕ := 2 ^ 64 - 1

/-- `ctx->tmgr`. -/
def ctxTmgr : ℕ := 0

variable {α : Type}

def World.setList (w : World α) (n : ℕ) (l : HltList α) : World α :=
  { w with lists := Function.update w.lists n (some l) }

def World.setTimer (w : World α) (x : ℕ) (t : Timer) : World α :=
  { w with timers := Function.update w.timers x (some t) }

def World.setMgr (w : World α) (m : ℕ) (M : Mgr) : World α :=
  { w with mgrs := Function.update w.mgrs m (some M) }

/-! ## Nodes and timers -/

/-- `_link`. -/
def link (l : HltList α) (a : ℕ) (pos : Option ℕ) : Option (HltList α) := do
  let cells ← l.cells.insertAfter pos a
  some { l with cells := cells, size := l.size + 1 }

/-- `getpri`. -/
def timeOf (timers : ℕ → Option Timer) (x : ℕ) : ℕ :=
  ((timers x).map Timer.time).getD 0

/-- `hlt_timer_cancel`. -/
def timerCancel (w : World α) (x : ℕ) : Option (World α) := do
  let t ← w.timers x
  let m ← t.mgr
  let M ← w.mgrs m
  let w := w.setMgr m { M with queue := priorityQueueRemove (timeOf w.timers) M.queue x }
  some (w.setTimer x { t with mgr := none, time := 0 })

/-- `_unlink`; `ctx` says whether there is a context. -/
def unlink (w : World α) (n a : ℕ) (ctx : Bool) : Option (World α) := do
  let l ← w.lists n
  let c ← l.cells.heap a
  let cells ← l.cells.remove a
  let cells ← cells.setVal a { c.val with timer := none, invalid := true }
  let w := w.setList n { l with cells := cells, size := l.size - 1 }
  match c.val.timer with
  | none => some w
  | some x => if ctx then timerCancel w x else some w

/-- `hlt_list_expire`. -/
def listExpire (w : World α) (n a : ℕ) : Option (World α) :=
  unlink w n a false

/-- `__hlt_timer_fire`. -/
def timerFire (w : World α) (x : ℕ) : Option (World α) := do
  let t ← w.timers x
  match t.mgr with
  | none => some w
  | some _ => do
    let w ← listExpire w t.list t.node
    some (w.setTimer x { t with mgr := none })

/-- `hlt_timer_mgr_schedule`, of a timer that is not scheduled. -/
def timerMgrSchedule (w : World α) (m time x : ℕ) : Option (World α) := do
  let t ← w.timers x
  let M ← w.mgrs m
  if t.mgr.isSome then none
  else
    let w := w.setTimer x { t with mgr := some m, time := time }
    if time ≤ M.time then timerFire w x
    else some (w.setMgr m { M with queue := priorityQueueInsert (timeOf w.timers) M.queue x })

/-- `priority_queue_change_priority`: it reads the old priority from the element itself. -/
def priorityQueueChangePriority (w : World α) (m newPri x : ℕ) : Option (World α) := do
  let t ← w.timers x
  let M ← w.mgrs m
  let oldPri := timeOf w.timers x
  let w := w.setTimer x { t with time := newPri }
  let posn := M.queue.pos x
  if oldPri > newPri then
    some (w.setMgr m { M with queue := M.queue.bubbleUp (timeOf w.timers) posn })
  else some (w.setMgr m { M with queue := M.queue.percolateDown (timeOf w.timers) posn })

/-- `hlt_timer_update`. -/
def timerUpdate (w : World α) (x time : ℕ) : Option (World α × Option Excpt) := do
  let t ← w.timers x
  match t.mgr with
  | none => some (w, some .timerNotScheduled)
  | some m => do
    let M ← w.mgrs m
    if time > M.time then do
      let w ← priorityQueueChangePriority (w.setTimer x { t with time := time }) m time x
      some (w, none)
    else do
      let q := priorityQueueRemove (timeOf w.timers) M.queue x
      let w ← timerFire (w.setMgr m { M with queue := q }) x
      some (w, none)

/-- The loop of `hlt_timer_mgr_advance`; firing does not change the queue.  Without a limit it is
that of `hlt_timer_mgr_expire`. -/
def advanceLoop (m : ℕ) (limit : Option ℕ) : ℕ → World α → Option (World α)
  | 0, _ => none
  | fuel + 1, w => do
    let M ← w.mgrs m
    match priorityQueuePeek M.queue with
    | none => some w
    | some x =>
      if limit.any (timeOf w.timers x > ·) then some w
      else do
        let q := priorityQueuePop (timeOf w.timers) M.queue
        let w ← timerFire (w.setMgr m { M with queue := q }) x
        advanceLoop m limit fuel w

/-- `hlt_timer_mgr_advance`.  Each round of the loop takes one timer out of the queue. -/
def timerMgrAdvance (w : World α) (m time : ℕ) : Option (World α) := do
  let M ← w.mgrs m
  advanceLoop m (some time) M.queue.size (w.setMgr m { M with time := time })

/-- `hlt_timer_mgr_expire` with firing. -/
def timerMgrExpire (w : World α) (m : ℕ) : Option (World α) := do
  let M ← w.mgrs m
  advanceLoop m none M.queue.size w

/-- `hlt_timer_mgr_current(l->tmgr) + l->timeout`. -/
def deadline (w : World α) (l : HltList α) (m : ℕ) : Option ℕ := do
  let M ← w.mgrs m
  some ((M.time + l.timeout) % 2 ^ 64)

/-- The time in `_make_node`. -/
def nodeTime (w : World α) (l : HltList α) : Option ℕ :=
  match l.tmgr with
  | none => some 0
  | some m => if l.timeout ≠ 0 then deadline w l m else some 0

/-- `_make_node`. -/
def makeNode (w : World α) (n : ℕ) (val : α) : Option (World α × ℕ) := do
  let l ← w.lists n
  let a := l.cells.fresh
  let t ← nodeTime w l
  if t ≠ 0 then do
    let m ← l.tmgr
    let x := w.timerCount
    let w := w.setList n { l with cells := l.cells.alloc ⟨some x, false, val⟩ }
    let w := { w.setTimer x ⟨none, hltTimeUnset, n, a⟩ with timerCount := x + 1 }
    let w ← timerMgrSchedule w m t x
    some (w, a)
  else some (w.setList n { l with cells := l.cells.alloc ⟨none, false, val⟩ }, a)

/-- `_access`. -/
def access (w : World α) (n a : ℕ) : Option (World α × Option Excpt) := do
  let l ← w.lists n
  match l.tmgr with
  | none => some (w, none)
  | some m =>
    if l.strategy ≠ some .access ∨ l.timeout = 0 then some (w, none)
    else do
      let c ← l.cells.heap a
      match c.val.timer with
      | none => some (w, none)
      | some x => do
        let t ← deadline w l m
        timerUpdate w x t

/-! ## Operations on lists -/

/-- A timer manager without timers; `priority_queue_init` sets `size` to 1. -/
def newMgr : Mgr := ⟨0, ⟨fun _ => 0, fun _ => 0, 1⟩⟩

/-- `hlt_timer_mgr_new`. -/
def timerMgrNew (w : World α) : World α :=
  { w.setMgr w.mgrCount newMgr with mgrCount := w.mgrCount + 1 }

/-- `hlt_list_new`. -/
def listNew (w : World α) (tmgr : Option ℕ) : World α :=
  { w.setList w.listCount ⟨LinkedList.empty, 0, tmgr, 0, none⟩ with listCount := w.listCount + 1 }

/-- `hlt_list_timeout`. -/
def listTimeout (w : World α) (n : ℕ) (strategy : Option ExpireStrategy) (timeout : ℕ) :
    Option (World α) := do
  let l ← w.lists n
  some (w.setList n
    { l with timeout := timeout, strategy := strategy, tmgr := some (l.tmgr.getD ctxTmgr) })

/-- A new node is linked behind the one that `pos` gives. -/
def addNode (w : World α) (n : ℕ) (val : α) (pos : HltList α → Option (Option ℕ)) :
    Option (World α) := do
  let (w, a) ← makeNode w n val
  let l ← w.lists n
  let l' ← link l a (← pos l)
  some (w.setList n l')

/-- `hlt_list_push_front`. -/
def pushFront (w : World α) (n : ℕ) (val : α) : Option (World α) :=
  addNode w n val fun _ => some none

/-- `hlt_list_push_back`. -/
def pushBack (w : World α) (n : ℕ) (val : α) : Option (World α) :=
  addNode w n val fun l => some l.cells.last

/-- The loop of `hlt_list_append`. -/
def appendLoop (n1 n2 : ℕ) : ℕ → World α → Option ℕ → Option (World α)
  | _, w, none => some w
  | 0, _, some _ => none
  | fuel + 1, w, some a => do
    let l ← w.lists n2
    let c ← l.cells.heap a
    let w ← pushBack w n1 c.val.data
    let l ← w.lists n2
    let c ← l.cells.heap a
    appendLoop n1 n2 fuel w c.next

/-- `hlt_list_append`. -/
def listAppend (fuel : ℕ) (w : World α) (n1 n2 : ℕ) : Option (World α) := do
  let l ← w.lists n2
  appendLoop n1 n2 fuel w l.cells.first

inductive Result (α : Type) where
  | done
  | value (x : α)
  | size (k : ℤ)
  | bool (b : Bool)
  | iter (i : Iter)
  | exception (e : Excpt)
  deriving DecidableEq

/-- `hlt_list_pop_front` and `hlt_list_pop_back`, for the node at one end. -/
def popAt (w : World α) (n : ℕ) (node : HltList α → Option ℕ) : Option (World α × Result α) := do
  let l ← w.lists n
  match node l with
  | none => some (w, .exception .underflow)
  | some a => do
    let w ← unlink w n a true
    some (w, .done)

/-- The data of a node that is accessed. -/
def readNode (w : World α) (n : ℕ) (node : HltList α → Option ℕ) : Option (World α × Result α) := do
  let l ← w.lists n
  let a ← node l
  let (w, e) ← access w n a
  let l ← w.lists n
  let a ← node l
  let c ← l.cells.heap a
  match e with
  | some e => some (w, .exception e)
  | none => some (w, .value c.val.data)

/-- `hlt_list_front` and `hlt_list_back`. -/
def readAt (w : World α) (n : ℕ) (node : HltList α → Option ℕ) : Option (World α × Result α) := do
  let l ← w.lists n
  match node l with
  | none => some (w, .exception .underflow)
  | some _ => readNode w n node

/-- `hlt_list_size`. -/
def listSize (w : World α) (n : ℕ) : Option (World α × Result α) := do
  let l ← w.lists n
  some (w, .size l.size)

/-- `_invalid_node` for the node of an iterator, if it has one. -/
def invalidNode (w : World α) (n : ℕ) (node : Option ℕ) : Option Bool :=
  match node with
  | none => some false
  | some a => do
    let l ← w.lists n
    let c ← l.cells.heap a
    some c.val.invalid

/-- `hlt_list_erase`. -/
def listErase (w : World α) (i : Iter) : Option (World α × Result α) :=
  match i.list with
  | none => some (w, .exception .invalidIterator)
  | some n => do
    if ← invalidNode w n i.node then some (w, .exception .invalidIterator)
    else
      match i.node with
      | none => some (w, .exception .invalidIterator)
      | some a => do
        let w ← unlink w n a true
        some (w, .done)

/-- `hlt_list_insert`. -/
def listInsert (w : World α) (val : α) (i : Iter) : Option (World α × Result α) :=
  match i.list with
  | none => some (w, .exception .invalidIterator)
  | some n => do
    if ← invalidNode w n i.node then some (w, .exception .invalidIterator)
    else do
      let w ← addNode w n val fun l =>
        match i.node with
        | none => some l.cells.last
        | some a => do
          let c ← l.cells.heap a
          some c.prev
      some (w, .done)

/-- `hlt_list_begin`. -/
def listBegin (w : World α) (n : ℕ) : Option (World α × Result α) := do
  let l ← w.lists n
  some (w, .iter ⟨some n, l.cells.first⟩)

/-- `hlt_list_end`. -/
def listEnd (w : World α) (n : ℕ) : Option (World α × Result α) :=
  some (w, .iter ⟨some n, none⟩)

/-- `hlt_iterator_list_incr`. -/
def iteratorIncr (w : World α) (i : Iter) : Option (World α × Result α) :=
  match i.list with
  | none => some (w, .exception .invalidIterator)
  | some n => do
    if ← invalidNode w n i.node then some (w, .exception .invalidIterator)
    else
      match i.node with
      | none => some (w, .iter i)
      | some a => do
        let l ← w.lists n
        let c ← l.cells.heap a
        some (w, .iter ⟨some n, c.next⟩)

/-- `hlt_iterator_list_deref`. -/
def iteratorDeref (w : World α) (i : Iter) : Option (World α × Result α) :=
  match i.list, i.node with
  | some n, some a => do
    if ← invalidNode w n (some a) then some (w, .exception .invalidIterator)
    else readNode w n fun _ => some a
  | _, _ => some (w, .exception .invalidIterator)

/-- The access to the node of an iterator in `hlt_iterator_list_eq`. -/
def accessIter (w : World α) (i : Iter) : Option (World α × Option Excpt) :=
  match i.node with
  | none => some (w, none)
  | some a => do
    let n ← i.list
    access w n a

/-- `hlt_iterator_list_eq`. -/
def iteratorEq (w : World α) (i1 i2 : Iter) : Option (World α × Result α) := do
  let (w, e1) ← accessIter w i1
  let (w, e2) ← accessIter w i2
  match e1.or e2 with
  | some e => some (w, .exception e)
  | none => some (w, .bool (i1 = i2))

/-! ## Runs -/

inductive Op (α : Type) where
  | newMgr
  | new (tmgr : Option ℕ)
  | timeout (n : ℕ) (strategy : Option ExpireStrategy) (timeout : ℕ)
  | pushFront (n : ℕ) (val : α)
  | pushBack (n : ℕ) (val : α)
  | popFront (n : ℕ)
  | popBack (n : ℕ)
  | front (n : ℕ)
  | back (n : ℕ)
  | size (n : ℕ)
  | append (n1 n2 : ℕ)
  | erase (i : Iter)
  | insert (val : α) (i : Iter)
  | begin (n : ℕ)
  | stop (n : ℕ)
  | incr (i : Iter)
  | deref (i : Iter)
  | eq (i1 i2 : Iter)
  | advance (m time : ℕ)
  | expire (m : ℕ)

/-- An operation without a result. -/
def done (w : Option (World α)) : Option (World α × Result α) :=
  w.map fun w => (w, .done)

/-- One operation.  `hlt_list_append` of another list goes on for as many rounds as there can be
nodes. -/
def step (w : World α) : Op α → Option (World α × Result α)
  | .newMgr => some (timerMgrNew w, .done)
  | .new tmgr => some (listNew w tmgr, .done)
  | .timeout n strategy timeout => done (listTimeout w n strategy timeout)
  | .pushFront n val => done (pushFront w n val)
  | .pushBack n val => done (pushBack w n val)
  | .popFront n => popAt w n fun l => l.cells.first
  | .popBack n => popAt w n fun l => l.cells.last
  | .front n => readAt w n fun l => l.cells.first
  | .back n => readAt w n fun l => l.cells.last
  | .size n => listSize w n
  | .append n1 n2 => do
    let l ← w.lists n2
    done (listAppend l.cells.fresh w n1 n2)
  | .erase i => listErase w i
  | .insert val i => listInsert w val i
  | .begin n => listBegin w n
  | .stop n => listEnd w n
  | .incr i => iteratorIncr w i
  | .deref i => iteratorDeref w i
  | .eq i1 i2 => iteratorEq w i1 i2
  | .advance m time => done (timerMgrAdvance w m time)
  | .expire m => done (timerMgrExpire w m)

/-- A thread with its timer manager. -/
def initWorld : World α where
  lists _ := none
  timers _ := none
  mgrs m := if m = ctxTmgr then some newMgr else none
  listCount := 0
  timerCount := 0
  mgrCount := 1

/-- Lists under the operations, with the results of these so far. -/
def machine (α : Type) : Machine (World α × List (Result α)) (Op α) where
  start := (initWorld, [])
  next s op := (step s.1 op).map fun r => (r.1, s.2 ++ [r.2])

end Hilti.Lists
