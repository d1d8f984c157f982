import Mathlib.Data.Int.Notation
import Mathlib.Data.List.Sort
import Hilti.Lib.Machine
import Hilti.Lib.Rounding

/-!
# Vectors

The model of `libhilti/vector.c`, with what it uses of `libhilti/timer.c`.  Vectors, timers and
timer managers are given by their numbers.  A function without a result is one that fails an
assertion, follows a null pointer, reads or writes outside an array, converts a number to a
type that does not hold it, or asks for an array whose size does not fit into 64 bits.

Left out are reference counts, the comparison of element types, and the ways in which the copy
of an element can differ from the element.
-/

namespace Hilti.Vector

open Hilti.Lib

set_option autoImplicit false

/-! ## State -/

/-- `Hilti::ExpireStrategy`. -/
inductive ExpireStrategy where
  | create
  | access
  deriving DecidableEq

/-- `__hlt_vector`.  `size` is the one of the element type, `defElem` is `def`. -/
structure Vec (α : Type) where
  size : ℕ
  elems : List α
  occupied : List Bool
  timers : Option (List (Option ℕ))
  last : ℤ
  capacity : ℤ
  defElem : α
  tmgr : Option ℕ
  timeout : ℕ
  strategy : Option ExpireStrategy

/-- `__hlt_timer` for an entry of a vector, with its cookie. -/
structure Timer where
  mgr : Option ℕ
  time : ℕ
  vec : ℕ
  idx : ℤ

/-- `__hlt_timer_mgr`.  The queue has the timers in the order in which they expire. -/
structure Mgr where
  time : ℕ
  queue : List ℕ

structure World (α : Type) where
  vecs : List (Vec α)
  timers : List Timer
  mgrs : List Mgr

inductive Excpt where
  | indexError
  | cloningNotSupported
  | timerNotScheduled
  deriving DecidableEq

/-- `HLT_TIME_UNSET`. -/
def hltTimeUnset : ℕ := 2 ^ 64 - 1

/-- `ctx->tmgr`. -/
def ctxTmgr : ℕ := 0

variable {α β : Type}

def World.setVec (w : World α) (n : ℕ) (v : Vec α) : World α :=
  { w with vecs := w.vecs.set n v }

def World.setTimer (w : World α) (x : ℕ) (t : Timer) : World α :=
  { w with timers := w.timers.set x t }

def World.setMgr (w : World α) (m : ℕ) (M : Mgr) : World α :=
  { w with mgrs := w.mgrs.set m M }

/-! ## Arrays -/

def load (l : List β) (i : ℤ) : Option β :=
  if 0 ≤ i then l[i.toNat]? else none

def store (l : List β) (i : ℤ) (x : β) : Option (List β) :=
  if 0 ≤ i ∧ i.toNat < l.length then some (l.set i.toNat x) else none

/-- `hlt_realloc` of an array to `n` entries, of which the new ones are cleared. -/
def realloc (l : List β) (zero : β) (size : ℕ) (n : ℤ) : Option (List β) :=
  if size * n.toNat < 2 ^ 64 then some (l ++ List.replicate (n.toNat - l.length) zero) else none

def Vec.setTimer (v : Vec α) (i : ℤ) (x : Option ℕ) : Option (Vec α) := do
  let l ← v.timers
  let l ← store l i x
  some { v with timers := some l }

/-! ## Timers -/

/-- `hlt_vector_expire`. -/
def vectorExpire (w : World α) (vec : ℕ) (i : ℤ) : Option (World α) := do
  let v ← w.vecs[vec]?
  let v ← if v.tmgr.isSome then v.setTimer i none else some v
  let occupied ← store v.occupied i false
  let elems ← store v.elems i v.defElem
  some (w.setVec vec { v with occupied := occupied, elems := elems })

/-- `__hlt_timer_fire`. -/
def timerFire (w : World α) (x : ℕ) : Option (World α) := do
  let t ← w.timers[x]?
  match t.mgr with
  | none => some w
  | some _ => do
    let w ← vectorExpire w t.vec t.idx
    some (w.setTimer x { t with mgr := none })

/-- `priority_queue_insert`, in the order of the times. -/
def queueInsert (timers : List Timer) (queue : List ℕ) (x : ℕ) : List ℕ :=
  queue.orderedInsert (fun y z => (timers[y]?.map Timer.time).getD 0 ≤ (timers[z]?.map Timer.time).getD 0) x

/-- `hlt_timer_mgr_schedule`, of a timer that is not scheduled. -/
def timerMgrSchedule (w : World α) (m time x : ℕ) : Option (World α) := do
  let t ← w.timers[x]?
  let M ← w.mgrs[m]?
  if t.mgr.isSome then none
  else
    let w := w.setTimer x { t with mgr := some m, time := time }
    if time ≤ M.time then timerFire w x
    else some (w.setMgr m { M with queue := queueInsert w.timers M.queue x })

/-- `hlt_timer_cancel`. -/
def timerCancel (w : World α) (x : ℕ) : Option (World α) := do
  let t ← w.timers[x]?
  let m ← t.mgr
  let M ← w.mgrs[m]?
  some ((w.setMgr m { M with queue := M.queue.erase x }).setTimer x { t with mgr := none, time := 0 })

/-- `hlt_timer_update`. -/
def timerUpdate (w : World α) (x time : ℕ) : Option (World α × Option Excpt) := do
  let t ← w.timers[x]?
  match t.mgr with
  | none => some (w, some .timerNotScheduled)
  | some m => do
    let M ← w.mgrs[m]?
    if time > M.time then
      let w := w.setTimer x { t with time := time }
      some (w.setMgr m { M with queue := queueInsert w.timers (M.queue.erase x) x }, none)
    else do
      let w ← timerFire (w.setMgr m { M with queue := M.queue.erase x }) x
      some (w, none)

/-- The loop of `hlt_timer_mgr_advance`; firing does not change the queue. -/
def advanceLoop (m time : ℕ) : List ℕ → World α → Option (World α)
  | [], w => some w
  | x :: queue, w => do
    let t ← w.timers[x]?
    if t.time > time then some w
    else do
      let M ← w.mgrs[m]?
      let w ← timerFire (w.setMgr m { M with queue := queue }) x
      advanceLoop m time queue w

/-- `hlt_timer_mgr_advance`. -/
def timerMgrAdvance (w : World α) (m time : ℕ) : Option (World α) := do
  let M ← w.mgrs[m]?
  advanceLoop m time M.queue (w.setMgr m { M with time := time })

/-! ## Entries -/

/-- The end of `_set_entry`: a new timer for the entry. -/
def startTimer (w : World α) (vec : ℕ) (i : ℤ) (m : ℕ) : Option (World α) := do
  let v ← w.vecs[vec]?
  let x := w.timers.length
  let M ← w.mgrs[m]?
  let v' ← v.setTimer i (some x)
  let w := { w.setVec vec v' with timers := w.timers ++ [⟨none, hltTimeUnset, vec, i⟩] }
  timerMgrSchedule w m ((M.time + v.timeout) % 2 ^ 64) x

/-- The beginning of `_set_entry`: the old timer is cancelled. -/
def stopTimer (w : World α) (vec : ℕ) (i : ℤ) : Option (World α) := do
  let v ← w.vecs[vec]?
  match v.tmgr, v.timers with
  | some _, some l => do
    match ← load l i with
    | none => some w
    | some x => do
      let w ← timerCancel w x
      let v' ← v.setTimer i none
      some (w.setVec vec v')
  | _, _ => some w

/-- `_set_entry`. -/
def setEntry (w : World α) (vec : ℕ) (i : ℤ) (val : α) : Option (World α) := do
  let w ← stopTimer w vec i
  let v ← w.vecs[vec]?
  let elems ← store v.elems i val
  let occupied ← store v.occupied i true
  let w := w.setVec vec { v with elems := elems, occupied := occupied }
  match v.tmgr with
  | none => some w
  | some m => if v.timeout ≠ 0 then startTimer w vec i m else some w

/-- `_access_entry`. -/
def accessEntry (w : World α) (vec : ℕ) (i : ℤ) : Option (World α × Option Excpt) := do
  let v ← w.vecs[vec]?
  match v.tmgr with
  | none => some (w, none)
  | some m =>
    if v.strategy = some .access ∧ v.timeout ≠ 0 then do
      let l ← v.timers
      match ← load l i with
      | none => some (w, none)
      | some x => do
        let M ← w.mgrs[m]?
        timerUpdate w x ((M.time + v.timeout) % 2 ^ 64)
    else some (w, none)

/-! ## Growing -/

/-- A number as a `float`. -/
def float (m : ℕ) : ℕ :=
  roundBits 24 m

/-- Twice `(c + 1) * GrowthFactor`, which is 1.5. -/
def grownTwice (c : ℕ) : ℕ :=
  float (3 * float (c + 1))

/-- The conversion of half a number to `int64_t`. -/
def toInt64 (twice : ℕ) : Option ℤ :=
  if twice / 2 < 2 ^ 63 then some ((twice / 2 : ℕ) : ℤ) else none

/-- The loop of `hlt_vector_set`: `c *= (c + 1) * GrowthFactor`. -/
def growLoop (i : ℤ) : ℕ → ℤ → Option ℤ
  | 0, _ => none
  | fuel + 1, c =>
    if i ≥ c then do
      let c ← toInt64 (float (float c.toNat * grownTwice c.toNat))
      growLoop i fuel c
    else some c

/-- The capacity `hlt_vector_set` asks for; the one of the loop more than doubles each time. -/
def growTo (i capacity : ℤ) : Option ℤ :=
  growLoop i 64 capacity

/-- The capacity `hlt_vector_push_back` asks for. -/
def growNext (capacity : ℤ) : Option ℤ :=
  toInt64 (grownTwice capacity.toNat)

variable [Inhabited α]

/-- `hlt_vector_reserve`.  Cleared memory holds some default element. -/
def reserve (v : Vec α) (n : ℤ) : Option (Vec α) :=
  if v.capacity ≥ n then some v
  else do
    let elems ← realloc v.elems default v.size n
    let occupied ← realloc v.occupied false 1 n
    let timers ← match v.timers with
      | none => some none
      | some l => (realloc l none 8 n).map some
    some { v with elems := elems, occupied := occupied, timers := timers, capacity := n }

/-! ## Operations -/

/-- `hlt_vector_new`. -/
def vectorNew (w : World α) (size : ℕ) (d : α) (tmgr : Option ℕ) : Option (World α) := do
  let elems ← realloc [] default size 1
  let timers := tmgr.map fun _ => [none]
  some { w with vecs := w.vecs ++ [⟨size, elems, [false], timers, -1, 1, d, tmgr, 0, none⟩] }

/-- `hlt_vector_timeout`. -/
def vectorTimeout (w : World α) (vec : ℕ) (strategy : ExpireStrategy) (timeout : ℕ) :
    Option (World α) := do
  let v ← w.vecs[vec]?
  some (w.setVec vec { v with
    timeout := timeout, strategy := some strategy, tmgr := some (v.tmgr.getD ctxTmgr) })

/-- `hlt_vector_get`, with what the pointer it returns points to. -/
def vectorGet (w : World α) (vec : ℕ) (i : ℤ) : Option (World α × Except Excpt α) := do
  let v ← w.vecs[vec]?
  if i > v.last then some (w, .error .indexError)
  else do
    let (w, e) ← accessEntry w vec i
    let v ← w.vecs[vec]?
    let x ← load v.elems i
    some (w, match e with
      | none => .ok x
      | some e => .error e)

/-- The loop of `hlt_vector_set` over the new elements up to `i`, of which there are `n`.  `j`
is an `int`. -/
def fillLoop : ℕ → ℤ → Vec α → Option (Vec α)
  | 0, _, v => some v
  | n + 1, j, v => do
    let elems ← store v.elems j v.defElem
    let v := { v with elems := elems }
    let v ← if v.tmgr.isSome then v.setTimer j none else some v
    if j + 1 < 2 ^ 31 then fillLoop n (j + 1) v else none

/-- `hlt_vector_set`.  It raises no exception itself. -/
def vectorSet (w : World α) (vec : ℕ) (i : ℤ) (val : α) : Option (World α × Option Excpt) := do
  let v ← w.vecs[vec]?
  let v ← if i ≥ v.capacity then do
      let c ← growTo i v.capacity
      reserve v c
    else some v
  if v.last + 1 < 2 ^ 31 then do
    let v ← fillLoop (i - v.last).toNat (v.last + 1) v
    let v := if i > v.last then { v with last := i } else v
    let w ← setEntry (w.setVec vec v) vec i val
    some (w, none)
  else none

/-- `hlt_vector_exists`. -/
def vectorExists (w : World α) (vec : ℕ) (i : ℤ) : Option Bool := do
  let v ← w.vecs[vec]?
  if i > v.last then some false else load v.occupied i

/-- `hlt_vector_push_back`. -/
def vectorPushBack (w : World α) (vec : ℕ) (val : α) : Option (World α) := do
  let v ← w.vecs[vec]?
  let last := v.last + 1
  let v ← if last ≥ v.capacity then do
      let c ← growNext v.capacity
      reserve { v with last := last } c
    else some { v with last := last }
  if v.last < v.capacity then do
    let v ← if v.tmgr.isSome then v.setTimer v.last none else some v
    setEntry (w.setVec vec v) vec v.last val
  else none

def vectorReserve (w : World α) (vec : ℕ) (n : ℤ) : Option (World α) := do
  let v ← w.vecs[vec]?
  let v ← reserve v n
  some (w.setVec vec v)

/-- The timer of an entry in the loop of `hlt_vector_clone_init`, with its time. -/
def cloneTimer (w : World α) (src : Vec α) (dst : ℕ) (i : ℤ) : Option (World α) := do
  let l ← src.timers
  let d ← w.vecs[dst]?
  match ← load l i with
  | some x => do
    let t ← w.timers[x]?
    let d ← d.setTimer i (some w.timers.length)
    some { w.setVec dst d with timers := w.timers ++ [⟨none, t.time, dst, i⟩] }
  | none => do
    let d ← d.setTimer i none
    some (w.setVec dst d)

/-- The loop of `hlt_vector_clone_init` over `n` elements from `i` on. -/
def cloneLoop (src : Vec α) (dst : ℕ) : ℕ → ℤ → World α → Option (World α)
  | 0, _, w => some w
  | n + 1, i, w => do
    let selem ← load src.elems i
    let d ← w.vecs[dst]?
    let elems ← store d.elems i selem
    let w := w.setVec dst { d with elems := elems }
    let w ← if src.timers.isSome ∧ src.timeout ≠ 0 then cloneTimer w src dst i else some w
    cloneLoop src dst n (i + 1) w

/-- The loop of `_clone_init_in_thread`. -/
def initLoop (dst : ℕ) : ℕ → ℤ → World α → Option (World α)
  | 0, _, w => some w
  | n + 1, i, w => do
    let d ← w.vecs[dst]?
    let l ← d.timers
    let w ← match ← load l i with
      | none => some w
      | some x => do
        let t ← w.timers[x]?
        timerMgrSchedule w ctxTmgr t.time x
    initLoop dst n (i + 1) w

/-- `_clone_init_in_thread`. -/
def cloneInitInThread (w : World α) (dst : ℕ) : Option (World α) := do
  let d ← w.vecs[dst]?
  let w := w.setVec dst { d with tmgr := some ctxTmgr }
  if d.timers.isSome then initLoop dst (d.last + 1).toNat 0 w else none

/-- `hlt_vector_clone_alloc` and `hlt_vector_clone_init`, in one thread. -/
def vectorClone (w : World α) (vec : ℕ) : Option (World α × Option Excpt) := do
  let src ← w.vecs[vec]?
  if src.tmgr.isSome ∧ src.tmgr ≠ some ctxTmgr then some (w, some .cloningNotSupported)
  else do
    let elems ← realloc [] default src.size src.capacity
    let timers ← if src.timers.isSome ∧ src.timeout ≠ 0 then
        (realloc [] none 8 src.capacity).map some
      else some none
    let dst := w.vecs.length
    let w := { w with vecs := w.vecs ++ [⟨src.size, elems, src.occupied, timers, src.last,
      src.capacity, src.defElem, none, src.timeout, src.strategy⟩] }
    let w ← cloneLoop src dst (src.last + 1).toNat 0 w
    let w ← if src.tmgr.isSome then cloneInitInThread w dst else some w
    some (w, none)

/-! ## Runs -/

/-- What a program does. -/
inductive Op (α : Type) where
  | newMgr
  | new (size : ℕ) (d : α) (tmgr : Option ℕ)
  | timeout (vec : ℕ) (strategy : ExpireStrategy) (timeout : ℕ)
  | set (vec : ℕ) (i : ℤ) (val : α)
  | pushBack (vec : ℕ) (val : α)
  | reserve (vec : ℕ) (n : ℤ)
  | clone (vec : ℕ)
  | get (vec : ℕ) (i : ℤ)
  | advance (m time : ℕ)

/-- One operation.  `new` is called with a manager that there is. -/
def step (w : World α) : Op α → Option (World α)
  | .newMgr => some { w with mgrs := w.mgrs ++ [⟨0, []⟩] }
  | .new size d tmgr => if ∀ m ∈ tmgr, m < w.mgrs.length then vectorNew w size d tmgr else none
  | .timeout vec strategy timeout => vectorTimeout w vec strategy timeout
  | .set vec i val => (vectorSet w vec i val).map Prod.fst
  | .pushBack vec val => vectorPushBack w vec val
  | .reserve vec n => vectorReserve w vec n
  | .clone vec => (vectorClone w vec).map Prod.fst
  | .get vec i => (vectorGet w vec i).map Prod.fst
  | .advance m time => timerMgrAdvance w m time

def machine (α : Type) [Inhabited α] : Machine (World α) (Op α) where
  start := ⟨[], [], [⟨0, []⟩]⟩
  next := step

end Hilti.Vector
