import Mathlib.Data.Int.Notation
import Mathlib.Logic.Function.Basic
import Hilti.Lib.Machine

/-!
# Bytes objects

The model of `libhilti/bytes.c`.  A bytes object is a singly linked list of chunks
on a heap and is identified by its first one.  A function without a result is one
that follows a null pointer, reads outside a chunk or memory that nothing has been
written to, or does not end; the loops over chunks get as much fuel as there have
been chunks.

Left out are separator objects, marks and freezing: the operations considered here
never make any of them, so that `__get_object` is always null and `__is_frozen`
always false.
-/

namespace Hilti.Bytes

open Hilti.Lib

set_option autoImplicit false

/-! ## Chunks and iterators -/

/-- `__hlt_bytes`.  `data` are the bytes up to `end`, which never moves; `start` is an
index into them, as is `cur` of an iterator. -/
structure Chunk where
  next : Option ℕ
  offset : ℤ
  data : List UInt8
  start : ℕ
  deriving DecidableEq

structure Heap where
  chunk : ℕ → Option Chunk
  fresh : ℕ

/-- `hlt_iterator_bytes`. -/
structure Iter where
  bytes : Option ℕ
  cur : ℕ
  deriving DecidableEq

inductive Error where
  | valueError
  deriving DecidableEq

def Heap.write (H : Heap) (b : ℕ) (c : Chunk) : Heap :=
  { H with chunk := Function.update H.chunk b (some c) }

/-- `_hlt_bytes_new` and `_hlt_bytes_new_reuse`. -/
def bytesNew (H : Heap) (data : List UInt8) : Heap × ℕ :=
  ({ H.write H.fresh ⟨none, 0, data, 0⟩ with fresh := H.fresh + 1 }, H.fresh)

/-! ## Walking over chunks -/

def tailLoop (H : Heap) : ℕ → ℕ → Option ℕ
  | 0, _ => none
  | fuel + 1, b => do
    let c ← H.chunk b
    match c.next with
    | none => some b
    | some n => tailLoop H fuel n

/-- `__tail`. -/
def tail (H : Heap) (b : ℕ) : Option ℕ :=
  tailLoop H H.fresh b

/-- The bytes of the chunks from `b` on, as the loops of `__hlt_bytes_append` and
`_hlt_bytes_concat_into` copy them. -/
def copyLoop (H : Heap) : ℕ → Option ℕ → Option (List UInt8)
  | _, none => some []
  | 0, some _ => none
  | fuel + 1, some b => do
    let c ← H.chunk b
    let rest ← copyLoop H fuel c.next
    some (c.data.drop c.start ++ rest)

def lenLoop (H : Heap) : ℕ → Option ℕ → Option ℤ
  | _, none => some 0
  | 0, some _ => none
  | fuel + 1, some b => do
    let c ← H.chunk b
    let rest ← lenLoop H fuel c.next
    some ((c.data.length - c.start : ℤ) + rest)

/-- `hlt_bytes_len`. -/
def bytesLen (H : Heap) (b : ℕ) : Option ℤ :=
  lenLoop H H.fresh (some b)

def isEmptyLoop (H : Heap) : ℕ → Option ℕ → Option Bool
  | _, none => some true
  | 0, some _ => none
  | fuel + 1, some b => do
    let c ← H.chunk b
    if c.start ≠ c.data.length then some false else isEmptyLoop H fuel c.next

/-- `__is_empty`. -/
def isEmpty (H : Heap) (b : ℕ) : Option Bool :=
  isEmptyLoop H H.fresh (some b)

def predLoop (H : Heap) (p : ℕ) : ℕ → Option ℕ → Option (Option ℕ)
  | _, none => some none
  | 0, some _ => none
  | fuel + 1, some b => do
    let c ← H.chunk b
    if c.next = some p then some (some b) else predLoop H p fuel c.next

/-- `__pred`. -/
def pred (H : Heap) (b p : ℕ) : Option (Option ℕ) :=
  predLoop H p H.fresh (some b)

/-! ## Iterators -/

/-- `__is_end`. -/
def isEnd (H : Heap) (p : Iter) : Option Bool :=
  match p.bytes with
  | none => some true
  | some b => do
    let c ← H.chunk b
    let t ← tail H b
    some (b = t ∧ p.cur ≥ c.data.length)

def incrByLoop (H : Heap) (moveBeyondEnd : Bool) : ℕ → ℕ → ℕ → ℕ → Option Iter
  | 0, _, _, _ => none
  | fuel + 1, b, cur, n => do
    let c ← H.chunk b
    if cur + n < c.data.length then some ⟨some b, cur + n⟩
    else
      match c.next with
      | none =>
        some ⟨some b, if moveBeyondEnd then c.data.length + n else c.data.length⟩
      | some b' => do
        let c' ← H.chunk b'
        incrByLoop H moveBeyondEnd fuel b' c'.start (n - (c.data.length - cur))

/-- `__hlt_iterator_bytes_incr_by`, by a number that is not negative. -/
def incrBy (H : Heap) (p : Iter) (n : ℕ) (moveBeyondEnd : Bool) : Option Iter := do
  let e ← isEnd H p
  if e then some p
  else if n = 0 then some p
  else
    match p.bytes with
    | none => some p
    | some b => incrByLoop H moveBeyondEnd H.fresh b p.cur n

def normalizeLoop (H : Heap) : ℕ → ℕ → ℕ → ℕ → Option (Iter × ℕ)
  | 0, _, _, _ => none
  | fuel + 1, b, cur, incr => do
    let c ← H.chunk b
    match c.next with
    | none => some (⟨some b, cur⟩, incr)
    | some b' =>
      if cur ≥ c.data.length then do
        let c' ← H.chunk b'
        normalizeLoop H fuel b' c'.start (incr + (cur - c.data.length))
      else some (⟨some b, cur⟩, incr)

/-- `__normalize_iter`. -/
def normalizeIter (H : Heap) (pos : Iter) : Option Iter :=
  match pos.bytes with
  | none => some pos
  | some b => do
    let (pos, incr) ← normalizeLoop H H.fresh b pos.cur 0
    if incr ≠ 0 then incrBy H pos incr true else some pos

/-- `hlt_bytes_end`. -/
def bytesEnd (H : Heap) (b : ℕ) : Option Iter := do
  let t ← tail H b
  let c ← H.chunk t
  some ⟨some t, c.data.length⟩

/-- `hlt_bytes_begin`. -/
def bytesBegin (H : Heap) (b : ℕ) : Option Iter := do
  let e ← isEmpty H b
  if e then bytesEnd H b
  else do
    let c ← H.chunk b
    normalizeIter H ⟨some b, c.start⟩

/-- `hlt_iterator_bytes_incr`. -/
def iteratorIncr (H : Heap) (old : Iter) : Option Iter := do
  let p ← normalizeIter H old
  let e ← isEnd H p
  if e then some p
  else do
    let b ← p.bytes
    let c ← H.chunk b
    if p.cur + 1 < c.data.length then some ⟨some b, p.cur + 1⟩
    else
      match c.next with
      | none => some ⟨some b, c.data.length⟩
      | some b' => do
        let c' ← H.chunk b'
        some ⟨some b', c'.start⟩

/-- `hlt_iterator_bytes_deref`. -/
def iteratorDeref (H : Heap) (pos : Iter) : Option (Except Error UInt8) := do
  let p ← normalizeIter H pos
  let e ← isEnd H p
  if e then some (.error .valueError)
  else do
    let b ← p.bytes
    let c ← H.chunk b
    let x ← c.data[p.cur]?
    some (.ok x)

/-- `hlt_iterator_bytes_eq`. -/
def iteratorEq (H : Heap) (pos1 pos2 : Iter) : Option Bool := do
  let p1 ← normalizeIter H pos1
  let p2 ← normalizeIter H pos2
  let e1 ← isEnd H p1
  let e2 ← isEnd H p2
  some (e1 ∧ e2 ∨ p1 = p2)

/-- `hlt_iterator_bytes_index`. -/
def iteratorIndex (H : Heap) (i : Iter) : Option ℤ := do
  let i ← normalizeIter H i
  match i.bytes with
  | none => some (-1)
  | some b => do
    let c ← H.chunk b
    some (c.offset + ((min i.cur c.data.length : ℕ) - c.start))

/-- `__hlt_iterator_bytes_diff`. -/
def iteratorDiff (H : Heap) (p1 p2 : Iter) : Option ℤ := do
  let e1 ← isEnd H p1
  if e1 then some 0
  else do
    let e2 ← isEnd H p2
    if e2 then do
      let b ← p1.bytes
      let c ← H.chunk b
      let len ← bytesLen H b
      some (len - ((min p1.cur c.data.length : ℕ) - c.start))
    else do
      let i2 ← iteratorIndex H p2
      let i1 ← iteratorIndex H p1
      some (max (i2 - i1) 0)

/-! ## Operations -/

/-- `__add_chunk`. -/
def addChunk (H : Heap) (t c : ℕ) : Option Heap := do
  let tc ← H.chunk t
  let cc ← H.chunk c
  let H := H.write t { tc with next := some c }
  some (H.write c { cc with offset := tc.offset + (tc.data.length - tc.start : ℤ) })

/-- `hlt_bytes_append_raw` and `hlt_bytes_append_raw_copy`. -/
def bytesAppendRaw (H : Heap) (b : ℕ) (raw : List UInt8) : Option Heap :=
  if raw.length = 0 then some H
  else do
    let (H, c) := bytesNew H raw
    let t ← tail H b
    addChunk H t c

/-- `hlt_bytes_append`. -/
def bytesAppend (H : Heap) (b other : ℕ) : Option Heap := do
  let len ← bytesLen H other
  if len = 0 then some H
  else do
    let data ← copyLoop H H.fresh (some other)
    let (H, dst) := bytesNew H data
    let t ← tail H b
    addChunk H t dst

/-- `hlt_bytes_concat`. -/
def bytesConcat (H : Heap) (b1 b2 : ℕ) : Option (Heap × ℕ) := do
  let d1 ← copyLoop H H.fresh (some b1)
  let d2 ← copyLoop H H.fresh (some b2)
  some (bytesNew H (d1 ++ d2))

/-- The loop of `__hlt_bytes_sub_raw_internal` over the chunks between those of the two
iterators, with the last one: what is copied when there is room for `room` bytes. -/
def subLoop (H : Heap) (p2 : Iter) (p2IsEnd : Bool) :
    ℕ → Option ℕ → ℕ → Option (Except Error (List UInt8))
  | _, none, _ => some (if p2IsEnd then .ok [] else .error .valueError)
  | 0, some _, _ => none
  | fuel + 1, some b, room => do
    let c ← H.chunk b
    if some b ≠ p2.bytes ∨ p2IsEnd then do
      let out := (c.data.drop c.start).take room
      let rest ← subLoop H p2 p2IsEnd fuel c.next (room - out.length)
      some (rest.map fun rest => out ++ rest)
    else some (.ok (((c.data.take p2.cur).drop c.start).take room))

/-- `__hlt_bytes_sub_raw_internal` for a buffer of the `len` bytes between the
iterators. -/
def subRawInternal (H : Heap) (len : ℕ) (p1 p2 : Iter) : Option (Except Error (List UInt8)) := do
  let e1 ← isEnd H p1
  if e1 then some (.error .valueError)
  else do
    let b1 ← p1.bytes
    let c1 ← H.chunk b1
    let p2 ← match p2.bytes with
      | none => bytesEnd H b1
      | some _ => some p2
    if p1.bytes = p2.bytes then
      some (.ok (((c1.data.take p2.cur).drop p1.cur).take len))
    else do
      let out := (c1.data.drop p1.cur).take len
      let e2 ← isEnd H p2
      let rest ← subLoop H p2 e2 H.fresh c1.next (len - out.length)
      some (rest.map fun rest => out ++ rest)

/-- `hlt_bytes_sub`. -/
def bytesSub (H : Heap) (p1 p2 : Iter) : Option (Except Error (Heap × ℕ)) := do
  let p1 ← normalizeIter H p1
  let p2 ← normalizeIter H p2
  let len ← iteratorDiff H p1 p2
  if len = 0 then some (.ok (bytesNew H []))
  else
    match ← subRawInternal H len.toNat p1 p2 with
    | .error e => some (.error e)
    -- a part of the new object that nothing was copied to has no defined value
    | .ok out => if out.length = len.toNat then some (.ok (bytesNew H out)) else none

/-- `hlt_bytes_trim`. -/
def bytesTrim (H : Heap) (b : ℕ) (p : Iter) : Option (Except Error Heap) := do
  let p ← normalizeIter H p
  let e ← isEnd H p
  if e then some (.ok H)
  else do
    let pb ← p.bytes
    if pb = b then do
      let c ← H.chunk b
      some (.ok (H.write b { c with offset := c.offset + (p.cur - c.start : ℤ), start := p.cur }))
    else
      match ← pred H b pb with
      | none => some (.error .valueError)
      | some _ => do
        let c ← H.chunk b
        let n ← H.chunk pb
        let H := H.write b { c with
          offset := c.offset + (c.data.length - c.start : ℤ)
          start := c.data.length
          next := some pb }
        some (.ok (H.write pb { n with
          offset := n.offset + (p.cur - n.start : ℤ), start := p.cur }))

/-! ## Reading an object -/

/-- The bytes from an iterator up to another one, as a program reads them one by one. -/
def readLoop (H : Heap) (stop : Iter) : ℕ → Iter → Option (List UInt8)
  | 0, _ => none
  | fuel + 1, i => do
    let e ← iteratorEq H i stop
    if e then some []
    else
      match ← iteratorDeref H i with
      | .error _ => none
      | .ok x => do
        let i ← iteratorIncr H i
        let rest ← readLoop H stop fuel i
        some (x :: rest)

/-- Walking from begin to end, in at most `fuel` steps. -/
def readBytes (H : Heap) (fuel : ℕ) (b : ℕ) : Option (List UInt8) := do
  let i ← bytesBegin H b
  let stop ← bytesEnd H b
  readLoop H stop fuel i

/-! ## Runs -/

/-- The objects and iterators that a program has obtained so far. -/
structure State where
  heap : Heap
  objs : List ℕ
  iters : List Iter

/-- What a program does: objects and iterators are given by their number. -/
inductive Op where
  | new
  | newFromData (data : List UInt8)
  | append (b other : ℕ)
  | appendRaw (b : ℕ) (raw : List UInt8)
  | concat (b1 b2 : ℕ)
  | sub (i1 i2 : ℕ)
  | trim (b i : ℕ)
  | bytesBegin (b : ℕ)
  | bytesEnd (b : ℕ)
  | incr (i : ℕ)
  deriving DecidableEq

def State.add (s : State) (r : Heap × ℕ) : State :=
  { s with heap := r.1, objs := s.objs ++ [r.2] }

def State.obtain (s : State) (i : Iter) : State :=
  { s with iters := s.iters ++ [i] }

/-- One operation; one that raises an exception changes nothing. -/
def step (s : State) : Op → Option State
  | .new => some (s.add (bytesNew s.heap []))
  | .newFromData data => some (s.add (bytesNew s.heap data))
  | .append b other => do
    let b ← s.objs[b]?
    let other ← s.objs[other]?
    let H ← bytesAppend s.heap b other
    some { s with heap := H }
  | .appendRaw b raw => do
    let b ← s.objs[b]?
    let H ← bytesAppendRaw s.heap b raw
    some { s with heap := H }
  | .concat b1 b2 => do
    let b1 ← s.objs[b1]?
    let b2 ← s.objs[b2]?
    let r ← bytesConcat s.heap b1 b2
    some (s.add r)
  | .sub i1 i2 => do
    let i1 ← s.iters[i1]?
    let i2 ← s.iters[i2]?
    match ← bytesSub s.heap i1 i2 with
    | .error _ => some s
    | .ok r => some (s.add r)
  | .trim b i => do
    let b ← s.objs[b]?
    let i ← s.iters[i]?
    match ← bytesTrim s.heap b i with
    | .error _ => some s
    | .ok H => some { s with heap := H }
  | .bytesBegin b => do
    let b ← s.objs[b]?
    let i ← bytesBegin s.heap b
    some (s.obtain i)
  | .bytesEnd b => do
    let b ← s.objs[b]?
    let i ← bytesEnd s.heap b
    some (s.obtain i)
  | .incr i => do
    let i ← s.iters[i]?
    let i ← iteratorIncr s.heap i
    some (s.obtain i)

def machine : Machine State Op where
  start := ⟨⟨fun _ => none, 0⟩, [], []⟩
  next := step

end Hilti.Bytes
