import Mathlib
import Hilti.Lib.Machine

/-! # Channels (`libhilti/channel.c`)

The state that all instances of a channel share, with its chunks in memory: a chunk is linked to the
next one when it is full, and a reader that has exhausted a chunk moves on to the next one. Chunks
that the reader has left are not freed. The type information of the items is a parameter: the value
of zeroed memory, and what `hlt_clone_deep` leaves in the slot and whether it raises an exception. -/

namespace Hilti.Channel
open Hilti.Lib
set_option autoImplicit false

/-- What the channel uses of the type of its items. -/
structure TypeInfo (α : Type) where
  zero : α
  cloneDeep : α → α × Bool

/-- `hlt_channel_chunk`. -/
structure Chunk (α : Type) where
  capacity : ℕ
  wcnt : ℕ
  rcnt : ℕ
  data : ℕ → α
  next : Option ℕ

/-- `__hlt_channel_shared`: `mem` has the chunks at their addresses, of which `allocated` are in use;
`head` and `tail` are slots of a chunk. -/
structure Shared (α : Type) where
  capacity : ℤ
  size : ℤ
  chunkCap : ℕ
  mem : ℕ → Chunk α
  allocated : ℕ
  rc : ℕ
  wc : ℕ
  head : ℕ × ℕ
  tail : ℕ × ℕ

def initialChunkSize : ℕ := 2 ^ 8

def maxChunkSize : ℕ := 2 ^ 14

variable {α : Type} (ti : TypeInfo α)

/-- `_hlt_chunk_create`; without memory `hlt_malloc` does not return. -/
def hltChunkCreate (capacity : ℕ) : Chunk α where
  capacity := capacity
  wcnt := 0
  rcnt := 0
  data := fun _ => ti.zero
  next := none

/-- `hlt_channel_new`. -/
def hltChannelNew (capacity : ℤ) : Shared α where
  capacity := capacity
  size := 0
  chunkCap := initialChunkSize
  mem := fun _ => hltChunkCreate ti initialChunkSize
  allocated := 1
  rc := 0
  wc := 0
  head := (0, 0)
  tail := (0, 0)

/-- The slot of a chunk, if it has so many. -/
def Shared.slot (s : Shared α) (p : ℕ × ℕ) : Option α :=
  if p.2 < (s.mem p.1).capacity then some ((s.mem p.1).data p.2) else none

/-- `_hlt_channel_read_item`, undefined where its assertion fails or it leaves the chunk. -/
def hltChannelReadItem (s : Shared α) : Option (Shared α × α) :=
  let moved : Option (Shared α) :=
    if (s.mem s.rc).rcnt = (s.mem s.rc).capacity then
      (s.mem s.rc).next.map fun next => { s with rc := next, head := (next, 0) }
    else some s
  moved.bind fun s =>
    (s.slot s.head).map fun item =>
      let rc := s.mem s.rc
      ({ s with
          mem := Function.update s.mem s.rc { rc with rcnt := rc.rcnt + 1 }
          head := (s.head.1, s.head.2 + 1)
          size := s.size - 1 }, item)

/-- The loop that makes the next chunk fit into what is left of a bounded channel. The difference is
compared as an unsigned number, so a negative one is larger than any chunk. -/
def shrink (free : ℤ) : ℕ → ℕ → ℕ
  | 0, chunkCap => chunkCap
  | fuel + 1, chunkCap =>
      if 0 ≤ free ∧ free < chunkCap then shrink free fuel (chunkCap / 2) else chunkCap

/-- The capacity of the next chunk. -/
def nextChunkCap (s : Shared α) : ℕ :=
  if s.capacity ≠ 0 then shrink (s.capacity - s.size) s.chunkCap s.chunkCap
  else if s.chunkCap < maxChunkSize then s.chunkCap * 2
  else s.chunkCap

/-- The part of `_hlt_channel_write_item` that makes room. -/
def hltChannelGrow (s : Shared α) : Shared α :=
  if (s.mem s.wc).wcnt = (s.mem s.wc).capacity then
    let chunkCap := nextChunkCap s
    let wc := s.mem s.wc
    let mem := Function.update s.mem s.wc { wc with next := some s.allocated }
    { s with
      chunkCap := chunkCap
      mem := Function.update mem s.allocated (hltChunkCreate ti chunkCap)
      allocated := s.allocated + 1
      wc := s.allocated
      tail := (s.allocated, 0) }
  else s

/-- The part of `_hlt_channel_write_item` that stores the item, undefined where it leaves the chunk.
The item counts also if cloning it has raised an exception. -/
def hltChannelStore (s : Shared α) (item : α) : Option (Shared α) :=
  if s.tail.2 < (s.mem s.tail.1).capacity then
    let tc := s.mem s.tail.1
    let mem := Function.update s.mem s.tail.1
      { tc with data := Function.update tc.data s.tail.2 item }
    let wc := mem s.wc
    some { s with
      mem := Function.update mem s.wc { wc with wcnt := wc.wcnt + 1 }
      tail := (s.tail.1, s.tail.2 + 1)
      size := s.size + 1 }
  else none

/-- `_hlt_channel_write_item`, with whether it has raised an exception. -/
def hltChannelWriteItem (s : Shared α) (item : α) : Option (Shared α × Bool) :=
  (hltChannelStore (hltChannelGrow ti s) (ti.cloneDeep item).1).map
    fun s => (s, (ti.cloneDeep item).2)

/-- What a call returns, or the exception that it raises. -/
inductive Outcome (α : Type)
  | wrote (item : α)
  | cloneRaised
  | read (item : α)
  | wouldBlock
  deriving DecidableEq

def writeOutcome (item : α) (raised : Bool) : Outcome α :=
  if raised then .cloneRaised else .wrote (ti.cloneDeep item).1

/-- `hlt_channel_write`. -/
def hltChannelWrite (s : Shared α) (item : α) : Option (Shared α × Outcome α) :=
  (hltChannelWriteItem ti s item).map fun r => (r.1, writeOutcome ti item r.2)

/-- The test of `hlt_channel_write_try`. -/
def Shared.full (s : Shared α) : Prop := s.capacity ≠ 0 ∧ s.size = s.capacity

instance (s : Shared α) : Decidable s.full :=
  inferInstanceAs (Decidable (_ ∧ _))

/-- `hlt_channel_write_try`. -/
def hltChannelWriteTry (s : Shared α) (item : α) : Option (Shared α × Outcome α) :=
  if s.full then some (s, .wouldBlock) else hltChannelWrite ti s item

/-- `hlt_channel_read` once there is an item. -/
def hltChannelRead (s : Shared α) : Option (Shared α × Outcome α) :=
  (hltChannelReadItem s).map fun r => (r.1, .read r.2)

/-- `hlt_channel_read_try`. -/
def hltChannelReadTry (s : Shared α) : Option (Shared α × Outcome α) :=
  if s.size = 0 then some (s, .wouldBlock) else hltChannelRead s

/-! ## What the chunks hold -/

/-- The items of a chunk that have not been read. -/
def Chunk.unread (c : Chunk α) : List α := (List.range' c.rcnt (c.wcnt - c.rcnt)).map c.data

/-- The items in `n` chunks from `k` on. -/
def unreadFrom (mem : ℕ → Chunk α) (k n : ℕ) : List α :=
  (List.range' k n).flatMap fun i => (mem i).unread

/-- The items in the chunks from the reader's to the writer's. -/
def Shared.items (s : Shared α) : List α := unreadFrom s.mem s.rc (s.wc + 1 - s.rc)

/-- The chunks from the reader's to the writer's are linked in the order of their creation, all but
the last of them are full, and only the first of them has been read from. -/
structure WellFormed (s : Shared α) : Prop where
  rc_le : s.rc ≤ s.wc
  allocated_eq : s.allocated = s.wc + 1
  head_eq : s.head = (s.rc, (s.mem s.rc).rcnt)
  tail_eq : s.tail = (s.wc, (s.mem s.wc).wcnt)
  next_eq : ∀ k, s.rc ≤ k → k < s.wc → (s.mem k).next = some (k + 1)
  full : ∀ k, s.rc ≤ k → k < s.wc → (s.mem k).wcnt = (s.mem k).capacity
  untouched : ∀ k, s.rc < k → k ≤ s.wc → (s.mem k).rcnt = 0
  rcnt_le : ∀ k, s.rc ≤ k → k ≤ s.wc → (s.mem k).rcnt ≤ (s.mem k).wcnt
  wcnt_le : ∀ k, s.rc ≤ k → k ≤ s.wc → (s.mem k).wcnt ≤ (s.mem k).capacity
  capacity_pos : ∀ k, s.rc ≤ k → k ≤ s.wc → 0 < (s.mem k).capacity
  chunkCap_pos : 0 < s.chunkCap
  size_eq : s.size = s.items.length

theorem items_new (capacity : ℤ) : (hltChannelNew ti capacity).items = [] := rfl

theorem wellFormed_new (capacity : ℤ) : WellFormed (hltChannelNew ti capacity) where
  rc_le := le_rfl
  allocated_eq := rfl
  head_eq := rfl
  tail_eq := rfl
  next_eq k _ hk := absurd hk (Nat.not_lt_zero k)
  full k _ hk := absurd hk (Nat.not_lt_zero k)
  untouched _ _ _ := rfl
  rcnt_le _ _ _ := Nat.zero_le _
  wcnt_le _ _ _ := Nat.zero_le _
  capacity_pos _ _ _ := by
    change 0 < 2 ^ 8
    decide
  chunkCap_pos := by
    change 0 < 2 ^ 8
    decide
  size_eq := rfl

end Hilti.Channel
