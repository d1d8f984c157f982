import Hilti.Lib.Machine
import Mathlib.Logic.Function.Basic
import Mathlib.Algebra.BigOperators.Group.Finset.Basic

/-! # The multiple-writer, single-reader thread queue (`libhilti/tqueue.c`)

Each thread is a small program over the shared queue. A step is one stretch of code between two
points where another thread may run: a critical section (`_acquire_lock` .. `_release_lock`), or a
stretch that touches only the thread's own fields. `need_flush` is the one flag shared without the
lock; a writer reads it in a step of its own.

An `assert` that fails ends the process, so the model has no successor state there. -/

namespace Hilti.ThreadQueue
open Hilti.Lib
set_option autoImplicit false

/-- `uint64_t` arithmetic. -/
def u64 (n : ℕ) : ℕ := n % 2 ^ 64

/-- The arguments of `hlt_thread_queue_new`. -/
structure Config where
  writers : ℕ
  batchSize : ℕ
  maxBatches : ℕ

/-- A batch: `write_pos` is the length of `elems`. The owner is not stored by the code; the model
keeps it to say which writer an element came from. -/
structure Batch (α : Type) where
  owner : ℕ
  elems : List α

/-- Where `hlt_thread_queue_flush` returns to. -/
inductive Return (α : Type)
  /-- Back to the caller of the queue. -/
  | caller
  /-- Into the loop of `hlt_thread_queue_write`, which still holds its element. -/
  | write (e : α)

/-- The program point of a writer thread. -/
inductive WriterPc (α : Type)
  | idle
  /-- Head of the `do` loop of `hlt_thread_queue_write`. -/
  | getBatch (e : α)
  /-- Behind that loop: store the element. -/
  | store (e : α)
  /-- `hlt_thread_queue_writer_update`. -/
  | update
  /-- Entry of `hlt_thread_queue_flush`. -/
  | flush (k : Return α)
  /-- Head of the `do` loop of `hlt_thread_queue_flush`, before the lock. -/
  | flushLock (k : Return α)

/-- The program point of the reader thread. -/
inductive ReaderPc
  | idle
  /-- The inner loop of `hlt_thread_queue_read`, over the reader's own batches. -/
  | scan (block : Bool) (timeout : ℤ)
  /-- Before the lock. -/
  | lock (block : Bool) (timeout : ℤ)
  /-- The lock is released again and nothing was pending. -/
  | nothing (block : Bool) (timeout : ℤ)

/-- What one call of `hlt_thread_queue_read` gave back. -/
inductive ReadResult (α : Type)
  | elem (owner : ℕ) (e : α)
  | null

structure State (α : Type) where
  writerBatches : ℕ → Option (Batch α)
  writerNumWritten : ℕ → ℕ
  readerHead : List (Batch α)
  readerPos : ℕ
  readerNumRead : ℕ
  readerNumTerminated : ℕ
  lockPending : List (Batch α)
  lockNumPending : ℕ
  lockBlock : Bool
  lockWritersTerminated : ℕ → Bool
  needFlush : Bool
  writerPc : ℕ → WriterPc α
  readerPc : ReaderPc
  /-- Everything the write calls of a writer stored, in order. -/
  written : ℕ → List α
  /-- The part of it that the writer's flushes have handed over. -/
  flushed : ℕ → List α
  /-- What the read calls have returned, in order. -/
  results : List (ReadResult α)
  /-- `flushed` at the moment the reader last took the lock. -/
  flushedAtLock : ℕ → List α

/-- `hlt_thread_queue_new`. -/
def hltThreadQueueNew (α : Type) : State α where
  writerBatches := fun _ => none
  writerNumWritten := fun _ => 0
  readerHead := []
  readerPos := 0
  readerNumRead := 0
  readerNumTerminated := 0
  lockPending := []
  lockNumPending := 0
  lockBlock := false
  lockWritersTerminated := fun _ => false
  needFlush := false
  writerPc := fun _ => .idle
  readerPc := .idle
  written := fun _ => []
  flushed := fun _ => []
  results := []
  flushedAtLock := fun _ => []

section
variable {α : Type} (cfg : Config) (s : State α) (w : ℕ)

def State.setPc (pc : WriterPc α) : State α :=
  { s with writerPc := Function.update s.writerPc w pc }

/-- Where a finished flush goes on. -/
def returnTo : Return α → WriterPc α
  | .caller => .idle
  | .write e => .getBatch e

/-- The loop of `hlt_thread_queue_write`: get a batch, flush it if it is full. The loop ends when
the writer has a batch, which after a flush it has not. -/
def getBatch (e : α) : State α :=
  match s.writerBatches w with
  | none =>
      let s := { s with writerBatches := Function.update s.writerBatches w (some ⟨w, []⟩) }
      if 0 ≥ cfg.batchSize then s.setPc w (.flush (.write e)) else s.setPc w (.store e)
  | some b =>
      if b.elems.length ≥ cfg.batchSize then s.setPc w (.flush (.write e)) else s.setPc w (.store e)

/-- The end of `hlt_thread_queue_write`, with its `assert`. -/
def store (e : α) : Option (State α) :=
  match s.writerBatches w with
  | none => none
  | some b =>
      if b.elems.length < cfg.batchSize then
        some ({ s with
          writerBatches := Function.update s.writerBatches w (some ⟨b.owner, b.elems ++ [e]⟩)
          writerNumWritten := Function.update s.writerNumWritten w (u64 (s.writerNumWritten w + 1))
          written := Function.update s.written w (s.written w ++ [e]) }.setPc w .update)
      else none

/-- `hlt_thread_queue_writer_update`. -/
def writerUpdate : State α :=
  if s.needFlush then s.setPc w (.flush .caller) else s.setPc w .idle

/-- `hlt_thread_queue_flush` up to its loop: without anything to flush it returns. When the write
loop called it with an empty batch, that loop ends too, since the batch is still there. -/
def flushEntry (k : Return α) : State α :=
  match s.writerBatches w with
  | some ⟨_, _ :: _⟩ => s.setPc w (.flushLock k)
  | some ⟨_, []⟩ =>
      match k with
      | .caller => s.setPc w .idle
      | .write e => s.setPc w (.store e)
  | none => s.setPc w (returnTo k)

/-- The critical section of `hlt_thread_queue_flush`. If it blocks, the loop goes round. -/
def flushLocked (k : Return α) : State α :=
  match s.writerBatches w with
  | none => s.setPc w (returnTo k)
  | some b =>
      if s.lockBlock then s
      else if s.lockNumPending < cfg.maxBatches ∨ cfg.maxBatches = 0 then
        { s with
          lockPending := s.lockPending ++ [b]
          lockNumPending := s.lockNumPending + 1
          writerBatches := Function.update s.writerBatches w none
          flushed := Function.update s.flushed w (s.flushed w ++ b.elems) }.setPc w (returnTo k)
      else { s with lockBlock := true }

/-- One step of writer `w` inside a call. -/
def writerStep : Option (State α) :=
  match s.writerPc w with
  | .idle => none
  | .getBatch e => some (getBatch cfg s w e)
  | .store e => store cfg s w e
  | .update => some (writerUpdate s w)
  | .flush k => some (flushEntry s w k)
  | .flushLock k => some (flushLocked cfg s w k)

/-- Call `hlt_thread_queue_write`; a terminated writer is ignored. -/
def hltThreadQueueWrite (e : α) : Option (State α) :=
  match s.writerPc w with
  | .idle => if s.lockWritersTerminated w then some s else some (s.setPc w (.getBatch e))
  | _ => none

/-- Call `hlt_thread_queue_flush`. -/
def hltThreadQueueFlush : Option (State α) :=
  match s.writerPc w with
  | .idle => some (s.setPc w (.flush .caller))
  | _ => none

/-- Call `hlt_thread_queue_terminate_writer`: the flag is set under the lock, then the writer
flushes. -/
def hltThreadQueueTerminateWriter : Option (State α) :=
  match s.writerPc w with
  | .idle => some ({ s with
      lockWritersTerminated := Function.update s.lockWritersTerminated w true }.setPc w (.flush .caller))
  | _ => none

/-- `hlt_thread_queue_size`. -/
def hltThreadQueueSize : ℕ :=
  u64 (u64 (∑ i ∈ Finset.range cfg.writers, s.writerNumWritten i) + (2 ^ 64 - u64 s.readerNumRead))

/-- `hlt_thread_queue_terminated`. -/
def hltThreadQueueTerminated : Bool :=
  s.readerNumTerminated = cfg.writers ∧ hltThreadQueueSize cfg s = 0

/-- `hlt_thread_queue_can_read`. -/
def hltThreadQueueCanRead : Bool := !s.readerHead.isEmpty

/-- One round of the inner loop of `hlt_thread_queue_read`. -/
def readScan (block : Bool) (timeout : ℤ) : State α :=
  match s.readerHead with
  | [] => { s with readerPc := .lock block timeout }
  | b :: rest =>
      let s := { s with needFlush := false }
      match b.elems[s.readerPos]? with
      | some e =>
          { s with
            readerNumRead := u64 (s.readerNumRead + 1)
            readerPos := s.readerPos + 1
            results := s.results ++ [.elem b.owner e]
            readerPc := .idle }
      | none => { s with readerHead := rest, readerPos := 0 }

/-- The critical section of `hlt_thread_queue_read`. -/
def readLocked (block : Bool) (timeout : ℤ) : State α :=
  { s with
    readerHead := s.lockPending
    readerPos := 0
    lockPending := []
    lockNumPending := 0
    lockBlock := false
    readerNumTerminated := ((List.range cfg.writers).filter fun i => s.lockWritersTerminated i).length
    flushedAtLock := s.flushed
    readerPc := if s.lockPending.isEmpty then .nothing block timeout else .scan block timeout }

/-- Behind the critical section when nothing was pending: return, or sleep and go round. -/
def readNothing (block : Bool) (timeout : ℤ) : State α :=
  let s := { s with needFlush := true }
  if timeout ≤ 0 ∧ ¬ block ∨ hltThreadQueueTerminated cfg s then
    { s with results := s.results ++ [.null], readerPc := .idle }
  else { s with readerPc := .scan block (timeout - 1000) }

/-- One step of the reader inside a call. -/
def readerStep : Option (State α) :=
  match s.readerPc with
  | .idle => none
  | .scan block timeout => some (readScan s block timeout)
  | .lock block timeout => some (readLocked cfg s block timeout)
  | .nothing block timeout => some (readNothing cfg s block timeout)

/-- Call `hlt_thread_queue_read`. -/
def hltThreadQueueRead (timeout : ℤ) : Option (State α) :=
  match s.readerPc with
  | .idle => some { s with readerPc := .scan (timeout = 0) (timeout * 1000) }
  | _ => none

end

/-- What the threads may do next: start a call, or go one step on in the one they are in. -/
inductive Action (α : Type)
  | write (w : ℕ) (e : α)
  | flush (w : ℕ)
  | terminate (w : ℕ)
  | writer (w : ℕ)
  | read (timeout : ℤ)
  | reader

/-- One step of the queue; writers are numbered below `writers`. -/
def next {α : Type} (cfg : Config) (s : State α) : Action α → Option (State α)
  | .write w e => if w < cfg.writers then hltThreadQueueWrite s w e else none
  | .flush w => if w < cfg.writers then hltThreadQueueFlush s w else none
  | .terminate w => if w < cfg.writers then hltThreadQueueTerminateWriter s w else none
  | .writer w => if w < cfg.writers then writerStep cfg s w else none
  | .read timeout => hltThreadQueueRead s timeout
  | .reader => readerStep cfg s

/-- The queue with its threads. -/
def machine (α : Type) (cfg : Config) : Machine (State α) (Action α) where
  start := hltThreadQueueNew α
  next := next cfg

end Hilti.ThreadQueue
