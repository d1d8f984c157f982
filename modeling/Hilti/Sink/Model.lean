import Mathlib
import Hilti.Lib.LinkedList
import Hilti.Lib.Machine

/-!
# Sinks

The model of `libspicy/sink.c`.  A sink hands the data written to it on to the
parsers connected to it, in the order of its sequence numbers, and buffers what
arrives out of order in a doubly linked list of chunks.  An operation without a
result is one that follows a null pointer, reads outside an object, fails an
assertion, or does not end within the given fuel.

Parsers and the hooks they define are code that the sink calls: what they do is
given by an environment.  They do not operate on the sink themselves except for
disconnecting parsers from it.
-/

namespace Hilti.Sink

open Hilti.Lib

set_option autoImplicit false

/-! ## Machine integers and bytes -/

/-- The value of a `uint64_t`. -/
def uint64 (n : ℕ) : ℕ :=
  n % 2 ^ 64

/-- `a - b` on `uint64_t`. -/
def sub64 (a b : ℕ) : ℕ :=
  (a + (2 ^ 64 - b)) % 2 ^ 64

/-- The conversion of a `uint64_t` to `int64_t`. -/
def int64 (n : ℕ) : ℤ :=
  if n < 2 ^ 63 then n else n - 2 ^ 64

/-- The addition of an `int64_t` to a `uint64_t`. -/
def addInt64 (a : ℕ) (i : ℤ) : ℕ :=
  ((a + i) % 2 ^ 64).toNat

/-- The bytes from the beginning up to `n` bytes further on; iterators stop at the
end, and a range that ends before it begins is empty. -/
def bytesTake (n : ℤ) (d : List UInt8) : List UInt8 :=
  d.take n.toNat

/-- The bytes from `n` bytes after the beginning on.  A negative offset points outside
the object, unless it has no bytes and the iterator does not move. -/
def bytesDrop (n : ℤ) (d : List UInt8) : Option (List UInt8) :=
  if n < 0 ∧ d ≠ [] then none else some (d.drop n.toNat)

/-! ## Data types -/

/-- What a chunk holds: its positions and its data, where a gap has none. -/
structure Block where
  rseq : ℕ
  rupper : ℕ
  data : Option (List UInt8)
  deriving DecidableEq

/-- What a sink reports, to a parser or to its hooks. -/
inductive Event where
  | deliver (parser : ℕ) (data : List UInt8)
  | gap (seq len : ℕ)
  | skip (seq : ℕ)
  | overlap (seq : ℕ) (old new : List UInt8)
  | undelivered (seq : ℕ) (data : List UInt8)
  deriving DecidableEq

/-- How a call of a parser ends. -/
inductive Outcome where
  | yield
  | disabled
  | done
  | error
  deriving DecidableEq

/-- `__parser_state`: `fed` are the pieces of `data`, which is null before the
first one. -/
structure ParserState where
  id : ℕ
  fed : List (List UInt8)
  resume : Bool
  disconnected : Bool
  deriving DecidableEq

/-- The code that a sink calls, as functions of the pieces fed to a parser. -/
structure Env where
  parse : ℕ → List (List UInt8) → Outcome
  disconnects : ℕ → List (List UInt8) → List ℕ
  finish : ℕ → List (List UInt8) → Outcome
  raises : ℕ → Event → Bool
  decode : List (List UInt8) → Option (List UInt8)

/-- `spicy_sink`.  `filter` holds what an attached filter has been given, `excpt` is
whether the running call has raised an exception, and `log` is all that the sink
has reported. -/
structure SpicySink where
  head : List ParserState
  filter : Option (List (List UInt8))
  size : ℕ
  autoTrim : Bool
  initialSeq : ℕ
  curRseq : ℕ
  lastReassemRseq : ℕ
  trimRseq : ℕ
  chunks : LinkedList Block
  excpt : Bool
  log : List Event

/-- `spicyhilti_sink_new`, with `initial_seq` set and the parsers `ids` connected. -/
def sinkNew (initialSeq : ℕ) (ids : List ℕ) : SpicySink where
  head := ids.map fun id => ⟨id, [], false, false⟩
  filter := none
  size := 0
  autoTrim := true
  initialSeq := initialSeq
  curRseq := 0
  lastReassemRseq := 0
  trimRseq := 0
  chunks := LinkedList.empty
  excpt := false
  log := []

section

variable (env : Env)

/-! ## Reporting -/

/-- Calls a hook of all parsers. -/
def report (e : Event) (s : SpicySink) : SpicySink :=
  { s with
    log := s.log ++ [e]
    excpt := s.excpt || s.head.any fun p => env.raises p.id e }

def reportGap (rseq len : ℕ) (s : SpicySink) : SpicySink :=
  report env (.gap (uint64 (rseq + s.initialSeq)) len) s

def reportSkip (rseq : ℕ) (s : SpicySink) : SpicySink :=
  report env (.skip (uint64 (rseq + s.initialSeq))) s

/-- The text that stands for missing data, with its terminating null byte. -/
def unavailable : List UInt8 :=
  "<unavailable>".toUTF8.toList ++ [0]

def reportOverlap (old new : Option (List UInt8)) (rseq : ℕ) (s : SpicySink) : SpicySink :=
  report env (.overlap (uint64 (rseq + s.initialSeq)) (old.getD unavailable)
    (new.getD unavailable)) s

def reportUndelivered (rseq : ℕ) (b : List UInt8) (s : SpicySink) : SpicySink :=
  report env (.undelivered (uint64 (rseq + s.initialSeq)) b) s

/-- `__report_undelivered_up_to`, from the chunk `c` on. -/
def reportUndeliveredUpTo (rupper : ℕ) : ℕ → Option ℕ → SpicySink → Option SpicySink
  | 0, _, _ => none
  | _ + 1, none, s => some s
  | fuel + 1, some c, s => do
    let cell ← s.chunks.heap c
    if cell.val.rseq < rupper then
      let s := match cell.val.data with
        | none => s
        | some d =>
          let b := if cell.val.rupper ≤ rupper then d
            else bytesTake (int64 (sub64 cell.val.rupper rupper)) d
          reportUndelivered env cell.val.rseq b s
      reportUndeliveredUpTo rupper fuel cell.next s
    else some s

/-! ## Trimming -/

/-- The loop of `__trim`, from the chunk `c` on. -/
def trimLoop (rseq : ℕ) : ℕ → Option ℕ → SpicySink → Option SpicySink
  | 0, _, _ => none
  | _ + 1, none, s => some s
  | fuel + 1, some c, s => do
    let cell ← s.chunks.heap c
    if cell.val.rupper > rseq then some s
    else
      let s := match cell.val.data with
        | none => s
        | some d => if cell.val.rupper < s.curRseq then reportUndelivered env cell.val.rseq d s
          else s
      let chunks ← s.chunks.remove c
      trimLoop rseq fuel cell.next { s with chunks := chunks.free c }

/-- `__trim`. -/
def trim (fuel : ℕ) (rseq : ℕ) (s : SpicySink) : Option SpicySink := do
  let s ← trimLoop env rseq fuel s.chunks.first s
  some { s with trimRseq := rseq }

/-! ## Parsers -/

/-- `spicyhilti_sink_disconnect`: marks the first parser with the given object. -/
def disconnect (id : ℕ) : List ParserState → List ParserState
  | [] => []
  | p :: rest =>
    if p.id = id then { p with disconnected := true } :: rest else p :: disconnect id rest

/-- `__finish_parser` for the parser at position `i`. -/
def finishParser (i : ℕ) (s : SpicySink) : Option SpicySink := do
  let p ← s.head[i]?
  let s ←
    if p.fed ≠ [] ∧ p.resume = true then
      match env.finish p.id p.fed with
      | .yield => none
      | .disabled => some s
      | .done => some { s with excpt := false }
      | .error => some { s with excpt := true }
    else some s
  some { s with head := s.head.eraseIdx i }

/-- The loop of `__deliver_chunk` over the parsers, from position `i` on; the flag
tells that an error has aborted it. -/
def deliverLoop (data : List UInt8) : ℕ → ℕ → SpicySink → Option (SpicySink × Bool)
  | 0, _, _ => none
  | fuel + 1, i, s =>
    match s.head[i]? with
    | none => some (s, false)
    | some p =>
      -- the loop goes on without moving to the next parser
      if p.disconnected then deliverLoop data fuel i s
      else if p.fed ≠ [] ∧ p.resume = false then deliverLoop data fuel (i + 1) s
      else
        let fed := p.fed ++ [data]
        let head := (env.disconnects p.id fed).foldl (fun l id => disconnect id l)
          (s.head.set i { p with fed := fed, resume := false })
        let s := { s with head := head, log := s.log ++ [Event.deliver p.id data] }
        match env.parse p.id fed with
        | .yield =>
          deliverLoop data fuel (i + 1)
            { s with head := s.head.modify i fun p => { p with resume := true } }
        | .disabled => deliverLoop data fuel i { s with head := s.head.eraseIdx i }
        | .done => deliverLoop data fuel i { s with head := s.head.eraseIdx i }
        | .error => some ({ s with head := s.head.eraseIdx i, excpt := true }, true)

/-- The removal of disconnected parsers at the end of `__deliver_chunk`. -/
def finishDisconnected : ℕ → SpicySink → Option SpicySink
  | 0, _ => none
  | fuel + 1, s =>
    match s.head.findIdx? fun p => p.disconnected with
    | none => some s
    | some i => do
      let s' ← finishParser env i s
      finishDisconnected fuel { s' with excpt := s.excpt }

/-- `__deliver_chunk` for data, up to its label `exit`. -/
def deliverData (fuel : ℕ) (data : List UInt8) (s : SpicySink) : Option SpicySink :=
  let (s, decoded) := match s.filter with
    | none => (s, some data)
    | some given => ({ s with filter := some (given ++ [data]) }, env.decode (given ++ [data]))
  match decoded with
  | none => some s
  | some data =>
    let s := { s with size := uint64 (s.size + data.length) }
    if s.excpt then some s
    else if s.head = [] then some s
    else do
      let (s, aborted) ← deliverLoop env data fuel 0 s
      if aborted then some s else finishDisconnected env fuel s

/-- `__deliver_chunk`. -/
def deliverChunk (fuel : ℕ) (b : Block) (s : SpicySink) : Option (SpicySink × Bool) :=
  match b.data with
  | none =>
    if s.curRseq ≠ b.rupper then do
      let s := reportGap env b.rseq (sub64 b.rupper b.rseq) s
      let s := { s with curRseq := b.rupper }
      let s ← if s.autoTrim then trim env fuel b.rseq s else some s
      some (s, false)
    else some (s, false)
  | some data => do
    let s ← deliverData env fuel data s
    let s := { s with curRseq := b.rupper, lastReassemRseq := b.rupper }
    let s ← if s.autoTrim then trim env fuel b.rupper s else some s
    some (s, true)

/-- `__try_deliver`. -/
def tryDeliver : ℕ → Option ℕ → SpicySink → Option SpicySink
  | 0, _, _ => none
  | _ + 1, none, s => some s
  | fuel + 1, some c, s => do
    let cell ← s.chunks.heap c
    if cell.val.rseq ≤ s.lastReassemRseq then
      if cell.val.rseq = s.lastReassemRseq then
        let s := { s with
          lastReassemRseq :=
            uint64 (s.lastReassemRseq + sub64 cell.val.rupper cell.val.rseq) }
        let (s, delivered) ← deliverChunk env fuel cell.val s
        if delivered then tryDeliver fuel cell.next s else some s
      else tryDeliver fuel cell.next s
    else some s

/-! ## Adding data -/

/-- The loop of `__add_and_check` that looks for the first chunk that does not come
completely before `rseq`. -/
def findChunk (s : SpicySink) (rseq : ℕ) : ℕ → ℕ → Option ℕ
  | 0, _ => none
  | fuel + 1, b => do
    let cell ← s.chunks.heap b
    match cell.next with
    | some n => if cell.val.rupper ≤ rseq then findChunk s rseq fuel n else some b
    | none => some b

/-- `__new_chunk` and `__link_chunk`. -/
def newChunk (prev : Option ℕ) (b : Block) (s : SpicySink) : Option (SpicySink × ℕ) := do
  let chunks ← (s.chunks.alloc b).insertAfter prev s.chunks.fresh
  some ({ s with chunks := chunks }, s.chunks.fresh)

/-- The part of the new data that comes before the chunk `b`: the chunk made for it,
the data that remains, and the position where it starts. -/
def splitPrefix (b : ℕ) (cell : Cell Block) (rseq : ℕ) (data : Option (List UInt8)) (s : SpicySink) :
    Option (SpicySink × Option ℕ × ℕ × Option (List UInt8)) :=
  if rseq < cell.val.rseq then
    let prefixLen := int64 (sub64 cell.val.rseq rseq)
    match data with
    | some d => do
      let (s, newB) ← newChunk cell.prev
        ⟨rseq, addInt64 rseq prefixLen, some (bytesTake prefixLen d)⟩ s
      let d ← bytesDrop prefixLen d
      some (s, some newB, addInt64 rseq prefixLen, some d)
    | none => some (s, none, addInt64 rseq prefixLen, none)
  else some (s, some b, rseq, data)

/-- The data of a new block from `n` bytes on.  For a gap the iterators of no bytes
object raise an exception, and the bytes between them are an empty object. -/
def remainder (n : ℤ) (data : Option (List UInt8)) (s : SpicySink) :
    Option (SpicySink × List UInt8) :=
  match data with
  | some d => do
    let d ← bytesDrop n d
    some (s, d)
  | none => some ({ s with excpt := true }, [])

/-- `__add_and_check`. -/
def addAndCheck : ℕ → ℕ → ℕ → ℕ → Option (List UInt8) → SpicySink → Option (SpicySink × Option ℕ)
  | 0, _, _, _, _, _ => none
  | fuel + 1, b, rseq, rupper, data, s => do
    let _ ← s.chunks.first
    let last ← s.chunks.last
    let lastCell ← s.chunks.heap last
    if rseq = lastCell.val.rupper then
      let (s, c) ← newChunk (some last) ⟨rseq, rupper, data⟩ s
      some (s, some c)
    else do
      let b ← findChunk s rseq fuel b
      let cell ← s.chunks.heap b
      if cell.val.rupper ≤ rseq then
        let (s, c) ← newChunk (some b) ⟨rseq, rupper, data⟩ s
        some (s, some c)
      else if rupper ≤ cell.val.rseq then
        let (s, c) ← newChunk cell.prev ⟨rseq, rupper, data⟩ s
        some (s, some c)
      else do
        let (s, newB, rseq, data) ← splitPrefix b cell rseq data s
        let newBLen := int64 (sub64 rupper rseq)
        let bLen := int64 (sub64 cell.val.rupper rseq)
        let overlapLen := if newBLen < bLen then newBLen else bLen
        let oldData := cell.val.data.map fun d =>
          bytesTake overlapLen (d.drop (rseq - cell.val.rseq))
        let newData := data.map (bytesTake overlapLen)
        let s := reportOverlap env oldData newData rseq s
        if overlapLen < newBLen then do
          let (s, rest) ← remainder overlapLen data s
          let (s, c) ← addAndCheck fuel b (addInt64 rseq overlapLen) rupper (some rest) s
          some (s, if newB = some b then c else newB)
        else some (s, newB)

/-- `__new_block`; a gap has no data. -/
def newBlock (fuel : ℕ) (data : Option (List UInt8)) (rseq len : ℕ) (s : SpicySink) : Option SpicySink :=
  if len = 0 then some s
  else if rseq = s.curRseq ∧ s.chunks.first = none then do
    let (s, _) ← deliverChunk env fuel ⟨rseq, uint64 (rseq + len), data⟩ s
    some s
  else
    let rupper := uint64 (rseq + len)
    if rupper ≤ s.trimRseq then some s
    else do
      let (rseq, data) ←
        if rseq < s.trimRseq then
          let amountOld := int64 (sub64 s.trimRseq rseq)
          match data with
          | some d => do
            let d ← bytesDrop amountOld d
            some (addInt64 rseq amountOld, some d)
          | none => some (addInt64 rseq amountOld, none)
        else some (rseq, data)
      let (s, c) ←
        match s.chunks.first with
        | none =>
          -- the length still counts the part that was cut off
          let chunks := s.chunks.alloc ⟨rseq, uint64 (rseq + len), data⟩
          let c := s.chunks.fresh
          some ({ s with chunks := { chunks with first := some c, last := some c } }, some c)
        | some first => addAndCheck env fuel first rseq rupper data s
      let c ← c
      let cell ← s.chunks.heap c
      if cell.val.rseq > s.lastReassemRseq ∨ cell.val.rupper ≤ s.lastReassemRseq then some s
      else tryDeliver env fuel (some c) s

/-! ## The operations of a sink -/

/-- Finishes all parsers. -/
def finishAll : ℕ → SpicySink → Option SpicySink
  | 0, _ => none
  | fuel + 1, s =>
    match s.head with
    | [] => some s
    | _ :: _ => do
      let s ← finishParser env 0 s
      finishAll fuel s

/-- `spicyhilti_sink_close`. -/
def sinkClose (fuel : ℕ) (s : SpicySink) : Option SpicySink := do
  let s ← finishAll env fuel { s with filter := none }
  let s ← trim env fuel (2 ^ 64 - 1) s
  if s.chunks.first = none ∧ s.chunks.last = none then
    some { s with curRseq := 0, lastReassemRseq := 0, trimRseq := 0 }
  else none

/-- `__check_seq`, followed by the rest of the operation when it succeeds. -/
def checkSeq (fuel : ℕ) (seq : ℕ) (k : SpicySink → Option SpicySink) (s : SpicySink) : Option SpicySink :=
  if s.initialSeq ≤ seq then k s
  else do
    let s ← sinkClose env fuel s
    some { s with excpt := true }

/-- `__skip`. -/
def skip (fuel : ℕ) (rseq : ℕ) (s : SpicySink) : Option SpicySink := do
  let s ← reportUndeliveredUpTo env rseq fuel s.chunks.first s
  let s ← if s.autoTrim then trim env fuel rseq s else some s
  let s := { s with curRseq := rseq, lastReassemRseq := rseq }
  let s := reportSkip env rseq s
  tryDeliver env fuel s.chunks.first s

/-- The operations that a program calls on a sink. -/
inductive Op where
  | write (data : List UInt8) (seq : ℕ)
  | append (data : List UInt8)
  | gap (seq len : ℕ)
  | skip (seq : ℕ)
  | trim (seq : ℕ)
  | close
  deriving DecidableEq

def sinkWrite (fuel : ℕ) (data : List UInt8) (seq : ℕ) (s : SpicySink) : Option SpicySink :=
  checkSeq env fuel seq
    (fun s => newBlock env fuel (some data) (sub64 seq s.initialSeq) data.length s) s

def sinkAppend (fuel : ℕ) (data : List UInt8) (s : SpicySink) : Option SpicySink :=
  newBlock env fuel (some data) s.curRseq data.length s

def sinkGap (fuel : ℕ) (seq len : ℕ) (s : SpicySink) : Option SpicySink :=
  checkSeq env fuel seq (fun s => newBlock env fuel none (sub64 seq s.initialSeq) len s) s

def sinkSkip (fuel : ℕ) (seq : ℕ) (s : SpicySink) : Option SpicySink :=
  checkSeq env fuel seq (fun s => skip env fuel (sub64 seq s.initialSeq) s) s

def sinkTrim (fuel : ℕ) (seq : ℕ) (s : SpicySink) : Option SpicySink :=
  checkSeq env fuel seq (fun s => trim env fuel (sub64 seq s.initialSeq) s) s

/-- One operation.  A call starts without an exception. -/
def perform (fuel : ℕ) (op : Op) (s : SpicySink) : Option SpicySink :=
  let s := { s with excpt := false }
  match op with
  | .write data seq => sinkWrite env fuel data seq s
  | .append data => sinkAppend env fuel data s
  | .gap seq len => sinkGap env fuel seq len s
  | .skip seq => sinkSkip env fuel seq s
  | .trim seq => sinkTrim env fuel seq s
  | .close => sinkClose env fuel s

/-- Fuel that is enough for one operation. -/
def opFuel (s : SpicySink) : ℕ :=
  4 * s.chunks.fresh + s.head.length + 20

/-- A sink as a machine. -/
def machine (start : SpicySink) : Machine SpicySink Op where
  start := start
  next s op := perform env (opFuel s) op s

end

end Hilti.Sink
