import Hilti.Lib.Relocation
import Hilti.Sink.WellFormed

/-!
# All calls on a sink

The operations of `libspicy/sink.c` that set up a sink, besides those that feed it.  What any
of them does depends neither on where in memory the chunks of the sink are nor on what it has
reported before.
-/

namespace Hilti.Sink

open Hilti.Lib

set_option autoImplicit false

/-! ## Setting up a sink -/

section

variable (env : Env)

/-- `_spicyhilti_sink_connect_intern`. -/
def sinkConnect (id : ℕ) (s : SpicySink) : SpicySink :=
  { s with head := ⟨id, [], false, false⟩ :: s.head }

def sinkDisconnect (id : ℕ) (s : SpicySink) : SpicySink :=
  { s with head := disconnect id s.head }

/-- Closes the sink and raises an exception. -/
def closeWithError (fuel : ℕ) (s : SpicySink) : Option SpicySink := do
  let s ← sinkClose env fuel s
  some { s with excpt := true }

/-- `spicyhilti_sink_set_initial_sequence_number`; it sets the number even if it raises an
exception. -/
def sinkSetInitialSequenceNumber (fuel : ℕ) (seq : ℕ) (s : SpicySink) : Option SpicySink := do
  let s ← if s.curRseq ≠ 0 ∨ s.chunks.first ≠ none then closeWithError env fuel s else some s
  some { s with initialSeq := uint64 seq }

/-- `spicyhilti_sink_set_policy`, which accepts only the policy `First`. -/
def sinkSetPolicy (fuel : ℕ) (first : Bool) (s : SpicySink) : Option SpicySink :=
  if first then some s else closeWithError env fuel s

/-- `spicyhilti_sink_set_auto_trim`. -/
def sinkSetAutoTrim (fuel : ℕ) (enable : Bool) (s : SpicySink) : Option SpicySink :=
  if enable then some s else closeWithError env fuel s

/-- `spicyhilti_sink_add_filter`. -/
def sinkAddFilter (s : SpicySink) : SpicySink :=
  { s with filter := some (s.filter.getD []) }

/-- `spicyhilti_sink_size`. -/
def sinkSize (s : SpicySink) : ℕ :=
  s.size

/-- `spicyhilti_sink_sequence`. -/
def sinkSequence (s : SpicySink) : ℕ :=
  uint64 (s.curRseq + s.initialSeq)

/-- All that a program calls on a sink. -/
inductive Call where
  | connect (id : ℕ)
  | disconnect (id : ℕ)
  | setInitialSequenceNumber (seq : ℕ)
  | setPolicy (first : Bool)
  | setAutoTrim (enable : Bool)
  | addFilter
  | op (op : Op)
  deriving DecidableEq

def call (fuel : ℕ) (c : Call) (s : SpicySink) : Option SpicySink :=
  let s := { s with excpt := false }
  match c with
  | .connect id => some (sinkConnect id s)
  | .disconnect id => some (sinkDisconnect id s)
  | .setInitialSequenceNumber seq => sinkSetInitialSequenceNumber env fuel seq s
  | .setPolicy first => sinkSetPolicy env fuel first s
  | .setAutoTrim enable => sinkSetAutoTrim env fuel enable s
  | .addFilter => some (sinkAddFilter s)
  | .op op => perform env fuel op s

/-- The calls of a program, one after the other. -/
def sinkCalls (fuel : ℕ) : Machine SpicySink Call where
  start := sinkNew 0 []
  next s c := call env fuel c s

/-- What a program and the parsers get to see of a sink, of which they have seen `seen`
reports before. -/
def observed (seen : ℕ) (s : SpicySink) : List Event × ℕ × ℕ :=
  (s.log.drop seen, sinkSize s, sinkSequence s)

end

/-! ## A sink at another place -/

def SpicySink.moved (g : ℕ → Option (Cell Block)) (k : ℕ) (pre : List Event) (s : SpicySink) :
    SpicySink :=
  { s with chunks := s.chunks.relocate g k, log := pre ++ s.log }

section

variable {env : Env} {g : ℕ → Option (Cell Block)} {k : ℕ} {pre : List Event}

theorem report_moved (e : Event) (s : SpicySink) :
    report env e (s.moved g k pre) = (report env e s).moved g k pre := by
  simp [report, SpicySink.moved]

theorem reportUndeliveredUpTo_moved (r fuel : ℕ) :
    ∀ (c : Option ℕ) (s : SpicySink),
      reportUndeliveredUpTo env r fuel (c.map (· + k)) (s.moved g k pre) =
        (reportUndeliveredUpTo env r fuel c s).map (SpicySink.moved g k pre) := by
  induction fuel with
  | zero => exact fun _ _ => rfl
  | succ fuel ih =>
    intro c s
    cases c with
    | none => rfl
    | some c =>
      have hheap : (s.moved g k pre).chunks.heap (c + k) = (s.chunks.heap c).map (Cell.relocate k) :=
        LinkedList.relocate_heap g k s.chunks c
      simp only [Option.map_some, reportUndeliveredUpTo, hheap]
      cases hc : s.chunks.heap c with
      | none => rfl
      | some cell =>
        simp only [Option.map_some, Option.bind_eq_bind, Option.bind_some, Cell.relocate]
        split
        · cases cell.val.data with
          | none => exact ih _ _
          | some d =>
            simp only [reportUndelivered]
            rw [← ih, ← report_moved]
            rfl
        · rfl

theorem trimLoop_moved (r fuel : ℕ) :
    ∀ (c : Option ℕ) (s : SpicySink),
      trimLoop env r fuel (c.map (· + k)) (s.moved g k pre) =
        (trimLoop env r fuel c s).map (SpicySink.moved g k pre) := by
  induction fuel with
  | zero => exact fun _ _ => rfl
  | succ fuel ih =>
    intro c s
    cases c with
    | none => rfl
    | some c =>
      have hheap : (s.moved g k pre).chunks.heap (c + k) = (s.chunks.heap c).map (Cell.relocate k) :=
        LinkedList.relocate_heap g k s.chunks c
      -- what happens to a chunk does not depend on the reports before it
      have hremove : ∀ (next : Option ℕ) (t : SpicySink),
          (((t.moved g k pre).chunks.remove (c + k)).bind fun chunks =>
            trimLoop env r fuel (next.map (· + k))
              { t.moved g k pre with chunks := chunks.free (c + k) }) =
          ((t.chunks.remove c).bind fun chunks =>
            trimLoop env r fuel next { t with chunks := chunks.free c }).map
              (SpicySink.moved g k pre) := by
        intro next t
        have hrel : (t.moved g k pre).chunks.remove (c + k) =
            (t.chunks.remove c).map (LinkedList.relocate g k) :=
          LinkedList.relocate_remove g k t.chunks c
        rw [hrel]
        cases t.chunks.remove c with
        | none => rfl
        | some chunks =>
          simp only [Option.map_some, Option.bind_some]
          rw [← ih, LinkedList.relocate_free]
          rfl
      simp only [Option.map_some, trimLoop, hheap]
      cases hc : s.chunks.heap c with
      | none => rfl
      | some cell =>
        simp only [Option.map_some, Option.bind_eq_bind, Option.bind_some, Cell.relocate]
        split
        · rfl
        · cases cell.val.data with
          | none => exact hremove _ _
          | some d =>
            simp only
            have hcur : (s.moved g k pre).curRseq = s.curRseq := rfl
            rw [hcur]
            split
            · simp only [reportUndelivered, ← hremove, ← report_moved]
              rfl
            · exact hremove _ _

theorem trim_moved (fuel r : ℕ) (s : SpicySink) :
    trim env fuel r (s.moved g k pre) = (trim env fuel r s).map (SpicySink.moved g k pre) := by
  have hloop : trimLoop env r fuel (s.moved g k pre).chunks.first (s.moved g k pre) =
      (trimLoop env r fuel s.chunks.first s).map (SpicySink.moved g k pre) :=
    trimLoop_moved r fuel s.chunks.first s
  rw [trim, hloop, trim]
  cases trimLoop env r fuel s.chunks.first s <;> rfl

theorem finishParser_moved (i : ℕ) (s : SpicySink) :
    finishParser env i (s.moved g k pre) =
      (finishParser env i s).map (SpicySink.moved g k pre) := by
  have hhead : (s.moved g k pre).head = s.head := rfl
  rw [finishParser, finishParser, hhead]
  cases s.head[i]? with
  | none => rfl
  | some p =>
    simp only [Option.bind_eq_bind, Option.bind_some]
    split
    · split <;> rfl
    · rfl

theorem deliverLoop_moved (data : List UInt8) (fuel : ℕ) :
    ∀ (i : ℕ) (s : SpicySink), deliverLoop env data fuel i (s.moved g k pre) =
      (deliverLoop env data fuel i s).map fun r => (r.1.moved g k pre, r.2) := by
  induction fuel with
  | zero => exact fun _ _ => rfl
  | succ fuel ih =>
    intro i s
    have hhead : (s.moved g k pre).head = s.head := rfl
    have hlog : ∀ e, (s.moved g k pre).log ++ [e] = pre ++ (s.log ++ [e]) :=
      fun e => List.append_assoc pre s.log [e]
    rw [deliverLoop, deliverLoop, hhead]
    cases s.head[i]? with
    | none => rfl
    | some p =>
      simp only [hlog]
      split
      · exact ih i s
      · split
        · exact ih (i + 1) s
        · split
          · rw [← ih]
            rfl
          · rw [← ih]
            rfl
          · rw [← ih]
            rfl
          · rfl

theorem finishDisconnected_moved (fuel : ℕ) :
    ∀ s : SpicySink, finishDisconnected env fuel (s.moved g k pre) =
      (finishDisconnected env fuel s).map (SpicySink.moved g k pre) := by
  induction fuel with
  | zero => exact fun _ => rfl
  | succ fuel ih =>
    intro s
    have hhead : (s.moved g k pre).head = s.head := rfl
    rw [finishDisconnected, finishDisconnected, hhead]
    cases s.head.findIdx? fun p => p.disconnected with
    | none => rfl
    | some i =>
      simp only [Option.bind_eq_bind, finishParser_moved]
      cases finishParser env i s with
      | none => rfl
      | some s' => exact ih { s' with excpt := s.excpt }

/-- The part of `__deliver_chunk` behind the filter. -/
def feed (env : Env) (fuel : ℕ) (data : List UInt8) (s : SpicySink) : Option SpicySink :=
  let s := { s with size := uint64 (s.size + data.length) }
  if s.excpt then some s
  else if s.head = [] then some s
  else do
    let (s, aborted) ← deliverLoop env data fuel 0 s
    if aborted then some s else finishDisconnected env fuel s

theorem deliverData_eq (fuel : ℕ) (data : List UInt8) (s : SpicySink) :
    deliverData env fuel data s =
      match s.filter with
      | none => feed env fuel data s
      | some given =>
        match env.decode (given ++ [data]) with
        | none => some { s with filter := some (given ++ [data]) }
        | some data' => feed env fuel data' { s with filter := some (given ++ [data]) } := by
  unfold deliverData
  cases s.filter with
  | none => rfl
  | some given =>
    simp only
    cases env.decode (given ++ [data]) <;> rfl

theorem feed_moved (fuel : ℕ) (data : List UInt8) (s : SpicySink) :
    feed env fuel data (s.moved g k pre) = (feed env fuel data s).map (SpicySink.moved g k pre) := by
  set t : SpicySink := { s with size := uint64 (s.size + data.length) } with ht
  have hfeed : feed env fuel data (s.moved g k pre) =
      if t.excpt then some (t.moved g k pre)
      else if t.head = [] then some (t.moved g k pre)
      else (deliverLoop env data fuel 0 (t.moved g k pre)).bind fun (s, aborted) =>
        if aborted then some s else finishDisconnected env fuel s := rfl
  rw [hfeed, deliverLoop_moved]
  simp only [feed, ← ht]
  split
  · rfl
  split
  · rfl
  cases deliverLoop env data fuel 0 t with
  | none => rfl
  | some r =>
    obtain ⟨s', aborted⟩ := r
    simp only [Option.map_some, Option.bind_eq_bind, Option.bind_some]
    split
    · rfl
    · exact finishDisconnected_moved fuel s'

theorem deliverData_moved (fuel : ℕ) (data : List UInt8) (s : SpicySink) :
    deliverData env fuel data (s.moved g k pre) =
      (deliverData env fuel data s).map (SpicySink.moved g k pre) := by
  have hfilter : (s.moved g k pre).filter = s.filter := rfl
  rw [deliverData_eq, deliverData_eq, hfilter]
  cases s.filter with
  | none => exact feed_moved fuel data s
  | some given =>
    simp only
    cases env.decode (given ++ [data]) with
    | none => rfl
    | some data' => exact feed_moved fuel data' { s with filter := some (given ++ [data]) }

/-! ## Chunks -/

theorem deliverChunk_moved (fuel : ℕ) (b : Block) (s : SpicySink) :
    deliverChunk env fuel b (s.moved g k pre) =
      (deliverChunk env fuel b s).map fun r => (r.1.moved g k pre, r.2) := by
  have htrim : ∀ (r : ℕ) (t : SpicySink) (delivered : Bool),
      (if (t.moved g k pre).autoTrim then
        (trim env fuel r (t.moved g k pre)).bind fun s => some (s, delivered)
      else some (t.moved g k pre, delivered)) =
      (if t.autoTrim then (trim env fuel r t).bind fun s => some (s, delivered)
      else some (t, delivered)).map fun r => (r.1.moved g k pre, r.2) := by
    intro r t delivered
    have hauto : (t.moved g k pre).autoTrim = t.autoTrim := rfl
    rw [hauto, trim_moved]
    split
    · cases trim env fuel r t <;> rfl
    · rfl
  unfold deliverChunk
  cases b.data with
  | none =>
    have hcur : (s.moved g k pre).curRseq = s.curRseq := rfl
    have hgap : reportGap env b.rseq (sub64 b.rupper b.rseq) (s.moved g k pre) =
        (reportGap env b.rseq (sub64 b.rupper b.rseq) s).moved g k pre := report_moved _ s
    simp only [hcur, hgap, Option.bind_eq_bind]
    split
    · exact htrim b.rseq { reportGap env b.rseq (sub64 b.rupper b.rseq) s with
        curRseq := b.rupper } false
    · rfl
  | some data =>
    simp only [Option.bind_eq_bind, deliverData_moved]
    cases deliverData env fuel data s with
    | none => rfl
    | some s₁ =>
      exact htrim b.rupper { s₁ with curRseq := b.rupper, lastReassemRseq := b.rupper } true

theorem tryDeliver_moved (fuel : ℕ) :
    ∀ (c : Option ℕ) (s : SpicySink),
      tryDeliver env fuel (c.map (· + k)) (s.moved g k pre) =
        (tryDeliver env fuel c s).map (SpicySink.moved g k pre) := by
  induction fuel with
  | zero => exact fun _ _ => rfl
  | succ fuel ih =>
    intro c s
    cases c with
    | none => rfl
    | some c =>
      have hheap : (s.moved g k pre).chunks.heap (c + k) = (s.chunks.heap c).map (Cell.relocate k) :=
        LinkedList.relocate_heap g k s.chunks c
      have hlast : (s.moved g k pre).lastReassemRseq = s.lastReassemRseq := rfl
      simp only [Option.map_some, tryDeliver, hheap, hlast]
      cases hc : s.chunks.heap c with
      | none => rfl
      | some cell =>
        simp only [Option.map_some, Option.bind_eq_bind, Option.bind_some, Cell.relocate]
        split
        · split
          · have hdeliver : deliverChunk env fuel cell.val { s.moved g k pre with
                lastReassemRseq :=
                  uint64 (s.lastReassemRseq + sub64 cell.val.rupper cell.val.rseq) } =
                (deliverChunk env fuel cell.val { s with
                  lastReassemRseq :=
                    uint64 (s.lastReassemRseq + sub64 cell.val.rupper cell.val.rseq) }).map
                  fun r => (r.1.moved g k pre, r.2) :=
              deliverChunk_moved fuel cell.val { s with
                lastReassemRseq :=
                  uint64 (s.lastReassemRseq + sub64 cell.val.rupper cell.val.rseq) }
            rw [hdeliver]
            cases deliverChunk env fuel cell.val { s with
              lastReassemRseq :=
                uint64 (s.lastReassemRseq + sub64 cell.val.rupper cell.val.rseq) } with
            | none => rfl
            | some r =>
              obtain ⟨s', delivered⟩ := r
              simp only [Option.map_some, Option.bind_some]
              split
              · exact ih _ s'
              · rfl
          · exact ih _ s
        · rfl

theorem findChunk_moved (s : SpicySink) (r fuel : ℕ) :
    ∀ b : ℕ, findChunk (s.moved g k pre) r fuel (b + k) = (findChunk s r fuel b).map (· + k) := by
  induction fuel with
  | zero => exact fun _ => rfl
  | succ fuel ih =>
    intro b
    have hheap : (s.moved g k pre).chunks.heap (b + k) = (s.chunks.heap b).map (Cell.relocate k) :=
      LinkedList.relocate_heap g k s.chunks b
    simp only [findChunk, hheap]
    cases hc : s.chunks.heap b with
    | none => rfl
    | some cell =>
      simp only [Option.map_some, Option.bind_eq_bind, Option.bind_some, Cell.relocate]
      cases cell.next with
      | none => rfl
      | some n =>
        simp only [Option.map_some]
        split
        · exact ih n
        · rfl

theorem newChunk_moved (prev : Option ℕ) (b : Block) (s : SpicySink) :
    newChunk (prev.map (· + k)) b (s.moved g k pre) =
      (newChunk prev b s).map fun r => (r.1.moved g k pre, r.2 + k) := by
  have halloc : (s.moved g k pre).chunks.alloc b = (s.chunks.alloc b).relocate g k :=
    LinkedList.relocate_alloc g k s.chunks b
  have hfresh : (s.moved g k pre).chunks.fresh = s.chunks.fresh + k := rfl
  simp only [newChunk, halloc, hfresh, LinkedList.relocate_insertAfter]
  cases (s.chunks.alloc b).insertAfter prev s.chunks.fresh <;> rfl

theorem splitPrefix_moved (b : ℕ) (cell : Cell Block) (r : ℕ) (data : Option (List UInt8))
    (s : SpicySink) :
    splitPrefix (b + k) (cell.relocate k) r data (s.moved g k pre) =
      (splitPrefix b cell r data s).map
        fun t => (t.1.moved g k pre, t.2.1.map (· + k), t.2.2) := by
  unfold splitPrefix
  rw [Cell.relocate_val, Cell.relocate_prev]
  split
  · cases data with
    | none => rfl
    | some d =>
      simp only [newChunk_moved, Option.bind_eq_bind]
      cases newChunk cell.prev ⟨r, addInt64 r (int64 (sub64 cell.val.rseq r)),
          some (bytesTake (int64 (sub64 cell.val.rseq r)) d)⟩ s with
      | none => rfl
      | some t =>
        simp only [Option.map_some, Option.bind_some]
        cases bytesDrop (int64 (sub64 cell.val.rseq r)) d <;> rfl
  · rfl

theorem remainder_moved (n : ℤ) (data : Option (List UInt8)) (s : SpicySink) :
    remainder n data (s.moved g k pre) =
      (remainder n data s).map fun r => (r.1.moved g k pre, r.2) := by
  cases data with
  | none => rfl
  | some d =>
    simp only [remainder]
    cases bytesDrop n d <;> rfl

/-- The part of `__add_and_check` behind an overlap of `len` bytes with the chunk `b`. -/
def goOn (env : Env) (fuel b : ℕ) (v : Block) (u : ℕ) (len : ℤ) (newB : Option ℕ) (r : ℕ)
    (data : Option (List UInt8)) (s : SpicySink) : Option (SpicySink × Option ℕ) :=
  let s := reportOverlap env (v.data.map fun d => bytesTake len (d.drop (r - v.rseq)))
    (data.map (bytesTake len)) r s
  if len < int64 (sub64 u r) then
    (remainder len data s).bind fun (s, rest) =>
      (addAndCheck env fuel b (addInt64 r len) u (some rest) s).bind fun (s, c) =>
        some (s, if newB = some b then c else newB)
  else some (s, newB)

/-- The part of `__add_and_check` for a chunk `b` that the new block overlaps. -/
def resolveOverlap (env : Env) (fuel : ℕ) (b : ℕ) (cell : Cell Block) (r u : ℕ)
    (data : Option (List UInt8)) (s : SpicySink) : Option (SpicySink × Option ℕ) :=
  (splitPrefix b cell r data s).bind fun (s, newB, r, data) =>
    goOn env fuel b cell.val u (if int64 (sub64 u r) < int64 (sub64 cell.val.rupper r) then
      int64 (sub64 u r) else int64 (sub64 cell.val.rupper r)) newB r data s

theorem addAndCheck_succ (fuel b r u : ℕ) (data : Option (List UInt8)) (s : SpicySink) :
    addAndCheck env (fuel + 1) b r u data s =
      s.chunks.first.bind fun _ => s.chunks.last.bind fun last =>
        (s.chunks.heap last).bind fun lastCell =>
          if r = lastCell.val.rupper then
            (newChunk (some last) ⟨r, u, data⟩ s).bind fun (s, c) => some (s, some c)
          else (findChunk s r fuel b).bind fun b => (s.chunks.heap b).bind fun cell =>
            if cell.val.rupper ≤ r then
              (newChunk (some b) ⟨r, u, data⟩ s).bind fun (s, c) => some (s, some c)
            else if u ≤ cell.val.rseq then
              (newChunk cell.prev ⟨r, u, data⟩ s).bind fun (s, c) => some (s, some c)
            else resolveOverlap env fuel b cell r u data s := rfl

theorem addAndCheck_moved (fuel : ℕ) :
    ∀ (b r u : ℕ) (data : Option (List UInt8)) (s : SpicySink),
      addAndCheck env fuel (b + k) r u data (s.moved g k pre) =
        (addAndCheck env fuel b r u data s).map
          fun t => (t.1.moved g k pre, t.2.map (· + k)) := by
  induction fuel with
  | zero => exact fun _ _ _ _ _ => rfl
  | succ fuel ih =>
    intro b r u data s
    have hnew : ∀ (prev : Option ℕ) (v : Block),
        ((newChunk (prev.map (· + k)) v (s.moved g k pre)).bind fun (s, c) => some (s, some c)) =
          ((newChunk prev v s).bind fun (s, c) => some (s, some c)).map
            fun t => (t.1.moved g k pre, t.2.map (· + k)) := by
      intro prev v
      rw [newChunk_moved]
      cases newChunk prev v s <;> rfl
    have hgo : ∀ (b : ℕ) (v : Block) (len : ℤ) (newB : Option ℕ) (r : ℕ)
        (data : Option (List UInt8)) (s : SpicySink),
        goOn env fuel (b + k) v u len (newB.map (· + k)) r data (s.moved g k pre) =
          (goOn env fuel b v u len newB r data s).map
            fun t => (t.1.moved g k pre, t.2.map (· + k)) := by
      intro b v len newB r data s
      have hreport : ∀ old new, reportOverlap env old new r (s.moved g k pre) =
          (reportOverlap env old new r s).moved g k pre := fun _ _ => report_moved _ _
      have hnewB : newB.map (· + k) = some (b + k) ↔ newB = some b := by
        cases newB <;> simp
      simp only [goOn, hreport, remainder_moved, hnewB]
      split
      · cases remainder len data (reportOverlap env _ _ r s) with
        | none => rfl
        | some t =>
          rw [Option.map_some, Option.bind_some, Option.bind_some, ih]
          cases addAndCheck env fuel b _ u (some t.2) t.1 with
          | none => rfl
          | some t' =>
            simp only [Option.map_some, Option.bind_some]
            split <;> rfl
      · rfl
    have hoverlap : ∀ (b : ℕ) (cell : Cell Block),
        resolveOverlap env fuel (b + k) (cell.relocate k) r u data (s.moved g k pre) =
          (resolveOverlap env fuel b cell r u data s).map
            fun t => (t.1.moved g k pre, t.2.map (· + k)) := by
      intro b cell
      unfold resolveOverlap
      rw [splitPrefix_moved]
      cases splitPrefix b cell r data s with
      | none => rfl
      | some t =>
        obtain ⟨s₁, newB, r', data'⟩ := t
        rw [Option.map_some, Option.bind_some, Option.bind_some, Cell.relocate_val]
        exact hgo b cell.val _ newB r' data' s₁
    have hheap : ∀ a, (s.moved g k pre).chunks.heap (a + k) =
        (s.chunks.heap a).map (Cell.relocate k) := LinkedList.relocate_heap g k s.chunks
    have hfirst : (s.moved g k pre).chunks.first = s.chunks.first.map (· + k) := rfl
    have hlast : (s.moved g k pre).chunks.last = s.chunks.last.map (· + k) := rfl
    rw [addAndCheck_succ, addAndCheck_succ, hfirst, hlast]
    cases s.chunks.first with
    | none => rfl
    | some first =>
    cases s.chunks.last with
    | none => rfl
    | some last =>
    rw [Option.map_some, Option.map_some, Option.bind_some, Option.bind_some, Option.bind_some,
      Option.bind_some, hheap]
    cases s.chunks.heap last with
    | none => rfl
    | some lastCell =>
    rw [Option.map_some, Option.bind_some, Option.bind_some, Cell.relocate_val]
    split
    · exact hnew (some last) _
    rw [findChunk_moved]
    cases findChunk s r fuel b with
    | none => rfl
    | some b' =>
    rw [Option.map_some, Option.bind_some, Option.bind_some, hheap]
    cases s.chunks.heap b' with
    | none => rfl
    | some cell =>
    rw [Option.map_some, Option.bind_some, Option.bind_some, Cell.relocate_val, Cell.relocate_prev]
    split
    · exact hnew (some b') _
    split
    · exact hnew cell.prev _
    · exact hoverlap b' cell

/-! ## Operations -/

/-- The part of `__new_block` that cuts off what comes before `trim_rseq`. -/
def cutOff (s : SpicySink) (data : Option (List UInt8)) (r : ℕ) :
    Option (ℕ × Option (List UInt8)) :=
  if r < s.trimRseq then
    match data with
    | some d => (bytesDrop (int64 (sub64 s.trimRseq r)) d).bind fun d =>
        some (addInt64 r (int64 (sub64 s.trimRseq r)), some d)
    | none => some (addInt64 r (int64 (sub64 s.trimRseq r)), none)
  else some (r, data)

/-- The part of `__new_block` that puts the block into the list. -/
def enqueue (env : Env) (fuel r len u : ℕ) (data : Option (List UInt8)) (s : SpicySink) :
    Option (SpicySink × Option ℕ) :=
  match s.chunks.first with
  | none => some ({ s with chunks := { s.chunks.alloc ⟨r, uint64 (r + len), data⟩ with
      first := some s.chunks.fresh, last := some s.chunks.fresh } }, some s.chunks.fresh)
  | some first => addAndCheck env fuel first r u data s

theorem newBlock_eq (fuel : ℕ) (data : Option (List UInt8)) (r len : ℕ) (s : SpicySink) :
    newBlock env fuel data r len s =
      if len = 0 then some s
      else if r = s.curRseq ∧ s.chunks.first = none then
        (deliverChunk env fuel ⟨r, uint64 (r + len), data⟩ s).bind fun (s, _) => some s
      else if uint64 (r + len) ≤ s.trimRseq then some s
      else (cutOff s data r).bind fun (r', data) =>
        (enqueue env fuel r' len (uint64 (r + len)) data s).bind fun (s, c) =>
          c.bind fun c => deliverFrom env fuel c s := by
  unfold newBlock cutOff enqueue
  split
  · rfl
  split
  · rfl
  simp only
  split
  · rfl
  split
  · cases data with
    | none => cases s.chunks.first <;> rfl
    | some d =>
      simp only
      cases bytesDrop (int64 (sub64 s.trimRseq r)) d with
      | none => rfl
      | some d' => cases s.chunks.first <;> rfl
  · cases s.chunks.first <;> rfl

theorem enqueue_moved (fuel r len u : ℕ) (data : Option (List UInt8)) (s : SpicySink) :
    enqueue env fuel r len u data (s.moved g k pre) =
      (enqueue env fuel r len u data s).map fun t => (t.1.moved g k pre, t.2.map (· + k)) := by
  have hfirst : (s.moved g k pre).chunks.first = s.chunks.first.map (· + k) := rfl
  have halloc : ∀ b, (s.moved g k pre).chunks.alloc b = (s.chunks.alloc b).relocate g k :=
    LinkedList.relocate_alloc g k s.chunks
  unfold enqueue
  rw [hfirst]
  cases s.chunks.first with
  | none =>
    simp only [Option.map_none, halloc]
    rfl
  | some first => exact addAndCheck_moved fuel first r u data s

theorem deliverFrom_moved (fuel c : ℕ) (s : SpicySink) :
    deliverFrom env fuel (c + k) (s.moved g k pre) =
      (deliverFrom env fuel c s).map (SpicySink.moved g k pre) := by
  have hheap : (s.moved g k pre).chunks.heap (c + k) = (s.chunks.heap c).map (Cell.relocate k) :=
    LinkedList.relocate_heap g k s.chunks c
  have hlast : (s.moved g k pre).lastReassemRseq = s.lastReassemRseq := rfl
  unfold deliverFrom
  rw [hheap, hlast]
  cases s.chunks.heap c with
  | none => rfl
  | some cell =>
    simp only [Option.map_some, Option.bind_eq_bind, Option.bind_some, Cell.relocate]
    split
    · rfl
    · exact tryDeliver_moved fuel (some c) s

theorem newBlock_moved (fuel : ℕ) (data : Option (List UInt8)) (r len : ℕ) (s : SpicySink) :
    newBlock env fuel data r len (s.moved g k pre) =
      (newBlock env fuel data r len s).map (SpicySink.moved g k pre) := by
  have hfast : (r = (s.moved g k pre).curRseq ∧ (s.moved g k pre).chunks.first = none) ↔
      r = s.curRseq ∧ s.chunks.first = none := by
    have hfirst : (s.moved g k pre).chunks.first = s.chunks.first.map (· + k) := rfl
    rw [hfirst, Option.map_eq_none_iff]
    rfl
  have hcut : cutOff (s.moved g k pre) data r = cutOff s data r := rfl
  have htrim : (s.moved g k pre).trimRseq = s.trimRseq := rfl
  rw [newBlock_eq, newBlock_eq, deliverChunk_moved, hcut, htrim]
  simp only [hfast]
  split
  · rfl
  split
  · cases deliverChunk env fuel ⟨r, uint64 (r + len), data⟩ s <;> rfl
  split
  · rfl
  cases cutOff s data r with
  | none => rfl
  | some t =>
    simp only [Option.bind_some, enqueue_moved]
    cases enqueue env fuel t.1 len (uint64 (r + len)) t.2 s with
    | none => rfl
    | some t' =>
      obtain ⟨s', c⟩ := t'
      cases c with
      | none => rfl
      | some c => exact deliverFrom_moved fuel c s'

theorem finishAll_moved (fuel : ℕ) :
    ∀ s : SpicySink, finishAll env fuel (s.moved g k pre) =
      (finishAll env fuel s).map (SpicySink.moved g k pre) := by
  induction fuel with
  | zero => exact fun _ => rfl
  | succ fuel ih =>
    intro s
    have hhead : (s.moved g k pre).head = s.head := rfl
    rw [finishAll, finishAll, hhead]
    cases s.head with
    | nil => rfl
    | cons p ps =>
      simp only [Option.bind_eq_bind, finishParser_moved]
      cases finishParser env 0 s with
      | none => rfl
      | some s' => exact ih s'

theorem sinkClose_moved (fuel : ℕ) (s : SpicySink) :
    sinkClose env fuel (s.moved g k pre) =
      (sinkClose env fuel s).map (SpicySink.moved g k pre) := by
  have hfinish : finishAll env fuel { s.moved g k pre with filter := none } =
      (finishAll env fuel { s with filter := none }).map (SpicySink.moved g k pre) :=
    finishAll_moved fuel { s with filter := none }
  rw [sinkClose, sinkClose, hfinish]
  cases finishAll env fuel { s with filter := none } with
  | none => rfl
  | some s₁ =>
    simp only [Option.map_some, Option.bind_eq_bind, Option.bind_some, trim_moved]
    cases trim env fuel (2 ^ 64 - 1) s₁ with
    | none => rfl
    | some s₂ =>
      have hiff : ((s₂.moved g k pre).chunks.first = none ∧ (s₂.moved g k pre).chunks.last = none) ↔
          s₂.chunks.first = none ∧ s₂.chunks.last = none := by
        have hfirst : (s₂.moved g k pre).chunks.first = s₂.chunks.first.map (· + k) := rfl
        have hlast : (s₂.moved g k pre).chunks.last = s₂.chunks.last.map (· + k) := rfl
        rw [hfirst, hlast, Option.map_eq_none_iff, Option.map_eq_none_iff]
      simp only [Option.map_some, Option.bind_some, hiff]
      split <;> rfl

theorem checkSeq_moved (fuel seq : ℕ) {f : SpicySink → Option SpicySink} (s : SpicySink)
    (hf : f (s.moved g k pre) = (f s).map (SpicySink.moved g k pre)) :
    checkSeq env fuel seq f (s.moved g k pre) =
      (checkSeq env fuel seq f s).map (SpicySink.moved g k pre) := by
  have hinitial : (s.moved g k pre).initialSeq = s.initialSeq := rfl
  unfold checkSeq
  rw [hinitial, sinkClose_moved, hf]
  split
  · rfl
  · cases sinkClose env fuel s <;> rfl

theorem skip_moved (fuel r : ℕ) (s : SpicySink) :
    skip env fuel r (s.moved g k pre) = (skip env fuel r s).map (SpicySink.moved g k pre) := by
  have hgo : ∀ t : SpicySink,
      (tryDeliver env fuel (reportSkip env r { t.moved g k pre with
          curRseq := r, lastReassemRseq := r }).chunks.first
        (reportSkip env r { t.moved g k pre with curRseq := r, lastReassemRseq := r })) =
      (tryDeliver env fuel (reportSkip env r { t with
          curRseq := r, lastReassemRseq := r }).chunks.first
        (reportSkip env r { t with curRseq := r, lastReassemRseq := r })).map
          (SpicySink.moved g k pre) := by
    intro t
    have hreport : reportSkip env r { t.moved g k pre with curRseq := r, lastReassemRseq := r } =
        (reportSkip env r { t with curRseq := r, lastReassemRseq := r }).moved g k pre :=
      report_moved _ { t with curRseq := r, lastReassemRseq := r }
    rw [hreport]
    exact tryDeliver_moved fuel _ _
  have hundelivered : reportUndeliveredUpTo env r fuel (s.moved g k pre).chunks.first
      (s.moved g k pre) = (reportUndeliveredUpTo env r fuel s.chunks.first s).map
        (SpicySink.moved g k pre) := reportUndeliveredUpTo_moved r fuel s.chunks.first s
  rw [skip, skip, hundelivered]
  cases reportUndeliveredUpTo env r fuel s.chunks.first s with
  | none => rfl
  | some s₁ =>
    have hauto : (s₁.moved g k pre).autoTrim = s₁.autoTrim := rfl
    simp only [Option.map_some, Option.bind_eq_bind, Option.bind_some, hauto, trim_moved]
    split
    · cases trim env fuel r s₁ with
      | none => rfl
      | some s₂ => exact hgo s₂
    · exact hgo s₁

theorem perform_moved (fuel : ℕ) (op : Op) (s : SpicySink) :
    perform env fuel op (s.moved g k pre) =
      (perform env fuel op s).map (SpicySink.moved g k pre) := by
  set t : SpicySink := { s with excpt := false } with ht
  cases op with
  | write data seq => exact checkSeq_moved fuel seq t (newBlock_moved fuel (some data) _ _ t)
  | append data => exact newBlock_moved fuel (some data) _ _ t
  | gap seq len => exact checkSeq_moved fuel seq t (newBlock_moved fuel none _ len t)
  | skip seq => exact checkSeq_moved fuel seq t (skip_moved fuel _ t)
  | trim seq => exact checkSeq_moved fuel seq t (trim_moved fuel _ t)
  | close => exact sinkClose_moved fuel t

theorem closeWithError_moved (fuel : ℕ) (s : SpicySink) :
    closeWithError env fuel (s.moved g k pre) =
      (closeWithError env fuel s).map (SpicySink.moved g k pre) := by
  rw [closeWithError, closeWithError, sinkClose_moved]
  cases sinkClose env fuel s <;> rfl

theorem call_moved (fuel : ℕ) (c : Call) (s : SpicySink) :
    call env fuel c (s.moved g k pre) = (call env fuel c s).map (SpicySink.moved g k pre) := by
  set t : SpicySink := { s with excpt := false } with ht
  have hclose : closeWithError env fuel (t.moved g k pre) =
      (closeWithError env fuel t).map (SpicySink.moved g k pre) := closeWithError_moved fuel t
  cases c with
  | connect id => rfl
  | disconnect id => rfl
  | addFilter => rfl
  | op op => exact perform_moved fuel op s
  | setPolicy first =>
    cases first
    · exact hclose
    · rfl
  | setAutoTrim enable =>
    cases enable
    · exact hclose
    · rfl
  | setInitialSequenceNumber seq =>
    have hiff : ((t.moved g k pre).curRseq ≠ 0 ∨ (t.moved g k pre).chunks.first ≠ none) ↔
        t.curRseq ≠ 0 ∨ t.chunks.first ≠ none := by
      have hfirst : (t.moved g k pre).chunks.first = t.chunks.first.map (· + k) := rfl
      rw [hfirst, ne_eq, ne_eq, ne_eq, ne_eq, Option.map_eq_none_iff]
      rfl
    change sinkSetInitialSequenceNumber env fuel seq (t.moved g k pre) =
      (sinkSetInitialSequenceNumber env fuel seq t).map (SpicySink.moved g k pre)
    simp only [sinkSetInitialSequenceNumber, hiff, hclose, Option.bind_eq_bind]
    split
    · cases closeWithError env fuel t <;> rfl
    · rfl

theorem run_moved (fuel : ℕ) (calls : List Call) :
    ∀ s : SpicySink, (sinkCalls env fuel).run (s.moved g k pre) calls =
      ((sinkCalls env fuel).run s calls).map (SpicySink.moved g k pre) := by
  induction calls with
  | nil => exact fun _ => rfl
  | cons c calls ih =>
    intro s
    have hcall : (sinkCalls env fuel).next (s.moved g k pre) c =
        ((sinkCalls env fuel).next s c).map (SpicySink.moved g k pre) := call_moved fuel c s
    rw [Machine.run_cons, Machine.run_cons, hcall]
    cases (sinkCalls env fuel).next s c with
    | none => rfl
    | some s' => exact ih s'

end

end Hilti.Sink
