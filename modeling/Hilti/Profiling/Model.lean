import Mathlib.Logic.Function.Basic
import Hilti.Strings.Model

/-!
# Profilers (`libhilti/profiler.c`)

The model of the profilers of an execution context.  Tags are strings, so that the empty one can be
a null pointer, and the table of profilers compares them by content.  Timer managers are
identifiers; their clocks, the wall clock and the memory in use are read from an environment, which
may differ from call to call, as may the answer of `open`.  A function without a result is one that
dereferences a null pointer, divides by zero, fails an assertion or does not end.

Left out are the counters of PAPI, which is not compiled in, reference counts, and failing writes.
-/

namespace Hilti.Profiling

open Hilti.Strings (HltString)

set_option autoImplicit false

inductive Excpt where
  | valueError
  | profilerUnknown
  | profilerMismatch
  | notImplemented
  | ioError
  deriving DecidableEq

/-- `Hilti::ProfileStyle`, with the values it does not know and the undefined one. -/
inductive Style where
  | standard
  | time
  | updates
  | wall
  | cycles
  | other (value : ℤ)
  | undef
  deriving DecidableEq

/-! ## Records -/

/-- `HLT_PROFILER_START` and its siblings. -/
def hltProfilerStart : UInt8 := 1
def hltProfilerUpdate : UInt8 := 2
def hltProfilerSnapshot : UInt8 := 3
def hltProfilerStop : UInt8 := 4

/-- `HLT_PROFILER_MAX_TAG_LENGTH`. -/
def maxTagLength : ℕ := 256

/-- `hlt_profiler_record`, in host order. -/
structure Record where
  ctime : UInt64
  cwall : UInt64
  time : UInt64
  wall : UInt64
  updates : UInt64
  cycles : UInt64
  misses : UInt64
  alloced : UInt64
  heap : UInt64
  user : UInt64
  type : UInt8
  deriving DecidableEq

/-- A record with the tag that is in front of it. -/
structure Entry where
  tag : List UInt8
  record : Record
  deriving DecidableEq

/-! ## State -/

variable {μ : Type}

/-- What the calls read from outside: the time of each timer manager, `hlt_time_wall`,
`hlt_util_memory_usage`, and if the output file can be opened. -/
structure Env (μ : Type) where
  current : μ → UInt64
  wall : UInt64
  memory : UInt64
  opens : Bool

/-- `__hlt_profiler`; `timer` tells if there is one. -/
structure Profiler (μ : Type) where
  tag : HltString
  tmgr : μ
  timer : Bool
  style : Style
  param : UInt64
  level : UInt64
  time : UInt64
  wall : UInt64
  updates : UInt64
  heap : UInt64
  user : UInt64

/-- `__hlt_profiler_state`.  An output file that has been opened has a header and these records. -/
structure State (μ : Type) where
  profilers : HltString → Option (Profiler μ)
  file : Option (List Entry)

/-- The parts of `hlt_execution_context`, and `profiling_enabled`. -/
structure Context (μ : Type) where
  enabled : Bool
  tmgr : μ
  pstate : Option (State μ)

def State.put (s : State μ) (tag : HltString) (p : Option (Profiler μ)) : State μ :=
  { s with profilers := Function.update s.profilers tag p }

/-- The context after a call, with the exception. -/
def Context.after (c : Context μ) (r : State μ × Option Excpt) : Context μ × Option Excpt :=
  ({ c with pstate := some r.1 }, r.2)

/-! ## Output -/

/-- The values that `write_record` stores. -/
def makeRecord (e : Env μ) (p : Profiler μ) (rtype : UInt8) : Record where
  ctime := e.current p.tmgr
  cwall := e.wall
  time := e.current p.tmgr - p.time
  wall := e.wall - p.wall
  updates := p.updates
  cycles := 0
  misses := 0
  alloced := e.memory - p.heap
  heap := e.memory
  user := p.user
  type := rtype

/-- `output_record`, with the exception that is set so far.  Once it has opened the file, it writes
the header and checks for an exception. -/
def outputRecord (e : Env μ) (p : Profiler μ) (rtype : UInt8) (excpt : Option Excpt)
    (s : State μ) : Option (State μ × Option Excpt) :=
  if s.file.isNone ∧ ! e.opens then some (s, some .ioError)
  else if s.file.isNone ∧ excpt.isSome then some ({ s with file := some [] }, excpt)
  else
    match p.tag with
    | none => none
    | some tag =>
      some ({ s with file := some (s.file.getD [] ++ [⟨tag, makeRecord e p rtype⟩]) }, excpt)

/-- `install_timer`.  A timer that is due is fired at once, and installed again at the same time,
without an end. -/
def installTimer (e : Env μ) (p : Profiler μ) : Option (Profiler μ) :=
  if p.timer then none
  else if p.param = 0 then none
  else
    let t := e.current p.tmgr / p.param * p.param + p.param
    if t ≤ e.current p.tmgr then none else some { p with timer := true }

/-- `hlt_profiler_timer_expire`. -/
def timerExpire (e : Env μ) (tag : HltString) (c : Context μ) :
    Option (Context μ × Option Excpt) := do
  let s ← c.pstate
  let p ← s.profilers tag
  let (s, excpt) ← outputRecord e p hltProfilerSnapshot none s
  let p ← installTimer e { p with timer := false }
  some (c.after (s.put tag (some p), excpt))

/-! ## The three calls -/

/-- The profiler that `hlt_profiler_start` makes. -/
def newProfiler (e : Env μ) (tag : HltString) (style : Style) (param : UInt64) (mgr : μ) :
    Profiler μ where
  tag := tag
  tmgr := mgr
  timer := false
  style := style
  param := param
  level := 1
  time := e.current mgr
  wall := e.wall
  updates := 0
  heap := e.memory
  user := 0

/-- The assertion of `hlt_profiler_start` on the timer manager, and the timer. -/
def startTimer (e : Env μ) (tmgr : Option μ) (p : Profiler μ) : Option (Profiler μ) :=
  if p.style = .time then
    if tmgr.isNone then none else installTimer e p
  else some p

/-- `hlt_profiler_start` for a tag without a profiler. -/
def startUnknown (e : Env μ) (tag : HltString) (style : Style) (param : UInt64) (tmgr : Option μ)
    (mgr : μ) (s : State μ) : Option (State μ × Option Excpt) :=
  match tag with
  | none => none
  | some bytes =>
    if bytes.length > maxTagLength - 1 then some (s, some .valueError)
    else do
      let p ← startTimer e tmgr (newProfiler e tag style param (tmgr.getD mgr))
      outputRecord e p hltProfilerStart none (s.put tag (some p))

variable [DecidableEq μ]

/-- The arguments of `hlt_profiler_start` that conflict with those of the profiler. -/
def Conflicts (style : Style) (param : UInt64) (tmgr : Option μ) (p : Profiler μ) : Prop :=
  style ≠ p.style ∨ param ≠ p.param ∨ tmgr.isSome ∧ tmgr ≠ some p.tmgr

instance (style : Style) (param : UInt64) (tmgr : Option μ) (p : Profiler μ) :
    Decidable (Conflicts style param tmgr p) :=
  inferInstanceAs (Decidable (_ ∨ _ ∨ _ ∧ _))

/-- `hlt_profiler_start` for a tag with a profiler. -/
def startKnown (tag : HltString) (style : Style) (param : UInt64) (tmgr : Option μ)
    (p : Profiler μ) (s : State μ) : State μ × Option Excpt :=
  if Conflicts style param tmgr p then (s, some .profilerMismatch)
  else (s.put tag (some { p with level := p.level + 1 }), none)

/-- The state before the first start, without profilers and without a file. -/
def State.empty : State μ :=
  ⟨fun _ => none, none⟩

/-- `hlt_profiler_start`. -/
def profilerStart (e : Env μ) (tag : HltString) (style : Style) (param : UInt64)
    (tmgr : Option μ) (c : Context μ) : Option (Context μ × Option Excpt) :=
  if ! c.enabled then some (c, none)
  else
    let s := c.pstate.getD .empty
    let result :=
      match s.profilers tag with
      | none => startUnknown e tag style param tmgr c.tmgr s
      | some p => some (startKnown tag style param tmgr p s)
    result.map c.after

omit [DecidableEq μ] in
/-- The records of `hlt_profiler_update`. -/
def updateRecord (e : Env μ) (p : Profiler μ) (s : State μ) : Option (State μ × Option Excpt) :=
  match p.style with
  | .standard | .time => outputRecord e p hltProfilerUpdate none s
  | .updates =>
    if p.param = 0 then none
    else if p.updates % p.param = 0 then outputRecord e p hltProfilerSnapshot none s
    else some (s, none)
  | _ => outputRecord e p hltProfilerUpdate (some .notImplemented) s

omit [DecidableEq μ] in
/-- `hlt_profiler_update`. -/
def profilerUpdate (e : Env μ) (tag : HltString) (userDelta : UInt64) (c : Context μ) :
    Option (Context μ × Option Excpt) :=
  if ! c.enabled then some (c, none)
  else
    match c.pstate with
    | none => none
    | some s =>
      match s.profilers tag with
      | none => some (c, some .profilerUnknown)
      | some p =>
        let p := { p with updates := p.updates + 1, user := p.user + userDelta }
        (updateRecord e p (s.put tag (some p))).map c.after

omit [DecidableEq μ] in
/-- `hlt_profiler_stop`. -/
def profilerStop (e : Env μ) (tag : HltString) (c : Context μ) :
    Option (Context μ × Option Excpt) :=
  if ! c.enabled then some (c, none)
  else
    match c.pstate with
    | none => none
    | some s =>
      match s.profilers tag with
      | none => some (c, some .profilerUnknown)
      | some p =>
        let p := { p with level := p.level - 1 }
        if p.level = 0 then
          (outputRecord e p hltProfilerStop none s).map fun r => c.after (r.1.put tag none, r.2)
        else some (c.after (s.put tag (some p), none))

end Hilti.Profiling
