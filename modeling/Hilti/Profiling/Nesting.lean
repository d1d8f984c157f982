import Mathlib.Data.List.Count
import Hilti.Profiling.Model

/-!
# Nesting of profilers

What each call of the profiler does to the levels of the tags and to the records, and runs of calls.
A call does not return if nothing has been started yet and a profiler is updated or stopped, if a
parameter is used as a divisor but zero, or if its timer would be due at once.
-/

namespace Hilti.Profiling

open Hilti.Strings (HltString)

set_option autoImplicit false

variable {μ : Type}

/-! ## Levels and records -/

/-- The state of a context, which starts without profilers and without a file. -/
def Context.state (c : Context μ) : State μ :=
  c.pstate.getD .empty

/-- The nesting level of a tag. -/
def State.level (s : State μ) (tag : HltString) : ℕ :=
  (s.profilers tag).elim 0 fun p => p.level.toNat

def State.records (s : State μ) : List Entry :=
  s.file.getD []

/-- How many records of a type there are for a tag. -/
def count (rtype : UInt8) (tag : HltString) (entries : List Entry) : ℕ :=
  entries.countP fun e => some e.tag = tag ∧ e.record.type = rtype

/-! ## Calls -/

/-- The calls of a program, and the timer manager's when a timer is due. -/
inductive Call (μ : Type) where
  | start (tag : HltString) (style : Style) (param : UInt64) (tmgr : Option μ)
  | update (tag : HltString) (userDelta : UInt64)
  | stop (tag : HltString)
  | expire (tag : HltString)

namespace Call

def tag : Call μ → HltString
  | start tag _ _ _ => tag
  | update tag _ => tag
  | stop tag => tag
  | expire tag => tag

/-- The calls for which a profiler has to be known. -/
def NeedsProfiler : Call μ → Prop
  | start _ _ _ _ => False
  | update _ _ => True
  | stop _ => True
  | expire _ => False

/-- What a call adds to the level of its tag. -/
def nesting : Call μ → ℤ
  | start _ _ _ _ => 1
  | update _ _ => 0
  | stop _ => -1
  | expire _ => 0

variable [DecidableEq μ]

/-- The arguments are those of a start that conflicts with the active profiler. -/
def ConflictsWith (s : State μ) : Call μ → Prop
  | start tag style param tmgr => ∃ p, s.profilers tag = some p ∧ Conflicts style param tmgr p
  | _ => False

def run (e : Env μ) : Call μ → Context μ → Option (Context μ × Option Excpt)
  | start tag style param tmgr => profilerStart e tag style param tmgr
  | update tag userDelta => profilerUpdate e tag userDelta
  | stop tag => profilerStop e tag
  | expire tag => timerExpire e tag

end Call

variable [DecidableEq μ]

/-- A call that has led from `s` to `s'` and has written `new`, with its exception. -/
structure Exact (call : Call μ) (s s' : State μ) (excpt : Option Excpt) (new : List Entry) :
    Prop where
  records : s'.records = s.records ++ new
  starts : ∀ tag, count hltProfilerStart tag new = if s.level tag = 0 ∧ 0 < s'.level tag then 1 else 0
  stops : ∀ tag, count hltProfilerStop tag new = if 0 < s.level tag ∧ s'.level tag = 0 then 1 else 0
  unknown : excpt = some .profilerUnknown ↔ call.NeedsProfiler ∧ s.level call.tag = 0
  mismatch : excpt = some .profilerMismatch ↔ call.ConflictsWith s
  others : ∀ tag, tag ≠ call.tag → s'.level tag = s.level tag
  nested : (s'.level call.tag : ℤ) = s.level call.tag + if excpt = none then call.nesting else 0

/-- The call returns, and does what it should. -/
def ExactCall (e : Env μ) (call : Call μ) (c : Context μ) : Prop :=
  ∃ c' excpt new, call.run e c = some (c', excpt) ∧ Exact call c.state c'.state excpt new

/-- All calls of a run do. -/
def AllExact : Context μ → List (Env μ × Call μ) → Prop
  | _, [] => True
  | c, (e, call) :: calls => ExactCall e call c ∧
      ∀ c' excpt, call.run e c = some (c', excpt) → AllExact c' calls

/-! ## The condition -/

omit [DecidableEq μ] in
/-- The time of the next snapshot lies ahead. -/
def Schedulable (e : Env μ) (mgr : μ) (param : UInt64) : Prop :=
  param ≠ 0 ∧ e.current mgr < e.current mgr / param * param + param

/-- What has to hold before a call. -/
def Meets (e : Env μ) (c : Context μ) : Call μ → Prop
  | .start tag style param tmgr =>
    match c.state.profilers tag with
    | none => tag ≠ none ∧ ((tag.getD []).length ≤ maxTagLength - 1 →
        (c.state.file.isSome ∨ e.opens) ∧
          (style = .time → ∃ mgr, tmgr = some mgr ∧ Schedulable e mgr param))
    | some p => Conflicts style param tmgr p ∨ p.level.toNat + 1 < 2 ^ 64
  | .update tag _ => c.pstate.isSome ∧
      ∀ p, c.state.profilers tag = some p → p.style = .updates → p.param ≠ 0
  | .stop _ => c.pstate.isSome
  | .expire tag => ∃ p, c.state.profilers tag = some p ∧ Schedulable e p.tmgr p.param

/-- All calls of a run meet it. -/
def AllMeet : Context μ → List (Env μ × Call μ) → Prop
  | _, [] => True
  | c, (e, call) :: calls => Meets e c call ∧
      ∀ c' excpt, call.run e c = some (c', excpt) → AllMeet c' calls

/-! ## The invariant -/

/-- A profiler has the tag under which it is found, which is no null pointer, and a level; and the
output file has been opened when the first one was made. -/
structure Known (s : State μ) (tag : HltString) (p : Profiler μ) : Prop where
  tag_eq : p.tag = tag
  not_null : tag ≠ none
  level_ne : p.level ≠ 0
  opened : s.file.isSome

def Inv (c : Context μ) : Prop :=
  c.enabled = true ∧ ∀ tag p, c.state.profilers tag = some p → Known c.state tag p

/-! ## States -/

def State.append (s : State μ) (entry : Entry) : State μ :=
  { s with file := some (s.records ++ [entry]) }

section

omit [DecidableEq μ]

theorem level_of_none {s : State μ} {tag : HltString} (h : s.profilers tag = none) :
    s.level tag = 0 := by
  rw [State.level, h]
  rfl

theorem level_of_some {s : State μ} {tag : HltString} {p : Profiler μ}
    (h : s.profilers tag = some p) : s.level tag = p.level.toNat := by
  rw [State.level, h]
  rfl

theorem profilers_put_self (s : State μ) (tag : HltString) (p : Option (Profiler μ)) :
    (s.put tag p).profilers tag = p := by
  unfold State.put
  exact Function.update_self tag p s.profilers

theorem profilers_put_other (s : State μ) {tag t : HltString} (h : t ≠ tag)
    (p : Option (Profiler μ)) : (s.put tag p).profilers t = s.profilers t := by
  unfold State.put
  exact Function.update_of_ne h p s.profilers

theorem level_put_other (s : State μ) {tag t : HltString} (h : t ≠ tag)
    (p : Option (Profiler μ)) : (s.put tag p).level t = s.level t := by
  rw [State.level, profilers_put_other s h, State.level]

theorem count_nil (rtype : UInt8) (tag : HltString) : count rtype tag [] = 0 := rfl

theorem count_singleton (rtype : UInt8) (tag : HltString) (entry : Entry) :
    count rtype tag [entry] = if some entry.tag = tag ∧ entry.record.type = rtype then 1 else 0 := by
  rw [count, List.countP_singleton]
  simp only [decide_eq_true_eq]

theorem outputRecord_eq {e : Env μ} {p : Profiler μ} {bytes : List UInt8} (htag : p.tag = some bytes)
    (rtype : UInt8) (excpt : Option Excpt) {s : State μ}
    (h : s.file.isSome ∨ e.opens ∧ excpt = none) :
    outputRecord e p rtype excpt s =
      some (s.append ⟨bytes, makeRecord e p rtype⟩, excpt) := by
  have hopens : ¬ (s.file.isNone ∧ (! e.opens) = true) := by
    cases hfile : s.file <;> simp_all
  have hheader : ¬ (s.file.isNone ∧ excpt.isSome) := by
    cases hfile : s.file <;> simp_all
  rw [outputRecord, if_neg hopens, if_neg hheader, htag]
  rfl

/-! ## What a call has done -/

theorem Exact.of_quiet {call : Call μ} {s s' : State μ} {excpt : Option Excpt} {new : List Entry}
    (hrecords : s'.records = s.records ++ new)
    (hstart : ∀ tag, count hltProfilerStart tag new = 0)
    (hstop : ∀ tag, count hltProfilerStop tag new = 0)
    (hlevel : ∀ tag, s'.level tag = s.level tag)
    (hunknown : excpt = some .profilerUnknown ↔ call.NeedsProfiler ∧ s.level call.tag = 0)
    (hmismatch : excpt = some .profilerMismatch ↔ call.ConflictsWith s)
    (hnested : excpt = none → call.nesting = 0) : Exact call s s' excpt new where
  records := hrecords
  starts := fun tag => by
    rw [hstart, hlevel, if_neg (by omega)]
  stops := fun tag => by
    rw [hstop, hlevel, if_neg (by omega)]
  unknown := hunknown
  mismatch := hmismatch
  others := fun tag _ => hlevel tag
  nested := by
    rw [hlevel]
    split
    · next h => rw [hnested h, Int.add_zero]
    · rw [Int.add_zero]

theorem Exact.of_inner {call : Call μ} {s s' : State μ} (hrecords : s'.records = s.records)
    (hothers : ∀ tag, tag ≠ call.tag → s'.level tag = s.level tag)
    (hpos : 0 < s.level call.tag) (hpos' : 0 < s'.level call.tag)
    (hconflict : ¬ call.ConflictsWith s)
    (hnested : (s'.level call.tag : ℤ) = s.level call.tag + call.nesting) :
    Exact call s s' none [] := by
  have hsame : ∀ tag, s.level tag = 0 ↔ s'.level tag = 0 := by
    intro tag
    by_cases h : tag = call.tag
    · subst h
      omega
    · rw [hothers tag h]
  refine ⟨by rw [hrecords, List.append_nil], fun tag => ?_, fun tag => ?_,
    iff_of_false (fun h => by cases h) (fun h => by omega),
    iff_of_false (fun h => by cases h) hconflict, hothers, by rw [if_pos rfl, hnested]⟩
  · have := hsame tag
    rw [count_nil, if_neg (by omega)]
  · have := hsame tag
    rw [count_nil, if_neg (by omega)]

theorem Exact.of_rise {call : Call μ} {s s' : State μ} {entry : Entry}
    (htag : some entry.tag = call.tag) (htype : entry.record.type = hltProfilerStart)
    (hrecords : s'.records = s.records ++ [entry])
    (hothers : ∀ tag, tag ≠ call.tag → s'.level tag = s.level tag)
    (hzero : s.level call.tag = 0) (hone : s'.level call.tag = 1)
    (hneeds : ¬ call.NeedsProfiler) (hconflict : ¬ call.ConflictsWith s) (hnested : call.nesting = 1) :
    Exact call s s' none [entry] := by
  refine ⟨hrecords, fun tag => ?_, fun tag => ?_, iff_of_false (fun h => by cases h) (fun h => hneeds h.1),
    iff_of_false (fun h => by cases h) hconflict, hothers, ?_⟩
  · rw [count_singleton, htag, htype]
    by_cases h : call.tag = tag
    · subst h
      rw [if_pos ⟨rfl, rfl⟩, if_pos ⟨hzero, by omega⟩]
    · rw [if_neg (fun hand => h hand.1), hothers tag (Ne.symm h), if_neg (by omega)]
  · rw [count_singleton, htype, if_neg (fun hand => by cases hand.2)]
    by_cases h : tag = call.tag
    · subst h
      rw [if_neg (by omega)]
    · rw [hothers tag h, if_neg (by omega)]
  · rw [if_pos rfl, hzero, hone, hnested]
    rfl

theorem Exact.of_fall {call : Call μ} {s s' : State μ} {entry : Entry}
    (htag : some entry.tag = call.tag) (htype : entry.record.type = hltProfilerStop)
    (hrecords : s'.records = s.records ++ [entry])
    (hothers : ∀ tag, tag ≠ call.tag → s'.level tag = s.level tag)
    (hone : s.level call.tag = 1) (hzero : s'.level call.tag = 0)
    (hconflict : ¬ call.ConflictsWith s) (hnested : call.nesting = -1) :
    Exact call s s' none [entry] := by
  refine ⟨hrecords, fun tag => ?_, fun tag => ?_, iff_of_false (fun h => by cases h) (fun h => ?_),
    iff_of_false (fun h => by cases h) hconflict, hothers, ?_⟩
  · rw [count_singleton, htype, if_neg (fun hand => by cases hand.2)]
    by_cases h : tag = call.tag
    · subst h
      rw [if_neg (by omega)]
    · rw [hothers tag h, if_neg (by omega)]
  · rw [count_singleton, htag, htype]
    by_cases h : call.tag = tag
    · subst h
      rw [if_pos ⟨rfl, rfl⟩, if_pos ⟨by omega, hzero⟩]
    · rw [if_neg (fun hand => h hand.1), hothers tag (Ne.symm h), if_neg (by omega)]
  · rw [hone] at h
    exact absurd h.2 one_ne_zero
  · rw [if_pos rfl, hzero, hone, hnested]
    rfl

/-! ## The invariant of a new state -/

theorem Inv.put {c : Context μ} (h : Inv c) {s : State μ} (hopen : s.file.isSome)
    (hother : ∀ t, s.profilers t = c.state.profilers t) (tag : HltString) {p : Option (Profiler μ)}
    (hp : ∀ q, p = some q → q.tag = tag ∧ tag ≠ none ∧ q.level ≠ 0) :
    Inv { c with pstate := some (s.put tag p) } := by
  refine ⟨h.1, fun t q hq => ?_⟩
  have hq' : (s.put tag p).profilers t = some q := hq
  by_cases ht : t = tag
  · subst ht
    rw [profilers_put_self] at hq'
    obtain ⟨htag, hnull, hlevel⟩ := hp q hq'
    exact ⟨htag, hnull, hlevel, hopen⟩
  · rw [profilers_put_other s ht, hother] at hq'
    have hknown := h.2 t q hq'
    exact ⟨hknown.tag_eq, hknown.not_null, hknown.level_ne, hopen⟩

/-! ## Timers -/

theorem installTimer_eq {e : Env μ} {p : Profiler μ} (hnew : p.timer = false)
    (h : Schedulable e p.tmgr p.param) : installTimer e p = some { p with timer := true } := by
  rw [installTimer, if_neg (by rw [hnew]; exact Bool.false_ne_true), if_neg h.1]
  exact if_neg (UInt64.not_le.mpr h.2)

theorem startTimer_eq (e : Env μ) (tmgr : Option μ) (p : Profiler μ) (hnew : p.timer = false)
    (h : p.style = .time → tmgr.isSome ∧ Schedulable e p.tmgr p.param) :
    ∃ timer, startTimer e tmgr p = some { p with timer := timer } := by
  rw [startTimer]
  by_cases hstyle : p.style = .time
  · obtain ⟨hsome, hschedule⟩ := h hstyle
    obtain ⟨mgr, rfl⟩ := Option.isSome_iff_exists.mp hsome
    rw [if_pos hstyle, if_neg (by simp), installTimer_eq hnew hschedule]
    exact ⟨true, rfl⟩
  · rw [if_neg hstyle]
    exact ⟨p.timer, rfl⟩

end

/-! ## Each call -/

omit [DecidableEq μ] in
theorem enabled_neg {c : Context μ} (h : Inv c) : ¬ (! c.enabled) = true := by
  rw [h.1]
  exact Bool.false_ne_true

omit [DecidableEq μ] in
theorem startUnknown_spec {e : Env μ} {c : Context μ} {tag : HltString} {style : Style}
    {param : UInt64} {tmgr : Option μ} (hinv : Inv c) (hfind : c.state.profilers tag = none)
    (h : Meets e c (.start tag style param tmgr)) :
    ∃ s' excpt new, startUnknown e tag style param tmgr c.tmgr c.state = some (s', excpt) ∧
      Exact (.start tag style param tmgr) c.state s' excpt new ∧
      Inv { c with pstate := some s' } := by
  have hconflict : ¬ (Call.start tag style param tmgr).ConflictsWith c.state := by
    rintro ⟨p, hp, -⟩
    rw [hfind] at hp
    cases hp
  rw [Meets, hfind] at h
  obtain ⟨hnull, hshort⟩ := h
  obtain ⟨bytes, rfl⟩ := Option.ne_none_iff_exists'.mp hnull
  rw [startUnknown]
  by_cases hlen : bytes.length ≤ maxTagLength - 1
  · obtain ⟨hopen, htime⟩ := hshort hlen
    have hschedule : style = .time → tmgr.isSome ∧ Schedulable e (tmgr.getD c.tmgr) param := by
      intro hstyle
      obtain ⟨mgr, rfl, hmgr⟩ := htime hstyle
      exact ⟨rfl, hmgr⟩
    obtain ⟨timer, htimer⟩ := startTimer_eq e tmgr
      (newProfiler e (some bytes) style param (tmgr.getD c.tmgr)) rfl hschedule
    set p : Profiler μ :=
      { newProfiler e (some bytes) style param (tmgr.getD c.tmgr) with timer := timer } with hp
    have hput : ((c.state.put (some bytes) (some p)).append
        ⟨bytes, makeRecord e p hltProfilerStart⟩).profilers (some bytes) = some p :=
      profilers_put_self c.state (some bytes) (some p)
    have hout := outputRecord_eq (e := e) (p := p) (s := c.state.put (some bytes) (some p)) rfl
      hltProfilerStart none (hopen.imp_right fun h => ⟨h, rfl⟩)
    rw [if_neg (Nat.not_lt.mpr hlen), htimer]
    refine ⟨_, _, _, hout, Exact.of_rise rfl rfl rfl (fun t ht => ?_) (level_of_none hfind) ?_ id
      hconflict rfl, ?_⟩
    · exact level_put_other c.state ht (some p)
    · exact level_of_some hput
    · refine Inv.put hinv (s := c.state.append ⟨bytes, makeRecord e p hltProfilerStart⟩) rfl
        (fun t => rfl) _ fun q hq => ?_
      obtain rfl := Option.some.inj hq
      exact ⟨rfl, hnull, (by decide : (1 : UInt64) ≠ 0)⟩
  · have hexact : Exact (.start (some bytes) style param tmgr) c.state c.state
        (some .valueError) [] :=
      .of_quiet (List.append_nil _).symm (fun _ => rfl) (fun _ => rfl) (fun _ => rfl)
        (iff_of_false (by decide) fun h => h.1) (iff_of_false (by decide) hconflict)
        (fun h => by cases h)
    rw [if_pos (Nat.not_le.mp hlen)]
    exact ⟨_, _, [], rfl, hexact, hinv.1, hinv.2⟩

theorem startKnown_spec {c : Context μ} {tag : HltString} {style : Style}
    {param : UInt64} {tmgr : Option μ} {p : Profiler μ} (hinv : Inv c)
    (hfind : c.state.profilers tag = some p)
    (h : Conflicts style param tmgr p ∨ p.level.toNat + 1 < 2 ^ 64) :
    ∃ s' excpt new, startKnown tag style param tmgr p c.state = (s', excpt) ∧
      Exact (.start tag style param tmgr) c.state s' excpt new ∧
      Inv { c with pstate := some s' } := by
  have hknown := hinv.2 tag p hfind
  rw [startKnown]
  by_cases hconflict : Conflicts style param tmgr p
  · have hexact : Exact (.start tag style param tmgr) c.state c.state
        (some .profilerMismatch) [] :=
      .of_quiet (List.append_nil _).symm (fun _ => rfl) (fun _ => rfl) (fun _ => rfl)
        (iff_of_false (by decide) fun h => h.1) (iff_of_true rfl ⟨p, hfind, hconflict⟩)
        (fun h => by cases h)
    rw [if_pos hconflict]
    exact ⟨_, _, [], rfl, hexact, hinv.1, hinv.2⟩
  · have hlt := h.resolve_left hconflict
    have hlevel : (p.level + 1).toNat = p.level.toNat + 1 := by
      rw [UInt64.toNat_add]
      exact Nat.mod_eq_of_lt hlt
    have hself : (c.state.put tag (some { p with level := p.level + 1 })).level tag =
        p.level.toNat + 1 := by
      rw [level_of_some (profilers_put_self _ _ _), hlevel]
    have hold := level_of_some hfind
    have hpos : 0 < p.level.toNat :=
      Nat.pos_of_ne_zero fun hzero => hknown.level_ne (UInt64.toNat_inj.mp hzero)
    rw [if_neg hconflict]
    refine ⟨_, _, [], rfl, Exact.of_inner rfl (fun t ht => level_put_other _ ht _) ?_ ?_ ?_ ?_,
      Inv.put hinv hknown.opened (fun t => rfl) _ fun q hq => ?_⟩
    · exact hold ▸ hpos
    · exact hself ▸ Nat.succ_pos _
    · rintro ⟨q, hq, hqconflict⟩
      obtain rfl := Option.some.inj (hfind.symm.trans hq)
      exact hconflict hqconflict
    · show ((c.state.put tag _).level tag : ℤ) = c.state.level tag + 1
      rw [hself, hold]
      rfl
    · obtain rfl := Option.some.inj hq
      refine ⟨hknown.tag_eq, hknown.not_null, fun hzero => ?_⟩
      have := congrArg UInt64.toNat hzero
      rw [hlevel] at this
      exact absurd this (Nat.succ_ne_zero _)

theorem start_spec {e : Env μ} {c : Context μ} {tag : HltString} {style : Style} {param : UInt64}
    {tmgr : Option μ} (hinv : Inv c) (h : Meets e c (.start tag style param tmgr)) :
    ∃ c' excpt new, (Call.start tag style param tmgr).run e c = some (c', excpt) ∧
      Exact (.start tag style param tmgr) c.state c'.state excpt new ∧ Inv c' := by
  rw [Call.run, profilerStart, if_neg (enabled_neg hinv)]
  dsimp only
  cases hfind : c.state.profilers tag with
  | none =>
    obtain ⟨s', excpt, new, hrun, hexact, hinv'⟩ := startUnknown_spec hinv hfind h
    have hfind' : (c.pstate.getD .empty).profilers tag = none := hfind
    rw [hfind']
    exact ⟨_, excpt, new, congrArg (Option.map c.after) hrun, hexact, hinv'⟩
  | some p =>
    rw [Meets, hfind] at h
    obtain ⟨s', excpt, new, hrun, hexact, hinv'⟩ := startKnown_spec hinv hfind h
    have hfind' : (c.pstate.getD .empty).profilers tag = some p := hfind
    rw [hfind']
    exact ⟨_, excpt, new, congrArg (fun r => some (c.after r)) hrun, hexact, hinv'⟩

/-! ### Calls that need a profiler -/

section

omit [DecidableEq μ]

theorem state_of_some {c : Context μ} {s : State μ} (h : c.pstate = some s) : c.state = s := by
  rw [Context.state, h]
  rfl

end

omit [DecidableEq μ] in
theorem unknown_exact {call : Call μ} {s : State μ} (hneeds : call.NeedsProfiler)
    (hconflict : ¬ call.ConflictsWith s) (hfind : s.profilers call.tag = none) :
    Exact call s s (some .profilerUnknown) [] :=
  .of_quiet (List.append_nil _).symm (fun _ => rfl) (fun _ => rfl) (fun _ => rfl)
    (iff_of_true rfl ⟨hneeds, level_of_none hfind⟩) (iff_of_false (by decide) hconflict)
    (fun h => by cases h)

theorem stop_spec {e : Env μ} {c : Context μ} {tag : HltString} (hinv : Inv c)
    (h : Meets e c (.stop tag)) :
    ∃ c' excpt new, (Call.stop tag).run e c = some (c', excpt) ∧
      Exact (.stop tag) c.state c'.state excpt new ∧ Inv c' := by
  obtain ⟨s, hs⟩ := Option.isSome_iff_exists.mp h
  have hstate := state_of_some hs
  rw [Call.run, profilerStop, if_neg (enabled_neg hinv), hs]
  dsimp only
  cases hfind : s.profilers tag with
  | none =>
    refine ⟨c, some .profilerUnknown, [], rfl, unknown_exact trivial id ?_, hinv⟩
    rw [hstate]
    exact hfind
  | some p =>
    have hknown := hinv.2 tag p (hstate ▸ hfind)
    have hold := level_of_some hfind
    have hpos : 0 < p.level.toNat :=
      Nat.pos_of_ne_zero fun hzero => hknown.level_ne (UInt64.toNat_inj.mp hzero)
    have hlevel : (p.level - 1).toNat = p.level.toNat - 1 :=
      UInt64.toNat_sub_of_le _ _ (UInt64.le_iff_toNat_le.mpr hpos)
    obtain ⟨bytes, hbytes⟩ := Option.ne_none_iff_exists'.mp hknown.not_null
    have hopen : s.file.isSome := hstate ▸ hknown.opened
    dsimp only
    by_cases hlast : p.level - 1 = 0
    · have hone : p.level.toNat = 1 := by
        rw [hlast] at hlevel
        have : (0 : UInt64).toNat = 0 := rfl
        omega
      have hout := outputRecord_eq (e := e) (p := { p with level := p.level - 1 })
        (hknown.tag_eq.trans hbytes) hltProfilerStop none (.inl hopen)
      rw [if_pos hlast, hout]
      generalize hentry : (⟨bytes, makeRecord e _ hltProfilerStop⟩ : Entry) = entry
      have hexact : Exact (.stop tag) c.state ((s.append entry).put tag none) none [entry] := by
        refine Exact.of_fall ?_ ?_ ?_ (fun t ht => ?_) ?_ ?_ id rfl
        · rw [← hentry]
          exact hbytes.symm
        · rw [← hentry]
          rfl
        · rw [hstate]
          rfl
        · rw [hstate]
          exact level_put_other _ ht _
        · rw [hstate]
          exact hold.trans hone
        · exact level_of_none (profilers_put_self _ _ _)
      refine ⟨_, _, _, rfl, hexact, ?_⟩
      exact Inv.put hinv rfl (fun t => by rw [hstate]; rfl) _ fun q hq => by cases hq
    · have hself : (s.put tag (some { p with level := p.level - 1 })).level tag =
          p.level.toNat - 1 := by
        rw [level_of_some (profilers_put_self _ _ _), hlevel]
      have hpos' : 0 < p.level.toNat - 1 := by
        rw [← hlevel]
        exact Nat.pos_of_ne_zero fun hzero => hlast (UInt64.toNat_inj.mp hzero)
      rw [if_neg hlast]
      refine ⟨_, _, [], rfl, Exact.of_inner ?_ (fun t ht => ?_) ?_ ?_ id ?_, ?_⟩
      · rw [hstate]
        rfl
      · rw [hstate]
        exact level_put_other _ ht _
      · rw [hstate]
        exact hold ▸ hpos
      · exact hself ▸ hpos'
      · show ((s.put tag _).level tag : ℤ) = c.state.level tag + -1
        rw [hself, hstate, hold]
        omega
      · refine Inv.put hinv hopen (fun t => by rw [hstate]) _ fun q hq => ?_
        obtain rfl := Option.some.inj hq
        exact ⟨hknown.tag_eq, hknown.not_null, hlast⟩

def Inner (new : List Entry) : Prop :=
  ∀ entry ∈ new, entry.record.type ≠ hltProfilerStart ∧ entry.record.type ≠ hltProfilerStop

section

omit [DecidableEq μ]

theorem count_eq_zero {rtype : UInt8} (tag : HltString) {new : List Entry}
    (h : ∀ entry ∈ new, entry.record.type ≠ rtype) : count rtype tag new = 0 := by
  rw [count, List.countP_eq_zero]
  intro entry hentry hboth
  exact h entry hentry (of_decide_eq_true hboth).2

theorem updateRecord_eq {e : Env μ} {p : Profiler μ} {bytes : List UInt8} (htag : p.tag = some bytes)
    {s : State μ} (hopen : s.file.isSome) (h : p.style = .updates → p.param ≠ 0) :
    ∃ s' excpt new, updateRecord e p s = some (s', excpt) ∧ s'.profilers = s.profilers ∧
      s'.file.isSome ∧ s'.records = s.records ++ new ∧ Inner new ∧
      (excpt = none ∨ excpt = some .notImplemented) := by
  have hout := fun rtype excpt => outputRecord_eq (e := e) htag rtype excpt (.inl hopen)
  have hinner : ∀ rtype, rtype ≠ hltProfilerStart → rtype ≠ hltProfilerStop →
      Inner [⟨bytes, makeRecord e p rtype⟩] := by
    intro rtype hstart hstop entry hentry
    rw [List.mem_singleton.mp hentry]
    exact ⟨hstart, hstop⟩
  have hwritten : ∀ rtype excpt, rtype ≠ hltProfilerStart → rtype ≠ hltProfilerStop →
      (excpt = none ∨ excpt = some .notImplemented) →
      ∃ s' excpt' new, outputRecord e p rtype excpt s = some (s', excpt') ∧
        s'.profilers = s.profilers ∧ s'.file.isSome ∧ s'.records = s.records ++ new ∧ Inner new ∧
        (excpt' = none ∨ excpt' = some .notImplemented) :=
    fun rtype excpt hstart hstop hexcpt =>
      ⟨_, _, _, hout rtype excpt, rfl, rfl, rfl, hinner rtype hstart hstop, hexcpt⟩
  rw [updateRecord]
  split
  · exact hwritten _ _ (by decide) (by decide) (.inl rfl)
  · exact hwritten _ _ (by decide) (by decide) (.inl rfl)
  · next hstyle =>
    rw [if_neg (h hstyle)]
    split
    · exact hwritten _ _ (by decide) (by decide) (.inl rfl)
    · exact ⟨s, none, [], rfl, rfl, hopen, (List.append_nil _).symm,
        fun entry hentry => absurd hentry List.not_mem_nil, .inl rfl⟩
  · exact hwritten _ _ (by decide) (by decide) (.inr rfl)

theorem level_put_same {s : State μ} {tag : HltString} {p q : Profiler μ}
    (hfind : s.profilers tag = some p) (hlevel : q.level = p.level) (t : HltString) :
    (s.put tag (some q)).level t = s.level t := by
  by_cases ht : t = tag
  · subst ht
    rw [level_of_some (profilers_put_self s t (some q)), level_of_some hfind, hlevel]
  · exact level_put_other s ht (some q)

end

theorem update_spec {e : Env μ} {c : Context μ} {tag : HltString} {userDelta : UInt64}
    (hinv : Inv c) (h : Meets e c (.update tag userDelta)) :
    ∃ c' excpt new, (Call.update tag userDelta).run e c = some (c', excpt) ∧
      Exact (.update tag userDelta) c.state c'.state excpt new ∧ Inv c' := by
  obtain ⟨s, hs⟩ := Option.isSome_iff_exists.mp h.1
  have hstate := state_of_some hs
  have hparam := h.2
  rw [hstate] at hparam
  rw [Call.run, profilerUpdate, if_neg (enabled_neg hinv), hs]
  dsimp only
  cases hfind : s.profilers tag with
  | none =>
    refine ⟨c, some .profilerUnknown, [], rfl, unknown_exact trivial id ?_, hinv⟩
    rw [hstate]
    exact hfind
  | some p =>
    have hknown := hinv.2 tag p (hstate ▸ hfind)
    have hopen : s.file.isSome := hstate ▸ hknown.opened
    have hpos : s.level tag ≠ 0 := by
      rw [level_of_some hfind]
      exact fun hzero => hknown.level_ne (UInt64.toNat_inj.mp hzero)
    obtain ⟨bytes, hbytes⟩ := Option.ne_none_iff_exists'.mp hknown.not_null
    dsimp only
    generalize hp' : ({ p with updates := p.updates + 1, user := p.user + userDelta } :
      Profiler μ) = p'
    have htag' : p'.tag = tag := by rw [← hp', ← hknown.tag_eq]
    have hlevel' : p'.level = p.level := by rw [← hp']
    obtain ⟨s', excpt, new, hrun, hprofilers, hopen', hrecords, hinner, hexcpt⟩ :=
      updateRecord_eq (e := e) (htag'.trans hbytes) (s := s.put tag (some p')) hopen
        (by rw [← hp']; exact hparam p hfind)
    have hlevel : ∀ t, s'.level t = c.state.level t := by
      intro t
      rw [hstate, State.level, hprofilers]
      exact level_put_same hfind hlevel' t
    have hexact : Exact (.update tag userDelta) c.state s' excpt new := by
      refine .of_quiet ?_ (fun t => count_eq_zero t fun entry hentry => (hinner entry hentry).1)
        (fun t => count_eq_zero t fun entry hentry => (hinner entry hentry).2) hlevel
        (iff_of_false ?_ ?_) (iff_of_false ?_ id) (fun _ => rfl)
      · rw [hrecords, hstate]
        rfl
      · rcases hexcpt with rfl | rfl <;> decide
      · rw [hstate]
        exact fun hand => hpos hand.2
      · rcases hexcpt with rfl | rfl <;> decide
    rw [hrun]
    refine ⟨_, _, _, rfl, hexact, hinv.1, fun t q hq => ?_⟩
    have hq' : (s.put tag (some p')).profilers t = some q := by
      rw [← hprofilers]
      exact hq
    have hput := Inv.put hinv hopen (fun t => by rw [hstate]) tag (p := some p')
      fun q hq => by
        obtain rfl := Option.some.inj hq
        exact ⟨htag', hknown.not_null, hlevel' ▸ hknown.level_ne⟩
    have hknown' := hput.2 t q hq'
    exact ⟨hknown'.tag_eq, hknown'.not_null, hknown'.level_ne, hopen'⟩

theorem expire_spec {e : Env μ} {c : Context μ} {tag : HltString} (hinv : Inv c)
    (h : Meets e c (.expire tag)) :
    ∃ c' excpt new, (Call.expire tag).run e c = some (c', excpt) ∧
      Exact (.expire tag) c.state c'.state excpt new ∧ Inv c' := by
  obtain ⟨p, hfind, hschedule⟩ := h
  have hknown := hinv.2 tag p hfind
  obtain ⟨bytes, hbytes⟩ := Option.ne_none_iff_exists'.mp hknown.not_null
  obtain ⟨s, hs⟩ : ∃ s, c.pstate = some s := by
    cases hs : c.pstate with
    | none =>
      rw [Context.state, hs] at hfind
      cases hfind
    | some s => exact ⟨s, rfl⟩
  have hstate := state_of_some hs
  rw [hstate] at hfind
  have hout := outputRecord_eq (e := e) (hknown.tag_eq.trans hbytes) hltProfilerSnapshot none
    (.inl (hstate ▸ hknown.opened))
  have hinstall : installTimer e { p with timer := false } = some { p with timer := true } :=
    installTimer_eq rfl hschedule
  rw [Call.run, timerExpire]
  simp only [hs, Option.bind_eq_bind, Option.bind_some, hfind, hout, hinstall]
  generalize hentry : (⟨bytes, makeRecord e p hltProfilerSnapshot⟩ : Entry) = entry
  have hexact : Exact (.expire tag) c.state
      ((s.append entry).put tag (some { p with timer := true })) none [entry] := by
    refine .of_quiet ?_ (fun t => count_eq_zero t ?_) (fun t => count_eq_zero t ?_) (fun t => ?_)
      (iff_of_false (by decide) fun hand => hand.1) (iff_of_false (by decide) id) (fun _ => rfl)
    · rw [hstate]
      rfl
    · intro entry' hmem
      rw [List.mem_singleton.mp hmem, ← hentry]
      exact (by decide : hltProfilerSnapshot ≠ hltProfilerStart)
    · intro entry' hmem
      rw [List.mem_singleton.mp hmem, ← hentry]
      exact (by decide : hltProfilerSnapshot ≠ hltProfilerStop)
    · rw [hstate]
      exact level_put_same (s := s.append entry) (q := { p with timer := true }) hfind rfl t
  refine ⟨_, _, _, rfl, hexact, ?_⟩
  refine Inv.put hinv rfl (fun t => by rw [hstate]; rfl) _ fun q hq => ?_
  obtain rfl := Option.some.inj hq
  exact ⟨hknown.tag_eq, hknown.not_null, hknown.level_ne⟩

/-! ## Runs -/

theorem call_spec {e : Env μ} {call : Call μ} {c : Context μ} (hinv : Inv c) (h : Meets e c call) :
    ∃ c' excpt new, call.run e c = some (c', excpt) ∧ Exact call c.state c'.state excpt new ∧
      Inv c' := by
  cases call with
  | start tag style param tmgr => exact start_spec hinv h
  | update tag userDelta => exact update_spec hinv h
  | stop tag => exact stop_spec hinv h
  | expire tag => exact expire_spec hinv h

theorem run_spec {c : Context μ} {calls : List (Env μ × Call μ)} (hinv : Inv c)
    (h : AllMeet c calls) : AllExact c calls := by
  induction calls generalizing c with
  | nil => exact trivial
  | cons first calls ih =>
    obtain ⟨e, call⟩ := first
    obtain ⟨hmeets, hrest⟩ := h
    obtain ⟨c', excpt, new, hrun, hexact, hinv'⟩ := call_spec hinv hmeets
    refine ⟨⟨c', excpt, new, hrun, hexact⟩, fun c'' excpt' hrun' => ?_⟩
    obtain ⟨rfl, rfl⟩ := Prod.mk.inj (Option.some.inj (hrun.symm.trans hrun'))
    exact ih hinv' (hrest c' excpt hrun)

/-- The context of a program that profiles, before its first call. -/
def Context.initial (tmgr : μ) : Context μ :=
  ⟨true, tmgr, none⟩

omit [DecidableEq μ] in
theorem inv_initial (tmgr : μ) : Inv (Context.initial tmgr) :=
  ⟨rfl, fun tag p h => by cases h⟩

/-- An environment in which the file can be opened. -/
def plainEnv : Env Unit :=
  ⟨fun _ => 0, 0, 0, true⟩

end Hilti.Profiling
