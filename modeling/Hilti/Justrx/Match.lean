import Mathlib.Logic.Function.Basic
import Mathlib.Data.Finset.Insert
import Hilti.Justrx.Dfa

/-!
# Matching with a DFA

The model of the two interpreters of a DFA, `dfa-interpreter-std.c` and
`dfa-interpreter-min.c`, of `jlocale.h`, and of the part of `jrx.c` that runs them over
a buffer.  A buffer is the list of its characters, as the interpreters get to see them.

An offset is a natural number.  A group of tags that has not been written holds zeros.
The accepts of a state are kept in the order of their ids, with at most one for each.
`none` stands for a call that fails, which a matcher makes only for a state that
`dfa_get_state` cannot return; the minimal matcher sets its state to none to jam.
-/

namespace Hilti.Justrx

set_option autoImplicit false

/-! ## Assertions and classes -/

/-- `_isword`, with `isalnum` of the C locale. -/
def isWord (cp : ℕ) : Bool :=
  (48 ≤ cp ∧ cp ≤ 57) ∨ (65 ≤ cp ∧ cp ≤ 90) ∨ (97 ≤ cp ∧ cp ≤ 122) ∨ cp = 95

/-- `local_word_boundary`. -/
def localWordBoundary (prev : Option ℕ) (current : ℕ) : Bool :=
  if isWord current then
    match prev with
    | some cp => !isWord cp
    | none => true
  else false

/-- `_ccl_match_assertions`, which both interpreters have. -/
def cclMatchAssertions (cp : ℕ) (previous : Option ℕ) (given want : Finset Assertion) : Bool :=
  let given₁ := if .wordBoundary ∈ want ∧ localWordBoundary previous cp = true then
    insert .wordBoundary given else given
  let given₂ := if .notWordBoundary ∈ want ∧ localWordBoundary previous cp = false then
    insert .notWordBoundary given₁ else given₁
  decide (want ⊆ given₂)

/-- The loop of `_ccl_match` over the ranges. -/
def inRanges (rs : List Range) (cp : ℕ) : Bool :=
  rs.any fun r => cp ≥ r.begin ∧ cp < r.stop

/-- `_ccl_match` of the standard interpreter. -/
def cclMatch (ccl : Ccl) (cp : ℕ) (previous : Option ℕ) (assertions : Finset Assertion) : Bool :=
  match ccl.ranges with
  | none => false
  | some rs =>
    if !cclMatchAssertions cp previous assertions ccl.assertions then false
    else inRanges rs cp

/-- `_ccl_match` of the minimal interpreter. -/
def cclMatchMin (ccl : Ccl) (cp : ℕ) (previous : Option ℕ) (assertions : Finset Assertion) :
    Bool :=
  match ccl.ranges with
  | none => false
  | some rs =>
    if !cclMatchAssertions cp previous assertions ccl.assertions then true
    else inRanges rs cp

def Dfa.ccl (dfa : Dfa) (id : ℕ) : Ccl :=
  dfa.ccls.getD id ⟨∅, none⟩

/-- What both interpreters do with the DFA: they get the state, look for the first
transition with a class that lets them pass, and get the state it leads to. -/
def findTransition (pass : Ccl → Bool) (dfa : Dfa) (id : ℕ) :
    Option (Dfa × DfaState × Option (DfaTransition × DfaState)) := do
  let r ← dfaGetState dfa id
  match r.2.trans.find? fun t => pass (r.1.ccl t.ccl) with
  | none => some (r.1, r.2, none)
  | some t => do
    let succ ← dfaGetState r.1 t.succ
    some (succ.1, r.2, some (t, succ.2))

/-! ## Match states -/

/-- `jrx_match_accept`. -/
structure MatchAccept where
  aid : ℕ
  tags : Option (ℕ → ℕ)

def noTags : ℕ → ℕ :=
  fun _ => 0

/-- The flags of a `jrx_regex_t`, and the highest tag of its DFA. -/
structure Options where
  noCapture : Bool
  stdMatcher : Bool
  firstMatch : Bool
  maxTag : ℤ

/-- `jrx_match_state`. -/
structure MatchState where
  offset : ℕ
  begin : ℕ
  dfa : Dfa
  state : Option ℕ
  previous : ℕ
  accepts : List MatchAccept
  currentTags : Bool
  tags1 : ℕ → ℕ → ℕ
  tags2 : ℕ → ℕ → ℕ
  acc : ℤ

/-- `_tag_group`. -/
def MatchState.tagGroup (ms : MatchState) (tags : Bool) (group : ℕ) : ℕ → ℕ :=
  if tags then ms.tags1 group else ms.tags2 group

/-- The operations of `_update_tags`, from the old groups to the new ones. -/
def applyTagOps (offset : ℕ) (old new : ℕ → ℕ → ℕ) (tops : List TagOp) : ℕ → ℕ → ℕ :=
  let copied := tops.foldl (fun new top => Function.update new top.tnew (old top.told)) new
  tops.foldl (fun new top => if top.tag < 0 then new else
    Function.update new top.tnew (Function.update (new top.tnew) top.tag.toNat offset)) copied

/-- `_update_tags`. -/
def updateTags (ms : MatchState) (tops : List TagOp) : MatchState :=
  if tops = [] then ms
  else if ms.currentTags then
    { ms with currentTags := false, tags2 := applyTagOps ms.offset ms.tags1 ms.tags2 tops }
  else { ms with currentTags := true, tags1 := applyTagOps ms.offset ms.tags2 ms.tags1 tops }

/-! ## The standard interpreter -/

/-- `set_match_accept_insert`. -/
def acceptInsert (nacc : MatchAccept) : List MatchAccept → List MatchAccept
  | [] => [nacc]
  | acc :: accepts =>
    if nacc.aid < acc.aid then nacc :: acc :: accepts
    else if nacc.aid = acc.aid then acc :: accepts
    else acc :: acceptInsert nacc accepts

/-- The length of a match, if it has both tags. -/
def matchLen (tags : ℕ → ℕ) : ℤ :=
  if 0 < tags 0 ∧ 0 < tags 1 then (tags 1 : ℤ) - tags 0 else -1

/-- Whether the loop of `_update_accepts` over the accepts so far keeps the new one. -/
def keepNew (otags ntags : ℕ → ℕ) : Bool :=
  if matchLen ntags < 0 then false
  else if matchLen otags < 0 then true
  else if otags 0 < ntags 0 then false
  else otags 0 = ntags 0 ∧ matchLen otags < matchLen ntags

/-- What `_update_accepts` does with an accept that has tags. -/
def recordAccept (accepts : List MatchAccept) (aid : ℕ) (ntags : ℕ → ℕ) : List MatchAccept :=
  match accepts.find? fun oacc => oacc.aid = aid with
  | none => acceptInsert ⟨aid, some ntags⟩ accepts
  | some oacc =>
    if keepNew (oacc.tags.getD noTags) ntags then
      acceptInsert ⟨aid, some ntags⟩ (accepts.filter fun oacc => oacc.aid ≠ aid)
    else accepts

/-- The loop of `_update_accepts`. -/
def updateAcceptsFrom (opts : Options) (ms : MatchState) (cp : ℕ)
    (assertions : Finset Assertion) : List DfaAccept → List MatchAccept → List MatchAccept
  | [], accepts => accepts
  | acc :: accs, accepts =>
    if !cclMatchAssertions cp (if ms.offset ≠ 0 then some ms.previous else none) assertions
        acc.finalAssertions then
      updateAcceptsFrom opts ms cp assertions accs accepts
    else if opts.noCapture then acceptInsert ⟨acc.aid, none⟩ accepts
    else
      let tags := acc.finalOps.foldl (fun tags op => Function.update tags op.tag.toNat ms.offset)
        (ms.tagGroup ms.currentTags acc.tid)
      updateAcceptsFrom opts ms cp assertions accs (recordAccept accepts acc.aid tags)

/-- `_update_accepts`. -/
def updateAccepts (opts : Options) (ms : MatchState) (state : DfaState) (cp : ℕ)
    (assertions : Finset Assertion) : MatchState :=
  { ms with accepts := updateAcceptsFrom opts ms cp assertions state.accepts ms.accepts }

/-- `jrx_match_state_init`. -/
def matchStateInit (opts : Options) (dfa : Dfa) (begin : ℕ) : Option MatchState :=
  let ms : MatchState := ⟨1, begin, dfa, some dfa.initial, 0, [], false, fun _ => noTags,
    fun _ => noTags, -1⟩
  if opts.stdMatcher then do
    let ms := updateTags ms dfa.initialOps
    let r ← dfaGetState ms.dfa dfa.initial
    some (updateAccepts opts { ms with dfa := r.1 } r.2 0 {.bol, .bod})
  else some ms

/-- `jrx_match_state_advance`: the state after it, and whether there was a transition. -/
def matchStateAdvance (opts : Options) (ms : MatchState) (cp : ℕ)
    (assertions : Finset Assertion) : Option (MatchState × Bool) := do
  let id ← ms.state
  let previous := if ms.offset ≠ 0 then some ms.previous else none
  let r ← findTransition (fun ccl => cclMatch ccl cp previous assertions) ms.dfa id
  match r.2.2 with
  | none => some ({ ms with dfa := r.1 }, false)
  | some (t, succ) =>
    let ms := updateTags { ms with dfa := r.1, state := some t.succ, previous := cp } t.tops
    some (updateAccepts opts { ms with offset := ms.offset + 1 } succ cp assertions, true)

/-! ## The minimal interpreter -/

/-- The accept id that the minimal interpreter takes from a state. -/
def DfaState.firstAid (state : DfaState) : Option ℕ :=
  state.accepts.head?.map DfaAccept.aid

/-- `jrx_match_state_advance_min`: the accept id, 0 when it fails and -1 when there may
still be a match. -/
def matchStateAdvanceMin (ms : MatchState) (cp : ℕ) (assertions : Finset Assertion) :
    Option (MatchState × ℤ) := do
  let id ← ms.state
  let previous := if ms.offset = 0 then some ms.previous else none
  let r ← findTransition (fun ccl => cclMatchMin ccl cp previous assertions) ms.dfa id
  match r.2.2 with
  | some (t, succ) =>
    let ms : MatchState := { ms with
      offset := ms.offset + 1, dfa := r.1, state := some t.succ, previous := cp }
    match succ.firstAid with
    | some aid => some (ms, aid)
    | none => some (ms, -1)
  | none =>
    match r.2.1.firstAid with
    | some aid => some ({ ms with dfa := r.1, state := none }, aid)
    | none => some ({ ms with dfa := r.1 }, 0)

/-! ## Running over a buffer -/

/-- The loop of `_pick_accept`: the accept so far, and the start and length of it. -/
def pickStep (best : MatchAccept × Option ℕ × ℤ) (acc : MatchAccept) :
    MatchAccept × Option ℕ × ℤ :=
  match acc.tags with
  | none => if best.1.aid = 0 then (acc, best.2) else best
  | some tags =>
    let len : ℤ := (tags 1 : ℤ) - tags 0
    let better := match best.2.1 with
      | none => true
      | some start => tags 0 < start ∨ tags 0 = start ∧ best.2.2 < len
    if better then (acc, some (tags 0), len) else best

/-- `_pick_accept`. -/
def pickAccept (accepts : List MatchAccept) : MatchAccept :=
  (accepts.foldl pickStep (⟨0, none⟩, none, 0)).1

/-- `jrx_can_transition`. -/
def canTransition (ms : MatchState) : Bool :=
  match ms.state.map ms.dfa.slot with
  | some (.state s) => !s.trans.isEmpty
  | _ => false

/-- The assertions for the next character of a buffer. -/
def assertionsAt (atBegin : Bool) (rest : List ℕ) (first last : Finset Assertion) :
    Finset Assertion :=
  (if atBegin then first else ∅) ∪ (if rest.isEmpty then last else ∅)

/-- The loop of `_regexec_partial_std`: the state after it, and whether it went through. -/
def regexecStdFrom (opts : Options) (first last : Finset Assertion) :
    Bool → List ℕ → MatchState → Option (MatchState × Bool)
  | _, [], ms => some (ms, true)
  | atBegin, cp :: buffer, ms => do
    let r ← matchStateAdvance opts ms cp (assertionsAt atBegin buffer first last)
    if r.2 then regexecStdFrom opts first last false buffer r.1 else some (r.1, false)

/-- `_regexec_partial_std`. -/
def regexecPartialStd (opts : Options) (buffer : List ℕ) (first last : Finset Assertion)
    (ms : MatchState) (findPartialMatches : Bool) : Option (MatchState × ℤ) := do
  let r ← regexecStdFrom opts first last true buffer ms
  let aid : ℤ := (pickAccept r.1.accepts).aid
  if !r.2 then some (r.1, aid)
  else if !findPartialMatches && canTransition r.1 && !opts.firstMatch then some (r.1, -1)
  else some (r.1, if aid ≠ 0 then aid else -1)

/-- The loop of `_regexec_partial_min`; the result is there if it returns from within. -/
def regexecMinFrom (opts : Options) (first last : Finset Assertion) :
    Bool → List ℕ → ℕ → MatchState → Option (MatchState × ℕ × Option ℤ)
  | _, [], eo, ms => some (ms, eo, none)
  | atBegin, cp :: buffer, eo, ms => do
    let r ← matchStateAdvanceMin ms cp (assertionsAt atBegin buffer first last)
    if r.2 = 0 then
      some ({ r.1 with offset := eo }, eo, some (if 0 < r.1.acc then r.1.acc else 0))
    else if 0 < r.2 then
      let ms : MatchState := { r.1 with acc := r.2 }
      if opts.firstMatch || !canTransition ms then some (ms, ms.offset, some ms.acc)
      else regexecMinFrom opts first last false buffer ms.offset ms
    else regexecMinFrom opts first last false buffer eo r.1

/-- `_regexec_partial_min`. -/
def regexecPartialMin (opts : Options) (buffer : List ℕ) (first last : Finset Assertion)
    (ms : MatchState) (findPartialMatches : Bool) : Option (MatchState × ℤ) := do
  let r ← regexecMinFrom opts first last true buffer ms.offset ms
  match r.2.2 with
  | some rc => some (r.1, rc)
  | none =>
    let ms : MatchState := { r.1 with offset := r.2.1 }
    if !findPartialMatches && canTransition ms then some (ms, -1) else some (ms, ms.acc)

/-- `jrx_regexec_partial`. -/
def regexecPartial (opts : Options) (buffer : List ℕ) (first last : Finset Assertion)
    (ms : MatchState) (findPartialMatches : Bool) : Option (MatchState × ℤ) :=
  if opts.stdMatcher then regexecPartialStd opts buffer first last ms findPartialMatches
  else regexecPartialMin opts buffer first last ms findPartialMatches

/-- `jrx_reggroups` for the whole match: where it starts and ends. -/
def reggroups (opts : Options) (ms : MatchState) : ℤ × ℤ :=
  if !opts.stdMatcher || opts.noCapture then (0, 0)
  else if ms.accepts = [] then (-1, -1)
  else
    let tags := (pickAccept ms.accepts).tags.getD noTags
    if 1 ≤ opts.maxTag ∧ 0 < tags 0 ∧ 0 < tags 1 then
      ((ms.begin : ℤ) + tags 0 - 1, (ms.begin : ℤ) + tags 1 - 1)
    else (-1, -1)

end Hilti.Justrx
