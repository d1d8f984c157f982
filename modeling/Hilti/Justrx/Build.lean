import Hilti.Justrx.Dfa
import Hilti.Justrx.Negate

/-!
# Building NFAs

The model of the constructors of `justrx/src/nfa.c`, and of `re-parse.y` for patterns that have been
parsed.  What the constructors return refers to states by their ids; the states are in a context that
every constructor changes.  An `Option` has no value where the source follows a null pointer or
reports an error, and where the fuel for the depth of a recursion runs out.

Numbers of groups and tags have no bound here, and contexts are not freed.
-/

namespace Hilti.Justrx

set_option autoImplicit false

/-! ## Contexts -/

/-- `jrx_nfa_context`; of the options it has the one that patterns are built by. -/
structure NfaContext where
  dontAnchor : Bool
  nmatch : ℕ
  maxTag : ℤ
  maxCapture : ℕ
  maxAccept : ℕ
  ccls : CclGroup
  states : List NfaState

/-- `jrx_nfa` without its context. -/
structure Fragment where
  initial : ℕ
  final : ℕ
  initialTags : Option (List Tag)
  deriving DecidableEq

/-- `nfa_context_create`. -/
def nfaContextCreate (dontAnchor : Bool) (nmatch : ℤ) : NfaContext :=
  ⟨dontAnchor, if 0 ≤ nmatch then nmatch.toNat else 127, -1, 0, 0, .create, []⟩

def NfaContext.state (ctx : NfaContext) (id : ℕ) : NfaState :=
  ctx.states.getD id ⟨[], []⟩

def NfaContext.ccl (ctx : NfaContext) (id : ℕ) : Ccl :=
  ctx.ccls.ccls.getD id ⟨∅, none⟩

/-- What changes a context and may fail. -/
abbrev Make (α : Type) := StateT NfaContext Option α

/-- A function of the group of classes, as one of the context. -/
def onCcls (f : CclGroup → Option (CclGroup × ℕ)) : Make ℕ :=
  fun ctx => (f ctx.ccls).map fun r => (r.2, { ctx with ccls := r.1 })

/-- `ccl_epsilon`. -/
def cclEpsilon : Make ℕ :=
  onCcls fun group => group.fromStdCcl .epsilon

/-- `_nfa_state_create`. -/
def nfaStateCreate : Make ℕ :=
  fun ctx => some (ctx.states.length, { ctx with states := ctx.states ++ [⟨[], []⟩] })

def nfaStateModify (id : ℕ) (f : NfaState → NfaState) : Make Unit :=
  modify fun ctx => { ctx with states := ctx.states.modify id f }

/-- `_nfa_state_add_trans`. -/
def nfaStateAddTrans (state succ : ℕ) (tags : Option (List Tag)) (ccl : ℕ) : Make Unit :=
  nfaStateModify state fun s => { s with trans := s.trans ++ [⟨ccl, succ, tags⟩] }

/-! ## Copies -/

/-- `_nfa_state_deep_copy`; `copies` has the copies made so far. -/
def nfaStateDeepCopy : ℕ → ℕ → (ℕ → Option ℕ) → Make (ℕ × (ℕ → Option ℕ))
  | 0, _, _ => fun _ => none
  | fuel + 1, state, copies =>
    match copies state with
    | some copy => pure (copy, copies)
    | none => do
      let old := (← get).state state
      let copy ← nfaStateCreate
      nfaStateModify copy fun s => { s with accepts := old.accepts }
      let copies ← old.trans.foldlM (fun copies trans => do
        let r ← nfaStateDeepCopy fuel trans.succ copies
        nfaStateModify copy fun s => { s with trans := s.trans ++ [{ trans with succ := r.1 }] }
        pure r.2) (Function.update copies state (some copy))
      pure (copy, copies)

/-- `_nfa_deep_copy`. -/
def nfaDeepCopy (nfa : Fragment) : Make Fragment := do
  let fuel := (← get).states.length + 1
  let ninitial ← nfaStateDeepCopy fuel nfa.initial fun _ => none
  let nfinal ← nfaStateDeepCopy fuel nfa.final ninitial.2
  pure ⟨ninitial.1, nfinal.1, nfa.initialTags⟩

/-! ## Constructors -/

/-- `nfa_empty`. -/
def nfaEmpty : Make Fragment := do
  let s ← nfaStateCreate
  pure ⟨s, s, none⟩

/-- `nfa_concat`; without a class the two are joined by epsilon. -/
def nfaConcat (nfa1 nfa2 : Fragment) (ccl : Option ℕ) : Make Fragment := do
  let ccl ← match ccl with
    | some ccl => pure ccl
    | none => cclEpsilon
  nfaStateAddTrans nfa1.final nfa2.initial nfa2.initialTags ccl
  pure { nfa1 with final := nfa2.final }

/-- `nfa_from_ccl`. -/
def nfaFromCcl (ccl : ℕ) : Make Fragment := do
  let nfa1 ← nfaEmpty
  let nfa2 ← nfaEmpty
  nfaConcat nfa1 nfa2 (some ccl)

/-- `nfa_alternative`. -/
def nfaAlternative (nfa1 nfa2 : Fragment) : Make Fragment := do
  let eps1 ← nfaStateCreate
  nfaStateAddTrans eps1 nfa1.initial nfa1.initialTags (← cclEpsilon)
  nfaStateAddTrans eps1 nfa2.initial nfa2.initialTags (← cclEpsilon)
  let eps2 ← nfaStateCreate
  nfaStateAddTrans nfa1.final eps2 none (← cclEpsilon)
  nfaStateAddTrans nfa2.final eps2 none (← cclEpsilon)
  pure ⟨eps1, eps2, none⟩

/-- `_jrx_cmp_tag`. -/
def Tag.Before (a b : Tag) : Prop :=
  a.reg < b.reg ∨ a.reg = b.reg ∧ a.prio < b.prio

instance : DecidableRel Tag.Before := fun a b =>
  inferInstanceAs (Decidable (a.reg < b.reg ∨ a.reg = b.reg ∧ a.prio < b.prio))

/-- `set_tag_join`, where a set may not have been created yet. -/
def tagsJoin (tags other : Option (List Tag)) : Option (List Tag) :=
  match other with
  | none => tags
  | some other => some (other.foldl (fun tags tag => setInsert Tag.Before tag tags) (tags.getD []))

/-- `nfa_set_capture`. -/
def nfaSetCapture (nfa : Fragment) (group : ℕ) : Make Fragment := do
  let ctx ← get
  if ctx.nmatch ≤ group then pure nfa
  else
    set { ctx with maxTag := max ctx.maxTag (group * 2 + 1) }
    let eps ← nfaEmpty
    nfaConcat { nfa with initialTags := tagsJoin nfa.initialTags (some [⟨group * 2, -5⟩]) }
      { eps with initialTags := some [⟨group * 2 + 1, 5⟩] } none

/-- `nfa_set_accept`. -/
def nfaSetAccept (nfa : Fragment) (accept : ℕ) : Make Fragment := do
  nfaStateModify nfa.final fun s => { s with accepts := s.accepts ++ [⟨∅, accept, none⟩] }
  modify fun ctx => { ctx with maxAccept := max ctx.maxAccept accept }
  pure nfa

/-! ## Iteration -/

/-- What `all` points to in `nfa_iterate`: nothing, an NFA of its own, or the same as `optional`. -/
inductive All where
  | null
  | own (nfa : Fragment)
  | optional

/-- The loop of `nfa_iterate` for the required repetitions. -/
def requiredLoop (templ : Fragment) : ℕ → Fragment → Make Fragment
  | 0, all => pure all
  | n + 1, all => do
    let copy ← nfaDeepCopy templ
    let all ← nfaConcat all copy none
    requiredLoop templ n all

/-- The loop of `nfa_iterate` for those that are optional; `nfa_concat` changes its first argument,
and with it `optional` where both are the same. -/
def optionalLoop : ℕ → Fragment → All → Make (Fragment × All)
  | 0, optional, all => pure (optional, all)
  | n + 1, optional, .null => optionalLoop n optional .optional
  | n + 1, optional, .own nfa => do
    let copy ← nfaDeepCopy optional
    let nfa ← nfaConcat nfa copy none
    optionalLoop n optional (.own nfa)
  | n + 1, optional, .optional => do
    let copy ← nfaDeepCopy optional
    let optional ← nfaConcat optional copy none
    optionalLoop n optional .optional

def All.nfa (optional : Fragment) : All → Option Fragment
  | .null => none
  | .own nfa => some nfa
  | .optional => some optional

/-- What `nfa_iterate` adds to the required repetitions if there is an upper bound. -/
def iterateBounded (templ : Fragment) (n : ℕ) (all : Option Fragment) : Make (Option Fragment) := do
  let copy ← nfaDeepCopy templ
  let empty ← nfaEmpty
  let optional ← nfaAlternative copy empty
  let r ← optionalLoop n optional (all.elim .null .own)
  pure (r.2.nfa r.1)

/-- What it adds if there is none. -/
def iterateUnbounded (templ : Fragment) (all : Option Fragment) : Make (Option Fragment) := do
  let closure ← nfaDeepCopy templ
  nfaStateAddTrans closure.final closure.initial none (← cclEpsilon)
  match all with
  | some all => some <$> nfaConcat all closure none
  | none => pure (some closure)

/-- What it does in the end if no repetition is required. -/
def iterateNone (all : Option Fragment) : Make (Option Fragment) :=
  match all with
  | none => fun _ => none
  | some all => do
    let empty ← nfaEmpty
    some <$> nfaAlternative all empty

/-- `nfa_iterate`; the NFA may be a null pointer. -/
def nfaIterate (nfa : Fragment) (min max : ℤ) : Make (Option Fragment) := do
  let templ ← nfaDeepCopy nfa
  let min := if min < 0 then 0 else min
  if min = 0 ∧ max = 0 then some <$> nfaEmpty
  else
    let all ← (if 1 < min then some <$> requiredLoop templ (min - 1).toNat nfa else pure none)
    let all ← (if 0 ≤ max then iterateBounded templ (max - min).toNat all
      else iterateUnbounded templ all)
    if min = 0 then iterateNone all else pure all

/-! ## Patterns -/

/-- A pattern as the grammar sees it. -/
inductive Pattern where
  | empty
  | codepoint (cp : UInt32)
  | any
  | ccl (elems : List CclElem)
  | negatedCcl (elems : List CclElem)
  | group (pattern : Pattern)
  | iterate (pattern : Pattern) (min max : ℤ)
  | concat (pattern1 pattern2 : Pattern)
  | asserting (pattern1 : Pattern) (assertions : Finset Assertion) (pattern2 : Pattern)
  | alternative (pattern1 pattern2 : Pattern)

/-- The actions of the grammar; brackets are numbered from left to right. -/
def buildPattern : Pattern → Make Fragment
  | .empty => nfaEmpty
  | .codepoint cp => do nfaFromCcl (← onCcls fun group => some (group.fromRange cp (cp + 1)))
  | .any => do nfaFromCcl (← onCcls fun group => group.fromStdCcl .any)
  | .ccl elems => do nfaFromCcl (← onCcls fun group => group.parseCcl elems)
  | .negatedCcl elems => do
    let ccl ← onCcls fun group => group.parseCcl elems
    nfaFromCcl (← onCcls fun group => group.negate ccl)
  | .group pattern => do
    modify fun ctx => { ctx with maxCapture := ctx.maxCapture + 1 }
    let count := (← get).maxCapture
    let nfa ← buildPattern pattern
    nfaSetCapture nfa count
  | .iterate pattern min max => do
    let nfa ← buildPattern pattern
    if 0 ≤ max ∧ max < min then fun _ => none
    else
      let all ← nfaIterate nfa min max
      match all with
      | none => fun _ => none
      | some all => pure all
  | .concat pattern1 pattern2 => do
    let nfa1 ← buildPattern pattern1
    let nfa2 ← buildPattern pattern2
    nfaConcat nfa1 nfa2 none
  | .asserting pattern1 assertions pattern2 => do
    let nfa1 ← buildPattern pattern1
    let nfa2 ← buildPattern pattern2
    let ccl ← cclEpsilon
    let ccl ← onCcls fun group => group.addAssertions ccl assertions
    nfaConcat nfa1 nfa2 (some ccl)
  | .alternative pattern1 pattern2 => do
    let nfa1 ← buildPattern pattern1
    let nfa2 ← buildPattern pattern2
    nfaAlternative nfa1 nfa2

/-- The rule for `complete_regexp`, without an accept id in the pattern, and what
`_nfa_compile_pattern` does before it removes epsilons. -/
def buildRegexp (pattern : Pattern) : Make Fragment := do
  let nfa ← buildPattern pattern
  let nfa ← nfaSetCapture nfa 0
  let nfa ← (if (← get).dontAnchor then do
      let any ← nfaFromCcl (← onCcls fun group => group.fromStdCcl .any)
      let all ← nfaIterate any 0 (-1)
      match all with
      | none => fun _ => none
      | some all => nfaConcat all nfa none
    else pure nfa)
  nfaSetAccept nfa ((← get).maxAccept + 1)

end Hilti.Justrx
