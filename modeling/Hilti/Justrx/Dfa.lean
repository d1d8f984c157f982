import Mathlib.Data.Int.Notation
import Hilti.Justrx.Ccl

/-!
# From an NFA to a DFA

The model of `justrx/src/dfa.c` and of the data types of `nfa.h` and `dfa.h`.  States,
classes and tag groups are numbers; those of tag groups have eight bits.  The id of a
DFA state is its position in `states` and in `hstates`, where every new set of items is
entered at the end.

An NFA that refers to states or classes it does not have is not one that the
constructors of `nfa.c` build: a missing state counts here as one without transitions
and accepts, a missing class as epsilon.

`dfa_state_compute` calls itself for the states it finds when it is to compute all of
them, so it gets fuel for the depth of the recursion.
-/

namespace Hilti.Justrx

set_option autoImplicit false

/-! ## NFAs -/

/-- `jrx_tag`. -/
structure Tag where
  reg : ℤ
  prio : ℤ
  deriving DecidableEq

/-- `jrx_nfa_transition`. -/
structure NfaTransition where
  ccl : ℕ
  succ : ℕ
  tags : Option (List Tag)
  deriving DecidableEq

/-- `jrx_nfa_accept`. -/
structure NfaAccept where
  assertions : Finset Assertion
  aid : ℕ
  tags : Option (List Tag)
  deriving DecidableEq

/-- `jrx_nfa_state`. -/
structure NfaState where
  accepts : List NfaAccept
  trans : List NfaTransition
  deriving DecidableEq

/-- `jrx_nfa` with the classes and states of its context. -/
structure Nfa where
  ccls : Group
  states : List NfaState
  initial : ℕ
  initialTags : Option (List Tag)
  deriving DecidableEq

namespace Nfa

def state (nfa : Nfa) (nid : ℕ) : NfaState :=
  nfa.states.getD nid ⟨[], []⟩

def ccl (nfa : Nfa) (id : ℕ) : Ccl :=
  nfa.ccls.getD id ⟨∅, none⟩

end Nfa

/-! ## DFAs -/

/-- `dfa_state_elem`: an NFA state, and the tag group that its tags are stored in. -/
structure Elem where
  nid : ℕ
  tid : ℕ
  deriving DecidableEq

/-- `_jrx_cmp_dfa_state_elem`. -/
def Elem.Before (a b : Elem) : Prop :=
  a.nid < b.nid ∨ a.nid = b.nid ∧ a.tid < b.tid

instance : DecidableRel Elem.Before := fun a b =>
  inferInstanceAs (Decidable (a.nid < b.nid ∨ a.nid = b.nid ∧ a.tid < b.tid))

/-- `jrx_tag_op`. -/
structure TagOp where
  told : ℕ
  tnew : ℕ
  tag : ℤ
  deriving DecidableEq

/-- `jrx_dfa_transition`. -/
structure DfaTransition where
  ccl : ℕ
  succ : ℕ
  tops : List TagOp
  deriving DecidableEq

/-- `jrx_dfa_accept`. -/
structure DfaAccept where
  finalAssertions : Finset Assertion
  aid : ℕ
  tid : ℕ
  finalOps : List TagOp
  deriving DecidableEq

/-- `jrx_dfa_state`. -/
structure DfaState where
  accepts : List DfaAccept
  trans : List DfaTransition
  deriving DecidableEq

/-- What `states` of a DFA points to: nothing, the sentinel of a state that is being
worked on, or a state. -/
inductive Slot where
  | null
  | sentinel
  | state (s : DfaState)
  deriving DecidableEq

/-- `jrx_dfa`. -/
structure Dfa where
  nfa : Nfa
  ccls : Group
  initial : ℕ
  initialOps : List TagOp
  states : List Slot
  stateElems : List (Option (List Elem))
  hstates : List (List Elem)
  deriving DecidableEq

/-- `reserve_dfastate_id`. -/
def reserveDfastateId (dfa : Dfa) (dstate : List Elem) : Dfa × ℕ :=
  ({ dfa with
      states := dfa.states ++ [.null]
      stateElems := dfa.stateElems ++ [none]
      hstates := dfa.hstates ++ [dstate] },
    dfa.states.length)

/-! ## Transitions -/

/-- `_nid_tag_op`. -/
structure NidTagOp where
  nid : ℕ
  told : ℕ
  tnew : ℕ
  tag : Tag
  deriving DecidableEq

/-- The transitions that the first loop of `transition_with` finds, with the tag group of
the item they leave from. -/
def transitionsWith (nfa : Nfa) (dstate : List Elem) (ccl : Ccl) : List (ℕ × NfaTransition) :=
  dstate.flatMap fun delem =>
    ((nfa.state delem.nid).trans.filter fun trans => doIntersect (nfa.ccl trans.ccl) ccl).map
      fun trans => (delem.tid, trans)

/-- The operations for one of them, which gets tag group `tid`. -/
def nidTagOps (told tid : ℕ) (trans : NfaTransition) : List NidTagOp :=
  match trans.tags with
  | some tags => tags.map fun tag => ⟨trans.succ, told, tid, tag⟩
  | none => [⟨trans.succ, told, tid, ⟨-1, 0⟩⟩]

/-- All of them; `tid` has eight bits and the first one is 1. -/
def numberedOps (found : List (ℕ × NfaTransition)) : List NidTagOp :=
  found.zipIdx.flatMap fun e => nidTagOps e.1.1 ((e.2 + 1) % 256) e.1.2

/-- The tag group with the highest priority among those of an NFA state. -/
def maxTnew (ntops : List NidTagOp) (nid : ℕ) : ℕ :=
  (ntops.foldl (fun best ntop =>
    if ntop.nid = nid ∧ best.1 ≤ ntop.tag.prio then (ntop.tag.prio, ntop.tnew) else best)
    ((-127 : ℤ), 0)).2

/-- The operations of an NFA state that are kept. -/
def keptOps (ntops : List NidTagOp) (nid : ℕ) : List NidTagOp :=
  ntops.filter fun ntop => ntop.nid = nid ∧ ntop.tnew = maxTnew ntops nid

/-- `transition_with`. -/
def transitionWith (nfa : Nfa) (dstate : List Elem) (ccl : Ccl) : List Elem × List TagOp :=
  let found := transitionsWith nfa dstate ccl
  let nstates := found.foldl (fun nstates e => setInsert (· < ·) e.2.succ nstates) []
  let ntops := numberedOps found
  let kept := nstates.flatMap (keptOps ntops)
  (kept.foldl (fun ndstate ntop => setInsert Elem.Before ⟨ntop.nid, ntop.tnew⟩ ndstate) [],
    kept.map fun ntop => ⟨ntop.told, ntop.tnew, ntop.tag.reg⟩)

/-! ## States -/

/-- The accepts of the state for a set of items. -/
def acceptsOf (nfa : Nfa) (dstate : List Elem) : List DfaAccept :=
  dstate.flatMap fun delem => (nfa.state delem.nid).accepts.map fun acc =>
    ⟨acc.assertions, acc.aid, delem.tid,
      (acc.tags.getD []).map fun tag => ⟨delem.tid, delem.tid, tag.reg⟩⟩

def Dfa.slot (dfa : Dfa) (id : ℕ) : Slot :=
  dfa.states.getD id .null

def Dfa.setState (dfa : Dfa) (id : ℕ) (slot : Slot) : Dfa :=
  { dfa with states := dfa.states.set id slot }

def Dfa.setElems (dfa : Dfa) (id : ℕ) (dstate : List Elem) : Dfa :=
  { dfa with stateElems := dfa.stateElems.set id (some dstate) }

/-- The id of a set of items, and whether it had one before. -/
def findOrReserve (dfa : Dfa) (dstate : List Elem) : Dfa × ℕ × Bool :=
  match dfa.hstates.idxOf? dstate with
  | some id => (dfa, id, true)
  | none => ((reserveDfastateId dfa dstate).1, (reserveDfastateId dfa dstate).2, false)

/-- The body of the loop of `dfa_state_compute`; `compute` is its call of itself. -/
def computeTransition (compute : Dfa → ℕ → List Elem → Option Dfa) (recurse : Bool)
    (dstate : List Elem) (acc : Dfa × List DfaTransition) (e : Ccl × ℕ) :
    Option (Dfa × List DfaTransition) :=
  if e.1.isEmpty then some acc
  else
    let r := transitionWith acc.1.nfa dstate e.1
    if r.1 = [] then some acc
    else
      let found := findOrReserve acc.1 r.1
      let transitions := acc.2 ++ [⟨e.2, found.2.1, r.2⟩]
      if recurse then (compute found.1 found.2.1 r.1).map fun dfa => (dfa, transitions)
      else if found.2.2 then some (found.1, transitions)
      else some (found.1.setElems found.2.1 r.1, transitions)

/-- `dfa_state_compute`. -/
def dfaStateCompute (recurse : Bool) : ℕ → Dfa → ℕ → List Elem → Option Dfa
  | 0, _, _, _ => none
  | fuel + 1, dfa, id, dstate =>
    if dfa.slot id ≠ .null then some dfa
    else do
      let r ← dfa.ccls.zipIdx.foldlM
        (computeTransition (dfaStateCompute recurse fuel) recurse dstate)
        (dfa.setState id .sentinel, [])
      some (r.1.setState id (.state ⟨acceptsOf r.1.nfa dstate, r.2⟩))

/-- `dfa_get_state`: a state that has no items recorded, or is being worked on, cannot be
asked for. -/
def dfaGetState (dfa : Dfa) (id : ℕ) : Option (Dfa × DfaState) :=
  match dfa.slot id with
  | .state s => some (dfa, s)
  | .sentinel => none
  | .null => do
    let dstate ← dfa.stateElems.getD id none
    let dfa ← dfaStateCompute false 1 dfa id dstate
    match dfa.slot id with
    | .state s => some (dfa, s)
    | _ => none

/-- The classes of the transitions of an NFA, in the order in which they are looked at. -/
def Nfa.transCcls (nfa : Nfa) : List Ccl :=
  nfa.states.flatMap fun nstate => nstate.trans.map fun trans => nfa.ccl trans.ccl

/-- The group of classes that `dfa_from_nfa` starts with. -/
def usedCcls (nfa : Nfa) : Group :=
  (nfa.transCcls.filter fun ccl => !(ccl.isEmpty || ccl.isEpsilon)).foldl
    (fun group ccl => (groupAddTo group ccl).1) []

/-- `dfa_from_nfa`. -/
def dfaFromNfa (lazy : Bool) (fuel : ℕ) (nfa : Nfa) : Option Dfa := do
  let ccls ← groupDisambiguate fuel (usedCcls nfa)
  let initial : List Elem := [⟨nfa.initial, 0⟩]
  let initialOps : List TagOp := (nfa.initialTags.getD []).map fun tag => ⟨0, 0, tag.reg⟩
  let r := reserveDfastateId ⟨nfa, ccls, 0, initialOps, [], [], []⟩ initial
  dfaStateCompute (!lazy) fuel r.1 r.2 initial

end Hilti.Justrx
