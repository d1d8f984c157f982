import Hilti.Justrx.Match
import Hilti.Justrx.Subset

/-!
# Walking through a DFA

A matcher visits one state after the other.  What it sees there is determined by the
NFA: it does not matter which states earlier matches have computed, nor whether all of
them were computed beforehand.
-/

namespace Hilti.Justrx

set_option autoImplicit false

/-! ## Walks -/

/-- What there is to see in a state: its items, its accepts, and for each transition the
class, the items it leads to and the operations on tags. -/
structure View where
  elems : Option (List Elem)
  accepts : List DfaAccept
  trans : List (Ccl × Option (List Elem) × List TagOp)

def view (dfa : Dfa) (id : ℕ) (s : DfaState) : View :=
  ⟨dfa.hstates[id]?, s.accepts,
    s.trans.map fun t => (dfa.ccl t.ccl, dfa.hstates[t.succ]?, t.tops)⟩

/-- The states that a matcher visits.  Of each symbol of the input it matters only which
classes it passes; this depends on the interpreter, the character, the one before and the
assertions. -/
def walk : List (Ccl → Bool) → Dfa → ℕ → Option (Dfa × List View)
  | [], dfa, id => do
    let r ← dfaGetState dfa id
    some (r.1, [view r.1 id r.2])
  | pass :: input, dfa, id => do
    let r ← findTransition pass dfa id
    match r.2.2 with
    | none => some (r.1, [view r.1 id r.2.1])
    | some (t, _) => do
      let rest ← walk input r.1 t.succ
      some (rest.1, view r.1 id r.2.1 :: rest.2)

/-- The DFA after a number of walks from the initial state. -/
def walks : List (List (Ccl → Bool)) → Dfa → Option Dfa
  | [], dfa => some dfa
  | input :: inputs, dfa => do
    let r ← walk input dfa dfa.initial
    walks inputs r.1

/-! ## What a walk should be -/

section

variable (nfa : Nfa) (g : Group)

def specView (e : List Elem) : View :=
  ⟨some e, acceptsOf nfa e,
    (specTrans nfa e g.zipIdx).map fun t => (g.getD t.1 ⟨∅, none⟩, some t.2.1, t.2.2)⟩

def specFind (pass : Ccl → Bool) (e : List Elem) : Option (ℕ × List Elem × List TagOp) :=
  (specTrans nfa e g.zipIdx).find? fun t => pass (g.getD t.1 ⟨∅, none⟩)

def specWalk : List (Ccl → Bool) → List Elem → List View
  | [], e => [specView nfa g e]
  | pass :: input, e =>
    match specFind nfa g pass e with
    | none => [specView nfa g e]
    | some t => specView nfa g e :: specWalk input t.2.1

end

section

variable {dfa dfa' : Dfa} {recurse : Bool} {id : ℕ} {e : List Elem} {pass : Ccl → Bool}

theorem Matches.view_eq {s : DfaState} (hm : Matches dfa e s) (he : dfa.hstates[id]? = some e) :
    view dfa id s = specView dfa.nfa dfa.ccls e := by
  have htrans : ∀ (ts : List DfaTransition) (l : List (ℕ × List Elem × List TagOp)),
      List.Forall₂ (TransMatches dfa) ts l →
      (ts.map fun t => (dfa.ccl t.ccl, dfa.hstates[t.succ]?, t.tops)) =
        l.map fun t => (dfa.ccls.getD t.1 ⟨∅, none⟩, some t.2.1, t.2.2) := by
    intro ts l h
    induction h with
    | nil => rfl
    | cons ht _ ih =>
      obtain ⟨hccl, hsucc, htops⟩ := ht
      rw [List.map_cons, List.map_cons, ih, hccl, hsucc, htops]
      rfl
  rw [view, specView, he, hm.accepts_eq, htrans _ _ hm.trans]

theorem find_transMatches {ts : List DfaTransition} {l : List (ℕ × List Elem × List TagOp)}
    (h : List.Forall₂ (TransMatches dfa) ts l) (pass : Ccl → Bool) :
    ((ts.find? fun t => pass (dfa.ccl t.ccl)) = none ∧
      (l.find? fun t => pass (dfa.ccls.getD t.1 ⟨∅, none⟩)) = none) ∨
    ∃ t c, (ts.find? fun t => pass (dfa.ccl t.ccl)) = some t ∧
      (l.find? fun t => pass (dfa.ccls.getD t.1 ⟨∅, none⟩)) = some c ∧ TransMatches dfa t c := by
  induction h with
  | nil => exact .inl ⟨rfl, rfl⟩
  | @cons t c ts l ht _ ih =>
    have hccl : dfa.ccl t.ccl = dfa.ccls.getD c.1 ⟨∅, none⟩ := by rw [ht.1]; rfl
    cases hp : pass (dfa.ccl t.ccl) with
    | true =>
      refine .inr ⟨t, c, ?_, ?_, ht⟩
      · simp only [List.find?_cons, hp]
      · simp only [List.find?_cons, ← hccl, hp]
    | false =>
      simp only [List.find?_cons, ← hccl, hp]
      exact ih

theorem findTransition_spec (h : Idle recurse dfa) (he : dfa.hstates[id]? = some e)
    (pass : Ccl → Bool) :
    ∃ dfa' s o, findTransition pass dfa id = some (dfa', s, o) ∧ Idle recurse dfa' ∧
      Extends dfa dfa' ∧ Matches dfa' e s ∧ (recurse = true → dfa' = dfa) ∧
      ((o = none ∧ specFind dfa.nfa dfa.ccls pass e = none) ∨
        ∃ t succ c, o = some (t, succ) ∧ specFind dfa.nfa dfa.ccls pass e = some c ∧
          TransMatches dfa' t c ∧ Matches dfa' c.2.1 succ) := by
  obtain ⟨dfa₁, s, hget, hidle, hx, hm, hsame⟩ := dfaGetState_spec h he
  have hspec : specFind dfa.nfa dfa.ccls pass e =
      (specTrans dfa₁.nfa e dfa₁.ccls.zipIdx).find? fun t => pass (dfa₁.ccls.getD t.1 ⟨∅, none⟩) := by
    rw [specFind, hx.nfa_eq, hx.ccls_eq]
  obtain ⟨hnone, hnone'⟩ | ⟨t, c, ht, hc, htc⟩ := find_transMatches hm.trans pass
  · refine ⟨dfa₁, s, none, ?_, hidle, hx, hm, hsame, .inl ⟨rfl, hspec.trans hnone'⟩⟩
    simp [findTransition, hget, hnone]
  · obtain ⟨dfa₂, succ, hget₂, hidle₂, hx₂, hm₂, hsame₂⟩ := dfaGetState_spec hidle htc.2.1
    refine ⟨dfa₂, s, some (t, succ), ?_, hidle₂, hx.trans hx₂, hm.extend hx₂, ?_, .inr ?_⟩
    · simp [findTransition, hget, ht, hget₂]
    · intro hr
      exact (hsame₂ hr).trans (hsame hr)
    · exact ⟨t, succ, c, rfl, hspec.trans hc, ⟨htc.1, hx₂.get htc.2.1, htc.2.2⟩, hm₂⟩

theorem walk_spec (input : List (Ccl → Bool)) :
    ∀ (dfa : Dfa) (id : ℕ) (e : List Elem), Idle recurse dfa → dfa.hstates[id]? = some e →
      ∃ dfa', walk input dfa id = some (dfa', specWalk dfa.nfa dfa.ccls input e) ∧
        Idle recurse dfa' ∧ Extends dfa dfa' ∧ (recurse = true → dfa' = dfa) := by
  induction input with
  | nil =>
    intro dfa id e h he
    obtain ⟨dfa', s, hget, hidle, hx, hm, hsame⟩ := dfaGetState_spec h he
    refine ⟨dfa', ?_, hidle, hx, hsame⟩
    simp [walk, hget, specWalk, hm.view_eq (hx.get he), hx.nfa_eq, hx.ccls_eq]
  | cons pass input ih =>
    intro dfa id e h he
    obtain ⟨dfa₁, s, o, hfind, hidle, hx, hm, hsame, hcase⟩ := findTransition_spec h he pass
    have hview : view dfa₁ id s = specView dfa.nfa dfa.ccls e := by
      rw [hm.view_eq (hx.get he), hx.nfa_eq, hx.ccls_eq]
    obtain ⟨rfl, hspec⟩ | ⟨t, succ, c, rfl, hspec, htc, -⟩ := hcase
    · refine ⟨dfa₁, ?_, hidle, hx, hsame⟩
      simp [walk, hfind, specWalk, hspec, hview]
    · obtain ⟨dfa₂, hwalk, hidle₂, hx₂, hsame₂⟩ := ih dfa₁ t.succ c.2.1 hidle htc.2.1
      refine ⟨dfa₂, ?_, hidle₂, hx.trans hx₂, fun hr => (hsame₂ hr).trans (hsame hr)⟩
      simp [walk, hfind, specWalk, hspec, hview, hwalk, hx.nfa_eq, hx.ccls_eq]

theorem walks_spec (inputs : List (List (Ccl → Bool))) :
    ∀ (dfa : Dfa), Idle recurse dfa → dfa.hstates[dfa.initial]? = some e →
      ∃ dfa', walks inputs dfa = some dfa' ∧ Idle recurse dfa' ∧ Extends dfa dfa' := by
  induction inputs with
  | nil =>
    intro dfa h _
    exact ⟨dfa, rfl, h, Extends.refl dfa⟩
  | cons input inputs ih =>
    intro dfa h he
    obtain ⟨dfa₁, hwalk, hidle, hx, -⟩ := walk_spec input dfa dfa.initial e h he
    have he₁ : dfa₁.hstates[dfa₁.initial]? = some e := by
      rw [hx.initial_eq]
      exact hx.get he
    obtain ⟨dfa', hwalks, hidle', hx'⟩ := ih dfa₁ hidle he₁
    refine ⟨dfa', ?_, hidle', hx.trans hx'⟩
    simp [walks, hwalk, hwalks]

end

/-! ## Computing states on demand -/

theorem usedCcls_disambiguate (nfa : Nfa) {fuel : ℕ}
    (hf : 2 * ((usedCcls nfa).length + measure (usedCcls nfa)) + measure (usedCcls nfa) + 1 < fuel) :
    ∃ g, groupDisambiguate fuel (usedCcls nfa) = some g := by
  obtain ⟨g, hg, -, -⟩ := groupDisambiguate_spec (P := fun _ => True)
    (fun _ _ _ _ _ _ _ => trivial) trivial hf
  exact ⟨g, hg⟩

/-- With enough fuel both constructions come to an end, and a matcher sees the same in the
DFA computed on demand, after any number of earlier matches, as in the one computed up
front, which walking through it leaves as it is. -/
theorem lazy_walk_eq_eager_walk (nfa : Nfa) :
    ∃ n, ∀ fuel ≥ n, ∃ onDemand upFront, dfaFromNfa true fuel nfa = some onDemand ∧
      dfaFromNfa false fuel nfa = some upFront ∧
      ∀ (history : List (List (Ccl → Bool))) (input : List (Ccl → Bool)),
        ∃ earlier later views, walks history onDemand = some earlier ∧
          walk input earlier earlier.initial = some (later, views) ∧
          walk input upFront upFront.initial = some (upFront, views) := by
  refine ⟨2 * ((usedCcls nfa).length + measure (usedCcls nfa)) + measure (usedCcls nfa) + 2 +
    nfa.itemSets.card, fun fuel hfuel => ?_⟩
  obtain ⟨g, hg⟩ := usedCcls_disambiguate nfa (show _ < fuel by omega)
  obtain ⟨onDemand, hlazy, hidle, hnfa, hccls, hinit, -⟩ := dfaFromNfa_spec true hg (by omega)
  obtain ⟨upFront, heager, hidle', hnfa', hccls', hinit', -⟩ := dfaFromNfa_spec false hg (by omega)
  refine ⟨onDemand, upFront, hlazy, heager, fun history input => ?_⟩
  obtain ⟨earlier, hwalks, hidle₁, hx⟩ := walks_spec history onDemand hidle hinit
  have hinit₁ : earlier.hstates[earlier.initial]? = some nfa.initialElems := by
    rw [hx.initial_eq]
    exact hx.get hinit
  obtain ⟨later, hwalk, -, -, -⟩ := walk_spec input earlier earlier.initial _ hidle₁ hinit₁
  obtain ⟨upFront₁, hwalk', -, -, hsame⟩ := walk_spec input upFront upFront.initial _ hidle' hinit'
  refine ⟨earlier, later, _, hwalks, hwalk, ?_⟩
  rw [hwalk', hsame rfl, hx.nfa_eq, hx.ccls_eq, hnfa, hccls, hnfa', hccls']

end Hilti.Justrx
