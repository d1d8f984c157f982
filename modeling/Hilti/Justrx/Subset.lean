import Mathlib.Tactic
import Mathlib.Data.Fintype.List
import Mathlib.Data.Set.Finite.List
import Hilti.Justrx.Classes
import Hilti.Justrx.Dfa

/-!
# The states of a DFA

Whatever the order in which the states of a DFA are computed, the state with id `k` is
the one for the `k`-th set of items entered: its accepts and transitions are those that
the NFA has for the set.  Computing one state keeps this, and so does computing all of
them, which comes to an end since there are only finitely many sets of items.
-/

namespace Hilti.Justrx

set_option autoImplicit false

/-! ## What a state should be -/

def specTrans (nfa : Nfa) (dstate : List Elem) (l : List (Ccl × ℕ)) :
    List (ℕ × List Elem × List TagOp) :=
  l.filterMap fun e =>
    if e.1.isEmpty ∨ (transitionWith nfa dstate e.1).1 = [] then none
    else some (e.2, transitionWith nfa dstate e.1)

def TransMatches (dfa : Dfa) (t : DfaTransition) (e : ℕ × List Elem × List TagOp) : Prop :=
  t.ccl = e.1 ∧ dfa.hstates[t.succ]? = some e.2.1 ∧ t.tops = e.2.2

/-- The state is the one for the set of items. -/
structure Matches (dfa : Dfa) (dstate : List Elem) (s : DfaState) : Prop where
  accepts_eq : s.accepts = acceptsOf dfa.nfa dstate
  trans : List.Forall₂ (TransMatches dfa) s.trans (specTrans dfa.nfa dstate dfa.ccls.zipIdx)

/-- What the table of states may hold for an id.  Only when states are computed on demand
is there one that has not been computed. -/
inductive Fine (recurse : Bool) (dfa : Dfa) (k : ℕ) : Prop
  | sentinel (h : dfa.slot k = .sentinel)
  | state {s : DfaState} {e : List Elem} (h : dfa.slot k = .state s)
      (he : dfa.hstates[k]? = some e) (hm : Matches dfa e s)
  | null {e : List Elem} (hr : recurse = false) (h : dfa.slot k = .null)
      (he : dfa.hstates[k]? = some e) (helems : dfa.stateElems[k]? = some (some e))

structure Table (dfa : Dfa) : Prop where
  states_length : dfa.states.length = dfa.hstates.length
  elems_length : dfa.stateElems.length = dfa.hstates.length
  nodup : dfa.hstates.Nodup

/-- Later on, the sets entered keep their ids. -/
structure Extends (dfa dfa' : Dfa) : Prop where
  nfa_eq : dfa'.nfa = dfa.nfa
  ccls_eq : dfa'.ccls = dfa.ccls
  initial_eq : dfa'.initial = dfa.initial
  initialOps_eq : dfa'.initialOps = dfa.initialOps
  hstates : dfa.hstates <+: dfa'.hstates

section

variable {dfa dfa' dfa'' : Dfa} {recurse : Bool}

theorem Extends.refl (dfa : Dfa) : Extends dfa dfa :=
  ⟨rfl, rfl, rfl, rfl, List.prefix_rfl⟩

theorem Extends.trans (h : Extends dfa dfa') (h' : Extends dfa' dfa'') : Extends dfa dfa'' :=
  ⟨h'.nfa_eq.trans h.nfa_eq, h'.ccls_eq.trans h.ccls_eq, h'.initial_eq.trans h.initial_eq,
    h'.initialOps_eq.trans h.initialOps_eq, h.hstates.trans h'.hstates⟩

theorem Extends.get (h : Extends dfa dfa') {k : ℕ} {e : List Elem}
    (he : dfa.hstates[k]? = some e) : dfa'.hstates[k]? = some e := by
  obtain ⟨l, hl⟩ := h.hstates
  rw [← hl, List.getElem?_append_left (List.getElem?_eq_some_iff.mp he).1, he]

theorem Matches.extend {e : List Elem} {s : DfaState} (h : Matches dfa e s) (hx : Extends dfa dfa') :
    Matches dfa' e s := by
  refine ⟨by rw [hx.nfa_eq, h.accepts_eq], ?_⟩
  rw [hx.nfa_eq, hx.ccls_eq]
  exact h.trans.imp fun t c ht => ⟨ht.1, hx.get ht.2.1, ht.2.2⟩

/-! ## Changes of the table -/

theorem slot_setState_self {id : ℕ} (hid : id < dfa.states.length) (slot : Slot) :
    (dfa.setState id slot).slot id = slot := by
  simp [Dfa.slot, Dfa.setState, hid]

theorem slot_setState_ne {id k : ℕ} (hne : k ≠ id) (slot : Slot) :
    (dfa.setState id slot).slot k = dfa.slot k := by
  simp [Dfa.slot, Dfa.setState, List.getElem?_set_ne hne.symm]

theorem extends_setState (dfa : Dfa) (id : ℕ) (slot : Slot) : Extends dfa (dfa.setState id slot) :=
  ⟨rfl, rfl, rfl, rfl, List.prefix_rfl⟩

theorem Table.setState (h : Table dfa) (id : ℕ) (slot : Slot) : Table (dfa.setState id slot) :=
  ⟨by simp [Dfa.setState, h.states_length], h.elems_length, h.nodup⟩

theorem Fine.setState {id k : ℕ} (h : Fine recurse dfa k) (hne : k ≠ id) (slot : Slot) :
    Fine recurse (dfa.setState id slot) k := by
  have hx := extends_setState dfa id slot
  cases h with
  | sentinel h => exact .sentinel (by rw [slot_setState_ne hne, h])
  | state h he hm => exact .state (by rw [slot_setState_ne hne, h]) he (hm.extend hx)
  | null hr h he helems => exact .null hr (by rw [slot_setState_ne hne, h]) he helems

theorem reserve_spec (h : Table dfa) {e : List Elem} (hnew : e ∉ dfa.hstates) :
    Table (reserveDfastateId dfa e).1 ∧ Extends dfa (reserveDfastateId dfa e).1 ∧
      (reserveDfastateId dfa e).2 = dfa.hstates.length ∧
      (reserveDfastateId dfa e).1.hstates = dfa.hstates ++ [e] ∧
      (reserveDfastateId dfa e).1.slot dfa.hstates.length = .null ∧
      ∀ k < dfa.hstates.length, (reserveDfastateId dfa e).1.slot k = dfa.slot k ∧
        (reserveDfastateId dfa e).1.stateElems[k]? = dfa.stateElems[k]? := by
  have hlen := h.states_length
  have helems := h.elems_length
  refine ⟨⟨?_, ?_, ?_⟩, ⟨rfl, rfl, rfl, rfl, List.prefix_append _ _⟩, hlen, rfl, ?_, fun k hk => ⟨?_, ?_⟩⟩
  · simp [reserveDfastateId, hlen]
  · simp [reserveDfastateId, helems]
  · simp only [reserveDfastateId]
    rw [List.nodup_append]
    refine ⟨h.nodup, List.nodup_singleton e, fun a ha b hb heq => ?_⟩
    rw [List.mem_singleton] at hb
    exact hnew (hb ▸ heq ▸ ha)
  · simp [reserveDfastateId, Dfa.slot, ← hlen]
  · simp [reserveDfastateId, Dfa.slot, List.getElem?_append_left (show k < dfa.states.length by omega)]
  · simp [reserveDfastateId, List.getElem?_append_left (show k < dfa.stateElems.length by omega)]

theorem Fine.reserve (h : Table dfa) {e : List Elem} (hnew : e ∉ dfa.hstates) {k : ℕ}
    (hk : k < dfa.hstates.length) (hf : Fine recurse dfa k) :
    Fine recurse (reserveDfastateId dfa e).1 k := by
  obtain ⟨-, hx, -, -, -, hold⟩ := reserve_spec h hnew
  obtain ⟨hslot, helems⟩ := hold k hk
  cases hf with
  | sentinel hs => exact .sentinel (hslot.trans hs)
  | state hs he hm => exact .state (hslot.trans hs) (hx.get he) (hm.extend hx)
  | null hr hs he hel => exact .null hr (hslot.trans hs) (hx.get he) (helems.trans hel)

/-! ## Computing a state -/

/-- What computing a state leads to, where all sets of items are from `U`. -/
structure Result (recurse : Bool) (U : Finset (List Elem)) (dfa dfa' : Dfa) : Prop where
  table : Table dfa'
  fine : ∀ k < dfa'.hstates.length, Fine recurse dfa' k
  mem : ∀ e ∈ dfa'.hstates, e ∈ U
  ext : Extends dfa dfa'
  sentinels : ∀ k < dfa'.hstates.length, dfa'.slot k = .sentinel →
    k < dfa.hstates.length ∧ dfa.slot k = .sentinel

theorem Result.trans {U : Finset (List Elem)} (h : Result recurse U dfa dfa')
    (h' : Result recurse U dfa' dfa'') : Result recurse U dfa dfa'' := by
  refine ⟨h'.table, h'.fine, h'.mem, h.ext.trans h'.ext, fun k hk hs => ?_⟩
  obtain ⟨hk', hs'⟩ := h'.sentinels k hk hs
  exact h.sentinels k hk' hs'

/-- What is known before a state is computed. -/
structure Pending (recurse : Bool) (U : Finset (List Elem)) (dfa : Dfa) (id : ℕ) (e : List Elem) :
    Prop where
  table : Table dfa
  get : dfa.hstates[id]? = some e
  null : dfa.slot id = .null
  fine : ∀ k < dfa.hstates.length, k ≠ id → Fine recurse dfa k
  mem : ∀ e ∈ dfa.hstates, e ∈ U

section

variable {U : Finset (List Elem)} {compute : Dfa → ℕ → List Elem → Option Dfa} {n : ℕ}
  {dstate : List Elem}

theorem findOrReserve_old {e : List Elem} {id : ℕ} (h : Table dfa) (he : dfa.hstates[id]? = some e) :
    findOrReserve dfa e = (dfa, id, true) := by
  obtain ⟨hlt, hget⟩ := List.getElem?_eq_some_iff.mp he
  have hidx : dfa.hstates.idxOf? e = some id := by
    rw [List.idxOf?, List.findIdx?_eq_some_iff_getElem]
    refine ⟨hlt, by simp [hget], fun j hj hje => ?_⟩
    rw [← hget, beq_iff_eq] at hje
    have hinj := h.nodup.getElem_inj_iff.mp hje
    omega
  rw [findOrReserve, hidx]

theorem findOrReserve_new {e : List Elem} (he : e ∉ dfa.hstates) :
    findOrReserve dfa e =
      ((reserveDfastateId dfa e).1, (reserveDfastateId dfa e).2, false) := by
  have hidx : dfa.hstates.idxOf? e = none := by
    rw [List.idxOf?_eq_none_iff]
    exact he
  rw [findOrReserve, hidx]

theorem Pending.reserve {e : List Elem} (htable : Table dfa)
    (hfine : ∀ k < dfa.hstates.length, Fine recurse dfa k) (hmem : ∀ e ∈ dfa.hstates, e ∈ U)
    (heU : e ∈ U) (hnew : e ∉ dfa.hstates) :
    Pending recurse U (reserveDfastateId dfa e).1 dfa.hstates.length e := by
  obtain ⟨htable', -, -, hhs, hnull, -⟩ := reserve_spec htable hnew
  refine ⟨htable', by simp [hhs], hnull, fun k hk hne => ?_, fun x hx => ?_⟩
  · rw [hhs, List.length_append, List.length_singleton] at hk
    exact Fine.reserve htable hnew (by omega) (hfine k (by omega))
  · rw [hhs, List.mem_append, List.mem_singleton] at hx
    rcases hx with hx | rfl
    · exact hmem x hx
    · exact heU

theorem record_spec {e : List Elem} (htable : Table dfa)
    (hfine : ∀ k < dfa.hstates.length, Fine false dfa k) (hmem : ∀ e ∈ dfa.hstates, e ∈ U)
    (heU : e ∈ U) (hnew : e ∉ dfa.hstates) :
    Result false U dfa ((reserveDfastateId dfa e).1.setElems dfa.hstates.length e) ∧
      ((reserveDfastateId dfa e).1.setElems dfa.hstates.length e).hstates[dfa.hstates.length]? =
        some e := by
  set dfa₁ := (reserveDfastateId dfa e).1.setElems dfa.hstates.length e with hdfa₁
  obtain ⟨htable', hx, -, hhs, hnull, hold⟩ := reserve_spec htable hnew
  have hpend := Pending.reserve htable hfine hmem heU hnew
  have hhs₁ : dfa₁.hstates = dfa.hstates ++ [e] := by rw [hdfa₁]; exact hhs
  have hslot : ∀ k, dfa₁.slot k = (reserveDfastateId dfa e).1.slot k := by
    intro k
    rw [hdfa₁]
    rfl
  have hx₁ : Extends (reserveDfastateId dfa e).1 dfa₁ := by
    rw [hdfa₁]
    exact ⟨rfl, rfl, rfl, rfl, List.prefix_rfl⟩
  have hlen : (reserveDfastateId dfa e).1.stateElems.length = dfa.hstates.length + 1 := by
    rw [htable'.elems_length, hhs, List.length_append, List.length_singleton]
  refine ⟨⟨⟨?_, ?_, ?_⟩, fun k hk => ?_, fun x hxm => ?_, hx.trans hx₁, fun k hk hs => ?_⟩, ?_⟩
  · rw [hdfa₁]
    exact htable'.states_length
  · simpa [hdfa₁, Dfa.setElems] using htable'.elems_length
  · rw [hdfa₁]
    exact htable'.nodup
  · rw [hhs₁, List.length_append, List.length_singleton] at hk
    by_cases hne : k = dfa.hstates.length
    · subst hne
      refine .null rfl ((hslot _).trans hnull) (show _ = some e by simp [hhs₁]) ?_
      rw [hdfa₁]
      exact List.getElem?_set_self (by omega)
    · have helems : dfa₁.stateElems[k]? = (reserveDfastateId dfa e).1.stateElems[k]? := by
        rw [hdfa₁]
        exact List.getElem?_set_ne (Ne.symm hne)
      cases hpend.fine k (by rw [hhs, List.length_append, List.length_singleton]; omega) hne with
      | sentinel hs => exact .sentinel ((hslot k).trans hs)
      | state hs he hm => exact .state ((hslot k).trans hs) (hx₁.get he) (hm.extend hx₁)
      | null hr hs he hel => exact .null hr ((hslot k).trans hs) (hx₁.get he) (helems.trans hel)
  · rw [hhs₁, List.mem_append, List.mem_singleton] at hxm
    rcases hxm with hxm | rfl
    · exact hmem x hxm
    · exact heU
  · rw [hhs₁, List.length_append, List.length_singleton] at hk
    rw [hslot] at hs
    by_cases hne : k = dfa.hstates.length
    · subst hne
      rw [hnull] at hs
      cases hs
    · have hk' : k < dfa.hstates.length := by omega
      rw [(hold k hk').1] at hs
      exact ⟨hk', hs⟩
  · simp [hhs₁]

theorem specTrans_append (nfa : Nfa) (e : List Elem) (l : List (Ccl × ℕ)) (c : Ccl × ℕ) :
    specTrans nfa e (l ++ [c]) = specTrans nfa e l ++ specTrans nfa e [c] :=
  List.filterMap_append

theorem specTrans_skip {nfa : Nfa} {e : List Elem} {c : Ccl × ℕ}
    (h : c.1.isEmpty ∨ (transitionWith nfa e c.1).1 = []) : specTrans nfa e [c] = [] := by
  rw [specTrans, List.filterMap_cons, if_pos h]
  rfl

theorem specTrans_take {nfa : Nfa} {e : List Elem} {c : Ccl × ℕ}
    (h : ¬(c.1.isEmpty ∨ (transitionWith nfa e c.1).1 = [])) :
    specTrans nfa e [c] = [(c.2, transitionWith nfa e c.1)] := by
  rw [specTrans, List.filterMap_cons, if_neg h]
  rfl

theorem computeTransition_spec (dfa₀ : Dfa)
    (hU : ∀ c, (transitionWith dfa₀.nfa dstate c).1 ∈ U)
    (hcall : recurse = true → ∀ dfa id e, dfa.nfa = dfa₀.nfa → Pending recurse U dfa id e →
      n < dfa.hstates.length → ∃ dfa', compute dfa id e = some dfa' ∧ Result recurse U dfa dfa')
    (hback : recurse = true → ∀ dfa id e, dfa.slot id ≠ .null → compute dfa id e = some dfa)
    (h : Result recurse U dfa₀ dfa) (hn : n ≤ dfa.hstates.length) {ts : List DfaTransition}
    {l : List (Ccl × ℕ)} (hts : List.Forall₂ (TransMatches dfa) ts (specTrans dfa₀.nfa dstate l))
    (c : Ccl × ℕ) :
    ∃ dfa' ts', computeTransition compute recurse dstate (dfa, ts) c = some (dfa', ts') ∧
      Result recurse U dfa₀ dfa' ∧ dfa.hstates.length ≤ dfa'.hstates.length ∧
      List.Forall₂ (TransMatches dfa') ts' (specTrans dfa₀.nfa dstate (l ++ [c])) := by
  have hnfa : dfa.nfa = dfa₀.nfa := h.ext.nfa_eq
  unfold computeTransition
  simp only [hnfa]
  rw [specTrans_append]
  by_cases hempty : c.1.isEmpty = true
  · refine ⟨dfa, ts, by rw [if_pos hempty], h, le_rfl, ?_⟩
    rwa [specTrans_skip (.inl hempty), List.append_nil]
  rw [if_neg hempty]
  by_cases hnil : (transitionWith dfa₀.nfa dstate c.1).1 = []
  · refine ⟨dfa, ts, by rw [if_pos hnil], h, le_rfl, ?_⟩
    rwa [specTrans_skip (.inr hnil), List.append_nil]
  rw [if_neg hnil, specTrans_take (by simp [hempty, hnil])]
  -- the transition is recorded in any case, and leads to the set of items
  have hfinish : ∀ (dfa' : Dfa) (id : ℕ), Result recurse U dfa dfa' →
      dfa'.hstates[id]? = some (transitionWith dfa₀.nfa dstate c.1).1 →
      Result recurse U dfa₀ dfa' ∧ dfa.hstates.length ≤ dfa'.hstates.length ∧
      List.Forall₂ (TransMatches dfa') (ts ++ [⟨c.2, id, (transitionWith dfa₀.nfa dstate c.1).2⟩])
        (specTrans dfa₀.nfa dstate l ++ [(c.2, transitionWith dfa₀.nfa dstate c.1)]) := by
    intro dfa' id hres hget
    refine ⟨h.trans hres, hres.ext.hstates.length_le, List.rel_append ?_ (.cons ⟨rfl, hget, rfl⟩ .nil)⟩
    exact hts.imp fun t x ht => ⟨ht.1, hres.ext.get ht.2.1, ht.2.2⟩
  have hself : Result recurse U dfa dfa :=
    ⟨h.table, h.fine, h.mem, Extends.refl dfa, fun k hk hs => ⟨hk, hs⟩⟩
  by_cases hold : (transitionWith dfa₀.nfa dstate c.1).1 ∈ dfa.hstates
  · obtain ⟨id, hid⟩ := List.mem_iff_getElem?.mp hold
    rw [findOrReserve_old h.table hid]
    refine ⟨dfa, _, ?_, hfinish dfa id hself hid⟩
    cases hr : recurse with
    | false => simp
    | true =>
      have hslot : dfa.slot id ≠ .null := by
        cases h.fine id (List.getElem?_eq_some_iff.mp hid).1 with
        | sentinel hs => simp [hs]
        | state hs he hm => simp [hs]
        | null hr' hs he hel => simp [hr] at hr'
      simp [hback hr dfa id _ hslot]
  · rw [findOrReserve_new hold, (reserve_spec h.table hold).2.2.1]
    cases hr : recurse with
    | false =>
      rw [hr] at h hfinish
      obtain ⟨hres, hget⟩ := record_spec h.table h.fine h.mem (hU c.1) hold
      exact ⟨_, _, by simp, hfinish _ _ hres hget⟩
    | true =>
      have hpend := Pending.reserve h.table h.fine h.mem (hU c.1) hold
      have hhs := (reserve_spec h.table hold).2.2.2.1
      have hx := (reserve_spec h.table hold).2.1
      have hkeep := (reserve_spec h.table hold).2.2.2.2
      obtain ⟨dfa', hrun, hres⟩ := hcall hr _ _ _ (hx.nfa_eq.trans hnfa) hpend (by simp [hhs]; omega)
      refine ⟨dfa', _, by simp [hrun], hr ▸ hfinish dfa' _ ?_ (hres.ext.get hpend.get)⟩
      refine ⟨hres.table, hres.fine, hres.mem, hx.trans hres.ext, fun k hk hs => ?_⟩
      obtain ⟨hk', hs'⟩ := hres.sentinels k hk hs
      rw [hhs, List.length_append, List.length_singleton] at hk'
      by_cases hne : k = dfa.hstates.length
      · subst hne
        rw [hkeep.1] at hs'
        cases hs'
      · have hlt : k < dfa.hstates.length := by omega
        exact ⟨hlt, (hkeep.2 k hlt).1 ▸ hs'⟩

theorem computeTransitions_spec (dfa₀ : Dfa)
    (hU : ∀ c, (transitionWith dfa₀.nfa dstate c).1 ∈ U)
    (hcall : recurse = true → ∀ dfa id e, dfa.nfa = dfa₀.nfa → Pending recurse U dfa id e →
      n < dfa.hstates.length → ∃ dfa', compute dfa id e = some dfa' ∧ Result recurse U dfa dfa')
    (hback : recurse = true → ∀ dfa id e, dfa.slot id ≠ .null → compute dfa id e = some dfa)
    (todo : List (Ccl × ℕ)) :
    ∀ (dfa : Dfa) (ts : List DfaTransition) (l : List (Ccl × ℕ)), Result recurse U dfa₀ dfa →
      n ≤ dfa.hstates.length → List.Forall₂ (TransMatches dfa) ts (specTrans dfa₀.nfa dstate l) →
      ∃ dfa' ts', todo.foldlM (computeTransition compute recurse dstate) (dfa, ts) =
          some (dfa', ts') ∧
        Result recurse U dfa₀ dfa' ∧
        List.Forall₂ (TransMatches dfa') ts' (specTrans dfa₀.nfa dstate (l ++ todo)) := by
  induction todo with
  | nil =>
    intro dfa ts l h _ hts
    exact ⟨dfa, ts, rfl, h, by rwa [List.append_nil]⟩
  | cons c todo ih =>
    intro dfa ts l h hn hts
    obtain ⟨dfa₁, ts₁, hstep, h₁, hlen, hts₁⟩ :=
      computeTransition_spec dfa₀ hU hcall hback h hn hts c
    obtain ⟨dfa', ts', hrun, h', hts'⟩ := ih dfa₁ ts₁ (l ++ [c]) h₁ (hn.trans hlen) hts₁
    refine ⟨dfa', ts', ?_, h', ?_⟩
    · rw [List.foldlM_cons, hstep]
      exact hrun
    · rwa [List.append_assoc, List.singleton_append] at hts'

/-- A state that is not there is computed, on demand or with all those that can be reached
from it.  The recursion goes no deeper than there are sets of items left. -/
theorem dfaStateCompute_spec (recurse : Bool) (nfa : Nfa)
    (hU : ∀ e c, (transitionWith nfa e c).1 ∈ U) (fuel : ℕ) :
    ∀ (dfa : Dfa) (id : ℕ) (e : List Elem), dfa.nfa = nfa → Pending recurse U dfa id e →
      0 < fuel → (recurse = true → U.card + 2 ≤ fuel + dfa.hstates.length) →
      ∃ dfa' s, dfaStateCompute recurse fuel dfa id e = some dfa' ∧ Result recurse U dfa dfa' ∧
        dfa'.slot id = .state s := by
  induction fuel with
  | zero =>
    intro dfa id e _ _ hpos
    exact absurd hpos (Nat.lt_irrefl 0)
  | succ fuel ih =>
    intro dfa id e hnfa h _ hfuel
    have hid := (List.getElem?_eq_some_iff.mp h.get).1
    have hlt : id < dfa.states.length := h.table.states_length ▸ hid
    set dfa₀ := dfa.setState id .sentinel with hdfa₀
    have hslot₀ : dfa₀.slot id = .sentinel := slot_setState_self hlt _
    have hres₀ : Result recurse U dfa₀ dfa₀ := by
      refine ⟨h.table.setState id _, fun k hk => ?_, h.mem, Extends.refl _, fun k hk hs => ⟨hk, hs⟩⟩
      by_cases hne : k = id
      · subst hne
        exact .sentinel hslot₀
      · exact (h.fine k hk hne).setState hne _
    -- fewer sets of items are left for the calls of the loop
    have hcard : dfa.hstates.length ≤ U.card := by
      rw [← List.toFinset_card_of_nodup h.table.nodup]
      refine Finset.card_le_card fun x hx => ?_
      exact h.mem x (List.mem_toFinset.mp hx)
    have hcall : recurse = true → ∀ dfa₁ id e, dfa₁.nfa = nfa → Pending recurse U dfa₁ id e →
        dfa.hstates.length < dfa₁.hstates.length →
        ∃ dfa', dfaStateCompute recurse fuel dfa₁ id e = some dfa' ∧ Result recurse U dfa₁ dfa' := by
      intro hr dfa₁ id₁ e₁ hnfa₁ hpend hlen
      have := hfuel hr
      obtain ⟨dfa', s, hrun, hres, -⟩ := ih dfa₁ id₁ e₁ hnfa₁ hpend (by omega) (fun _ => by omega)
      exact ⟨dfa', hrun, hres⟩
    have hback : recurse = true → ∀ dfa id e, Dfa.slot dfa id ≠ .null →
        dfaStateCompute recurse fuel dfa id e = some dfa := by
      intro hr dfa₁ id₁ e₁ hslot
      have := hfuel hr
      obtain ⟨m, rfl⟩ : ∃ m, fuel = m + 1 := ⟨fuel - 1, by omega⟩
      rw [dfaStateCompute, if_pos hslot]
    obtain ⟨dfa₁, ts, hrun, hres₁, hts⟩ := computeTransitions_spec dfa₀
      (fun c => hnfa ▸ hU e c) (hnfa ▸ hcall) hback dfa.ccls.zipIdx dfa₀ [] [] hres₀ le_rfl .nil
    have hget₁ := hres₁.ext.get h.get
    have hid₁ := (List.getElem?_eq_some_iff.mp hget₁).1
    have hlt₁ : id < dfa₁.states.length := hres₁.table.states_length ▸ hid₁
    have hself := slot_setState_self hlt₁ (.state ⟨acceptsOf dfa₁.nfa e, ts⟩)
    have hx : Extends dfa₁ (dfa₁.setState id (.state ⟨acceptsOf dfa₁.nfa e, ts⟩)) :=
      extends_setState _ _ _
    refine ⟨dfa₁.setState id (.state ⟨acceptsOf dfa₁.nfa e, ts⟩), _, ?_, ?_, hself⟩
    · rw [dfaStateCompute, if_neg (by simp [h.null]), hrun]
      rfl
    · refine ⟨hres₁.table.setState id _, fun k hk => ?_, hres₁.mem,
        (extends_setState dfa id .sentinel).trans (hres₁.ext.trans hx), fun k hk hs => ?_⟩
      · by_cases hne : k = id
        · subst hne
          refine .state hself hget₁ ⟨rfl, ?_⟩
          rw [List.nil_append] at hts
          rw [hx.nfa_eq, hx.ccls_eq, hres₁.ext.nfa_eq, hres₁.ext.ccls_eq]
          exact hts
        · exact (hres₁.fine k hk).setState hne _
      · by_cases hne : k = id
        · subst hne
          rw [hself] at hs
          cases hs
        · rw [slot_setState_ne hne] at hs
          obtain ⟨hk', hs'⟩ := hres₁.sentinels k hk hs
          rw [hdfa₀, slot_setState_ne hne] at hs'
          exact ⟨hk', hs'⟩

end

end

/-! ## The sets of items -/

theorem setInsert_nodup {α : Type} [DecidableEq α] (lt : α → α → Prop) [DecidableRel lt] (x : α)
    {s : List α} (h : s.Nodup) : (setInsert lt x s).Nodup := by
  have hperm : ∀ s : List α, (setInsert.bubble lt x s).Perm (x :: s) := by
    intro s
    induction s with
    | nil => exact .refl _
    | cons y s ih =>
      unfold setInsert.bubble
      split
      · exact .refl _
      · exact (ih.cons y).trans (.swap x y s)
  unfold setInsert
  split
  · exact h
  · rename_i hx
    rw [(hperm s).nodup_iff, List.nodup_cons]
    exact ⟨hx, h⟩

theorem insertAll_nodup {α : Type} [DecidableEq α] (lt : α → α → Prop) [DecidableRel lt]
    (l : List α) {s : List α} (h : s.Nodup) :
    (l.foldl (fun s x => setInsert lt x s) s).Nodup := by
  induction l generalizing s with
  | nil => exact h
  | cons x l ih => exact ih (setInsert_nodup lt x h)

section

variable {nfa : Nfa} {e : List Elem} {c : Ccl}

/-- The operations that `transition_with` keeps. -/
def keptBy (nfa : Nfa) (e : List Elem) (c : Ccl) : List NidTagOp :=
  ((transitionsWith nfa e c).foldl (fun nstates t => setInsert (· < ·) t.2.succ nstates) []).flatMap
    (keptOps (numberedOps (transitionsWith nfa e c)))

theorem transitionWith_fst (nfa : Nfa) (e : List Elem) (c : Ccl) :
    (transitionWith nfa e c).1 = ((keptBy nfa e c).map fun o => Elem.mk o.nid o.tnew).foldl
      (fun s x => setInsert Elem.Before x s) [] := by
  rw [List.foldl_map]
  rfl

theorem mem_transitionWith {x : Elem} :
    x ∈ (transitionWith nfa e c).1 ↔ ∃ o ∈ keptBy nfa e c, o.nid = x.nid ∧ o.tnew = x.tid := by
  rw [transitionWith_fst, mem_insertAll]
  simp only [List.not_mem_nil, or_false, List.mem_map]
  constructor
  · rintro ⟨o, ho, rfl⟩
    exact ⟨o, ho, rfl, rfl⟩
  · rintro ⟨o, ho, hnid, htid⟩
    exact ⟨o, ho, by rw [hnid, htid]⟩

theorem transitionWith_nodup (nfa : Nfa) (e : List Elem) (c : Ccl) :
    (transitionWith nfa e c).1.Nodup := by
  rw [transitionWith_fst]
  exact insertAll_nodup _ _ List.nodup_nil

theorem mem_keptBy {o : NidTagOp} : o ∈ keptBy nfa e c ↔
    o ∈ numberedOps (transitionsWith nfa e c) ∧
      (∃ t ∈ transitionsWith nfa e c, t.2.succ = o.nid) ∧
      o.tnew = maxTnew (numberedOps (transitionsWith nfa e c)) o.nid := by
  have hnid : ∀ nid, nid ∈ (transitionsWith nfa e c).foldl
      (fun nstates t => setInsert (· < ·) t.2.succ nstates) [] ↔
      ∃ t ∈ transitionsWith nfa e c, t.2.succ = nid := by
    intro nid
    have hmap := mem_insertAll (· < ·) nid ((transitionsWith nfa e c).map fun t => t.2.succ) []
    rw [List.foldl_map] at hmap
    simpa using hmap
  simp only [keptBy, List.mem_flatMap, keptOps, List.mem_filter, decide_eq_true_eq, hnid]
  constructor
  · rintro ⟨nid, ht, ho, rfl, hmax⟩
    exact ⟨ho, ht, hmax⟩
  · rintro ⟨ho, ht, hmax⟩
    exact ⟨o.nid, ht, ho, rfl, hmax⟩

theorem mem_numberedOps {found : List (ℕ × NfaTransition)} {o : NidTagOp}
    (h : o ∈ numberedOps found) :
    ∃ told t k, (told, t) ∈ found ∧ o.told = told ∧ o.nid = t.succ ∧ o.tnew = (k + 1) % 256 := by
  obtain ⟨⟨⟨told, t⟩, k⟩, hmem, ho⟩ := List.mem_flatMap.mp h
  have hfound : (told, t) ∈ found := List.fst_mem_of_mem_zipIdx hmem
  refine ⟨told, t, k, hfound, ?_⟩
  simp only [nidTagOps] at ho
  split at ho
  · obtain ⟨tag, -, rfl⟩ := List.mem_map.mp ho
    exact ⟨rfl, rfl, rfl⟩
  · rw [List.mem_singleton] at ho
    subst ho
    exact ⟨rfl, rfl, rfl⟩

theorem mem_transitionsWith {told : ℕ} {t : NfaTransition} :
    (told, t) ∈ transitionsWith nfa e c ↔ ∃ x ∈ e, x.tid = told ∧ t ∈ (nfa.state x.nid).trans ∧
      doIntersect (nfa.ccl t.ccl) c = true := by
  simp only [transitionsWith, List.mem_flatMap, List.mem_map, List.mem_filter, Prod.mk.injEq]
  constructor
  · rintro ⟨x, hx, t', ⟨ht, hi⟩, rfl, rfl⟩
    exact ⟨x, hx, rfl, ht, hi⟩
  · rintro ⟨x, hx, rfl, ht, hi⟩
    exact ⟨x, hx, t, ⟨ht, hi⟩, rfl, rfl⟩

end

/-- All transitions of an NFA. -/
def Nfa.allTrans (nfa : Nfa) : List NfaTransition :=
  nfa.states.flatMap NfaState.trans

theorem Nfa.mem_allTrans {nfa : Nfa} {nid : ℕ} {t : NfaTransition} (h : t ∈ (nfa.state nid).trans) :
    t ∈ nfa.allTrans := by
  rw [Nfa.state, List.getD_eq_getElem?_getD] at h
  cases hget : nfa.states[nid]? with
  | none => simp [hget] at h
  | some s =>
    rw [hget] at h
    exact List.mem_flatMap.mpr ⟨s, List.mem_of_getElem? hget, h⟩

def Nfa.items (nfa : Nfa) : Set Elem :=
  { x | (x.nid = nfa.initial ∨ x.nid ∈ nfa.allTrans.map NfaTransition.succ) ∧ x.tid < 256 }

theorem Nfa.items_finite (nfa : Nfa) : nfa.items.Finite := by
  set ids : Finset ℕ := insert nfa.initial (nfa.allTrans.map NfaTransition.succ).toFinset with hids
  refine ((ids ×ˢ Finset.range 256).image fun p => Elem.mk p.1 p.2).finite_toSet.subset ?_
  rintro ⟨nid, tid⟩ ⟨hnid, htid⟩
  rw [Finset.mem_coe, Finset.mem_image]
  refine ⟨(nid, tid), ?_, rfl⟩
  rw [Finset.mem_product, Finset.mem_range, hids, Finset.mem_insert, List.mem_toFinset]
  exact ⟨hnid, htid⟩

theorem nodup_lists_finite {α : Type} [DecidableEq α] {s : Set α} (hs : s.Finite) :
    { l : List α | l.Nodup ∧ ∀ x ∈ l, x ∈ s }.Finite := by
  have : Finite s := hs
  refine ((List.finite_length_le s hs.toFinset.card).image (List.map Subtype.val)).subset ?_
  rintro l ⟨hnodup, hmem⟩
  refine ⟨l.attachWith (· ∈ s) hmem, ?_, ?_⟩
  · rw [Set.mem_ofPred_eq, List.length_attachWith, ← List.toFinset_card_of_nodup hnodup]
    refine Finset.card_le_card fun x hx => ?_
    exact hs.mem_toFinset.mpr (hmem x (List.mem_toFinset.mp hx))
  · exact List.attachWith_map_subtype_val hmem

noncomputable def Nfa.itemSets (nfa : Nfa) : Finset (List Elem) :=
  (nodup_lists_finite nfa.items_finite).toFinset

theorem Nfa.mem_itemSets {nfa : Nfa} {e : List Elem} :
    e ∈ nfa.itemSets ↔ e.Nodup ∧ ∀ x ∈ e, x ∈ nfa.items := by
  rw [Nfa.itemSets, Set.Finite.mem_toFinset, Set.mem_ofPred_eq]

theorem transitionWith_mem_itemSets (nfa : Nfa) (e : List Elem) (c : Ccl) :
    (transitionWith nfa e c).1 ∈ nfa.itemSets := by
  refine Nfa.mem_itemSets.mpr ⟨transitionWith_nodup nfa e c, fun x hx => ?_⟩
  obtain ⟨o, ho, hnid, htid⟩ := mem_transitionWith.mp hx
  obtain ⟨hops, -, -⟩ := mem_keptBy.mp ho
  obtain ⟨told, t, k, ht, -, hsucc, htnew⟩ := mem_numberedOps hops
  obtain ⟨y, -, -, hty, -⟩ := mem_transitionsWith.mp ht
  refine ⟨.inr (List.mem_map.mpr ⟨t, Nfa.mem_allTrans hty, ?_⟩), ?_⟩
  · rw [← hsucc, hnid]
  · rw [← htid, htnew]
    omega

/-! ## DFAs between two calls -/

/-- No state is being worked on, and every one that is there is the right one. -/
structure Idle (recurse : Bool) (dfa : Dfa) : Prop where
  table : Table dfa
  fine : ∀ k < dfa.hstates.length, Fine recurse dfa k
  mem : ∀ e ∈ dfa.hstates, e ∈ dfa.nfa.itemSets
  settled : ∀ k < dfa.hstates.length, dfa.slot k ≠ .sentinel

section

variable {dfa dfa' : Dfa} {recurse : Bool} {id : ℕ} {e : List Elem}

theorem Result.idle (h : Result recurse dfa.nfa.itemSets dfa dfa')
    (hs : ∀ k < dfa.hstates.length, dfa.slot k ≠ .sentinel) : Idle recurse dfa' := by
  refine ⟨h.table, h.fine, ?_, fun k hk hslot => ?_⟩
  · rw [h.ext.nfa_eq]
    exact h.mem
  · obtain ⟨hk', hslot'⟩ := h.sentinels k hk hslot
    exact hs k hk' hslot'

/-- `dfa_get_state` returns the state for the set of items that the id stands for.  When
all states have been computed before, it changes nothing. -/
theorem dfaGetState_spec (h : Idle recurse dfa) (he : dfa.hstates[id]? = some e) :
    ∃ dfa' s, dfaGetState dfa id = some (dfa', s) ∧ Idle recurse dfa' ∧ Extends dfa dfa' ∧
      Matches dfa' e s ∧ (recurse = true → dfa' = dfa) := by
  have hid := (List.getElem?_eq_some_iff.mp he).1
  cases h.fine id hid with
  | sentinel hslot => exact absurd hslot (h.settled id hid)
  | @state s e' hslot he' hm =>
    rw [he, Option.some.injEq] at he'
    subst he'
    refine ⟨dfa, s, ?_, h, Extends.refl dfa, hm, fun _ => rfl⟩
    rw [dfaGetState, hslot]
  | @null e' hr hslot he' helems =>
    rw [he, Option.some.injEq] at he'
    subst he'
    subst hr
    have hpend : Pending false dfa.nfa.itemSets dfa id e :=
      ⟨h.table, he, hslot, fun k hk _ => h.fine k hk, h.mem⟩
    obtain ⟨dfa', s, hrun, hres, hslot'⟩ := dfaStateCompute_spec false dfa.nfa
      (transitionWith_mem_itemSets dfa.nfa) 1 dfa id e rfl hpend Nat.one_pos (by simp)
    have hidle := hres.idle h.settled
    have hget := hres.ext.get he
    have hid' := (List.getElem?_eq_some_iff.mp hget).1
    refine ⟨dfa', s, ?_, hidle, hres.ext, ?_, by simp⟩
    · simp [dfaGetState, hslot, helems, hrun, hslot']
    · cases hidle.fine id hid' with
      | sentinel hslot₂ => exact absurd hslot₂ (hidle.settled id hid')
      | @state s₂ e₂ hslot₂ he₂ hm₂ =>
        rw [hslot', Slot.state.injEq] at hslot₂
        rw [hget, Option.some.injEq] at he₂
        subst hslot₂ he₂
        exact hm₂
      | null _ hslot₂ => rw [hslot'] at hslot₂; cases hslot₂

end

/-- The set of items that every match starts from. -/
def Nfa.initialElems (nfa : Nfa) : List Elem :=
  [⟨nfa.initial, 0⟩]

theorem Nfa.initialElems_mem_itemSets (nfa : Nfa) : nfa.initialElems ∈ nfa.itemSets := by
  refine Nfa.mem_itemSets.mpr ⟨List.nodup_singleton _, fun x hx => ?_⟩
  rw [Nfa.initialElems, List.mem_singleton] at hx
  subst hx
  exact ⟨.inl rfl, Nat.zero_lt_succ 255⟩

theorem dfaFromNfa_spec (lazy : Bool) {nfa : Nfa} {fuel : ℕ} {g : Group}
    (hg : groupDisambiguate fuel (usedCcls nfa) = some g) (hfuel : nfa.itemSets.card + 1 ≤ fuel) :
    ∃ dfa, dfaFromNfa lazy fuel nfa = some dfa ∧ Idle (!lazy) dfa ∧ dfa.nfa = nfa ∧ dfa.ccls = g ∧
      dfa.hstates[dfa.initial]? = some nfa.initialElems ∧
      dfa.initialOps = (nfa.initialTags.getD []).map fun tag => ⟨0, 0, tag.reg⟩ := by
  set dfa₀ : Dfa := (reserveDfastateId
    ⟨nfa, g, 0, (nfa.initialTags.getD []).map fun tag => ⟨0, 0, tag.reg⟩, [], [], []⟩
    nfa.initialElems).1 with hdfa₀
  have hpend : Pending (!lazy) nfa.itemSets dfa₀ 0 nfa.initialElems := by
    refine ⟨⟨rfl, rfl, List.nodup_singleton _⟩, rfl, rfl, fun k hk hne => ?_, fun e he => ?_⟩
    · have : k < 1 := hk
      omega
    · rw [show dfa₀.hstates = [nfa.initialElems] from rfl, List.mem_singleton] at he
      exact he ▸ nfa.initialElems_mem_itemSets
  obtain ⟨dfa, s, hrun, hres, -⟩ := dfaStateCompute_spec (!lazy) nfa
    (transitionWith_mem_itemSets nfa) fuel dfa₀ 0 nfa.initialElems rfl hpend (by omega)
    (fun _ => by rw [show dfa₀.hstates.length = 1 from rfl]; omega)
  have hres₀ : Result (!lazy) dfa₀.nfa.itemSets dfa₀ dfa := hres
  refine ⟨dfa, ?_, hres₀.idle fun k hk => ?_, hres.ext.nfa_eq, hres.ext.ccls_eq, ?_,
    hres.ext.initialOps_eq⟩
  · rw [dfaFromNfa, hg]
    exact hrun
  · obtain rfl : k = 0 := Nat.lt_one_iff.mp hk
    rw [hpend.null]
    exact Slot.noConfusion
  · rw [hres.ext.initial_eq]
    exact hres.ext.get hpend.get

end Hilti.Justrx
