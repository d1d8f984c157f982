import Hilti.Lib.Scanning
import Hilti.Justrx.Regset

/-!
# The minimal matcher as a scanner

Without assertions the minimal matcher is a scanner whose states are sets of items.  Several matchers
may share a DFA that is computed on demand, so what is known about one of them is what a DFA that has
been added to still satisfies: states that have been computed stay, and the matcher is in one of them.
-/

namespace Hilti.Justrx

open Hilti.Lib

set_option autoImplicit false

/-! ## Computed states stay -/

def Retains (dfa dfa' : Dfa) : Prop :=
  ∀ id s, dfa.slot id = .state s → dfa'.slot id = .state s

section

variable {dfa dfa' dfa'' : Dfa} {id : ℕ} {s : DfaState} {recurse : Bool}

theorem Retains.refl (dfa : Dfa) : Retains dfa dfa :=
  fun _ _ h => h

theorem Retains.trans (h : Retains dfa dfa') (h' : Retains dfa' dfa'') : Retains dfa dfa'' :=
  fun id s hs => h' id s (h id s hs)

theorem Retains.setElems (dfa : Dfa) (id : ℕ) (e : List Elem) : Retains dfa (dfa.setElems id e) :=
  fun _ _ h => h

theorem Retains.setState (h : Retains dfa dfa') (hnull : dfa.slot id = .null) (slot : Slot) :
    Retains dfa (dfa'.setState id slot) := by
  intro k s hs
  rw [slot_setState_ne fun heq => ?_]
  · exact h k s hs
  · rw [heq, hnull] at hs
    cases hs

theorem Retains.findOrReserve (dfa : Dfa) (e : List Elem) :
    Retains dfa (Justrx.findOrReserve dfa e).1 := by
  intro k s hs
  unfold Justrx.findOrReserve
  split
  · exact hs
  · have hlt : k < dfa.states.length := by
      by_contra hge
      rw [Dfa.slot, List.getD_eq_default _ _ (Nat.not_lt.mp hge)] at hs
      cases hs
    change (dfa.states ++ [Slot.null]).getD k .null = .state s
    rw [List.getD_append _ _ _ _ hlt]
    exact hs

theorem computeTransition_retains {compute : Dfa → ℕ → List Elem → Option Dfa} {e : List Elem}
    {acc acc' : Dfa × List DfaTransition} {c : Ccl × ℕ}
    (h : computeTransition compute false e acc c = some acc') : Retains acc.1 acc'.1 := by
  unfold computeTransition at h
  split at h
  · cases h
    exact .refl _
  · dsimp only at h
    split at h
    · cases h
      exact .refl _
    · rw [if_neg Bool.false_ne_true] at h
      split at h
      · cases h
        exact .findOrReserve _ _
      · cases h
        exact (Retains.findOrReserve _ _).trans (.setElems _ _ _)

theorem computeTransitions_retains {compute : Dfa → ℕ → List Elem → Option Dfa} {e : List Elem}
    (l : List (Ccl × ℕ)) : ∀ {acc acc' : Dfa × List DfaTransition},
      l.foldlM (computeTransition compute false e) acc = some acc' → Retains acc.1 acc'.1 := by
  induction l with
  | nil =>
    intro acc acc' h
    cases h
    exact .refl _
  | cons c l ih =>
    intro acc acc' h
    rw [List.foldlM_cons] at h
    obtain ⟨acc₁, h₁, h⟩ := Option.bind_eq_some_iff.mp h
    exact (computeTransition_retains h₁).trans (ih h)

theorem dfaGetState_retains (h : dfaGetState dfa id = some (dfa', s)) :
    Retains dfa dfa' ∧ dfa'.slot id = .state s := by
  unfold dfaGetState at h
  split at h
  · rename_i hslot
    cases h
    exact ⟨.refl _, hslot⟩
  · cases h
  · rename_i hslot
    obtain ⟨e, -, h⟩ := Option.bind_eq_some_iff.mp h
    obtain ⟨dfa₁, hcompute, h⟩ := Option.bind_eq_some_iff.mp h
    rw [dfaStateCompute, if_neg (not_not.mpr hslot)] at hcompute
    obtain ⟨r, hr, hcompute⟩ := Option.bind_eq_some_iff.mp hcompute
    have hretains : Retains dfa r.1 := by
      intro k s hs
      have hne : k ≠ id := by
        intro heq
        rw [heq, hslot] at hs
        cases hs
      apply computeTransitions_retains _ hr
      rw [slot_setState_ne hne]
      exact hs
    cases hcompute
    split at h
    · rename_i hslot'
      cases h
      exact ⟨hretains.setState hslot _, hslot'⟩
    · cases h

theorem findTransition_retains {pass : Ccl → Bool} {o : Option (DfaTransition × DfaState)}
    (h : findTransition pass dfa id = some (dfa', s, o)) :
    Retains dfa dfa' ∧ dfa'.slot id = .state s ∧
      ∀ t succ, o = some (t, succ) → dfa'.slot t.succ = .state succ := by
  obtain ⟨r, hget, h⟩ := Option.bind_eq_some_iff.mp h
  obtain ⟨hretains, hslot⟩ := dfaGetState_retains hget
  split at h
  · cases h
    exact ⟨hretains, hslot, fun _ _ ho => (nomatch ho)⟩
  · obtain ⟨r', hget', h⟩ := Option.bind_eq_some_iff.mp h
    obtain ⟨hretains', hslot'⟩ := dfaGetState_retains hget'
    cases h
    refine ⟨hretains.trans hretains', hretains' _ _ hslot, fun t succ ho => ?_⟩
    cases ho
    exact hslot'

end

def Enlarges (dfa dfa' : Dfa) : Prop :=
  dfa.states.length ≤ dfa'.states.length ∧ dfa'.initial = dfa.initial

section

variable {dfa dfa' dfa'' : Dfa} {id : ℕ} {e : List Elem} {recurse : Bool}

theorem Enlarges.refl (dfa : Dfa) : Enlarges dfa dfa :=
  ⟨le_rfl, rfl⟩

theorem Enlarges.trans (h : Enlarges dfa dfa') (h' : Enlarges dfa' dfa'') : Enlarges dfa dfa'' :=
  ⟨h.1.trans h'.1, h'.2.trans h.2⟩

theorem Enlarges.setState (h : Enlarges dfa dfa') (id : ℕ) (slot : Slot) :
    Enlarges dfa (dfa'.setState id slot) :=
  ⟨h.1.trans (List.length_set).ge, h.2⟩

theorem Enlarges.findOrReserve (dfa : Dfa) (e : List Elem) :
    Enlarges dfa (Justrx.findOrReserve dfa e).1 := by
  unfold Justrx.findOrReserve
  split
  · exact .refl dfa
  · exact ⟨List.length_append.ge.trans' (Nat.le_add_right _ _), rfl⟩

theorem computeTransition_enlarges {compute : Dfa → ℕ → List Elem → Option Dfa}
    (hcompute : ∀ {dfa dfa' id e}, compute dfa id e = some dfa' → Enlarges dfa dfa')
    {acc acc' : Dfa × List DfaTransition} {c : Ccl × ℕ}
    (h : computeTransition compute recurse e acc c = some acc') : Enlarges acc.1 acc'.1 := by
  unfold computeTransition at h
  split at h
  · cases h
    exact .refl _
  · dsimp only at h
    split at h
    · cases h
      exact .refl _
    · split at h
      · obtain ⟨dfa', hdfa, rfl⟩ := Option.map_eq_some_iff.mp h
        exact (Enlarges.findOrReserve _ _).trans (hcompute hdfa)
      · split at h
        all_goals
          cases h
          exact .findOrReserve _ _

theorem computeTransitions_enlarges {compute : Dfa → ℕ → List Elem → Option Dfa}
    (hcompute : ∀ {dfa dfa' id e}, compute dfa id e = some dfa' → Enlarges dfa dfa')
    (l : List (Ccl × ℕ)) : ∀ {acc acc' : Dfa × List DfaTransition},
      l.foldlM (computeTransition compute recurse e) acc = some acc' → Enlarges acc.1 acc'.1 := by
  induction l with
  | nil =>
    intro acc acc' h
    cases h
    exact .refl _
  | cons c l ih =>
    intro acc acc' h
    rw [List.foldlM_cons] at h
    obtain ⟨acc₁, h₁, h⟩ := Option.bind_eq_some_iff.mp h
    exact (computeTransition_enlarges hcompute h₁).trans (ih h)

theorem dfaStateCompute_enlarges (fuel : ℕ) : ∀ {dfa dfa' : Dfa} {id : ℕ} {e : List Elem},
    dfaStateCompute recurse fuel dfa id e = some dfa' → Enlarges dfa dfa' ∧
      (dfa.slot id = .null → id < dfa.states.length → ∃ s, dfa'.slot id = .state s) := by
  induction fuel with
  | zero => exact fun h => (nomatch h)
  | succ fuel ih =>
    intro dfa dfa' id e h
    rw [dfaStateCompute] at h
    split at h
    · rename_i hslot
      cases h
      exact ⟨.refl _, fun hnull => absurd hnull hslot⟩
    · obtain ⟨r, hr, h⟩ := Option.bind_eq_some_iff.mp h
      have henlarges : Enlarges dfa r.1 := ((Enlarges.refl dfa).setState id .sentinel).trans
        (computeTransitions_enlarges (fun h => (ih h).1) _ hr)
      cases h
      exact ⟨henlarges.setState _ _, fun _ hid => ⟨_, slot_setState_self (hid.trans_le henlarges.1) _⟩⟩

theorem dfaFromNfa_computed {lazy : Bool} {fuel : ℕ} {nfa : Nfa}
    (h : dfaFromNfa lazy fuel nfa = some dfa) : ∃ s, dfa.slot dfa.initial = .state s := by
  obtain ⟨g, -, h⟩ := Option.bind_eq_some_iff.mp h
  obtain ⟨henlarges, hslot⟩ := dfaStateCompute_enlarges fuel h
  rw [henlarges.2]
  exact hslot rfl Nat.one_pos

end

/-- A DFA after calls that have added to it. -/
structure Later (dfa dfa' : Dfa) : Prop where
  extends_ : Extends dfa dfa'
  retains : Retains dfa dfa'

theorem Later.refl (dfa : Dfa) : Later dfa dfa :=
  ⟨.refl dfa, .refl dfa⟩

theorem Later.trans {dfa dfa' dfa'' : Dfa} (h : Later dfa dfa') (h' : Later dfa' dfa'') :
    Later dfa dfa'' :=
  ⟨h.extends_.trans h'.extends_, h.retains.trans h'.retains⟩

/-! ## The scanner -/

def Nfa.scanner (nfa : Nfa) (g : Group) (firstMatch : Bool) : Scanner (List Elem) ℕ ℕ where
  step e cp := (specFind nfa g (plain cp).passes e).map fun t => t.2.1
  out e := (acceptsOf nfa e).head?.map DfaAccept.aid
  final e := firstMatch || (specTrans nfa e g.zipIdx).isEmpty

def codeOf (default : ℤ) (best : Option (ℕ × ℕ)) : ℤ :=
  best.elim default fun b => b.1

def stopOf (best : Option (ℕ × ℕ)) : ℕ :=
  best.elim 0 Prod.snd

/-- The minimal interpreter is in the state for a set of items, which has been computed. -/
structure Scans (recurse : Bool) (nfa : Nfa) (g : Group) (ms : MatchState) (e : List Elem) : Prop
    extends LiveMin recurse nfa g ms e where
  computed : ∃ s, ms.state.map ms.dfa.slot = some (.state s)

section

variable {recurse : Bool} {nfa : Nfa} {g : Group} {opts : Options} {ms : MatchState} {e : List Elem}
  {firstMatch : Bool}

theorem Scans.later (h : Scans recurse nfa g ms e) {dfa : Dfa} (hlater : Later ms.dfa dfa)
    (hidle : Idle recurse dfa) : Scans recurse nfa g { ms with dfa := dfa } e where
  idle := hidle
  nfa_eq := hlater.extends_.nfa_eq.trans h.nfa_eq
  ccls_eq := hlater.extends_.ccls_eq.trans h.ccls_eq
  state := by
    obtain ⟨id, hid, he⟩ := h.state
    exact ⟨id, hid, hlater.extends_.get he⟩
  computed := by
    obtain ⟨id, hid, -⟩ := h.state
    obtain ⟨s, hs⟩ := h.computed
    rw [hid, Option.map_some, Option.some.injEq] at hs
    refine ⟨s, ?_⟩
    rw [hid, Option.map_some, hlater.retains id s hs]

theorem Scans.congr (h : Scans recurse nfa g ms e) {ms' : MatchState} (hdfa : ms'.dfa = ms.dfa)
    (hstate : ms'.state = ms.state) : Scans recurse nfa g ms' e where
  idle := hdfa ▸ h.idle
  nfa_eq := hdfa ▸ h.nfa_eq
  ccls_eq := hdfa ▸ h.ccls_eq
  state := by
    rw [hdfa, hstate]
    exact h.state
  computed := by
    rw [hdfa, hstate]
    exact h.computed

theorem Idle.matches {dfa : Dfa} (h : Idle recurse dfa) {id : ℕ} {s : DfaState}
    (he : dfa.hstates[id]? = some e) (hs : dfa.slot id = .state s) : Matches dfa e s := by
  cases h.fine id (List.getElem?_eq_some_iff.mp he).1 with
  | sentinel hslot =>
    rw [hs] at hslot
    cases hslot
  | @state s' e' hslot he' hm =>
    rw [he, Option.some.injEq] at he'
    rw [hs, Slot.state.injEq] at hslot
    subst he' hslot
    exact hm
  | null _ hslot =>
    rw [hs] at hslot
    cases hslot

theorem isEmpty_eq_of_forall₂ {α β : Type} {R : α → β → Prop} {l : List α} {l' : List β}
    (h : List.Forall₂ R l l') : l.isEmpty = l'.isEmpty := by
  cases h with
  | nil => rfl
  | cons _ _ => rfl

theorem canTransition_iff (h : Scans recurse nfa g ms e) :
    canTransition ms = !(specTrans nfa e g.zipIdx).isEmpty := by
  obtain ⟨id, hid, he⟩ := h.state
  obtain ⟨s, hs⟩ := h.computed
  have hslot := hs
  rw [hid, Option.map_some, Option.some.injEq] at hslot
  have htrans := (h.idle.matches he hslot).trans
  rw [h.nfa_eq, h.ccls_eq] at htrans
  rw [canTransition, hs, ← isEmpty_eq_of_forall₂ htrans]

theorem firstAid_eq {s : DfaState} (hs : s.accepts = acceptsOf nfa e) :
    s.firstAid = (nfa.scanner g firstMatch).out e := by
  rw [DfaState.firstAid, hs]
  rfl

/-- The step lemma for `jrx_match_state_advance_min`. -/
theorem matchStateAdvanceMin_scan (firstMatch : Bool) (hP : Partition nfa g) (hfree : nfa.AssertionFree)
    (h : Scans recurse nfa g ms e) (cp : ℕ) (assertions : Finset Assertion) :
    ∃ ms' rc, matchStateAdvanceMin ms cp assertions = some (ms', rc) ∧ Later ms.dfa ms'.dfa ∧
      Idle recurse ms'.dfa ∧ ms'.acc = ms.acc ∧
      (((nfa.scanner g firstMatch).step e cp = none ∧ ms'.offset = ms.offset ∧
          (((nfa.scanner g firstMatch).out e = none ∧ rc = 0) ∨
            ∃ aid, (nfa.scanner g firstMatch).out e = some aid ∧ rc = aid ∧ ms'.state = none)) ∨
        ∃ e', (nfa.scanner g firstMatch).step e cp = some e' ∧ Scans recurse nfa g ms' e' ∧
          ms'.offset = ms.offset + 1 ∧ rc = ((nfa.scanner g firstMatch).out e').elim (-1) (↑)) := by
  obtain ⟨id, hstate, hget⟩ := h.state
  set pass : Ccl → Bool := fun ccl =>
    cclMatchMin ccl cp (if ms.offset = 0 then some ms.previous else none) assertions with hpass
  obtain ⟨dfa', st, o, hfind, hidle, hx, hm, -, hcase⟩ := findTransition_spec h.idle hget pass
  obtain ⟨hretains, -, hcomputed⟩ := findTransition_retains hfind
  rw [h.nfa_eq, h.ccls_eq, specFind_min hP hfree] at hcase
  have hlater : Later ms.dfa dfa' := ⟨hx, hretains⟩
  have hnfa' := hx.nfa_eq.trans h.nfa_eq
  cases hcase with
  | inl hcase =>
    obtain ⟨rfl, hspec⟩ := hcase
    have hnone : (nfa.scanner g firstMatch).step e cp = none := by
      change (specFind nfa g (plain cp).passes e).map _ = none
      rw [hspec, Option.map_none]
    have hacc : st.firstAid = (nfa.scanner g firstMatch).out e :=
      firstAid_eq (by rw [hm.accepts_eq, hnfa'])
    cases haid : (nfa.scanner g firstMatch).out e with
    | none =>
      rw [haid] at hacc
      refine ⟨{ ms with dfa := dfa' }, 0, ?_, hlater, hidle, rfl,
        .inl ⟨hnone, rfl, .inl ⟨rfl, rfl⟩⟩⟩
      simp only [matchStateAdvanceMin, hstate, Option.bind_eq_bind, Option.bind_some, ← hpass, hfind,
        hacc]
    | some aid =>
      rw [haid] at hacc
      refine ⟨{ ms with dfa := dfa', state := none }, aid, ?_, hlater, hidle, rfl,
        .inl ⟨hnone, rfl, .inr ⟨aid, rfl, rfl, rfl⟩⟩⟩
      simp only [matchStateAdvanceMin, hstate, Option.bind_eq_bind, Option.bind_some, ← hpass, hfind,
        hacc]
  | inr hcase =>
    obtain ⟨t, succ, c, rfl, hspec, htc, hmsucc⟩ := hcase
    have hstep : (nfa.scanner g firstMatch).step e cp = some c.2.1 := by
      change (specFind nfa g (plain cp).passes e).map _ = some c.2.1
      rw [hspec, Option.map_some]
    set ms' : MatchState := { ms with
      offset := ms.offset + 1, dfa := dfa', state := some t.succ, previous := cp } with hms'
    have hscans : Scans recurse nfa g ms' c.2.1 :=
      ⟨⟨hidle, hnfa', hx.ccls_eq.trans h.ccls_eq, t.succ, rfl, htc.2.1⟩, succ,
        congrArg some (hcomputed t succ rfl)⟩
    have hacc : succ.firstAid = (nfa.scanner g firstMatch).out c.2.1 :=
      firstAid_eq (by rw [hmsucc.accepts_eq, hnfa'])
    refine ⟨ms', _, ?_, hlater, hidle, rfl, .inr ⟨c.2.1, hstep, hscans, rfl, rfl⟩⟩
    simp only [matchStateAdvanceMin, hstate, Option.bind_eq_bind, Option.bind_some, ← hpass, hfind,
      hacc]
    cases (nfa.scanner g firstMatch).out c.2.1 with
    | none => rfl
    | some aid => rfl

theorem out_pos (hpos : nfa.PositiveIds) {aid : ℕ}
    (h : (nfa.scanner g firstMatch).out e = some aid) : 0 < aid := by
  obtain ⟨a, ha, rfl⟩ := Option.map_eq_some_iff.mp h
  obtain ⟨x, -, hx⟩ := List.mem_flatMap.mp (List.mem_of_mem_head? ha)
  obtain ⟨acc, hacc, rfl⟩ := List.mem_map.mp hx
  exact hpos x.nid acc hacc

/-- How the loop over a buffer ends, and the scan of it; offsets depend on where an accept is. -/
inductive LoopEnds (recurse : Bool) (nfa : Nfa) (g : Group) (offsetOf : Option (ℕ × ℕ) → ℕ)
    (r : MatchState × ℕ × Option ℤ) : Option (ℕ × ℕ) × Option (List Elem) → Prop where
  | stopped {best : Option (ℕ × ℕ)} : r.2.2 = some (codeOf 0 best) → r.1.offset = offsetOf best →
      LoopEnds recurse nfa g offsetOf r (best, none)
  | running {best : Option (ℕ × ℕ)} {e : List Elem} : r.2.2 = none → Scans recurse nfa g r.1 e →
      r.1.acc = codeOf (-1) best → r.2.1 = offsetOf best →
      LoopEnds recurse nfa g offsetOf r (best, some e)

theorem codeOf_zero (best : Option (ℕ × ℕ)) :
    (if 0 < codeOf (-1) best then codeOf (-1) best else 0) = codeOf 0 best := by
  cases best with
  | none => rfl
  | some b =>
    change (if 0 < (b.1 : ℤ) then (b.1 : ℤ) else 0) = b.1
    split <;> omega

/-- The run lemma: the loop scans the buffer. -/
theorem regexecMinFrom_scan (opts : Options) (hP : Partition nfa g) (hfree : nfa.AssertionFree)
    (hpos : nfa.PositiveIds) (first last : Finset Assertion) (start base : ℕ) (buffer : List ℕ) :
    ∀ (atBegin : Bool) (eo : ℕ) {pos : ℕ} {ms : MatchState} {e : List Elem} {best : Option (ℕ × ℕ)},
      Scans recurse nfa g ms e → base ≤ pos → ms.acc = codeOf (-1) best →
      ms.offset = start + (pos - base) → eo = start + (stopOf best - base) →
      ∃ r, regexecMinFrom opts first last atBegin buffer eo ms = some r ∧ Later ms.dfa r.1.dfa ∧
        Idle recurse r.1.dfa ∧ LoopEnds recurse nfa g (fun best => start + (stopOf best - base)) r
          ((nfa.scanner g opts.firstMatch).scan pos e best buffer) := by
  induction buffer with
  | nil =>
    intro atBegin eo pos ms e best h _ hacc _ heo
    exact ⟨(ms, eo, none), rfl, .refl _, h.idle, .running rfl h hacc heo⟩
  | cons cp buffer ih =>
    intro atBegin eo pos ms e best h hbase hacc hoffset heo
    set assertions := assertionsAt atBegin buffer first last with hassert
    obtain ⟨ms₁, rc, hadv, hlater, hidle, hacc₁, hcase⟩ :=
      matchStateAdvanceMin_scan opts.firstMatch hP hfree h cp assertions
    rw [regexecMinFrom, ← hassert, hadv, Option.bind_eq_bind, Option.bind_some]
    dsimp only
    obtain ⟨hstep, hoffset₁, ⟨hout, rfl⟩ | ⟨aid, hout, rfl, hnone⟩⟩ | ⟨e', hstep, hscans, hoffset₁, rfl⟩ :=
      hcase
    · rw [if_pos rfl, hacc₁, hacc, codeOf_zero, Scanner.scan_cons_none hstep, hout]
      exact ⟨_, rfl, hlater, hidle, .stopped rfl heo⟩
    · have haid : (0 : ℤ) < aid := Int.natCast_pos.mpr (out_pos hpos hout)
      have hjam : canTransition { ms₁ with acc := aid } = false := by
        rw [canTransition, hnone]
        rfl
      rw [if_neg haid.ne', if_pos haid, hjam, Bool.not_false, Bool.or_true, if_pos rfl,
        Scanner.scan_cons_none hstep, hout]
      exact ⟨_, rfl, hlater, hidle, .stopped rfl (hoffset₁.trans hoffset)⟩
    · have hpos₁ : ms₁.offset = start + (pos + 1 - base) := by omega
      cases hout : (nfa.scanner g opts.firstMatch).out e' with
      | none =>
        rw [Option.elim_none, if_neg (by decide), if_neg (by decide),
          Scanner.scan_cons_silent hstep hout]
        obtain ⟨r, hr, hlater', hidle', hends⟩ :=
          ih false eo hscans (by omega) (hacc₁.trans hacc) hpos₁ heo
        exact ⟨r, hr, hlater.trans hlater', hidle', hends⟩
      | some aid =>
        have haid : (0 : ℤ) < aid := Int.natCast_pos.mpr (out_pos hpos hout)
        have hscans' : Scans recurse nfa g { ms₁ with acc := aid } e' := hscans.congr rfl rfl
        rw [Option.elim_some, if_neg haid.ne', if_pos haid, canTransition_iff hscans', Bool.not_not]
        cases hfinal : (nfa.scanner g opts.firstMatch).final e' with
        | true =>
          rw [if_pos (show (opts.firstMatch || (specTrans nfa e' g.zipIdx).isEmpty) = true from hfinal),
            Scanner.scan_cons_final hstep hout hfinal]
          exact ⟨_, rfl, hlater, hidle, .stopped rfl hpos₁⟩
        | false =>
          rw [if_neg (show ¬(opts.firstMatch || (specTrans nfa e' g.zipIdx).isEmpty) = true from
            fun h => Bool.false_ne_true (hfinal.symm.trans h)), Scanner.scan_cons_out hstep hout hfinal]
          have hfound : ({ ms₁ with acc := aid } : MatchState).acc = codeOf (-1) (some (aid, pos + 1)) :=
            rfl
          obtain ⟨r, hr, hlater', hidle', hends⟩ :=
            ih false ms₁.offset hscans' (by omega) hfound hpos₁ hpos₁
          exact ⟨r, hr, hlater.trans hlater', hidle', hends⟩

/-- How the minimal matcher ends with a buffer. -/
inductive BufferEnds (recurse : Bool) (nfa : Nfa) (g : Group) (offsetOf : Option (ℕ × ℕ) → ℕ)
    (findPartialMatches : Bool) (r : MatchState × ℤ) :
    Option (ℕ × ℕ) × Option (List Elem) → Prop where
  | stopped {best : Option (ℕ × ℕ)} : r.2 = codeOf 0 best → r.1.offset = offsetOf best →
      BufferEnds recurse nfa g offsetOf findPartialMatches r (best, none)
  | running {best : Option (ℕ × ℕ)} {e : List Elem} : Scans recurse nfa g r.1 e →
      r.1.acc = codeOf (-1) best → r.1.offset = offsetOf best →
      r.2 = (if !findPartialMatches && !(specTrans nfa e g.zipIdx).isEmpty then -1
        else codeOf (-1) best) →
      BufferEnds recurse nfa g offsetOf findPartialMatches r (best, some e)

theorem regexecPartial_scan (hmin : opts.stdMatcher = false) (hP : Partition nfa g)
    (hfree : nfa.AssertionFree) (hpos : nfa.PositiveIds) (first last : Finset Assertion)
    (findPartialMatches : Bool) (buffer : List ℕ) {pos : ℕ} {best : Option (ℕ × ℕ)}
    (h : Scans recurse nfa g ms e) (hacc : ms.acc = codeOf (-1) best) (hbest : stopOf best ≤ pos) :
    ∃ r, regexecPartial opts buffer first last ms findPartialMatches = some r ∧
      Later ms.dfa r.1.dfa ∧ Idle recurse r.1.dfa ∧
      BufferEnds recurse nfa g (fun best => ms.offset + (stopOf best - pos)) findPartialMatches r
        ((nfa.scanner g opts.firstMatch).scan pos e best buffer) := by
  obtain ⟨r, hr, hlater, hidle, hends⟩ := regexecMinFrom_scan opts hP hfree hpos first last ms.offset
    pos buffer true ms.offset h le_rfl hacc (by omega) (by omega)
  unfold regexecPartial
  rw [hmin, if_neg Bool.false_ne_true, regexecPartialMin, hr, Option.bind_eq_bind, Option.bind_some]
  generalize (nfa.scanner g opts.firstMatch).scan pos e best buffer = f at hends
  cases hends with
  | stopped hrc hoffset =>
    rw [hrc]
    exact ⟨_, rfl, hlater, hidle, .stopped rfl hoffset⟩
  | @running best' e' hrc hscans hacc' heo =>
    rw [hrc]
    have hscans' : Scans recurse nfa g { r.1 with offset := r.2.1 } e' := hscans.congr rfl rfl
    dsimp only
    rw [canTransition_iff hscans']
    split
    · exact ⟨_, rfl, hlater, hidle, .running hscans' hacc' heo (by rw [if_pos ‹_›])⟩
    · exact ⟨_, rfl, hlater, hidle, .running hscans' hacc' heo (by rw [if_neg ‹_›]; exact hacc')⟩

end

/-! ## What the scanner finds -/

section

variable {nfa : Nfa} {g : Group} {firstMatch : Bool} {L : Language ℕ} {Ls : List (Language ℕ)}
  {e : List Elem} {word : List ℕ} {aid : ℕ}

theorem scanner_run (firstMatch : Bool) (hP : Partition nfa g) (hd : nfa.Decides L) (word : List ℕ) : ∀ e,
    ((nfa.scanner g firstMatch).run e word = none ∧ nfa.toNFA.evalFrom (nids e) word = ∅) ∨
      ∃ e', (nfa.scanner g firstMatch).run e word = some e' ∧
        nids e' = nfa.toNFA.evalFrom (nids e) word := by
  induction word with
  | nil => exact fun e => .inr ⟨e, rfl, rfl⟩
  | cons cp word ih =>
    intro e
    have hstep := specFind_step hP hd.orderly hd.tagged (plain cp) (e := e)
      (uniformFrom_of_free hd.free [plain cp] (nids e)).1
    rw [stepSet_of_free hd.free] at hstep
    rw [Scanner.run, NFA.evalFrom_cons]
    change (((specFind nfa g (plain cp).passes e).map _).bind _ = none ∧ _) ∨
      ∃ e', ((specFind nfa g (plain cp).passes e).map _).bind _ = some e' ∧ _
    obtain ⟨hnone, hempty⟩ | ⟨d, hfind, hnids, -⟩ := hstep
    · refine .inl ⟨by rw [hnone]; rfl, ?_⟩
      rw [show nfa.toNFA.stepSet (nids e) cp = ∅ from hempty, evalFrom_empty]
    · rw [hfind, Option.map_some, Option.bind_some]
      have hd := ih d.2.1
      rw [hnids] at hd
      exact hd

theorem scanner_out (h : (nfa.scanner g firstMatch).out e = some aid) :
    ∃ q ∈ nids e, ∃ acc ∈ (nfa.state q).accepts, acc.aid = aid := by
  obtain ⟨a, ha, rfl⟩ := Option.map_eq_some_iff.mp h
  obtain ⟨x, hx, ha⟩ := List.mem_flatMap.mp (List.mem_of_mem_head? ha)
  obtain ⟨acc, hacc, rfl⟩ := List.mem_map.mp ha
  exact ⟨x.nid, ⟨x, hx, rfl⟩, acc, hacc, rfl⟩

theorem exists_scanner_out (g : Group) (firstMatch : Bool) {q : ℕ} (hq : q ∈ nids e) {acc : NfaAccept}
    (hacc : acc ∈ (nfa.state q).accepts) : ∃ aid, (nfa.scanner g firstMatch).out e = some aid := by
  obtain ⟨x, hx, rfl⟩ := hq
  have hmem : (⟨acc.assertions, acc.aid, x.tid,
      (acc.tags.getD []).map fun tag => ⟨x.tid, x.tid, tag.reg⟩⟩ : DfaAccept) ∈ acceptsOf nfa e :=
    List.mem_flatMap.mpr ⟨x, hx, List.mem_map.mpr ⟨acc, hacc, rfl⟩⟩
  obtain ⟨a, rest, heq⟩ := List.exists_cons_of_ne_nil (List.ne_nil_of_mem hmem)
  refine ⟨a.aid, ?_⟩
  change (acceptsOf nfa e).head?.map _ = _
  rw [heq]
  rfl

theorem sorted_of_out (hP : Partition nfa g) (h : nfa.Sorts Ls)
    (hrun : (nfa.scanner g firstMatch).run nfa.initialElems word = some e)
    (hout : (nfa.scanner g firstMatch).out e = some aid) : Sorted Ls aid word := by
  have hstate := scanner_run firstMatch hP h.decides word nfa.initialElems
  rw [nids_initialElems] at hstate
  obtain ⟨hnone, -⟩ | ⟨e', he', hnids⟩ := hstate
  · rw [hrun] at hnone
    cases hnone
  · rw [hrun] at he'
    cases he'
    rw [← h.marks word aid, ← hnids]
    exact scanner_out hout

theorem exists_out_of_mem (firstMatch : Bool) (hP : Partition nfa g) (h : nfa.Sorts Ls) (hword : word ∈ anyOf Ls) :
    ∃ e aid, (nfa.scanner g firstMatch).run nfa.initialElems word = some e ∧
      (nfa.scanner g firstMatch).out e = some aid := by
  obtain ⟨L, hL, hword⟩ := hword
  obtain ⟨k, hk⟩ := List.mem_iff_getElem?.mp hL
  obtain ⟨q, hq, acc, hacc, -⟩ := (h.marks word (k + 1)).mpr ⟨k, L, rfl, hk, hword⟩
  have hstate := scanner_run firstMatch hP h.decides word nfa.initialElems
  rw [nids_initialElems] at hstate
  obtain ⟨-, hempty⟩ | ⟨e, he, hnids⟩ := hstate
  · rw [hempty] at hq
    exact absurd hq (Set.notMem_empty q)
  · rw [← hnids] at hq
    obtain ⟨aid, haid⟩ := exists_scanner_out g firstMatch hq hacc
    exact ⟨e, aid, he, haid⟩

theorem notMem_of_run_none (hP : Partition nfa g) (h : nfa.Sorts Ls)
    (hrun : (nfa.scanner g firstMatch).run nfa.initialElems word = none) (rest : List ℕ) :
    word ++ rest ∉ anyOf Ls := by
  intro hmem
  obtain ⟨e, aid, hsome, -⟩ := exists_out_of_mem firstMatch hP h hmem
  rw [Scanner.run_append, hrun] at hsome
  cases hsome

end

end Hilti.Justrx
