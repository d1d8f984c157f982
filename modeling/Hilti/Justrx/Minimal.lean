import Hilti.Justrx.Compiling

/-!
# The matchers without assertions

What both matchers find in an input if the NFA has no assertions.  The standard matcher looks at the
accepts of the initial state before it reads anything.  The minimal matcher looks at them only when
there is no transition for the first character, so it may miss that nothing at all is a match.
-/

namespace Hilti.Justrx

set_option autoImplicit false

/-! ## Classes without assertions -/

section

variable {nfa : Nfa} {g : Group} {e : List Elem} {ccl : Ccl}

theorem cclMatchAssertions_empty (cp : ℕ) (previous : Option ℕ) (given : Finset Assertion) :
    cclMatchAssertions cp previous given ∅ = true := by
  unfold cclMatchAssertions
  exact decide_eq_true (Finset.empty_subset _)

theorem passes_of_free (h : ccl.assertions = ∅) (s : Symbol) :
    s.passes ccl = true ↔ s.cp ∈ ccl.chars := by
  rw [Symbol.passes, cclMatch_iff, h]
  exact and_iff_right (cclMatchAssertions_empty _ _ _)

theorem cclMatchMin_of_free (h : ccl.assertions = ∅) (cp : ℕ) (previous : Option ℕ)
    (given : Finset Assertion) : cclMatchMin ccl cp previous given = (plain cp).passes ccl := by
  rw [Symbol.passes, cclMatch, cclMatchMin, h]
  cases ccl.ranges with
  | none => rfl
  | some rs =>
    rw [cclMatchAssertions_empty, cclMatchAssertions_empty]
    rfl

theorem Partition.free (hP : Partition nfa g) (hfree : nfa.AssertionFree) {p : Ccl} (hp : p ∈ g) :
    p.assertions = ∅ := by
  obtain ⟨x, hx, hxp, -⟩ := hP.refined.within p hp
  rw [← hxp]
  exact hfree x (usedCcls_subset hx)

theorem specFind_min (hP : Partition nfa g) (hfree : nfa.AssertionFree) (cp : ℕ)
    (previous : Option ℕ) (given : Finset Assertion) :
    specFind nfa g (fun ccl => cclMatchMin ccl cp previous given) e =
      specFind nfa g (plain cp).passes e := by
  unfold specFind
  congr 1
  funext t
  rw [List.getD_eq_getElem?_getD]
  cases hget : g[t.1]? with
  | none => rfl
  | some p => exact cclMatchMin_of_free (hP.free hfree (List.mem_of_getElem? hget)) cp previous given

theorem stepSet_of_free (hfree : nfa.AssertionFree) (S : Set ℕ) (s : Symbol) :
    nfa.machine.stepSet S s = nfa.toNFA.stepSet S s.cp := by
  ext q
  rw [mem_machine_stepSet, NFA.mem_stepSet]
  apply exists_congr
  intro p
  apply and_congr_right
  intro _
  apply exists_congr
  intro t
  apply and_congr_right
  intro ht
  rw [passes_of_free (hfree _ (Nfa.mem_transCcls ht))]

theorem evalFrom_of_free (hfree : nfa.AssertionFree) (word : List Symbol) (S : Set ℕ) :
    nfa.machine.evalFrom S word = nfa.toNFA.evalFrom S (word.map Symbol.cp) := by
  induction word generalizing S with
  | nil => rfl
  | cons s word ih =>
    rw [List.map_cons, NFA.evalFrom_cons, NFA.evalFrom_cons, stepSet_of_free hfree, ih]

theorem uniformFrom_of_free (hfree : nfa.AssertionFree) (word : List Symbol) (S : Set ℕ) :
    nfa.UniformFrom S word := by
  induction word generalizing S with
  | nil => trivial
  | cons s word ih =>
    refine ⟨fun p _ t ht p' _ t' ht' _ _ => ?_, ih _⟩
    rw [hfree _ (Nfa.mem_transCcls ht), hfree _ (Nfa.mem_transCcls ht')]

theorem symbolsFrom_cp (first last : Finset Assertion) (buffer : List ℕ) :
    ∀ (atBegin : Bool) (previous : ℕ),
      (symbolsFrom first last atBegin previous buffer).map Symbol.cp = buffer := by
  induction buffer with
  | nil => exact fun _ _ => rfl
  | cons cp buffer ih =>
    intro atBegin previous
    rw [symbolsFrom, List.map_cons, ih]

theorem exists_prefix_iff {L : Language ℕ} (h : nfa.Decides L) (first last : Finset Assertion)
    (buffer : List ℕ) :
    (∃ word, word <+: symbols first last buffer ∧ nfa.AcceptsFrom { nfa.initial } word) ↔
      ∃ v ∈ L, v <+: buffer := by
  have haccepts : ∀ word : List Symbol, nfa.AcceptsFrom { nfa.initial } word ↔
      word.map Symbol.cp ∈ L := by
    intro word
    rw [← h.language, NFA.accepts_eq_acceptsFrom_start]
    constructor
    · intro hacc
      obtain ⟨q, hq, a, ha, -⟩ := hacc
      rw [evalFrom_of_free h.free] at hq
      exact ⟨q, List.ne_nil_of_mem ha, hq⟩
    · intro hacc
      obtain ⟨q, hne, hq⟩ := hacc
      obtain ⟨a, rest, hrest⟩ := List.exists_cons_of_ne_nil hne
      have ha : a ∈ (nfa.state q).accepts := hrest ▸ List.mem_cons_self
      refine ⟨q, evalFrom_of_free h.free word _ ▸ hq, a, ha, ?_⟩
      rw [h.accepts q a ha]
      exact cclMatchAssertions_empty _ _ _
  have hsymbols : (symbols first last buffer).map Symbol.cp = buffer :=
    symbolsFrom_cp first last buffer true 0
  constructor
  · intro hword
    obtain ⟨word, hpre, hacc⟩ := hword
    exact ⟨_, (haccepts word).mp hacc, hsymbols ▸ hpre.map Symbol.cp⟩
  · intro hv
    obtain ⟨v, hv, hpre⟩ := hv
    refine ⟨(symbols first last buffer).take v.length, List.take_prefix _ _, (haccepts _).mpr ?_⟩
    rw [List.map_take, hsymbols, ← List.prefix_iff_eq_take.mp hpre]
    exact hv

end

/-! ## The minimal interpreter -/

/-- The minimal interpreter is in the state for a set of items. -/
structure LiveMin (recurse : Bool) (nfa : Nfa) (g : Group) (ms : MatchState) (e : List Elem) :
    Prop where
  idle : Idle recurse ms.dfa
  nfa_eq : ms.dfa.nfa = nfa
  ccls_eq : ms.dfa.ccls = g
  state : ∃ id, ms.state = some id ∧ ms.dfa.hstates[id]? = some e

section

variable {recurse : Bool} {nfa : Nfa} {g : Group} {opts : Options} {ms : MatchState} {e : List Elem}

theorem firstAid_spec (hpos : nfa.PositiveIds) {s : DfaState} (hs : s.accepts = acceptsOf nfa e) :
    (s.firstAid = none ∧ [] ∉ nfa.toNFA.acceptsFrom (nids e)) ∨
      ∃ aid, s.firstAid = some aid ∧ 0 < aid ∧ [] ∈ nfa.toNFA.acceptsFrom (nids e) := by
  have hnil : [] ∈ nfa.toNFA.acceptsFrom (nids e) ↔ acceptsOf nfa e ≠ [] := by
    rw [NFA.nil_mem_acceptsFrom]
    constructor
    · intro h
      obtain ⟨q, ⟨x, hx, rfl⟩, hne⟩ := h
      obtain ⟨a, ha⟩ := List.exists_mem_of_ne_nil _ hne
      exact List.ne_nil_of_mem (List.mem_flatMap.mpr ⟨x, hx, List.mem_map.mpr ⟨a, ha, rfl⟩⟩)
    · intro h
      obtain ⟨a, ha⟩ := List.exists_mem_of_ne_nil _ h
      obtain ⟨x, hx, ha⟩ := List.mem_flatMap.mp ha
      obtain ⟨a', ha', -⟩ := List.mem_map.mp ha
      exact ⟨x.nid, ⟨x, hx, rfl⟩, List.ne_nil_of_mem ha'⟩
  rw [hnil, DfaState.firstAid, hs]
  cases hacc : acceptsOf nfa e with
  | nil => exact .inl ⟨rfl, not_not.mpr rfl⟩
  | cons a rest =>
    refine .inr ⟨a.aid, rfl, ?_, List.cons_ne_nil _ _⟩
    have ha : a ∈ acceptsOf nfa e := hacc ▸ List.mem_cons_self
    obtain ⟨x, -, ha⟩ := List.mem_flatMap.mp ha
    obtain ⟨a', ha', rfl⟩ := List.mem_map.mp ha
    exact hpos x.nid a' ha'

/-- The step lemma for `jrx_match_state_advance_min`. -/
theorem matchStateAdvanceMin_spec (hP : Partition nfa g) {L : Language ℕ} (hd : nfa.Decides L)
    (h : LiveMin recurse nfa g ms e) (cp : ℕ) (assertions : Finset Assertion) :
    ∃ ms' rc, matchStateAdvanceMin ms cp assertions = some (ms', rc) ∧ ms'.acc = ms.acc ∧
      ((nfa.toNFA.stepSet (nids e) cp = ∅ ∧
          ((rc = 0 ∧ [] ∉ nfa.toNFA.acceptsFrom (nids e)) ∨
            (0 < rc ∧ ms'.state = none ∧ [] ∈ nfa.toNFA.acceptsFrom (nids e)))) ∨
        ∃ e', LiveMin recurse nfa g ms' e' ∧ nids e' = nfa.toNFA.stepSet (nids e) cp ∧
          (nids e').Nonempty ∧ ((rc = -1 ∧ [] ∉ nfa.toNFA.acceptsFrom (nids e')) ∨
            (0 < rc ∧ [] ∈ nfa.toNFA.acceptsFrom (nids e')))) := by
  obtain ⟨id, hstate, hget⟩ := h.state
  set pass : Ccl → Bool := fun ccl =>
    cclMatchMin ccl cp (if ms.offset = 0 then some ms.previous else none) assertions with hpass
  obtain ⟨dfa', st, o, hfind, hidle, hx, hm, -, hcase⟩ := findTransition_spec h.idle hget pass
  rw [h.nfa_eq, h.ccls_eq, specFind_min hP hd.free] at hcase
  have hstep := specFind_step hP hd.orderly hd.tagged (plain cp) (e := e)
    (uniformFrom_of_free hd.free [plain cp] (nids e)).1
  rw [stepSet_of_free hd.free] at hstep
  have hnfa' := hx.nfa_eq.trans h.nfa_eq
  cases hcase with
  | inl hcase =>
    obtain ⟨rfl, hspec⟩ := hcase
    rw [hspec] at hstep
    have hempty : nfa.toNFA.stepSet (nids e) cp = ∅ := by
      cases hstep with
      | inl hstep => exact hstep.2
      | inr hstep =>
        obtain ⟨d, hd, -⟩ := hstep
        cases hd
    have hacc : st.accepts = acceptsOf nfa e := by rw [hm.accepts_eq, hnfa']
    cases firstAid_spec hd.positive hacc with
    | inl hnone =>
      refine ⟨{ ms with dfa := dfa' }, 0, ?_, rfl, .inl ⟨hempty, .inl ⟨rfl, hnone.2⟩⟩⟩
      simp only [matchStateAdvanceMin, hstate, Option.bind_eq_bind, Option.bind_some, ← hpass, hfind,
        hnone.1]
    | inr hsome =>
      obtain ⟨aid, haid, hpos, hnil⟩ := hsome
      refine ⟨{ ms with dfa := dfa', state := none }, aid, ?_, rfl,
        .inl ⟨hempty, .inr ⟨Int.natCast_pos.mpr hpos, rfl, hnil⟩⟩⟩
      simp only [matchStateAdvanceMin, hstate, Option.bind_eq_bind, Option.bind_some, ← hpass, hfind,
        haid]
  | inr hcase =>
    obtain ⟨t, succ, c, rfl, hspec, htc, hmsucc⟩ := hcase
    rw [hspec] at hstep
    cases hstep with
    | inl hstep => cases hstep.1
    | inr hstep =>
      obtain ⟨d, hd', hnids, hne⟩ := hstep
      cases hd'
      set ms' : MatchState := { ms with
        offset := ms.offset + 1, dfa := dfa', state := some t.succ, previous := cp } with hms'
      have hlive : LiveMin recurse nfa g ms' c.2.1 :=
        ⟨hidle, hnfa', hx.ccls_eq.trans h.ccls_eq, t.succ, rfl, htc.2.1⟩
      have hacc : succ.accepts = acceptsOf nfa c.2.1 := by rw [hmsucc.accepts_eq, hnfa']
      cases firstAid_spec hd.positive hacc with
      | inl hnone =>
        refine ⟨ms', -1, ?_, rfl, .inr ⟨c.2.1, hlive, hnids, hnids ▸ hne, .inl ⟨rfl, hnone.2⟩⟩⟩
        simp only [matchStateAdvanceMin, hstate, Option.bind_eq_bind, Option.bind_some, ← hpass,
          hfind, hnone.1]
        rfl
      | inr hsome =>
        obtain ⟨aid, haid, hpos, hnil⟩ := hsome
        refine ⟨ms', aid, ?_, rfl, .inr ⟨c.2.1, hlive, hnids, hnids ▸ hne,
          .inr ⟨Int.natCast_pos.mpr hpos, hnil⟩⟩⟩
        simp only [matchStateAdvanceMin, hstate, Option.bind_eq_bind, Option.bind_some, ← hpass,
          hfind, haid]
        rfl

/-- What the minimal matcher finds from some states: a prefix that is not empty, or nothing at all if
the first character leads nowhere. -/
def Nfa.FindsMin (nfa : Nfa) (S : Set ℕ) (buffer : List ℕ) : Prop :=
  (∃ v, v ≠ [] ∧ v <+: buffer ∧ v ∈ nfa.toNFA.acceptsFrom S) ∨
    ∃ cp rest, buffer = cp :: rest ∧ [] ∈ nfa.toNFA.acceptsFrom S ∧ nfa.toNFA.stepSet S cp = ∅

theorem not_findsMin_nil (S : Set ℕ) : ¬nfa.FindsMin S [] := by
  intro h
  cases h with
  | inl h =>
    obtain ⟨v, hne, hpre, -⟩ := h
    exact hne (List.prefix_nil.mp hpre)
  | inr h =>
    obtain ⟨cp, rest, heq, -⟩ := h
    cases heq

theorem findsMin_cons_of_empty {S : Set ℕ} {cp : ℕ} {buffer : List ℕ}
    (h : nfa.toNFA.stepSet S cp = ∅) :
    nfa.FindsMin S (cp :: buffer) ↔ [] ∈ nfa.toNFA.acceptsFrom S := by
  constructor
  · intro hfinds
    cases hfinds with
    | inl hfinds =>
      obtain ⟨v, hne, hpre, hv⟩ := hfinds
      cases List.prefix_cons_iff.mp hpre with
      | inl hnil => exact absurd hnil hne
      | inr hcons =>
        obtain ⟨v', rfl, -⟩ := hcons
        rw [NFA.cons_mem_acceptsFrom, h] at hv
        obtain ⟨q, -, hq⟩ := hv
        rw [evalFrom_empty] at hq
        exact absurd hq (Set.notMem_empty q)
    | inr hfinds =>
      obtain ⟨cp', rest, -, hnil, -⟩ := hfinds
      exact hnil
  · exact fun hnil => .inr ⟨cp, buffer, rfl, hnil, h⟩

theorem findsMin_cons_of_accept {S : Set ℕ} {cp : ℕ} (buffer : List ℕ)
    (h : [] ∈ nfa.toNFA.acceptsFrom (nfa.toNFA.stepSet S cp)) : nfa.FindsMin S (cp :: buffer) :=
  .inl ⟨[cp], List.cons_ne_nil _ _, List.prefix_cons_iff.mpr (.inr ⟨[], rfl, List.nil_prefix⟩),
    (NFA.cons_mem_acceptsFrom _).mpr h⟩

theorem findsMin_cons_of_not_accept {S : Set ℕ} {cp : ℕ} {buffer : List ℕ}
    (hne : (nfa.toNFA.stepSet S cp).Nonempty)
    (h : [] ∉ nfa.toNFA.acceptsFrom (nfa.toNFA.stepSet S cp)) :
    nfa.FindsMin S (cp :: buffer) ↔ nfa.FindsMin (nfa.toNFA.stepSet S cp) buffer := by
  constructor
  · intro hfinds
    cases hfinds with
    | inl hfinds =>
      obtain ⟨v, hnil, hpre, hv⟩ := hfinds
      cases List.prefix_cons_iff.mp hpre with
      | inl heq => exact absurd heq hnil
      | inr hcons =>
        obtain ⟨v', rfl, hpre'⟩ := hcons
        rw [NFA.cons_mem_acceptsFrom] at hv
        have hv' : v' ≠ [] := by
          intro heq
          subst heq
          exact h hv
        exact .inl ⟨v', hv', hpre', hv⟩
    | inr hfinds =>
      obtain ⟨cp', rest, heq, -, hempty⟩ := hfinds
      cases heq
      exact absurd hempty hne.ne_empty
  · intro hfinds
    cases hfinds with
    | inl hfinds =>
      obtain ⟨v, hnil, hpre, hv⟩ := hfinds
      exact .inl ⟨cp :: v, List.cons_ne_nil _ _, List.prefix_cons_iff.mpr (.inr ⟨v, rfl, hpre⟩),
        (NFA.cons_mem_acceptsFrom _).mpr hv⟩
    | inr hfinds =>
      obtain ⟨cp', rest, -, hnil, -⟩ := hfinds
      exact absurd hnil h

theorem regexecMinFrom_spec (opts : Options) (hP : Partition nfa g) {L : Language ℕ}
    (hd : nfa.Decides L) (first last : Finset Assertion) (buffer : List ℕ) :
    ∀ (atBegin : Bool) (eo : ℕ) (ms : MatchState) (e : List Elem), LiveMin recurse nfa g ms e →
      ∃ r, regexecMinFrom opts first last atBegin buffer eo ms = some r ∧
        (0 < r.2.2.getD r.1.acc ↔ 0 < ms.acc ∨ nfa.FindsMin (nids e) buffer) := by
  induction buffer with
  | nil =>
    intro atBegin eo ms e _
    exact ⟨(ms, eo, none), rfl, (or_iff_left (not_findsMin_nil _)).symm⟩
  | cons cp buffer ih =>
    intro atBegin eo ms e h
    set assertions := assertionsAt atBegin buffer first last with hassert
    obtain ⟨ms₁, rc, hadv, hacc, hcase⟩ := matchStateAdvanceMin_spec hP hd h cp assertions
    rw [regexecMinFrom, ← hassert, hadv, Option.bind_eq_bind, Option.bind_some]
    dsimp only
    cases hcase with
    | inl hcase =>
      obtain ⟨hempty, hcase⟩ := hcase
      rw [findsMin_cons_of_empty hempty]
      cases hcase with
      | inl hcase =>
        obtain ⟨rfl, hnil⟩ := hcase
        rw [if_pos rfl]
        refine ⟨_, rfl, ?_⟩
        rw [or_iff_left hnil, Option.getD_some, hacc]
        split
        · exact .rfl
        · exact iff_of_false (lt_irrefl 0) ‹_›
      | inr hcase =>
        obtain ⟨hpos, hnone, hnil⟩ := hcase
        have hjam : canTransition { ms₁ with acc := rc } = false := by
          rw [canTransition, hnone]
          rfl
        rw [if_neg hpos.ne', if_pos hpos, hjam, Bool.not_false, Bool.or_true, if_pos rfl]
        exact ⟨_, rfl, iff_of_true hpos (.inr hnil)⟩
    | inr hcase =>
      obtain ⟨e', hlive, hnids, hne, hcase⟩ := hcase
      rw [hnids] at hne hcase
      cases hcase with
      | inl hcase =>
        obtain ⟨rfl, hnil⟩ := hcase
        rw [if_neg (by decide), if_neg (by decide), findsMin_cons_of_not_accept hne hnil, ← hnids,
          ← hacc]
        exact ih false eo ms₁ e' hlive
      | inr hcase =>
        obtain ⟨hpos, hnil⟩ := hcase
        have hfinds := findsMin_cons_of_accept buffer hnil
        rw [if_neg hpos.ne', if_pos hpos]
        split
        · exact ⟨_, rfl, iff_of_true hpos (.inr hfinds)⟩
        · obtain ⟨r, hr, hiff⟩ := ih false ms₁.offset { ms₁ with acc := rc } e'
            ⟨hlive.idle, hlive.nfa_eq, hlive.ccls_eq, hlive.state⟩
          exact ⟨r, hr, iff_of_true (hiff.mpr (.inl hpos)) (.inr hfinds)⟩

end

/-! ## Both matchers -/

section

variable {recurse : Bool} {nfa : Nfa} {dfa : Dfa} {opts : Options} {L : Language ℕ}

theorem regexecPartialMin_finds (hdfa : dfa.Ready recurse nfa) (hd : nfa.Decides L)
    (hmin : opts.stdMatcher = false) (first last : Finset Assertion) (buffer : List ℕ) :
    ∃ ms ms' rc, matchStateInit opts dfa 0 = some ms ∧
      regexecPartial opts buffer first last ms true = some (ms', rc) ∧
      (0 < rc ↔ nfa.FindsMin { nfa.initial } buffer) := by
  set ms : MatchState := ⟨1, 0, dfa, some dfa.initial, 0, [], false, fun _ => noTags,
    fun _ => noTags, -1⟩ with hms
  have hlive : LiveMin recurse nfa dfa.ccls ms nfa.initialElems :=
    ⟨hdfa.idle, hdfa.nfa_eq, rfl, dfa.initial, rfl, hdfa.initial⟩
  obtain ⟨r, hr, hiff⟩ := regexecMinFrom_spec opts hdfa.partition hd first last buffer true ms.offset
    ms nfa.initialElems hlive
  rw [nids_initialElems, or_iff_right (show ¬(0 : ℤ) < -1 by decide)] at hiff
  have hinit : matchStateInit opts dfa 0 = some ms := by
    rw [matchStateInit, hmin]
    rfl
  have hrun : regexecPartial opts buffer first last ms true =
      regexecPartialMin opts buffer first last ms true := by
    unfold regexecPartial
    rw [hmin]
    rfl
  unfold regexecPartialMin at hrun
  cases hrc : r.2.2 with
  | some rc =>
    rw [hrc] at hiff
    refine ⟨ms, r.1, rc, hinit, hrun.trans ?_, hiff⟩
    rw [hr, Option.bind_eq_bind, Option.bind_some]
    dsimp only
    rw [hrc]
  | none =>
    rw [hrc] at hiff
    refine ⟨ms, { r.1 with offset := r.2.1 }, r.1.acc, hinit, hrun.trans ?_, hiff⟩
    rw [hr, Option.bind_eq_bind, Option.bind_some]
    dsimp only
    rw [hrc]
    rfl

end

end Hilti.Justrx
