import Hilti.Justrx.Language

/-!
# The standard matcher

The standard matcher accepts an input, anchored at its start, when the NFA accepts a
prefix of it, provided that the transitions that are open at a position always have the
same assertions.  Classes that differ only in their assertions are not made disjoint, and
of several transitions that let pass the matcher takes the first one only.
-/

namespace Hilti.Justrx

set_option autoImplicit false

/-! ## What the NFA accepts -/

/-- The symbols of a buffer, where `previous` is the character before it. -/
def symbolsFrom (first last : Finset Assertion) : Bool → ℕ → List ℕ → List Symbol
  | _, _, [] => []
  | atBegin, previous, cp :: buffer =>
    ⟨cp, some previous, assertionsAt atBegin buffer first last⟩ ::
      symbolsFrom first last false cp buffer

/-- The symbols of an input; before its first character there is none that counts. -/
def symbols (first last : Finset Assertion) (buffer : List ℕ) : List Symbol :=
  symbolsFrom first last true 0 buffer

/-- What final assertions are checked against after a word: its last character with its
assertions. -/
def lastSeen (word : List Symbol) : Symbol :=
  match word.getLast? with
  | none => ⟨0, some 0, {.bol, .bod}⟩
  | some s => ⟨s.cp, some s.cp, s.assertions⟩

def Symbol.holds (s : Symbol) (want : Finset Assertion) : Bool :=
  cclMatchAssertions s.cp s.previous s.assertions want

/-- From the given states the NFA accepts the word, under the assertions that hold. -/
def Nfa.AcceptsFrom (nfa : Nfa) (S : Set ℕ) (word : List Symbol) : Prop :=
  ∃ q ∈ nfa.machine.evalFrom S word, ∃ a ∈ (nfa.state q).accepts,
    (lastSeen word).holds a.assertions = true

/-- The ids of accepts are positive, as 0 stands for none. -/
def Nfa.PositiveIds (nfa : Nfa) : Prop :=
  ∀ q, ∀ a ∈ (nfa.state q).accepts, 0 < a.aid

/-! ## The accepts of a match state -/

theorem acceptInsert_ne_nil (nacc : MatchAccept) (accepts : List MatchAccept) :
    acceptInsert nacc accepts ≠ [] := by
  cases accepts with
  | nil => exact List.cons_ne_nil _ _
  | cons acc accepts =>
    unfold acceptInsert
    split
    · exact List.cons_ne_nil _ _
    · split <;> exact List.cons_ne_nil _ _

theorem mem_acceptInsert {nacc acc : MatchAccept} {accepts : List MatchAccept}
    (h : acc ∈ acceptInsert nacc accepts) : acc = nacc ∨ acc ∈ accepts := by
  induction accepts with
  | nil => exact .inl (List.mem_singleton.mp h)
  | cons acc' accepts ih =>
    unfold acceptInsert at h
    split at h
    · exact List.mem_cons.mp h
    · split at h
      · exact .inr h
      · obtain rfl | h := List.mem_cons.mp h
        · exact .inr List.mem_cons_self
        · obtain h | h := ih h
          · exact .inl h
          · exact .inr (List.mem_cons_of_mem _ h)

theorem recordAccept_ne_nil (accepts : List MatchAccept) (aid : ℕ) (ntags : ℕ → ℕ) :
    recordAccept accepts aid ntags ≠ [] := by
  unfold recordAccept
  split
  · exact acceptInsert_ne_nil _ _
  · rename_i oacc hfind
    split
    · exact acceptInsert_ne_nil _ _
    · exact List.ne_nil_of_mem (List.mem_of_find?_eq_some hfind)

theorem mem_recordAccept {accepts : List MatchAccept} {aid : ℕ} {ntags : ℕ → ℕ} {acc : MatchAccept}
    (h : acc ∈ recordAccept accepts aid ntags) : acc.aid = aid ∨ acc ∈ accepts := by
  unfold recordAccept at h
  split at h
  · obtain rfl | h := mem_acceptInsert h
    · exact .inl rfl
    · exact .inr h
  · split at h
    · obtain rfl | h := mem_acceptInsert h
      · exact .inl rfl
      · exact .inr (List.mem_filter.mp h).1
    · exact .inr h

section

variable {opts : Options} {ms : MatchState} {cp : ℕ} {assertions : Finset Assertion}

def MatchState.seen (ms : MatchState) (cp : ℕ) (assertions : Finset Assertion) : Symbol :=
  ⟨cp, if ms.offset ≠ 0 then some ms.previous else none, assertions⟩

def acceptTags (ms : MatchState) (a : DfaAccept) : ℕ → ℕ :=
  a.finalOps.foldl (fun tags op => Function.update tags op.tag.toNat ms.offset)
    (ms.tagGroup ms.currentTags a.tid)

theorem updateAcceptsFrom_cons (a : DfaAccept) (accs : List DfaAccept)
    (accepts : List MatchAccept) :
    updateAcceptsFrom opts ms cp assertions (a :: accs) accepts =
      if (ms.seen cp assertions).holds a.finalAssertions = true then
        if opts.noCapture = true then acceptInsert ⟨a.aid, none⟩ accepts
        else updateAcceptsFrom opts ms cp assertions accs
          (recordAccept accepts a.aid (acceptTags ms a))
      else updateAcceptsFrom opts ms cp assertions accs accepts := by
  rw [updateAcceptsFrom]
  cases hholds : (ms.seen cp assertions).holds a.finalAssertions with
  | false =>
    rw [show cclMatchAssertions cp (if ms.offset ≠ 0 then some ms.previous else none) assertions
      a.finalAssertions = false from hholds]
    rfl
  | true =>
    rw [show cclMatchAssertions cp (if ms.offset ≠ 0 then some ms.previous else none) assertions
      a.finalAssertions = true from hholds]
    rfl

theorem updateAcceptsFrom_ne_nil (accs : List DfaAccept) (accepts : List MatchAccept) :
    updateAcceptsFrom opts ms cp assertions accs accepts ≠ [] ↔
      accepts ≠ [] ∨ ∃ a ∈ accs, (ms.seen cp assertions).holds a.finalAssertions = true := by
  induction accs generalizing accepts with
  | nil => simp [updateAcceptsFrom]
  | cons a accs ih =>
    rw [updateAcceptsFrom_cons, List.exists_mem_cons_iff]
    split
    · rename_i hholds
      simp only [hholds, true_or, or_true, iff_true]
      split
      · exact acceptInsert_ne_nil _ _
      · exact (ih _).mpr (.inl (recordAccept_ne_nil _ _ _))
    · rename_i hholds
      rw [ih]
      simp only [hholds, Bool.false_eq_true, false_or]

theorem mem_updateAcceptsFrom {acc : MatchAccept} (accs : List DfaAccept)
    (accepts : List MatchAccept) (h : acc ∈ updateAcceptsFrom opts ms cp assertions accs accepts) :
    (∃ a ∈ accs, acc.aid = a.aid) ∨ acc ∈ accepts := by
  induction accs generalizing accepts with
  | nil => exact .inr h
  | cons a accs ih =>
    have hrest : ∀ accepts, acc ∈ updateAcceptsFrom opts ms cp assertions accs accepts →
        (∃ a' ∈ a :: accs, acc.aid = a'.aid) ∨ acc ∈ accepts := by
      intro accepts h
      obtain ⟨a', ha', haid⟩ | h := ih accepts h
      · exact .inl ⟨a', List.mem_cons_of_mem _ ha', haid⟩
      · exact .inr h
    rw [updateAcceptsFrom_cons] at h
    split at h
    · split at h
      · obtain rfl | h := mem_acceptInsert h
        · exact .inl ⟨a, List.mem_cons_self, rfl⟩
        · exact .inr h
      · obtain h | h := hrest _ h
        · exact .inl h
        · obtain h | h := mem_recordAccept h
          · exact .inl ⟨a, List.mem_cons_self, h⟩
          · exact .inr h
    · exact hrest accepts h

end

theorem pickStep_mem (accepts : List MatchAccept) (best : MatchAccept × Option ℕ × ℤ) :
    (accepts.foldl pickStep best).1 = best.1 ∨ (accepts.foldl pickStep best).1 ∈ accepts := by
  induction accepts generalizing best with
  | nil => exact .inl rfl
  | cons acc accepts ih =>
    have hstep : (pickStep best acc).1 = best.1 ∨ (pickStep best acc).1 = acc := by
      unfold pickStep
      split
      · split
        · exact .inr rfl
        · exact .inl rfl
      · dsimp only
        split_ifs
        · exact .inr rfl
        · exact .inl rfl
    rw [List.foldl_cons]
    obtain h | h := ih (pickStep best acc)
    · obtain hs | hs := hstep
      · exact .inl (h.trans hs)
      · exact .inr (by rw [h, hs]; exact List.mem_cons_self)
    · exact .inr (List.mem_cons_of_mem _ h)

theorem pickAccept_mem {accepts : List MatchAccept} (h : accepts ≠ []) :
    pickAccept accepts ∈ accepts := by
  obtain ⟨acc, rest, rfl⟩ := List.exists_cons_of_ne_nil h
  have hfirst : (pickStep (⟨0, none⟩, none, 0) acc).1 = acc := by
    unfold pickStep
    split <;> rfl
  rw [pickAccept, List.foldl_cons]
  obtain hp | hp := pickStep_mem rest (pickStep (⟨0, none⟩, none, 0) acc)
  · rw [hp, hfirst]
    exact List.mem_cons_self
  · exact List.mem_cons_of_mem _ hp

theorem pickAccept_aid {accepts : List MatchAccept} (h : ∀ acc ∈ accepts, 0 < acc.aid) :
    (pickAccept accepts).aid ≠ 0 ↔ accepts ≠ [] := by
  constructor
  · intro haid hnil
    subst hnil
    exact haid rfl
  · intro hne
    exact (h _ (pickAccept_mem hne)).ne'

/-! ## One character -/

section

variable (ms : MatchState) (tops : List TagOp)

@[simp] theorem updateTags_dfa : (updateTags ms tops).dfa = ms.dfa := by
  unfold updateTags
  split_ifs <;> rfl

@[simp] theorem updateTags_state : (updateTags ms tops).state = ms.state := by
  unfold updateTags
  split_ifs <;> rfl

@[simp] theorem updateTags_offset : (updateTags ms tops).offset = ms.offset := by
  unfold updateTags
  split_ifs <;> rfl

@[simp] theorem updateTags_previous : (updateTags ms tops).previous = ms.previous := by
  unfold updateTags
  split_ifs <;> rfl

@[simp] theorem updateTags_accepts : (updateTags ms tops).accepts = ms.accepts := by
  unfold updateTags
  split_ifs <;> rfl

end

/-- The match state is in the DFA state for a set of items. -/
structure Live (recurse : Bool) (nfa : Nfa) (g : Group) (ms : MatchState) (e : List Elem) :
    Prop where
  idle : Idle recurse ms.dfa
  nfa_eq : ms.dfa.nfa = nfa
  ccls_eq : ms.dfa.ccls = g
  state : ∃ id, ms.state = some id ∧ ms.dfa.hstates[id]? = some e
  offset_pos : 0 < ms.offset
  ids_pos : ∀ acc ∈ ms.accepts, 0 < acc.aid

section

variable {recurse : Bool} {nfa : Nfa} {g : Group} {opts : Options} {ms : MatchState} {e : List Elem}

theorem acceptsOf_holds {s : Symbol} :
    (∃ a ∈ acceptsOf nfa e, s.holds a.finalAssertions = true) ↔
      ∃ q ∈ nids e, ∃ a ∈ (nfa.state q).accepts, s.holds a.assertions = true := by
  simp only [acceptsOf, List.mem_flatMap, List.mem_map]
  constructor
  · rintro ⟨_, ⟨x, hx, a, ha, rfl⟩, hholds⟩
    exact ⟨x.nid, ⟨x, hx, rfl⟩, a, ha, hholds⟩
  · rintro ⟨_, ⟨x, hx, rfl⟩, a, ha, hholds⟩
    exact ⟨_, ⟨x, hx, a, ha, rfl⟩, hholds⟩

theorem updateAccepts_spec (opts : Options) (hpos : nfa.PositiveIds) {s : DfaState}
    (hs : s.accepts = acceptsOf nfa e) (hoff : 0 < ms.offset)
    (hids : ∀ acc ∈ ms.accepts, 0 < acc.aid) (cp : ℕ) (assertions : Finset Assertion) :
    (∀ acc ∈ (updateAccepts opts ms s cp assertions).accepts, 0 < acc.aid) ∧
      ((updateAccepts opts ms s cp assertions).accepts ≠ [] ↔ ms.accepts ≠ [] ∨
        ∃ q ∈ nids e, ∃ a ∈ (nfa.state q).accepts,
          (Symbol.mk cp (some ms.previous) assertions).holds a.assertions = true) := by
  have hseen : ms.seen cp assertions = ⟨cp, some ms.previous, assertions⟩ := by
    rw [MatchState.seen, if_pos hoff.ne']
  refine ⟨fun acc hacc => ?_, ?_⟩
  · obtain ⟨a, ha, haid⟩ | hacc := mem_updateAcceptsFrom s.accepts ms.accepts hacc
    · rw [hs] at ha
      obtain ⟨x, -, ha⟩ := List.mem_flatMap.mp ha
      obtain ⟨a', ha', rfl⟩ := List.mem_map.mp ha
      exact haid ▸ hpos x.nid a' ha'
    · exact hids acc hacc
  · rw [← acceptsOf_holds, ← hs, ← hseen]
    exact updateAcceptsFrom_ne_nil s.accepts ms.accepts

/-- The step lemma for `jrx_match_state_advance`. -/
theorem matchStateAdvance_spec (opts : Options) (hP : Partition nfa g) (ho : nfa.Orderly)
    (ht : nfa.WellTagged) (hpos : nfa.PositiveIds) (h : Live recurse nfa g ms e) (cp : ℕ) (assertions : Finset Assertion)
    (hu : nfa.Uniform (nids e) ⟨cp, some ms.previous, assertions⟩) :
    ∃ ms' b, matchStateAdvance opts ms cp assertions = some (ms', b) ∧
      ((b = false ∧ nfa.machine.stepSet (nids e) ⟨cp, some ms.previous, assertions⟩ = ∅ ∧
          ms'.accepts = ms.accepts) ∨
        ∃ e', b = true ∧ Live recurse nfa g ms' e' ∧ ms'.previous = cp ∧
          nids e' = nfa.machine.stepSet (nids e) ⟨cp, some ms.previous, assertions⟩ ∧
          (ms'.accepts ≠ [] ↔ ms.accepts ≠ [] ∨ ∃ q ∈ nids e', ∃ a ∈ (nfa.state q).accepts,
            (Symbol.mk cp (some cp) assertions).holds a.assertions = true)) := by
  obtain ⟨id, hstate, hget⟩ := h.state
  set s : Symbol := ⟨cp, some ms.previous, assertions⟩ with hs
  have hpass : (fun ccl => cclMatch ccl cp (if ms.offset ≠ 0 then some ms.previous else none)
      assertions) = s.passes := by
    funext ccl
    rw [if_pos h.offset_pos.ne']
    rfl
  obtain ⟨dfa', st, o, hfind, hidle, hx, -, -, hcase⟩ := findTransition_spec h.idle hget s.passes
  rw [h.nfa_eq, h.ccls_eq] at hcase
  have hstep := specFind_step hP ho ht s hu
  obtain ⟨rfl, hspec⟩ | ⟨t, succ, c, rfl, hspec, htc, hmsucc⟩ := hcase
  · rw [hspec] at hstep
    obtain ⟨-, hempty⟩ | ⟨d, hd, -⟩ := hstep
    · refine ⟨{ ms with dfa := dfa' }, false, ?_, .inl ⟨rfl, hempty, rfl⟩⟩
      simp only [matchStateAdvance, hstate, hpass, hfind, Option.bind_eq_bind, Option.bind_some]
    · cases hd
  · rw [hspec] at hstep
    obtain ⟨hnone, -⟩ | ⟨d, hd, hnids, -⟩ := hstep
    · cases hnone
    · cases hd
      have hnfa' := hx.nfa_eq.trans h.nfa_eq
      set ms₁ := updateTags { ms with dfa := dfa', state := some t.succ, previous := cp } t.tops
        with hms₁
      have hacc : succ.accepts = acceptsOf nfa c.2.1 := by rw [hmsucc.accepts_eq, hnfa']
      have hids : ∀ acc ∈ ms₁.accepts, 0 < acc.aid := by
        rw [hms₁, updateTags_accepts]
        exact h.ids_pos
      have hoff : 0 < ({ ms₁ with offset := ms₁.offset + 1 } : MatchState).offset := Nat.succ_pos _
      obtain ⟨hids', hne⟩ := updateAccepts_spec opts hpos hacc hoff hids cp assertions
      refine ⟨updateAccepts opts { ms₁ with offset := ms₁.offset + 1 } succ cp assertions, true, ?_,
        .inr ⟨c.2.1, rfl, ⟨?_, ?_, ?_, ?_, Nat.succ_pos _, hids'⟩, ?_, hnids, ?_⟩⟩
      · simp only [matchStateAdvance, hstate, hpass, hfind, Option.bind_eq_bind, Option.bind_some]
        rfl
      · simpa [updateAccepts, hms₁] using hidle
      · simpa [updateAccepts, hms₁] using hnfa'
      · simpa [updateAccepts, hms₁] using hx.ccls_eq.trans h.ccls_eq
      · exact ⟨t.succ, by simp [updateAccepts, hms₁], by simpa [updateAccepts, hms₁] using htc.2.1⟩
      · simp [updateAccepts, hms₁]
      · rw [hne]
        simp [hms₁]

/-! ## Whole buffers -/

theorem acceptsFrom_singleton {S : Set ℕ} {s : Symbol} :
    nfa.AcceptsFrom S [s] ↔ ∃ q ∈ nfa.machine.stepSet S s, ∃ a ∈ (nfa.state q).accepts,
      (Symbol.mk s.cp (some s.cp) s.assertions).holds a.assertions = true :=
  Iff.rfl

theorem acceptsFrom_cons {S : Set ℕ} {s : Symbol} {word : List Symbol} (hne : word ≠ []) :
    nfa.AcceptsFrom S (s :: word) ↔ nfa.AcceptsFrom (nfa.machine.stepSet S s) word := by
  have hlast : lastSeen (s :: word) = lastSeen word := by
    obtain ⟨s', word', rfl⟩ := List.exists_cons_of_ne_nil hne
    rw [lastSeen, lastSeen, List.getLast?_cons_cons]
  rw [Nfa.AcceptsFrom, Nfa.AcceptsFrom, hlast, NFA.evalFrom_cons]

theorem not_acceptsFrom_empty (word : List Symbol) : ¬ nfa.AcceptsFrom ∅ word := by
  rintro ⟨q, hq, -⟩
  rw [evalFrom_empty] at hq
  exact hq

theorem exists_acceptsFrom_cons {S : Set ℕ} {s : Symbol} {word : List Symbol} :
    (∃ v, v ≠ [] ∧ v <+: s :: word ∧ nfa.AcceptsFrom S v) ↔ nfa.AcceptsFrom S [s] ∨
      ∃ v, v ≠ [] ∧ v <+: word ∧ nfa.AcceptsFrom (nfa.machine.stepSet S s) v := by
  constructor
  · rintro ⟨v, hne, hpre, hv⟩
    obtain rfl | ⟨v, rfl, hpre'⟩ := List.prefix_cons_iff.mp hpre
    · exact absurd rfl hne
    · by_cases hnil : v = []
      · subst hnil
        exact .inl hv
      · exact .inr ⟨v, hnil, hpre', (acceptsFrom_cons hnil).mp hv⟩
  · rintro (hs | ⟨v, hne, hpre, hv⟩)
    · exact ⟨[s], by simp, List.prefix_cons_iff.mpr (.inr ⟨[], rfl, List.nil_prefix⟩), hs⟩
    · exact ⟨s :: v, by simp, List.prefix_cons_iff.mpr (.inr ⟨v, rfl, hpre⟩),
        (acceptsFrom_cons hne).mpr hv⟩

theorem regexecStdFrom_spec (opts : Options) (hP : Partition nfa g) (ho : nfa.Orderly)
    (ht : nfa.WellTagged) (hpos : nfa.PositiveIds) (first last : Finset Assertion) (buffer : List ℕ) :
    ∀ (atBegin : Bool) (ms : MatchState) (e : List Elem), Live recurse nfa g ms e →
      nfa.UniformFrom (nids e) (symbolsFrom first last atBegin ms.previous buffer) →
      ∃ ms' b, regexecStdFrom opts first last atBegin buffer ms = some (ms', b) ∧
        (∀ acc ∈ ms'.accepts, 0 < acc.aid) ∧
        (ms'.accepts ≠ [] ↔ ms.accepts ≠ [] ∨ ∃ v, v ≠ [] ∧
          v <+: symbolsFrom first last atBegin ms.previous buffer ∧ nfa.AcceptsFrom (nids e) v) := by
  induction buffer with
  | nil =>
    intro atBegin ms e h _
    refine ⟨ms, true, rfl, h.ids_pos, ?_⟩
    simp only [symbolsFrom, List.prefix_nil, iff_self_or]
    rintro ⟨v, hne, rfl, -⟩
    exact absurd rfl hne
  | cons cp buffer ih =>
    intro atBegin ms e h hu
    set assertions := assertionsAt atBegin buffer first last with hassert
    rw [symbolsFrom, exists_acceptsFrom_cons, ← hassert]
    obtain ⟨ms₁, b, hadv, hcase⟩ :=
      matchStateAdvance_spec opts hP ho ht hpos h cp assertions hu.1
    obtain ⟨rfl, hempty, hacc⟩ | ⟨e', rfl, hlive, hprev, hnids, hacc⟩ := hcase
    · refine ⟨ms₁, false, ?_, hacc ▸ h.ids_pos, ?_⟩
      · simp [regexecStdFrom, ← hassert, hadv]
      · have hnone : ¬ nfa.AcceptsFrom (nids e) [⟨cp, some ms.previous, assertions⟩] := by
          rintro ⟨q, hq, -⟩
          rw [NFA.evalFrom_singleton, hempty] at hq
          exact hq
        simp only [hacc, hnone, hempty, not_acceptsFrom_empty, and_false, exists_false, or_false]
    · obtain ⟨ms', b, hrun, hids, hacc'⟩ := ih false ms₁ e' hlive (by
        rw [hprev, hnids]
        exact hu.2)
      refine ⟨ms', b, ?_, hids, ?_⟩
      · simp [regexecStdFrom, ← hassert, hadv, hrun]
      · rw [hacc', hacc, hprev, hnids, ← acceptsFrom_singleton, or_assoc]

theorem matchStateInit_spec {dfa : Dfa} (hpos : nfa.PositiveIds) (hstd : opts.stdMatcher = true)
    (hidle : Idle recurse dfa) (hnfa : dfa.nfa = nfa) (hccls : dfa.ccls = g)
    (hinit : dfa.hstates[dfa.initial]? = some nfa.initialElems) (begin : ℕ) :
    ∃ ms, matchStateInit opts dfa begin = some ms ∧ Live recurse nfa g ms nfa.initialElems ∧
      ms.previous = 0 ∧ (ms.accepts ≠ [] ↔ nfa.AcceptsFrom { nfa.initial } []) := by
  obtain ⟨dfa', s, hget, hidle', hx, hm, -⟩ := dfaGetState_spec hidle hinit
  set ms₀ : MatchState := ⟨1, begin, dfa, some dfa.initial, 0, [], false, fun _ => noTags,
    fun _ => noTags, -1⟩ with hms₀
  set ms₁ : MatchState := { updateTags ms₀ dfa.initialOps with dfa := dfa' } with hms₁
  have hs : s.accepts = acceptsOf nfa nfa.initialElems := by
    rw [hm.accepts_eq, hx.nfa_eq, hnfa]
  have hacc : ms₁.accepts = [] := updateTags_accepts ms₀ _
  have hoff : ms₁.offset = 1 := updateTags_offset ms₀ _
  have hprev : ms₁.previous = 0 := updateTags_previous ms₀ _
  obtain ⟨hids, hne⟩ := updateAccepts_spec opts hpos hs (by rw [hoff]; exact Nat.one_pos)
    (by rw [hacc]; simp) 0 {.bol, .bod}
  refine ⟨updateAccepts opts ms₁ s 0 {.bol, .bod}, ?_, ⟨hidle', hx.nfa_eq.trans hnfa,
    hx.ccls_eq.trans hccls, ⟨dfa.initial, updateTags_state ms₀ _, hx.get hinit⟩, ?_, hids⟩, hprev, ?_⟩
  · simp only [matchStateInit, hstd, if_true, updateTags_dfa, hget, Option.bind_eq_bind,
      Option.bind_some]
    rfl
  · exact hoff ▸ Nat.one_pos
  · rw [hne, hacc, hprev, nids_initialElems]
    simp only [ne_eq, not_true_eq_false, false_or]
    rfl

/-- What there is once an NFA has been turned into a DFA. -/
structure Dfa.Ready (recurse : Bool) (nfa : Nfa) (dfa : Dfa) : Prop where
  idle : Idle recurse dfa
  nfa_eq : dfa.nfa = nfa
  partition : Partition nfa dfa.ccls
  initial : dfa.hstates[dfa.initial]? = some nfa.initialElems

theorem exists_ready (ho : nfa.Orderly) (lazy : Bool) : ∃ n, ∀ fuel ≥ n, ∃ dfa,
    dfaFromNfa lazy fuel nfa = some dfa ∧ dfa.Ready (!lazy) nfa := by
  refine ⟨2 * ((usedCcls nfa).length + measure (usedCcls nfa)) + measure (usedCcls nfa) + 2 +
    nfa.itemSets.card, fun fuel hfuel => ?_⟩
  obtain ⟨g, hg, hP⟩ := usedCcls_partition ho (show _ < fuel by omega)
  obtain ⟨dfa, hdfa, hidle, hnfa, hccls, hinit, -⟩ := dfaFromNfa_spec lazy hg (by omega)
  exact ⟨dfa, hdfa, hidle, hnfa, hccls ▸ hP, hinit⟩

theorem Dfa.Ready.std_accepts {dfa : Dfa} (hdfa : dfa.Ready recurse nfa) (ht : nfa.WellTagged)
    (hpos : nfa.PositiveIds) (ho : nfa.Orderly) (hstd : opts.stdMatcher = true) :
    ∃ ms, matchStateInit opts dfa 0 = some ms ∧ ∀ (buffer : List ℕ) (first last : Finset Assertion),
      nfa.UniformFrom { nfa.initial } (symbols first last buffer) →
      ∃ ms' rc, regexecPartialStd opts buffer first last ms true = some (ms', rc) ∧
        (0 < rc → ms'.accepts ≠ []) ∧
        (0 < rc ↔ ∃ word, word <+: symbols first last buffer ∧
          nfa.AcceptsFrom { nfa.initial } word) := by
  obtain ⟨ms, hms, hlive, hprev, hacc⟩ :=
    matchStateInit_spec hpos hstd hdfa.idle hdfa.nfa_eq rfl hdfa.initial 0
  refine ⟨ms, hms, fun buffer first last hu => ?_⟩
  obtain ⟨ms', b, hrun, hids, hacc'⟩ := regexecStdFrom_spec opts hdfa.partition ho ht hpos first last
    buffer true ms nfa.initialElems hlive (by rw [hprev, nids_initialElems]; exact hu)
  rw [hprev, hacc, nids_initialElems] at hacc'
  have haid := pickAccept_aid hids
  have hpre : (∃ word, word <+: symbols first last buffer ∧
      nfa.AcceptsFrom { nfa.initial } word) ↔ (pickAccept ms'.accepts).aid ≠ 0 := by
    rw [haid, hacc']
    constructor
    · rintro ⟨word, hpre, hword⟩
      by_cases hnil : word = []
      · exact .inl (hnil ▸ hword)
      · exact .inr ⟨word, hnil, hpre, hword⟩
    · rintro (hnil | ⟨word, -, hpre, hword⟩)
      · exact ⟨[], List.nil_prefix, hnil⟩
      · exact ⟨word, hpre, hword⟩
  rw [hpre]
  cases b with
  | false =>
    refine ⟨ms', (pickAccept ms'.accepts).aid, by simp [regexecPartialStd, hrun],
      fun hrc => haid.mp ?_, ?_⟩
    all_goals omega
  | true =>
    refine ⟨ms', if ((pickAccept ms'.accepts).aid : ℤ) ≠ 0 then (pickAccept ms'.accepts).aid else -1,
      by simp [regexecPartialStd, hrun], fun hrc => haid.mp ?_, ?_⟩
    · split at hrc <;> omega
    · split <;> omega

end

/-- What `jrx_regset_add` makes of the pattern `ab|^ac` when nothing is to be captured. -/
def anchored : Nfa where
  ccls := [⟨∅, some [⟨97, 98⟩]⟩, ⟨∅, some [⟨98, 99⟩]⟩, ⟨∅, none⟩, ⟨∅, some [⟨99, 100⟩]⟩,
    ⟨{.bol}, none⟩, ⟨{.bol}, some [⟨97, 98⟩]⟩]
  states := [⟨[], [⟨0, 1, none⟩]⟩, ⟨[], [⟨1, 3, none⟩]⟩, ⟨[], [⟨1, 3, none⟩]⟩, ⟨[⟨∅, 1, none⟩], []⟩,
    ⟨[], [⟨5, 6, none⟩]⟩, ⟨[], [⟨0, 6, none⟩]⟩, ⟨[], [⟨3, 8, none⟩]⟩, ⟨[], [⟨3, 8, none⟩]⟩,
    ⟨[⟨∅, 1, none⟩], []⟩, ⟨[], [⟨0, 1, none⟩, ⟨5, 6, none⟩]⟩, ⟨[⟨∅, 1, none⟩], []⟩]
  initial := 9
  initialTags := none

/-- The standard matcher without captures. -/
def stdNoSub : Options :=
  ⟨true, true, false, -1⟩

theorem anchored_wellTagged : anchored.WellTagged := by
  have htags : ∀ t ∈ anchored.allTrans, t.tags = none := by decide
  intro t ht tags hsome
  rw [htags t ht] at hsome
  cases hsome

theorem anchored_positiveIds : anchored.PositiveIds := by
  intro q a ha
  have hall : ∀ s ∈ anchored.states, ∀ a ∈ s.accepts, 0 < a.aid := by decide
  rw [Nfa.state, List.getD_eq_getElem?_getD] at ha
  cases hget : anchored.states[q]? with
  | none => simp [hget] at ha
  | some s =>
    rw [hget] at ha
    exact hall s (List.mem_of_getElem? hget) a ha

theorem anchored_orderly : anchored.Orderly := by
  have hclean : ∀ x ∈ anchored.transCcls, x.Clean := by
    unfold Ccl.Clean
    decide
  intro x hx y _ _ _ r hr
  exact (hclean x hx).avoids hr _

end Hilti.Justrx
