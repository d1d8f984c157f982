import Hilti.Justrx.Longest

/-!
# The standard matcher piece by piece

Without assertions two standard matchers that differ only in the DFA they use, and in what it holds so
far, do the same with the same characters.  A match can be interrupted anywhere, and goes on with the
tags and accepts it had.
-/

namespace Hilti.Justrx

open Hilti.Lib

set_option autoImplicit false

/-! ## Matchers that agree -/

/-- The same tags and accepts. -/
structure SameTags (ms ms' : MatchState) : Prop where
  offset_eq : ms'.offset = ms.offset
  begin_eq : ms'.begin = ms.begin
  accepts_eq : ms'.accepts = ms.accepts
  currentTags_eq : ms'.currentTags = ms.currentTags
  tags1_eq : ms'.tags1 = ms.tags1
  tags2_eq : ms'.tags2 = ms.tags2

/-- Two matchers in the state for the same items, with the same tags and accepts. -/
structure Alike (recurse : Bool) (nfa : Nfa) (g : Group) (e : List Elem) (ms ms' : MatchState) :
    Prop where
  left : Scans recurse nfa g ms e
  right : Scans recurse nfa g ms' e
  same : SameTags ms ms'

/-- An NFA without assertions, as it can be turned into a DFA. -/
structure Nfa.Bare (nfa : Nfa) : Prop where
  free : nfa.AssertionFree
  accepts : ∀ q, ∀ acc ∈ (nfa.state q).accepts, acc.assertions = ∅

theorem Nfa.Decides.bare {nfa : Nfa} {L : Language ℕ} (h : nfa.Decides L) : nfa.Bare :=
  ⟨h.free, h.accepts⟩

theorem SameTags.refl (ms : MatchState) : SameTags ms ms :=
  ⟨rfl, rfl, rfl, rfl, rfl, rfl⟩

theorem SameTags.symm {ms ms' : MatchState} (h : SameTags ms ms') : SameTags ms' ms :=
  ⟨h.offset_eq.symm, h.begin_eq.symm, h.accepts_eq.symm, h.currentTags_eq.symm, h.tags1_eq.symm,
    h.tags2_eq.symm⟩

theorem SameTags.trans {ms ms' ms'' : MatchState} (h : SameTags ms ms') (h' : SameTags ms' ms'') :
    SameTags ms ms'' :=
  ⟨h'.offset_eq.trans h.offset_eq, h'.begin_eq.trans h.begin_eq, h'.accepts_eq.trans h.accepts_eq,
    h'.currentTags_eq.trans h.currentTags_eq, h'.tags1_eq.trans h.tags1_eq,
    h'.tags2_eq.trans h.tags2_eq⟩

section

variable {recurse : Bool} {nfa : Nfa} {g : Group} {opts : Options} {ms ms' : MatchState}
  {e : List Elem}

theorem specFind_std (hP : Partition nfa g) (hfree : nfa.AssertionFree) (cp : ℕ)
    (previous : Option ℕ) (given : Finset Assertion) :
    specFind nfa g (fun ccl => cclMatch ccl cp previous given) e =
      specFind nfa g (plain cp).passes e := by
  unfold specFind
  congr 1
  funext t
  rw [List.getD_eq_getElem?_getD]
  cases hget : g[t.1]? with
  | none => rfl
  | some p =>
    have hp := hP.free hfree (List.mem_of_getElem? hget)
    rw [Bool.eq_iff_iff]
    exact (passes_of_free hp ⟨cp, previous, given⟩).trans (passes_of_free hp (plain cp)).symm

theorem SameTags.updateTags (h : SameTags ms ms') (tops : List TagOp) :
    SameTags (Justrx.updateTags ms tops) (Justrx.updateTags ms' tops) := by
  unfold Justrx.updateTags
  rw [h.currentTags_eq, h.offset_eq, h.tags1_eq, h.tags2_eq]
  split
  · exact h
  · split
    all_goals exact ⟨rfl, h.begin_eq, h.accepts_eq, rfl, rfl, rfl⟩

theorem SameTags.next (h : SameTags ms ms') : SameTags { ms with offset := ms.offset + 1 }
    { ms' with offset := ms'.offset + 1 } where
  offset_eq := congrArg (· + 1) h.offset_eq
  begin_eq := h.begin_eq
  accepts_eq := h.accepts_eq
  currentTags_eq := h.currentTags_eq
  tags1_eq := h.tags1_eq
  tags2_eq := h.tags2_eq

theorem updateAcceptsFrom_congr (h : SameTags ms ms') {cp cp' : ℕ} {A A' : Finset Assertion}
    (accs : List DfaAccept) (hfree : ∀ a ∈ accs, a.finalAssertions = ∅) : ∀ accepts : List MatchAccept,
      updateAcceptsFrom opts ms' cp' A' accs accepts = updateAcceptsFrom opts ms cp A accs accepts := by
  induction accs with
  | nil => exact fun _ => rfl
  | cons a accs ih =>
    intro accepts
    obtain ⟨ha, hrest⟩ := List.forall_mem_cons.mp hfree
    have htags : acceptTags ms' a = acceptTags ms a := by
      rw [acceptTags, acceptTags, MatchState.tagGroup, MatchState.tagGroup, h.offset_eq,
        h.currentTags_eq, h.tags1_eq, h.tags2_eq]
    have hholds : ∀ s : Symbol, s.holds a.finalAssertions = true := by
      intro s
      rw [ha]
      exact cclMatchAssertions_empty _ _ _
    rw [updateAcceptsFrom_cons, updateAcceptsFrom_cons, if_pos (hholds _), if_pos (hholds _), htags,
      ih hrest]

theorem acceptsOf_free (hbare : nfa.Bare) : ∀ a ∈ acceptsOf nfa e, a.finalAssertions = ∅ := by
  intro a ha
  obtain ⟨x, -, ha⟩ := List.mem_flatMap.mp ha
  obtain ⟨acc, hacc, rfl⟩ := List.mem_map.mp ha
  exact hbare.accepts x.nid acc hacc

theorem SameTags.updateAccepts (h : SameTags ms ms') {s s' : DfaState} (heq : s'.accepts = s.accepts)
    (hfree : ∀ a ∈ s.accepts, a.finalAssertions = ∅) {cp cp' : ℕ} {A A' : Finset Assertion} :
    SameTags (Justrx.updateAccepts opts ms s cp A) (Justrx.updateAccepts opts ms' s' cp' A') where
  offset_eq := h.offset_eq
  begin_eq := h.begin_eq
  accepts_eq := by
    unfold Justrx.updateAccepts
    rw [h.accepts_eq, heq]
    exact updateAcceptsFrom_congr h s.accepts hfree ms.accepts
  currentTags_eq := h.currentTags_eq
  tags1_eq := h.tags1_eq
  tags2_eq := h.tags2_eq

def steppedTags (opts : Options) (ms : MatchState) (tops : List TagOp) (s : DfaState) : MatchState :=
  let ms := updateTags ms tops
  updateAccepts opts { ms with offset := ms.offset + 1 } s 0 ∅

theorem SameTags.stepped (opts : Options) (h : SameTags ms ms') (tops : List TagOp) {s s' : DfaState}
    (heq : s'.accepts = s.accepts) (hfree : ∀ a ∈ s.accepts, a.finalAssertions = ∅) :
    SameTags (steppedTags opts ms tops s) (steppedTags opts ms' tops s') := by
  exact (h.updateTags tops).next.updateAccepts heq hfree

theorem matchStateAdvance_scan (opts : Options) (hP : Partition nfa g) (hbare : nfa.Bare)
    (h : Scans recurse nfa g ms e) (cp : ℕ) (assertions : Finset Assertion) :
    ∃ ms₁ b, matchStateAdvance opts ms cp assertions = some (ms₁, b) ∧ Later ms.dfa ms₁.dfa ∧
      ((b = false ∧ specFind nfa g (plain cp).passes e = none ∧ Scans recurse nfa g ms₁ e ∧
          SameTags ms ms₁) ∨
        ∃ c s, b = true ∧ specFind nfa g (plain cp).passes e = some c ∧
          Scans recurse nfa g ms₁ c.2.1 ∧ s.accepts = acceptsOf nfa c.2.1 ∧
          SameTags (steppedTags opts ms c.2.2 s) ms₁) := by
  obtain ⟨id, hstate, hget⟩ := h.state
  set pass : Ccl → Bool := fun ccl =>
    cclMatch ccl cp (if ms.offset ≠ 0 then some ms.previous else none) assertions with hpass
  obtain ⟨dfa', st, o, hfind, hidle, hx, -, -, hcase⟩ := findTransition_spec h.idle hget pass
  obtain ⟨hretains, -, hcomputed⟩ := findTransition_retains hfind
  have hlater : Later ms.dfa dfa' := ⟨hx, hretains⟩
  rw [h.nfa_eq, h.ccls_eq, specFind_std hP hbare.free] at hcase
  obtain ⟨rfl, hspec⟩ | ⟨t, succ, c, rfl, hspec, htc, hmsucc⟩ := hcase
  · refine ⟨{ ms with dfa := dfa' }, false, ?_, hlater, .inl ⟨rfl, hspec, h.later hlater hidle,
      ⟨rfl, rfl, rfl, rfl, rfl, rfl⟩⟩⟩
    simp only [matchStateAdvance, hstate, ← hpass, hfind, Option.bind_eq_bind, Option.bind_some]
  · have hnfa' := hx.nfa_eq.trans h.nfa_eq
    set ms₀ : MatchState := { ms with dfa := dfa', state := some t.succ, previous := cp } with hms₀
    set ms₁ : MatchState := { updateTags ms₀ t.tops with offset := (updateTags ms₀ t.tops).offset + 1 }
      with hms₁
    have hacc : succ.accepts = acceptsOf nfa c.2.1 := by rw [hmsucc.accepts_eq, hnfa']
    have hscans : Scans recurse nfa g ms₀ c.2.1 :=
      ⟨⟨hidle, hnfa', hx.ccls_eq.trans h.ccls_eq, t.succ, rfl, htc.2.1⟩, succ,
        congrArg some (hcomputed t succ rfl)⟩
    refine ⟨updateAccepts opts ms₁ succ cp assertions, true, ?_, ?_, .inr ⟨c, succ, rfl, hspec, ?_,
      hacc, ?_⟩⟩
    · simp only [matchStateAdvance, hstate, ← hpass, hfind, Option.bind_eq_bind, Option.bind_some]
      rfl
    · change Later ms.dfa (updateTags ms₀ t.tops).dfa
      rw [updateTags_dfa]
      exact hlater
    · exact hscans.congr (updateTags_dfa ms₀ t.tops) (updateTags_state ms₀ t.tops)
    · have hsame : SameTags ms ms₀ := ⟨rfl, rfl, rfl, rfl, rfl, rfl⟩
      rw [← htc.2.2]
      exact (hsame.updateTags t.tops).next.updateAccepts rfl (hacc ▸ acceptsOf_free hbare)

theorem Alike.advance (opts : Options) (hP : Partition nfa g) (hbare : nfa.Bare) (h : Alike recurse nfa g e ms ms')
    (cp : ℕ) (A A' : Finset Assertion) :
    ∃ ms₁ ms₁' b e', matchStateAdvance opts ms cp A = some (ms₁, b) ∧
      matchStateAdvance opts ms' cp A' = some (ms₁', b) ∧ Alike recurse nfa g e' ms₁ ms₁' ∧
      Later ms.dfa ms₁.dfa ∧ (b = false → ms₁.accepts = ms.accepts) ∧
      (b = true → (specFind nfa g (plain cp).passes e).isSome) := by
  obtain ⟨ms₁, b, hadv, hlater, hcase⟩ := matchStateAdvance_scan opts hP hbare h.left cp A
  obtain ⟨ms₁', b', hadv', -, hcase'⟩ := matchStateAdvance_scan opts hP hbare h.right cp A'
  obtain ⟨rfl, hnone, hscans, hsame⟩ | ⟨c, s, rfl, hsome, hscans, hs, hsame⟩ := hcase
  · obtain ⟨rfl, -, hscans', hsame'⟩ | ⟨c', s', -, hsome', -⟩ := hcase'
    · exact ⟨ms₁, ms₁', false, e, hadv, hadv', ⟨hscans, hscans', hsame.symm.trans (h.same.trans hsame')⟩,
        hlater, fun _ => hsame.accepts_eq, fun hb => (nomatch hb)⟩
    · rw [hnone] at hsome'
      cases hsome'
  · obtain ⟨-, hnone', -⟩ | ⟨c', s', rfl, hsome', hscans', hs', hsame'⟩ := hcase'
    · rw [hsome] at hnone'
      cases hnone'
    · rw [hsome] at hsome'
      cases hsome'
      refine ⟨ms₁, ms₁', true, c.2.1, hadv, hadv', ⟨hscans, hscans', ?_⟩, hlater,
        fun hb => (nomatch hb), fun _ => hsome ▸ rfl⟩
      have hstep := h.same.stepped opts c.2.2 (hs'.trans hs.symm)
        (hs ▸ acceptsOf_free hbare)
      exact hsame.symm.trans (hstep.trans hsame')

/-! ## Buffers -/

theorem Alike.stdFrom_append (opts : Options) (hP : Partition nfa g) (hbare : nfa.Bare)
    (first last first' last' : Finset Assertion) (buffer rest : List ℕ) :
    ∀ (atBegin atBegin' : Bool) {ms ms' : MatchState} {e : List Elem}, Alike recurse nfa g e ms ms' →
      ∃ r r' e', regexecStdFrom opts first last atBegin buffer ms = some r ∧
        Alike recurse nfa g e' r.1 r' ∧ Later ms.dfa r.1.dfa ∧
        (r.2 = false →
          regexecStdFrom opts first' last' atBegin' (buffer ++ rest) ms' = some (r', false)) ∧
        (r.2 = true → ∃ atBegin'', regexecStdFrom opts first' last' atBegin' (buffer ++ rest) ms' =
          regexecStdFrom opts first' last' atBegin'' rest r') := by
  induction buffer with
  | nil =>
    intro atBegin atBegin' ms ms' e h
    exact ⟨(ms, true), ms', e, rfl, h, .refl _, fun hr => (by cases hr), fun _ => ⟨atBegin', rfl⟩⟩
  | cons cp buffer ih =>
    intro atBegin atBegin' ms ms' e h
    obtain ⟨ms₁, ms₁', b, e₁, hadv, hadv', h₁, hlater, -, -⟩ := h.advance opts hP hbare cp
      (assertionsAt atBegin buffer first last) (assertionsAt atBegin' (buffer ++ rest) first' last')
    rw [List.cons_append, regexecStdFrom, regexecStdFrom, hadv, hadv', Option.bind_eq_bind,
      Option.bind_some, Option.bind_some]
    cases b with
    | false => exact ⟨(ms₁, false), ms₁', e₁, rfl, h₁, hlater, fun _ => rfl, fun hr => (by cases hr)⟩
    | true =>
      obtain ⟨r, r', e', hr, h', hlater', hfalse, htrue⟩ := ih false false h₁
      exact ⟨r, r', e', hr, h', hlater.trans hlater', hfalse, htrue⟩

def stdCode (opts : Options) (findPartialMatches : Bool) (r : MatchState × Bool) : ℤ :=
  let aid : ℤ := (pickAccept r.1.accepts).aid
  if !r.2 then aid
  else if !findPartialMatches && canTransition r.1 && !opts.firstMatch then -1
  else if aid ≠ 0 then aid else -1

theorem regexecPartialStd_eq (buffer : List ℕ) (first last : Finset Assertion) (ms : MatchState)
    (findPartialMatches : Bool) : regexecPartialStd opts buffer first last ms findPartialMatches =
      (regexecStdFrom opts first last true buffer ms).map fun r =>
        (r.1, stdCode opts findPartialMatches r) := by
  unfold regexecPartialStd
  cases regexecStdFrom opts first last true buffer ms with
  | none => rfl
  | some r =>
    rw [Option.bind_eq_bind, Option.bind_some, Option.map_some]
    dsimp only [stdCode]
    split
    · rfl
    · split <;> rfl

theorem stdCode_congr (h : Alike recurse nfa g e ms ms') (findPartialMatches b : Bool) :
    stdCode opts findPartialMatches (ms', b) = stdCode opts findPartialMatches (ms, b) := by
  unfold stdCode
  rw [h.same.accepts_eq, canTransition_iff h.left, canTransition_iff h.right]

theorem stdCode_ge (opts : Options) (findPartialMatches : Bool) (r : MatchState × Bool) :
    -1 ≤ stdCode opts findPartialMatches r := by
  unfold stdCode
  dsimp only
  split
  · omega
  · split
    · exact le_rfl
    · split
      · omega
      · exact le_rfl

theorem Alike.stuck (opts : Options) (hP : Partition nfa g) (hbare : nfa.Bare) (h : Alike recurse nfa g e ms ms')
    (hstuck : canTransition ms = false) (haid : (pickAccept ms.accepts).aid ≠ 0)
    (first last : Finset Assertion) (findPartialMatches : Bool) (rest : List ℕ) (atBegin : Bool) :
    ∃ r' e', regexecStdFrom opts first last atBegin rest ms' = some r' ∧
      stdCode opts findPartialMatches r' = (pickAccept ms.accepts).aid ∧
      Alike recurse nfa g e' ms r'.1 := by
  have hempty : (specTrans nfa e g.zipIdx).isEmpty = true := by
    rw [canTransition_iff h.left, Bool.not_eq_false'] at hstuck
    exact hstuck
  cases rest with
  | nil =>
    refine ⟨(ms', true), e, rfl, ?_, h⟩
    rw [stdCode_congr h, stdCode, hstuck, Bool.and_false, Bool.false_and]
    exact if_pos (Int.natCast_ne_zero.mpr haid)
  | cons cp rest =>
    obtain ⟨ms₁, b, hadv, hlater, hcase⟩ := matchStateAdvance_scan opts hP hbare h.right cp
      (assertionsAt atBegin rest first last)
    obtain ⟨rfl, -, hscans, hsame⟩ | ⟨c, s, -, hsome, -⟩ := hcase
    · refine ⟨(ms₁, false), e, ?_, ?_, ⟨h.left, hscans, h.same.trans hsame⟩⟩
      · rw [regexecStdFrom, hadv, Option.bind_eq_bind, Option.bind_some]
        rfl
      · rw [stdCode, hsame.accepts_eq, h.same.accepts_eq]
        rfl
    · rw [specFind, List.isEmpty_iff.mp hempty] at hsome
      cases hsome

end

end Hilti.Justrx
