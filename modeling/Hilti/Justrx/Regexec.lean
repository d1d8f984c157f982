import Hilti.Justrx.Minimal

/-!
# Matching a string

The model of `jrx_regcomp`, `jrx_reggroups` and `jrx_regexec`, for a pattern that has been parsed.  A
string is a list of bytes without a zero byte; its characters are signed, and become code points with
their sign.  Computing states on demand changes the DFA, so a match returns the regular expression.

A call that fails has no value: `jrx_regcomp` for an error, and `jrx_reggroups` where its assertion
does not hold.  What is returned depends on the DFA alone, so the NFA is not part of the regular
expression, and `errmsg` and `re_nsub` are left out.
-/

namespace Hilti.Justrx

open Hilti.Lib

set_option autoImplicit false

/-! ## Compiling -/

/-- The flags of `jrx_regcomp`, apart from the one for output. -/
structure Cflags where
  extended : Bool
  noSub : Bool
  icase : Bool
  newline : Bool
  stdMatcher : Bool
  anchor : Bool
  lazy : Bool
  firstMatch : Bool

/-- The flags for which `_options` reports no error. -/
def Cflags.Supported (cflags : Cflags) : Prop :=
  cflags.extended = true ∧ cflags.icase = false ∧ cflags.newline = false

instance (cflags : Cflags) : Decidable cflags.Supported :=
  inferInstanceAs (Decidable (_ ∧ _ ∧ _))

/-- `jrx_regex_t`: its flags, its DFA, and the `max_capture` of the latter. -/
structure Regex where
  opts : Options
  dfa : Dfa
  maxCapture : ℕ

/-- The flags as the matchers get to see them; `jrx_regset_init` adds one if there are captures. -/
def Cflags.options (cflags : Cflags) (maxTag : ℤ) : Options :=
  ⟨cflags.noSub, cflags.stdMatcher || !cflags.noSub, cflags.firstMatch, maxTag⟩

/-- `jrx_regcomp`. -/
def jrxRegcomp (fuel : ℕ) (cflags : Cflags) (pattern : Pattern) : Option Regex :=
  if cflags.Supported then do
    let nmatch : ℤ := if cflags.noSub then 0 else -1
    let nfa ← buildRegexp pattern (nfaContextCreate (!cflags.anchor) nmatch)
    let r ← nfaRemoveEpsilons nfa.1 nfa.2
    let dfa ← dfaFromNfa cflags.lazy fuel (r.ctx.toNfa nfa.1.initial r.initialTags)
    some ⟨cflags.options r.ctx.maxTag, dfa, r.ctx.maxCapture⟩
  else none

/-! ## Matching -/

/-- A string in memory, up to its zero byte. -/
abbrev CString := { bytes : List UInt8 // 0 ∉ bytes }

/-- The code point for a byte: a `char` has a sign. -/
def charOf (byte : UInt8) : ℕ :=
  byte.toInt8.toInt32.toUInt32.toNat

def CString.chars (string : CString) : List ℕ :=
  string.1.map charOf

/-- What `jrx_regexec_partial` gets to see of a string: the length has 32 bits. -/
def CString.visible (string : CString) : List ℕ :=
  string.chars.take (string.1.length % 2 ^ 32)

def regOk : ℕ := 0

def regNotSupported : ℕ := 1

def regNoMatch : ℕ := 4

/-- `_clear_pmatch`. -/
def clearPmatch (pmatch : List (ℤ × ℤ)) (firstZero : Bool) : List (ℤ × ℤ) :=
  pmatch.mapIdx fun i _ => if firstZero ∧ i = 0 then (0, 0) else (-1, -1)

/-- `jrx_reggroups`, with the code it returns and the groups. -/
def jrxReggroups (preg : Regex) (ms : MatchState) (pmatch : List (ℤ × ℤ)) :
    Option (ℕ × List (ℤ × ℤ)) :=
  if !preg.opts.stdMatcher || preg.opts.noCapture then some (regOk, clearPmatch pmatch true)
  else if ms.accepts = [] then some (regNoMatch, clearPmatch pmatch false)
  else
    (pickAccept ms.accepts).tags.map fun tags =>
      (regOk, pmatch.mapIdx fun i _ =>
        if i ≤ preg.maxCapture ∧ (i * 2 + 1 : ℤ) ≤ preg.opts.maxTag ∧ 0 < tags (i * 2) ∧
            0 < tags (i * 2 + 1) then
          ((ms.begin : ℤ) + tags (i * 2) - 1, (ms.begin : ℤ) + tags (i * 2 + 1) - 1)
        else (-1, -1))

/-- What `jrx_regexec` returns and changes. -/
structure Executed where
  rc : ℕ
  pmatch : List (ℤ × ℤ)
  preg : Regex

/-- `jrx_regexec`; `string` may be a null pointer. -/
def jrxRegexec (preg : Regex) (string : Option CString) (pmatch : List (ℤ × ℤ))
    (notBol notEol : Bool) : Option Executed :=
  if notEol || notBol then some ⟨regNotSupported, pmatch, preg⟩
  else
    match string with
    | none => some ⟨regOk, clearPmatch pmatch true, preg⟩
    | some string =>
      if string.1 = [] then some ⟨regOk, clearPmatch pmatch true, preg⟩
      else do
        let ms ← matchStateInit preg.opts preg.dfa 0
        let r ← regexecPartial preg.opts string.visible {.bol, .bod} {.eol, .eod} ms true
        let preg := { preg with dfa := r.1.dfa }
        if r.2 ≤ 0 then some ⟨regNoMatch, pmatch, preg⟩
        else do
          let groups ← jrxReggroups preg r.1 pmatch
          some ⟨groups.1, groups.2, preg⟩

/-- What a regular expression may be after any number of matches. -/
inductive Used (preg : Regex) : Regex → Prop where
  | start : Used preg preg
  | exec {preg' : Regex} {string : Option CString} {pmatch : List (ℤ × ℤ)} {notBol notEol : Bool}
      {r : Executed} : Used preg preg' → jrxRegexec preg' string pmatch notBol notEol = some r →
      Used preg r.preg

/-! ## What a match keeps -/

/-- What holds while a match is running: it adds to the DFA only states that it may be asked for, and
accepts have tags if there are captures. -/
structure Running (opts : Options) (recurse : Bool) (dfa : Dfa) (ms : MatchState) : Prop where
  idle : Idle recurse ms.dfa
  extends_ : Extends dfa ms.dfa
  state : ∀ id, ms.state = some id → ∃ e, ms.dfa.hstates[id]? = some e
  tagged : opts.noCapture = false → ∀ acc ∈ ms.accepts, acc.tags ≠ none

section

variable {opts : Options} {recurse : Bool} {dfa : Dfa} {ms ms' : MatchState}

theorem mem_recordAccept_tags {accepts : List MatchAccept} {aid : ℕ} {ntags : ℕ → ℕ}
    {acc : MatchAccept} (h : acc ∈ recordAccept accepts aid ntags) :
    acc.tags ≠ none ∨ acc ∈ accepts := by
  have hnew : ∀ l, acc ∈ acceptInsert ⟨aid, some ntags⟩ l → acc.tags ≠ none ∨ acc ∈ l := by
    intro l hmem
    cases mem_acceptInsert hmem with
    | inl heq => exact .inl (heq ▸ Option.some_ne_none ntags)
    | inr hold => exact .inr hold
  unfold recordAccept at h
  split at h
  · exact hnew _ h
  · split at h
    · exact (hnew _ h).imp_right fun hmem => (List.mem_filter.mp hmem).1
    · exact .inr h

theorem updateAcceptsFrom_tags (hcapture : opts.noCapture = false) {cp : ℕ}
    {assertions : Finset Assertion} (accs : List DfaAccept) : ∀ accepts : List MatchAccept,
    (∀ acc ∈ accepts, acc.tags ≠ none) →
      ∀ acc ∈ updateAcceptsFrom opts ms cp assertions accs accepts, acc.tags ≠ none := by
  induction accs with
  | nil => exact fun _ h => h
  | cons a accs ih =>
    intro accepts h
    rw [updateAcceptsFrom_cons, hcapture, if_neg Bool.false_ne_true]
    split
    · apply ih
      intro acc hacc
      exact (mem_recordAccept_tags hacc).elim id (h acc)
    · exact ih accepts h

theorem Running.updateAccepts (h : Running opts recurse dfa ms) (s : DfaState) (cp : ℕ)
    (assertions : Finset Assertion) :
    Running opts recurse dfa (Justrx.updateAccepts opts ms s cp assertions) where
  idle := h.idle
  extends_ := h.extends_
  state := h.state
  tagged hcapture := updateAcceptsFrom_tags hcapture s.accepts ms.accepts (h.tagged hcapture)

theorem Running.updateTags (h : Running opts recurse dfa ms) (tops : List TagOp) :
    Running opts recurse dfa (Justrx.updateTags ms tops) where
  idle := by rw [updateTags_dfa]; exact h.idle
  extends_ := by rw [updateTags_dfa]; exact h.extends_
  state := by rw [updateTags_dfa, updateTags_state]; exact h.state
  tagged := by rw [updateTags_accepts]; exact h.tagged

theorem Running.find (h : Running opts recurse dfa ms) {id : ℕ} (hid : ms.state = some id)
    {pass : Ccl → Bool} {r : Dfa × DfaState × Option (DfaTransition × DfaState)}
    (hr : findTransition pass ms.dfa id = some r) :
    Idle recurse r.1 ∧ Extends dfa r.1 ∧ (∃ e, r.1.hstates[id]? = some e) ∧
      ∀ t succ, r.2.2 = some (t, succ) → ∃ e, r.1.hstates[t.succ]? = some e := by
  obtain ⟨e, he⟩ := h.state id hid
  obtain ⟨dfa', s, o, hfind, hidle, hx, -, -, hcase⟩ := findTransition_spec h.idle he pass
  rw [hfind] at hr
  cases hr
  refine ⟨hidle, h.extends_.trans hx, ⟨e, hx.get he⟩, fun t succ ho => ?_⟩
  cases hcase with
  | inl hcase =>
    rw [hcase.1] at ho
    cases ho
  | inr hcase =>
    obtain ⟨t', succ', c, ho', -, htc, -⟩ := hcase
    rw [ho'] at ho
    cases ho
    exact ⟨c.2.1, htc.2.1⟩

theorem Running.advance (h : Running opts recurse dfa ms) {cp : ℕ} {assertions : Finset Assertion}
    {b : Bool} (hr : matchStateAdvance opts ms cp assertions = some (ms', b)) :
    Running opts recurse dfa ms' := by
  obtain ⟨id, hid, hr⟩ := Option.bind_eq_some_iff.mp hr
  obtain ⟨r, hfind, hr⟩ := Option.bind_eq_some_iff.mp hr
  obtain ⟨hidle, hx, he, hsucc⟩ := h.find hid hfind
  dsimp only at hr
  split at hr
  · cases hr
    refine ⟨hidle, hx, fun id' hid' => ?_, h.tagged⟩
    rw [Option.some.inj (hid'.symm.trans hid)]
    exact he
  · rename_i t succ ho
    cases hr
    have hmoved : Running opts recurse dfa
        { ms with dfa := r.1, state := some t.succ, previous := cp } := by
      refine ⟨hidle, hx, fun id' hid' => ?_, h.tagged⟩
      rw [← Option.some.inj hid']
      exact hsucc t succ ho
    have htags := hmoved.updateTags t.tops
    apply Running.updateAccepts
    exact ⟨htags.idle, htags.extends_, htags.state, htags.tagged⟩

theorem Running.advanceMin (h : Running opts recurse dfa ms) {cp : ℕ}
    {assertions : Finset Assertion} (rc : ℤ)
    (hr : matchStateAdvanceMin ms cp assertions = some (ms', rc)) :
    Running opts recurse dfa ms' := by
  obtain ⟨id, hid, hr⟩ := Option.bind_eq_some_iff.mp hr
  obtain ⟨r, hfind, hr⟩ := Option.bind_eq_some_iff.mp hr
  obtain ⟨hidle, hx, he, hsucc⟩ := h.find hid hfind
  dsimp only at hr
  split at hr
  · rename_i t succ ho
    have hmoved : Running opts recurse dfa { ms with
        offset := ms.offset + 1, dfa := r.1, state := some t.succ, previous := cp } := by
      refine ⟨hidle, hx, fun id' hid' => ?_, h.tagged⟩
      rw [← Option.some.inj hid']
      exact hsucc t succ ho
    split at hr
    all_goals
      cases hr
      exact hmoved
  · split at hr
    · cases hr
      exact ⟨hidle, hx, fun _ hid' => (nomatch hid'), h.tagged⟩
    · cases hr
      refine ⟨hidle, hx, fun id' hid' => ?_, h.tagged⟩
      rw [Option.some.inj (hid'.symm.trans hid)]
      exact he

theorem Running.stdFrom {first last : Finset Assertion} (buffer : List ℕ) :
    ∀ {atBegin : Bool} {ms : MatchState} {r : MatchState × Bool}, Running opts recurse dfa ms →
      regexecStdFrom opts first last atBegin buffer ms = some r → Running opts recurse dfa r.1 := by
  induction buffer with
  | nil =>
    intro atBegin ms r h hr
    cases hr
    exact h
  | cons cp buffer ih =>
    intro atBegin ms r h hr
    obtain ⟨r₁, hadv, hr⟩ := Option.bind_eq_some_iff.mp hr
    have h₁ := h.advance (b := r₁.2) hadv
    split at hr
    · exact ih h₁ hr
    · cases hr
      exact h₁

theorem Running.minFrom {first last : Finset Assertion} (buffer : List ℕ) :
    ∀ {atBegin : Bool} {eo : ℕ} {ms : MatchState} {r : MatchState × ℕ × Option ℤ},
      Running opts recurse dfa ms →
      regexecMinFrom opts first last atBegin buffer eo ms = some r → Running opts recurse dfa r.1 := by
  induction buffer with
  | nil =>
    intro atBegin eo ms r h hr
    cases hr
    exact h
  | cons cp buffer ih =>
    intro atBegin eo ms r h hr
    obtain ⟨r₁, hadv, hr⟩ := Option.bind_eq_some_iff.mp hr
    have h₁ := h.advanceMin _ hadv
    split at hr
    · cases hr
      exact ⟨h₁.idle, h₁.extends_, h₁.state, h₁.tagged⟩
    · split at hr
      · have hfound : Running opts recurse dfa { r₁.1 with acc := r₁.2 } :=
          ⟨h₁.idle, h₁.extends_, h₁.state, h₁.tagged⟩
        dsimp only at hr
        split at hr
        · cases hr
          exact hfound
        · exact ih hfound hr
      · exact ih h₁ hr

theorem Running.partial_ {first last : Finset Assertion} {buffer : List ℕ}
    {findPartialMatches : Bool} {r : MatchState × ℤ} (h : Running opts recurse dfa ms)
    (hr : regexecPartial opts buffer first last ms findPartialMatches = some r) :
    Running opts recurse dfa r.1 := by
  unfold regexecPartial at hr
  split at hr
  · obtain ⟨r₁, hrun, hr⟩ := Option.bind_eq_some_iff.mp hr
    have h₁ := h.stdFrom buffer hrun
    split at hr
    · cases hr
      exact h₁
    · split at hr
      all_goals
        cases hr
        exact h₁
  · obtain ⟨r₁, hrun, hr⟩ := Option.bind_eq_some_iff.mp hr
    have h₁ := h.minFrom buffer hrun
    have hreset : Running opts recurse dfa { r₁.1 with offset := r₁.2.1 } :=
      ⟨h₁.idle, h₁.extends_, h₁.state, h₁.tagged⟩
    split at hr
    · cases hr
      exact h₁
    · dsimp only at hr
      split at hr
      all_goals
        cases hr
        exact hreset

theorem running_init {nfa : Nfa} (h : dfa.Ready recurse nfa)
    (hr : matchStateInit opts dfa 0 = some ms) : Running opts recurse dfa ms := by
  have hstart : Running opts recurse dfa ⟨1, 0, dfa, some dfa.initial, 0, [], false, fun _ => noTags,
      fun _ => noTags, -1⟩ := by
    refine ⟨h.idle, .refl dfa, fun id hid => ?_, fun _ _ hacc => (nomatch hacc)⟩
    cases hid
    exact ⟨_, h.initial⟩
  unfold matchStateInit at hr
  dsimp only at hr
  split at hr
  · have htags := hstart.updateTags dfa.initialOps
    rw [updateTags_dfa] at hr
    obtain ⟨r, hget, hr⟩ := Option.bind_eq_some_iff.mp hr
    cases hr
    obtain ⟨dfa', s, hget', hidle, hx, -, -⟩ := dfaGetState_spec h.idle h.initial
    rw [hget] at hget'
    cases hget'
    apply Running.updateAccepts
    refine ⟨hidle, hx, fun id hid => ?_, htags.tagged⟩
    rw [updateTags_state] at hid
    cases hid
    exact ⟨_, hx.get h.initial⟩
  · cases hr
    exact hstart

theorem Dfa.Ready.extend {nfa : Nfa} {dfa' : Dfa} (h : dfa.Ready recurse nfa)
    (hidle : Idle recurse dfa') (hx : Extends dfa dfa') : dfa'.Ready recurse nfa where
  idle := hidle
  nfa_eq := hx.nfa_eq.trans h.nfa_eq
  partition := by
    rw [hx.ccls_eq]
    exact h.partition
  initial := by
    rw [hx.initial_eq]
    exact hx.get h.initial

end

/-! ## What a match reports -/

/-- Whether a part of a word is in the language of the pattern: its beginning, if anchored. -/
def Pattern.Occurs (anchored : Bool) (pattern : Pattern) (word : List ℕ) : Prop :=
  ∃ v ∈ pattern.language Set.univ, if anchored then v <+: word else v <:+: word

/-- What the matchers find of a language in a word.  The minimal one finds nothing at all only if the
NFA does not get anywhere with the first character. -/
def Regex.Finds (preg : Regex) (L : Language ℕ) (word : List ℕ) : Prop :=
  if preg.opts.stdMatcher then ∃ v ∈ L, v <+: word
  else (∃ v ∈ L, v ≠ [] ∧ v <+: word) ∨ ∃ cp rest, word = cp :: rest ∧ [] ∈ L ∧
    preg.dfa.nfa.toNFA.stepSet { preg.dfa.nfa.initial } cp = ∅

section

variable {recurse : Bool} {nfa : Nfa} {L : Language ℕ} {preg preg' : Regex}

theorem jrxReggroups_ok (preg : Regex) {ms : MatchState} (pmatch : List (ℤ × ℤ))
    (h : preg.opts.stdMatcher = true → ms.accepts ≠ [])
    (htags : preg.opts.noCapture = false → ∀ acc ∈ ms.accepts, acc.tags ≠ none) :
    ∃ groups, jrxReggroups preg ms pmatch = some (regOk, groups) := by
  unfold jrxReggroups
  split
  · exact ⟨_, rfl⟩
  · rename_i hflags
    simp only [Bool.or_eq_true, Bool.not_eq_true', not_or, Bool.not_eq_false, Bool.not_eq_true]
      at hflags
    obtain ⟨hstd, hcapture⟩ := hflags
    rw [if_neg (h hstd)]
    obtain ⟨tags, htags⟩ := Option.ne_none_iff_exists'.mp
      (htags hcapture _ (pickAccept_mem (h hstd)))
    rw [htags]
    exact ⟨_, rfl⟩

theorem regexecPartial_finds (h : preg.dfa.Ready recurse nfa) (hd : nfa.Decides L)
    (first last : Finset Assertion) (buffer : List ℕ) :
    ∃ ms ms' rc, matchStateInit preg.opts preg.dfa 0 = some ms ∧
      regexecPartial preg.opts buffer first last ms true = some (ms', rc) ∧
      (preg.opts.stdMatcher = true → 0 < rc → ms'.accepts ≠ []) ∧
      (0 < rc ↔ preg.Finds L buffer) := by
  unfold Regex.Finds
  cases hstd : preg.opts.stdMatcher with
  | true =>
    obtain ⟨ms, hms, hall⟩ := h.std_accepts hd.tagged hd.positive hd.orderly hstd
    obtain ⟨ms', rc, hrun, hne, hiff⟩ := hall buffer first last (uniformFrom_of_free hd.free _ _)
    refine ⟨ms, ms', rc, hms, ?_, fun _ => hne, ?_⟩
    · rw [regexecPartial, if_pos hstd, hrun]
    · rw [hiff, exists_prefix_iff hd, if_pos rfl]
  | false =>
    obtain ⟨ms, ms', rc, hms, hrun, hiff⟩ := regexecPartialMin_finds h hd hstd first last buffer
    refine ⟨ms, ms', rc, hms, hrun, fun hcon => (nomatch hcon), ?_⟩
    have hL : nfa.toNFA.acceptsFrom { nfa.initial } = L := hd.language
    rw [hiff, if_neg Bool.false_ne_true, Nfa.FindsMin, hL, h.nfa_eq]
    apply or_congr_left
    apply exists_congr
    intro v
    tauto

theorem jrxRegexec_spec (h : preg.dfa.Ready recurse nfa) (hd : nfa.Decides L) (string : CString)
    (pmatch : List (ℤ × ℤ)) : ∃ r, jrxRegexec preg (some string) pmatch false false = some r ∧
      (r.rc = regOk ↔ string.1 = [] ∨ preg.Finds L string.visible) := by
  unfold jrxRegexec
  rw [Bool.or_false, if_neg Bool.false_ne_true]
  dsimp only
  by_cases hempty : string.1 = []
  · rw [if_pos hempty]
    exact ⟨_, rfl, iff_of_true rfl (.inl hempty)⟩
  · rw [if_neg hempty, or_iff_right hempty]
    obtain ⟨ms, ms', rc, hms, hrun, hne, hiff⟩ :=
      regexecPartial_finds h hd {.bol, .bod} {.eol, .eod} string.visible
    have hrunning := (running_init h hms).partial_ hrun
    rw [hms, Option.bind_eq_bind, Option.bind_some, hrun, Option.bind_eq_bind, Option.bind_some]
    dsimp only
    by_cases hrc : rc ≤ 0
    · rw [if_pos hrc]
      have hne : regNoMatch ≠ regOk := by decide
      exact ⟨_, rfl, iff_of_false hne fun hfinds => hrc.not_gt (hiff.mpr hfinds)⟩
    · have hpos : 0 < rc := not_le.mp hrc
      obtain ⟨groups, hgroups⟩ := jrxReggroups_ok { preg with dfa := ms'.dfa } pmatch
        (fun hstd => hne hstd hpos) hrunning.tagged
      rw [if_neg hrc, hgroups]
      exact ⟨_, rfl, iff_of_true rfl (hiff.mp hpos)⟩

theorem Used.ready (h : preg.dfa.Ready recurse nfa) (hused : Used preg preg') :
    preg'.dfa.Ready recurse nfa ∧ preg'.opts = preg.opts := by
  induction hused with
  | start => exact ⟨h, rfl⟩
  | exec hused hexec ih =>
    rename_i preg₁ string pmatch notBol notEol r
    obtain ⟨hready, hopts⟩ := ih
    unfold jrxRegexec at hexec
    split at hexec
    · cases hexec
      exact ⟨hready, hopts⟩
    · split at hexec
      · cases hexec
        exact ⟨hready, hopts⟩
      · split at hexec
        · cases hexec
          exact ⟨hready, hopts⟩
        · obtain ⟨ms, hms, hexec⟩ := Option.bind_eq_some_iff.mp hexec
          obtain ⟨r₁, hrun, hexec⟩ := Option.bind_eq_some_iff.mp hexec
          have hrunning := (running_init hready hms).partial_ hrun
          have hready' := hready.extend hrunning.idle hrunning.extends_
          dsimp only at hexec
          split at hexec
          · cases hexec
            exact ⟨hready', hopts⟩
          · obtain ⟨groups, -, hexec⟩ := Option.bind_eq_some_iff.mp hexec
            cases hexec
            exact ⟨hready', hopts⟩

end

/-! ## Patterns and strings -/

section

variable {cflags : Cflags} {pattern : Pattern}

theorem jrxRegcomp_spec (hflags : cflags.Supported) (hfree : pattern.AssertionFree)
    (hreg : pattern.Regular pattern.negates) :
    ∃ nfa : Nfa, nfa.Decides (pattern.searched (!cflags.anchor)) ∧ ∃ n, ∀ fuel ≥ n, ∃ preg,
      jrxRegcomp fuel cflags pattern = some preg ∧ preg.dfa.Ready (!cflags.lazy) nfa := by
  set ctx := nfaContextCreate (!cflags.anchor) (if cflags.noSub then 0 else -1) with hctx
  obtain ⟨nfa, ctx', r, hbuild, hremove, hplaced⟩ := buildRegexp_spec
    (plain_nfaContextCreate pattern.negates (!cflags.anchor) (if cflags.noSub then 0 else -1))
    hfree hreg
  have hdecides : (r.ctx.toNfa nfa.initial r.initialTags).Decides
      (pattern.searched (!cflags.anchor)) := by
    apply hplaced.plain.decides hplaced.epsilonFree
    intro x
    rw [exists_congr fun aid => hplaced.accepts_iff aid x, exists_eq_left]
    rfl
  obtain ⟨n, hn⟩ := exists_ready hdecides.orderly cflags.lazy
  refine ⟨_, hdecides, n, fun fuel hfuel => ?_⟩
  obtain ⟨dfa, hdfa, hready⟩ := hn fuel hfuel
  refine ⟨⟨cflags.options r.ctx.maxTag, dfa, r.ctx.maxCapture⟩, ?_, hready⟩
  rw [jrxRegcomp, if_pos hflags]
  dsimp only
  rw [← hctx, hbuild, Option.bind_eq_bind, Option.bind_some, hremove, Option.bind_eq_bind,
    Option.bind_some, hdfa]
  rfl

theorem occurs_nil {anchored : Bool} :
    pattern.Occurs anchored [] ↔ [] ∈ pattern.language Set.univ := by
  constructor
  · intro h
    obtain ⟨v, hv, hpart⟩ := h
    have hnil : v = [] := by
      split at hpart
      · exact List.prefix_nil.mp hpart
      · exact List.infix_nil.mp hpart
    exact hnil ▸ hv
  · intro h
    refine ⟨[], h, ?_⟩
    split
    · exact List.nil_prefix
    · exact List.nil_infix

theorem occurs_of_finds {preg : Regex} {word : List ℕ} (rest : List ℕ)
    (h : preg.Finds (pattern.searched (!cflags.anchor)) word) :
    pattern.Occurs cflags.anchor (word ++ rest) := by
  have hoccurs : ∀ v ∈ pattern.searched (!cflags.anchor), v <+: word →
      pattern.Occurs cflags.anchor (word ++ rest) := by
    intro v hv hpre
    have hmono := Pattern.language_mono (Set.subset_univ below) pattern
    unfold Pattern.searched at hv
    unfold Pattern.Occurs
    cases hanchor : cflags.anchor with
    | true =>
      rw [hanchor] at hv
      exact ⟨v, hmono hv, hpre.trans (List.prefix_append _ _)⟩
    | false =>
      rw [hanchor] at hv
      obtain ⟨a, -, b, hb, rfl⟩ := Language.mem_mul.mp hv
      refine ⟨b, hmono hb, ?_⟩
      obtain ⟨more, hmore⟩ := hpre
      exact ⟨a, more ++ rest, by rw [← hmore, ← List.append_assoc]⟩
  unfold Regex.Finds at h
  split at h
  · obtain ⟨v, hv, hpre⟩ := h
    exact hoccurs v hv hpre
  · cases h with
    | inl h =>
      obtain ⟨v, hv, -, hpre⟩ := h
      exact hoccurs v hv hpre
    | inr h =>
      obtain ⟨cp, rest', -, hnil, -⟩ := h
      exact hoccurs [] hnil List.nil_prefix

/-- The condition for a string: the empty one, which is always reported as a match, has to be one;
and what occurs in another one has to be found in the part of it that is looked at, among the words
of characters that ranges can have. -/
def Regex.Fits (preg : Regex) (anchored : Bool) (pattern : Pattern) (string : CString) : Prop :=
  if string.1 = [] then [] ∈ pattern.language Set.univ
  else pattern.Occurs anchored string.chars →
    preg.Finds (pattern.searched (!anchored)) string.visible

end

/-- An anchored pattern, with captures. -/
def anchoredFlags : Cflags :=
  ⟨true, false, false, false, false, true, false, false⟩

/-- The minimal matcher is for patterns without captures. -/
def minimalFlags : Cflags :=
  { anchoredFlags with noSub := true }

end Hilti.Justrx
