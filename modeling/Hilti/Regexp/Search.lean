import Hilti.Justrx.Capturing
import Hilti.Regexp.Tokens

/-!
# Searching piece by piece

Searching with captures, for what it finds depends on nothing but the data: not on the blocks it is in,
nor on what has been searched before with the same regular expression.
-/

namespace Hilti.Regexp

open Hilti.Lib Hilti.Justrx

set_option autoImplicit false

section

variable {recurse : Bool} {nfa : Nfa} {g : Group} {opts : Options} {ms ms' : MatchState}
  {e : List Elem}

theorem regexecPartial_std (hstd : opts.stdMatcher = true) (buffer : List ℕ)
    (first last : Finset Assertion) (ms : MatchState) (findPartialMatches : Bool) :
    regexecPartial opts buffer first last ms findPartialMatches =
      (regexecStdFrom opts first last true buffer ms).map fun r =>
        (r.1, stdCode opts findPartialMatches r) := by
  rw [regexecPartial, hstd, if_pos rfl, regexecPartialStd_eq]

theorem searchBlocks_alike (hP : Partition nfa g) (hbare : nfa.Bare) (hstd : opts.stdMatcher = true)
    (hfirst : opts.firstMatch = false) (findPartialMatches : Bool) (first first' last' : Finset Assertion)
    (blocks : List (List ℕ)) : blocks ≠ [] → ∀ (last : Finset Assertion) (atBegin : Bool)
      {ms ms' : MatchState} {e : List Elem}, Alike recurse nfa g e ms ms' →
      ∃ r r' e', searchBlocks opts findPartialMatches first last blocks ms = some r ∧
        regexecStdFrom opts first' last' atBegin blocks.flatten ms' = some r' ∧
        r.2.1 = stdCode opts findPartialMatches r' ∧ Alike recurse nfa g e' r.1 r'.1 ∧
        Later ms.dfa r.1.dfa := by
  induction blocks with
  | nil => exact fun hne => absurd rfl hne
  | cons block blocks ih =>
    intro _ last atBegin ms ms' e h
    set last₁ := if blocks.isEmpty then last ∪ {.eol, .eod} else last with hlast₁
    obtain ⟨r, r', e', hr, h', hlater, hfalse, htrue⟩ := h.stdFrom_append opts hP hbare first
      last₁ first' last' block blocks.flatten true atBegin
    have hsearch : searchBlocks opts findPartialMatches first last (block :: blocks) ms =
        if stdCode opts (blocks.isEmpty && findPartialMatches) r < 0 then
          searchBlocks opts findPartialMatches first last₁ blocks r.1
        else some (r.1, stdCode opts (blocks.isEmpty && findPartialMatches) r, last₁) := by
      rw [searchBlocks, ← hlast₁, regexecPartial_std hstd, hr]
      rfl
    rw [hsearch, List.flatten_cons]
    cases hthrough : r.2 with
    | false =>
      have hcode : ∀ fpm ms, stdCode opts fpm (ms, false) = (pickAccept ms.accepts).aid :=
        fun _ _ => rfl
      have hr₁ : r = (r.1, false) := by rw [← hthrough]
      rw [hfalse hthrough, hr₁, hcode, if_neg (Int.natCast_nonneg _).not_gt]
      refine ⟨_, _, e', rfl, rfl, ?_, h', hlater⟩
      rw [hcode, h'.same.accepts_eq]
    | true =>
      obtain ⟨atBegin', hrest⟩ := htrue hthrough
      have hr₁ : r = (r.1, true) := by rw [← hthrough]
      rw [hrest]
      by_cases hblocks : blocks = []
      · subst hblocks
        have hsame : stdCode opts findPartialMatches r = stdCode opts findPartialMatches (r', true) := by
          rw [hr₁]
          exact (stdCode_congr h' _ _).symm
        have hge := stdCode_ge opts findPartialMatches r
        rw [List.isEmpty_nil, Bool.true_and, List.flatten_nil]
        by_cases hneg : stdCode opts findPartialMatches r < 0
        · rw [if_pos hneg]
          exact ⟨_, (r', true), e', rfl, rfl, by rw [← hsame]; dsimp only; omega, h', hlater⟩
        · rw [if_neg hneg]
          exact ⟨_, (r', true), e', rfl, rfl, hsame, h', hlater⟩
      · have hempty : blocks.isEmpty = false := by
          rw [List.isEmpty_eq_false_iff]
          exact hblocks
        rw [hempty, Bool.false_and]
        by_cases hneg : stdCode opts false r < 0
        · rw [if_pos hneg]
          obtain ⟨r₂, r₂', e₂, hr₂, hr₂', hcode, h₂, hlater₂⟩ := ih hblocks last₁ atBegin'
            h'
          exact ⟨r₂, r₂', e₂, hr₂, hr₂', hcode, h₂, hlater.trans hlater₂⟩
        · -- an accept has been found where there are no transitions
          have hjam : canTransition r.1 = false ∧ (pickAccept r.1.accepts).aid ≠ 0 ∧
              stdCode opts false r = (pickAccept r.1.accepts).aid := by
            have hcode : stdCode opts false r = if canTransition r.1 then (-1 : ℤ) else
                if ((pickAccept r.1.accepts).aid : ℤ) ≠ 0 then ((pickAccept r.1.accepts).aid : ℤ)
                  else -1 := by
              rw [stdCode, hthrough, hfirst]
              cases canTransition r.1 <;> rfl
            rw [hcode] at hneg ⊢
            cases hcan : canTransition r.1 with
            | true =>
              rw [hcan] at hneg
              exact absurd (show (-1 : ℤ) < 0 by decide) hneg
            | false =>
              rw [hcan, if_neg Bool.false_ne_true] at hneg
              rw [if_neg Bool.false_ne_true]
              split at hneg
              · rename_i haid
                exact ⟨rfl, Int.natCast_ne_zero.mp haid, if_pos haid⟩
              · exact absurd (show (-1 : ℤ) < 0 by decide) hneg
          obtain ⟨hcan, haid, hcode⟩ := hjam
          obtain ⟨r₂', e₂, hr₂', hcode', h₂⟩ := h'.stuck opts hP hbare hcan haid first' last'
            findPartialMatches blocks.flatten atBegin'
          rw [if_neg hneg]
          exact ⟨_, r₂', e₂, rfl, hr₂', hcode.trans hcode'.symm, h₂, hlater⟩

/-! ## One search -/

theorem matchStateInit_scan (hstd : opts.stdMatcher = true) (hbare : nfa.Bare) {dfa : Dfa}
    (h : Base recurse nfa g dfa) (begin : ℕ) {base : MatchState}
    (hbase : SameTags base ⟨1, begin, dfa, none, 0, [], false, fun _ => noTags, fun _ => noTags, -1⟩) :
    ∃ ms s, matchStateInit opts dfa begin = some ms ∧ Later dfa ms.dfa ∧
      Scans recurse nfa g ms nfa.initialElems ∧ s.accepts = acceptsOf nfa nfa.initialElems ∧
      SameTags (updateAccepts opts (updateTags base dfa.initialOps) s 0 ∅) ms := by
  obtain ⟨dfa', s, hget, hidle, hx, hm, -⟩ := dfaGetState_spec h.ready.idle h.ready.initial
  obtain ⟨hretains, hslot⟩ := dfaGetState_retains hget
  set ms₀ : MatchState := ⟨1, begin, dfa, some dfa.initial, 0, [], false, fun _ => noTags,
    fun _ => noTags, -1⟩ with hms₀
  set ms₁ : MatchState := { updateTags ms₀ dfa.initialOps with dfa := dfa' } with hms₁
  have hs : s.accepts = acceptsOf nfa nfa.initialElems := by
    rw [hm.accepts_eq, hx.nfa_eq, h.ready.nfa_eq]
  have hstate : ms₁.state = some dfa.initial := updateTags_state ms₀ _
  refine ⟨updateAccepts opts ms₁ s 0 {.bol, .bod}, s, ?_, ⟨hx, hretains⟩, ⟨⟨hidle,
    hx.nfa_eq.trans h.ready.nfa_eq, hx.ccls_eq.trans h.ccls_eq, dfa.initial, hstate,
    hx.get h.ready.initial⟩, s, ?_⟩, hs, ?_⟩
  · have hget₀ : dfaGetState ms₀.dfa dfa.initial = some (dfa', s) := hget
    simp only [matchStateInit, hstd, if_true, ← hms₀, updateTags_dfa, hget₀, Option.bind_eq_bind,
      Option.bind_some]
    rfl
  · change ms₁.state.map dfa'.slot = some (.state s)
    rw [hstate, Option.map_some, hslot]
  · have hstart : SameTags base ms₀ := hbase.trans ⟨rfl, rfl, rfl, rfl, rfl, rfl⟩
    have htags : SameTags (updateTags base dfa.initialOps) ms₁ :=
      (hstart.updateTags dfa.initialOps).trans ⟨rfl, rfl, rfl, rfl, rfl, rfl⟩
    exact htags.updateAccepts rfl (hs ▸ acceptsOf_free hbare)

theorem matchStateInit_alike (hstd : opts.stdMatcher = true) (hbare : nfa.Bare) {dfa dfa' : Dfa}
    (h : Base recurse nfa g dfa) (h' : Base recurse nfa g dfa') (hops : dfa'.initialOps = dfa.initialOps)
    (begin : ℕ) : ∃ ms ms', matchStateInit opts dfa begin = some ms ∧
      matchStateInit opts dfa' begin = some ms' ∧ Later dfa ms.dfa ∧
      Alike recurse nfa g nfa.initialElems ms ms' := by
  set base : MatchState := ⟨1, begin, dfa, none, 0, [], false, fun _ => noTags, fun _ => noTags, -1⟩
  have hbase : SameTags base
      ⟨1, begin, dfa', none, 0, [], false, fun _ => noTags, fun _ => noTags, -1⟩ :=
    ⟨rfl, rfl, rfl, rfl, rfl, rfl⟩
  obtain ⟨ms, s, hms, hlater, hscans, hs, hsame⟩ := matchStateInit_scan hstd hbare h begin
    (.refl base)
  obtain ⟨ms', s', hms', -, hscans', hs', hsame'⟩ := matchStateInit_scan hstd hbare h' begin
    hbase
  refine ⟨ms, ms', hms, hms', hlater, hscans, hscans', hsame.symm.trans (.trans ?_ hsame')⟩
  rw [hops]
  exact (SameTags.refl _).updateAccepts (hs'.trans hs.symm) (hs ▸ acceptsOf_free hbare)

theorem reggroups_congr (h : SameTags ms ms') : reggroups opts ms' = reggroups opts ms := by
  unfold reggroups
  rw [h.accepts_eq, h.begin_eq]

theorem searchPattern_spec (preg : Regex) (hP : Partition nfa g) (hbare : nfa.Bare)
    (hstd : preg.opts.stdMatcher = true) (hfirst : preg.opts.firstMatch = false)
    {blocks : List (List ℕ)} (hblocks : blocks ≠ []) {ms₀ : MatchState}
    (hms : matchStateInit preg.opts preg.dfa 0 = some ms)
    (h : Alike recurse nfa g e ms ms₀) (findPartialMatches : Bool) :
    ∃ r r₀, searchPattern preg blocks false findPartialMatches = some r ∧
      regexecStdFrom preg.opts ∅ ∅ true blocks.flatten ms₀ = some r₀ ∧
      r.acc = stdCode preg.opts findPartialMatches r₀ ∧
      r.span = (if 0 < r.acc then some (reggroups preg.opts r₀.1) else none) ∧
      SameTags r.ms r₀.1 ∧ Later ms.dfa r.ms.dfa ∧ Idle recurse r.ms.dfa := by
  obtain ⟨r, r₀, e', hr, hr₀, hcode, h', hlater⟩ := searchBlocks_alike hP hbare hstd hfirst
    findPartialMatches {.bol, .bod} ∅ ∅ blocks hblocks ∅ true h
  have hge := stdCode_ge preg.opts findPartialMatches r₀
  have hidle : Idle recurse r.1.dfa := h'.left.idle
  have hsearch : searchPattern preg blocks false findPartialMatches =
      if r.2.1 = 0 then some ⟨0, none, r.1⟩
      else if 0 < r.2.1 then some ⟨r.2.1, some (foundSpan preg.opts 0 r.1), r.1⟩
      else some ⟨-1, none, r.1⟩ := by
    rw [searchPattern, if_neg hblocks, searchFrom, hms, Option.bind_eq_bind, Option.bind_some, hr,
      Option.bind_eq_bind, Option.bind_some]
    dsimp only
    rw [hstd, Bool.true_or, Bool.true_or, if_pos rfl]
    rfl
  have hspan : foundSpan preg.opts 0 r.1 = reggroups preg.opts r₀.1 := by
    rw [foundSpan, hstd, if_pos rfl]
    exact (reggroups_congr h'.same).symm
  rw [hsearch]
  by_cases hzero : r.2.1 = 0
  · rw [if_pos hzero]
    exact ⟨_, r₀, rfl, hr₀, hzero ▸ hcode, rfl, h'.same, hlater, hidle⟩
  · rw [if_neg hzero]
    by_cases hpos : 0 < r.2.1
    · rw [if_pos hpos]
      exact ⟨_, r₀, rfl, hr₀, hcode, by rw [if_pos hpos, hspan], h'.same, hlater, hidle⟩
    · rw [if_neg hpos]
      refine ⟨_, r₀, rfl, hr₀, ?_, rfl, h'.same, hlater, hidle⟩
      dsimp only
      omega

end

/-! ## What is found -/

/-- Something in a word is in the language that the id stands for; what precedes it are characters that
patterns know. -/
def FoundIn (Ls : List (Language ℕ)) (aid : ℕ) (word : List ℕ) : Prop :=
  ∃ before v after, word = before ++ v ++ after ∧ (∀ c ∈ before, c ∈ below) ∧ Sorted Ls aid v

section

variable {recurse : Bool} {nfa : Nfa} {g : Group} {opts : Options} {ms : MatchState} {e : List Elem}
  {Ls : List (Language ℕ)} {patterns : List Pattern} {word : List ℕ} {aid : ℕ}

theorem mem_kstar_letters {S : Set ℕ} : word ∈ KStar.kstar (letters S) ↔ ∀ c ∈ word, c ∈ S := by
  rw [Language.mem_kstar]
  constructor
  · intro h c hc
    obtain ⟨l, rfl, hl⟩ := h
    obtain ⟨u, hu, hcu⟩ := List.mem_flatten.mp hc
    obtain ⟨c', hc', rfl⟩ := mem_letters.mp (hl u hu)
    rw [List.mem_singleton.mp hcu]
    exact hc'
  · intro h
    refine ⟨word.map fun c => [c], ?_, fun u hu => ?_⟩
    · induction word with
      | nil => rfl
      | cons c word ih =>
        rw [List.map_cons, List.flatten_cons, ← ih fun c' hc' => h c' (List.mem_cons_of_mem c hc')]
        rfl
    · obtain ⟨c, hc, rfl⟩ := List.mem_map.mp hu
      exact mem_letters.mpr ⟨c, h c hc, rfl⟩

theorem sorted_searched : Sorted (patterns.map (Pattern.searched true)) aid word ↔
    ∃ before v, word = before ++ v ∧ (∀ c ∈ before, c ∈ below) ∧ Sorted (languages patterns) aid v := by
  unfold Sorted languages
  simp only [List.getElem?_map, Option.map_eq_some_iff]
  constructor
  · intro h
    obtain ⟨k, L, rfl, ⟨p, hp, rfl⟩, hword⟩ := h
    rw [Pattern.searched, if_pos rfl] at hword
    obtain ⟨before, hbefore, v, hv, rfl⟩ := Language.mem_mul.mp hword
    exact ⟨before, v, rfl, mem_kstar_letters.mp hbefore, k, _, rfl, ⟨p, hp, rfl⟩, hv⟩
  · intro h
    obtain ⟨before, v, rfl, hbefore, k, L, rfl, ⟨p, hp, rfl⟩, hv⟩ := h
    refine ⟨k, _, rfl, ⟨p, hp, rfl⟩, ?_⟩
    rw [Pattern.searched, if_pos rfl]
    exact Language.mem_mul.mpr ⟨before, mem_kstar_letters.mpr hbefore, v, hv, rfl⟩

theorem foundIn_iff : FoundIn (languages patterns) aid word ↔
    ∃ v, v <+: word ∧ Sorted (patterns.map (Pattern.searched true)) aid v := by
  simp only [sorted_searched]
  constructor
  · intro h
    obtain ⟨before, v, after, rfl, hbefore, hv⟩ := h
    exact ⟨before ++ v, List.prefix_append _ _, before, v, rfl, hbefore, hv⟩
  · intro h
    obtain ⟨u, ⟨after, rfl⟩, before, v, rfl, hbefore, hv⟩ := h
    exact ⟨before, v, after, rfl, hbefore, hv⟩

def Sound (Ls : List (Language ℕ)) (ms : MatchState) (seen : List ℕ) : Prop :=
  ∀ acc ∈ ms.accepts, ∃ v, v <+: seen ∧ Sorted Ls acc.aid v

theorem Sound.updateAccepts {ms ms₁ : MatchState} {seen seen' : List ℕ} (h : Sound Ls ms seen)
    (hpre : seen <+: seen') (hsorts : nfa.Sorts Ls)
    (hnids : nids e = nfa.toNFA.evalFrom { nfa.initial } seen') {s : DfaState}
    (hs : s.accepts = acceptsOf nfa e) (haccepts : ms₁.accepts = ms.accepts) (cp : ℕ)
    (A : Finset Assertion) : Sound Ls (Justrx.updateAccepts opts ms₁ s cp A) seen' := by
  intro acc hacc
  obtain ⟨a, ha, haid⟩ | hold := mem_updateAcceptsFrom s.accepts ms₁.accepts hacc
  · rw [hs] at ha
    obtain ⟨x, hx, ha⟩ := List.mem_flatMap.mp ha
    obtain ⟨a', ha', rfl⟩ := List.mem_map.mp ha
    refine ⟨seen', List.prefix_rfl, (hsorts.marks seen' acc.aid).mp ⟨x.nid, ?_, a', ha', haid.symm⟩⟩
    rw [← hnids]
    exact ⟨x, hx, rfl⟩
  · rw [haccepts] at hold
    obtain ⟨v, hv, hsorted⟩ := h acc hold
    exact ⟨v, hv.trans hpre, hsorted⟩

theorem Sound.congr {ms ms' : MatchState} {seen : List ℕ} (h : Sound Ls ms seen)
    (hsame : SameTags ms ms') : Sound Ls ms' seen := by
  intro acc hacc
  rw [hsame.accepts_eq] at hacc
  exact h acc hacc

theorem Sound.mono {ms : MatchState} {seen seen' : List ℕ} (h : Sound Ls ms seen)
    (hpre : seen <+: seen') : Sound Ls ms seen' := by
  intro acc hacc
  obtain ⟨v, hv, hsorted⟩ := h acc hacc
  exact ⟨v, hv.trans hpre, hsorted⟩

/-- The run lemma. -/
theorem Sound.stdFrom (hP : Partition nfa g) (hsorts : nfa.Sorts Ls) (first last : Finset Assertion)
    (buffer : List ℕ) : ∀ {atBegin : Bool} {ms : MatchState} {e : List Elem} {seen : List ℕ}
      {r : MatchState × Bool}, Scans recurse nfa g ms e →
      nids e = nfa.toNFA.evalFrom { nfa.initial } seen → Sound Ls ms seen →
      regexecStdFrom opts first last atBegin buffer ms = some r → Sound Ls r.1 (seen ++ buffer) := by
  have hbare := hsorts.decides.bare
  induction buffer with
  | nil =>
    intro atBegin ms e seen r _ _ h hr
    cases hr
    rw [List.append_nil]
    exact h
  | cons cp buffer ih =>
    intro atBegin ms e seen r hscans hnids h hr
    obtain ⟨ms₁, b, hadv, -, hcase⟩ := matchStateAdvance_scan opts hP hbare hscans cp
      (assertionsAt atBegin buffer first last)
    rw [regexecStdFrom, hadv, Option.bind_eq_bind, Option.bind_some] at hr
    obtain ⟨rfl, -, -, hsame⟩ | ⟨c, s, rfl, hfind, hscans₁, hs, hsame⟩ := hcase
    · cases hr
      exact (h.congr hsame).mono (List.prefix_append _ _)
    · have hstep := specFind_step hP hsorts.decides.orderly hsorts.decides.tagged (plain cp) (e := e)
        (uniformFrom_of_free hbare.free [plain cp] (nids e)).1
      rw [stepSet_of_free hbare.free] at hstep
      obtain ⟨hnone, -⟩ | ⟨d, hsome, hnids₁, -⟩ := hstep
      · rw [hfind] at hnone
        cases hnone
      · rw [hfind] at hsome
        cases hsome
        have hnids' : nids c.2.1 = nfa.toNFA.evalFrom { nfa.initial } (seen ++ [cp]) := by
          rw [hnids₁, NFA.evalFrom_append, ← hnids]
          rfl
        have hsound : Sound Ls (steppedTags opts ms c.2.2 s) (seen ++ [cp]) := by
          unfold steppedTags
          apply h.updateAccepts (List.prefix_append _ _) hsorts hnids' hs
          exact updateTags_accepts ms c.2.2
        have hall := ih hscans₁ hnids' (hsound.congr hsame) hr
        rw [List.append_assoc, List.singleton_append] at hall
        exact hall

end

/-- What is known about a search of a word. -/
structure Outcome (preg : Regex) (Ls : List (Language ℕ)) (word : List ℕ) (r : Searching) :
    Prop where
  ge : -1 ≤ r.acc
  sound : 0 < r.acc → ∃ aid : ℕ, r.acc = aid ∧ ∃ v, v <+: word ∧ Sorted Ls aid v
  complete : (∃ v ∈ anyOf Ls, v <+: word) → 0 < r.acc
  span : r.span.isSome ↔ 0 < r.acc
  groups : 0 < r.acc → ∀ pmatch, ∃ groups, jrxReggroups preg r.ms pmatch = some (regOk, groups)

section

variable {recurse : Bool} {nfa : Nfa} {g : Group} {preg : Regex} {Ls : List (Language ℕ)}

theorem stdCode_pos {opts : Options} {findPartialMatches : Bool} {r : MatchState × Bool}
    (h : 0 < stdCode opts findPartialMatches r) :
    stdCode opts findPartialMatches r = (pickAccept r.1.accepts).aid ∧ r.1.accepts ≠ [] := by
  have hcode : stdCode opts findPartialMatches r = (pickAccept r.1.accepts).aid := by
    unfold stdCode at h ⊢
    dsimp only at h ⊢
    split
    · rfl
    · rename_i hthrough
      rw [if_neg hthrough] at h
      split at h
      · exact absurd h (by decide)
      · rename_i hcan
        rw [if_neg hcan]
        split at h
        · exact if_pos ‹_›
        · exact absurd h (by decide)
  refine ⟨hcode, fun hnil => ?_⟩
  rw [hcode, hnil] at h
  exact absurd h (lt_irrefl 0)

theorem jrxReggroups_congr {preg preg' : Regex} (hopts : preg'.opts = preg.opts)
    (hmax : preg'.maxCapture = preg.maxCapture) {ms ms' : MatchState} (h : SameTags ms ms')
    (pmatch : List (ℤ × ℤ)) : jrxReggroups preg' ms' pmatch = jrxReggroups preg ms pmatch := by
  unfold jrxReggroups
  rw [hopts, hmax, h.accepts_eq, h.begin_eq]

theorem searchPattern_word (hsorts : nfa.Sorts Ls) (hstd : preg.opts.stdMatcher = true)
    (hfirst : preg.opts.firstMatch = false) (h : Base recurse nfa g preg.dfa) (word : List ℕ) :
    ∃ r, searchPattern preg [word] false true = some r ∧ Outcome preg Ls word r := by
  have hbare := hsorts.decides.bare
  set base : MatchState := ⟨1, 0, preg.dfa, none, 0, [], false, fun _ => noTags, fun _ => noTags, -1⟩
  obtain ⟨ms, s, hms, -, hscans, hs, hsame⟩ := matchStateInit_scan hstd hbare h 0
    (.refl base)
  obtain ⟨r, r₀, hr, hr₀, hacc, hspan, hsame', -, -⟩ := searchPattern_spec preg h.partition hbare hstd
    hfirst (List.cons_ne_nil word []) hms ⟨hscans, hscans, .refl ms⟩ true
  rw [List.flatten_cons, List.flatten_nil, List.append_nil] at hr₀
  have hsound : Sound Ls r₀.1 word := by
    have hstart : Sound Ls base [] := fun _ hmem => (nomatch hmem)
    have hinit : Sound Ls ms [] := (hstart.updateAccepts List.prefix_rfl hsorts
      (nids_initialElems nfa) hs (updateTags_accepts base _) 0 ∅).congr hsame
    have hnids : nids nfa.initialElems = nfa.toNFA.evalFrom { nfa.initial } [] := nids_initialElems nfa
    exact hinit.stdFrom h.partition hsorts ∅ ∅ word hscans hnids hr₀
  obtain ⟨ms', ms'', rc, hms', hrun, -, hiff⟩ := regexecPartial_finds h.ready hsorts.decides ∅ ∅ word
  rw [hms] at hms'
  cases hms'
  rw [regexecPartial_std hstd, hr₀, Option.map_some, Option.some.injEq, Prod.mk.injEq] at hrun
  have hrc : 0 < r.acc ↔ ∃ v ∈ anyOf Ls, v <+: word := by
    rw [hacc, hrun.2, hiff, Regex.Finds, if_pos hstd]
  refine ⟨r, hr, hacc ▸ stdCode_ge _ _ _, fun hpos => ?_, hrc.mpr, ?_, fun hpos pmatch => ?_⟩
  · rw [hacc] at hpos
    obtain ⟨hcode, hne⟩ := stdCode_pos hpos
    exact ⟨_, hacc.trans hcode, hsound _ (pickAccept_mem hne)⟩
  · rw [hspan]
    split
    · exact iff_of_true rfl ‹_›
    · exact iff_of_false Bool.false_ne_true ‹_›
  · have hrunning := (running_init h.ready hms).stdFrom word hr₀
    rw [hacc] at hpos
    rw [← jrxReggroups_congr rfl rfl hsame']
    exact jrxReggroups_ok preg pmatch (fun _ => (stdCode_pos hpos).2) hrunning.tagged

def oneBlock (blocks : List (List ℕ)) : List (List ℕ) :=
  if blocks = [] then [] else [blocks.flatten]

theorem searchPattern_uses (hsorts : nfa.Sorts Ls) (hstd : preg.opts.stdMatcher = true)
    (hfirst : preg.opts.firstMatch = false) (h₀ : Base recurse nfa g preg.dfa) {dfa : Dfa}
    (h : Base recurse nfa g dfa) (hops : dfa.initialOps = preg.dfa.initialOps)
    (blocks : List (List ℕ)) : ∃ r r₀, searchPattern { preg with dfa := dfa } blocks false true = some r ∧
      searchPattern preg (oneBlock blocks) false true = some r₀ ∧ r.acc = r₀.acc ∧ r.span = r₀.span ∧
      SameTags r₀.ms r.ms ∧ Later dfa r.ms.dfa ∧ Idle recurse r.ms.dfa := by
  have hbare := hsorts.decides.bare
  obtain ⟨ms, ms₀, hms, hms₀, hlater, halike⟩ := matchStateInit_alike hstd hbare h h₀ hops.symm 0
  by_cases hblocks : blocks = []
  · subst hblocks
    refine ⟨⟨-1, none, ms⟩, ⟨-1, none, ms₀⟩, ?_, ?_, rfl, rfl, halike.same.symm, hlater, halike.left.idle⟩
    · rw [searchPattern, if_pos rfl, hms]
      rfl
    · rw [oneBlock, if_pos rfl, searchPattern, if_pos rfl, hms₀]
      rfl
  · obtain ⟨r, r', hr, hr', hacc, hspan, hsame, hlater', hidle⟩ :=
      searchPattern_spec { preg with dfa := dfa } h.partition hbare hstd hfirst hblocks hms
        halike true
    obtain ⟨r₀, r₀', hr₀, hr₀', hacc₀, hspan₀, hsame₀, -, -⟩ := searchPattern_spec preg
      h₀.partition hbare hstd hfirst (List.cons_ne_nil blocks.flatten []) hms₀
      ⟨halike.right, halike.right, .refl ms₀⟩ true
    rw [List.flatten_cons, List.flatten_nil, List.append_nil] at hr₀'
    rw [show regexecStdFrom preg.opts ∅ ∅ true blocks.flatten ms₀ = some r' from hr'] at hr₀'
    cases hr₀'
    have heq : r.acc = r₀.acc := hacc.trans hacc₀.symm
    refine ⟨r, r₀, hr, ?_, heq, ?_, hsame₀.trans hsame.symm, hlater.trans hlater', hidle⟩
    · rw [oneBlock, if_neg hblocks]
      exact hr₀
    · rw [hspan, hspan₀, heq]

end

/-! ## Clients -/

/-- What clients may ask for, and the data. -/
inductive SearchKind where
  | find
  | span
  | groups

structure SearchCall where
  kind : SearchKind
  blocks : List (List ℕ)

inductive SearchReply where
  | failed (e : RegexpException)
  | found (rc : ℤ)
  | spanned (rc : ℤ) (span : Option (ℤ × ℤ))
  | grouped (vec : List (Option (ℤ × ℤ)))

/-- One call. -/
def HltRegexp.search (re : HltRegexp) (c : SearchCall) : Option (HltRegexp × SearchReply) :=
  match c.kind with
  | .find => (hltRegexpBytesFind re c.blocks).map fun
    | .error e => (re, .failed e)
    | .ok r => (re.withDfa r.1, .found r.2)
  | .span => (hltRegexpBytesSpan re c.blocks).map fun
    | .error e => (re, .failed e)
    | .ok r => (re.withDfa r.1, .spanned r.2.1 r.2.2)
  | .groups => (hltRegexpBytesGroups re c.blocks).map fun
    | .error e => (re, .failed e)
    | .ok r => (re.withDfa r.1, .grouped r.2)

/-- The data of a call, if there is any. -/
def SearchCall.data (c : SearchCall) : Option (List ℕ) :=
  if c.blocks = [] then none else some c.blocks.flatten

/-- What the replies should be, depending on the data, for so many patterns. -/
structure Findings (patterns : List Pattern) (answer : SearchKind → Option (List ℕ) → SearchReply) :
    Prop where
  find_none : answer .find none = .found (-1)
  find_some : ∀ word, ∃ rc, answer .find (some word) = .found rc ∧
    (0 < rc → ∃ aid : ℕ, rc = aid ∧ FoundIn (languages patterns) aid word) ∧
    ((∃ aid, FoundIn (languages patterns) aid word) → 0 < rc)
  span : ∀ data rc, answer .find data = .found rc → ∃ span : Option (ℤ × ℤ),
    answer .span data = .spanned rc span ∧ (span.isSome ↔ 0 < rc)
  groups : patterns.length = 1 → ∀ data rc span, answer .span data = .spanned rc span →
    ∃ vec, answer .groups data = .grouped vec ∧ (vec.head? = span.map some)

/-- The reply of a regular expression that has not been used yet, to a call with all of the data in one
block. -/
def HltRegexp.answer (re : HltRegexp) (kind : SearchKind) (data : Option (List ℕ)) : SearchReply :=
  ((re.search ⟨kind, data.elim [] fun word => [word]⟩).map Prod.snd).getD (.failed .valueError)

theorem SearchCall.oneBlock_eq (c : SearchCall) :
    oneBlock c.blocks = c.data.elim [] fun word => [word] := by
  unfold oneBlock SearchCall.data
  split <;> rfl

/-- What has been compiled, after any number of searches. -/
structure Uses (recurse : Bool) (nfa : Nfa) (g : Group) (preg : Regex) (num : ℕ) (re : HltRegexp) :
    Prop where
  num_eq : re.num = num
  regexp : ∃ dfa, re.regexp = some { preg with dfa := dfa } ∧ Base recurse nfa g dfa ∧
    dfa.initialOps = preg.dfa.initialOps

section

variable {recurse : Bool} {nfa : Nfa} {g : Group} {preg : Regex} {num : ℕ} {re re₀ : HltRegexp}
  {Ls : List (Language ℕ)} {patterns : List Pattern}

theorem Uses.withDfa (h : Uses recurse nfa g preg num re) {dfa dfa' : Dfa}
    (hre : re.regexp = some { preg with dfa := dfa }) (hlater : Later dfa dfa')
    (hidle : Idle recurse dfa') : Uses recurse nfa g preg num (re.withDfa dfa') := by
  obtain ⟨dfa₁, hre₁, hbase, hops⟩ := h.regexp
  rw [hre] at hre₁
  cases hre₁
  refine ⟨h.num_eq, dfa', ?_, hbase.later hlater hidle, hlater.extends_.initialOps_eq.trans hops⟩
  rw [HltRegexp.withDfa, hre]
  rfl

theorem outcome_none (h : Base recurse nfa g preg.dfa) (hstd : preg.opts.stdMatcher = true)
    (hbare : nfa.Bare) : ∃ ms, searchPattern preg [] false true = some ⟨-1, none, ms⟩ := by
  obtain ⟨ms, -, hms, -⟩ := matchStateInit_alike hstd hbare h h rfl 0
  refine ⟨ms, ?_⟩
  rw [searchPattern, if_pos rfl, hms]
  rfl

theorem hltRegexpBytesFind_eq {blocks : List (List ℕ)} {r : Searching} (hnum : re.num ≠ 0)
    (hre : re.regexp = some preg) (hr : searchPattern preg blocks false true = some r) :
    re.search ⟨.find, blocks⟩ = some (re.withDfa r.ms.dfa, .found r.acc) := by
  simp only [HltRegexp.search, hltRegexpBytesFind, if_neg hnum, hre, hr, Option.bind_eq_bind,
    Option.bind_some, Option.map_some]

theorem hltRegexpBytesSpan_eq {blocks : List (List ℕ)} {r : Searching} (hnum : re.num ≠ 0)
    (hre : re.regexp = some preg) (hr : searchPattern preg blocks false true = some r) :
    re.search ⟨.span, blocks⟩ =
      some (re.withDfa r.ms.dfa, .spanned r.acc (if 0 < r.acc then r.span else none)) := by
  simp only [HltRegexp.search, hltRegexpBytesSpan, if_neg hnum, hre, hr, Option.bind_eq_bind,
    Option.bind_some, Option.map_some]

theorem hltRegexpBytesGroups_ne {blocks : List (List ℕ)} (hnum : re.num ≠ 1) :
    re.search ⟨.groups, blocks⟩ = some (re, .failed .patternError) := by
  simp only [HltRegexp.search, hltRegexpBytesGroups, if_pos hnum, Option.map_some]

theorem hltRegexpBytesGroups_none {blocks : List (List ℕ)} {r : Searching} (hnum : re.num = 1)
    (hre : re.regexp = some preg) (hr : searchPattern preg blocks false true = some r)
    (hacc : ¬0 < Int.bmod r.acc 256) :
    re.search ⟨.groups, blocks⟩ = some (re.withDfa r.ms.dfa, .grouped []) := by
  simp only [HltRegexp.search, hltRegexpBytesGroups, if_neg (not_not.mpr hnum), hre, hr,
    Option.bind_eq_bind, Option.bind_some, if_neg hacc, Option.map_some]

theorem hltRegexpBytesGroups_some {blocks : List (List ℕ)} {r : Searching} (hnum : re.num = 1)
    (hre : re.regexp = some preg) (hr : searchPattern preg blocks false true = some r)
    (hacc : 0 < Int.bmod r.acc 256) {code : ℕ} {groups : List (ℤ × ℤ)}
    (hgroups : jrxReggroups preg r.ms (List.replicate (preg.maxCapture + 1) (0, 0)) =
      some (code, groups)) :
    re.search ⟨.groups, blocks⟩ =
      some (re.withDfa r.ms.dfa, .grouped (groupsOf (r.span.getD (-1, -1)) groups)) := by
  simp only [HltRegexp.search, hltRegexpBytesGroups, if_neg (not_not.mpr hnum), hre, hr,
    Option.bind_eq_bind, Option.bind_some, if_pos hacc, hgroups, Option.map_some]

theorem search_step (hsorts : nfa.Sorts Ls) (hstd : preg.opts.stdMatcher = true)
    (hfirst : preg.opts.firstMatch = false) (h₀ : Base recurse nfa g preg.dfa)
    (hre₀ : re₀.regexp = some preg) (hnum₀ : re₀.num = num) (hnum : num ≠ 0)
    (h : Uses recurse nfa g preg num re) (kind : SearchKind) (blocks : List (List ℕ)) :
    ∃ re' reply, re.search ⟨kind, blocks⟩ = some (re', reply) ∧
      (re₀.search ⟨kind, oneBlock blocks⟩).map Prod.snd = some reply ∧
      Uses recurse nfa g preg num re' := by
  obtain ⟨dfa, hre, hbase, hops⟩ := h.regexp
  obtain ⟨r, r₀, hr, hr₀, hacc, hspan, hsame, hlater, hidle⟩ :=
    searchPattern_uses hsorts hstd hfirst h₀ hbase hops blocks
  have hnext : Uses recurse nfa g preg num (re.withDfa r.ms.dfa) := h.withDfa hre hlater hidle
  have hnum' : re.num ≠ 0 := h.num_eq ▸ hnum
  have hnum₀' : re₀.num ≠ 0 := hnum₀ ▸ hnum
  cases kind with
  | find =>
    refine ⟨_, .found r.acc, hltRegexpBytesFind_eq hnum' hre hr, ?_, hnext⟩
    rw [hltRegexpBytesFind_eq hnum₀' hre₀ hr₀, hacc]
    rfl
  | span =>
    refine ⟨_, _, hltRegexpBytesSpan_eq hnum' hre hr, ?_, hnext⟩
    rw [hltRegexpBytesSpan_eq hnum₀' hre₀ hr₀, hacc, hspan]
    rfl
  | groups =>
    by_cases hone : num = 1
    · have hone' : re.num = 1 := h.num_eq.trans hone
      have hone₀ : re₀.num = 1 := hnum₀.trans hone
      by_cases hpos : 0 < Int.bmod r.acc 256
      · obtain ⟨groups, hgroups⟩ : ∃ groups, jrxReggroups preg r₀.ms
            (List.replicate (preg.maxCapture + 1) (0, 0)) = some (regOk, groups) := by
          rw [hacc] at hpos
          by_cases hblocks : blocks = []
          · obtain ⟨ms, hms⟩ := outcome_none h₀ hstd hsorts.decides.bare
            rw [oneBlock, if_pos hblocks, hms] at hr₀
            cases hr₀
            exact absurd hpos (show ¬(0 : ℤ) < Int.bmod (-1) 256 by decide)
          · obtain ⟨r₁, hr₁, houtcome⟩ := searchPattern_word hsorts hstd hfirst h₀ blocks.flatten
            rw [oneBlock, if_neg hblocks, hr₁] at hr₀
            cases hr₀
            apply houtcome.groups
            by_contra hneg
            have hge := houtcome.ge
            obtain hacc₀ | hacc₀ : r₀.acc = 0 ∨ r₀.acc = -1 := by omega
            all_goals
              rw [hacc₀] at hpos
              exact absurd hpos (by decide)
        have hgroups' : jrxReggroups { preg with dfa := dfa } r.ms
            (List.replicate (preg.maxCapture + 1) (0, 0)) = some (regOk, groups) :=
          (jrxReggroups_congr rfl rfl hsame _).trans hgroups
        refine ⟨_, _, hltRegexpBytesGroups_some hone' hre hr hpos hgroups', ?_, hnext⟩
        rw [hltRegexpBytesGroups_some hone₀ hre₀ hr₀ (hacc ▸ hpos) hgroups, hspan]
        rfl
      · refine ⟨_, _, hltRegexpBytesGroups_none hone' hre hr hpos, ?_, hnext⟩
        rw [hltRegexpBytesGroups_none hone₀ hre₀ hr₀ (hacc ▸ hpos)]
        rfl
    · refine ⟨_, _, hltRegexpBytesGroups_ne (h.num_eq ▸ hone), ?_, h⟩
      rw [hltRegexpBytesGroups_ne (hnum₀ ▸ hone)]
      rfl

theorem answer_eq {kind : SearchKind} (data : Option (List ℕ)) {reply : SearchReply}
    {re' : HltRegexp} (h : re.search ⟨kind, data.elim [] fun word => [word]⟩ = some (re', reply)) :
    re.answer kind data = reply := by
  rw [HltRegexp.answer, h]
  rfl

/-- The run lemma. -/
theorem replies_search (hsorts : nfa.Sorts Ls) (hstd : preg.opts.stdMatcher = true)
    (hfirst : preg.opts.firstMatch = false) (h₀ : Base recurse nfa g preg.dfa)
    (hre₀ : re₀.regexp = some preg) (hnum₀ : re₀.num = num) (hnum : num ≠ 0)
    (calls : List SearchCall) : ∀ {re : HltRegexp}, Uses recurse nfa g preg num re →
      replies HltRegexp.search re calls = some (calls.map fun c => re₀.answer c.kind c.data) := by
  induction calls with
  | nil => exact fun _ => rfl
  | cons c calls ih =>
    intro re h
    obtain ⟨re', reply, hreply, hreply₀, h'⟩ := search_step hsorts hstd hfirst h₀ hre₀ hnum₀ hnum h
      c.kind c.blocks
    rw [replies_cons_some hreply, ih h']
    obtain ⟨r, hr, rfl⟩ := Option.map_eq_some_iff.mp hreply₀
    rw [SearchCall.oneBlock_eq] at hr
    rw [Option.map_some, List.map_cons, answer_eq c.data hr]

theorem head?_groupsOf (span : ℤ × ℤ) (pmatch : List (ℤ × ℤ)) :
    (groupsOf span pmatch).head? = some (some span) := by
  have hset : ∀ (l : List ((ℤ × ℤ) × ℕ)) (vec : List (Option (ℤ × ℤ))), (∀ m ∈ l, 0 < m.2) →
      vec.head? = some (some span) →
      (l.foldl (fun vec m => if 0 ≤ m.1.1 then setGroup vec m.2 m.1 else vec) vec).head? =
        some (some span) := by
    intro l
    induction l with
    | nil => exact fun _ _ h => h
    | cons m l ih =>
      intro vec hl h
      obtain ⟨hm, hl⟩ := List.forall_mem_cons.mp hl
      rw [List.foldl_cons]
      apply ih _ hl
      split
      · obtain ⟨k, hk⟩ := Nat.exists_eq_add_of_lt hm
        cases vec with
        | nil => cases h
        | cons a vec =>
          rw [setGroup, hk, List.cons_append, Nat.zero_add, List.set_cons_succ]
          exact h
      · exact h
  apply hset
  · intro m hm
    obtain ⟨k, hk, hm⟩ := List.mem_drop_iff_getElem.mp hm
    rw [← hm, List.getElem_zipIdx]
    dsimp only
    omega
  · rfl

theorem findings_answer {re : HltRegexp} (hsorts : nfa.Sorts (patterns.map (Pattern.searched true)))
    (hstd : preg.opts.stdMatcher = true) (hfirst : preg.opts.firstMatch = false)
    (h₀ : Base recurse nfa g preg.dfa) (hre : re.regexp = some preg) (hnum : re.num = patterns.length)
    (hne : patterns ≠ []) : Findings patterns re.answer := by
  have hnum' : re.num ≠ 0 := by
    rw [hnum]
    exact fun hlen => hne (List.length_eq_zero_iff.mp hlen)
  obtain ⟨ms, hnone⟩ := outcome_none h₀ hstd hsorts.decides.bare
  refine ⟨answer_eq _ (hltRegexpBytesFind_eq hnum' hre hnone), fun word => ?_, fun data rc hfind => ?_,
    fun hone data rc span hspan => ?_⟩
  · obtain ⟨r, hr, houtcome⟩ := searchPattern_word hsorts hstd hfirst h₀ word
    refine ⟨r.acc, answer_eq _ (hltRegexpBytesFind_eq hnum' hre hr), fun hpos => ?_, fun hfound => ?_⟩
    · obtain ⟨aid, hacc, hv⟩ := houtcome.sound hpos
      exact ⟨aid, hacc, foundIn_iff.mpr hv⟩
    · obtain ⟨aid, hfound⟩ := hfound
      obtain ⟨v, hpre, hv⟩ := foundIn_iff.mp hfound
      exact houtcome.complete ⟨v, mem_anyOf_iff.mpr ⟨aid, hv⟩, hpre⟩
  · cases data with
    | none =>
      rw [answer_eq none (hltRegexpBytesFind_eq hnum' hre hnone)] at hfind
      cases hfind
      exact ⟨none, answer_eq _ (hltRegexpBytesSpan_eq hnum' hre hnone),
        iff_of_false Bool.false_ne_true (show ¬(0 : ℤ) < -1 by decide)⟩
    | some word =>
      obtain ⟨r, hr, houtcome⟩ := searchPattern_word hsorts hstd hfirst h₀ word
      rw [answer_eq (some word) (hltRegexpBytesFind_eq hnum' hre hr)] at hfind
      cases hfind
      refine ⟨_, answer_eq _ (hltRegexpBytesSpan_eq hnum' hre hr), ?_⟩
      split
      · exact houtcome.span
      · exact iff_of_false Bool.false_ne_true ‹_›
  · have hone' : re.num = 1 := hnum.trans hone
    cases data with
    | none =>
      rw [answer_eq none (hltRegexpBytesSpan_eq hnum' hre hnone)] at hspan
      cases hspan
      have hbmod : ¬(0 : ℤ) < Int.bmod (-1) 256 := by decide
      exact ⟨[], answer_eq _ (hltRegexpBytesGroups_none hone' hre hnone hbmod), rfl⟩
    | some word =>
      obtain ⟨r, hr, houtcome⟩ := searchPattern_word hsorts hstd hfirst h₀ word
      rw [answer_eq (some word) (hltRegexpBytesSpan_eq hnum' hre hr)] at hspan
      cases hspan
      by_cases hpos : 0 < r.acc
      · have hacc : r.acc = 1 := by
          obtain ⟨aid, hacc, v, -, k, L, rfl, hk, -⟩ := houtcome.sound hpos
          have hlt := (List.getElem?_eq_some_iff.mp hk).1
          rw [List.length_map, hone] at hlt
          omega
        obtain ⟨groups, hgroups⟩ := houtcome.groups hpos (List.replicate (preg.maxCapture + 1) (0, 0))
        refine ⟨_, answer_eq _ (hltRegexpBytesGroups_some hone' hre hr (hacc ▸ by decide) hgroups), ?_⟩
        rw [head?_groupsOf, if_pos hpos]
        obtain ⟨span, hspan⟩ := Option.isSome_iff_exists.mp (houtcome.span.mpr hpos)
        rw [hspan]
        rfl
      · have hbmod : ¬0 < Int.bmod r.acc 256 := by
          have hge := houtcome.ge
          obtain hacc | hacc : r.acc = 0 ∨ r.acc = -1 := by omega
          all_goals
            rw [hacc]
            decide
        refine ⟨[], answer_eq _ (hltRegexpBytesGroups_none hone' hre hr hbmod), ?_⟩
        rw [if_neg hpos]
        rfl

end

section

variable {neg : Bool} {flags : Flags} {patterns : List Pattern}

end

end Hilti.Regexp
