import Hilti.Justrx.Regexec

/-!
# Sets of patterns

The model of `jrx_regset_init`, `jrx_regset_add` and `jrx_regset_finalize`, for patterns that have been
parsed and have no accept ids of their own.  All patterns are in one NFA, which accepts a word of a
pattern with the pattern's number: it is an alternative, built from an NFA without epsilon transitions
and one for the next pattern, and without epsilon transitions again.

Callers ask for any number of captures, so the argument for it is left out.
-/

namespace Hilti.Justrx

open Hilti.Lib

set_option autoImplicit false

/-! ## Adding patterns -/

/-- `_nfa_compile_pattern`. -/
def nfaCompilePattern (pattern : Pattern) (ctx : NfaContext) : Option (Fragment × NfaContext) := do
  let nfa ← buildRegexp pattern ctx
  let r ← nfaRemoveEpsilons nfa.1 nfa.2
  some ({ nfa.1 with initialTags := r.initialTags }, r.ctx)

/-- `nfa_compile`. -/
def nfaCompile (cflags : Cflags) (pattern : Pattern) : Option (Fragment × NfaContext) :=
  nfaCompilePattern pattern (nfaContextCreate (!cflags.anchor) (if cflags.noSub then 0 else -1))

/-- `nfa_compile_add`. -/
def nfaCompileAdd (nfa : Fragment × NfaContext) (pattern : Pattern) :
    Option (Fragment × NfaContext) := do
  let nnfa ← nfaCompilePattern pattern nfa.2
  nfaAlternative nfa.1 nnfa.1 nnfa.2

/-- `jrx_regex_t` while patterns are added. -/
structure Regset where
  cflags : Cflags
  nfa : Option (Fragment × NfaContext)

/-- `jrx_regset_init`. -/
def jrxRegsetInit (cflags : Cflags) : Regset :=
  ⟨cflags, none⟩

/-- `jrx_regset_add`. -/
def jrxRegsetAdd (preg : Regset) (pattern : Pattern) : Option Regset :=
  if preg.cflags.Supported then
    match preg.nfa with
    | none => (nfaCompile preg.cflags pattern).map fun nfa => ⟨preg.cflags, some nfa⟩
    | some nfa => do
      let nfa ← nfaCompileAdd nfa pattern
      let r ← nfaRemoveEpsilons nfa.1 nfa.2
      some ⟨preg.cflags, some ({ nfa.1 with initialTags := r.initialTags }, r.ctx)⟩
  else none

/-- `jrx_regset_finalize`. -/
def jrxRegsetFinalize (fuel : ℕ) (preg : Regset) : Option Regex := do
  let nfa ← preg.nfa
  let dfa ← dfaFromNfa preg.cflags.lazy fuel (nfa.2.toNfa nfa.1.initial nfa.1.initialTags)
  some ⟨preg.cflags.options nfa.2.maxTag, dfa, nfa.2.maxCapture⟩

section

variable {neg : Bool} {ctx ctx' : NfaContext} {nfa nfa1 nfa2 : Fragment}

theorem nfaCompilePattern_spec {pattern : Pattern} (h : ctx.Plain neg)
    (hfree : pattern.AssertionFree) (hreg : pattern.Regular neg) :
    ∃ nfa ctx', nfaCompilePattern pattern ctx = some (nfa, ctx') ∧
      Placed neg (pattern.searched ctx.dontAnchor) ctx nfa ctx' := by
  obtain ⟨nfa, ctx₁, r, hbuild, hremove, hplaced⟩ := buildRegexp_spec h hfree hreg
  refine ⟨_, r.ctx, ?_, hplaced⟩
  rw [nfaCompilePattern, hbuild, Option.bind_eq_bind, Option.bind_some, hremove]
  rfl

/-! ## Alternatives of NFAs that accept anywhere -/

/-- The second context has another state and an epsilon transition between states. -/
structure Edged (neg : Bool) (a b : ℕ) (ctx ctx' : NfaContext) : Prop where
  plain : ctx'.Plain neg
  linked : Linked a b ctx ctx'
  accepts_eq : ∀ s, (ctx'.state s).accepts = (ctx.state s).accepts
  maxAccept_eq : ctx'.maxAccept = ctx.maxAccept
  dontAnchor_eq : ctx'.dontAnchor = ctx.dontAnchor

theorem makes_edge (h : ctx.Plain neg) {a b : ℕ} (ha : a < ctx.states.length)
    (hb : b < ctx.states.length) {tags : Option (List Tag)} (htags : TagsSound tags) :
    Makes (cclEpsilon >>= fun ccl => nfaStateAddTrans a b tags ccl) ctx fun _ ctx' =>
      Edged neg a b ctx ctx' := by
  obtain ⟨u, ctx', hrun, hw, hlinked⟩ := makes_addEpsilon h.wellFormed ha hb tags
  refine ⟨u, ctx', hrun, ?_⟩
  obtain ⟨r, hr, hmodify⟩ := Option.bind_eq_some_iff.mp hrun
  obtain ⟨c, hc, rfl⟩ := Option.map_eq_some_iff.mp hr
  cases hmodify
  have hneat := fromStdCcl_epsilon h.neat hc
  have hlt : a < ({ ctx with ccls := c.1 } : NfaContext).states.length := ha
  have hstate : ∀ s, (({ ctx with ccls := c.1 } : NfaContext).edit a fun s =>
      { s with trans := s.trans ++ [⟨c.2, b, tags⟩] }).state s =
        if s = a then { ctx.state s with trans := (ctx.state s).trans ++ [⟨c.2, b, tags⟩] }
        else ctx.state s := by
    intro s
    by_cases hs : s = a
    · rw [if_pos hs, hs, NfaContext.edit_state_self hlt]
      rfl
    · rw [if_neg hs, NfaContext.edit_state_ne hs]
      rfl
  refine ⟨⟨hw, hneat.1, fun s => ?_⟩, hlinked, fun s => ?_, rfl, rfl⟩
  · refine ⟨fun t ht => ?_, fun acc hacc => ?_⟩
    · have ht := (congrArg NfaState.trans (hstate s)) ▸ ht
      split at ht
      · cases List.mem_append.mp ht with
        | inl ht => exact (h.states s).trans t ht
        | inr ht => exact List.mem_singleton.mp ht ▸ htags
      · exact (h.states s).trans t ht
    · have hacc := (congrArg NfaState.accepts (hstate s)) ▸ hacc
      split at hacc
      · exact (h.states s).accepts acc hacc
      · exact (h.states s).accepts acc hacc
  · refine (congrArg NfaState.accepts (hstate s)).trans ?_
    split <;> rfl

theorem NfaContext.Plain.grow (h : ctx.Plain neg) : ctx.grow.Plain neg where
  wellFormed := h.wellFormed.grow
  neat := h.neat
  states s := by
    rw [NfaContext.grow_state]
    exact h.states s

/-- The states of an alternative: a new one leads to both parts, and both lead to another one. -/
structure Alternated (neg : Bool) (nfa1 nfa2 : Fragment) (ctx : NfaContext) (nfa : Fragment)
    (ctx' : NfaContext) : Prop where
  plain : ctx'.Plain neg
  initial_eq : nfa.initial = ctx.states.length
  final_eq : nfa.final = ctx.states.length + 1
  tagged : TagsSound nfa.initialTags
  length_eq : ctx'.states.length = ctx.states.length + 2
  maxAccept_eq : ctx'.maxAccept = ctx.maxAccept
  dontAnchor_eq : ctx'.dontAnchor = ctx.dontAnchor
  accepts_eq : ∀ s, (ctx'.state s).accepts = (ctx.state s).accepts
  steps_iff : ∀ s t x i j, ctx'.steps s t x i j ↔ ctx.steps s t x i j ∨
    i = j ∧ (s = nfa.initial ∧ (t = nfa1.initial ∨ t = nfa2.initial) ∨
      (s = nfa1.final ∨ s = nfa2.final) ∧ t = nfa.final)

theorem makes_alternated (h : ctx.Plain neg) (h₁ : nfa1.In ctx) (h₂ : nfa2.In ctx) :
    Makes (nfaAlternative nfa1 nfa2) ctx (Alternated neg nfa1 nfa2 ctx) := by
  set n := ctx.states.length with hn
  have hi₁ := h₁.initial_lt
  have hi₂ := h₂.initial_lt
  have hf₁ := h₁.final_lt
  have hf₂ := h₂.final_lt
  refine Makes.bind (Q := fun eps1 ctx₁ => eps1 = n ∧ ctx₁ = ctx.grow)
    (makes_nfaStateCreate ⟨rfl, rfl⟩) fun eps1 ctx₁ h₁' => ?_
  obtain ⟨rfl, rfl⟩ := h₁'
  have hlen₁ : ctx.grow.states.length = n + 1 := NfaContext.grow_length
  have hbind : ∀ {β : Type} (m : Make ℕ) (f : ℕ → Make Unit) (k : Unit → Make β),
      (m >>= fun ccl => f ccl >>= k) = (m >>= f) >>= k := fun m f k => (bind_assoc m f k).symm
  rw [hbind]
  refine Makes.bind (makes_edge h.grow (by omega) (by omega) h₁.tagged) fun _ ctx₂ e₂ => ?_
  have hlen₂ := e₂.linked.length_eq
  rw [hbind]
  refine Makes.bind (makes_edge e₂.plain (by omega) (by omega) h₂.tagged) fun _ ctx₃ e₃ => ?_
  have hlen₃ := e₃.linked.length_eq
  refine Makes.bind (Q := fun eps2 ctx₄ => eps2 = n + 1 ∧ ctx₄ = ctx₃.grow)
    (makes_nfaStateCreate ⟨by omega, rfl⟩) fun eps2 ctx₄ h₄ => ?_
  obtain ⟨rfl, rfl⟩ := h₄
  have hlen₄ : ctx₃.grow.states.length = ctx₃.states.length + 1 := NfaContext.grow_length
  rw [hbind]
  refine Makes.bind (makes_edge e₃.plain.grow (by omega) (by omega) tagsSound_none)
    fun _ ctx₅ e₅ => ?_
  have hlen₅ := e₅.linked.length_eq
  rw [hbind]
  refine Makes.bind (makes_edge e₅.plain (by omega) (by omega) tagsSound_none) fun _ ctx₆ e₆ => ?_
  have hlen₆ := e₆.linked.length_eq
  refine Makes.pure ⟨e₆.plain, rfl, rfl, tagsSound_none, by omega, ?_, ?_, fun s => ?_,
    fun s t x i j => ?_⟩
  · rw [e₆.maxAccept_eq, e₅.maxAccept_eq]
    exact e₃.maxAccept_eq.trans e₂.maxAccept_eq
  · rw [e₆.dontAnchor_eq, e₅.dontAnchor_eq]
    exact e₃.dontAnchor_eq.trans e₂.dontAnchor_eq
  · rw [e₆.accepts_eq, e₅.accepts_eq, NfaContext.grow_state, e₃.accepts_eq, e₂.accepts_eq,
      NfaContext.grow_state]
  · rw [e₆.linked.steps_iff, e₅.linked.steps_iff, NfaContext.grow_steps, e₃.linked.steps_iff,
      e₂.linked.steps_iff, NfaContext.grow_steps]
    tauto

theorem Alternated.path_old {nfa : Fragment} (h : Alternated neg nfa1 nfa2 ctx nfa ctx')
    (hw : ctx.WellFormed) (h₁ : nfa1.In ctx) (h₂ : nfa2.In ctx) {s t : ℕ} {x : Input} {i j : ℕ}
    (hs : s < ctx.states.length) (hpath : path ctx'.steps s t x i j) :
    t = nfa.final ∨ path ctx.steps s t x i j := by
  have hinit := h.initial_eq
  have hfinal := h.final_eq
  have hf₁ := h₁.final_lt
  have hf₂ := h₂.final_lt
  have hboth : (s = nfa.final → t = nfa.final) ∧
      (s < ctx.states.length → t = nfa.final ∨ path ctx.steps s t x i j) := by
    refine path_head_induction (P := fun s i => (s = nfa.final → t = nfa.final) ∧
      (s < ctx.states.length → t = nfa.final ∨ path ctx.steps s t x i j))
      ⟨id, fun _ => .inr (path_refl t x j)⟩ (fun s u i k hstep _ ih => ⟨fun hs => ?_, fun hs => ?_⟩)
      hpath
    · obtain hold | ⟨-, hlink⟩ := (h.steps_iff s u x i k).mp hstep
      · exact (steps_of_le (by omega) u x i k hold).elim
      · omega
    · obtain hold | ⟨rfl, hlink⟩ := (h.steps_iff s u x i k).mp hstep
      · have hu : u < ctx.states.length := hw.lt_of_steps hold
        exact (ih.2 hu).imp_right fun hrest => path_trans (path_single hold) hrest
      · exact .inl (ih.1 (by omega))
  exact hboth.2 hs

theorem Alternated.accepts_old {nfa : Fragment} (h : Alternated neg nfa1 nfa2 ctx nfa ctx')
    (hw : ctx.WellFormed) (h₁ : nfa1.In ctx) (h₂ : nfa2.In ctx) {s : ℕ}
    (hs : s < ctx.states.length) (aid : ℕ) (x : Input) :
    ctx'.Accepts s aid x ↔ ctx.Accepts s aid x := by
  unfold NfaContext.Accepts
  simp only [h.accepts_eq]
  apply exists_congr
  intro t
  constructor
  · intro hacc
    obtain ⟨hpath, acc, hmem, hspec⟩ := hacc
    obtain rfl | hpath := h.path_old hw h₁ h₂ hs hpath
    · rw [NfaContext.state_of_le (by rw [h.final_eq]; omega)] at hmem
      cases hmem
    · exact ⟨hpath, acc, hmem, hspec⟩
  · intro hacc
    obtain ⟨hpath, hmem⟩ := hacc
    refine ⟨path_head_induction (P := fun s i => path ctx'.steps s t x i x.chars.length)
      (path_refl t x _) (fun s u i k hstep _ ih => ?_) hpath, hmem⟩
    exact path_trans (path_single ((h.steps_iff s u x i k).mpr (.inl hstep))) ih

theorem Alternated.accepts_initial {nfa : Fragment} (h : Alternated neg nfa1 nfa2 ctx nfa ctx')
    (hw : ctx.WellFormed) (h₁ : nfa1.In ctx) (h₂ : nfa2.In ctx) (aid : ℕ) (x : Input) :
    ctx'.Accepts nfa.initial aid x ↔
      ctx.Accepts nfa1.initial aid x ∨ ctx.Accepts nfa2.initial aid x := by
  rw [← h.accepts_old hw h₁ h₂ h₁.initial_lt, ← h.accepts_old hw h₁ h₂ h₂.initial_lt]
  have hempty : ctx.state nfa.initial = ⟨[], []⟩ := NfaContext.state_of_le h.initial_eq.ge
  have hf₁ := h₁.final_lt
  have hf₂ := h₂.final_lt
  have hinit := h.initial_eq
  have hlink : ∀ t, t = nfa1.initial ∨ t = nfa2.initial → ctx'.Accepts t aid x →
      ctx'.Accepts nfa.initial aid x := by
    intro t ht hacc
    obtain ⟨u, hpath, hmem⟩ := hacc
    exact ⟨u, path_trans (path_single ((h.steps_iff nfa.initial t x 0 0).mpr
      (.inr ⟨rfl, .inl ⟨rfl, ht⟩⟩))) hpath, hmem⟩
  constructor
  · intro hacc
    obtain ⟨t, hpath, acc, hmem, hspec⟩ := hacc
    have hhead : t = nfa.initial ∨ path ctx'.steps nfa1.initial t x 0 x.chars.length ∨
        path ctx'.steps nfa2.initial t x 0 x.chars.length := by
      have hall : ∀ s i, path ctx'.steps s t x i x.chars.length → s = nfa.initial →
          t = nfa.initial ∨ path ctx'.steps nfa1.initial t x i x.chars.length ∨
            path ctx'.steps nfa2.initial t x i x.chars.length := by
        intro s i hp
        refine path_head_induction (P := fun s i => s = nfa.initial → t = nfa.initial ∨
          path ctx'.steps nfa1.initial t x i x.chars.length ∨
            path ctx'.steps nfa2.initial t x i x.chars.length) .inl
          (fun s u i k hstep hrest _ hs => ?_) hp
        subst hs
        obtain hold | ⟨rfl, ⟨-, rfl | rfl⟩ | hlast⟩ := (h.steps_iff _ u x i k).mp hstep
        · exact (steps_of_le hinit.ge u x i k hold).elim
        · exact .inr (.inl hrest)
        · exact .inr (.inr hrest)
        · omega
      exact hall _ _ hpath rfl
    obtain rfl | hpath | hpath := hhead
    · rw [h.accepts_eq, hempty] at hmem
      cases hmem
    · exact .inl ⟨t, hpath, acc, hmem, hspec⟩
    · exact .inr ⟨t, hpath, acc, hmem, hspec⟩
  · intro hacc
    cases hacc with
    | inl hacc => exact hlink _ (.inl rfl) hacc
    | inr hacc => exact hlink _ (.inr rfl) hacc

end

/-! ## The set -/

/-- The patterns of a set, added from the front. -/
def jrxRegsetAddAll (cflags : Cflags) (patterns : List Pattern) : Option Regset :=
  patterns.foldlM jrxRegsetAdd (jrxRegsetInit cflags)

/-- The words of some of the languages. -/
def anyOf (Ls : List (Language ℕ)) : Language ℕ :=
  {word | ∃ L ∈ Ls, word ∈ L}

/-- The id stands for one of the languages, and the word is in it. -/
def Sorted (Ls : List (Language ℕ)) (aid : ℕ) (word : List ℕ) : Prop :=
  ∃ k L, aid = k + 1 ∧ Ls[k]? = some L ∧ word ∈ L

/-- The NFA of a set, after patterns for the languages have been added. -/
structure SetBuilt (neg : Bool) (dontAnchor : Bool) (Ls : List (Language ℕ)) (nfa : Fragment)
    (ctx : NfaContext) : Prop where
  plain : ctx.Plain neg
  nfaIn : nfa.In ctx
  epsilonFree : ctx.EpsilonFree
  maxAccept_eq : ctx.maxAccept = Ls.length
  dontAnchor_eq : ctx.dontAnchor = dontAnchor
  accepts_iff : ∀ aid x, ctx.Accepts nfa.initial aid x ↔ Sorted Ls aid x.chars

section

variable {neg dontAnchor : Bool} {Ls : List (Language ℕ)} {ctx : NfaContext} {nfa : Fragment}
  {pattern : Pattern} {cflags : Cflags}

theorem sorted_append {L : Language ℕ} {aid : ℕ} {word : List ℕ} :
    Sorted (Ls ++ [L]) aid word ↔ Sorted Ls aid word ∨ aid = Ls.length + 1 ∧ word ∈ L := by
  unfold Sorted
  constructor
  · intro h
    obtain ⟨k, L', rfl, hget, hword⟩ := h
    by_cases hk : k < Ls.length
    · rw [List.getElem?_append_left hk] at hget
      exact .inl ⟨k, L', rfl, hget, hword⟩
    · rw [List.getElem?_append_right (Nat.not_lt.mp hk)] at hget
      have hzero : k - Ls.length = 0 := by
        have hlt := (List.getElem?_eq_some_iff.mp hget).1
        rw [List.length_singleton] at hlt
        omega
      rw [hzero] at hget
      cases hget
      exact .inr ⟨by omega, hword⟩
  · intro h
    cases h with
    | inl h =>
      obtain ⟨k, L', rfl, hget, hword⟩ := h
      exact ⟨k, L', rfl, by rw [List.getElem?_append_left (List.getElem?_eq_some_iff.mp hget).1, hget],
        hword⟩
    | inr h => exact ⟨Ls.length, L, h.1, List.getElem?_concat_length, h.2⟩

theorem nfaCompile_spec (hfree : pattern.AssertionFree) (hreg : pattern.Regular neg) :
    ∃ nfa ctx, nfaCompile cflags pattern = some (nfa, ctx) ∧
      SetBuilt neg (!cflags.anchor) [pattern.searched (!cflags.anchor)] nfa ctx := by
  obtain ⟨nfa, ctx, hrun, hplaced⟩ := nfaCompilePattern_spec
    (plain_nfaContextCreate neg (!cflags.anchor) (if cflags.noSub then 0 else -1)) hfree hreg
  refine ⟨nfa, ctx, hrun, hplaced.plain, hplaced.nfaIn, hplaced.epsilonFree, hplaced.maxAccept_eq,
    hplaced.same.dontAnchor_eq, fun aid x => ?_⟩
  rw [hplaced.accepts_iff, ← List.nil_append [_], sorted_append]
  refine (or_iff_right fun h => ?_).symm
  obtain ⟨k, L, -, hget, -⟩ := h
  cases hget

theorem nfaCompileAdd_spec (h : SetBuilt neg dontAnchor Ls nfa ctx) (hfree : pattern.AssertionFree)
    (hreg : pattern.Regular neg) : ∃ nfa₁ ctx₁ r, nfaCompileAdd (nfa, ctx) pattern = some (nfa₁, ctx₁) ∧
      nfaRemoveEpsilons nfa₁ ctx₁ = some r ∧ SetBuilt neg dontAnchor
        (Ls ++ [pattern.searched dontAnchor]) { nfa₁ with initialTags := r.initialTags } r.ctx := by
  obtain ⟨nnfa, ctx', hcompile, hplaced⟩ := nfaCompilePattern_spec h.plain hfree hreg
  rw [h.dontAnchor_eq] at hplaced
  have hold : nfa.In ctx' := h.nfaIn.mono hplaced.same.length_le
  obtain ⟨nfa₁, ctx₁, hrun, hjoined⟩ := makes_alternated hplaced.plain hold hplaced.nfaIn
  have hlen := hjoined.length_eq
  have hin : nfa₁.In ctx₁ :=
    ⟨by rw [hjoined.initial_eq]; omega, by rw [hjoined.final_eq]; omega, hjoined.tagged⟩
  obtain ⟨r, hremove, hplain, hsame, hmax, hin', hnone⟩ := nfaRemoveEpsilons_same hjoined.plain hin
  refine ⟨nfa₁, ctx₁, r, ?_, hremove, hplain, hin', hnone, ?_, ?_, fun aid x => ?_⟩
  · rw [nfaCompileAdd, hcompile]
    exact hrun
  · rw [hmax, hjoined.maxAccept_eq, hplaced.maxAccept_eq, h.maxAccept_eq, List.length_append,
      List.length_singleton]
  · rw [hsame.dontAnchor_eq, hjoined.dontAnchor_eq, hplaced.same.dontAnchor_eq, h.dontAnchor_eq]
  · change r.ctx.Accepts nfa₁.initial aid x ↔ _
    rw [hsame.accepts_iff _ hin.initial_lt, hjoined.accepts_initial hplaced.plain.wellFormed hold
      hplaced.nfaIn, hplaced.same.accepts_iff _ h.nfaIn.initial_lt, h.accepts_iff,
      hplaced.accepts_iff, h.maxAccept_eq, sorted_append]

theorem jrxRegsetAdd_next (hflags : cflags.Supported) (h : SetBuilt neg dontAnchor Ls nfa ctx)
    (hfree : pattern.AssertionFree) (hreg : pattern.Regular neg) :
    ∃ nfa' ctx', jrxRegsetAdd ⟨cflags, some (nfa, ctx)⟩ pattern = some ⟨cflags, some (nfa', ctx')⟩ ∧
      SetBuilt neg dontAnchor (Ls ++ [pattern.searched dontAnchor]) nfa' ctx' := by
  obtain ⟨nfa₁, ctx₁, r, hadd, hremove, hbuilt⟩ := nfaCompileAdd_spec h hfree hreg
  refine ⟨_, r.ctx, ?_, hbuilt⟩
  rw [jrxRegsetAdd, if_pos hflags]
  dsimp only
  rw [hadd, Option.bind_eq_bind, Option.bind_some, hremove]
  rfl

/-- The run lemma. -/
theorem jrxRegsetAdd_run (hflags : cflags.Supported) (patterns : List Pattern) : ∀ {Ls nfa ctx},
    SetBuilt neg dontAnchor Ls nfa ctx → (∀ p ∈ patterns, p.AssertionFree ∧ p.Regular neg) →
    ∃ nfa' ctx', patterns.foldlM jrxRegsetAdd ⟨cflags, some (nfa, ctx)⟩ =
        some ⟨cflags, some (nfa', ctx')⟩ ∧
      SetBuilt neg dontAnchor (Ls ++ patterns.map (Pattern.searched dontAnchor)) nfa' ctx' := by
  induction patterns with
  | nil =>
    intro Ls nfa ctx h _
    rw [List.map_nil, List.append_nil]
    exact ⟨nfa, ctx, rfl, h⟩
  | cons p patterns ih =>
    intro Ls nfa ctx h hall
    obtain ⟨hp, hall⟩ := List.forall_mem_cons.mp hall
    obtain ⟨nfa₁, ctx₁, hadd, h₁⟩ := jrxRegsetAdd_next hflags h hp.1 hp.2
    obtain ⟨nfa', ctx', hrun, h'⟩ := ih h₁ hall
    rw [List.append_assoc, List.singleton_append, ← List.map_cons] at h'
    refine ⟨nfa', ctx', ?_, h'⟩
    rw [List.foldlM_cons, hadd]
    exact hrun

theorem jrxRegsetAddAll_spec (hflags : cflags.Supported) {patterns : List Pattern}
    (hne : patterns ≠ []) (hall : ∀ p ∈ patterns, p.AssertionFree ∧ p.Regular neg) :
    ∃ nfa ctx, jrxRegsetAddAll cflags patterns = some ⟨cflags, some (nfa, ctx)⟩ ∧
      SetBuilt neg (!cflags.anchor) (patterns.map (Pattern.searched (!cflags.anchor))) nfa ctx := by
  obtain ⟨p, patterns, rfl⟩ := List.exists_cons_of_ne_nil hne
  obtain ⟨hp, hall⟩ := List.forall_mem_cons.mp hall
  obtain ⟨nfa₁, ctx₁, hcompile, h₁⟩ : ∃ nfa ctx, nfaCompile cflags p = some (nfa, ctx) ∧
      SetBuilt neg (!cflags.anchor) [p.searched (!cflags.anchor)] nfa ctx :=
    nfaCompile_spec hp.1 hp.2
  obtain ⟨nfa, ctx, hrun, h⟩ := jrxRegsetAdd_run hflags patterns h₁ hall
  refine ⟨nfa, ctx, ?_, h⟩
  have hfirst : jrxRegsetAdd (jrxRegsetInit cflags) p = some ⟨cflags, some (nfa₁, ctx₁)⟩ := by
    rw [jrxRegsetAdd, jrxRegsetInit, if_pos hflags]
    dsimp only
    rw [hcompile]
    rfl
  rw [jrxRegsetAddAll, List.foldlM_cons, hfirst]
  exact hrun

/-! ## The automaton of a set -/

/-- An NFA that tells languages apart by the ids of its accepts. -/
structure Nfa.Sorts (nfa : Nfa) (Ls : List (Language ℕ)) : Prop where
  decides : nfa.Decides (anyOf Ls)
  marks : ∀ word aid, (∃ q ∈ nfa.toNFA.evalFrom { nfa.initial } word,
    ∃ acc ∈ (nfa.state q).accepts, acc.aid = aid) ↔ Sorted Ls aid word

theorem mem_anyOf_iff {word : List ℕ} : word ∈ anyOf Ls ↔ ∃ aid, Sorted Ls aid word := by
  constructor
  · intro hword
    obtain ⟨L, hL, hword⟩ := hword
    obtain ⟨k, hk⟩ := List.mem_iff_getElem?.mp hL
    exact ⟨k + 1, k, L, rfl, hk, hword⟩
  · intro hword
    obtain ⟨aid, k, L, -, hk, hword⟩ := hword
    exact ⟨L, List.mem_of_getElem? hk, hword⟩

theorem SetBuilt.sorts (h : SetBuilt neg dontAnchor Ls nfa ctx) :
    (ctx.toNfa nfa.initial nfa.initialTags).Sorts Ls where
  decides := h.plain.decides h.epsilonFree fun x => by
    rw [mem_anyOf_iff]
    exact exists_congr fun aid => h.accepts_iff aid x
  marks word aid := (marked_iff_accepts h.epsilonFree h.plain aid word).trans (h.accepts_iff aid _)

theorem jrxRegset_spec (hflags : cflags.Supported) {patterns : List Pattern} (hne : patterns ≠ [])
    (hall : ∀ p ∈ patterns, p.AssertionFree ∧ p.Regular neg) :
    ∃ nfa : Nfa, nfa.Sorts (patterns.map (Pattern.searched (!cflags.anchor))) ∧ ∃ n, ∀ fuel ≥ n,
      ∃ preg, (jrxRegsetAddAll cflags patterns).bind (jrxRegsetFinalize fuel) = some preg ∧
        preg.dfa.Ready (!cflags.lazy) nfa ∧ ∃ maxTag, preg.opts = cflags.options maxTag := by
  obtain ⟨nfa, ctx, hadd, hbuilt⟩ := jrxRegsetAddAll_spec hflags hne hall
  obtain ⟨n, hn⟩ := exists_ready hbuilt.sorts.decides.orderly cflags.lazy
  refine ⟨_, hbuilt.sorts, n, fun fuel hfuel => ?_⟩
  obtain ⟨dfa, hdfa, hready⟩ := hn fuel hfuel
  refine ⟨⟨cflags.options ctx.maxTag, dfa, ctx.maxCapture⟩, ?_, hready, ctx.maxTag, rfl⟩
  rw [hadd, Option.bind_some, jrxRegsetFinalize]
  dsimp only
  rw [Option.bind_eq_bind, Option.bind_some, hdfa]
  rfl

end

end Hilti.Justrx
