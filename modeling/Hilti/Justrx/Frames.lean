import Hilti.Justrx.Brackets

/-!
# What the constructors of NFAs keep

While an NFA is built on top of a context, the states that were there stay as they are, and no new
state has a transition to an old one.  No new state accepts yet, and tags come in sets that are not
empty.  This holds however a constructor ends, so these lemmas say nothing about success.
-/

namespace Hilti.Justrx

set_option autoImplicit false

def TagsSound (tags : Option (List Tag)) : Prop :=
  ∀ l, tags = some l → l ≠ [] ∧ ∀ tag ∈ l, -127 ≤ tag.prio

/-- The second context has been built on top of the first. -/
structure Grown (neg : Bool) (ctx₀ ctx : NfaContext) : Prop where
  length_le : ctx₀.states.length ≤ ctx.states.length
  old : ∀ s < ctx₀.states.length, ctx.state s = ctx₀.state s
  new : ∀ s, ctx₀.states.length ≤ s → ∀ t ∈ (ctx.state s).trans, ctx₀.states.length ≤ t.succ
  neat : ctx.ccls.Neat neg
  ccls : ctx₀.ccls.ccls <+: ctx.ccls.ccls
  dontAnchor_eq : ctx.dontAnchor = ctx₀.dontAnchor
  accepts : ∀ s, ctx₀.states.length ≤ s → (ctx.state s).accepts = []
  tagged : ∀ s, ∀ t ∈ (ctx.state s).trans, TagsSound t.tags
  maxAccept_eq : ctx.maxAccept = ctx₀.maxAccept

/-- The fragment has only new states. -/
structure Held (n : ℕ) (nfa : Fragment) : Prop where
  initial : n ≤ nfa.initial
  final : n ≤ nfa.final
  tagged : TagsSound nfa.initialTags

def Keeps {α : Type} (neg : Bool) (ctx₀ : NfaContext) (m : Make α) (P : α → Prop) : Prop :=
  ∀ ctx a ctx', Grown neg ctx₀ ctx → m ctx = some (a, ctx') → Grown neg ctx₀ ctx' ∧ P a

section

variable {neg : Bool} {ctx₀ ctx ctx' : NfaContext}

theorem Grown.trans (h : Grown neg ctx₀ ctx) (h' : Grown neg ctx ctx') : Grown neg ctx₀ ctx' where
  length_le := h.length_le.trans h'.length_le
  old s hs := (h'.old s (hs.trans_le h.length_le)).trans (h.old s hs)
  new s hs t ht := by
    by_cases hlt : s < ctx.states.length
    · rw [h'.old s hlt] at ht
      exact h.new s hs t ht
    · exact h.length_le.trans (h'.new s (Nat.not_lt.mp hlt) t ht)
  neat := h'.neat
  ccls := h.ccls.trans h'.ccls
  dontAnchor_eq := h'.dontAnchor_eq.trans h.dontAnchor_eq
  accepts s hs := by
    by_cases hlt : s < ctx.states.length
    · rw [h'.old s hlt]
      exact h.accepts s hs
    · exact h'.accepts s (Nat.not_lt.mp hlt)
  tagged := h'.tagged
  maxAccept_eq := h'.maxAccept_eq.trans h.maxAccept_eq

theorem Grown.self (hneat : ctx.ccls.Neat neg) (htagged : ∀ s, ∀ t ∈ (ctx.state s).trans,
    TagsSound t.tags) : Grown neg ctx ctx where
  length_le := le_rfl
  old _ _ := rfl
  new s hs t ht := by
    rw [NfaContext.state_of_le hs] at ht
    cases ht
  neat := hneat
  ccls := List.prefix_rfl
  dontAnchor_eq := rfl
  accepts s hs := by rw [NfaContext.state_of_le hs]
  tagged := htagged
  maxAccept_eq := rfl

theorem Grown.refl (h : Grown neg ctx₀ ctx) : Grown neg ctx ctx :=
  .self h.neat h.tagged

theorem Grown.widens (h : Grown neg ctx₀ ctx) (hw : ctx₀.WellFormed) : Widens ∅ ctx₀ ctx where
  length_le := h.length_le
  steps_iff s hs _ t x i j := by
    unfold NfaContext.steps
    rw [h.old s hs]
    apply exists_congr
    intro trans
    apply and_congr_right
    intro htrans
    rw [ccl_extends h.ccls (hw.ccls s trans htrans)]

/-! ## Rules -/

section

variable {α β : Type} {P : α → Prop} {P' : β → Prop}

theorem Keeps.pure {a : α} (h : P a) : Keeps neg ctx₀ (pure a) P := by
  intro ctx b ctx' hg hrun
  cases hrun
  exact ⟨hg, h⟩

theorem Keeps.fail : Keeps neg ctx₀ (fun _ => none) P := by
  intro ctx a ctx' _ hrun
  cases hrun

theorem Keeps.bind {m : Make α} {f : α → Make β} (hm : Keeps neg ctx₀ m P)
    (hf : ∀ a, P a → Keeps neg ctx₀ (f a) P') : Keeps neg ctx₀ (m >>= f) P' := by
  intro ctx b ctx' hg hrun
  change (m ctx).bind (fun r => f r.1 r.2) = _ at hrun
  obtain ⟨r, hr, hrest⟩ := Option.bind_eq_some_iff.mp hrun
  obtain ⟨hg₁, ha⟩ := hm ctx r.1 r.2 hg hr
  exact hf r.1 ha r.2 b ctx' hg₁ hrest

theorem Keeps.map {m : Make α} {f : α → β} (hm : Keeps neg ctx₀ m P) (hf : ∀ a, P a → P' (f a)) :
    Keeps neg ctx₀ (f <$> m) P' := by
  intro ctx b ctx' hg hrun
  change (m ctx).bind (fun r => some (f r.1, r.2)) = _ at hrun
  obtain ⟨r, hr, hrest⟩ := Option.bind_eq_some_iff.mp hrun
  cases hrest
  obtain ⟨hg₁, ha⟩ := hm ctx r.1 r.2 hg hr
  exact ⟨hg₁, hf r.1 ha⟩

theorem Keeps.get : Keeps neg ctx₀ get fun ctx => Grown neg ctx₀ ctx := by
  intro ctx a ctx' hg hrun
  cases hrun
  exact ⟨hg, hg⟩

theorem Keeps.modify {f : NfaContext → NfaContext}
    (hf : ∀ ctx, Grown neg ctx₀ ctx → Grown neg ctx₀ (f ctx)) :
    Keeps neg ctx₀ (modify f) fun _ => True := by
  intro ctx a ctx' hg hrun
  cases hrun
  exact ⟨hf ctx hg, trivial⟩

theorem Keeps.makes {m : Make α} {Q : α → NfaContext → Prop} (hm : Keeps neg ctx₀ m P)
    (hg : Grown neg ctx₀ ctx) (h : Makes m ctx Q) :
    Makes m ctx fun a ctx' => Grown neg ctx₀ ctx' ∧ P a ∧ Q a ctx' := by
  obtain ⟨a, ctx', hrun, hQ⟩ := h
  obtain ⟨hg', ha⟩ := hm ctx a ctx' hg hrun
  exact ⟨a, ctx', hrun, hg', ha, hQ⟩

end

/-! ## States -/

def NfaState.Sound (n : ℕ) (state : NfaState) : Prop :=
  state.accepts = [] ∧ ∀ t ∈ state.trans, n ≤ t.succ ∧ TagsSound t.tags

theorem keeps_nfaStateCreate :
    Keeps neg ctx₀ nfaStateCreate fun s => ctx₀.states.length ≤ s := by
  intro ctx a ctx' hg hrun
  cases hrun
  refine ⟨⟨?_, fun s hs => ?_, fun s hs t ht => ?_, hg.neat, hg.ccls, hg.dontAnchor_eq,
    fun s hs => ?_, fun s t ht => ?_, hg.maxAccept_eq⟩, hg.length_le⟩
  · have hgrow : ctx.grow.states.length = ctx.states.length + 1 := NfaContext.grow_length
    exact hg.length_le.trans (hgrow ▸ Nat.le_succ _)
  · exact (NfaContext.grow_state s).trans (hg.old s hs)
  · have hgrow : ctx.grow.state s = ctx.state s := NfaContext.grow_state s
    exact hg.new s hs t (hgrow ▸ ht)
  · exact (congrArg NfaState.accepts (NfaContext.grow_state s)).trans (hg.accepts s hs)
  · have hgrow : ctx.grow.state s = ctx.state s := NfaContext.grow_state s
    exact hg.tagged s t (hgrow ▸ ht)

theorem keeps_nfaStateModify {id : ℕ} {f : NfaState → NfaState} (hid : ctx₀.states.length ≤ id)
    (hf : ∀ state, state.Sound ctx₀.states.length → (f state).Sound ctx₀.states.length) :
    Keeps neg ctx₀ (nfaStateModify id f) fun _ => True := by
  apply Keeps.modify
  intro ctx hg
  change Grown neg ctx₀ (ctx.edit id f)
  have hedit : ∀ s, (ctx.edit id f).state s = ctx.state s ∨
      ctx₀.states.length ≤ s ∧ ((ctx.edit id f).state s).Sound ctx₀.states.length := by
    intro s
    by_cases hs : s = id
    · by_cases hlt : id < ctx.states.length
      · rw [hs, NfaContext.edit_state_self hlt]
        exact .inr ⟨hid, hf _ ⟨hg.accepts id hid, fun t ht =>
          ⟨hg.new id hid t ht, hg.tagged id t ht⟩⟩⟩
      · have hle := Nat.not_lt.mp hlt
        rw [hs, NfaContext.state_of_le hle, NfaContext.state_of_le (by rwa [NfaContext.edit_length])]
        exact .inl rfl
    · exact .inl (NfaContext.edit_state_ne hs f)
  refine ⟨?_, fun s hs => ?_, fun s hs t ht => ?_, hg.neat, hg.ccls, hg.dontAnchor_eq,
    fun s hs => ?_, fun s t ht => ?_, hg.maxAccept_eq⟩
  · rw [NfaContext.edit_length]
    exact hg.length_le
  · cases hedit s with
    | inl h => exact h.trans (hg.old s hs)
    | inr h => exact absurd hs h.1.not_gt
  · cases hedit s with
    | inl h => exact hg.new s hs t (h ▸ ht)
    | inr h => exact (h.2.2 t ht).1
  · cases hedit s with
    | inl h => exact h.symm ▸ hg.accepts s hs
    | inr h => exact h.2.1
  · cases hedit s with
    | inl h => exact hg.tagged s t (h ▸ ht)
    | inr h => exact (h.2.2 t ht).2

theorem keeps_appendTrans {id : ℕ} (hid : ctx₀.states.length ≤ id) (trans : NfaTransition)
    (hsucc : ctx₀.states.length ≤ trans.succ) (htags : TagsSound trans.tags) :
    Keeps neg ctx₀ (nfaStateModify id fun s => { s with trans := s.trans ++ [trans] })
      fun _ => True := by
  apply keeps_nfaStateModify hid
  intro state h
  refine ⟨h.1, fun t ht => ?_⟩
  cases List.mem_append.mp ht with
  | inl ht => exact h.2 t ht
  | inr ht => exact List.mem_singleton.mp ht ▸ ⟨hsucc, htags⟩

theorem keeps_onCcls {f : CclGroup → Option (CclGroup × ℕ)}
    (hf : ∀ group r, group.Neat neg → f group = some r → r.1.Neat neg ∧ group.ccls <+: r.1.ccls) :
    Keeps neg ctx₀ (onCcls f) fun _ => True := by
  intro ctx a ctx' hg hrun
  obtain ⟨r, hr, heq⟩ := Option.map_eq_some_iff.mp hrun
  cases heq
  obtain ⟨hneat, hpre⟩ := hf ctx.ccls r hg.neat hr
  exact ⟨⟨hg.length_le, hg.old, hg.new, hneat, hg.ccls.trans hpre, hg.dontAnchor_eq, hg.accepts,
    hg.tagged, hg.maxAccept_eq⟩, trivial⟩

theorem keeps_cclEpsilon : Keeps neg ctx₀ cclEpsilon fun _ => True := by
  apply keeps_onCcls
  intro group r h hr
  exact fromStdCcl_epsilon h hr

theorem keeps_nfaStateAddTrans {state succ : ℕ} {tags : Option (List Tag)}
    (hstate : ctx₀.states.length ≤ state) (hsucc : ctx₀.states.length ≤ succ)
    (htags : TagsSound tags) (ccl : ℕ) :
    Keeps neg ctx₀ (nfaStateAddTrans state succ tags ccl) fun _ => True :=
  keeps_appendTrans hstate _ hsucc htags

theorem keeps_addEpsilon {β : Type} {P : β → Prop} {state succ : ℕ} {tags : Option (List Tag)}
    (hstate : ctx₀.states.length ≤ state) (hsucc : ctx₀.states.length ≤ succ)
    (htags : TagsSound tags) {k : Unit → Make β} (hk : Keeps neg ctx₀ (k ()) P) :
    Keeps neg ctx₀ (cclEpsilon >>= fun ccl => nfaStateAddTrans state succ tags ccl >>= k) P := by
  apply keeps_cclEpsilon.bind
  intro ccl _
  apply (keeps_nfaStateAddTrans hstate hsucc htags ccl).bind
  intro _ _
  exact hk

theorem tagsSound_none : TagsSound none := fun _ h => nomatch h

/-! ## Copies -/

def CopiesNew (n : ℕ) (copies : ℕ → Option ℕ) : Prop :=
  ∀ s c, copies s = some c → n ≤ c

theorem keeps_copyTransitions {fuel c : ℕ} (hc : ctx₀.states.length ≤ c)
    (hvisit : ∀ state copies, ctx₀.states.length ≤ state → CopiesNew ctx₀.states.length copies →
      Keeps neg ctx₀ (nfaStateDeepCopy fuel state copies) fun r =>
        ctx₀.states.length ≤ r.1 ∧ CopiesNew ctx₀.states.length r.2)
    {l : List NfaTransition} (hl : ∀ t ∈ l, ctx₀.states.length ≤ t.succ ∧ TagsSound t.tags) :
    ∀ copies : ℕ → Option ℕ, CopiesNew ctx₀.states.length copies →
    Keeps neg ctx₀ (l.foldlM (copyTransition (nfaStateDeepCopy fuel) c) copies)
      (CopiesNew ctx₀.states.length) := by
  induction l with
  | nil => exact fun copies h => Keeps.pure h
  | cons trans l ih =>
    intro copies h
    obtain ⟨⟨hsucc, htags⟩, hl⟩ := List.forall_mem_cons.mp hl
    rw [List.foldlM_cons]
    refine Keeps.bind (P := CopiesNew ctx₀.states.length) ?_ (ih hl)
    apply (hvisit trans.succ copies hsucc h).bind
    intro r hr
    apply (keeps_appendTrans hc { trans with succ := r.1 } hr.1 htags).bind
    intro _ _
    exact Keeps.pure hr.2

theorem keeps_nfaStateDeepCopy (fuel : ℕ) : ∀ (state : ℕ) (copies : ℕ → Option ℕ),
    ctx₀.states.length ≤ state → CopiesNew ctx₀.states.length copies →
    Keeps neg ctx₀ (nfaStateDeepCopy fuel state copies) fun r =>
      ctx₀.states.length ≤ r.1 ∧ CopiesNew ctx₀.states.length r.2 := by
  induction fuel with
  | zero => exact fun _ _ _ _ => Keeps.fail
  | succ fuel ih =>
    intro state copies hstate h
    cases hcopy : copies state with
    | some c =>
      have hrun : nfaStateDeepCopy (fuel + 1) state copies = pure (c, copies) := by
        rw [nfaStateDeepCopy, hcopy]
      rw [hrun]
      exact Keeps.pure ⟨h state c hcopy, h⟩
    | none =>
      have hrun : nfaStateDeepCopy (fuel + 1) state copies = (do
          let old := (← get).state state
          let copy ← nfaStateCreate
          nfaStateModify copy fun st => { st with accepts := old.accepts }
          let copies ← old.trans.foldlM (copyTransition (nfaStateDeepCopy fuel) copy)
            (Function.update copies state (some copy))
          pure (copy, copies)) := by
        rw [nfaStateDeepCopy, hcopy]
        rfl
      rw [hrun]
      apply Keeps.get.bind
      intro ctx hctx
      apply keeps_nfaStateCreate.bind
      intro c hc
      have hmodify : Keeps neg ctx₀
          (nfaStateModify c fun st => { st with accepts := (ctx.state state).accepts })
          fun _ => True := by
        apply keeps_nfaStateModify hc
        intro st hst
        exact ⟨hctx.accepts state hstate, hst.2⟩
      apply hmodify.bind
      intro _ _
      have hnew : CopiesNew ctx₀.states.length (Function.update copies state (some c)) := by
        intro s c' hs
        by_cases heq : s = state
        · rw [heq, Function.update_self] at hs
          cases hs
          exact hc
        · rw [Function.update_of_ne heq] at hs
          exact h s c' hs
      have hold : ∀ t ∈ (ctx.state state).trans, ctx₀.states.length ≤ t.succ ∧ TagsSound t.tags :=
        fun t ht => ⟨hctx.new state hstate t ht, hctx.tagged state t ht⟩
      apply (keeps_copyTransitions hc ih hold _ hnew).bind
      intro copies' h'
      exact Keeps.pure ⟨hc, h'⟩

theorem keeps_nfaDeepCopy {nfa : Fragment} (h : Held ctx₀.states.length nfa) :
    Keeps neg ctx₀ (nfaDeepCopy nfa) (Held ctx₀.states.length) := by
  apply Keeps.get.bind
  intro ctx _
  have hnone : CopiesNew ctx₀.states.length fun _ => none := fun _ _ hs => nomatch hs
  apply (keeps_nfaStateDeepCopy _ nfa.initial _ h.initial hnone).bind
  intro r₁ h₁
  apply (keeps_nfaStateDeepCopy _ nfa.final r₁.2 h.final h₁.2).bind
  intro r₂ h₂
  exact Keeps.pure ⟨h₁.1, h₂.1, h.tagged⟩

/-! ## Constructors -/

variable {nfa nfa1 nfa2 templ : Fragment}

theorem keeps_nfaEmpty : Keeps neg ctx₀ nfaEmpty (Held ctx₀.states.length) := by
  apply keeps_nfaStateCreate.bind
  intro s hs
  exact Keeps.pure ⟨hs, hs, tagsSound_none⟩

theorem keeps_nfaConcat (h₁ : Held ctx₀.states.length nfa1) (h₂ : Held ctx₀.states.length nfa2)
    (ccl : Option ℕ) : Keeps neg ctx₀ (nfaConcat nfa1 nfa2 ccl) (Held ctx₀.states.length) := by
  have hheld : Held ctx₀.states.length { nfa1 with final := nfa2.final } :=
    ⟨h₁.initial, h₂.final, h₁.tagged⟩
  cases ccl with
  | none => exact keeps_addEpsilon h₁.final h₂.initial h₂.tagged (Keeps.pure hheld)
  | some ccl =>
    exact (keeps_nfaStateAddTrans h₁.final h₂.initial h₂.tagged ccl).bind fun _ _ => Keeps.pure hheld

theorem keeps_nfaFromCcl (ccl : ℕ) : Keeps neg ctx₀ (nfaFromCcl ccl) (Held ctx₀.states.length) := by
  apply keeps_nfaEmpty.bind
  intro nfa1 h₁
  apply keeps_nfaEmpty.bind
  intro nfa2 h₂
  exact keeps_nfaConcat h₁ h₂ (some ccl)

theorem keeps_nfaAlternative (h₁ : Held ctx₀.states.length nfa1)
    (h₂ : Held ctx₀.states.length nfa2) :
    Keeps neg ctx₀ (nfaAlternative nfa1 nfa2) (Held ctx₀.states.length) := by
  apply keeps_nfaStateCreate.bind
  intro eps1 heps1
  apply keeps_addEpsilon heps1 h₁.initial h₁.tagged
  apply keeps_addEpsilon heps1 h₂.initial h₂.tagged
  apply keeps_nfaStateCreate.bind
  intro eps2 heps2
  apply keeps_addEpsilon h₁.final heps2 tagsSound_none
  apply keeps_addEpsilon h₂.final heps2 tagsSound_none
  exact Keeps.pure ⟨heps1, heps2, tagsSound_none⟩

theorem tagsSound_tagsJoin {tags other : Option (List Tag)} (h : TagsSound tags)
    (ho : TagsSound other) : TagsSound (tagsJoin tags other) := by
  cases other with
  | none => exact h
  | some l =>
    intro l' hl'
    cases hl'
    obtain ⟨hne, hprio⟩ := ho l rfl
    have hmem : ∀ tag, tag ∈ l.foldl (fun tags tag => setInsert Tag.Before tag tags) (tags.getD []) ↔
        tag ∈ l ∨ tag ∈ tags.getD [] := fun tag =>
      mem_insertAll Tag.Before tag l (tags.getD [])
    refine ⟨?_, fun tag htag => ?_⟩
    · obtain ⟨tag, rest, rfl⟩ := List.exists_cons_of_ne_nil hne
      exact List.ne_nil_of_mem ((hmem tag).mpr (.inl List.mem_cons_self))
    · cases (hmem tag).mp htag with
      | inl htag => exact hprio tag htag
      | inr htag =>
        cases tags with
        | none => cases htag
        | some l' => exact (h l' rfl).2 tag htag

theorem keeps_nfaSetCapture (h : Held ctx₀.states.length nfa) (group : ℕ) :
    Keeps neg ctx₀ (nfaSetCapture nfa group) (Held ctx₀.states.length) := by
  apply Keeps.get.bind
  intro ctx hctx
  split
  · exact Keeps.pure h
  · have hset : Keeps neg ctx₀
        (set { ctx with maxTag := max ctx.maxTag (group * 2 + 1) } : Make PUnit) fun _ => True := by
      intro ctx' a ctx'' _ hrun
      cases hrun
      exact ⟨⟨hctx.length_le, hctx.old, hctx.new, hctx.neat, hctx.ccls, hctx.dontAnchor_eq,
        hctx.accepts, hctx.tagged, hctx.maxAccept_eq⟩, trivial⟩
    have hone : ∀ tag : Tag, -127 ≤ tag.prio → TagsSound (some [tag]) := by
      intro tag htag l hl
      cases hl
      exact ⟨List.cons_ne_nil _ _, fun t ht => List.mem_singleton.mp ht ▸ htag⟩
    apply hset.bind
    intro _ _
    apply keeps_nfaEmpty.bind
    intro eps heps
    have hfirst := tagsSound_tagsJoin h.tagged (hone ⟨group * 2, -5⟩ (show (-127 : ℤ) ≤ -5 by decide))
    have hlast := hone ⟨group * 2 + 1, 5⟩ (show (-127 : ℤ) ≤ 5 by decide)
    have hfront : Held ctx₀.states.length
        { nfa with initialTags := tagsJoin nfa.initialTags (some [⟨group * 2, -5⟩]) } :=
      ⟨h.initial, h.final, hfirst⟩
    have hback : Held ctx₀.states.length
        { eps with initialTags := some [⟨group * 2 + 1, 5⟩] } :=
      ⟨heps.initial, heps.final, hlast⟩
    exact keeps_nfaConcat hfront hback none

/-! ## Iteration -/

theorem keeps_requiredLoop (ht : Held ctx₀.states.length templ) (n : ℕ) : ∀ all : Fragment,
    Held ctx₀.states.length all →
    Keeps neg ctx₀ (requiredLoop templ n all) (Held ctx₀.states.length) := by
  induction n with
  | zero => exact fun all h => Keeps.pure h
  | succ n ih =>
    intro all h
    apply (keeps_nfaDeepCopy ht).bind
    intro copy hcopy
    apply (keeps_nfaConcat h hcopy none).bind
    exact ih

/-- The fragment that `all` points to has only new states. -/
def All.Held (n : ℕ) : All → Prop
  | .own nfa => Hilti.Justrx.Held n nfa
  | _ => True

theorem keeps_optionalLoop (n : ℕ) : ∀ (optional : Fragment) (all : All),
    Held ctx₀.states.length optional → all.Held ctx₀.states.length →
    Keeps neg ctx₀ (optionalLoop n optional all) fun r =>
      Held ctx₀.states.length r.1 ∧ r.2.Held ctx₀.states.length := by
  induction n with
  | zero => exact fun optional all h hall => Keeps.pure ⟨h, hall⟩
  | succ n ih =>
    intro optional all h hall
    cases all with
    | null => exact ih optional .optional h trivial
    | own nfa =>
      apply (keeps_nfaDeepCopy h).bind
      intro copy hcopy
      apply (keeps_nfaConcat hall hcopy none).bind
      intro nfa' hnfa'
      exact ih optional (.own nfa') h hnfa'
    | optional =>
      apply (keeps_nfaDeepCopy h).bind
      intro copy hcopy
      apply (keeps_nfaConcat h hcopy none).bind
      intro optional' hoptional'
      exact ih optional' .optional hoptional' trivial

def HeldIfAny (n : ℕ) (nfa : Option Fragment) : Prop :=
  ∀ nfa', nfa = some nfa' → Held n nfa'

theorem HeldIfAny.some {n : ℕ} (h : Held n nfa) : HeldIfAny n (some nfa) := by
  intro nfa' heq
  cases heq
  exact h

theorem keeps_iterateBounded (ht : Held ctx₀.states.length templ) (n : ℕ) {all : Option Fragment}
    (hall : HeldIfAny ctx₀.states.length all) :
    Keeps neg ctx₀ (iterateBounded templ n all) (HeldIfAny ctx₀.states.length) := by
  apply (keeps_nfaDeepCopy ht).bind
  intro copy hcopy
  apply keeps_nfaEmpty.bind
  intro empty hempty
  apply (keeps_nfaAlternative hcopy hempty).bind
  intro optional hoptional
  have hstart : (all.elim All.null All.own).Held ctx₀.states.length := by
    cases all with
    | none => trivial
    | some all => exact hall all rfl
  apply (keeps_optionalLoop n optional _ hoptional hstart).bind
  intro r hr
  apply Keeps.pure
  intro nfa' heq
  obtain ⟨optional', all'⟩ := r
  cases all' with
  | null => cases heq
  | own nfa =>
    cases heq
    exact hr.2
  | optional =>
    cases heq
    exact hr.1

theorem keeps_iterateUnbounded (ht : Held ctx₀.states.length templ) {all : Option Fragment}
    (hall : HeldIfAny ctx₀.states.length all) :
    Keeps neg ctx₀ (iterateUnbounded templ all) (HeldIfAny ctx₀.states.length) := by
  apply (keeps_nfaDeepCopy ht).bind
  intro closure hclosure
  apply keeps_addEpsilon hclosure.final hclosure.initial tagsSound_none
  cases all with
  | none => exact Keeps.pure (HeldIfAny.some hclosure)
  | some all => exact (keeps_nfaConcat (hall all rfl) hclosure none).map fun _ h => HeldIfAny.some h

theorem keeps_iterateNone {all : Option Fragment} (hall : HeldIfAny ctx₀.states.length all) :
    Keeps neg ctx₀ (iterateNone all) (HeldIfAny ctx₀.states.length) := by
  cases all with
  | none => exact Keeps.fail
  | some all =>
    apply keeps_nfaEmpty.bind
    intro empty hempty
    exact (keeps_nfaAlternative (hall all rfl) hempty).map fun _ h => HeldIfAny.some h

theorem keeps_nfaIterate (h : Held ctx₀.states.length nfa) (min max : ℤ) :
    Keeps neg ctx₀ (nfaIterate nfa min max) (HeldIfAny ctx₀.states.length) := by
  apply (keeps_nfaDeepCopy h).bind
  intro templ ht
  dsimp only
  generalize (if min < 0 then 0 else min) = min
  split
  · exact keeps_nfaEmpty.map fun _ h => HeldIfAny.some h
  · have hrequired : Keeps neg ctx₀
        (if 1 < min then some <$> requiredLoop templ (min - 1).toNat nfa else pure none)
        (HeldIfAny ctx₀.states.length) := by
      split
      · exact (keeps_requiredLoop ht _ nfa h).map fun _ h => HeldIfAny.some h
      · exact Keeps.pure fun _ heq => (nomatch heq)
    apply hrequired.bind
    intro all hall
    have hrest : Keeps neg ctx₀ (if 0 ≤ max then iterateBounded templ (max - min).toNat all
        else iterateUnbounded templ all) (HeldIfAny ctx₀.states.length) := by
      split
      · exact keeps_iterateBounded ht _ hall
      · exact keeps_iterateUnbounded ht hall
    apply hrest.bind
    intro all' hall'
    split
    · exact keeps_iterateNone hall'
    · exact Keeps.pure hall'

end

end Hilti.Justrx
