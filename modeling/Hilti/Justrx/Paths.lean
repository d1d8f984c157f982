import Hilti.Justrx.Build
import Hilti.Justrx.Match
import Hilti.Lib.Spans

/-!
# What the constructors of NFAs build

A fragment matches the spans of its paths from its initial to its final state, of any input and with
any assertions that hold at its positions.  Every constructor leaves what other fragments match as it
is, and what its result matches is given by what its arguments do.
-/

namespace Hilti.Justrx

open Hilti.Lib

set_option autoImplicit false

/-! ## Meaning -/

/-- An input, with the assertions that hold at its positions. -/
structure Input where
  chars : List ℕ
  holds : ℕ → Finset Assertion

/-- What a class matches: nothing, if it stands for epsilon, or a character in its ranges. -/
def Ccl.spans (ccl : Ccl) : Spans Input := fun x i j =>
  ccl.assertions ⊆ x.holds i ∧
    match ccl.ranges with
    | none => i = j
    | some rs => j = i + 1 ∧ ∃ cp, x.chars[i]? = some cp ∧ inRanges rs cp = true

namespace NfaContext

/-- What the transitions from one state to another match. -/
def steps (ctx : NfaContext) (s t : ℕ) : Spans Input := fun x i j =>
  ∃ trans ∈ (ctx.state s).trans, trans.succ = t ∧ (ctx.ccl trans.ccl).spans x i j

/-- What a fragment matches. -/
def language (ctx : NfaContext) (nfa : Fragment) : Spans Input :=
  path ctx.steps nfa.initial nfa.final

/-- The epsilon class is what it is remembered as, and transitions refer to classes and states that
are there. -/
structure WellFormed (ctx : NfaContext) : Prop where
  epsilon : ∀ id, ctx.ccls.stdCcls .epsilon = some id → ctx.ccls.ccls[id]? = some ⟨∅, none⟩
  ccls : ∀ s, ∀ t ∈ (ctx.state s).trans, t.ccl < ctx.ccls.ccls.length
  succs : ∀ s, ∀ t ∈ (ctx.state s).trans, t.succ < ctx.states.length

end NfaContext

theorem wellFormed_nfaContextCreate (dontAnchor : Bool) (nmatch : ℤ) :
    (nfaContextCreate dontAnchor nmatch).WellFormed where
  epsilon _ h := nomatch h
  ccls _ _ h := nomatch h
  succs _ _ h := nomatch h

theorem ccl_spans_forward (ccl : Ccl) : ccl.spans.Forward := by
  rintro x i j ⟨-, h⟩
  split at h
  · exact h.le
  · exact h.1 ▸ Nat.le_succ i

theorem epsilon_spans {x : Input} {i j : ℕ} : (⟨∅, none⟩ : Ccl).spans x i j ↔ i = j :=
  and_iff_right (Finset.empty_subset _)

section

variable {ctx ctx' : NfaContext}

theorem steps_forward (s t : ℕ) : (ctx.steps s t).Forward := by
  rintro x i j ⟨trans, -, -, h⟩
  exact ccl_spans_forward _ x i j h

theorem language_forward (nfa : Fragment) : (ctx.language nfa).Forward :=
  forward_path steps_forward _ _

theorem NfaContext.state_of_le {s : ℕ} (h : ctx.states.length ≤ s) : ctx.state s = ⟨[], []⟩ := by
  rw [NfaContext.state, List.getD_eq_getElem?_getD, List.getElem?_eq_none h, Option.getD_none]

theorem steps_of_le {s : ℕ} (h : ctx.states.length ≤ s) (t : ℕ) (x : Input) (i j : ℕ) :
    ¬ctx.steps s t x i j := by
  rintro ⟨trans, htrans, -⟩
  rw [NfaContext.state_of_le h] at htrans
  cases htrans

theorem NfaContext.WellFormed.lt_of_steps (h : ctx.WellFormed) {s t : ℕ} {x : Input} {i j : ℕ}
    (hst : ctx.steps s t x i j) : t < ctx.states.length := by
  obtain ⟨trans, htrans, rfl, -⟩ := hst
  exact h.succs s trans htrans

theorem NfaContext.WellFormed.closed (h : ctx.WellFormed) :
    Closed ctx.steps {s | s < ctx.states.length} :=
  fun _ _ _ _ _ _ hst => h.lt_of_steps hst

/-! ## Success -/

def Makes {α : Type} (m : Make α) (ctx : NfaContext) (Q : α → NfaContext → Prop) : Prop :=
  ∃ a ctx', m ctx = some (a, ctx') ∧ Q a ctx'

theorem Makes.pure {α : Type} {a : α} {Q : α → NfaContext → Prop} (h : Q a ctx) :
    Makes (pure a) ctx Q :=
  ⟨a, ctx, rfl, h⟩

theorem Makes.bind {α β : Type} {m : Make α} {f : α → Make β} {Q : α → NfaContext → Prop}
    {Q' : β → NfaContext → Prop} (hm : Makes m ctx Q)
    (hf : ∀ a ctx', Q a ctx' → Makes (f a) ctx' Q') : Makes (m >>= f) ctx Q' := by
  obtain ⟨a, ctx₁, hm, ha⟩ := hm
  obtain ⟨b, ctx₂, hf, hb⟩ := hf a ctx₁ ha
  refine ⟨b, ctx₂, ?_, hb⟩
  change (m ctx).bind (fun r => f r.1 r.2) = _
  rw [hm, Option.bind_some, hf]

theorem Makes.imp {α : Type} {m : Make α} {Q Q' : α → NfaContext → Prop} (h : Makes m ctx Q)
    (hQ : ∀ a ctx', Q a ctx' → Q' a ctx') : Makes m ctx Q' := by
  obtain ⟨a, ctx₁, hm, ha⟩ := h
  exact ⟨a, ctx₁, hm, hQ a ctx₁ ha⟩

theorem Makes.map {α β : Type} {m : Make α} {f : α → β} {Q : α → NfaContext → Prop}
    {Q' : β → NfaContext → Prop} (hm : Makes m ctx Q) (hf : ∀ a ctx', Q a ctx' → Q' (f a) ctx') :
    Makes (f <$> m) ctx Q' := by
  obtain ⟨a, ctx₁, hm, ha⟩ := hm
  refine ⟨f a, ctx₁, ?_, hf a ctx₁ ha⟩
  change (m ctx).bind (fun r => some (f r.1, r.2)) = _
  rw [hm, Option.bind_some]

theorem Makes.get : Makes get ctx fun a ctx' => ctx = a ∧ ctx = ctx' :=
  ⟨ctx, ctx, rfl, rfl, rfl⟩

/-! ## Changes of states -/

def NfaContext.grow (ctx : NfaContext) : NfaContext :=
  { ctx with states := ctx.states ++ [⟨[], []⟩] }

/-- The context with one state changed. -/
def NfaContext.edit (ctx : NfaContext) (id : ℕ) (f : NfaState → NfaState) : NfaContext :=
  { ctx with states := ctx.states.modify id f }

theorem makes_nfaStateCreate {Q : ℕ → NfaContext → Prop} (h : Q ctx.states.length ctx.grow) :
    Makes nfaStateCreate ctx Q :=
  ⟨_, _, rfl, h⟩

theorem makes_nfaStateModify {id : ℕ} {f : NfaState → NfaState} {Q : Unit → NfaContext → Prop}
    (h : Q () (ctx.edit id f)) : Makes (nfaStateModify id f) ctx Q :=
  ⟨_, _, rfl, h⟩

@[simp] theorem NfaContext.grow_ccls : ctx.grow.ccls = ctx.ccls := rfl

@[simp] theorem NfaContext.edit_ccls (id : ℕ) (f : NfaState → NfaState) :
    (ctx.edit id f).ccls = ctx.ccls := rfl

@[simp] theorem NfaContext.grow_length : ctx.grow.states.length = ctx.states.length + 1 :=
  List.length_append

@[simp] theorem NfaContext.edit_length (id : ℕ) (f : NfaState → NfaState) :
    (ctx.edit id f).states.length = ctx.states.length :=
  List.length_modify f _ id

@[simp] theorem NfaContext.grow_state (s : ℕ) : ctx.grow.state s = ctx.state s := by
  rcases Nat.lt_trichotomy s ctx.states.length with hlt | heq | hgt
  · simp [NfaContext.state, NfaContext.grow, List.getD_eq_getElem?_getD, List.getElem?_append_left hlt]
  · subst heq
    simp [NfaContext.state, NfaContext.grow]
  · rw [NfaContext.state_of_le hgt.le, NfaContext.state_of_le]
    rw [NfaContext.grow_length]
    exact hgt

theorem NfaContext.edit_state_ne {id s : ℕ} (h : s ≠ id) (f : NfaState → NfaState) :
    (ctx.edit id f).state s = ctx.state s := by
  simp [NfaContext.state, NfaContext.edit, List.getD_eq_getElem?_getD, Ne.symm h]

theorem NfaContext.edit_state_self {id : ℕ} (h : id < ctx.states.length) (f : NfaState → NfaState) :
    (ctx.edit id f).state id = f (ctx.state id) := by
  simp [NfaContext.state, NfaContext.edit, List.getD_eq_getElem?_getD, h]

theorem NfaContext.grow_steps (s t : ℕ) : ctx.grow.steps s t = ctx.steps s t := by
  unfold NfaContext.steps
  rw [NfaContext.grow_state]
  rfl

theorem NfaContext.WellFormed.grow (h : ctx.WellFormed) : ctx.grow.WellFormed where
  epsilon := h.epsilon
  ccls s t ht := h.ccls s t (by rwa [NfaContext.grow_state] at ht)
  succs s t ht := by
    rw [NfaContext.grow_state] at ht
    rw [NfaContext.grow_length]
    exact (h.succs s t ht).trans (Nat.lt_succ_self _)

/-! ## Edges -/

/-- The second context is the first with another edge, which matches nothing. -/
structure Linked (a b : ℕ) (ctx ctx' : NfaContext) : Prop where
  length_eq : ctx'.states.length = ctx.states.length
  steps_iff : ∀ s t x i j, ctx'.steps s t x i j ↔ ctx.steps s t x i j ∨ (s = a ∧ t = b ∧ i = j)

theorem groupAddTo_epsilon (group : Group) :
    group <+: (groupAddTo group ⟨∅, none⟩).1 ∧
      (groupAddTo group ⟨∅, none⟩).1[(groupAddTo group ⟨∅, none⟩).2]? = some ⟨∅, none⟩ := by
  unfold groupAddTo
  cases hfind : groupFind group ⟨∅, none⟩ with
  | none => exact ⟨List.prefix_append _ _, List.getElem?_concat_length⟩
  | some k =>
    obtain ⟨hlt, hcmp, -⟩ := List.findIdx?_eq_some_iff_getElem.mp hfind
    refine ⟨List.prefix_rfl, ?_⟩
    simp only [Ccl.compare, Bool.and_eq_true] at hcmp
    have hback := hcmp.2
    rw [List.getElem?_eq_getElem hlt]
    generalize group[k] = c at hback
    obtain ⟨A, rs⟩ := c
    cases rs with
    | none =>
      simp only [Ccl.isPartOf, ne_eq, ite_eq_right_iff] at hback
      by_cases hA : A = ∅
      · rw [hA]
      · simp [hA] at hback
    | some rs =>
      simp only [Ccl.isPartOf] at hback
      split at hback <;> cases hback

theorem makes_cclEpsilon (h : ctx.WellFormed) : Makes cclEpsilon ctx fun id ctx' =>
    ctx'.states = ctx.states ∧ ctx.ccls.ccls <+: ctx'.ccls.ccls ∧
      ctx'.ccls.ccls[id]? = some ⟨∅, none⟩ ∧
      ∀ id', ctx'.ccls.stdCcls .epsilon = some id' → ctx'.ccls.ccls[id']? = some ⟨∅, none⟩ := by
  cases hstd : ctx.ccls.stdCcls .epsilon with
  | some id =>
    refine ⟨id, ctx, ?_, rfl, List.prefix_rfl, h.epsilon id hstd, h.epsilon⟩
    simp only [cclEpsilon, onCcls, CclGroup.fromStdCcl, hstd, Option.map_some]
  | none =>
    obtain ⟨hpre, hget⟩ := groupAddTo_epsilon ctx.ccls.ccls
    set r := groupAddTo ctx.ccls.ccls ⟨∅, none⟩ with hr
    refine ⟨r.2, { ctx with ccls := ⟨r.1, fun s => if s = .epsilon then some r.2 else
      ctx.ccls.stdCcls s⟩ }, ?_, rfl, hpre, hget, ?_⟩
    · simp only [cclEpsilon, onCcls, CclGroup.fromStdCcl, hstd, CclGroup.computeStd, Option.map_some]
      rfl
    · intro id' hid
      cases hid
      exact hget

theorem ccl_extends (h : ctx.ccls.ccls <+: ctx'.ccls.ccls) {id : ℕ}
    (hid : id < ctx.ccls.ccls.length) : ctx'.ccl id = ctx.ccl id := by
  obtain ⟨more, hmore⟩ := h
  rw [NfaContext.ccl, ← hmore, NfaContext.ccl, List.getD_eq_getElem?_getD,
    List.getElem?_append_left hid, ← List.getD_eq_getElem?_getD]

theorem makes_addEpsilon (h : ctx.WellFormed) {a b : ℕ} (ha : a < ctx.states.length)
    (hb : b < ctx.states.length) (tags : Option (List Tag)) :
    Makes (cclEpsilon >>= fun ccl => nfaStateAddTrans a b tags ccl) ctx fun _ ctx' =>
      ctx'.WellFormed ∧ Linked a b ctx ctx' := by
  refine Makes.bind (makes_cclEpsilon h) fun id ctx₁ h₁ => ?_
  obtain ⟨hstates, hpre, hid, heps⟩ := h₁
  have hstate : ∀ s, ctx₁.state s = ctx.state s := fun s => by rw [NfaContext.state, hstates]; rfl
  have hlen : ctx₁.states.length = ctx.states.length := by rw [hstates]
  have ha₁ : a < ctx₁.states.length := hlen ▸ ha
  have hidlt : id < ctx₁.ccls.ccls.length := (List.getElem?_eq_some_iff.mp hid).1
  have hccl : ctx₁.ccl id = ⟨∅, none⟩ := by
    rw [NfaContext.ccl, List.getD_eq_getElem?_getD, hid, Option.getD_some]
  refine makes_nfaStateModify ⟨⟨heps, ?_, ?_⟩, ?_, ?_⟩
  · intro s t ht
    by_cases hs : s = a
    · subst hs
      rw [NfaContext.edit_state_self ha₁, List.mem_append, List.mem_singleton] at ht
      rcases ht with ht | rfl
      · exact (h.ccls s t (hstate s ▸ ht)).trans_le hpre.length_le
      · exact hidlt
    · rw [NfaContext.edit_state_ne hs, hstate] at ht
      exact (h.ccls s t ht).trans_le hpre.length_le
  · intro s t ht
    rw [NfaContext.edit_length, hlen]
    by_cases hs : s = a
    · subst hs
      rw [NfaContext.edit_state_self ha₁, List.mem_append, List.mem_singleton] at ht
      rcases ht with ht | rfl
      · exact h.succs s t (hstate s ▸ ht)
      · exact hb
    · rw [NfaContext.edit_state_ne hs, hstate] at ht
      exact h.succs s t ht
  · rw [NfaContext.edit_length, hlen]
  · intro s t x i j
    have hold : (∃ trans ∈ (ctx.state s).trans, trans.succ = t ∧
        (ctx₁.ccl trans.ccl).spans x i j) ↔ ctx.steps s t x i j := by
      refine exists_congr fun trans => and_congr_right fun htrans => ?_
      rw [ccl_extends hpre (h.ccls s trans htrans)]
    unfold NfaContext.steps
    by_cases hs : s = a
    · subst hs
      rw [NfaContext.edit_state_self ha₁, hstate]
      simp only [List.mem_append, List.mem_singleton, or_and_right, exists_or, exists_eq_left]
      refine or_congr hold ?_
      change b = t ∧ (ctx₁.ccl id).spans x i j ↔ _
      rw [hccl, epsilon_spans]
      simp [eq_comm]
    · rw [NfaContext.edit_state_ne hs, hstate]
      simp only [hs, false_and, or_false]
      exact hold

end

end Hilti.Justrx
