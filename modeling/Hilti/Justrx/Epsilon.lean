import Hilti.Justrx.Paths
import Hilti.Justrx.Language

/-!
# Following epsilon transitions

The model of `_nfa_state_follow_epsilons` and `nfa_remove_epsilons`.  A state is entered once, with
the assertions of the path that the search takes to it first.  What the search collects comes from
paths of epsilon transitions; it has everything that these lead to if no state is reached again by a
path that lacks an assertion of the first one.
-/

namespace Hilti.Justrx

open Hilti.Lib

set_option autoImplicit false

/-! ## The functions -/

/-- The calls of `_nfa_state_follow_epsilons`: the state and the assertions. -/
abbrev Calls := List (ℕ × Finset Assertion)

/-- What `_nfa_state_follow_epsilons` changes; `calls` are the calls so far. -/
structure Follow where
  ccls : CclGroup
  closure : List ℕ
  ntrans : List NfaTransition
  accepts : List NfaAccept
  calls : Calls

/-- The body of its loop over transitions; `follow` is its call of itself. -/
def followTrans
    (follow : ℕ → Option (List Tag) → Finset Assertion → Follow → Option (Follow × Option (List Tag)))
    (assertions : Finset Assertion) (r : Follow × Option (List Tag)) (trans : NfaTransition) :
    Option (Follow × Option (List Tag)) :=
  let ccl := r.1.ccls.ccls.getD trans.ccl ⟨∅, none⟩
  let tags := tagsJoin r.2 trans.tags
  if ccl.isEpsilon then
    (follow trans.succ tags (assertions ∪ ccl.assertions) r.1).map fun s => (s.1, r.2)
  else
    (r.1.ccls.addAssertions trans.ccl assertions).map fun c =>
      ({ r.1 with ccls := c.1, ntrans := r.1.ntrans ++ [⟨c.2, trans.succ, tags⟩] }, tags)

/-- What a state that is entered contributes; the accepts of the state `self` that is worked on are
left out. -/
def Follow.enter (f : Follow) (self id : ℕ) (state : NfaState) (tags : Option (List Tag))
    (assertions : Finset Assertion) : Follow :=
  { f with
    closure := setInsert (· < ·) id f.closure
    accepts := if id = self then f.accepts else f.accepts ++ state.accepts.map fun acc =>
      ⟨acc.assertions ∪ assertions, acc.aid, tagsJoin (tagsJoin none acc.tags) tags⟩ }

/-- `_nfa_state_follow_epsilons`, with the tags after it. -/
def followEpsilons (states : ℕ → NfaState) (self : ℕ) :
    ℕ → ℕ → Option (List Tag) → Finset Assertion → Follow → Option (Follow × Option (List Tag))
  | 0, _, _, _, _ => none
  | fuel + 1, id, tags, assertions, f =>
    let f := { f with calls := f.calls ++ [(id, assertions)] }
    if id ∈ f.closure then some (f, tags)
    else
      (states id).trans.foldlM (followTrans (followEpsilons states self fuel) assertions)
        (f.enter self id (states id) tags assertions, tags)

/-- What `nfa_remove_epsilons` changes while it works on a state; `logs` has the calls for each
closure so far. -/
structure Removing where
  ccls : CclGroup
  ntrans : List NfaTransition
  accepts : List NfaAccept
  initialTags : Option (List Tag)
  logs : List Calls

/-- The body of its loop over transitions. -/
def removeTrans (ctx : NfaContext) (initial self : ℕ) (s : Removing) (trans : NfaTransition) :
    Option Removing :=
  let ccl := s.ccls.ccls.getD trans.ccl ⟨∅, none⟩
  if ccl.isEpsilon then
    (followEpsilons ctx.state self (ctx.states.length + 1) trans.succ trans.tags ccl.assertions
      ⟨s.ccls, [], s.ntrans, s.accepts, []⟩).map fun r =>
        ⟨r.1.ccls, r.1.ntrans, r.1.accepts,
          if self = initial then tagsJoin s.initialTags r.2 else s.initialTags, s.logs ++ [r.1.calls]⟩
  else some { s with ntrans := s.ntrans ++ [trans] }

/-- The context, with `initial_tags` of the NFA and all logs. -/
structure Removal where
  ctx : NfaContext
  initialTags : Option (List Tag)
  logs : List Calls

/-- The body of its loop over states. -/
def removeState (initial : ℕ) (r : Removal) (self : ℕ) : Option Removal :=
  ((r.ctx.state self).trans.foldlM (removeTrans r.ctx initial self)
    ⟨r.ctx.ccls, [], (r.ctx.state self).accepts, r.initialTags, r.logs⟩).map fun s =>
      ⟨{ r.ctx.edit self (fun _ => ⟨s.accepts, s.ntrans⟩) with ccls := s.ccls }, s.initialTags, s.logs⟩

/-- `nfa_remove_epsilons`. -/
def nfaRemoveEpsilons (nfa : Fragment) (ctx : NfaContext) : Option Removal :=
  (List.range ctx.states.length).foldlM (removeState nfa.initial) ⟨ctx, nfa.initialTags, []⟩

/-! ## Calls -/

def entered (calls : Calls) (id : ℕ) : Option (Finset Assertion) :=
  (calls.find? fun c => c.1 = id).map Prod.snd

/-- Every call for a state that has been entered has at least the assertions of the first one. -/
def NoneLost (calls : Calls) : Prop :=
  ∀ c ∈ calls, ∀ B, entered calls c.1 = some B → B ⊆ c.2

theorem entered_append_of_some {calls more : Calls} {id : ℕ} {B : Finset Assertion}
    (h : entered calls id = some B) : entered (calls ++ more) id = some B := by
  obtain ⟨c, hc, rfl⟩ := Option.map_eq_some_iff.mp h
  rw [entered, List.find?_append, hc]
  rfl

theorem entered_append_of_none {calls more : Calls} {id : ℕ} (h : entered calls id = none) :
    entered (calls ++ more) id = entered more id := by
  rw [entered, List.find?_append, Option.map_eq_none_iff.mp h]
  rfl

theorem entered_isSome {calls : Calls} {id : ℕ} : (entered calls id).isSome = true ↔
    ∃ c ∈ calls, c.1 = id := by
  rw [entered, Option.isSome_map, List.find?_isSome]
  simp only [decide_eq_true_eq]

theorem mem_of_entered {calls : Calls} {id : ℕ} {B : Finset Assertion}
    (h : entered calls id = some B) : (id, B) ∈ calls := by
  obtain ⟨c, hc, rfl⟩ := Option.map_eq_some_iff.mp h
  have hid : c.1 = id := by simpa using List.find?_some hc
  exact hid ▸ List.mem_of_find?_eq_some hc

/-! ## Paths of epsilon transitions -/

/-- A path of epsilon transitions, and all assertions on it. -/
inductive EpsPath (ctx : NfaContext) : ℕ → ℕ → Finset Assertion → Prop where
  | refl (s : ℕ) : EpsPath ctx s s ∅
  | tail {s t : ℕ} {A : Finset Assertion} {trans : NfaTransition} : EpsPath ctx s t A →
      trans ∈ (ctx.state t).trans → (ctx.ccl trans.ccl).isEpsilon = true →
      EpsPath ctx s trans.succ (A ∪ (ctx.ccl trans.ccl).assertions)

def Narrowed (group : CclGroup) (id : ℕ) (ccl : Ccl) (assertions : Finset Assertion) : Prop :=
  ∃ p, group.ccls[id]? = some p ∧ p.ranges = some p.rangeList ∧
    p.assertions = ccl.assertions ∪ assertions ∧ p.chars = ccl.chars

def Grows (group group' : CclGroup) : Prop :=
  group.ccls <+: group'.ccls ∧ group'.stdCcls = group.stdCcls

section

variable {ctx : NfaContext} {group group' group'' : CclGroup}

theorem Grows.refl : Grows group group := ⟨List.prefix_rfl, rfl⟩

theorem Grows.trans (h : Grows group group') (h' : Grows group' group'') : Grows group group'' :=
  ⟨h.1.trans h'.1, h'.2.trans h.2⟩

theorem Grows.getElem? (h : Grows group group') {id : ℕ} {p : Ccl} (hp : group.ccls[id]? = some p) :
    group'.ccls[id]? = some p := by
  obtain ⟨more, hmore⟩ := h.1
  rw [← hmore, List.getElem?_append_left (List.getElem?_eq_some_iff.mp hp).1, hp]

theorem Narrowed.grow {id : ℕ} {ccl : Ccl} {A : Finset Assertion} (h : Narrowed group id ccl A)
    (hg : Grows group group') : Narrowed group' id ccl A := by
  obtain ⟨p, hp, hspec⟩ := h
  exact ⟨p, hg.getElem? hp, hspec⟩

theorem Narrowed.lt {id : ℕ} {ccl : Ccl} {A : Finset Assertion} (h : Narrowed group id ccl A) :
    id < group.ccls.length := by
  obtain ⟨p, hp, -⟩ := h
  exact (List.getElem?_eq_some_iff.mp hp).1

theorem addAssertions_spec {id : ℕ} {ccl : Ccl} (hid : group.ccls[id]? = some ccl)
    (heps : ¬ccl.isEpsilon = true) (A : Finset Assertion) :
    ∃ r, group.addAssertions id A = some r ∧ Grows group r.1 ∧ Narrowed r.1 r.2 ccl A := by
  have hranges : ccl.ranges = some ccl.rangeList := by
    rw [Ccl.isEpsilon, Option.isNone_iff_eq_none] at heps
    obtain ⟨rs, hrs⟩ := Option.ne_none_iff_exists'.mp heps
    rw [Ccl.rangeList, hrs, Option.getD_some]
  refine ⟨_, by rw [CclGroup.addAssertions, hid, Option.map_some], ?_⟩
  set a : Ccl := { ccl with assertions := ccl.assertions ∪ A } with ha
  have haranges : a.ranges = some a.rangeList := hranges
  unfold Narrowed CclGroup.addTo groupAddTo
  cases hfind : groupFind group.ccls a with
  | none => exact ⟨⟨List.prefix_append _ _, rfl⟩, a, List.getElem?_concat_length, haranges, rfl, rfl⟩
  | some k =>
    obtain ⟨hlt, hcmp, -⟩ := List.findIdx?_eq_some_iff_getElem.mp hfind
    have hpranges := compare_ranges_isSome haranges hcmp
    have hchars := compare_chars (A := a.assertions) ⟨rfl, haranges⟩
      ⟨(compare_assertions hcmp).symm, hpranges⟩ hcmp
    exact ⟨Grows.refl, _, List.getElem?_eq_getElem hlt, hpranges, (compare_assertions hcmp).symm,
      hchars.symm⟩

theorem spans_iff {ccl : Ccl} (h : ccl.ranges = some ccl.rangeList) {x : Input} {i j : ℕ} :
    ccl.spans x i j ↔ ccl.assertions ⊆ x.holds i ∧ j = i + 1 ∧
      ∃ cp, x.chars[i]? = some cp ∧ cp ∈ ccl.chars := by
  unfold Ccl.spans
  rw [h]
  simp only [inRanges_iff]
  rfl

end

/-! ## One closure -/

def Collects (ctx : NfaContext) (group : CclGroup) (B : Finset Assertion)
    (trans trans' : NfaTransition) : Prop :=
  trans'.succ = trans.succ ∧ Narrowed group trans'.ccl (ctx.ccl trans.ccl) B

def Gains (B : Finset Assertion) (acc acc' : NfaAccept) : Prop :=
  acc'.aid = acc.aid ∧ acc'.assertions = acc.assertions ∪ B

/-- The search has got further, and has kept what it had. -/
structure FollowMore (f f' : Follow) : Prop where
  grows : Grows f.ccls f'.ccls
  closure : f.closure ⊆ f'.closure
  ntrans : f.ntrans <+: f'.ntrans
  accepts : f.accepts <+: f'.accepts
  calls : f.calls <+: f'.calls

/-- What holds in a search from `u`, begun with the assertions `A₀` and with what `f₀` has: all comes
from paths of epsilon transitions. -/
structure FollowInv (ctx : NfaContext) (u : ℕ) (A₀ : Finset Assertion) (f₀ f : Follow) : Prop where
  grows : Grows ctx.ccls f.ccls
  closure_iff : ∀ id, id ∈ f.closure ↔ (entered f.calls id).isSome = true
  bounded : ∀ c ∈ f.calls, c.1 < ctx.states.length
  calls : ∀ c ∈ f.calls, ∃ A, EpsPath ctx u c.1 A ∧ c.2 = A₀ ∪ A
  ntrans : ∀ trans' ∈ f.ntrans, trans' ∈ f₀.ntrans ∨ ∃ c ∈ f.calls, ∃ trans ∈ (ctx.state c.1).trans,
    ¬(ctx.ccl trans.ccl).isEpsilon = true ∧ Collects ctx f.ccls c.2 trans trans'
  accepts : ∀ acc' ∈ f.accepts, acc' ∈ f₀.accepts ∨ ∃ c ∈ f.calls, ∃ acc ∈ (ctx.state c.1).accepts,
    Gains c.2 acc acc'

/-- The transition of a state entered with `B` has been followed, or collected. -/
def Followed (ctx : NfaContext) (B : Finset Assertion) (trans : NfaTransition) (f : Follow) : Prop :=
  if (ctx.ccl trans.ccl).isEpsilon = true then
    (trans.succ, B ∪ (ctx.ccl trans.ccl).assertions) ∈ f.calls
  else ∃ trans' ∈ f.ntrans, Collects ctx f.ccls B trans trans'

/-- The search has everything of a state that it has entered with `B`. -/
structure Done (ctx : NfaContext) (own : ℕ) (f : Follow) (q : ℕ) (B : Finset Assertion) : Prop where
  trans : ∀ trans ∈ (ctx.state q).trans, Followed ctx B trans f
  accepts : q ≠ own → ∀ acc ∈ (ctx.state q).accepts, ∃ acc' ∈ f.accepts, Gains B acc acc'

def NewDone (ctx : NfaContext) (self : ℕ) (f f' : Follow) : Prop :=
  ∀ q ∈ f'.closure, q ∉ f.closure → ∃ B, entered f'.calls q = some B ∧ Done ctx self f' q B

def unentered (ctx : NfaContext) (f : Follow) : Finset ℕ :=
  (Finset.range ctx.states.length).filter fun s => s ∉ f.closure

section

variable {ctx : NfaContext} {self u : ℕ} {A₀ B : Finset Assertion} {f₀ f f' f'' : Follow}

theorem FollowMore.refl : FollowMore f f :=
  ⟨.refl, List.Subset.refl _, List.prefix_rfl, List.prefix_rfl, List.prefix_rfl⟩

theorem FollowMore.trans (h : FollowMore f f') (h' : FollowMore f' f'') : FollowMore f f'' where
  grows := h.grows.trans h'.grows
  closure := List.Subset.trans h.closure h'.closure
  ntrans := h.ntrans.trans h'.ntrans
  accepts := h.accepts.trans h'.accepts
  calls := h.calls.trans h'.calls

theorem FollowMore.entered (h : FollowMore f f') {q : ℕ} {B : Finset Assertion}
    (hq : entered f.calls q = some B) : Hilti.Justrx.entered f'.calls q = some B := by
  obtain ⟨more, hmore⟩ := h.calls
  rw [← hmore]
  exact entered_append_of_some hq

theorem Followed.mono {trans : NfaTransition} (h : Followed ctx B trans f) (hm : FollowMore f f') :
    Followed ctx B trans f' := by
  unfold Followed at h ⊢
  split
  · rename_i heps
    rw [if_pos heps] at h
    exact hm.calls.subset h
  · rename_i heps
    rw [if_neg heps] at h
    obtain ⟨trans', hmem, hsucc, hccl⟩ := h
    exact ⟨trans', hm.ntrans.subset hmem, hsucc, hccl.grow hm.grows⟩

theorem Done.mono {q : ℕ} (h : Done ctx self f q B) (hm : FollowMore f f') :
    Done ctx self f' q B where
  trans trans htrans := (h.trans trans htrans).mono hm
  accepts hq acc hacc := by
    obtain ⟨acc', hmem, hgains⟩ := h.accepts hq acc hacc
    exact ⟨acc', hm.accepts.subset hmem, hgains⟩

theorem NewDone.refl : NewDone ctx self f f :=
  fun _ hq hn => absurd hq hn

theorem NewDone.trans (h : NewDone ctx self f f') (hm : FollowMore f' f'')
    (h' : NewDone ctx self f' f'') : NewDone ctx self f f'' := by
  intro q hq hn
  by_cases hq' : q ∈ f'.closure
  · obtain ⟨B, hB, hdone⟩ := h q hq' hn
    exact ⟨B, hm.entered hB, hdone.mono hm⟩
  · exact h' q hq hq'

theorem unentered_card_le (h : FollowMore f f') :
    (unentered ctx f').card ≤ (unentered ctx f).card := by
  refine Finset.card_le_card fun s hs => ?_
  obtain ⟨hlt, hn⟩ := Finset.mem_filter.mp hs
  exact Finset.mem_filter.mpr ⟨hlt, fun hmem => hn (h.closure hmem)⟩

theorem FollowInv.ccl_eq (h : FollowInv ctx u A₀ f₀ f) (hw : ctx.WellFormed) {q : ℕ}
    {trans : NfaTransition} (htrans : trans ∈ (ctx.state q).trans) :
    f.ccls.ccls[trans.ccl]? = some (ctx.ccl trans.ccl) := by
  refine h.grows.getElem? ?_
  have hlt := hw.ccls q trans htrans
  rw [NfaContext.ccl, List.getD_eq_getElem?_getD, List.getElem?_eq_getElem hlt, Option.getD_some]

/-! ### Steps of the search -/

def Reached (ctx : NfaContext) (u : ℕ) (A₀ : Finset Assertion) (id : ℕ) (B : Finset Assertion) :
    Prop :=
  id < ctx.states.length ∧ ∃ A, EpsPath ctx u id A ∧ B = A₀ ∪ A

theorem FollowInv.call (h : FollowInv ctx u A₀ f₀ f) {id : ℕ} (hr : Reached ctx u A₀ id B)
    (hid : id ∈ f.closure) :
    FollowInv ctx u A₀ f₀ { f with calls := f.calls ++ [(id, B)] } ∧
      FollowMore f { f with calls := f.calls ++ [(id, B)] } := by
  have hpre : f.calls <+: f.calls ++ [(id, B)] := List.prefix_append _ _
  refine ⟨⟨h.grows, fun q => ?_, fun c hc => ?_, fun c hc => ?_, fun t ht => ?_, fun a ha => ?_⟩,
    .refl, List.Subset.refl _, List.prefix_rfl, List.prefix_rfl, hpre⟩
  · change q ∈ f.closure ↔ (entered (f.calls ++ [(id, B)]) q).isSome = true
    rw [h.closure_iff, entered_isSome, entered_isSome]
    constructor
    · rintro ⟨c, hc, hcq⟩
      exact ⟨c, hpre.subset hc, hcq⟩
    · rintro ⟨c, hc, rfl⟩
      rcases List.mem_append.mp hc with hc | hc
      · exact ⟨c, hc, rfl⟩
      · rw [List.mem_singleton.mp hc]
        exact entered_isSome.mp ((h.closure_iff id).mp hid)
  · rcases List.mem_append.mp hc with hc | hc
    · exact h.bounded c hc
    · rw [List.mem_singleton.mp hc]
      exact hr.1
  · rcases List.mem_append.mp hc with hc | hc
    · exact h.calls c hc
    · rw [List.mem_singleton.mp hc]
      exact hr.2
  · exact (h.ntrans t ht).imp_right fun ⟨c, hc, hspec⟩ => ⟨c, hpre.subset hc, hspec⟩
  · exact (h.accepts a ha).imp_right fun ⟨c, hc, hspec⟩ => ⟨c, hpre.subset hc, hspec⟩

variable (self) in
theorem FollowInv.enter (h : FollowInv ctx u A₀ f₀ f) {id : ℕ} (hr : Reached ctx u A₀ id B)
    (hid : id ∉ f.closure) (tags : Option (List Tag)) :
    let f' := { f with calls := f.calls ++ [(id, B)] }.enter self id (ctx.state id) tags B
    FollowInv ctx u A₀ f₀ f' ∧ FollowMore f f' ∧ entered f'.calls id = some B ∧
      (∀ q, q ∈ f'.closure ↔ q = id ∨ q ∈ f.closure) ∧
      (id ≠ self → ∀ acc ∈ (ctx.state id).accepts, ∃ acc' ∈ f'.accepts, Gains B acc acc') := by
  intro f'
  have hpre : f.calls <+: f'.calls := List.prefix_append _ _
  have hnone : entered f.calls id = none := by
    rw [← Option.not_isSome_iff_eq_none, ← h.closure_iff]
    exact hid
  have hentered : entered f'.calls id = some B := by
    change entered (f.calls ++ [(id, B)]) id = some B
    rw [entered_append_of_none hnone]
    simp [entered]
  have hclosure : ∀ q, q ∈ f'.closure ↔ q = id ∨ q ∈ f.closure := fun q =>
    mem_setInsert (· < ·) id q f.closure
  have haccepts : f.accepts <+: f'.accepts ∧ ∀ acc' ∈ f'.accepts, acc' ∈ f.accepts ∨
      ∃ acc ∈ (ctx.state id).accepts, Gains B acc acc' := by
    change f.accepts <+: ite _ _ _ ∧ ∀ acc' ∈ ite _ _ _, _
    split
    · exact ⟨List.prefix_rfl, fun acc' hacc' => .inl hacc'⟩
    · refine ⟨List.prefix_append _ _, fun acc' hacc' => ?_⟩
      refine (List.mem_append.mp hacc').imp_right fun hnew => ?_
      obtain ⟨acc, hacc, rfl⟩ := List.mem_map.mp hnew
      exact ⟨acc, hacc, rfl, rfl⟩
  refine ⟨⟨h.grows, fun q => ?_, fun c hc => ?_, fun c hc => ?_, fun t ht => ?_, fun a ha => ?_⟩,
    ⟨.refl, fun q hq => (hclosure q).mpr (.inr hq), List.prefix_rfl, haccepts.1, hpre⟩, hentered,
    hclosure, fun hne acc hacc => ?_⟩
  · rw [hclosure, h.closure_iff]
    by_cases hq : q = id
    · rw [hq, hentered]
      simp
    · change _ ↔ (entered (f.calls ++ [(id, B)]) q).isSome = true
      rw [entered_isSome, entered_isSome]
      simp [hq, Ne.symm hq]
  · rcases List.mem_append.mp hc with hc | hc
    · exact h.bounded c hc
    · rw [List.mem_singleton.mp hc]
      exact hr.1
  · rcases List.mem_append.mp hc with hc | hc
    · exact h.calls c hc
    · rw [List.mem_singleton.mp hc]
      exact hr.2
  · exact (h.ntrans t ht).imp_right fun ⟨c, hc, hspec⟩ => ⟨c, hpre.subset hc, hspec⟩
  · rcases haccepts.2 a ha with ha | hnew
    · exact (h.accepts a ha).imp_right fun ⟨c, hc, hspec⟩ => ⟨c, hpre.subset hc, hspec⟩
    · exact .inr ⟨(id, B), mem_of_entered hentered, hnew⟩
  · refine ⟨⟨acc.assertions ∪ B, acc.aid, tagsJoin (tagsJoin none acc.tags) tags⟩, ?_, rfl, rfl⟩
    change _ ∈ ite _ _ _
    rw [if_neg hne]
    exact List.mem_append_right _ (List.mem_map.mpr ⟨acc, hacc, rfl⟩)

theorem FollowInv.collect (h : FollowInv ctx u A₀ f₀ f) (hw : ctx.WellFormed) {q : ℕ}
    (hq : (q, B) ∈ f.calls) {trans : NfaTransition} (htrans : trans ∈ (ctx.state q).trans)
    (heps : ¬(ctx.ccl trans.ccl).isEpsilon = true) (tags : Option (List Tag)) :
    ∃ c, f.ccls.addAssertions trans.ccl B = some c ∧
      let f' := { f with ccls := c.1, ntrans := f.ntrans ++ [⟨c.2, trans.succ, tags⟩] }
      FollowInv ctx u A₀ f₀ f' ∧ FollowMore f f' ∧ Followed ctx B trans f' := by
  obtain ⟨c, hc, hgrows, hnarrowed⟩ := addAssertions_spec (h.ccl_eq hw htrans) heps B
  refine ⟨c, hc, ⟨h.grows.trans hgrows, h.closure_iff, h.bounded, h.calls, fun t ht => ?_, h.accepts⟩,
    ⟨hgrows, List.Subset.refl _, List.prefix_append _ _, List.prefix_rfl, List.prefix_rfl⟩, ?_⟩
  · rcases List.mem_append.mp ht with ht | ht
    · refine (h.ntrans t ht).imp_right fun ⟨c', hc', t', ht', he, hsucc, hccl⟩ => ?_
      exact ⟨c', hc', t', ht', he, hsucc, hccl.grow hgrows⟩
    · rw [List.mem_singleton.mp ht]
      exact .inr ⟨(q, B), hq, trans, htrans, heps, rfl, hnarrowed⟩
  · unfold Followed
    rw [if_neg heps]
    exact ⟨_, List.mem_append_right _ (List.mem_singleton_self _), rfl, hnarrowed⟩

/-! ### The search -/

def FollowSpec (ctx : NfaContext) (u : ℕ) (A₀ : Finset Assertion) (f₀ : Follow) (self fuel : ℕ)
    (follow : ℕ → Option (List Tag) → Finset Assertion → Follow →
      Option (Follow × Option (List Tag))) : Prop :=
  ∀ id tags B f, FollowInv ctx u A₀ f₀ f → Reached ctx u A₀ id B →
    (unentered ctx f).card < fuel → ∃ r, follow id tags B f = some r ∧ FollowInv ctx u A₀ f₀ r.1 ∧
      FollowMore f r.1 ∧ (id, B) ∈ r.1.calls ∧ NewDone ctx self f r.1

variable {follow : ℕ → Option (List Tag) → Finset Assertion → Follow →
  Option (Follow × Option (List Tag))} {fuel q : ℕ}

theorem followTrans_spec (hw : ctx.WellFormed) (hfollow : FollowSpec ctx u A₀ f₀ self fuel follow)
    (h : FollowInv ctx u A₀ f₀ f) (hq : (q, B) ∈ f.calls) {trans : NfaTransition}
    (htrans : trans ∈ (ctx.state q).trans) (hf : (unentered ctx f).card < fuel)
    (tags : Option (List Tag)) : ∃ r, followTrans follow B (f, tags) trans = some r ∧
      FollowInv ctx u A₀ f₀ r.1 ∧ FollowMore f r.1 ∧ Followed ctx B trans r.1 ∧
      NewDone ctx self f r.1 := by
  have hccl : f.ccls.ccls.getD trans.ccl ⟨∅, none⟩ = ctx.ccl trans.ccl := by
    rw [List.getD_eq_getElem?_getD, h.ccl_eq hw htrans, Option.getD_some]
  unfold followTrans
  dsimp only
  rw [hccl]
  by_cases heps : (ctx.ccl trans.ccl).isEpsilon = true
  · rw [if_pos heps]
    obtain ⟨A, hpath, hB⟩ := h.calls _ hq
    have hreached : Reached ctx u A₀ trans.succ (B ∪ (ctx.ccl trans.ccl).assertions) :=
      ⟨hw.succs q trans htrans, _, hpath.tail htrans heps, by
        change B = A₀ ∪ A at hB
        rw [hB, Finset.union_assoc]⟩
    obtain ⟨r, hr, hinv, hmore, hcall, hnew⟩ := hfollow _ (tagsJoin tags trans.tags) _ f h hreached hf
    refine ⟨(r.1, tags), by rw [hr, Option.map_some], hinv, hmore, ?_, hnew⟩
    unfold Followed
    rw [if_pos heps]
    exact hcall
  · rw [if_neg heps]
    obtain ⟨c, hc, hinv, hmore, hfollowed⟩ := h.collect hw hq htrans heps (tagsJoin tags trans.tags)
    refine ⟨_, by rw [hc, Option.map_some], hinv, hmore, hfollowed, fun q' hq' hn => absurd hq' hn⟩

theorem followTranses_spec (hw : ctx.WellFormed) (hfollow : FollowSpec ctx u A₀ f₀ self fuel follow)
    {l : List NfaTransition} (hl : ∀ trans ∈ l, trans ∈ (ctx.state q).trans)
    (h : FollowInv ctx u A₀ f₀ f) (hq : (q, B) ∈ f.calls) (hf : (unentered ctx f).card < fuel)
    (tags : Option (List Tag)) : ∃ r, l.foldlM (followTrans follow B) (f, tags) = some r ∧
      FollowInv ctx u A₀ f₀ r.1 ∧ FollowMore f r.1 ∧ (∀ trans ∈ l, Followed ctx B trans r.1) ∧
      NewDone ctx self f r.1 := by
  induction l generalizing f tags with
  | nil => exact ⟨(f, tags), rfl, h, .refl, fun _ hmem => (nomatch hmem), .refl⟩
  | cons trans l ih =>
    obtain ⟨r, hr, hinv, hmore, hfollowed, hnew⟩ :=
      followTrans_spec hw hfollow h hq (hl trans List.mem_cons_self) hf tags
    obtain ⟨r', hr', hinv', hmore', hall, hnew'⟩ :=
      ih (fun t ht => hl t (List.mem_cons_of_mem trans ht)) hinv (hmore.calls.subset hq)
        ((unentered_card_le hmore).trans_lt hf) r.2
    refine ⟨r', ?_, hinv', hmore.trans hmore', fun t ht => ?_, hnew.trans hmore' hnew'⟩
    · rw [List.foldlM_cons, hr]
      exact hr'
    · rcases List.mem_cons.mp ht with rfl | ht
      · exact hfollowed.mono hmore'
      · exact hall t ht

theorem followEpsilons_spec (hw : ctx.WellFormed) (fuel : ℕ) :
    FollowSpec ctx u A₀ f₀ self fuel (followEpsilons ctx.state self fuel) := by
  induction fuel with
  | zero => exact fun _ _ _ _ _ _ hf => absurd hf (Nat.not_lt_zero _)
  | succ fuel ih =>
    intro id tags B f h hr hf
    unfold followEpsilons
    dsimp only
    by_cases hid : id ∈ f.closure
    · rw [if_pos hid]
      obtain ⟨hinv, hmore⟩ := h.call hr hid
      exact ⟨_, rfl, hinv, hmore, List.mem_append_right _ (List.mem_singleton_self _),
        fun q hq hn => absurd hq hn⟩
    · rw [if_neg hid]
      obtain ⟨hinv, hmore, hentered, hclosure, haccepts⟩ := h.enter self hr hid tags
      set f₁ := { f with calls := f.calls ++ [(id, B)] }.enter self id (ctx.state id) tags B with hf₁
      have hcard : (unentered ctx f₁).card < fuel := by
        refine (Finset.card_lt_card ⟨fun s hs => ?_, fun hsub => ?_⟩).trans_le (Nat.lt_succ_iff.mp hf)
        · obtain ⟨hlt, hn⟩ := Finset.mem_filter.mp hs
          exact Finset.mem_filter.mpr ⟨hlt, fun hmem => hn (hmore.closure hmem)⟩
        · have hmem := hsub (Finset.mem_filter.mpr ⟨Finset.mem_range.mpr hr.1, hid⟩)
          exact (Finset.mem_filter.mp hmem).2 ((hclosure id).mpr (.inl rfl))
      obtain ⟨r, hr', hinv', hmore', hall, hnew⟩ := followTranses_spec hw ih (fun _ ht => ht) hinv
        (mem_of_entered hentered) hcard tags
      refine ⟨r, hr', hinv', hmore.trans hmore', hmore'.calls.subset (mem_of_entered hentered), ?_⟩
      intro q hq hn
      by_cases hqid : q = id
      · subst hqid
        refine ⟨B, hmore'.entered hentered, hall, fun hne acc hacc => ?_⟩
        obtain ⟨acc', hmem, hgains⟩ := haccepts hne acc hacc
        exact ⟨acc', hmore'.accepts.subset hmem, hgains⟩
      · exact hnew q hq fun hmem => ((hclosure q).mp hmem).elim hqid hn

/-- If nothing is lost, then the search has entered every state that is reached by a path of epsilon
transitions, with no assertions that the path does not have. -/
theorem entered_of_epsPath (hinv : FollowInv ctx u A₀ f₀ f) (hstart : (u, A₀) ∈ f.calls)
    (hdone : ∀ q ∈ f.closure, ∃ B, entered f.calls q = some B ∧ Done ctx self f q B)
    (hlost : NoneLost f.calls) {q : ℕ} {A : Finset Assertion} (hpath : EpsPath ctx u q A) :
    ∃ B, B ⊆ A₀ ∪ A ∧ Done ctx self f q B := by
  have henter : ∀ {id : ℕ} {C : Finset Assertion}, (id, C) ∈ f.calls →
      ∃ B, B ⊆ C ∧ Done ctx self f id B := by
    intro id C hmem
    obtain ⟨B, hB, hd⟩ := hdone id ((hinv.closure_iff id).mpr (entered_isSome.mpr ⟨_, hmem, rfl⟩))
    exact ⟨B, hlost _ hmem B hB, hd⟩
  induction hpath with
  | refl =>
    rw [Finset.union_empty]
    exact henter hstart
  | tail _ htrans heps ih =>
    obtain ⟨B, hB, hd⟩ := ih
    have hcall := hd.trans _ htrans
    unfold Followed at hcall
    rw [if_pos heps] at hcall
    obtain ⟨B', hB', hd'⟩ := henter hcall
    refine ⟨B', hB'.trans ?_, hd'⟩
    rw [← Finset.union_assoc]
    exact Finset.union_subset_union_left hB

end

end Hilti.Justrx
