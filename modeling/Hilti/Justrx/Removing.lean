import Hilti.Justrx.Epsilon

/-!
# Removing epsilon transitions

A state offers to accept, or to move on with a character, as far as the states do that it leads to by
epsilon transitions whose assertions hold.  `nfa_remove_epsilons` leaves these offers as they are when
no search for a closure loses assertions, so the NFA accepts the same inputs as before.
-/

namespace Hilti.Justrx

open Hilti.Lib Relation

set_option autoImplicit false

/-! ## Offers -/

inductive Offer where
  | accept (aid : ℕ)
  | move (cp succ : ℕ)

def Gives (group : CclGroup) (state : NfaState) (holds : Finset Assertion) : Offer → Prop
  | .accept aid => ∃ acc ∈ state.accepts, acc.aid = aid ∧ acc.assertions ⊆ holds
  | .move cp succ => ∃ trans ∈ state.trans, trans.succ = succ ∧
    (group.ccls.getD trans.ccl ⟨∅, none⟩).assertions ⊆ holds ∧
      cp ∈ (group.ccls.getD trans.ccl ⟨∅, none⟩).chars

def Passes (ctx : NfaContext) (holds : Finset Assertion) (s t : ℕ) : Prop :=
  ∃ trans ∈ (ctx.state s).trans, trans.succ = t ∧ (ctx.ccl trans.ccl).isEpsilon = true ∧
    (ctx.ccl trans.ccl).assertions ⊆ holds

def Offers (ctx : NfaContext) (holds : Finset Assertion) (s : ℕ) (o : Offer) : Prop :=
  ∃ q, ReflTransGen (Passes ctx holds) s q ∧ Gives ctx.ccls (ctx.state q) holds o

section

variable {ctx ctx' : NfaContext} {group group' : CclGroup} {state : NfaState}
  {holds : Finset Assertion} {o : Offer} {s t : ℕ}

theorem passes_iff_epsPath :
    ReflTransGen (Passes ctx holds) s t ↔ ∃ A, EpsPath ctx s t A ∧ A ⊆ holds := by
  constructor
  · intro h
    induction h with
    | refl => exact ⟨∅, .refl s, Finset.empty_subset _⟩
    | tail _ hpass ih =>
      obtain ⟨A, hpath, hA⟩ := ih
      obtain ⟨trans, htrans, rfl, heps, hclass⟩ := hpass
      exact ⟨_, hpath.tail htrans heps, Finset.union_subset hA hclass⟩
  · intro h
    obtain ⟨A, hpath, hA⟩ := h
    induction hpath with
    | refl => exact .refl
    | tail _ htrans heps ih =>
      obtain ⟨hA, hclass⟩ := Finset.union_subset_iff.mp hA
      exact (ih hA).tail ⟨_, htrans, rfl, heps, hclass⟩

theorem Offers.own (h : Gives ctx.ccls (ctx.state s) holds o) : Offers ctx holds s o :=
  ⟨s, .refl, h⟩

theorem Offers.pass (hpass : Passes ctx holds s t) (h : Offers ctx holds t o) :
    Offers ctx holds s o := by
  obtain ⟨q, hq, hgives⟩ := h
  exact ⟨q, hq.head hpass, hgives⟩

theorem Offers.head (h : Offers ctx holds s o) : Gives ctx.ccls (ctx.state s) holds o ∨
    ∃ t, Passes ctx holds s t ∧ Offers ctx holds t o := by
  obtain ⟨q, hq, hgives⟩ := h
  cases hq.cases_head with
  | inl heq => exact .inl (heq ▸ hgives)
  | inr h =>
    obtain ⟨t, hpass, hrest⟩ := h
    exact .inr ⟨t, hpass, q, hrest, hgives⟩

theorem not_epsilon_of_mem {a : Ccl} {c : ℕ} (h : c ∈ a.chars) : ¬a.isEpsilon = true := by
  rw [Ccl.isEpsilon, Ccl.ranges_eq_of_mem h]
  exact Bool.false_ne_true

theorem Gives.mono {accepts accepts' : List NfaAccept} {trans trans' : List NfaTransition}
    (haccepts : accepts ⊆ accepts') (htrans : trans ⊆ trans')
    (h : Gives group ⟨accepts, trans⟩ holds o) : Gives group ⟨accepts', trans'⟩ holds o := by
  cases o with
  | accept aid =>
    obtain ⟨acc, hacc, hspec⟩ := h
    exact ⟨acc, haccepts hacc, hspec⟩
  | move cp succ =>
    obtain ⟨tr, htr, hspec⟩ := h
    exact ⟨tr, htrans htr, hspec⟩

theorem Grows.getD (h : Grows group group') {id : ℕ} (hid : id < group.ccls.length) :
    group'.ccls.getD id ⟨∅, none⟩ = group.ccls.getD id ⟨∅, none⟩ := by
  obtain ⟨more, hmore⟩ := h.1
  rw [← hmore, List.getD_eq_getElem?_getD, List.getElem?_append_left hid,
    ← List.getD_eq_getElem?_getD]

theorem Grows.gives_iff (h : Grows group group')
    (hstate : ∀ trans ∈ state.trans, trans.ccl < group.ccls.length) :
    Gives group' state holds o ↔ Gives group state holds o := by
  cases o with
  | accept aid => exact .rfl
  | move cp succ =>
    apply exists_congr
    intro trans
    apply and_congr_right
    intro htrans
    rw [h.getD (hstate trans htrans)]

end

/-! ## The transitions of a state -/

/-- What the loop over the transitions of `id` keeps, where those in `pre` have been looked at. -/
structure RemoveInv (ctx : NfaContext) (id : ℕ) (pre : List NfaTransition) (s : Removing) : Prop where
  grows : Grows ctx.ccls s.ccls
  own : (ctx.state id).accepts ⊆ s.accepts
  kept : ∀ trans ∈ pre, ¬(ctx.ccl trans.ccl).isEpsilon = true → trans ∈ s.ntrans
  followed : (∀ calls ∈ s.logs, NoneLost calls) → ∀ holds, ∀ trans ∈ pre,
    (ctx.ccl trans.ccl).isEpsilon = true → (ctx.ccl trans.ccl).assertions ⊆ holds →
      ∀ o, Offers ctx holds trans.succ o → Gives s.ccls ⟨s.accepts, s.ntrans⟩ holds o
  sound : ∀ holds o, Gives s.ccls ⟨s.accepts, s.ntrans⟩ holds o → Offers ctx holds id o
  proper : ∀ trans ∈ s.ntrans, trans.succ < ctx.states.length ∧ trans.ccl < s.ccls.ccls.length ∧
    ¬(s.ccls.ccls.getD trans.ccl ⟨∅, none⟩).isEpsilon = true

section

variable {ctx : NfaContext} {self initial : ℕ} {pre : List NfaTransition} {s : Removing}

theorem Narrowed.getD {group : CclGroup} {id : ℕ} {ccl : Ccl} {A : Finset Assertion}
    (h : Narrowed group id ccl A) :
    (group.ccls.getD id ⟨∅, none⟩).assertions = ccl.assertions ∪ A ∧
      (group.ccls.getD id ⟨∅, none⟩).chars = ccl.chars ∧
      ¬(group.ccls.getD id ⟨∅, none⟩).isEpsilon = true := by
  obtain ⟨p, hp, hranges, hassertions, hchars⟩ := h
  rw [List.getD_eq_getElem?_getD, hp, Option.getD_some]
  refine ⟨hassertions, hchars, ?_⟩
  rw [Ccl.isEpsilon, hranges]
  exact Bool.false_ne_true

theorem Done.gives {f : Follow} {q : ℕ} {B holds : Finset Assertion} {o : Offer}
    (h : Done ctx self f q B) (hB : B ⊆ holds) (hown : (ctx.state self).accepts ⊆ f.accepts)
    (hgives : Gives ctx.ccls (ctx.state q) holds o) :
    Gives f.ccls ⟨f.accepts, f.ntrans⟩ holds o := by
  cases o with
  | accept aid =>
    obtain ⟨acc, hacc, haid, hassert⟩ := hgives
    by_cases hq : q = self
    · exact ⟨acc, hown (hq ▸ hacc), haid, hassert⟩
    · obtain ⟨acc', hacc', haid', hassert'⟩ := h.accepts hq acc hacc
      exact ⟨acc', hacc', haid'.trans haid, hassert' ▸ Finset.union_subset hassert hB⟩
  | move cp succ =>
    obtain ⟨trans, htrans, hsucc, hassert, hcp⟩ := hgives
    have hfollowed := h.trans trans htrans
    have heps : ¬(ctx.ccl trans.ccl).isEpsilon = true := not_epsilon_of_mem hcp
    unfold Followed at hfollowed
    rw [if_neg heps] at hfollowed
    obtain ⟨trans', htrans', hsucc', hnarrowed⟩ := hfollowed
    obtain ⟨hassert', hchars', -⟩ := hnarrowed.getD
    refine ⟨trans', htrans', hsucc'.trans hsucc, ?_, hchars' ▸ hcp⟩
    rw [hassert']
    exact Finset.union_subset hassert hB

theorem FollowInv.offers {u : ℕ} {A₀ : Finset Assertion} {f₀ f : Follow}
    (h : FollowInv ctx u A₀ f₀ f) (hf₀ : Grows f₀.ccls f.ccls)
    (hproper : ∀ trans ∈ f₀.ntrans, trans.ccl < f₀.ccls.ccls.length)
    {holds : Finset Assertion} {o : Offer} (hgives : Gives f.ccls ⟨f.accepts, f.ntrans⟩ holds o) :
    Gives f₀.ccls ⟨f₀.accepts, f₀.ntrans⟩ holds o ∨ A₀ ⊆ holds ∧ Offers ctx holds u o := by
  have hreach : ∀ c ∈ f.calls, c.2 ⊆ holds → Gives ctx.ccls (ctx.state c.1) holds o →
      A₀ ⊆ holds ∧ Offers ctx holds u o := by
    intro c hc hsub hgives
    obtain ⟨A, hpath, hA⟩ := h.calls c hc
    rw [hA] at hsub
    obtain ⟨hA₀, hA⟩ := Finset.union_subset_iff.mp hsub
    exact ⟨hA₀, c.1, passes_iff_epsPath.mpr ⟨A, hpath, hA⟩, hgives⟩
  cases o with
  | accept aid =>
    obtain ⟨acc', hacc', haid, hassert⟩ := hgives
    cases h.accepts acc' hacc' with
    | inl hold => exact .inl ⟨acc', hold, haid, hassert⟩
    | inr hnew =>
      obtain ⟨c, hc, acc, hacc, haid', hassert'⟩ := hnew
      rw [hassert'] at hassert
      obtain ⟨hacc₁, hc₂⟩ := Finset.union_subset_iff.mp hassert
      exact .inr (hreach c hc hc₂ ⟨acc, hacc, haid'.symm.trans haid, hacc₁⟩)
  | move cp succ =>
    obtain ⟨trans', htrans', hsucc, hassert, hcp⟩ := hgives
    cases h.ntrans trans' htrans' with
    | inl hold =>
      rw [hf₀.getD (hproper trans' hold)] at hassert hcp
      exact .inl ⟨trans', hold, hsucc, hassert, hcp⟩
    | inr hnew =>
      obtain ⟨c, hc, trans, htrans, -, hsucc', hnarrowed⟩ := hnew
      obtain ⟨hassert', hchars', -⟩ := hnarrowed.getD
      rw [hassert'] at hassert
      obtain ⟨hclass, hc₂⟩ := Finset.union_subset_iff.mp hassert
      exact .inr (hreach c hc hc₂ ⟨trans, htrans, hsucc'.symm.trans hsucc, hclass, hchars' ▸ hcp⟩)

theorem RemoveInv.start (self : ℕ) (initialTags : Option (List Tag)) (logs : List Calls) :
    RemoveInv ctx self [] ⟨ctx.ccls, [], (ctx.state self).accepts, initialTags, logs⟩ where
  grows := .refl
  own := List.Subset.refl _
  kept _ h := nomatch h
  followed _ _ _ h := nomatch h
  sound holds o h := by
    apply Offers.own
    cases o with
    | accept aid => exact h
    | move cp succ =>
      obtain ⟨trans, htrans, -⟩ := h
      cases htrans
  proper _ h := nomatch h

theorem RemoveInv.mono (h : RemoveInv ctx self pre s) {s' : Removing} (hg : Grows s.ccls s'.ccls)
    (haccepts : s.accepts ⊆ s'.accepts) (hntrans : s.ntrans ⊆ s'.ntrans) {holds : Finset Assertion}
    {o : Offer} (hgives : Gives s.ccls ⟨s.accepts, s.ntrans⟩ holds o) :
    Gives s'.ccls ⟨s'.accepts, s'.ntrans⟩ holds o :=
  ((hg.gives_iff fun trans htrans => (h.proper trans htrans).2.1).mpr hgives).mono haccepts hntrans

theorem RemoveInv.keep (hw : ctx.WellFormed) (h : RemoveInv ctx self pre s) {trans : NfaTransition}
    (htrans : trans ∈ (ctx.state self).trans) (heps : ¬(ctx.ccl trans.ccl).isEpsilon = true) :
    RemoveInv ctx self (pre ++ [trans]) { s with ntrans := s.ntrans ++ [trans] } := by
  have hclass : s.ccls.ccls.getD trans.ccl ⟨∅, none⟩ = ctx.ccl trans.ccl :=
    h.grows.getD (hw.ccls self trans htrans)
  refine ⟨h.grows, h.own, fun t ht hne => ?_, fun hlost holds t ht hpass hsub o ho => ?_,
    fun holds o ho => ?_, fun t ht => ?_⟩
  · cases List.mem_append.mp ht with
    | inl ht => exact List.mem_append_left _ (h.kept t ht hne)
    | inr ht => exact List.mem_append_right _ ht
  · cases List.mem_append.mp ht with
    | inl ht =>
      exact (h.followed hlost holds t ht hpass hsub o ho).mono (List.Subset.refl _)
        (List.subset_append_left _ _)
    | inr ht => exact absurd (List.mem_singleton.mp ht ▸ hpass) heps
  · cases o with
    | accept aid => exact h.sound holds _ ho
    | move cp succ =>
      obtain ⟨t, ht, hspec⟩ := ho
      cases List.mem_append.mp ht with
      | inl ht => exact h.sound holds _ ⟨t, ht, hspec⟩
      | inr ht =>
        rw [List.mem_singleton.mp ht, hclass] at hspec
        exact Offers.own ⟨trans, htrans, hspec⟩
  · cases List.mem_append.mp ht with
    | inl ht => exact h.proper t ht
    | inr ht =>
      rw [List.mem_singleton.mp ht, hclass]
      exact ⟨hw.succs self trans htrans,
        (hw.ccls self trans htrans).trans_le h.grows.1.length_le, heps⟩

theorem RemoveInv.follow (hw : ctx.WellFormed) (h : RemoveInv ctx self pre s)
    {trans : NfaTransition} (htrans : trans ∈ (ctx.state self).trans)
    (heps : (ctx.ccl trans.ccl).isEpsilon = true) (initialTags : Option (List Tag)) {f : Follow}
    (hinv : FollowInv ctx trans.succ (ctx.ccl trans.ccl).assertions
      ⟨s.ccls, [], s.ntrans, s.accepts, []⟩ f)
    (hmore : FollowMore ⟨s.ccls, [], s.ntrans, s.accepts, []⟩ f)
    (hcall : (trans.succ, (ctx.ccl trans.ccl).assertions) ∈ f.calls)
    (hdone : NewDone ctx self ⟨s.ccls, [], s.ntrans, s.accepts, []⟩ f) :
    RemoveInv ctx self (pre ++ [trans])
      ⟨f.ccls, f.ntrans, f.accepts, initialTags, s.logs ++ [f.calls]⟩ := by
  have hown := List.Subset.trans h.own hmore.accepts.subset
  refine ⟨hinv.grows, hown, fun t ht hne => ?_, fun hlost holds t ht hpass hsub o ho => ?_,
    fun holds o ho => ?_, fun t ht => ?_⟩
  · cases List.mem_append.mp ht with
    | inl ht => exact hmore.ntrans.subset (h.kept t ht hne)
    | inr ht => exact absurd heps (List.mem_singleton.mp ht ▸ hne)
  · cases List.mem_append.mp ht with
    | inl ht =>
      have hold := h.followed (fun calls hc => hlost calls (List.mem_append_left _ hc)) holds t ht
        hpass hsub o ho
      exact h.mono hmore.grows hmore.accepts.subset hmore.ntrans.subset hold
    | inr ht =>
      rw [List.mem_singleton.mp ht] at hsub ho
      obtain ⟨q, hq, hgives⟩ := ho
      obtain ⟨A, hpath, hA⟩ := passes_iff_epsPath.mp hq
      obtain ⟨B, hB, hd⟩ := entered_of_epsPath hinv hcall (fun q hq => hdone q hq List.not_mem_nil)
        (hlost f.calls (List.mem_append_right _ (List.mem_singleton_self _))) hpath
      exact hd.gives (hB.trans (Finset.union_subset hsub hA)) hown hgives
  · cases hinv.offers hmore.grows (fun t ht => (h.proper t ht).2.1) ho with
    | inl hold => exact h.sound holds o hold
    | inr hnew => exact hnew.2.pass ⟨trans, htrans, rfl, heps, hnew.1⟩
  · cases hinv.ntrans t ht with
    | inl hold =>
      obtain ⟨hsucc, hlt, hne⟩ := h.proper t hold
      exact ⟨hsucc, hlt.trans_le hmore.grows.1.length_le, (hmore.grows.getD hlt).symm ▸ hne⟩
    | inr hnew =>
      obtain ⟨c, -, t', ht', -, hsucc, hnarrowed⟩ := hnew
      exact ⟨hsucc ▸ hw.succs c.1 t' ht', hnarrowed.lt, hnarrowed.getD.2.2⟩

variable (initial) in
theorem removeTrans_spec (hw : ctx.WellFormed) (h : RemoveInv ctx self pre s)
    {trans : NfaTransition} (htrans : trans ∈ (ctx.state self).trans) :
    ∃ s', removeTrans ctx initial self s trans = some s' ∧ s.logs <+: s'.logs ∧
      RemoveInv ctx self (pre ++ [trans]) s' := by
  have hclass : s.ccls.ccls.getD trans.ccl ⟨∅, none⟩ = ctx.ccl trans.ccl :=
    h.grows.getD (hw.ccls self trans htrans)
  unfold removeTrans
  dsimp only
  rw [hclass]
  by_cases heps : (ctx.ccl trans.ccl).isEpsilon = true
  · rw [if_pos heps]
    set f₀ : Follow := ⟨s.ccls, [], s.ntrans, s.accepts, []⟩ with hf₀
    have hstart : FollowInv ctx trans.succ (ctx.ccl trans.ccl).assertions f₀ f₀ :=
      ⟨h.grows, fun _ => iff_of_false List.not_mem_nil Bool.false_ne_true, fun _ hc => (nomatch hc),
        fun _ hc => (nomatch hc), fun _ ht => .inl ht, fun _ ha => .inl ha⟩
    have hreached : Reached ctx trans.succ (ctx.ccl trans.ccl).assertions trans.succ
        (ctx.ccl trans.ccl).assertions :=
      ⟨hw.succs self trans htrans, ∅, .refl _, (Finset.union_empty _).symm⟩
    have hfuel : (unentered ctx f₀).card < ctx.states.length + 1 := by
      refine Nat.lt_succ_of_le ((Finset.card_filter_le _ _).trans ?_)
      rw [Finset.card_range]
    obtain ⟨r, hr, hinv, hmore, hcall, hdone⟩ := followEpsilons_spec hw
      (ctx.states.length + 1) trans.succ trans.tags _ f₀ hstart hreached hfuel
    rw [hr, Option.map_some]
    exact ⟨_, rfl, List.prefix_append _ _, h.follow hw htrans heps _ hinv hmore hcall hdone⟩
  · rw [if_neg heps]
    exact ⟨_, rfl, List.prefix_rfl, h.keep hw htrans heps⟩

variable (initial) in
theorem removeTranses_spec (hw : ctx.WellFormed) {l : List NfaTransition} : ∀ {pre s},
    RemoveInv ctx self pre s → (∀ trans ∈ l, trans ∈ (ctx.state self).trans) →
    ∃ s', l.foldlM (removeTrans ctx initial self) s = some s' ∧ s.logs <+: s'.logs ∧
      RemoveInv ctx self (pre ++ l) s' := by
  induction l with
  | nil =>
    intro pre s h _
    rw [List.append_nil]
    exact ⟨s, rfl, List.prefix_rfl, h⟩
  | cons trans l ih =>
    intro pre s h hl
    obtain ⟨s₁, hs₁, hlogs, h₁⟩ := removeTrans_spec initial hw h (hl trans List.mem_cons_self)
    obtain ⟨s', hs', hlogs', h'⟩ := ih h₁ fun t ht => hl t (List.mem_cons_of_mem trans ht)
    rw [List.append_assoc, List.singleton_append] at h'
    refine ⟨s', ?_, hlogs.trans hlogs', h'⟩
    rw [List.foldlM_cons, hs₁]
    exact hs'

end

/-! ## All states -/

/-- The state has no epsilon transitions any more, and none else has changed. -/
structure Stripped (id : ℕ) (ctx ctx' : NfaContext) : Prop where
  wellFormed : ctx'.WellFormed
  length_eq : ctx'.states.length = ctx.states.length
  grows : Grows ctx.ccls ctx'.ccls
  others : ∀ s, s ≠ id → ctx'.state s = ctx.state s
  none : ∀ trans ∈ (ctx'.state id).trans, ¬(ctx'.ccl trans.ccl).isEpsilon = true

section

variable {ctx ctx' : NfaContext} {self : ℕ} {holds : Finset Assertion} {o : Offer} {s t : ℕ}

theorem Stripped.passes (h : Stripped self ctx ctx') (hw : ctx.WellFormed) :
    Passes ctx' holds s t ↔ s ≠ self ∧ Passes ctx holds s t := by
  constructor
  · intro hpass
    obtain ⟨trans, htrans, hsucc, heps, hsub⟩ := hpass
    have hs : s ≠ self := by
      intro heq
      subst heq
      exact h.none trans htrans heps
    rw [h.others s hs] at htrans
    have hclass : ctx'.ccl trans.ccl = ctx.ccl trans.ccl := h.grows.getD (hw.ccls s trans htrans)
    rw [hclass] at heps hsub
    exact ⟨hs, trans, htrans, hsucc, heps, hsub⟩
  · intro hpass
    obtain ⟨hs, trans, htrans, hsucc, heps, hsub⟩ := hpass
    have hclass : ctx'.ccl trans.ccl = ctx.ccl trans.ccl := h.grows.getD (hw.ccls s trans htrans)
    rw [← h.others s hs] at htrans
    rw [← hclass] at heps hsub
    exact ⟨trans, htrans, hsucc, heps, hsub⟩

theorem Stripped.gives (h : Stripped self ctx ctx') (hw : ctx.WellFormed) (hs : s ≠ self) :
    Gives ctx'.ccls (ctx'.state s) holds o ↔ Gives ctx.ccls (ctx.state s) holds o := by
  rw [h.others s hs]
  exact h.grows.gives_iff (hw.ccls s)

theorem Stripped.offers (h : Stripped self ctx ctx') (hw : ctx.WellFormed)
    (hself : Gives ctx'.ccls (ctx'.state self) holds o ↔ Offers ctx holds self o) :
    Offers ctx' holds s o ↔ Offers ctx holds s o := by
  constructor
  · intro ho
    obtain ⟨q, hq, hgives⟩ := ho
    have hold : ReflTransGen (Passes ctx holds) s q :=
      hq.lift id fun a b hab => ((h.passes hw).mp hab).2
    by_cases heq : q = self
    · subst heq
      obtain ⟨q', hq', hgives'⟩ := hself.mp hgives
      exact ⟨q', hold.trans hq', hgives'⟩
    · exact ⟨q, hold, (h.gives hw heq).mp hgives⟩
  · intro ho
    obtain ⟨q, hq, hgives⟩ := ho
    -- by induction on the path, which has been cut short where it enters the state
    induction hq using ReflTransGen.head_induction_on with
    | refl =>
      by_cases heq : q = self
      · subst heq
        exact Offers.own (hself.mpr (Offers.own hgives))
      · exact Offers.own ((h.gives hw heq).mpr hgives)
    | head hpass hrest ih =>
      rename_i a b
      by_cases heq : a = self
      · subst heq
        exact Offers.own (hself.mpr ⟨q, hrest.head hpass, hgives⟩)
      · exact ih.pass ((h.passes hw).mpr ⟨heq, hpass⟩)

end

section

variable {r : Removal} {initial self : ℕ}

theorem RemoveInv.gives_iff {ctx : NfaContext} {s : Removing}
    (h : RemoveInv ctx self (ctx.state self).trans s) (hw : ctx.WellFormed)
    (hlost : ∀ calls ∈ s.logs, NoneLost calls) {holds : Finset Assertion} {o : Offer} :
    Gives s.ccls ⟨s.accepts, s.ntrans⟩ holds o ↔ Offers ctx holds self o := by
  refine ⟨h.sound holds o, fun ho => ?_⟩
  cases ho.head with
  | inl hown =>
    cases o with
    | accept aid =>
      obtain ⟨acc, hacc, hspec⟩ := hown
      exact ⟨acc, h.own hacc, hspec⟩
    | move cp succ =>
      obtain ⟨trans, htrans, hsucc, hspec⟩ := hown
      have heps : ¬(ctx.ccl trans.ccl).isEpsilon = true := not_epsilon_of_mem hspec.2
      refine ⟨trans, h.kept trans htrans heps, hsucc, ?_⟩
      rw [h.grows.getD (hw.ccls self trans htrans)]
      exact hspec
  | inr hpass =>
    obtain ⟨t, ⟨trans, htrans, rfl, heps, hsub⟩, hrest⟩ := hpass
    exact h.followed hlost holds trans htrans heps hsub o hrest

variable (initial) in
/-- The step lemma. -/
theorem removeState_spec (hw : r.ctx.WellFormed) (hself : self < r.ctx.states.length) :
    ∃ r', removeState initial r self = some r' ∧ r.logs <+: r'.logs ∧
      Stripped self r.ctx r'.ctx ∧ ((∀ calls ∈ r'.logs, NoneLost calls) →
        ∀ holds s o, Offers r'.ctx holds s o ↔ Offers r.ctx holds s o) := by
  obtain ⟨s, hs, hlogs, hinv⟩ := removeTranses_spec initial hw
    (RemoveInv.start self r.initialTags r.logs) fun _ ht => ht
  rw [List.nil_append] at hinv
  set ctx' : NfaContext := { r.ctx.edit self (fun _ => ⟨s.accepts, s.ntrans⟩) with ccls := s.ccls }
    with hctx'
  have hstate : ctx'.state self = ⟨s.accepts, s.ntrans⟩ :=
    NfaContext.edit_state_self hself fun _ => ⟨s.accepts, s.ntrans⟩
  have hothers : ∀ q, q ≠ self → ctx'.state q = r.ctx.state q := fun q hq =>
    NfaContext.edit_state_ne hq fun _ => ⟨s.accepts, s.ntrans⟩
  have hlen : ctx'.states.length = r.ctx.states.length := NfaContext.edit_length self _
  have hstripped : Stripped self r.ctx ctx' := by
    refine ⟨⟨fun id hid => ?_, fun q trans ht => ?_, fun q trans ht => ?_⟩, hlen, hinv.grows,
      hothers, fun trans ht => ?_⟩
    · have hid' : r.ctx.ccls.stdCcls .epsilon = some id := hinv.grows.2 ▸ hid
      exact hinv.grows.getElem? (hw.epsilon id hid')
    · by_cases hq : q = self
      · rw [hq, hstate] at ht
        exact (hinv.proper trans ht).2.1
      · rw [hothers q hq] at ht
        exact (hw.ccls q trans ht).trans_le hinv.grows.1.length_le
    · rw [hlen]
      by_cases hq : q = self
      · rw [hq, hstate] at ht
        exact (hinv.proper trans ht).1
      · rw [hothers q hq] at ht
        exact hw.succs q trans ht
    · rw [hstate] at ht
      exact (hinv.proper trans ht).2.2
  refine ⟨⟨ctx', s.initialTags, s.logs⟩, ?_, hlogs, hstripped, fun hlost holds q o => ?_⟩
  · rw [removeState, hs]
    rfl
  · apply hstripped.offers hw
    rw [hstate]
    exact hinv.gives_iff hw hlost

/-- What holds after the removal from the states in `done`. -/
structure Removed (ctx : NfaContext) (done : List ℕ) (r : Removal) : Prop where
  wellFormed : r.ctx.WellFormed
  length_eq : r.ctx.states.length = ctx.states.length
  none : ∀ s ∈ done, ∀ trans ∈ (r.ctx.state s).trans, ¬(r.ctx.ccl trans.ccl).isEpsilon = true
  offers : (∀ calls ∈ r.logs, NoneLost calls) →
    ∀ holds s o, Offers r.ctx holds s o ↔ Offers ctx holds s o

variable (initial) in
/-- The run lemma. -/
theorem removeStates_spec {ctx : NfaContext} {l : List ℕ} : ∀ {done : List ℕ} {r : Removal},
    Removed ctx done r → (∀ s ∈ l, s < ctx.states.length) →
    ∃ r', l.foldlM (removeState initial) r = some r' ∧ Removed ctx (done ++ l) r' := by
  induction l with
  | nil =>
    intro done r h _
    rw [List.append_nil]
    exact ⟨r, rfl, h⟩
  | cons self l ih =>
    intro done r h hl
    obtain ⟨r₁, hr₁, hlogs, hstripped, hoffers⟩ := removeState_spec initial h.wellFormed
      (h.length_eq ▸ hl self List.mem_cons_self)
    have h₁ : Removed ctx (done ++ [self]) r₁ := by
      refine ⟨hstripped.wellFormed, hstripped.length_eq.trans h.length_eq, fun s hs trans ht => ?_,
        fun hlost holds s o => ?_⟩
      · by_cases heq : s = self
        · exact hstripped.none trans (heq ▸ ht)
        · rw [hstripped.others s heq] at ht
          have hclass : r₁.ctx.ccl trans.ccl = r.ctx.ccl trans.ccl :=
            hstripped.grows.getD (h.wellFormed.ccls s trans ht)
          rw [hclass]
          cases List.mem_append.mp hs with
          | inl hs => exact h.none s hs trans ht
          | inr hs => exact absurd (List.mem_singleton.mp hs) heq
      · rw [hoffers hlost]
        exact h.offers (fun calls hc => hlost calls (hlogs.subset hc)) holds s o
    obtain ⟨r', hr', h'⟩ := ih h₁ fun s hs => hl s (List.mem_cons_of_mem self hs)
    rw [List.append_assoc, List.singleton_append] at h'
    refine ⟨r', ?_, h'⟩
    rw [List.foldlM_cons, hr₁]
    exact hr'

theorem nfaRemoveEpsilons_spec {ctx : NfaContext} (hw : ctx.WellFormed) (nfa : Fragment) :
    ∃ r, nfaRemoveEpsilons nfa ctx = some r ∧ Removed ctx (List.range ctx.states.length) r := by
  have hstart : Removed ctx [] ⟨ctx, nfa.initialTags, []⟩ :=
    ⟨hw, rfl, fun _ hs => (nomatch hs), fun _ _ _ _ => .rfl⟩
  exact removeStates_spec nfa.initial hstart fun _ hs => List.mem_range.mp hs

end

/-! ## Inputs -/

def Recognizes (ctx : NfaContext) (aid : ℕ) (holds : ℕ → Finset Assertion) : ℕ → List ℕ → ℕ → Prop
  | i, [], s => Offers ctx (holds i) s (.accept aid)
  | i, cp :: word, s =>
    ∃ t, Offers ctx (holds i) s (.move cp t) ∧ Recognizes ctx aid holds (i + 1) word t

def NfaContext.Accepts (ctx : NfaContext) (initial aid : ℕ) (x : Input) : Prop :=
  ∃ t, path ctx.steps initial t x 0 x.chars.length ∧
    ∃ acc ∈ (ctx.state t).accepts, acc.aid = aid ∧ acc.assertions ⊆ x.holds x.chars.length

section

variable {ctx ctx' : NfaContext} {aid : ℕ} {holds : ℕ → Finset Assertion} {x : Input}

theorem recognizes_congr (h : ∀ holds s o, Offers ctx' holds s o ↔ Offers ctx holds s o)
    (word : List ℕ) : ∀ i s, Recognizes ctx' aid holds i word s ↔ Recognizes ctx aid holds i word s := by
  induction word with
  | nil => exact fun i s => h _ s _
  | cons cp word ih =>
    intro i s
    apply exists_congr
    intro t
    exact and_congr (h _ s _) (ih (i + 1) t)

theorem Recognizes.pass {i s t : ℕ} {word : List ℕ} (hpass : Passes ctx (holds i) s t)
    (h : Recognizes ctx aid holds i word t) : Recognizes ctx aid holds i word s := by
  cases word with
  | nil => exact Offers.pass hpass h
  | cons cp word =>
    obtain ⟨u, hoffer, hrest⟩ := h
    exact ⟨u, hoffer.pass hpass, hrest⟩

theorem steps_iff_gives {s t i j : ℕ} : ctx.steps s t x i j ↔ (i = j ∧ Passes ctx (x.holds i) s t) ∨
    j = i + 1 ∧ ∃ cp, x.chars[i]? = some cp ∧
      Gives ctx.ccls (ctx.state s) (x.holds i) (.move cp t) := by
  constructor
  · intro h
    obtain ⟨trans, htrans, hsucc, hsub, hmatch⟩ := h
    cases hranges : (ctx.ccl trans.ccl).ranges with
    | none =>
      rw [hranges] at hmatch
      refine .inl ⟨hmatch, trans, htrans, hsucc, ?_, hsub⟩
      rw [Ccl.isEpsilon, hranges]
      rfl
    | some rs =>
      rw [hranges] at hmatch
      obtain ⟨hj, cp, hcp, hin⟩ := hmatch
      refine .inr ⟨hj, cp, hcp, trans, htrans, hsucc, hsub, ?_⟩
      change cp ∈ (ctx.ccl trans.ccl).chars
      rw [Ccl.chars, Ccl.rangeList, hranges]
      exact inRanges_iff.mp hin
  · intro h
    cases h with
    | inl h =>
      obtain ⟨rfl, trans, htrans, hsucc, heps, hsub⟩ := h
      refine ⟨trans, htrans, hsucc, hsub, ?_⟩
      rw [Option.isNone_iff_eq_none.mp heps]
    | inr h =>
      obtain ⟨hj, cp, hcp, trans, htrans, hsucc, hsub, hmem⟩ := h
      exact ⟨trans, htrans, hsucc, (spans_iff (Ccl.ranges_eq_of_mem hmem)).mpr ⟨hsub, hj, cp, hcp, hmem⟩⟩

theorem path_of_passes {s t : ℕ} (i : ℕ) (h : ReflTransGen (Passes ctx (x.holds i)) s t) :
    path ctx.steps s t x i i := by
  induction h with
  | refl => exact path_refl _ x i
  | tail _ hpass ih => exact path_trans ih (path_single (steps_iff_gives.mpr (.inl ⟨rfl, hpass⟩)))

theorem exists_path_of_recognizes (word : List ℕ) : ∀ i s, i ≤ x.chars.length →
    x.chars.drop i = word → Recognizes ctx aid x.holds i word s →
    ∃ t, path ctx.steps s t x i x.chars.length ∧
      ∃ acc ∈ (ctx.state t).accepts, acc.aid = aid ∧ acc.assertions ⊆ x.holds x.chars.length := by
  induction word with
  | nil =>
    intro i s hi hdrop h
    have heq : i = x.chars.length := Nat.le_antisymm hi (List.drop_eq_nil_iff.mp hdrop)
    rw [← heq]
    obtain ⟨q, hq, hgives⟩ := h
    exact ⟨q, path_of_passes i hq, hgives⟩
  | cons cp word ih =>
    intro i s hi hdrop h
    obtain ⟨u, ⟨q, hq, hgives⟩, hrest⟩ := h
    have hlt : i < x.chars.length := by
      by_contra hle
      rw [List.drop_eq_nil_of_le (Nat.not_lt.mp hle)] at hdrop
      cases hdrop
    rw [List.drop_eq_getElem_cons hlt] at hdrop
    obtain ⟨hcp, hword⟩ := List.cons.inj hdrop
    obtain ⟨t, hpath, hacc⟩ := ih (i + 1) u hlt hword hrest
    refine ⟨t, path_trans (path_of_passes i hq) (path_trans (path_single ?_) hpath), hacc⟩
    exact steps_iff_gives.mpr (.inr ⟨rfl, cp, hcp ▸ List.getElem?_eq_getElem hlt, hgives⟩)

theorem accepts_iff_recognizes (ctx : NfaContext) (initial aid : ℕ) (x : Input) :
    ctx.Accepts initial aid x ↔ Recognizes ctx aid x.holds 0 x.chars initial := by
  constructor
  · intro h
    obtain ⟨t, hpath, hacc⟩ := h
    have hend : Recognizes ctx aid x.holds x.chars.length (x.chars.drop x.chars.length) t := by
      rw [List.drop_length]
      exact Offers.own hacc
    refine path_head_induction (P := fun s i => Recognizes ctx aid x.holds i (x.chars.drop i) s) hend
      (fun s u i k hstep _ ih => ?_) hpath
    cases steps_iff_gives.mp hstep with
    | inl hpass =>
      obtain ⟨rfl, hpass⟩ := hpass
      exact ih.pass hpass
    | inr hmove =>
      obtain ⟨rfl, cp, hcp, hgives⟩ := hmove
      obtain ⟨hlt, hget⟩ := List.getElem?_eq_some_iff.mp hcp
      rw [List.drop_eq_getElem_cons hlt, hget]
      exact ⟨u, Offers.own hgives, ih⟩
  · exact exists_path_of_recognizes x.chars 0 initial (Nat.zero_le _) rfl

theorem Removed.accepts_iff {done : List ℕ} {r : Removal} (h : Removed ctx done r)
    (hlost : ∀ calls ∈ r.logs, NoneLost calls) (initial aid : ℕ) (x : Input) :
    r.ctx.Accepts initial aid x ↔ ctx.Accepts initial aid x := by
  rw [accepts_iff_recognizes, accepts_iff_recognizes]
  exact recognizes_congr (h.offers hlost) x.chars 0 initial

end

end Hilti.Justrx
