import Mathlib.Data.List.Forall2
import Hilti.Justrx.Paths

/-!
# Copies of NFAs

A deep copy visits the states of a fragment depth-first, each once.  The states of the copy are new,
and their transitions lead to each other as those of the original do, so the copy matches the same.
-/

namespace Hilti.Justrx

open Hilti.Lib

set_option autoImplicit false

/-! ## Fragments in a context -/

/-- The fragment matches `L`, by states of a region that no transition leaves. -/
structure Denotes (ctx : NfaContext) (R : Set ℕ) (nfa : Fragment) (L : Spans Input) : Prop where
  closed : Closed ctx.steps R
  bounded : ∀ s ∈ R, s < ctx.states.length
  initial_mem : nfa.initial ∈ R
  final_mem : nfa.final ∈ R
  language_eq : ctx.language nfa = L

/-- The second context has the states of the first, with the same transitions except at `F`. -/
structure Widens (F : Set ℕ) (ctx ctx' : NfaContext) : Prop where
  length_le : ctx.states.length ≤ ctx'.states.length
  steps_iff : ∀ s < ctx.states.length, s ∉ F → ∀ t x i j,
    ctx'.steps s t x i j ↔ ctx.steps s t x i j

section

variable {ctx ctx' ctx'' : NfaContext}

theorem Widens.mono {F F' : Set ℕ} (h : Widens F ctx ctx') (hF : F ⊆ F') : Widens F' ctx ctx' where
  length_le := h.length_le
  steps_iff s hs hs' := h.steps_iff s hs fun hmem => hs' (hF hmem)

theorem Widens.grow : Widens ∅ ctx ctx.grow where
  length_le := by
    rw [NfaContext.grow_length]
    exact Nat.le_succ _
  steps_iff s _ _ t x i j := by rw [NfaContext.grow_steps]

theorem Linked.widens {a b : ℕ} (h : Linked a b ctx ctx') : Widens {a} ctx ctx' where
  length_le := h.length_eq.ge
  steps_iff s _ hs t x i j := by
    rw [h.steps_iff]
    exact or_iff_left fun heq => hs heq.1

theorem Denotes.extend {F R : Set ℕ} {nfa : Fragment} {L : Spans Input} (h : Denotes ctx R nfa L)
    (hx : Widens F ctx ctx') (hdisj : Disjoint F R) : Denotes ctx' R nfa L where
  closed s hs t x i j hst :=
    h.closed s hs t x i j ((hx.steps_iff s (h.bounded s hs)
      (Set.disjoint_right.mp hdisj hs) t x i j).mp hst)
  bounded s hs := (h.bounded s hs).trans_le hx.length_le
  initial_mem := h.initial_mem
  final_mem := h.final_mem
  language_eq := by
    rw [← h.language_eq]
    exact path_congr h.closed (fun s hs => hx.steps_iff s (h.bounded s hs)
      (Set.disjoint_right.mp hdisj hs)) h.initial_mem _

theorem Denotes.disjoint {R R' : Set ℕ} {nfa : Fragment} {L : Spans Input} (h : Denotes ctx R nfa L)
    (hnew : ∀ s ∈ R', ctx.states.length ≤ s) : Disjoint R R' :=
  Set.disjoint_left.mpr fun s hs hs' => absurd (h.bounded s hs) (hnew s hs').not_gt

end

/-! ## Copying -/

def CopiedTrans (copies : ℕ → Option ℕ) (trans trans' : NfaTransition) : Prop :=
  trans'.ccl = trans.ccl ∧ copies trans.succ = some trans'.succ

/-- What holds while the states of the first context are copied: old states are as they were, copies
are new, and apart from those still worked on they have the transitions of the original. -/
structure Copying (ctx₀ ctx : NfaContext) (copies : ℕ → Option ℕ) (pending : Finset ℕ) : Prop where
  ccls_eq : ctx.ccls = ctx₀.ccls
  length_le : ctx₀.states.length ≤ ctx.states.length
  old : ∀ s < ctx₀.states.length, ctx.state s = ctx₀.state s
  inj : ∀ s s' c, copies s = some c → copies s' = some c → s = s'
  range : ∀ s c, copies s = some c →
    s < ctx₀.states.length ∧ ctx₀.states.length ≤ c ∧ c < ctx.states.length
  new : ∀ c, ctx₀.states.length ≤ c → c < ctx.states.length → ∃ s, copies s = some c
  done : ∀ s c, copies s = some c → s ∉ pending →
    List.Forall₂ (CopiedTrans copies) (ctx₀.state s).trans (ctx.state c).trans

/-- There are more copies, and the states are as before. -/
structure CopiedMore (ctx : NfaContext) (copies : ℕ → Option ℕ) (ctx' : NfaContext)
    (copies' : ℕ → Option ℕ) : Prop where
  copies : ∀ s c, copies s = some c → copies' s = some c
  length_le : ctx.states.length ≤ ctx'.states.length
  same : ∀ s < ctx.states.length, ctx'.state s = ctx.state s

def uncopied (ctx₀ : NfaContext) (copies : ℕ → Option ℕ) : Finset ℕ :=
  (Finset.range ctx₀.states.length).filter fun s => copies s = none

section

variable {ctx₀ ctx ctx' ctx'' : NfaContext} {copies copies' copies'' : ℕ → Option ℕ}
  {pending : Finset ℕ}

theorem CopiedMore.refl : CopiedMore ctx copies ctx copies :=
  ⟨fun _ _ h => h, le_rfl, fun _ _ => rfl⟩

theorem CopiedMore.trans (h : CopiedMore ctx copies ctx' copies')
    (h' : CopiedMore ctx' copies' ctx'' copies'') : CopiedMore ctx copies ctx'' copies'' where
  copies s c hs := h'.copies s c (h.copies s c hs)
  length_le := h.length_le.trans h'.length_le
  same s hs := (h'.same s (hs.trans_le h.length_le)).trans (h.same s hs)

theorem CopiedTrans.mono (h : ∀ s c, copies s = some c → copies' s = some c)
    {l l' : List NfaTransition} (hl : List.Forall₂ (CopiedTrans copies) l l') :
    List.Forall₂ (CopiedTrans copies') l l' :=
  hl.imp fun _ _ ht => ⟨ht.1, h _ _ ht.2⟩

theorem uncopied_card_le (h : ∀ s c, copies s = some c → copies' s = some c) :
    (uncopied ctx₀ copies').card ≤ (uncopied ctx₀ copies).card := by
  refine Finset.card_le_card fun s hs => ?_
  obtain ⟨hlt, hnone⟩ := Finset.mem_filter.mp hs
  refine Finset.mem_filter.mpr ⟨hlt, ?_⟩
  cases hc : copies s with
  | none => rfl
  | some c =>
    rw [h s c hc] at hnone
    cases hnone

theorem uncopied_card_lt {s c : ℕ} (hs : s < ctx₀.states.length) (hnone : copies s = none) :
    (uncopied ctx₀ (Function.update copies s (some c))).card < (uncopied ctx₀ copies).card := by
  refine Finset.card_lt_card ⟨fun s' hs' => ?_, fun hsub => ?_⟩
  · obtain ⟨hlt, hnone'⟩ := Finset.mem_filter.mp hs'
    refine Finset.mem_filter.mpr ⟨hlt, ?_⟩
    by_cases heq : s' = s
    · exact heq ▸ hnone
    · rwa [Function.update_of_ne heq] at hnone'
  · have hmem := hsub (Finset.mem_filter.mpr ⟨Finset.mem_range.mpr hs, hnone⟩)
    have hsome := (Finset.mem_filter.mp hmem).2
    rw [Function.update_self] at hsome
    cases hsome

theorem Copying.begin_ (h : Copying ctx₀ ctx copies pending) {s : ℕ} (hs : s < ctx₀.states.length)
    (hnone : copies s = none) (accepts : List NfaAccept) :
    Copying ctx₀ (ctx.grow.edit ctx.states.length fun st => { st with accepts := accepts })
      (Function.update copies s (some ctx.states.length)) (insert s pending) ∧
    CopiedMore ctx copies (ctx.grow.edit ctx.states.length fun st => { st with accepts := accepts })
      (Function.update copies s (some ctx.states.length)) := by
  have hstate : ∀ c < ctx.states.length,
      (ctx.grow.edit ctx.states.length fun st => { st with accepts := accepts }).state c =
        ctx.state c := by
    intro c hc
    rw [NfaContext.edit_state_ne hc.ne, NfaContext.grow_state]
  have hmore : ∀ s' c, copies s' = some c →
      Function.update copies s (some ctx.states.length) s' = some c := by
    intro s' c hc
    by_cases heq : s' = s
    · rw [heq, hnone] at hc
      cases hc
    · rwa [Function.update_of_ne heq]
  have hlen : (ctx.grow.edit ctx.states.length fun st =>
      { st with accepts := accepts }).states.length = ctx.states.length + 1 := by
    rw [NfaContext.edit_length, NfaContext.grow_length]
  refine ⟨⟨h.ccls_eq, ?_, fun c hc => ?_, ?_, ?_, fun c hc hlt => ?_, ?_⟩, hmore, ?_, hstate⟩
  · rw [hlen]
    exact h.length_le.trans (Nat.le_succ _)
  · rw [hstate c (hc.trans_le h.length_le), h.old c hc]
  · -- an old copy is not the new state
    intro s₁ s₂ c h₁ h₂
    by_cases heq₁ : s₁ = s <;> by_cases heq₂ : s₂ = s
    · rw [heq₁, heq₂]
    · rw [heq₁, Function.update_self] at h₁
      rw [Function.update_of_ne heq₂] at h₂
      cases h₁
      exact absurd (h.range s₂ _ h₂).2.2 (Nat.lt_irrefl _)
    · rw [heq₂, Function.update_self] at h₂
      rw [Function.update_of_ne heq₁] at h₁
      cases h₂
      exact absurd (h.range s₁ _ h₁).2.2 (Nat.lt_irrefl _)
    · rw [Function.update_of_ne heq₁] at h₁
      rw [Function.update_of_ne heq₂] at h₂
      exact h.inj s₁ s₂ c h₁ h₂
  · intro s' c hc
    rw [hlen]
    by_cases heq : s' = s
    · rw [heq, Function.update_self] at hc
      cases hc
      exact ⟨heq ▸ hs, h.length_le, Nat.lt_succ_self _⟩
    · rw [Function.update_of_ne heq] at hc
      obtain ⟨hs', hc₀, hlt⟩ := h.range s' c hc
      exact ⟨hs', hc₀, hlt.trans (Nat.lt_succ_self _)⟩
  · rw [hlen] at hlt
    rcases Nat.lt_succ_iff_lt_or_eq.mp hlt with hlt | rfl
    · obtain ⟨s', hs'⟩ := h.new c hc hlt
      exact ⟨s', hmore s' c hs'⟩
    · exact ⟨s, Function.update_self _ _ _⟩
  · intro s' c hc hs'
    obtain ⟨hne, hs'⟩ := not_or.mp (mt Finset.mem_insert.mpr hs')
    rw [Function.update_of_ne hne] at hc
    rw [hstate c (h.range s' c hc).2.2]
    exact CopiedTrans.mono hmore (h.done s' c hc hs')
  · rw [hlen]
    exact Nat.le_succ _

theorem Copying.append (h : Copying ctx₀ ctx copies pending) {s c : ℕ} (hs : copies s = some c)
    (hmem : s ∈ pending) (trans : NfaTransition) :
    Copying ctx₀ (ctx.edit c fun st => { st with trans := st.trans ++ [trans] }) copies pending where
  ccls_eq := h.ccls_eq
  length_le := by
    rw [NfaContext.edit_length]
    exact h.length_le
  old s' hs' := by
    have hne : s' ≠ c := (hs'.trans_le (h.range s c hs).2.1).ne
    rw [NfaContext.edit_state_ne hne, h.old s' hs']
  inj := h.inj
  range s' c' hc' := by
    rw [NfaContext.edit_length]
    exact h.range s' c' hc'
  new c' hc' hlt := h.new c' hc' (by rwa [NfaContext.edit_length] at hlt)
  done s' c' hc' hs' := by
    have hne : c' ≠ c := by
      intro heq
      rw [h.inj s' s c (heq ▸ hc') hs] at hs'
      exact hs' hmem
    rw [NfaContext.edit_state_ne hne]
    exact h.done s' c' hc' hs'

def Visits (ctx₀ : NfaContext) (fuel : ℕ)
    (visit : ℕ → (ℕ → Option ℕ) → Make (ℕ × (ℕ → Option ℕ))) : Prop :=
  ∀ (s : ℕ) (ctx : NfaContext) (copies : ℕ → Option ℕ) (pending : Finset ℕ),
    Copying ctx₀ ctx copies pending → s < ctx₀.states.length → (uncopied ctx₀ copies).card < fuel →
    Makes (visit s copies) ctx fun r ctx' =>
      Copying ctx₀ ctx' r.2 pending ∧ CopiedMore ctx copies ctx' r.2 ∧ r.2 s = some r.1

def copyTransition (visit : ℕ → (ℕ → Option ℕ) → Make (ℕ × (ℕ → Option ℕ))) (copy : ℕ)
    (copies : ℕ → Option ℕ) (trans : NfaTransition) : Make (ℕ → Option ℕ) := do
  let r ← visit trans.succ copies
  nfaStateModify copy fun s => { s with trans := s.trans ++ [{ trans with succ := r.1 }] }
  pure r.2

/-- In the loop over the transitions of `s` those before the rest `l` have been copied. -/
structure LoopInv (ctx₀ ctx₁ : NfaContext) (copies₁ : ℕ → Option ℕ) (pending : Finset ℕ) (s c : ℕ)
    (pre : List NfaTransition) (ctx : NfaContext) (copies : ℕ → Option ℕ) : Prop where
  copying : Copying ctx₀ ctx copies (insert s pending)
  more : CopiedMore ctx₁ copies₁ ctx copies
  copied : copies s = some c
  trans : List.Forall₂ (CopiedTrans copies) pre (ctx.state c).trans

theorem makes_copyTransition {visit : ℕ → (ℕ → Option ℕ) → Make (ℕ × (ℕ → Option ℕ))} {fuel : ℕ}
    (hvisit : Visits ctx₀ fuel visit) {ctx₁ : NfaContext} {copies₁ : ℕ → Option ℕ} {s c : ℕ}
    (hc : ctx₁.states.length ≤ c) {pre : List NfaTransition} {trans : NfaTransition}
    (h : LoopInv ctx₀ ctx₁ copies₁ pending s c pre ctx copies)
    (hsucc : trans.succ < ctx₀.states.length) (hf : (uncopied ctx₀ copies).card < fuel) :
    Makes (copyTransition visit c copies trans) ctx fun copies' ctx' =>
      LoopInv ctx₀ ctx₁ copies₁ pending s c (pre ++ [trans]) ctx' copies' ∧
        (uncopied ctx₀ copies').card < fuel := by
  refine Makes.bind (hvisit trans.succ ctx copies _ h.copying hsucc hf) fun r ctx' hchild => ?_
  obtain ⟨hcopying, hmore, hr⟩ := hchild
  have hclt : c < ctx.states.length := (h.copying.range s c h.copied).2.2
  have hcopied := hmore.copies s c h.copied
  have hboth := h.more.trans hmore
  refine Makes.bind (makes_nfaStateModify (Q := fun _ ctx'' => ctx'' = _) rfl) fun _ ctx'' hmod => ?_
  subst hmod
  refine Makes.pure ⟨⟨hcopying.append hcopied (Finset.mem_insert_self s pending) _,
    ⟨hboth.copies, ?_, fun s' hs' => ?_⟩, hcopied, ?_⟩, (uncopied_card_le hmore.copies).trans_lt hf⟩
  · rw [NfaContext.edit_length]
    exact hboth.length_le
  · rw [NfaContext.edit_state_ne (hs'.trans_le hc).ne]
    exact hboth.same s' hs'
  · rw [NfaContext.edit_state_self (hclt.trans_le hmore.length_le), hmore.same c hclt]
    exact List.rel_append (CopiedTrans.mono hmore.copies h.trans) (.cons ⟨rfl, hr⟩ .nil)

theorem makes_copyTransitions {visit : ℕ → (ℕ → Option ℕ) → Make (ℕ × (ℕ → Option ℕ))} {fuel : ℕ}
    (hvisit : Visits ctx₀ fuel visit) {ctx₁ : NfaContext} {copies₁ : ℕ → Option ℕ} {s c : ℕ}
    (hc : ctx₁.states.length ≤ c) {l : List NfaTransition} (pre : List NfaTransition)
    (h : LoopInv ctx₀ ctx₁ copies₁ pending s c pre ctx copies)
    (hsucc : ∀ trans ∈ l, trans.succ < ctx₀.states.length)
    (hf : (uncopied ctx₀ copies).card < fuel) :
    Makes (l.foldlM (copyTransition visit c) copies) ctx fun copies' ctx' =>
      LoopInv ctx₀ ctx₁ copies₁ pending s c (pre ++ l) ctx' copies' := by
  induction l generalizing pre ctx copies with
  | nil =>
    rw [List.append_nil]
    exact Makes.pure h
  | cons trans l ih =>
    rw [List.foldlM_cons]
    refine Makes.bind (makes_copyTransition hvisit hc h (hsucc trans List.mem_cons_self) hf)
      fun copies' ctx' h' => ?_
    have hrest := ih _ h'.1 (fun t ht => hsucc t (List.mem_cons_of_mem trans ht)) h'.2
    rwa [List.append_assoc, List.singleton_append] at hrest

theorem visits_nfaStateDeepCopy (h₀ : ctx₀.WellFormed) (fuel : ℕ) :
    Visits ctx₀ fuel (nfaStateDeepCopy fuel) := by
  induction fuel with
  | zero => exact fun _ _ _ _ _ _ hf => absurd hf (Nat.not_lt_zero _)
  | succ fuel ih =>
    intro s ctx copies pending h hs hf
    cases hcopy : copies s with
    | some c =>
      have hrun : nfaStateDeepCopy (fuel + 1) s copies = pure (c, copies) := by
        rw [nfaStateDeepCopy, hcopy]
      rw [hrun]
      exact Makes.pure ⟨h, .refl, hcopy⟩
    | none =>
      have hrun : nfaStateDeepCopy (fuel + 1) s copies = (do
          let old := (← get).state s
          let copy ← nfaStateCreate
          nfaStateModify copy fun st => { st with accepts := old.accepts }
          let copies ← old.trans.foldlM (copyTransition (nfaStateDeepCopy fuel) copy)
            (Function.update copies s (some copy))
          pure (copy, copies)) := by
        rw [nfaStateDeepCopy, hcopy]
        rfl
      rw [hrun]
      refine Makes.bind Makes.get fun _ _ hget => ?_
      obtain ⟨rfl, rfl⟩ := hget
      refine Makes.bind (makes_nfaStateCreate (Q := fun c ctx₂ => c = ctx.states.length ∧
        ctx₂ = ctx.grow) ⟨rfl, rfl⟩) fun c ctx₂ hcreate => ?_
      obtain ⟨rfl, rfl⟩ := hcreate
      refine Makes.bind (makes_nfaStateModify (Q := fun _ ctx₂ => ctx₂ = _) rfl) fun _ ctx₂ hmod => ?_
      subst hmod
      obtain ⟨hbegin, hmore⟩ := h.begin_ hs hcopy (ctx.state s).accepts
      have hfuel : (uncopied ctx₀ (Function.update copies s (some ctx.states.length))).card < fuel :=
        (uncopied_card_lt hs hcopy).trans_le (Nat.lt_succ_iff.mp hf)
      rw [h.old s hs] at hbegin hmore ⊢
      refine Makes.bind (makes_copyTransitions ih le_rfl []
        ⟨hbegin, hmore, Function.update_self _ _ _, ?_⟩ (h₀.succs s) hfuel) ?_
      · rw [NfaContext.edit_state_self (by rw [NfaContext.grow_length]; exact Nat.lt_succ_self _),
          NfaContext.grow_state, NfaContext.state_of_le le_rfl]
        exact .nil
      · rintro copies' ctx' ⟨hcopying, hmore', hcopied, htrans⟩
        refine Makes.pure ⟨⟨hcopying.ccls_eq, hcopying.length_le, hcopying.old, hcopying.inj,
          hcopying.range, hcopying.new, fun s' c' hc' hs' => ?_⟩, hmore', hcopied⟩
        change copies' s' = some c' at hc'
        by_cases heq : s' = s
        · subst heq
          rw [hcopied] at hc'
          cases hc'
          exact htrans
        · exact hcopying.done s' c' hc' fun hmem => (Finset.mem_insert.mp hmem).elim heq hs'

theorem exists_copied {l l' : List NfaTransition} (h : List.Forall₂ (CopiedTrans copies) l l')
    {trans : NfaTransition} (ht : trans ∈ l) : ∃ trans' ∈ l', CopiedTrans copies trans trans' := by
  induction h with
  | nil => cases ht
  | cons ha hrest ih =>
    rename_i a b l l'
    rcases List.mem_cons.mp ht with rfl | ht
    · exact ⟨b, List.mem_cons_self, ha⟩
    · obtain ⟨trans', htrans', hcopied⟩ := ih ht
      exact ⟨trans', List.mem_cons_of_mem b htrans', hcopied⟩

theorem exists_original {l l' : List NfaTransition} (h : List.Forall₂ (CopiedTrans copies) l l')
    {trans' : NfaTransition} (ht : trans' ∈ l') : ∃ trans ∈ l, CopiedTrans copies trans trans' := by
  induction h with
  | nil => cases ht
  | cons ha hrest ih =>
    rename_i a b l l'
    rcases List.mem_cons.mp ht with rfl | ht
    · exact ⟨a, List.mem_cons_self, ha⟩
    · obtain ⟨trans, htrans, hcopied⟩ := ih ht
      exact ⟨trans, List.mem_cons_of_mem a htrans, hcopied⟩

theorem Copying.start : Copying ctx₀ ctx₀ (fun _ => none) ∅ :=
  ⟨rfl, le_rfl, fun _ _ => rfl, fun _ _ _ h => (nomatch h), fun _ _ h => (nomatch h),
    fun _ hc hlt => absurd hlt (Nat.not_lt_of_le hc), fun _ _ h => (nomatch h)⟩

theorem Copying.steps_old (h : Copying ctx₀ ctx copies pending) {s : ℕ}
    (hs : s < ctx₀.states.length) (t : ℕ) (x : Input) (i j : ℕ) :
    ctx.steps s t x i j ↔ ctx₀.steps s t x i j := by
  unfold NfaContext.steps NfaContext.ccl
  rw [h.old s hs, h.ccls_eq]

theorem Copying.steps_copy (h : Copying ctx₀ ctx copies ∅) {s c : ℕ} (hs : copies s = some c)
    (c' : ℕ) (x : Input) (i j : ℕ) :
    ctx.steps c c' x i j ↔ ∃ t, copies t = some c' ∧ ctx₀.steps s t x i j := by
  have hall := h.done s c hs (Finset.notMem_empty s)
  unfold NfaContext.steps NfaContext.ccl
  rw [h.ccls_eq]
  constructor
  · rintro ⟨trans', htrans', rfl, hspan⟩
    obtain ⟨trans, htrans, hccl, hsucc⟩ := exists_original hall htrans'
    exact ⟨trans.succ, hsucc, trans, htrans, rfl, hccl ▸ hspan⟩
  · rintro ⟨t, ht, trans, htrans, rfl, hspan⟩
    obtain ⟨trans', htrans', hccl, hsucc⟩ := exists_copied hall htrans
    rw [ht] at hsucc
    exact ⟨trans', htrans', (Option.some_inj.mp hsucc).symm, hccl ▸ hspan⟩

theorem Copying.wellFormed (h₀ : ctx₀.WellFormed) (h : Copying ctx₀ ctx copies ∅) :
    ctx.WellFormed := by
  have hcases : ∀ c, ∀ trans' ∈ (ctx.state c).trans, trans' ∈ (ctx₀.state c).trans ∨
      ∃ s trans, trans ∈ (ctx₀.state s).trans ∧ CopiedTrans copies trans trans' := by
    intro c trans' ht
    by_cases hold : c < ctx₀.states.length
    · exact .inl (h.old c hold ▸ ht)
    · by_cases hlt : c < ctx.states.length
      · obtain ⟨s, hs⟩ := h.new c (Nat.le_of_not_lt hold) hlt
        have hall := h.done s c hs (Finset.notMem_empty s)
        obtain ⟨trans, htrans, hcopied⟩ := exists_original hall ht
        exact .inr ⟨s, trans, htrans, hcopied⟩
      · rw [NfaContext.state_of_le (Nat.le_of_not_lt hlt)] at ht
        cases ht
  refine ⟨?_, fun c trans' ht => ?_, fun c trans' ht => ?_⟩
  · rw [h.ccls_eq]
    exact h₀.epsilon
  · rw [h.ccls_eq]
    obtain hold | ⟨s, trans, htrans, hcopied⟩ := hcases c trans' ht
    · exact h₀.ccls c trans' hold
    · exact hcopied.1 ▸ h₀.ccls s trans htrans
  · obtain hold | ⟨s, trans, htrans, hcopied⟩ := hcases c trans' ht
    · exact (h₀.succs c trans' hold).trans_le h.length_le
    · exact (h.range _ _ hcopied.2).2.2

theorem makes_nfaDeepCopy (h₀ : ctx₀.WellFormed) {nfa : Fragment}
    (hinitial : nfa.initial < ctx₀.states.length) (hfinal : nfa.final < ctx₀.states.length) :
    Makes (nfaDeepCopy nfa) ctx₀ fun copy ctx => ctx.WellFormed ∧ Widens ∅ ctx₀ ctx ∧
      ∃ R, (∀ c ∈ R, ctx₀.states.length ≤ c) ∧ Denotes ctx R copy (ctx₀.language nfa) := by
  have hfuel : ∀ copies, (uncopied ctx₀ copies).card < ctx₀.states.length + 1 := by
    intro copies
    refine Nat.lt_succ_of_le ((Finset.card_filter_le _ _).trans ?_)
    rw [Finset.card_range]
  refine Makes.bind Makes.get fun _ _ hget => ?_
  obtain ⟨rfl, rfl⟩ := hget
  refine Makes.bind (visits_nfaStateDeepCopy h₀ _ nfa.initial _ _ ∅ .start hinitial (hfuel _))
    fun r₁ ctx₁ h₁ => ?_
  obtain ⟨hcopying₁, -, hinit⟩ := h₁
  refine Makes.bind (visits_nfaStateDeepCopy h₀ _ nfa.final ctx₁ r₁.2 ∅ hcopying₁ hfinal (hfuel _))
    fun r₂ ctx₂ h₂ => ?_
  obtain ⟨h, hmore, hfin⟩ := h₂
  have hinit₂ := hmore.copies _ _ hinit
  refine Makes.pure ⟨h.wellFormed h₀, ⟨h.length_le, fun s hs _ => h.steps_old hs⟩,
    {c | ∃ s, r₂.2 s = some c}, fun c hc => ?_, ?_, fun c hc => ?_, ⟨_, hinit₂⟩, ⟨_, hfin⟩, ?_⟩
  · obtain ⟨s, hs⟩ := hc
    exact (h.range s c hs).2.1
  · rintro c ⟨s, hs⟩ c' x i j hstep
    obtain ⟨t, ht, -⟩ := (h.steps_copy hs c' x i j).mp hstep
    exact ⟨t, ht⟩
  · obtain ⟨s, hs⟩ := hc
    exact (h.range s c hs).2.2
  · -- the copied states, each with its copy
    have hclosed : Closed ctx₀.steps {s | ∃ c, r₂.2 s = some c} := by
      rintro s ⟨c, hc⟩ t x i j hstep
      obtain ⟨trans, htrans, rfl, hspan⟩ := hstep
      have hall := h.done s c hc (Finset.notMem_empty s)
      obtain ⟨trans', -, ht⟩ := exists_copied hall htrans
      exact ⟨_, ht.2⟩
    have hget : ∀ s c, r₂.2 s = some c → (r₂.2 s).getD 0 = c := fun s c hc => by rw [hc]; rfl
    have hpath := path_copy ctx₂.steps (fun s => (r₂.2 s).getD 0) hclosed
      (fun s hs s' hs' heq => ?_) (fun s hs c' x i j => ?_) ⟨_, hinit₂⟩ ⟨_, hfin⟩
    · rw [hget _ _ hinit₂, hget _ _ hfin] at hpath
      exact hpath
    · obtain ⟨c, hc⟩ := hs
      obtain ⟨c', hc'⟩ := hs'
      have hcc : c = c' := by rw [← hget s c hc, ← hget s' c' hc']; exact heq
      exact h.inj s s' c hc (hcc ▸ hc')
    · obtain ⟨c, hc⟩ := hs
      change ctx₂.steps ((r₂.2 s).getD 0) c' x i j ↔ ∃ t, _ ∧ (r₂.2 t).getD 0 = c' ∧ _
      rw [hget s c hc, h.steps_copy hc]
      refine exists_congr fun t => ⟨fun ⟨ht, hstep⟩ => ⟨⟨c', ht⟩, hget t c' ht, hstep⟩, ?_⟩
      rintro ⟨⟨c'', ht⟩, heq, hstep⟩
      rw [hget t c'' ht] at heq
      exact ⟨heq ▸ ht, hstep⟩

end

end Hilti.Justrx
