import Hilti.Justrx.Copies

/-!
# Iteration of NFAs

What `nfa_iterate` builds, for any NFA and any numbers of repetitions, and when it is what the numbers
ask for.  With a lower bound of two or more the copies are chained, but without an upper bound the
chain gets the closure of one more copy.  With a lower bound of zero or one the optional part is
extended by copies of itself, which doubles it each time, and a lower bound of one is not enforced.
-/

namespace Hilti.Justrx

open Hilti.Lib

set_option autoImplicit false

/-! ## Putting fragments together -/

section

variable {ctx ctx' : NfaContext} {R R₁ R₂ : Set ℕ} {nfa nfa₁ nfa₂ : Fragment}
  {L L₁ L₂ : Spans Input}

theorem Makes.addEpsilon {β : Type} (h : ctx.WellFormed) {a b : ℕ} (ha : a < ctx.states.length)
    (hb : b < ctx.states.length) (tags : Option (List Tag)) {k : Unit → Make β}
    {Q : β → NfaContext → Prop}
    (hk : ∀ ctx', ctx'.WellFormed → Linked a b ctx ctx' → Makes (k ()) ctx' Q) :
    Makes (cclEpsilon >>= fun ccl => nfaStateAddTrans a b tags ccl >>= k) ctx Q := by
  rw [← bind_assoc]
  exact Makes.bind (makes_addEpsilon h ha hb tags) fun _ ctx' h' => hk ctx' h'.1 h'.2

theorem Linked.steps_of_ne {a b : ℕ} (h : Linked a b ctx ctx') {s : ℕ} (hs : s ≠ a) (t : ℕ)
    (x : Input) (i j : ℕ) : ctx'.steps s t x i j ↔ ctx.steps s t x i j := by
  rw [h.steps_iff]
  exact or_iff_left fun heq => hs heq.1

theorem Denotes.concat (h₁ : Denotes ctx R₁ nfa₁ L₁) (h₂ : Denotes ctx R₂ nfa₂ L₂)
    (hdisj : Disjoint R₁ R₂) (hl : Linked nfa₁.final nfa₂.initial ctx ctx') :
    Denotes ctx' (R₁ ∪ R₂) { nfa₁ with final := nfa₂.final } (L₁ * L₂) := by
  have hsecond : ∀ s ∈ R₂, ∀ t x i j, ctx'.steps s t x i j ↔ ctx.steps s t x i j := fun s hs =>
    hl.steps_of_ne fun heq => Set.disjoint_left.mp hdisj (heq ▸ h₁.final_mem) hs
  refine ⟨?_, ?_, .inl h₁.initial_mem, .inr h₂.final_mem, ?_⟩
  · rintro s (hs | hs) t x i j hst
    · rcases (hl.steps_iff s t x i j).mp hst with hst | ⟨-, rfl, -⟩
      · exact .inl (h₁.closed s hs t x i j hst)
      · exact .inr h₂.initial_mem
    · exact .inr (h₂.closed s hs t x i j ((hsecond s hs t x i j).mp hst))
  · rintro s (hs | hs)
    · exact hl.length_eq ▸ h₁.bounded s hs
    · exact hl.length_eq ▸ h₂.bounded s hs
  · have hpath := path_concat (e := 1) h₁.closed h₂.closed hdisj h₂.initial_mem
      (fun s _ => hl.steps_iff s) hsecond h₁.initial_mem h₁.final_mem h₂.final_mem
    rw [mul_one] at hpath
    exact hpath.trans (congrArg₂ _ h₁.language_eq h₂.language_eq)

theorem Denotes.loop (h : Denotes ctx R nfa L) (hl : Linked nfa.final nfa.initial ctx ctx') :
    Denotes ctx' R nfa (atLeast L 1) := by
  refine ⟨?_, fun s hs => hl.length_eq ▸ h.bounded s hs, h.initial_mem, h.final_mem, ?_⟩
  · intro s hs t x i j hst
    rcases (hl.steps_iff s t x i j).mp hst with hst | ⟨-, rfl, -⟩
    · exact h.closed s hs t x i j hst
    · exact h.initial_mem
  · rw [← h.language_eq]
    exact path_loop h.closed h.initial_mem h.final_mem fun s _ => hl.steps_iff s

theorem makes_nfaEmpty (h : ctx.WellFormed) : Makes nfaEmpty ctx fun nfa ctx' =>
    ctx'.WellFormed ∧ Widens ∅ ctx ctx' ∧ Denotes ctx' {ctx.states.length} nfa 1 := by
  refine Makes.bind (makes_nfaStateCreate (Q := fun s ctx' => ctx.states.length = s ∧
    ctx.grow = ctx') ⟨rfl, rfl⟩) fun s ctx' hcreate => ?_
  obtain ⟨rfl, rfl⟩ := hcreate
  have hnone : ∀ t x i j, ¬ctx.grow.steps ctx.states.length t x i j := by
    intro t x i j hst
    rw [NfaContext.grow_steps] at hst
    exact steps_of_le le_rfl t x i j hst
  refine Makes.pure ⟨h.grow, .grow, ?_, ?_, rfl, rfl, ?_⟩
  · rintro _ rfl t x i j hst
    exact absurd hst (hnone t x i j)
  · rintro _ rfl
    rw [NfaContext.grow_length]
    exact Nat.lt_succ_self _
  · funext x i j
    refine propext ⟨fun hp => ?_, fun heq => heq ▸ path_refl _ x i⟩
    exact path_head_induction (P := fun s i => s = ctx.states.length → i = j) (fun _ => rfl)
      (fun s u i k hsu _ _ hs => absurd (hs ▸ hsu) (hnone u x i k)) hp rfl

theorem makes_nfaConcat (h : ctx.WellFormed) (h₁ : Denotes ctx R₁ nfa₁ L₁)
    (h₂ : Denotes ctx R₂ nfa₂ L₂) (hdisj : Disjoint R₁ R₂) :
    Makes (nfaConcat nfa₁ nfa₂ none) ctx fun nfa ctx' => ctx'.WellFormed ∧
      Widens R₁ ctx ctx' ∧ Denotes ctx' (R₁ ∪ R₂) nfa (L₁ * L₂) := by
  refine Makes.addEpsilon h (h₁.bounded _ h₁.final_mem) (h₂.bounded _ h₂.initial_mem) _
    fun ctx' h' hl => Makes.pure ⟨h', hl.widens.mono ?_, h₁.concat h₂ hdisj hl⟩
  exact Set.singleton_subset_iff.mpr h₁.final_mem

/-- The second context has two more states, from and to which there are edges to the starts and from
the ends of two fragments. -/
structure Joined (nfa₁ nfa₂ : Fragment) (ctx ctx' : NfaContext) : Prop where
  length_eq : ctx'.states.length = ctx.states.length + 2
  steps_iff : ∀ s t x i j, ctx'.steps s t x i j ↔ ctx.steps s t x i j ∨
    (s = ctx.states.length ∧ t = nfa₁.initial ∧ i = j) ∨
    (s = ctx.states.length ∧ t = nfa₂.initial ∧ i = j) ∨
    (s = nfa₁.final ∧ t = ctx.states.length + 1 ∧ i = j) ∨
    (s = nfa₂.final ∧ t = ctx.states.length + 1 ∧ i = j)

theorem makes_joined (h : ctx.WellFormed) (hi₁ : nfa₁.initial < ctx.states.length)
    (hf₁ : nfa₁.final < ctx.states.length) (hi₂ : nfa₂.initial < ctx.states.length)
    (hf₂ : nfa₂.final < ctx.states.length) :
    Makes (nfaAlternative nfa₁ nfa₂) ctx fun nfa ctx' => ctx'.WellFormed ∧
      Joined nfa₁ nfa₂ ctx ctx' ∧ nfa = ⟨ctx.states.length, ctx.states.length + 1, none⟩ := by
  refine Makes.bind (makes_nfaStateCreate (Q := fun s ctx' => ctx.states.length = s ∧
    ctx.grow = ctx') ⟨rfl, rfl⟩) fun a ctx₁ hcreate => ?_
  obtain ⟨rfl, rfl⟩ := hcreate
  have hlen₁ : ctx.grow.states.length = ctx.states.length + 1 := NfaContext.grow_length
  refine Makes.addEpsilon h.grow (by omega) (by omega) _ fun ctx₂ hw₂ hl₂ => ?_
  have hlen₂ := hl₂.length_eq
  refine Makes.addEpsilon hw₂ (by omega) (by omega) _ fun ctx₃ hw₃ hl₃ => ?_
  have hlen₃ := hl₃.length_eq
  refine Makes.bind (makes_nfaStateCreate (Q := fun s ctx' => ctx₃.states.length = s ∧
    ctx₃.grow = ctx') ⟨rfl, rfl⟩) fun b ctx₄ hcreate => ?_
  obtain ⟨rfl, rfl⟩ := hcreate
  have hlen₄ : ctx₃.grow.states.length = ctx₃.states.length + 1 := NfaContext.grow_length
  refine Makes.addEpsilon hw₃.grow (by omega) (by omega) _ fun ctx₅ hw₅ hl₅ => ?_
  have hlen₅ := hl₅.length_eq
  refine Makes.addEpsilon hw₅ (by omega) (by omega) _ fun ctx₆ hw₆ hl₆ => ?_
  have hlen₆ := hl₆.length_eq
  have hb : ctx₃.states.length = ctx.states.length + 1 := by omega
  refine Makes.pure ⟨hw₆, ⟨by omega, fun s t x i j => ?_⟩, by rw [hb]⟩
  rw [hl₆.steps_iff, hl₅.steps_iff, NfaContext.grow_steps, hl₃.steps_iff, hl₂.steps_iff,
    NfaContext.grow_steps, hb]
  simp only [or_assoc]

theorem Joined.steps_of_mem (h : Joined nfa₁ nfa₂ ctx ctx') (h₁ : Denotes ctx R₁ nfa₁ L₁)
    (h₂ : Denotes ctx R₂ nfa₂ L₂) (hdisj : Disjoint R₁ R₂) {s : ℕ} (hs : s ∈ R₁) (t : ℕ) (x : Input)
    (i j : ℕ) : ctx'.steps s t x i j ↔ ctx.steps s t x i j ∨
      (s = nfa₁.final ∧ t = ctx.states.length + 1 ∧ i = j) := by
  have hne₂ : s ≠ nfa₂.final := fun heq => Set.disjoint_left.mp hdisj hs (heq ▸ h₂.final_mem)
  have hne : s ≠ ctx.states.length := (h₁.bounded s hs).ne
  rw [h.steps_iff]
  simp only [hne₂, hne, false_and, false_or, or_false]

theorem Joined.symm (h : Joined nfa₁ nfa₂ ctx ctx') : Joined nfa₂ nfa₁ ctx ctx' where
  length_eq := h.length_eq
  steps_iff s t x i j := by
    rw [h.steps_iff]
    tauto

theorem Denotes.alternative (h₁ : Denotes ctx R₁ nfa₁ L₁) (h₂ : Denotes ctx R₂ nfa₂ L₂)
    (hdisj : Disjoint R₁ R₂) (h : Joined nfa₁ nfa₂ ctx ctx') :
    Denotes ctx' (R₁ ∪ R₂ ∪ {ctx.states.length, ctx.states.length + 1})
      ⟨ctx.states.length, ctx.states.length + 1, none⟩ (L₁ ⊔ L₂) := by
  have hside₁ : ∀ s ∈ R₁, ∀ t x i j, _ := fun s hs => h.steps_of_mem h₁ h₂ hdisj hs
  have hside₂ : ∀ s ∈ R₂, ∀ t x i j, _ := fun s hs => h.symm.steps_of_mem h₂ h₁ hdisj.symm hs
  have hf₁ := h₁.bounded _ h₁.final_mem
  have hf₂ := h₂.bounded _ h₂.final_mem
  have hstart : ∀ t x i j, ctx'.steps ctx.states.length t x i j ↔
      (t = nfa₁.initial ∨ t = nfa₂.initial) ∧ i = j := by
    intro t x i j
    rw [h.steps_iff]
    simp only [steps_of_le le_rfl, hf₁.ne', hf₂.ne', true_and, false_and, false_or, or_false,
      or_and_right]
  have hend : ∀ t x i j, ¬ctx'.steps (ctx.states.length + 1) t x i j := by
    intro t x i j
    have hne₁ : ctx.states.length + 1 ≠ nfa₁.final := by omega
    have hne₂ : ctx.states.length + 1 ≠ nfa₂.final := by omega
    rw [h.steps_iff]
    simp only [steps_of_le (Nat.le_succ _), hne₁, hne₂, Nat.succ_ne_self, false_and, or_false,
      not_false_eq_true]
  refine ⟨?_, ?_, .inr (.inl rfl), .inr (.inr rfl), ?_⟩
  · rintro s ((hs | hs) | rfl | rfl) t x i j hst
    · rcases (hside₁ s hs t x i j).mp hst with hst | ⟨-, rfl, -⟩
      · exact .inl (.inl (h₁.closed s hs t x i j hst))
      · exact .inr (.inr rfl)
    · rcases (hside₂ s hs t x i j).mp hst with hst | ⟨-, rfl, -⟩
      · exact .inl (.inr (h₂.closed s hs t x i j hst))
      · exact .inr (.inr rfl)
    · rcases ((hstart t x i j).mp hst).1 with rfl | rfl
      · exact .inl (.inl h₁.initial_mem)
      · exact .inl (.inr h₂.initial_mem)
    · exact absurd hst (hend t x i j)
  · rw [h.length_eq]
    rintro s ((hs | hs) | rfl | rfl)
    · exact (h₁.bounded s hs).trans (Nat.lt_add_of_pos_right Nat.two_pos)
    · exact (h₂.bounded s hs).trans (Nat.lt_add_of_pos_right Nat.two_pos)
    · exact Nat.lt_add_of_pos_right Nat.two_pos
    · exact Nat.lt_succ_self _
  · rw [← h₁.language_eq, ← h₂.language_eq]
    exact path_choice h₁.closed h₂.closed (Nat.succ_ne_self _).symm
      (fun hmem => absurd (h₁.bounded _ hmem) (Nat.le_succ _).not_gt)
      (fun hmem => absurd (h₂.bounded _ hmem) (Nat.le_succ _).not_gt) h₁.initial_mem
      h₂.initial_mem h₁.final_mem h₂.final_mem hstart hend hside₁ hside₂

theorem makes_nfaAlternative (h : ctx.WellFormed) (h₁ : Denotes ctx R₁ nfa₁ L₁)
    (h₂ : Denotes ctx R₂ nfa₂ L₂) (hdisj : Disjoint R₁ R₂) :
    Makes (nfaAlternative nfa₁ nfa₂) ctx fun nfa ctx' => ctx'.WellFormed ∧
      Widens (R₁ ∪ R₂) ctx ctx' ∧
      Denotes ctx' (R₁ ∪ R₂ ∪ {ctx.states.length, ctx.states.length + 1}) nfa (L₁ ⊔ L₂) := by
  refine Makes.imp (makes_joined h (h₁.bounded _ h₁.initial_mem) (h₁.bounded _ h₁.final_mem)
    (h₂.bounded _ h₂.initial_mem) (h₂.bounded _ h₂.final_mem)) ?_
  rintro _ ctx' ⟨hw, hj, rfl⟩
  refine ⟨hw, ⟨hj.length_eq ▸ Nat.le_add_right _ 2, fun s hs hF t x i j => ?_⟩,
    h₁.alternative h₂ hdisj hj⟩
  obtain ⟨hF₁, hF₂⟩ := not_or.mp hF
  have hne₁ : s ≠ nfa₁.final := fun heq => hF₁ (heq ▸ h₁.final_mem)
  have hne₂ : s ≠ nfa₂.final := fun heq => hF₂ (heq ▸ h₂.final_mem)
  rw [hj.steps_iff]
  simp only [hne₁, hne₂, hs.ne, false_and, or_false]

theorem Denotes.makes_copy (h : Denotes ctx R nfa L) (hw : ctx.WellFormed) :
    Makes (nfaDeepCopy nfa) ctx fun copy ctx' => ctx'.WellFormed ∧ Widens ∅ ctx ctx' ∧
      ∃ R', (∀ c ∈ R', ctx.states.length ≤ c) ∧ Denotes ctx' R' copy L := by
  rw [← h.language_eq]
  exact makes_nfaDeepCopy hw (h.bounded _ h.initial_mem) (h.bounded _ h.final_mem)

/-! ## The loops -/

theorem makes_concat_copy (hw : ctx.WellFormed) (h₁ : Denotes ctx R₁ nfa₁ L₁)
    (h₂ : Denotes ctx R₂ nfa₂ L₂) {R : Set ℕ} (hR : Denotes ctx R nfa L) (hdisj : Disjoint R₁ R) :
    Makes (nfaDeepCopy nfa₂ >>= fun copy => nfaConcat nfa₁ copy none) ctx fun nfa' ctx' =>
      ctx'.WellFormed ∧ ∃ R', Denotes ctx' R' nfa' (L₁ * L₂) ∧ Denotes ctx' R nfa L ∧
        Disjoint R' R := by
  refine Makes.bind (h₂.makes_copy hw) fun copy ctx₁ h => ?_
  obtain ⟨hw₁, hx, Rc, hnew, hcopy⟩ := h
  refine Makes.imp (makes_nfaConcat hw₁ (h₁.extend hx (Set.empty_disjoint R₁)) hcopy
    (h₁.disjoint hnew)) fun nfa' ctx₂ h => ?_
  obtain ⟨hw₂, hx₂, hcat⟩ := h
  refine ⟨hw₂, R₁ ∪ Rc, hcat, (hR.extend hx (Set.empty_disjoint R)).extend hx₂ hdisj, ?_⟩
  exact Set.disjoint_union_left.mpr ⟨hdisj, (hR.disjoint hnew).symm⟩

theorem makes_requiredLoop {templ : Fragment} (n : ℕ) : ∀ {ctx : NfaContext} {R₁ : Set ℕ}
    {all : Fragment} {m : ℕ}, ctx.WellFormed → Denotes ctx R₁ all (L ^ m) → Denotes ctx R templ L →
    Disjoint R₁ R → Makes (requiredLoop templ n all) ctx fun all' ctx' => ctx'.WellFormed ∧
      ∃ R', Denotes ctx' R' all' (L ^ (m + n)) ∧ Denotes ctx' R templ L ∧ Disjoint R' R := by
  induction n with
  | zero => exact fun hw h ht hdisj => Makes.pure ⟨hw, _, h, ht, hdisj⟩
  | succ n ih =>
    intro ctx R₁ all m hw h ht hdisj
    rw [requiredLoop, ← bind_assoc]
    refine Makes.bind (makes_concat_copy hw h ht ht hdisj) fun all' ctx' h' => ?_
    obtain ⟨hw', R', hall, ht', hdisj'⟩ := h'
    rw [← pow_succ] at hall
    have hrest := ih hw' hall ht' hdisj'
    rwa [Nat.add_right_comm] at hrest

theorem makes_optionalLoop_own (n : ℕ) : ∀ {ctx : NfaContext} {R₁ : Set ℕ} {all optional : Fragment}
    {O : Spans Input}, ctx.WellFormed → Denotes ctx R₁ all L₁ → Denotes ctx R optional O →
    Disjoint R₁ R → Makes (optionalLoop n optional (.own all)) ctx fun r ctx' => ctx'.WellFormed ∧
      ∃ all' R', r.2.nfa r.1 = some all' ∧ Denotes ctx' R' all' (L₁ * O ^ n) := by
  induction n generalizing L₁ with
  | zero =>
    intro ctx R₁ all optional O hw h _ _
    rw [pow_zero, mul_one]
    exact Makes.pure ⟨hw, all, R₁, rfl, h⟩
  | succ n ih =>
    intro ctx R₁ all optional O hw h ho hdisj
    rw [optionalLoop, ← bind_assoc]
    refine Makes.bind (makes_concat_copy hw h ho ho hdisj) fun all' ctx' h' => ?_
    obtain ⟨hw', R', hall, ho', hdisj'⟩ := h'
    have hrest := ih hw' hall ho' hdisj'
    rwa [mul_assoc, ← pow_succ'] at hrest

theorem makes_optionalLoop_optional (n : ℕ) : ∀ {ctx : NfaContext} {R : Set ℕ} {optional : Fragment}
    {O : Spans Input}, ctx.WellFormed → Denotes ctx R optional O →
    Makes (optionalLoop n optional .optional) ctx fun r ctx' => ctx'.WellFormed ∧
      ∃ all' R', r.2.nfa r.1 = some all' ∧ Denotes ctx' R' all' (O ^ 2 ^ n) := by
  induction n with
  | zero =>
    intro ctx R optional O hw h
    rw [pow_zero, pow_one]
    exact Makes.pure ⟨hw, optional, R, rfl, h⟩
  | succ n ih =>
    intro ctx R optional O hw h
    rw [optionalLoop, ← bind_assoc]
    refine Makes.bind (Q := fun optional' ctx' => ctx'.WellFormed ∧
      ∃ R', Denotes ctx' R' optional' (O * O)) ?_ fun optional' ctx' h' => ?_
    · refine Makes.bind (h.makes_copy hw) fun copy ctx₁ hc => ?_
      obtain ⟨hw₁, hx, Rc, hnew, hcopy⟩ := hc
      refine Makes.imp (makes_nfaConcat hw₁ (h.extend hx (Set.empty_disjoint R)) hcopy
        (h.disjoint hnew)) fun nfa' ctx₂ h₂ => ?_
      exact ⟨h₂.1, R ∪ Rc, h₂.2.2⟩
    · obtain ⟨hw', R', ho⟩ := h'
      have hrest := ih hw' ho
      rwa [← pow_two, ← pow_mul, ← pow_succ'] at hrest

theorem makes_optionalLoop_null (n : ℕ) {optional : Fragment} {O : Spans Input}
    (hw : ctx.WellFormed) (h : Denotes ctx R optional O) :
    Makes (optionalLoop n optional .null) ctx fun r ctx' => ctx'.WellFormed ∧
      match n with
      | 0 => r.2.nfa r.1 = none
      | n + 1 => ∃ all' R', r.2.nfa r.1 = some all' ∧ Denotes ctx' R' all' (O ^ 2 ^ n) := by
  cases n with
  | zero => exact Makes.pure ⟨hw, rfl⟩
  | succ n => exact makes_optionalLoop_optional n hw h

/-! ## The result -/

/-- The function has made a fragment that matches `L`, or none. -/
def Iterated (L : Option (Spans Input)) (r : Option Fragment) (ctx : NfaContext) : Prop :=
  match r with
  | none => L = none
  | some nfa => ∃ R L', L = some L' ∧ Denotes ctx R nfa L'

/-- What there is after the required repetitions: a chain of them, if it takes at least two. -/
def Required (L : Spans Input) (min : ℤ) (R : Set ℕ) (all : Option Fragment) (ctx : NfaContext) :
    Prop :=
  match all with
  | none => min < 2
  | some all => 2 ≤ min ∧ ∃ R', Denotes ctx R' all (L ^ min.toNat) ∧ Disjoint R' R

variable {min max : ℤ}

theorem makes_required {templ : Fragment} (hw : ctx.WellFormed) (h : Denotes ctx R₁ nfa L)
    (ht : Denotes ctx R templ L) (hdisj : Disjoint R₁ R) :
    Makes (if 1 < min then some <$> requiredLoop templ (min - 1).toNat nfa else pure none) ctx
      fun all ctx' => ctx'.WellFormed ∧ Denotes ctx' R templ L ∧ Required L min R all ctx' := by
  split
  · rename_i hmin
    rw [← pow_one L] at h
    refine Makes.map (makes_requiredLoop (min - 1).toNat hw h ht hdisj) fun all ctx' h' => ?_
    obtain ⟨hw', R', hall, ht', hdisj'⟩ := h'
    rw [show 1 + (min - 1).toNat = min.toNat by omega] at hall
    exact ⟨hw', ht', hmin, R', hall, hdisj'⟩
  · rename_i hmin
    exact Makes.pure ⟨hw, ht, by unfold Required; omega⟩

theorem makes_bounded {templ : Fragment} {all : Option Fragment} (hw : ctx.WellFormed)
    (ht : Denotes ctx R templ L) (hall : Required L min R all ctx) (h0 : 0 ≤ min) (hmax : min ≤ max) :
    Makes (iterateBounded templ (max - min).toNat all) ctx fun r ctx' => ctx'.WellFormed ∧
        Iterated (if 2 ≤ min then some (between L min.toNat max.toNat) else if max = min then none
          else some (upTo L (2 ^ (max - min - 1).toNat))) r ctx' := by
  refine Makes.bind (ht.makes_copy hw) fun copy ctx₁ h₁ => ?_
  obtain ⟨hw₁, hx₁, Rc, hnew, hcopy⟩ := h₁
  refine Makes.bind (makes_nfaEmpty hw₁) fun empty ctx₂ h₂ => ?_
  obtain ⟨hw₂, hx₂, hempty⟩ := h₂
  have hcopy₂ := hcopy.extend hx₂ (Set.empty_disjoint Rc)
  have hdisj₂ : Disjoint Rc {ctx₁.states.length} := hcopy.disjoint fun _ hs => hs.ge
  refine Makes.bind (makes_nfaAlternative hw₂ hcopy₂ hempty hdisj₂) fun optional ctx₃ h₃ => ?_
  obtain ⟨hw₃, hx₃, hoptional⟩ := h₃
  cases all with
  | none =>
    have hmin : min < 2 := hall
    refine Makes.bind (makes_optionalLoop_null (max - min).toNat hw₃ hoptional) fun r ctx₄ h₄ => ?_
    refine Makes.pure ⟨h₄.1, ?_⟩
    rw [if_neg (by omega)]
    cases hn : (max - min).toNat with
    | zero =>
      rw [hn] at h₄
      rw [h₄.2, if_pos (by omega)]
      rfl
    | succ n =>
      rw [hn] at h₄
      obtain ⟨-, all', R', heq, hall'⟩ := h₄
      rw [heq, if_neg (by omega), show (max - min - 1).toNat = n by omega]
      rw [sup_one_pow] at hall'
      exact ⟨R', _, rfl, hall'⟩
  | some all =>
    obtain ⟨hmin, R', hall, hdisj⟩ := hall
    -- what comes first is in old states
    have hold : Disjoint R' (Rc ∪ {ctx₁.states.length} ∪
        {ctx₂.states.length, ctx₂.states.length + 1}) := by
      refine hall.disjoint fun s hs => ?_
      rcases hs with (hs | hs) | hs
      · exact hnew s hs
      · exact hs ▸ hx₁.length_le
      · have hle := hx₁.length_le.trans hx₂.length_le
        rcases hs with rfl | rfl
        · exact hle
        · exact hle.trans (Nat.le_succ _)
    have hall₃ := ((hall.extend hx₁ (Set.empty_disjoint R')).extend hx₂
      (Set.empty_disjoint R')).extend hx₃ (hold.mono_right Set.subset_union_left).symm
    refine Makes.bind (makes_optionalLoop_own (max - min).toNat hw₃ hall₃ hoptional hold)
      fun r ctx₄ h₄ => ?_
    obtain ⟨hw₄, all', R'', heq, hall'⟩ := h₄
    refine Makes.pure ⟨hw₄, ?_⟩
    rw [heq, if_pos hmin]
    rw [sup_one_pow, pow_mul_upTo, show min.toNat + (max - min).toNat = max.toNat by omega] at hall'
    exact ⟨R'', _, rfl, hall'⟩

theorem makes_unbounded {templ : Fragment} {all : Option Fragment} (hw : ctx.WellFormed)
    (ht : Denotes ctx R templ L) (hall : Required L min R all ctx) (h0 : 0 ≤ min) :
    Makes (iterateUnbounded templ all) ctx fun r ctx' => ctx'.WellFormed ∧
        Iterated (if 2 ≤ min then some (atLeast L (min.toNat + 1)) else some (atLeast L 1)) r ctx' := by
  refine Makes.bind (ht.makes_copy hw) fun copy ctx₁ h₁ => ?_
  obtain ⟨hw₁, hx₁, Rc, hnew, hcopy⟩ := h₁
  refine Makes.addEpsilon hw₁ (hcopy.bounded _ hcopy.final_mem) (hcopy.bounded _ hcopy.initial_mem) _
    fun ctx₂ hw₂ hl₂ => ?_
  have hclosure := hcopy.loop hl₂
  cases all with
  | none =>
    have hmin : min < 2 := hall
    rw [if_neg (by omega)]
    exact Makes.pure ⟨hw₂, Rc, _, rfl, hclosure⟩
  | some all =>
    obtain ⟨hmin, R', hall, hdisj⟩ := hall
    have hold := hall.disjoint hnew
    have hall₂ := (hall.extend hx₁ (Set.empty_disjoint R')).extend hl₂.widens
      (Set.disjoint_singleton_left.mpr fun hmem =>
        Set.disjoint_left.mp hold hmem hcopy.final_mem)
    refine Makes.map (makes_nfaConcat hw₂ hall₂ hclosure hold) fun nfa' ctx₃ h₃ => ?_
    obtain ⟨hw₃, -, hcat⟩ := h₃
    rw [pow_mul_atLeast] at hcat
    rw [if_pos hmin]
    exact ⟨hw₃, _, _, rfl, hcat⟩

/-- What the result of `nfa_iterate` matches; there is none where it is a null pointer. -/
def iterated (L : Spans Input) (min max : ℤ) : Option (Spans Input) :=
  if max < 0 then some (atLeast L (if 2 ≤ min then min.toNat + 1 else min.toNat))
  else if 2 ≤ min then some (between L min.toNat max.toNat)
  else if max = 0 then some 1
  else if max = min then none
  else some (upTo L (2 ^ (max - min - 1).toNat))

theorem makes_allowNone {all : Option Fragment} (hw : ctx.WellFormed)
    (hall : Iterated (some L) all ctx) :
    Makes (iterateNone all) ctx fun r ctx' => ctx'.WellFormed ∧
      Iterated (some (L ⊔ 1)) r ctx' := by
  cases all with
  | none => exact absurd hall (Option.some_ne_none L)
  | some all =>
    obtain ⟨R', L', heq, hall⟩ := hall
    cases heq
    refine Makes.bind (makes_nfaEmpty hw) fun empty ctx₁ h₁ => ?_
    obtain ⟨hw₁, hx₁, hempty⟩ := h₁
    refine Makes.map (makes_nfaAlternative hw₁ (hall.extend hx₁ (Set.empty_disjoint R')) hempty
      (hall.disjoint fun _ hs => hs.ge)) fun nfa' ctx₂ h₂ => ?_
    exact ⟨h₂.1, _, _, rfl, h₂.2.2⟩

theorem atLeast_one_sup_one (L : Spans Input) : atLeast L 1 ⊔ 1 = atLeast L 0 := by
  rw [atLeast_eq 0, pow_zero, sup_comm]

theorem upTo_sup_one (L : Spans Input) (n : ℕ) : upTo L n ⊔ 1 = upTo L n :=
  sup_eq_left.mpr ((pow_zero L).ge.trans (pow_le_upTo (Nat.zero_le n)))

theorem makes_nfaIterate (hw : ctx.WellFormed) (nfa : Fragment)
    (hi : nfa.initial < ctx.states.length) (hf : nfa.final < ctx.states.length) (min max : ℤ)
    (h0 : 0 ≤ min) (hmax : max = -1 ∨ min ≤ max) :
    Makes (nfaIterate nfa min max) ctx fun r ctx' => ctx'.WellFormed ∧
      Iterated (iterated (ctx.language nfa) min max) r ctx' := by
  have h : Denotes ctx {s | s < ctx.states.length} nfa (ctx.language nfa) :=
    ⟨hw.closed, fun _ hs => hs, hi, hf, rfl⟩
  refine Makes.bind (h.makes_copy hw) fun templ ctx₁ h₁ => ?_
  obtain ⟨hw₁, hx₁, Rt, hnew, ht⟩ := h₁
  have h₁ := h.extend hx₁ (Set.empty_disjoint _)
  have hdisj := h.disjoint hnew
  generalize ctx.language nfa = L at h₁ ht ⊢
  dsimp only
  rw [if_neg h0.not_gt]
  split
  · -- nothing at all
    rename_i hzero
    obtain ⟨rfl, rfl⟩ := hzero
    refine Makes.map (makes_nfaEmpty hw₁) fun empty ctx₂ h₂ => ⟨h₂.1, _, 1, ?_, h₂.2.2⟩
    rfl
  · rename_i hzero
    refine Makes.bind (makes_required hw₁ h₁ ht hdisj) fun all ctx₂ h₂ => ?_
    obtain ⟨hw₂, ht₂, hall⟩ := h₂
    have hphase : Makes (if 0 ≤ max then iterateBounded templ (max - min).toNat all
        else iterateUnbounded templ all) ctx₂ fun r ctx' => ctx'.WellFormed ∧
        Iterated (if 0 ≤ max then
          if 2 ≤ min then some (between L min.toNat max.toNat) else if max = min then none
            else some (upTo L (2 ^ (max - min - 1).toNat))
          else if 2 ≤ min then some (atLeast L (min.toNat + 1)) else some (atLeast L 1)) r ctx' := by
      by_cases hpos : 0 ≤ max
      · rw [if_pos hpos, if_pos hpos]
        exact makes_bounded hw₂ ht₂ hall h0 (by omega)
      · rw [if_neg hpos, if_neg hpos]
        exact makes_unbounded hw₂ ht₂ hall h0
    refine Makes.bind hphase fun r ctx₃ h₃ => ?_
    obtain ⟨hw₃, hr⟩ := h₃
    unfold iterated
    by_cases hmin : min = 0
    · subst hmin
      rw [if_pos rfl]
      by_cases hpos : 0 ≤ max
      · rw [if_pos hpos, if_neg (by omega), if_neg (by omega)] at hr
        rw [if_neg (by omega), if_neg (by omega), if_neg (by omega), if_neg (by omega)]
        have hnone := makes_allowNone hw₃ hr
        rwa [upTo_sup_one] at hnone
      · rw [if_neg hpos, if_neg (by omega)] at hr
        rw [if_pos (by omega), if_neg (by omega)]
        have hnone := makes_allowNone hw₃ hr
        rwa [atLeast_one_sup_one] at hnone
    · rw [if_neg hmin]
      refine Makes.pure ⟨hw₃, ?_⟩
      by_cases hpos : 0 ≤ max
      · rw [if_pos hpos] at hr
        rw [if_neg (by omega)]
        by_cases htwo : 2 ≤ min
        · rwa [if_pos htwo] at hr ⊢
        · rw [if_neg htwo] at hr ⊢
          rwa [if_neg (by omega)]
      · rw [if_neg hpos] at hr
        rw [if_pos (by omega)]
        by_cases htwo : 2 ≤ min
        · rwa [if_pos htwo] at hr ⊢
        · rw [if_neg htwo] at hr ⊢
          rwa [show min.toNat = 1 by omega]

/-! ## The numbers asked for -/

/-- The union of the powers from `min` to `max`, or of all from `min` on if `max` is -1. -/
def repetitions (L : Spans Input) (min max : ℤ) : Spans Input :=
  ⨆ k : ℕ, ⨆ (_ : min ≤ k ∧ (max = -1 ∨ (k : ℤ) ≤ max)), L ^ k

theorem repetitions_unbounded (h0 : 0 ≤ min) : repetitions L min (-1) = atLeast L min.toNat := by
  refine iSup_congr fun k => iSup_congr_Prop ?_ fun _ => rfl
  omega

theorem repetitions_bounded (h0 : 0 ≤ min) (hmax : 0 ≤ max) :
    repetitions L min max = between L min.toNat max.toNat := by
  refine iSup_congr fun k => iSup_congr_Prop ?_ fun _ => rfl
  omega

/-- How many optional repetitions doubling leads to for a lower bound of one. -/
def doubled (n : ℕ) : ℕ :=
  2 ^ (n - 2)

theorem doubled_lt_iff {n : ℕ} (hn : 2 ≤ n) : doubled n < n ↔ n < 4 := by
  unfold doubled
  constructor
  · intro h
    by_contra hge
    obtain ⟨m, rfl⟩ := Nat.exists_eq_add_of_le (Nat.le_of_not_lt hge)
    have hpow : m < 2 ^ m := Nat.lt_two_pow_self
    rw [show 4 + m - 2 = m + 2 by omega, pow_add] at h
    omega
  · intro h
    obtain rfl | rfl : n = 2 ∨ n = 3 := by omega
    all_goals decide

theorem doubled_eq_iff {n : ℕ} (hn : 2 ≤ n) : doubled n = n ↔ n = 4 := by
  constructor
  · intro h
    by_contra hne
    have hge : ¬n < 4 := fun hlt => absurd ((doubled_lt_iff hn).mpr hlt) (by omega)
    obtain ⟨m, rfl⟩ := Nat.exists_eq_add_of_le (show 5 ≤ n by omega)
    have hpow : m < 2 ^ m := Nat.lt_two_pow_self
    unfold doubled at h
    rw [show 5 + m - 2 = m + 3 by omega, pow_add] at h
    omega
  · rintro rfl
    rfl

/-- Where the numbers of repetitions alone do not make the result what they ask for, the language has
to: `nfa_iterate` is exact without an upper bound if at most one repetition is required, or if the
least number of repetitions is matched by more; with one, if at least two are required, or none and at
most two are allowed, or more are nothing new.  If one is required and an upper bound is given, what
is repeated has to match nothing at all as well. -/
def IterationExact (L : Spans Input) (min max : ℤ) : Prop :=
  if max = -1 then min ≤ 1 ∨ L ^ min.toNat ≤ atLeast L (min.toNat + 1)
  else if 2 ≤ min then True
  else if min = 0 then max ≤ 2 ∨ L ^ (max.toNat + 1) ≤ upTo L max.toNat
  else 1 < max ∧ 1 ≤ L ∧
    (max = 4 ∨ L ^ (Nat.min max.toNat (doubled max.toNat) + 1) ≤
      L ^ Nat.min max.toNat (doubled max.toNat))

theorem upTo_doubled_iff (hL : L.Forward) {n : ℕ} (hn : 2 ≤ n) :
    upTo L (doubled n) = between L 1 n ↔ 1 ≤ L ∧
      (n = 4 ∨ L ^ (Nat.min n (doubled n) + 1) ≤ L ^ Nat.min n (doubled n)) := by
  constructor
  · intro heq
    have hone : 1 ≤ L := by
      intro x i j hij
      have hij : i = j := hij
      subst hij
      have hzero : (1 : Spans Input) ≤ between L 1 n := by
        rw [← heq, ← pow_zero L]
        exact pow_le_upTo (Nat.zero_le _)
      have hmem := Spans.le_iff.mp hzero x i i rfl
      obtain ⟨k, hk⟩ := Spans.iSup_iff.mp hmem
      obtain ⟨hrange, hpow⟩ := Spans.iSup_iff.mp hk
      exact hL.of_pow_self (Nat.one_le_iff_ne_zero.mp hrange.1) hpow
    rw [upTo_of_one_le hone, between_of_one_le hone (by omega)] at heq
    refine ⟨hone, ?_⟩
    rcases Nat.lt_trichotomy (doubled n) n with hlt | heqn | hgt
    · rw [show Nat.min n (doubled n) = doubled n from Nat.min_eq_right hlt.le]
      exact .inr ((pow_le_pow_right' hone hlt).trans heq.ge)
    · exact .inl ((doubled_eq_iff hn).mp heqn)
    · rw [show Nat.min n (doubled n) = n from Nat.min_eq_left hgt.le]
      exact .inr ((pow_le_pow_right' hone hgt).trans heq.le)
  · rintro ⟨hone, hcase⟩
    rw [upTo_of_one_le hone, between_of_one_le hone (by omega)]
    rcases hcase with rfl | hstable
    · rfl
    · rw [pow_of_stable hone hstable (Nat.min_le_right _ _),
        pow_of_stable hone hstable (Nat.min_le_left _ _)]

theorem upTo_pow_iff {n : ℕ} (hn : 3 ≤ n) :
    upTo L (2 ^ (n - 1)) = upTo L n ↔ L ^ (n + 1) ≤ upTo L n := by
  have hle : n + 1 ≤ 2 ^ (n - 1) := by
    obtain ⟨m, rfl⟩ := Nat.exists_eq_add_of_le hn
    have hpow : m < 2 ^ m := Nat.lt_two_pow_self
    rw [show 3 + m - 1 = m + 2 by omega, pow_add]
    omega
  constructor
  · intro heq
    rw [← heq]
    exact pow_le_upTo hle
  · intro hstable
    exact upTo_of_stable hstable ((Nat.le_succ n).trans hle)

theorem iterated_eq_iff (hL : L.Forward) (h0 : 0 ≤ min) (hmax : max = -1 ∨ min ≤ max) :
    iterated L min max = some (repetitions L min max) ↔ IterationExact L min max := by
  unfold iterated IterationExact
  by_cases hneg : max = -1
  · subst hneg
    rw [if_pos (by decide), if_pos rfl, Option.some_inj, repetitions_unbounded h0]
    by_cases htwo : 2 ≤ min
    · rw [if_pos htwo, atLeast_eq min.toNat, right_eq_sup]
      exact (or_iff_right (by omega)).symm
    · rw [if_neg htwo]
      exact iff_of_true rfl (.inl (by omega))
  · have hle : min ≤ max := hmax.resolve_left hneg
    rw [if_neg (show ¬max < 0 by omega), if_neg hneg, repetitions_bounded h0 (h0.trans hle)]
    by_cases htwo : 2 ≤ min
    · rw [if_pos htwo, if_pos htwo]
      exact iff_of_true rfl trivial
    · rw [if_neg htwo, if_neg htwo]
      by_cases hmin : min = 0
      · subst hmin
        rw [if_pos rfl]
        by_cases hzero : max = 0
        · subst hzero
          rw [if_pos rfl]
          exact iff_of_true (congrArg some (between_self 0).symm) (.inl (by decide))
        · rw [if_neg hzero, if_neg hzero, Option.some_inj, Int.toNat_zero, ← upTo_eq_between,
            show (max - 0 - 1).toNat = max.toNat - 1 by omega]
          by_cases hthree : max ≤ 2
          · refine iff_of_true ?_ (.inl hthree)
            obtain rfl | rfl : max = 1 ∨ max = 2 := by omega
            all_goals rfl
          · rw [upTo_pow_iff (show 3 ≤ max.toNat by omega)]
            exact (or_iff_right hthree).symm
      · rw [if_neg hmin, if_neg (show max ≠ 0 by omega)]
        by_cases hone : max = min
        · rw [if_pos hone]
          exact iff_of_false nofun fun hcon => absurd hcon.1 (by omega)
        · rw [if_neg hone, Option.some_inj, show min.toNat = 1 by omega,
            show 2 ^ (max - min - 1).toNat = doubled max.toNat by
              rw [doubled, show (max - min - 1).toNat = max.toNat - 2 by omega],
            upTo_doubled_iff hL (show 2 ≤ max.toNat by omega),
            show (max.toNat = 4 ↔ max = 4) by omega]
          exact (and_iff_right (by omega)).symm

end

/-- For every NFA and all bounds: `nfa_iterate` yields an NFA that matches the repetitions that the
bounds ask for, if and only if the condition holds. -/
theorem nfaIterate_repetitions_iff (ctx : NfaContext) (hw : ctx.WellFormed) (nfa : Fragment)
    (hi : nfa.initial < ctx.states.length) (hf : nfa.final < ctx.states.length) (min max : ℤ)
    (h0 : 0 ≤ min) (hmax : max = -1 ∨ min ≤ max) :
    (∃ nfa' ctx', nfaIterate nfa min max ctx = some (some nfa', ctx') ∧
      ctx'.language nfa' = repetitions (ctx.language nfa) min max) ↔
        IterationExact (ctx.language nfa) min max := by
  obtain ⟨r, ctx', hrun, -, hr⟩ := makes_nfaIterate hw nfa hi hf min max h0 hmax
  rw [← iterated_eq_iff (language_forward nfa) h0 hmax]
  constructor
  · rintro ⟨nfa', ctx'', hrun', hlang⟩
    rw [hrun] at hrun'
    cases hrun'
    obtain ⟨R, L', heq, hden⟩ := hr
    rw [heq, ← hlang, hden.language_eq]
  · intro heq
    rw [heq] at hr
    cases r with
    | none => exact absurd hr (Option.some_ne_none _)
    | some nfa' =>
      obtain ⟨R, L', hL', hden⟩ := hr
      cases hL'
      exact ⟨nfa', ctx', hrun, hden.language_eq⟩

/-- The context with the NFA for the letter `a`, from state 0 to state 1. -/
def letterContext : NfaContext where
  dontAnchor := false
  nmatch := 127
  maxTag := -1
  maxCapture := 0
  maxAccept := 0
  ccls := ⟨[⟨∅, some [⟨97, 98⟩]⟩], fun _ => none⟩
  states := [⟨[], [⟨0, 1, none⟩]⟩, ⟨[], []⟩]

theorem letterContext_wellFormed : letterContext.WellFormed := by
  have hall : ∀ s : ℕ, ∀ t ∈ (letterContext.state s).trans, t.ccl < 1 ∧ t.succ < 2 := by
    intro s t ht
    match s with
    | 0 =>
      rw [List.mem_singleton.mp ht]
      decide
    | 1 => cases ht
    | _ + 2 => cases ht
  exact ⟨fun _ h => (nomatch h), fun s t ht => (hall s t ht).1, fun s t ht => (hall s t ht).2⟩

/-- `a{0,2}` -/
theorem nfaIterate_repetitions_iff_letter :
    (∃ nfa' ctx', nfaIterate ⟨0, 1, none⟩ 0 2 letterContext = some (some nfa', ctx') ∧
      ctx'.language nfa' = repetitions (letterContext.language ⟨0, 1, none⟩) 0 2) ↔
        IterationExact (letterContext.language ⟨0, 1, none⟩) 0 2 :=
  nfaIterate_repetitions_iff letterContext letterContext_wellFormed ⟨0, 1, none⟩ (by decide)
    (by decide) 0 2 le_rfl (.inr (by decide))

/-- `a{1}` -/
theorem nfaIterate_null : ¬∀ ctx : NfaContext, ctx.WellFormed → ∀ nfa : Fragment,
    nfa.initial < ctx.states.length → nfa.final < ctx.states.length → ∀ min max : ℤ, 0 ≤ min →
    (max = -1 ∨ min ≤ max) → ∃ nfa' ctx', nfaIterate nfa min max ctx = some (some nfa', ctx') ∧
      ctx'.language nfa' = repetitions (ctx.language nfa) min max := by
  intro h
  obtain ⟨nfa', ctx', hrun, -⟩ := h letterContext letterContext_wellFormed ⟨0, 1, none⟩ (by decide)
    (by decide) 1 1 (by decide) (.inr le_rfl)
  obtain ⟨r, ctx'', hrun', -, hr⟩ := makes_nfaIterate letterContext_wellFormed ⟨0, 1, none⟩
    (by decide) (by decide) 1 1 (by decide) (.inr le_rfl)
  rw [hrun] at hrun'
  cases hrun'
  obtain ⟨R, L', hnull, -⟩ := hr
  simp [iterated] at hnull

end Hilti.Justrx
