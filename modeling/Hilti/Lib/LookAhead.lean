import Mathlib.Computability.ContextFreeGrammar

/-!
# Nullable strings, first and follow symbols of a context-free grammar

The rules are stated over strings of symbols, so that the usual rules for a
nonterminal are the ones for a string of length one.  Each of the three notions
is then the derivation property it stands for.
-/

namespace Hilti.Lib

open Relation

set_option autoImplicit false

variable {T N : Type*}

/-- One step of rewriting by a rule of `R`. -/
def Produces (R : Set (ContextFreeRule T N)) (s s' : List (Symbol T N)) : Prop :=
  ∃ r ∈ R, r.Rewrites s s'

/-- Any number of steps of rewriting by rules of `R`. -/
def Derives (R : Set (ContextFreeRule T N)) :
    List (Symbol T N) → List (Symbol T N) → Prop :=
  ReflTransGen (Produces R)

/-- Strings all of whose symbols rewrite to nothing. -/
inductive Nullable (R : Set (ContextFreeRule T N)) : List (Symbol T N) → Prop
  | nil : Nullable R []
  | cons {A : N} {rhs s : List (Symbol T N)} (hr : ⟨A, rhs⟩ ∈ R)
      (hrhs : Nullable R rhs) (hs : Nullable R s) : Nullable R (.nonterminal A :: s)

/-- `First R s t`: the terminal `t` starts a string derived from `s`. -/
inductive First (R : Set (ContextFreeRule T N)) : List (Symbol T N) → T → Prop
  | terminal (t : T) (s : List (Symbol T N)) : First R (.terminal t :: s) t
  | expand {A : N} {rhs : List (Symbol T N)} {t : T} (s : List (Symbol T N))
      (hr : ⟨A, rhs⟩ ∈ R) (hrhs : First R rhs t) : First R (.nonterminal A :: s) t
  | skip {A : N} {s : List (Symbol T N)} {t : T}
      (hA : Nullable R [.nonterminal A]) (hs : First R s t) : First R (.nonterminal A :: s) t

/-- `Follow R A t`: the terminal `t` comes directly after `A`. -/
inductive Follow (R : Set (ContextFreeRule T N)) : N → T → Prop
  | next {A B : N} {u v : List (Symbol T N)} {t : T}
      (hr : ⟨B, u ++ .nonterminal A :: v⟩ ∈ R) (hv : First R v t) : Follow R A t
  | last {A B : N} {u v : List (Symbol T N)} {t : T}
      (hr : ⟨B, u ++ .nonterminal A :: v⟩ ∈ R) (hv : Nullable R v)
      (hB : Follow R B t) : Follow R A t

section

variable {R : Set (ContextFreeRule T N)}

/-! ## Derivations -/

theorem produces_rule {A : N} {rhs : List (Symbol T N)} (hr : ⟨A, rhs⟩ ∈ R)
    (u v : List (Symbol T N)) :
    Produces R (u ++ .nonterminal A :: v) (u ++ rhs ++ v) := by
  refine ⟨_, hr, ?_⟩
  simpa using ContextFreeRule.rewrites_of_exists_parts ⟨A, rhs⟩ u v

theorem derives_rule {A : N} {rhs : List (Symbol T N)} (hr : ⟨A, rhs⟩ ∈ R)
    (u v : List (Symbol T N)) :
    Derives R (u ++ .nonterminal A :: v) (u ++ rhs ++ v) :=
  ReflTransGen.single (produces_rule hr u v)

theorem produces_iff (s s' : List (Symbol T N)) :
    Produces R s s' ↔ ∃ u A v rhs, ⟨A, rhs⟩ ∈ R ∧
      s = u ++ .nonterminal A :: v ∧ s' = u ++ rhs ++ v := by
  constructor
  · rintro ⟨r, hr, hrw⟩
    obtain ⟨u, v, rfl, rfl⟩ := hrw.exists_parts
    exact ⟨u, r.input, v, r.output, hr, by simp, rfl⟩
  · rintro ⟨u, A, v, rhs, hr, rfl, rfl⟩
    exact produces_rule hr u v

theorem Derives.trans {s s' s'' : List (Symbol T N)} (h : Derives R s s')
    (h' : Derives R s' s'') : Derives R s s'' :=
  ReflTransGen.trans h h'

theorem Derives.append_left {s s' : List (Symbol T N)} (h : Derives R s s')
    (u : List (Symbol T N)) : Derives R (u ++ s) (u ++ s') :=
  ReflTransGen.lift (u ++ ·) (fun _ _ ⟨r, hr, hrw⟩ => ⟨r, hr, hrw.append_left u⟩) _ _ h

theorem Derives.append_right {s s' : List (Symbol T N)} (h : Derives R s s')
    (u : List (Symbol T N)) : Derives R (s ++ u) (s' ++ u) :=
  ReflTransGen.lift (· ++ u) (fun _ _ ⟨r, hr, hrw⟩ => ⟨r, hr, hrw.append_right u⟩) _ _ h

theorem derives_append {s₁ s₁' s₂ s₂' : List (Symbol T N)} (h₁ : Derives R s₁ s₁')
    (h₂ : Derives R s₂ s₂') : Derives R (s₁ ++ s₂) (s₁' ++ s₂') :=
  (h₁.append_right s₂).trans (h₂.append_left s₁')

theorem append_eq_append_cons {α : Type*} {s₁ s₂ u v : List α} {x : α}
    (h : s₁ ++ s₂ = u ++ x :: v) :
    (∃ v₁, s₁ = u ++ x :: v₁ ∧ v = v₁ ++ s₂) ∨ (∃ u₂, s₂ = u₂ ++ x :: v ∧ u = s₁ ++ u₂) := by
  rcases List.append_eq_append_iff.mp h with ⟨c, rfl, hc⟩ | ⟨c, rfl, hc⟩
  · exact .inr ⟨c, hc, rfl⟩
  · cases c with
    | nil => exact .inr ⟨[], by simpa using hc.symm, by simp⟩
    | cons y c =>
      rw [List.cons_append, List.cons.injEq] at hc
      obtain ⟨rfl, rfl⟩ := hc
      exact .inl ⟨c, rfl, rfl⟩

theorem derives_append_split {s₁ s₂ w : List (Symbol T N)} (h : Derives R (s₁ ++ s₂) w) :
    ∃ w₁ w₂, w = w₁ ++ w₂ ∧ Derives R s₁ w₁ ∧ Derives R s₂ w₂ := by
  induction h with
  | refl => exact ⟨s₁, s₂, rfl, ReflTransGen.refl, ReflTransGen.refl⟩
  | tail _ hstep ih =>
    obtain ⟨w₁, w₂, rfl, h₁, h₂⟩ := ih
    obtain ⟨u, A, v, rhs, hr, hs, rfl⟩ := (produces_iff _ _).mp hstep
    rcases append_eq_append_cons hs with ⟨v₁, rfl, rfl⟩ | ⟨u₂, rfl, rfl⟩
    · exact ⟨u ++ rhs ++ v₁, w₂, by simp, h₁.trans (derives_rule hr u v₁), h₂⟩
    · exact ⟨w₁, u₂ ++ rhs ++ v, by simp, h₁, h₂.trans (derives_rule hr u₂ v)⟩

/-! ## Nullable strings -/

theorem Nullable.append {s₁ s₂ : List (Symbol T N)} (h₁ : Nullable R s₁)
    (h₂ : Nullable R s₂) : Nullable R (s₁ ++ s₂) := by
  induction h₁ with
  | nil => exact h₂
  | cons hr hrhs _ _ ih => exact .cons hr hrhs ih

theorem nullable_append (s₁ s₂ : List (Symbol T N)) :
    Nullable R (s₁ ++ s₂) ↔ Nullable R s₁ ∧ Nullable R s₂ := by
  constructor
  · intro h
    induction s₁ with
    | nil => exact ⟨.nil, h⟩
    | cons x s₁ ih =>
      cases h with
      | cons hr hrhs hs => exact ⟨.cons hr hrhs (ih hs).1, (ih hs).2⟩
  · exact fun h => h.1.append h.2

theorem nullable_cons (x : Symbol T N) (s : List (Symbol T N)) :
    Nullable R (x :: s) ↔ Nullable R [x] ∧ Nullable R s :=
  nullable_append [x] s

theorem nullable_of_rule {A : N} {rhs : List (Symbol T N)} (hr : ⟨A, rhs⟩ ∈ R)
    (h : Nullable R rhs) : Nullable R [.nonterminal A] :=
  .cons hr h .nil

theorem not_nullable_terminal (t : T) (s : List (Symbol T N)) :
    ¬ Nullable R (.terminal t :: s) := by
  rintro ⟨⟩

theorem Nullable.of_produces {s s' : List (Symbol T N)} (hstep : Produces R s s')
    (h : Nullable R s') : Nullable R s := by
  obtain ⟨u, A, v, rhs, hr, rfl, rfl⟩ := (produces_iff _ _).mp hstep
  simp only [nullable_append] at h
  exact h.1.1.append (.cons hr h.1.2 h.2)

theorem Nullable.derives {s : List (Symbol T N)} (h : Nullable R s) : Derives R s [] := by
  induction h with
  | nil => exact ReflTransGen.refl
  | @cons A rhs s hr _ _ ihrhs ihs =>
    have hA : Derives R [.nonterminal A] [] := by
      have hr' := derives_rule hr [] []
      rw [List.nil_append, List.nil_append, List.append_nil] at hr'
      exact hr'.trans ihrhs
    simpa using derives_append hA ihs

theorem nullable_iff_derives (s : List (Symbol T N)) : Nullable R s ↔ Derives R s [] := by
  refine ⟨Nullable.derives, fun h => ?_⟩
  induction h using ReflTransGen.head_induction_on with
  | refl => exact .nil
  | head hstep _ ih => exact ih.of_produces hstep

/-! ## First symbols -/

theorem First.append_right {s₁ : List (Symbol T N)} {t : T} (h : First R s₁ t)
    (s₂ : List (Symbol T N)) : First R (s₁ ++ s₂) t := by
  induction h with
  | terminal t s => exact .terminal t _
  | expand s hr hrhs _ => exact .expand _ hr hrhs
  | skip hA _ ih => exact .skip hA ih

theorem First.append_left {s₁ s₂ : List (Symbol T N)} {t : T} (h₁ : Nullable R s₁)
    (h : First R s₂ t) : First R (s₁ ++ s₂) t := by
  induction h₁ with
  | nil => exact h
  | cons hr hrhs _ _ ih => exact .skip (nullable_of_rule hr hrhs) ih

theorem first_append (s₁ s₂ : List (Symbol T N)) (t : T) :
    First R (s₁ ++ s₂) t ↔ First R s₁ t ∨ (Nullable R s₁ ∧ First R s₂ t) := by
  constructor
  · intro h
    induction s₁ with
    | nil => exact .inr ⟨.nil, h⟩
    | cons x s₁ ih =>
      cases h with
      | terminal t s => exact .inl (.terminal t _)
      | expand s hr hrhs => exact .inl (.expand _ hr hrhs)
      | skip hA hs =>
        rcases ih hs with h | ⟨hn, h⟩
        · exact .inl (.skip hA h)
        · exact .inr ⟨(nullable_cons _ _).mpr ⟨hA, hn⟩, h⟩
  · rintro (h | ⟨hn, h⟩)
    · exact h.append_right s₂
    · exact h.append_left hn

theorem not_first_nil (t : T) : ¬ First R [] t := by
  rintro ⟨⟩

theorem First.of_produces {s s' : List (Symbol T N)} {t : T} (hstep : Produces R s s')
    (h : First R s' t) : First R s t := by
  obtain ⟨u, A, v, rhs, hr, rfl, rfl⟩ := (produces_iff _ _).mp hstep
  simp only [first_append, nullable_append] at h
  rcases h with (h | ⟨hu, h⟩) | ⟨⟨hu, hrhs⟩, h⟩
  · exact h.append_right _
  · exact First.append_left hu (.expand v hr h)
  · exact First.append_left hu (.skip (nullable_of_rule hr hrhs) h)

theorem First.derives {s : List (Symbol T N)} {t : T} (h : First R s t) :
    ∃ w, Derives R s (.terminal t :: w) := by
  induction h with
  | terminal t s => exact ⟨s, ReflTransGen.refl⟩
  | @expand A rhs t s hr _ ih =>
    obtain ⟨w, hw⟩ := ih
    refine ⟨w ++ s, (derives_rule hr [] s).trans ?_⟩
    exact hw.append_right s
  | @skip A s t hA _ ih =>
    obtain ⟨w, hw⟩ := ih
    exact ⟨w, derives_append hA.derives hw⟩

/-- A terminal is a first symbol of `s` exactly when some string derived from
`s` starts with it. -/
theorem first_iff_derives (s : List (Symbol T N)) (t : T) :
    First R s t ↔ ∃ w, Derives R s (.terminal t :: w) := by
  refine ⟨First.derives, ?_⟩
  rintro ⟨w, h⟩
  induction h using ReflTransGen.head_induction_on with
  | refl => exact .terminal t w
  | head hstep _ ih => exact ih.of_produces hstep

/-! ## Follow symbols -/

def Reached (R : Set (ContextFreeRule T N)) (start : N) : Prop :=
  ∀ r ∈ R, ∃ u v, Derives R [.nonterminal start] (u ++ .nonterminal r.input :: v)

def FollowOk (R : Set (ContextFreeRule T N)) (s : List (Symbol T N)) : Prop :=
  ∀ u A v t, s = u ++ .nonterminal A :: v → First R v t → Follow R A t

theorem FollowOk.produces {s s' : List (Symbol T N)} (hs : FollowOk R s)
    (hstep : Produces R s s') : FollowOk R s' := by
  obtain ⟨p, B, q, rhs, hr, rfl, rfl⟩ := (produces_iff _ _).mp hstep
  intro u A v t heq hv
  rw [List.append_assoc] at heq
  rcases append_eq_append_cons heq with ⟨v₁, rfl, rfl⟩ | ⟨u₂, heq₂, rfl⟩
  · -- `A` stands before the rewritten symbol
    refine hs u A (v₁ ++ .nonterminal B :: q) t (by simp) ?_
    refine hv.of_produces ?_
    simpa using produces_rule hr v₁ q
  rcases append_eq_append_cons heq₂ with ⟨v₁, rfl, rfl⟩ | ⟨u₃, rfl, rfl⟩
  · -- `A` stands in the right-hand side
    rcases (first_append v₁ q t).mp hv with h | ⟨hn, h⟩
    · exact .next hr h
    · exact .last hr hn (hs p B q t rfl h)
  · exact hs (p ++ .nonterminal B :: u₃) A v t (by simp) hv

theorem followOk_of_derives {start : N} {s : List (Symbol T N)}
    (h : Derives R [.nonterminal start] s) : FollowOk R s := by
  induction h with
  | refl =>
    intro u A v t heq hv
    cases u with
    | nil =>
      obtain rfl : v = [] := by
        rw [List.nil_append, List.cons.injEq] at heq
        exact heq.2.symm
      exact absurd hv (not_first_nil t)
    | cons x u => simp at heq
  | tail _ hstep ih => exact ih.produces hstep

theorem Follow.derives {start : N} (hR : Reached R start) {A : N} {t : T} (h : Follow R A t) :
    ∃ u v, Derives R [.nonterminal start] (u ++ .nonterminal A :: .terminal t :: v) := by
  induction h with
  | @next A B u v t hr hv =>
    obtain ⟨p, q, hpq⟩ := hR _ hr
    obtain ⟨w, hw⟩ := hv.derives
    refine ⟨p ++ u, w ++ q, hpq.trans ((derives_rule hr p q).trans ?_)⟩
    have h := (hw.append_right q).append_left (p ++ u ++ [.nonterminal A])
    simp only [List.append_assoc, List.cons_append, List.nil_append] at h ⊢
    exact h
  | @last A B u v t hr hv _ ih =>
    obtain ⟨p, q, hpq⟩ := ih
    refine ⟨p ++ u, q, hpq.trans ((derives_rule hr p (.terminal t :: q)).trans ?_)⟩
    have h := (hv.derives.append_right (.terminal t :: q)).append_left
      (p ++ u ++ [.nonterminal A])
    simp only [List.append_assoc, List.cons_append, List.nil_append] at h ⊢
    exact h

/-- In a grammar whose rules are all reached, a terminal is a follow symbol of
`A` exactly when it comes directly after `A` in a string of the grammar. -/
theorem follow_iff_derives {start : N} (hR : Reached R start) (A : N) (t : T) :
    Follow R A t ↔
      ∃ u v, Derives R [.nonterminal start] (u ++ .nonterminal A :: .terminal t :: v) := by
  refine ⟨fun h => h.derives hR, fun ⟨u, v, h⟩ => ?_⟩
  exact followOk_of_derives h u A _ t rfl (.terminal t v)

/-! ## The rules of complete derivations -/

/-- A word derives from the string. -/
def Completes (R : Set (ContextFreeRule T N)) (s : List (Symbol T N)) : Prop :=
  ∃ w : List T, Derives R s (w.map .terminal)

/-- The rules that some derivation of a word from `start` applies. -/
def Used (R : Set (ContextFreeRule T N)) (start : N) : Set (ContextFreeRule T N) :=
  {r | r ∈ R ∧ ∃ u v, Derives R [.nonterminal start] (u ++ .nonterminal r.input :: v) ∧
    Completes R (u ++ r.output ++ v)}

/-- In some derivation of a word from `start`, the rule `A → rhs` is applied where
the rest of the word starts with `t`. -/
def NextToken (R : Set (ContextFreeRule T N)) (start A : N) (rhs : List (Symbol T N))
    (t : T) : Prop :=
  ⟨A, rhs⟩ ∈ R ∧ ∃ u v, Derives R [.nonterminal start] (u ++ .nonterminal A :: v) ∧
    Completes R u ∧ ∃ w : List T, Derives R (rhs ++ v) (.terminal t :: w.map .terminal)

theorem Derives.mono {R R' : Set (ContextFreeRule T N)} (hsub : R ⊆ R')
    {s s' : List (Symbol T N)} (h : Derives R s s') : Derives R' s s' :=
  ReflTransGen.mono (fun _ _ ⟨r, hr, hrw⟩ => ⟨r, hsub hr, hrw⟩) _ _ h

theorem Nullable.mono {R R' : Set (ContextFreeRule T N)} (hsub : R ⊆ R')
    {s : List (Symbol T N)} (h : Nullable R s) : Nullable R' s := by
  induction h with
  | nil => exact .nil
  | cons hr _ _ ihrhs ihs => exact .cons (hsub hr) ihrhs ihs

theorem First.mono {R R' : Set (ContextFreeRule T N)} (hsub : R ⊆ R')
    {s : List (Symbol T N)} {t : T} (h : First R s t) : First R' s t := by
  induction h with
  | terminal t s => exact .terminal t s
  | expand s hr _ ih => exact .expand s (hsub hr) ih
  | skip hA _ ih => exact .skip (hA.mono hsub) ih

theorem Follow.mono {R R' : Set (ContextFreeRule T N)} (hsub : R ⊆ R') {A : N} {t : T}
    (h : Follow R A t) : Follow R' A t := by
  induction h with
  | next hr hv => exact .next (hsub hr) (hv.mono hsub)
  | last hr hv _ ih => exact .last (hsub hr) (hv.mono hsub) ih

theorem used_subset (start : N) : Used R start ⊆ R :=
  fun _ h => h.1

theorem Completes.append {s₁ s₂ : List (Symbol T N)} (h₁ : Completes R s₁)
    (h₂ : Completes R s₂) : Completes R (s₁ ++ s₂) := by
  obtain ⟨w₁, h₁⟩ := h₁
  obtain ⟨w₂, h₂⟩ := h₂
  exact ⟨w₁ ++ w₂, by simpa using derives_append h₁ h₂⟩

theorem Completes.split {s₁ s₂ : List (Symbol T N)} (h : Completes R (s₁ ++ s₂)) :
    Completes R s₁ ∧ Completes R s₂ := by
  obtain ⟨w, h⟩ := h
  obtain ⟨x₁, x₂, heq, h₁, h₂⟩ := derives_append_split h
  obtain ⟨w₁, w₂, -, rfl, rfl⟩ := List.map_eq_append_iff.mp heq
  exact ⟨⟨w₁, h₁⟩, ⟨w₂, h₂⟩⟩

theorem Completes.of_derives {s s' : List (Symbol T N)} (h : Derives R s s')
    (hs' : Completes R s') : Completes R s := by
  obtain ⟨w, hw⟩ := hs'
  exact ⟨w, h.trans hw⟩

theorem derives_terminal_cons {t : T} {s s' : List (Symbol T N)}
    (h : Derives R (.terminal t :: s) s') : ∃ s'', s' = .terminal t :: s'' := by
  induction h with
  | refl => exact ⟨s, rfl⟩
  | tail _ hstep ih =>
    obtain ⟨s₁, rfl⟩ := ih
    obtain ⟨u, A, v, rhs, -, heq, rfl⟩ := (produces_iff _ _).mp hstep
    cases u with
    | nil => simp at heq
    | cons x u =>
      rw [List.cons_append, List.cons.injEq] at heq
      exact ⟨u ++ rhs ++ v, by simp [heq.1]⟩

/-- A string of the grammar that completes derives by the rules of complete
derivations. -/
theorem Derives.used_of_completes {start : N} {s : List (Symbol T N)}
    (h : Derives R [.nonterminal start] s) (hs : Completes R s) :
    Derives (Used R start) [.nonterminal start] s := by
  induction h with
  | refl => exact ReflTransGen.refl
  | tail hd hstep ih =>
    obtain ⟨u, A, v, rhs, hr, rfl, rfl⟩ := (produces_iff _ _).mp hstep
    have hprev := ih (.of_derives (derives_rule hr u v) hs)
    have hused : ⟨A, rhs⟩ ∈ Used R start := ⟨hr, u, v, hd, hs⟩
    exact hprev.trans (derives_rule hused u v)

/-- What derives a word inside a string of the grammar does so by the rules of
complete derivations. -/
theorem Derives.used_of_context {start : N} {s : List (Symbol T N)} {w : List T}
    (h : Derives R s (w.map .terminal)) {u v : List (Symbol T N)}
    (hctx : Derives R [.nonterminal start] (u ++ s ++ v)) (hu : Completes R u)
    (hv : Completes R v) : Derives (Used R start) s (w.map .terminal) := by
  induction h using ReflTransGen.head_induction_on with
  | refl => exact ReflTransGen.refl
  | head hstep hrest ih =>
    obtain ⟨a, A, b, rhs, hr, rfl, rfl⟩ := (produces_iff _ _).mp hstep
    have hstep' := (derives_rule hr (u ++ a) (b ++ v))
    have hctx' : Derives R [.nonterminal start] (u ++ a ++ .nonterminal A :: (b ++ v)) := by
      simpa using hctx
    have hcompl : Completes R (u ++ a ++ rhs ++ (b ++ v)) := by
      have := (hu.append ⟨w, hrest⟩).append hv
      simpa using this
    have hused : ⟨A, rhs⟩ ∈ Used R start := ⟨hr, u ++ a, b ++ v, hctx', hcompl⟩
    refine (derives_rule hused a b).trans (ih ?_)
    have := hctx'.trans hstep'
    simpa using this

theorem used_reached (start : N) : Reached (Used R start) start := by
  rintro ⟨A, rhs⟩ ⟨hr, u, v, hd, hc⟩
  exact ⟨u, v, hd.used_of_completes (.of_derives (derives_rule hr u v) hc)⟩

theorem completes_of_used {start : N} (hstart : Completes R [.nonterminal start])
    {s : List (Symbol T N)} (h : Derives (Used R start) [.nonterminal start] s) :
    Completes R s := by
  induction h with
  | refl => exact hstart
  | tail _ hstep ih =>
    obtain ⟨u, A, v, rhs, hr, rfl, rfl⟩ := (produces_iff _ _).mp hstep
    obtain ⟨-, u', v', -, hc⟩ := hr
    have hrhs : Completes R rhs := hc.split.1.split.2
    obtain ⟨hu, hv⟩ := ih.split
    have hv' : Completes R ([.nonterminal A] ++ v) := hv
    exact (hu.append hrhs).append hv'.split.2

/-- The tokens that may come next where a rule is applied are its look-ahead
symbols for the rules of complete derivations. -/
theorem nextToken_iff (start A : N) (rhs : List (Symbol T N)) (t : T) :
    NextToken R start A rhs t ↔ ⟨A, rhs⟩ ∈ Used R start ∧
      (First (Used R start) rhs t ∨
        (Nullable (Used R start) rhs ∧ Follow (Used R start) A t)) := by
  constructor
  · rintro ⟨hr, u, v, hd, hu, w, hw⟩
    have hw' : Derives R (rhs ++ v) ((t :: w).map .terminal) := hw
    have hstep : Derives R [.nonterminal start] (u ++ rhs ++ v) := hd.trans (derives_rule hr u v)
    have hc : Completes R (u ++ rhs ++ v) := by
      rw [List.append_assoc]
      exact hu.append ⟨_, hw'⟩
    refine ⟨⟨hr, u, v, hd, hc⟩, ?_⟩
    have hctx : Derives R [.nonterminal start] (u ++ (rhs ++ v) ++ []) := by simpa using hstep
    have hused := hw'.used_of_context hctx hu ⟨[], ReflTransGen.refl⟩
    have hfirst : First (Used R start) (rhs ++ v) t := (first_iff_derives _ t).mpr ⟨_, hused⟩
    rcases (first_append rhs v t).mp hfirst with h | ⟨hn, h⟩
    · exact .inl h
    · have hd' := hd.used_of_completes (.of_derives (derives_rule hr u v) hc)
      exact .inr ⟨hn, followOk_of_derives hd' u A v t rfl h⟩
  · rintro ⟨hr, hsel⟩
    obtain ⟨hrR, u, v, hd, hc⟩ := hr
    have hstart : Completes R [.nonterminal start] :=
      .of_derives (hd.trans (derives_rule hrR u v)) hc
    refine ⟨hrR, ?_⟩
    rcases hsel with h | ⟨hn, h⟩
    · obtain ⟨y, hy⟩ := h.derives
      have hd' := hd.used_of_completes (.of_derives (derives_rule hrR u v) hc)
      have hused : ⟨A, rhs⟩ ∈ Used R start := ⟨hrR, u, v, hd, hc⟩
      have hall : Derives (Used R start) [.nonterminal start] (u ++ (.terminal t :: y ++ v)) := by
        refine hd'.trans ((derives_rule hused u v).trans ?_)
        rw [List.append_assoc]
        exact (hy.append_right v).append_left u
      obtain ⟨-, w, hw⟩ := (completes_of_used hstart hall).split
      obtain ⟨z, hz⟩ := derives_terminal_cons hw
      obtain ⟨w', rfl⟩ : ∃ w', w = t :: w' := by
        cases w with
        | nil => simp at hz
        | cons a w =>
          obtain ⟨rfl, -⟩ : a = t ∧ w.map Symbol.terminal = z := by simpa using hz
          exact ⟨w, rfl⟩
      exact ⟨u, v, hd, hc.split.1.split.1, w',
        ((hy.mono (used_subset start)).append_right v).trans hw⟩
    · obtain ⟨u', v', hd'⟩ := h.derives (used_reached start)
      obtain ⟨hu', hrest⟩ := (completes_of_used hstart hd').split
      have hrest' : Completes R ([.nonterminal A, .terminal t] ++ v') := hrest
      obtain ⟨-, w, hw⟩ := hrest'.split
      refine ⟨u', .terminal t :: v', hd'.mono (used_subset start), hu', w, ?_⟩
      have hnil := (hn.derives.mono (used_subset start)).append_right (.terminal t :: v')
      exact hnil.trans (hw.append_left [.terminal t])

end

end Hilti.Lib
