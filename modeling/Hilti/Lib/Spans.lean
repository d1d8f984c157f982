import Mathlib.Logic.Relation
import Mathlib.Data.Set.Disjoint
import Hilti.Lib.Repetition

/-! # What expressions match

What an expression or a part of an automaton matches is, for each input, a relation between
positions: where it starts and where it ends.  With composition as the product these relations are a
quantale.  The rest is about paths in automata whose edges match something: what it means for them
that an automaton is extended, copied, or put together from others. -/

namespace Hilti.Lib

open Relation

set_option autoImplicit false

/-- For each input, from which position to which something matches. -/
def Spans (ι : Type) : Type := ι → ℕ → ℕ → Prop

variable {ι σ τ : Type}

namespace Spans

instance : CompleteLattice (Spans ι) :=
  inferInstanceAs (CompleteLattice (ι → ℕ → ℕ → Prop))

instance : Monoid (Spans ι) where
  mul r s := fun x i j => ∃ k, r x i k ∧ s x k j
  one := fun _ i j => i = j
  mul_assoc r s t := by
    funext x i j
    refine propext ⟨?_, ?_⟩
    · rintro ⟨l, ⟨k, hr, hs⟩, ht⟩
      exact ⟨k, hr, l, hs, ht⟩
    · rintro ⟨k, hr, l, hs, ht⟩
      exact ⟨l, ⟨k, hr, hs⟩, ht⟩
  one_mul r := by
    funext x i j
    refine propext ⟨?_, fun hr => ⟨i, rfl, hr⟩⟩
    rintro ⟨_, rfl, hr⟩
    exact hr
  mul_one r := by
    funext x i j
    refine propext ⟨?_, fun hr => ⟨j, hr, rfl⟩⟩
    rintro ⟨_, hr, rfl⟩
    exact hr

variable {r s : Spans ι} {x : ι} {i j : ℕ}

theorem mul_iff : (r * s) x i j ↔ ∃ k, r x i k ∧ s x k j := Iff.rfl

theorem one_iff : (1 : Spans ι) x i j ↔ i = j := Iff.rfl

theorem le_iff : r ≤ s ↔ ∀ x i j, r x i j → s x i j := Iff.rfl

theorem sSup_iff {S : Set (Spans ι)} : (sSup S) x i j ↔ ∃ r ∈ S, r x i j := by
  have hfun : ∀ T : Set (ι → ℕ → ℕ → Prop), (sSup T) x i j ↔ ∃ r ∈ T, r x i j := by
    intro T
    simp only [sSup_apply, iSup_apply, iSup_Prop_eq, Subtype.exists, exists_prop]
  exact hfun S

theorem iSup_iff {κ : Sort*} {f : κ → Spans ι} : (⨆ k, f k) x i j ↔ ∃ k, f k x i j := by
  rw [iSup, sSup_iff]
  exact Set.exists_range_iff

instance : IsQuantale (Spans ι) where
  mul_sSup_distrib r S := by
    funext x i j
    simp only [mul_iff, sSup_iff, iSup_iff, exists_prop, eq_iff_iff]
    constructor
    · rintro ⟨k, hr, s, hs, hsk⟩
      exact ⟨s, hs, k, hr, hsk⟩
    · rintro ⟨s, hs, k, hr, hsk⟩
      exact ⟨k, hr, s, hs, hsk⟩
  sSup_mul_distrib S r := by
    funext x i j
    simp only [mul_iff, sSup_iff, iSup_iff, exists_prop, eq_iff_iff]
    constructor
    · rintro ⟨k, ⟨s, hs, hsk⟩, hr⟩
      exact ⟨s, hs, k, hsk, hr⟩
    · rintro ⟨s, hs, k, hsk, hr⟩
      exact ⟨k, ⟨s, hs, hsk⟩, hr⟩

def Forward (r : Spans ι) : Prop :=
  ∀ x i j, r x i j → i ≤ j

theorem Forward.pow (h : r.Forward) (n : ℕ) : (r ^ n).Forward := by
  induction n with
  | zero =>
    intro x i j hij
    exact Nat.le_of_eq hij
  | succ n ih =>
    intro x i j hij
    rw [pow_succ] at hij
    obtain ⟨k, hik, hkj⟩ := hij
    exact (ih x i k hik).trans (h x k j hkj)

theorem Forward.of_pow_self (h : r.Forward) {n : ℕ} (hn : n ≠ 0) (hi : (r ^ n) x i i) : r x i i := by
  obtain ⟨m, rfl⟩ := Nat.exists_eq_succ_of_ne_zero hn
  rw [Nat.succ_eq_add_one, pow_succ] at hi
  obtain ⟨k, hik, hki⟩ := hi
  have heq : k = i := Nat.le_antisymm (h x k i hki) (h.pow m x i k hik)
  subst heq
  exact hki

end Spans

/-! ## Paths -/

/-- The spans of the paths from one state to another, where `steps` gives those of an edge. -/
def path (steps : σ → σ → Spans ι) (s t : σ) : Spans ι :=
  fun x i j => ReflTransGen (fun a b : σ × ℕ => steps a.1 b.1 x a.2 b.2) (s, i) (t, j)

section

variable {steps steps' : σ → σ → Spans ι} {R : Set σ}

def Closed (steps : σ → σ → Spans ι) (R : Set σ) : Prop :=
  ∀ s ∈ R, ∀ t x i j, steps s t x i j → t ∈ R

theorem path_refl (s : σ) (x : ι) (i : ℕ) : path steps s s x i i := .refl

theorem path_trans {s t u : σ} {x : ι} {i j k : ℕ} (h : path steps s t x i j)
    (h' : path steps t u x j k) : path steps s u x i k :=
  ReflTransGen.trans h h'

theorem path_single {s t : σ} {x : ι} {i j : ℕ} (h : steps s t x i j) : path steps s t x i j :=
  .single h

/-- Induction along a path, from its end. -/
theorem path_head_induction {t : σ} {x : ι} {j : ℕ} {P : σ → ℕ → Prop} (hend : P t j)
    (hstep : ∀ s u i k, steps s u x i k → path steps u t x k j → P u k → P s i) {s : σ} {i : ℕ}
    (h : path steps s t x i j) : P s i := by
  have hall : ∀ a : σ × ℕ, ReflTransGen (fun a b : σ × ℕ => steps a.1 b.1 x a.2 b.2) a (t, j) →
      P a.1 a.2 := by
    intro a ha
    induction ha using ReflTransGen.head_induction_on with
    | refl => exact hend
    | head hab hb ih => exact hstep _ _ _ _ hab hb ih
  exact hall (s, i) h

theorem Closed.path_mem (hR : Closed steps R) {s t : σ} (hs : s ∈ R) {x : ι} {i j : ℕ}
    (h : path steps s t x i j) : t ∈ R := by
  revert hs
  exact path_head_induction (P := fun s _ => s ∈ R → t ∈ R) id
    (fun s u i k hsu _ ih hs => ih (hR s hs u x i k hsu)) h

theorem path_congr (hR : Closed steps R)
    (h : ∀ s ∈ R, ∀ t x i j, steps' s t x i j ↔ steps s t x i j) {s : σ} (hs : s ∈ R) (t : σ) :
    path steps' s t = path steps s t := by
  funext x i j
  refine propext ⟨fun hp => ?_, fun hp => ?_⟩
  · revert hs
    refine path_head_induction (P := fun s i => s ∈ R → path steps s t x i j)
      (fun _ => path_refl t x j) (fun s u i k hsu _ ih hs => ?_) hp
    have hold := (h s hs u x i k).mp hsu
    exact path_trans (path_single hold) (ih (hR s hs u x i k hold))
  · revert hs
    refine path_head_induction (P := fun s i => s ∈ R → path steps' s t x i j)
      (fun _ => path_refl t x j) (fun s u i k hsu _ ih hs => ?_) hp
    exact path_trans (path_single ((h s hs u x i k).mpr hsu)) (ih (hR s hs u x i k hsu))

theorem forward_path (h : ∀ s t, (steps s t).Forward) (s t : σ) : (path steps s t).Forward := by
  intro x i j hp
  exact path_head_induction (P := fun _ i => i ≤ j) le_rfl
    (fun s u i k hsu _ hk => (h s u x i k hsu).trans hk) hp

theorem path_copy (copied : τ → τ → Spans ι) (f : σ → τ) (hR : Closed steps R)
    (hinj : Set.InjOn f R)
    (h : ∀ s ∈ R, ∀ t' x i j, copied (f s) t' x i j ↔ ∃ t ∈ R, f t = t' ∧ steps s t x i j)
    {s t : σ} (hs : s ∈ R) (ht : t ∈ R) : path copied (f s) (f t) = path steps s t := by
  funext x i j
  refine propext ⟨fun hp => ?_, fun hp => ?_⟩
  · have hall : ∀ s₁ ∈ R, f s₁ = f s → path steps s₁ t x i j := by
      refine path_head_induction (P := fun s' i => ∀ s₁ ∈ R, f s₁ = s' → path steps s₁ t x i j)
        (fun s₁ hs₁ heq => ?_) (fun s' u' i k hsu _ ih s₁ hs₁ heq => ?_) hp
      · rw [hinj hs₁ ht heq]
        exact path_refl t x j
      · subst heq
        obtain ⟨u, hu, rfl, hold⟩ := (h s₁ hs₁ u' x i k).mp hsu
        exact path_trans (path_single hold) (ih u hu rfl)
    exact hall s hs rfl
  · revert hs
    refine path_head_induction (P := fun s i => s ∈ R → path copied (f s) (f t) x i j)
      (fun _ => path_refl (f t) x j) (fun s u i k hsu _ ih hs => ?_) hp
    have hu := hR s hs u x i k hsu
    exact path_trans (path_single ((h s hs (f u) x i k).mpr ⟨u, hu, rfl, hsu⟩)) (ih hu)

/-- Two regions in a row: an edge leads from `f` in the first to `s₂` in the second, and none leads
back. -/
theorem path_concat {R₁ R₂ : Set σ} {f s₂ : σ} {e : Spans ι} (hR₁ : Closed steps R₁)
    (hR₂ : Closed steps R₂) (hdisj : Disjoint R₁ R₂) (hs₂ : s₂ ∈ R₂)
    (h₁ : ∀ s ∈ R₁, ∀ t x i j, steps' s t x i j ↔ steps s t x i j ∨ (s = f ∧ t = s₂ ∧ e x i j))
    (h₂ : ∀ s ∈ R₂, ∀ t x i j, steps' s t x i j ↔ steps s t x i j) {s₁ t₂ : σ} (hs₁ : s₁ ∈ R₁)
    (hf : f ∈ R₁) (ht₂ : t₂ ∈ R₂) :
    path steps' s₁ t₂ = path steps s₁ f * e * path steps s₂ t₂ := by
  have hsecond := path_congr hR₂ h₂ hs₂ t₂
  funext x i j
  refine propext ⟨fun hp => ?_, ?_⟩
  · revert hs₁
    refine path_head_induction (P := fun s i => s ∈ R₁ → (path steps s f * e * path steps s₂ t₂) x i j)
      (fun ht => absurd ht₂ (Set.disjoint_left.mp hdisj ht)) (fun s u i k hsu hrest ih hs => ?_) hp
    rcases (h₁ s hs u x i k).mp hsu with hold | ⟨rfl, rfl, he⟩
    · obtain ⟨l, ⟨m, hm, he⟩, hl⟩ := ih (hR₁ s hs u x i k hold)
      exact ⟨l, ⟨m, path_trans (path_single hold) hm, he⟩, hl⟩
    · exact ⟨k, ⟨i, path_refl s x i, he⟩, hsecond ▸ hrest⟩
  · rintro ⟨l, ⟨m, hm, he⟩, hl⟩
    have hfirst : path steps' s₁ f x i m := by
      revert hs₁
      refine path_head_induction (P := fun s i => s ∈ R₁ → path steps' s f x i m)
        (fun _ => path_refl f x m) (fun s u i k hsu _ ih hs => ?_) hm
      exact path_trans (path_single ((h₁ s hs u x i k).mpr (.inl hsu))) (ih (hR₁ s hs u x i k hsu))
    have hedge : path steps' f s₂ x m l := path_single ((h₁ f hf s₂ x m l).mpr (.inr ⟨rfl, rfl, he⟩))
    exact path_trans hfirst (path_trans hedge (hsecond ▸ hl))

theorem path_loop {s₀ f : σ} (hR : Closed steps R) (hs₀ : s₀ ∈ R) (hf : f ∈ R)
    (h : ∀ s ∈ R, ∀ t x i j, steps' s t x i j ↔ steps s t x i j ∨ (s = f ∧ t = s₀ ∧ i = j)) :
    path steps' s₀ f = atLeast (path steps s₀ f) 1 := by
  have hold : ∀ s ∈ R, ∀ t x i j, path steps s t x i j → path steps' s t x i j := by
    intro s hs t x i j hp
    revert hs
    refine path_head_induction (P := fun s i => s ∈ R → path steps' s t x i j)
      (fun _ => path_refl t x j) (fun s u i k hsu _ ih hs => ?_) hp
    exact path_trans (path_single ((h s hs u x i k).mpr (.inl hsu))) (ih (hR s hs u x i k hsu))
  funext x i j
  refine propext ⟨fun hp => ?_, fun hp => ?_⟩
  · -- to the end for the first time, and then some repetitions
    have hall : s₀ ∈ R → ∃ k n, path steps s₀ f x i k ∧ (path steps s₀ f ^ n) x k j := by
      refine path_head_induction
        (P := fun s i => s ∈ R → ∃ k n, path steps s f x i k ∧ (path steps s₀ f ^ n) x k j)
        (fun _ => ⟨j, 0, path_refl f x j, rfl⟩) (fun s u i k hsu _ ih hs => ?_) hp
      rcases (h s hs u x i k).mp hsu with hstep | ⟨rfl, rfl, rfl⟩
      · obtain ⟨l, n, hl, hn⟩ := ih (hR s hs u x i k hstep)
        exact ⟨l, n, path_trans (path_single hstep) hl, hn⟩
      · obtain ⟨l, n, hl, hn⟩ := ih hs₀
        exact ⟨i, n + 1, path_refl s x i, by rw [pow_succ']; exact ⟨l, hl, hn⟩⟩
    obtain ⟨k, n, hk, hn⟩ := hall hs₀
    refine Spans.iSup_iff.mpr ⟨n + 1, Spans.iSup_iff.mpr ⟨Nat.le_add_left 1 n, ?_⟩⟩
    rw [pow_succ']
    exact ⟨k, hk, hn⟩
  · obtain ⟨n, hpow⟩ := Spans.iSup_iff.mp hp
    obtain ⟨hpos, hn⟩ := Spans.iSup_iff.mp hpow
    obtain ⟨m, rfl⟩ := Nat.exists_eq_add_of_le' hpos
    clear hp hpos hpow
    induction m generalizing i with
    | zero =>
      rw [Nat.zero_add, pow_one] at hn
      exact hold s₀ hs₀ f x i j hn
    | succ m ih =>
      rw [pow_succ'] at hn
      obtain ⟨k, hk, hn⟩ := hn
      have hback : path steps' f s₀ x k k := path_single ((h f hf s₀ x k k).mpr (.inr ⟨rfl, rfl, rfl⟩))
      exact path_trans (hold s₀ hs₀ f x i k hk) (path_trans hback (ih k hn))

/-- Two regions side by side: the edges of a new state `a` lead to their starts, and from their ends
edges lead to a state `b` without any. -/
theorem path_choice {R₁ R₂ : Set σ} {a b s₁ s₂ f₁ f₂ : σ} (hR₁ : Closed steps R₁)
    (hR₂ : Closed steps R₂) (hab : a ≠ b) (hb₁ : b ∉ R₁) (hb₂ : b ∉ R₂)
    (hs₁ : s₁ ∈ R₁) (hs₂ : s₂ ∈ R₂) (hf₁ : f₁ ∈ R₁) (hf₂ : f₂ ∈ R₂)
    (ha : ∀ t x i j, steps' a t x i j ↔ (t = s₁ ∨ t = s₂) ∧ i = j)
    (hb : ∀ t x i j, ¬steps' b t x i j)
    (h₁ : ∀ s ∈ R₁, ∀ t x i j, steps' s t x i j ↔ steps s t x i j ∨ (s = f₁ ∧ t = b ∧ i = j))
    (h₂ : ∀ s ∈ R₂, ∀ t x i j, steps' s t x i j ↔ steps s t x i j ∨ (s = f₂ ∧ t = b ∧ i = j)) :
    path steps' a b = path steps s₁ f₁ ⊔ path steps s₂ f₂ := by
  have hend : ∀ x i j, path steps' b b x i j → i = j := by
    intro x i j hp
    rcases ReflTransGen.cases_head hp with heq | ⟨c, hc, -⟩
    · exact congrArg Prod.snd heq
    · exact absurd hc (hb c.1 x i c.2)
  have hleg : ∀ (R : Set σ) (s₀ f : σ), Closed steps R → b ∉ R → s₀ ∈ R → f ∈ R →
      (∀ s ∈ R, ∀ t x i j, steps' s t x i j ↔ steps s t x i j ∨ (s = f ∧ t = b ∧ i = j)) →
      path steps' s₀ b = path steps s₀ f := by
    intro R s₀ f hR hbR hs₀ hf h
    funext x i j
    refine propext ⟨fun hp => ?_, fun hp => ?_⟩
    · revert hs₀
      refine path_head_induction (P := fun s i => s ∈ R → path steps s f x i j)
        (fun hs => absurd hs hbR) (fun s u i k hsu hrest ih hs => ?_) hp
      rcases (h s hs u x i k).mp hsu with hold | ⟨rfl, rfl, rfl⟩
      · exact path_trans (path_single hold) (ih (hR s hs u x i k hold))
      · rw [hend x i j hrest]
        exact path_refl s x j
    · have hout : path steps' f b x j j := path_single ((h f hf b x j j).mpr (.inr ⟨rfl, rfl, rfl⟩))
      revert hs₀
      refine path_head_induction (P := fun s i => s ∈ R → path steps' s b x i j)
        (fun _ => hout) (fun s u i k hsu _ ih hs => ?_) hp
      exact path_trans (path_single ((h s hs u x i k).mpr (.inl hsu))) (ih (hR s hs u x i k hsu))
  rw [← hleg R₁ s₁ f₁ hR₁ hb₁ hs₁ hf₁ h₁, ← hleg R₂ s₂ f₂ hR₂ hb₂ hs₂ hf₂ h₂]
  funext x i j
  refine propext ⟨fun hp => ?_, fun hp => ?_⟩
  · rcases ReflTransGen.cases_head hp with heq | ⟨c, hc, hrest⟩
    · exact absurd (congrArg Prod.fst heq) hab
    · obtain ⟨hto, hi⟩ := (ha c.1 x i c.2).mp hc
      subst hi
      rcases hto with rfl | rfl
      · exact .inl hrest
      · exact .inr hrest
  · rcases hp with hp | hp
    · exact path_trans (path_single ((ha s₁ x i i).mpr ⟨.inl rfl, rfl⟩)) hp
    · exact path_trans (path_single ((ha s₂ x i i).mpr ⟨.inr rfl, rfl⟩)) hp

end

end Hilti.Lib
