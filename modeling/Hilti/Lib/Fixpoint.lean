import Mathlib.Data.Finset.Card
import Mathlib.Order.Basic

/-!
# Loops that run until nothing changes

A round of such a loop passes a state through a number of steps together with a
flag that a step sets when it changes the state.  A step either does nothing or
raises a measure and sets the flag, so a round that ends with the flag unset has
left the state alone, and everything its steps would have established holds there.
-/

namespace Hilti.Lib

set_option autoImplicit false

variable {τ α : Type}

/-- Runs `round` until it leaves the flag unset, at most the given number of
times. -/
def untilUnchanged (round : τ → Option (τ × Bool)) : ℕ → τ → Option τ
  | 0, _ => none
  | fuel + 1, t => do
    let (t, changed) ← round t
    if changed then untilUnchanged round fuel t else some t

/-- From `s` to `s'` nothing happened, or the measure grew and the flag is set. -/
def Advances (μ : τ → ℕ) (s s' : τ × Bool) : Prop :=
  s' = s ∨ (s'.2 = true ∧ μ s.1 < μ s'.1)

/-- The step `f` returns on every good state, advances it to a good one, and
without a change leaves a state that satisfies `Facts`. -/
def Settles (Good : τ → Prop) (μ : τ → ℕ) (f : τ × Bool → Option (τ × Bool))
    (Facts : τ → Prop) : Prop :=
  ∀ s, Good s.1 → ∃ s', f s = some s' ∧ Good s'.1 ∧ Advances μ s s' ∧
    (s'.2 = false → Facts s'.1)

section

variable {Good : τ → Prop} {μ : τ → ℕ}

theorem Advances.trans {s s' s'' : τ × Bool} (h : Advances μ s s') (h' : Advances μ s' s'') :
    Advances μ s s'' := by
  rcases h with rfl | ⟨hc, hlt⟩
  · exact h'
  · rcases h' with rfl | ⟨hc', hlt'⟩
    · exact .inr ⟨hc, hlt⟩
    · exact .inr ⟨hc', hlt.trans hlt'⟩

theorem Advances.eq_of_unchanged {s s' : τ × Bool} (h : Advances μ s s') (hc : s'.2 = false) :
    s' = s := by
  rcases h with h | ⟨hc', -⟩
  · exact h
  · rw [hc] at hc'
    exact absurd hc' (by simp)

namespace Settles

theorem skip : Settles Good μ some (fun _ => True) :=
  fun s hs => ⟨s, rfl, hs, .inl rfl, fun _ => trivial⟩

theorem imp {f : τ × Bool → Option (τ × Bool)} {Facts Facts' : τ → Prop}
    (h : Settles Good μ f Facts) (himp : ∀ t, Facts t → Facts' t) : Settles Good μ f Facts' := by
  intro s hs
  obtain ⟨s', hs', hg, ha, hf⟩ := h s hs
  exact ⟨s', hs', hg, ha, fun hc => himp _ (hf hc)⟩

theorem congr {f f' : τ × Bool → Option (τ × Bool)} {Facts : τ → Prop}
    (h : Settles Good μ f Facts) (heq : ∀ s, f' s = f s) : Settles Good μ f' Facts := by
  rwa [show f' = f from funext heq]

theorem bind {f f' : τ × Bool → Option (τ × Bool)} {Facts Facts' : τ → Prop}
    (h : Settles Good μ f Facts) (h' : Settles Good μ f' Facts') :
    Settles Good μ (fun s => f s >>= f') (fun t => Facts t ∧ Facts' t) := by
  intro s hs
  obtain ⟨s₁, h₁, hg₁, ha₁, hf₁⟩ := h s hs
  obtain ⟨s₂, h₂, hg₂, ha₂, hf₂⟩ := h' s₁ hg₁
  refine ⟨s₂, by simp [h₁, h₂], hg₂, ha₁.trans ha₂, fun hc => ⟨?_, hf₂ hc⟩⟩
  obtain rfl := ha₂.eq_of_unchanged hc
  exact hf₁ hc

theorem guard {f : τ × Bool → Option (τ × Bool)} {Facts : τ → Prop} (c : τ → Bool)
    (h : ∀ s, Good s.1 → c s.1 = true → ∃ s', f s = some s' ∧ Good s'.1 ∧ Advances μ s s' ∧
      (s'.2 = false → Facts s'.1)) :
    Settles Good μ (fun s => if c s.1 then f s else some s)
      (fun t => c t = true → Facts t) := by
  intro s hs
  by_cases hc : c s.1 = true
  · obtain ⟨s', hs', hg, ha, hf⟩ := h s hs hc
    exact ⟨s', by simp [hc, hs'], hg, ha, fun hn _ => hf hn⟩
  · exact ⟨s, by simp [hc], hs, .inl rfl, fun _ h => absurd h hc⟩

theorem foldlM (l : List α) {f : α → τ × Bool → Option (τ × Bool)} {Facts : α → τ → Prop}
    (h : ∀ a ∈ l, Settles Good μ (f a) (Facts a)) :
    Settles Good μ (fun s => l.foldlM (fun s a => f a s) s) (fun t => ∀ a ∈ l, Facts a t) := by
  induction l with
  | nil => exact skip.imp (by simp)
  | cons a l ih =>
    have hl := ih fun b hb => h b (by simp [hb])
    refine ((h a (by simp)).bind hl).imp fun t ⟨ha, hb⟩ b hmem => ?_
    rcases List.mem_cons.mp hmem with rfl | hmem
    · exact ha
    · exact hb b hmem

end Settles

/-- When the measure is bounded, the loop ends in a good state that satisfies the
facts of its round. -/
theorem untilUnchanged_spec {f : τ × Bool → Option (τ × Bool)} {Facts : τ → Prop} {bound : ℕ}
    (h : Settles Good μ f Facts) (hbound : ∀ t, Good t → μ t ≤ bound) (fuel : ℕ) :
    ∀ t, Good t → bound < fuel + μ t →
      ∃ t', untilUnchanged (fun t => f (t, false)) fuel t = some t' ∧ Good t' ∧ Facts t' := by
  induction fuel with
  | zero =>
    intro t ht hf
    have := hbound t ht
    omega
  | succ fuel ih =>
    intro t ht hf
    obtain ⟨⟨t₁, changed⟩, h₁, hg₁, ha₁, hf₁⟩ := h (t, false) ht
    unfold untilUnchanged
    cases changed with
    | false => exact ⟨t₁, by simp [h₁], hg₁, hf₁ rfl⟩
    | true =>
      have hlt : μ t < μ t₁ := by
        rcases ha₁ with heq | ⟨-, hlt⟩
        · simp at heq
        · exact hlt
      obtain ⟨t', ht', hres⟩ := ih t₁ hg₁ (by omega)
      exact ⟨t', by simp [h₁, ht'], hres⟩

end

end Hilti.Lib
