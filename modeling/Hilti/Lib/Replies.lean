import Mathlib.Data.Option.Basic

/-!
# Systems that reply

A system takes a call in a state, unless the call cannot be made there, and replies.  What a client
gets to see of a run are the replies; a simulation in which both systems give the same ones shows that
a client cannot tell the systems apart.
-/

namespace Hilti.Lib

set_option autoImplicit false

section

variable {σ τ χ ρ : Type} {step : σ → χ → Option (σ × ρ)} {step' : τ → χ → Option (τ × ρ)}

/-- The replies to a list of calls. -/
def replies (step : σ → χ → Option (σ × ρ)) : σ → List χ → Option (List ρ)
  | _, [] => some []
  | s, c :: cs => (step s c).bind fun r => (replies step r.1 cs).map (r.2 :: ·)

theorem replies_cons_none {s : σ} {c : χ} (h : step s c = none) (cs : List χ) :
    replies step s (c :: cs) = none := by
  rw [replies, h]
  rfl

theorem replies_cons_some {s s' : σ} {c : χ} {r : ρ} (h : step s c = some (s', r)) (cs : List χ) :
    replies step s (c :: cs) = (replies step s' cs).map (r :: ·) := by
  rw [replies, h]
  rfl

/-- The same call can be made in both states, with the same reply, and leads to related states. -/
def SameReply (R : σ → τ → Prop) (r : Option (σ × ρ)) (r' : Option (τ × ρ)) : Prop :=
  (r = none ∧ r' = none) ∨ ∃ s t reply, r = some (s, reply) ∧ r' = some (t, reply) ∧ R s t

/-- A simulation: the run lemma. -/
theorem replies_eq {R : σ → τ → Prop}
    (hstep : ∀ s t, R s t → ∀ c, SameReply R (step s c) (step' t c)) (cs : List χ) :
    ∀ {s t}, R s t → replies step s cs = replies step' t cs := by
  induction cs with
  | nil => exact fun _ => rfl
  | cons c cs ih =>
    intro s t h
    obtain ⟨hnone, hnone'⟩ | ⟨s', t', r, hs, ht, h'⟩ := hstep s t h c
    · rw [replies_cons_none hnone, replies_cons_none hnone']
    · rw [replies_cons_some hs, replies_cons_some ht, ih h']

end

end Hilti.Lib
