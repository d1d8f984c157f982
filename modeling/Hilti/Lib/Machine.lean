import Mathlib.Data.List.Basic

/-! # Transition systems with partial, deterministic steps

The developments about components that take step after step (queues, timers, sinks) instantiate
`Machine`: a start state and a step function that is undefined where the action is not enabled.
`Machine.Reachable` is the usual closure; `Machine.Reachable.invariant` turns a step lemma into a
statement about every reachable state, and `Machine.run_invariant` does the same for one run whose
actions all meet a side condition on the state they are taken in. -/

namespace Hilti.Lib
set_option autoImplicit false

/-- A start state and a partial step function. -/
structure Machine (σ α : Type) where
  start : σ
  next : σ → α → Option σ

namespace Machine
variable {σ α : Type} (M : Machine σ α)

/-- The states that some sequence of enabled actions reaches. -/
inductive Reachable : σ → Prop
  | start : Reachable M.start
  | step {s t : σ} (a : α) : Reachable s → M.next s a = some t → Reachable t

variable {M}

/-- An invariant that holds at the start and is kept by every step holds of every reachable state. -/
theorem Reachable.invariant {P : σ → Prop} (hstart : P M.start)
    (hstep : ∀ s t a, P s → M.next s a = some t → P t) {s : σ} (h : Reachable M s) : P s := by
  induction h with
  | start => exact hstart
  | step a _ hn ih => exact hstep _ _ a ih hn

variable (M)

/-- Executing a list of actions, undefined as soon as one of them is. -/
def run : σ → List α → Option σ
  | s, [] => some s
  | s, a :: as => (M.next s a).bind fun t => run t as

@[simp] theorem run_nil (s : σ) : M.run s [] = some s := rfl

theorem run_cons (s : σ) (a : α) (as : List α) :
    M.run s (a :: as) = (M.next s a).bind fun t => M.run t as := rfl

variable {M}

theorem Reachable.run {s t : σ} {as : List α} (h : Reachable M s) (hr : M.run s as = some t) :
    Reachable M t := by
  induction as generalizing s with
  | nil =>
    cases hr
    exact h
  | cons a as ih =>
    rw [run_cons] at hr
    obtain ⟨u, hu, hr⟩ := Option.bind_eq_some_iff.mp hr
    exact ih (h.step a hu) hr

theorem reachable_of_run {t : σ} {as : List α} (hr : M.run M.start as = some t) : Reachable M t :=
  Reachable.start.run hr

variable (M)

/-- Every action of the list, taken in the state the run has reached by then, meets `C`. -/
def Along (C : σ → α → Prop) : σ → List α → Prop
  | _, [] => True
  | s, a :: as => C s a ∧ ∀ t, M.next s a = some t → Along C t as

instance Along.decidable {C : σ → α → Prop} [∀ s a, Decidable (C s a)] :
    (s : σ) → (as : List α) → Decidable (M.Along C s as)
  | _, [] => isTrue trivial
  | s, a :: as =>
    match hn : M.next s a with
    | none => decidable_of_iff (C s a) (by simp [Along, hn])
    | some t =>
      have := Along.decidable (C := C) t as
      decidable_of_iff (C s a ∧ M.Along C t as) (by simp [Along, hn])

variable {M}

theorem run_append (s : σ) (as bs : List α) :
    M.run s (as ++ bs) = (M.run s as).bind fun t => M.run t bs := by
  induction as generalizing s with
  | nil => rfl
  | cons a as ih =>
    rw [List.cons_append, run_cons, run_cons, Option.bind_assoc]
    exact congrArg _ (funext ih)

theorem along_append {C : σ → α → Prop} {s : σ} {as bs : List α} (h : M.Along C s (as ++ bs)) :
    M.Along C s as ∧ ∀ t, M.run s as = some t → M.Along C t bs := by
  induction as generalizing s with
  | nil =>
    refine ⟨trivial, fun t ht => ?_⟩
    cases ht
    exact h
  | cons a as ih =>
    refine ⟨⟨h.1, fun u hu => (ih (h.2 u hu)).1⟩, fun t ht => ?_⟩
    obtain ⟨u, hu, ht⟩ := Option.bind_eq_some_iff.mp ht
    exact (ih (h.2 u hu)).2 t ht

theorem Along.imp {C D : σ → α → Prop} (hCD : ∀ s a, C s a → D s a) {s : σ} {as : List α}
    (h : M.Along C s as) : M.Along D s as := by
  induction as generalizing s with
  | nil => trivial
  | cons a as ih => exact ⟨hCD s a h.1, fun t ht => ih (h.2 t ht)⟩

theorem Along.and {C D : σ → α → Prop} {s : σ} {as : List α} (hC : M.Along C s as)
    (hD : M.Along D s as) : M.Along (fun s a => C s a ∧ D s a) s as := by
  induction as generalizing s with
  | nil => trivial
  | cons a as ih => exact ⟨⟨hC.1, hD.1⟩, fun t ht => ih (hC.2 t ht) (hD.2 t ht)⟩

/-- If every action that meets `C` is enabled and keeps `P`, then a run whose actions all meet `C`
goes through to its end and keeps `P`. -/
theorem run_invariant {P : σ → Prop} {C : σ → α → Prop}
    (hstep : ∀ s a, P s → C s a → ∃ t, M.next s a = some t ∧ P t) :
    ∀ (as : List α) (s : σ), P s → M.Along C s as → ∃ t, M.run s as = some t ∧ P t
  | [], s, hs, _ => ⟨s, rfl, hs⟩
  | a :: as, s, hs, hC => by
      obtain ⟨t, ht, hPt⟩ := hstep s a hs hC.1
      obtain ⟨u, hu, hPu⟩ := run_invariant hstep as t hPt (hC.2 t ht)
      refine ⟨u, ?_, hPu⟩
      rw [run_cons, ht]
      exact hu

/-- If every step that meets `C` keeps `P`, then a run whose steps all meet `C` keeps `P`. -/
theorem run_keeps {P : σ → Prop} {C : σ → α → Prop}
    (hstep : ∀ s t a, P s → C s a → M.next s a = some t → P t) {as : List α} {s t : σ}
    (hrun : M.run s as = some t) (hs : P s) (hC : M.Along C s as) : P t := by
  induction as generalizing s with
  | nil =>
    cases hrun
    exact hs
  | cons a as ih =>
    obtain ⟨u, hu, hrun⟩ := Option.bind_eq_some_iff.mp hrun
    exact ih hrun (hstep s u a hs hC.1 hu) (hC.2 u hu)

/-- A relation that every step of `N` keeps, with `M` taking the same action, is kept by whole
runs. -/
theorem run_simulates {τ : Type} {N : Machine τ α} {R : σ → τ → Prop}
    (hstep : ∀ s t t' a, R s t → N.next t a = some t' → ∃ s', M.next s a = some s' ∧ R s' t') :
    ∀ (as : List α) (s : σ) (t t' : τ), R s t → N.run t as = some t' →
      ∃ s', M.run s as = some s' ∧ R s' t'
  | [], s, t, t', hR, hrun => by
      cases hrun
      exact ⟨s, rfl, hR⟩
  | a :: as, s, t, t', hR, hrun => by
      rw [run_cons] at hrun
      obtain ⟨t₁, ht₁, hrun⟩ := Option.bind_eq_some_iff.mp hrun
      obtain ⟨s₁, hs₁, hR₁⟩ := hstep s t t₁ a hR ht₁
      obtain ⟨s', hs', hR'⟩ := run_simulates hstep as s₁ t₁ t' hR₁ hrun
      refine ⟨s', ?_, hR'⟩
      rw [run_cons, hs₁]
      exact hs'

/-- If both machines take every action that meets `C` and keep a relation then, they take a run
whose actions all meet `C`. -/
theorem run_together {τ : Type} {N : Machine τ α} {R : σ → τ → Prop} {C : σ → α → Prop}
    (hstep : ∀ s t a, R s t → C s a →
      ∃ s' t', M.next s a = some s' ∧ N.next t a = some t' ∧ R s' t') :
    ∀ (as : List α) (s : σ) (t : τ), R s t → M.Along C s as →
      ∃ s' t', M.run s as = some s' ∧ N.run t as = some t' ∧ R s' t'
  | [], s, t, hR, _ => ⟨s, t, rfl, rfl, hR⟩
  | a :: as, s, t, hR, hC => by
      obtain ⟨s₁, t₁, hs₁, ht₁, hR₁⟩ := hstep s t a hR hC.1
      obtain ⟨s', t', hs', ht', hR'⟩ := run_together hstep as s₁ t₁ hR₁ (hC.2 s₁ hs₁)
      refine ⟨s', t', ?_, ?_, hR'⟩
      · rw [run_cons, hs₁]
        exact hs'
      · rw [run_cons, ht₁]
        exact ht'

end Machine
end Hilti.Lib
