import Mathlib.Data.List.Infix
import Mathlib.Tactic.Common

/-!
# Scanning for an output

A scanner reads a word as long as it can, and remembers the last output on the way with its position.
It may stop at an output of a final state.  A scan can be interrupted and resumed anywhere.  If final
states have no successors, the output is that of the longest prefix that has one; if all states are
final, it is that of the shortest.  The start counts only when there is no step for the first symbol.
-/

namespace Hilti.Lib

set_option autoImplicit false

/-- An automaton with outputs in which steps may be missing. -/
structure Scanner (σ α ι : Type) where
  step : σ → α → Option σ
  out : σ → Option ι
  final : σ → Bool

namespace Scanner

variable {σ α ι : Type} (M : Scanner σ α ι)

def run : σ → List α → Option σ
  | s, [] => some s
  | s, a :: w => (M.step s a).bind fun s' => run s' w

def scan : ℕ → σ → Option (ι × ℕ) → List α → Option (ι × ℕ) × Option σ
  | _, s, best, [] => (best, some s)
  | pos, s, best, a :: w =>
    match M.step s a with
    | none => (((M.out s).map fun i => (i, pos)).or best, none)
    | some s' =>
      match M.out s' with
      | none => scan (pos + 1) s' best w
      | some i =>
        if M.final s' then (some (i, pos + 1), none) else scan (pos + 1) s' (some (i, pos + 1)) w

section

variable {M} {pos : ℕ} {s s' : σ} {best : Option (ι × ℕ)} {a : α} {w : List α} {i : ι}

theorem scan_cons_none (h : M.step s a = none) :
    M.scan pos s best (a :: w) = (((M.out s).map fun i => (i, pos)).or best, none) := by
  simp only [scan, h]

theorem scan_cons_silent (h : M.step s a = some s') (hout : M.out s' = none) :
    M.scan pos s best (a :: w) = M.scan (pos + 1) s' best w := by
  simp only [scan, h, hout]

theorem scan_cons_final (h : M.step s a = some s') (hout : M.out s' = some i)
    (hfinal : M.final s' = true) :
    M.scan pos s best (a :: w) = (some (i, pos + 1), none) := by
  simp only [scan, h, hout, hfinal, if_true]

theorem scan_cons_out (h : M.step s a = some s') (hout : M.out s' = some i)
    (hfinal : M.final s' = false) :
    M.scan pos s best (a :: w) = M.scan (pos + 1) s' (some (i, pos + 1)) w := by
  simp only [scan, h, hout, hfinal, Bool.false_eq_true, if_false]

theorem scan_cases (M : Scanner σ α ι) (s : σ) (a : α) :
    M.step s a = none ∨ (∃ s', M.step s a = some s' ∧ M.out s' = none) ∨
      (∃ s' i, M.step s a = some s' ∧ M.out s' = some i ∧ M.final s' = true) ∨
        ∃ s' i, M.step s a = some s' ∧ M.out s' = some i ∧ M.final s' = false := by
  cases hstep : M.step s a with
  | none => exact .inl rfl
  | some s' =>
    cases hout : M.out s' with
    | none => exact .inr (.inl ⟨s', rfl, hout⟩)
    | some i =>
      cases hfinal : M.final s' with
      | true => exact .inr (.inr (.inl ⟨s', i, rfl, hout, hfinal⟩))
      | false => exact .inr (.inr (.inr ⟨s', i, rfl, hout, hfinal⟩))

theorem run_cons (h : M.step s a = some s') : M.run s (a :: w) = M.run s' w := by
  rw [run, h, Option.bind_some]

theorem run_append (M : Scanner σ α ι) (u v : List α) :
    ∀ s, M.run s (u ++ v) = (M.run s u).bind fun s' => M.run s' v := by
  induction u with
  | nil => exact fun _ => rfl
  | cons a u ih =>
    intro s
    rw [List.cons_append, run, run, Option.bind_assoc]
    exact congrArg _ (funext ih)

/-! ## Interruptions -/

theorem scan_append (u v : List α) : ∀ pos s best, M.scan pos s best (u ++ v) =
    (M.scan pos s best u).2.elim ((M.scan pos s best u).1, none) fun s' =>
      M.scan (pos + u.length) s' (M.scan pos s best u).1 v := by
  induction u with
  | nil => exact fun _ _ _ => rfl
  | cons a u ih =>
    intro pos s best
    have hlen : pos + (a :: u).length = pos + 1 + u.length := by
      rw [List.length_cons]
      omega
    rw [List.cons_append, hlen]
    obtain h | ⟨s', h, hout⟩ | ⟨s', i, h, hout, hfinal⟩ | ⟨s', i, h, hout, hfinal⟩ :=
      scan_cases M s a
    · rw [scan_cons_none h, scan_cons_none h]
      rfl
    · rw [scan_cons_silent h hout, scan_cons_silent h hout, ih]
    · rw [scan_cons_final h hout hfinal, scan_cons_final h hout hfinal]
      rfl
    · rw [scan_cons_out h hout hfinal, scan_cons_out h hout hfinal, ih]

theorem scan_append_of_stopped {u : List α} {best' : Option (ι × ℕ)}
    (h : M.scan pos s best u = (best', none)) (v : List α) :
    M.scan pos s best (u ++ v) = (best', none) := by
  rw [scan_append, h]
  rfl

theorem scan_append_of_running {u : List α} {best' : Option (ι × ℕ)}
    (h : M.scan pos s best u = (best', some s')) (v : List α) :
    M.scan pos s best (u ++ v) = M.scan (pos + u.length) s' best' v := by
  rw [scan_append, h]
  rfl

theorem run_of_stopped (w : List α) : ∀ {pos s best},
    M.scan pos s best w = (none, none) → M.run s w = none := by
  induction w with
  | nil => exact fun h => nomatch h
  | cons a w ih =>
    intro pos s best h
    obtain hstep | ⟨s', hstep, hout⟩ | ⟨s', i, hstep, hout, hfinal⟩ | ⟨s', i, hstep, hout, hfinal⟩ :=
      scan_cases M s a
    · rw [run, hstep, Option.bind_none]
    · rw [scan_cons_silent hstep hout] at h
      rw [run_cons hstep, ih h]
    · rw [scan_cons_final hstep hout hfinal] at h
      cases h
    · rw [scan_cons_out hstep hout hfinal] at h
      rw [run_cons hstep, ih h]

/-- A scan that may go on has come to where the word leads, and an output there is the last one. -/
theorem scan_running (w : List α) : ∀ {pos s best best' s'},
    M.scan pos s best w = (best', some s') → M.run s w = some s' ∧
      (w ≠ [] → ∀ i, M.out s' = some i → best' = some (i, pos + w.length)) := by
  induction w with
  | nil =>
    intro pos s best best' s' h
    cases h
    exact ⟨rfl, fun hne => absurd rfl hne⟩
  | cons a w ih =>
    intro pos s best best' s' h
    have hlen : pos + (a :: w).length = pos + 1 + w.length := by
      rw [List.length_cons]
      omega
    have hlast : ∀ {s₁ best₁}, M.step s a = some s₁ →
        (∀ i, M.out s₁ = some i → best₁ = some (i, pos + 1)) →
        M.scan (pos + 1) s₁ best₁ w = (best', some s') → M.run s (a :: w) = some s' ∧
          (a :: w ≠ [] → ∀ i, M.out s' = some i → best' = some (i, pos + (a :: w).length)) := by
      intro s₁ best₁ hstep hbest hscan
      obtain ⟨hrun, hout⟩ := ih hscan
      rw [run_cons hstep, hlen]
      refine ⟨hrun, fun _ => ?_⟩
      by_cases hw : w = []
      · subst hw
        cases hscan
        exact hbest
      · exact hout hw
    obtain hstep | ⟨s₁, hstep, hout⟩ | ⟨s₁, i, hstep, hout, hfinal⟩ | ⟨s₁, i, hstep, hout, hfinal⟩ :=
      scan_cases M s a
    · rw [scan_cons_none hstep] at h
      cases h
    · rw [scan_cons_silent hstep hout] at h
      refine hlast hstep (fun i hi => ?_) h
      rw [hout] at hi
      cases hi
    · rw [scan_cons_final hstep hout hfinal] at h
      cases h
    · rw [scan_cons_out hstep hout hfinal] at h
      refine hlast hstep (fun i' hi' => ?_) h
      rw [hout] at hi'
      cases hi'
      rfl

theorem scan_append_of_stuck {best' : Option (ι × ℕ)} (h : M.scan 0 s none w = (best', some s'))
    (hstuck : ∀ a, M.step s' a = none) (hne : best' ≠ none) (v : List α) :
    (M.scan 0 s none (w ++ v)).1 = best' := by
  rw [scan_append_of_running h]
  have hw : w ≠ [] := by
    intro heq
    subst heq
    cases h
    exact hne rfl
  cases v with
  | nil => rfl
  | cons a v =>
    rw [scan_cons_none (hstuck a)]
    cases hout : M.out s' with
    | none => rfl
    | some i => exact ((scan_running w h).2 hw i hout).symm

/-! ## What is found -/

/-- There is an output of some prefix, which is not empty unless there is no first step. -/
structure Finds (M : Scanner σ α ι) (s : σ) (w v : List α) (i : ι) : Prop where
  isPrefix : v <+: w
  out : ∃ s', M.run s v = some s' ∧ M.out s' = some i
  blocked : v = [] → ∃ a rest, w = a :: rest ∧ M.step s a = none

/-- There is nothing to find. -/
structure Silent (M : Scanner σ α ι) (s : σ) (w : List α) : Prop where
  silent : ∀ v, v <+: w → v ≠ [] → ∀ s', M.run s v = some s' → M.out s' = none
  blocked : ∀ a rest, w = a :: rest → M.step s a = none → M.out s = none

def Longest (M : Scanner σ α ι) (s : σ) (w v : List α) : Prop :=
  ∀ u, u <+: w → v.length < u.length → ∀ q, M.run s u = some q → M.out q = none

def Shortest (M : Scanner σ α ι) (s : σ) (v : List α) : Prop :=
  ∀ u, u <+: v → u ≠ [] → u ≠ v → ∀ q, M.run s u = some q → M.out q = none

/-- What a scan finds, depending on which states are final. -/
structure Picks (M : Scanner σ α ι) (s : σ) (w v : List α) (i : ι) : Prop extends
    Finds M s w v i where
  longest : (∀ s, M.final s = true → ∀ a, M.step s a = none) → M.Longest s w v
  shortest : (∀ s, M.final s = true) → M.Shortest s v

theorem Finds.cons (h : M.step s a = some s') {v : List α} (hf : M.Finds s' w v i) :
    M.Finds s (a :: w) (a :: v) i where
  isPrefix := List.cons_prefix_cons.mpr ⟨rfl, hf.isPrefix⟩
  out := by
    rw [run_cons h]
    exact hf.out
  blocked hv := nomatch hv

theorem Finds.head (h : M.step s a = some s') (hout : M.out s' = some i) (w : List α) :
    M.Finds s (a :: w) [a] i where
  isPrefix := List.cons_prefix_cons.mpr ⟨rfl, List.nil_prefix⟩
  out := ⟨s', by rw [run_cons h, run], hout⟩
  blocked hv := nomatch hv

theorem run_prefix_cons {P : List α → Prop} (h : M.step s a = some s')
    (hone : P [a] → M.out s' = none)
    (hs : ∀ v, v <+: w → v ≠ [] → P (a :: v) → ∀ q, M.run s' v = some q → M.out q = none) :
    ∀ v, v <+: a :: w → v ≠ [] → P v → ∀ q, M.run s v = some q → M.out q = none := by
  intro v hv hne hP q hq
  obtain hnil | ⟨u, rfl, hu⟩ := List.prefix_cons_iff.mp hv
  · exact absurd hnil hne
  · rw [run_cons h] at hq
    by_cases hnil : u = []
    · subst hnil
      cases hq
      exact hone hP
    · exact hs u hu hnil hP q hq

theorem Silent.cons (h : M.step s a = some s') (hout : M.out s' = none) (hs : M.Silent s' w) :
    M.Silent s (a :: w) where
  silent v hv hne := run_prefix_cons (P := fun _ => True) h (fun _ => hout)
    (fun v hv hne _ => hs.silent v hv hne) v hv hne trivial
  blocked b rest heq hb := by
    cases heq
    rw [h] at hb
    cases hb

theorem Picks.cons (h : M.step s a = some s') {v : List α} (hp : M.Picks s' w v i)
    (hsilent : (∀ s, M.final s = true) → M.out s' = none) : M.Picks s (a :: w) (a :: v) i where
  toFinds := hp.toFinds.cons h
  longest hstuck u hu hlen := by
    have hne : u ≠ [] := List.ne_nil_of_length_pos (Nat.zero_lt_of_lt hlen)
    refine run_prefix_cons (P := fun u => (a :: v).length < u.length) h (fun hlt => ?_)
      (fun u hu _ hlt => hp.longest hstuck u hu (Nat.lt_of_succ_lt_succ hlt)) u hu hne hlen
    exact absurd (Nat.lt_of_succ_lt_succ hlt) (Nat.not_lt_zero _)
  shortest hall u hu hne hcon :=
    run_prefix_cons (P := fun u => u ≠ a :: v) h (fun _ => hsilent hall)
      (fun u hu hne hcon => hp.shortest hall u hu hne fun heq => hcon (heq ▸ rfl)) u hu hne hcon

theorem Picks.head (h : M.step s a = some s') (hout : M.out s' = some i)
    (hlast : (∀ s, M.final s = true → ∀ a, M.step s a = none) →
      ∀ v, v <+: w → v ≠ [] → ∀ q, M.run s' v = some q → M.out q = none) :
    M.Picks s (a :: w) [a] i where
  toFinds := .head h hout w
  longest hstuck u hu hlen := by
    have hne : u ≠ [] := List.ne_nil_of_length_pos (Nat.zero_lt_of_lt hlen)
    exact run_prefix_cons (P := fun u => [a].length < u.length) h
      (fun hlt => absurd hlt (lt_irrefl _)) (fun u hu hne _ => hlast hstuck u hu hne) u hu hne hlen
  shortest _ u hu hne hcon := by
    obtain hnil | ⟨u', rfl, hu'⟩ := List.prefix_cons_iff.mp hu
    · exact absurd hnil hne
    · exact absurd (by rw [List.prefix_nil.mp hu']) hcon

/-- What the output of a scan is, and that what has been there before stays if nothing is found. -/
theorem scan_found (w : List α) : ∀ pos s best,
    ((M.scan pos s best w).1 = best ∧ M.Silent s w) ∨
      ∃ v i, (M.scan pos s best w).1 = some (i, pos + v.length) ∧ M.Picks s w v i := by
  induction w with
  | nil =>
    refine fun pos s best => .inl ⟨rfl, fun v hv hne => ?_, fun a rest heq => (nomatch heq)⟩
    exact absurd (List.prefix_nil.mp hv) hne
  | cons a w ih =>
    intro pos s best
    obtain hstep | ⟨s', hstep, hout⟩ | ⟨s', i, hstep, hout, hfinal⟩ | ⟨s', i, hstep, hout, hfinal⟩ :=
      scan_cases M s a
    · rw [scan_cons_none hstep]
      have hnone : ∀ v, v <+: a :: w → v ≠ [] → ∀ q, M.run s v = some q → M.out q = none := by
        intro v hv hne q hq
        obtain hnil | ⟨u, rfl, -⟩ := List.prefix_cons_iff.mp hv
        · exact absurd hnil hne
        · rw [run, hstep] at hq
          cases hq
      cases hout : M.out s with
      | none => exact .inl ⟨rfl, hnone, fun _ _ _ _ => hout⟩
      | some i =>
        refine .inr ⟨[], i, rfl, ⟨List.nil_prefix, ⟨s, rfl, hout⟩, fun _ => ⟨a, w, rfl, hstep⟩⟩,
          fun _ u hu hlen => hnone u hu (List.ne_nil_of_length_pos hlen), fun _ u hu hne => ?_⟩
        exact absurd (List.prefix_nil.mp hu) hne
    · rw [scan_cons_silent hstep hout]
      obtain ⟨hbest, hsilent⟩ | ⟨v, i, hbest, hpicks⟩ := ih (pos + 1) s' best
      · exact .inl ⟨hbest, hsilent.cons hstep hout⟩
      · refine .inr ⟨a :: v, i, ?_, hpicks.cons hstep fun _ => hout⟩
        rw [hbest, List.length_cons, Nat.add_right_comm, Nat.add_assoc]
    · rw [scan_cons_final hstep hout hfinal]
      refine .inr ⟨[a], i, rfl, .head hstep hout fun hstuck v _ hne q hq => ?_⟩
      obtain ⟨b, v, rfl⟩ := List.exists_cons_of_ne_nil hne
      rw [run, hstuck s' hfinal] at hq
      cases hq
    · rw [scan_cons_out hstep hout hfinal]
      obtain ⟨hbest, hsilent⟩ | ⟨v, i', hbest, hpicks⟩ := ih (pos + 1) s' (some (i, pos + 1))
      · exact .inr ⟨[a], i, hbest, .head hstep hout fun _ => hsilent.silent⟩
      · refine .inr ⟨a :: v, i', ?_, hpicks.cons hstep fun hall => ?_⟩
        · rw [hbest, List.length_cons, Nat.add_right_comm, Nat.add_assoc]
        · rw [hall s'] at hfinal
          cases hfinal

end

end Scanner

end Hilti.Lib
