import Hilti.Liveness.Model

/-!
# Paths to a read

What a variable is live for: a path along the edges of the graph to a statement that
reads or modifies it, on which nothing redefines it.  A round hands a variable on along
all edges that lead to a statement processed before, and along one edge that does not,
so that the rounds are told apart by how often a path goes against the order.
-/

namespace Hilti.Liveness

set_option autoImplicit false

variable {ι ν : Type} [DecidableEq ι]

section

variable {g : Cfg ι}

/-- `s` is processed before `t`. -/
def Schedule.Before (S : Schedule g) (s t : ι) : Prop :=
  S.statements.idxOf s < S.statements.idxOf t

instance (S : Schedule g) (s t : ι) : Decidable (S.Before s t) :=
  inferInstanceAs (Decidable (_ < _))

/-- What is left of `n` after a step from `t` to `s`: one less, unless `s` is
processed before `t`. -/
def Schedule.against (S : Schedule g) (n : ℕ) (s t : ι) : ℕ :=
  if S.Before s t then n else n - 1

theorem against_le (S : Schedule g) (n : ℕ) (s t : ι) : S.against n s t ≤ n := by
  unfold Schedule.against
  split <;> omega

theorem against_mono (S : Schedule g) {n m : ℕ} (h : n ≤ m) (s t : ι) :
    S.against n s t ≤ S.against m s t := by
  unfold Schedule.against
  split <;> omega

theorem le_against_succ (S : Schedule g) (n : ℕ) (s t : ι) : n ≤ S.against (n + 1) s t := by
  unfold Schedule.against
  split <;> omega

end

variable [DecidableEq ν]

/-- A path from `s` reads or modifies `x` before it is redefined or cleared. -/
inductive Reads (p : Program ι ν) : ι → ν → Prop
  | here {s : ι} {x : ν} : x ∈ (p.flowInfo s).modified ∪ (p.flowInfo s).read → Reads p s x
  | later {s t : ι} {x : ν} : x ∉ (p.flowInfo s).defined ∪ (p.flowInfo s).cleared →
      t ∈ p.cfg.successors s → Reads p t x → Reads p s x

/-- `x` is read on a path from `s` that goes against the order less than `n` times. -/
inductive LiveIn (p : Program ι ν) (S : Schedule p.cfg) : ℕ → ι → ν → Prop
  | use {n : ℕ} {s : ι} {x : ν} : s ∈ S.statements →
      x ∈ (p.flowInfo s).modified ∪ (p.flowInfo s).read → LiveIn p S (n + 1) s x
  | step {n : ℕ} {s t : ι} {x : ν} : s ∈ S.statements →
      x ∉ (p.flowInfo s).defined ∪ (p.flowInfo s).cleared → t ∈ p.cfg.successors s →
      LiveIn p S (S.against n t s) t x → LiveIn p S n s x

/-- `x` is read on a path from a successor of `s`, which goes against the order less than
`n` times on the way from `s`. -/
def LiveOut (p : Program ι ν) (S : Schedule p.cfg) (n : ℕ) (s : ι) (x : ν) : Prop :=
  s ∈ S.statements ∧ x ∉ (p.flowInfo s).cleared ∧
    ∃ t ∈ p.cfg.successors s, LiveIn p S (S.against n t s) t x

/-- `x` is live after a predecessor of `s`. -/
def LivePred (p : Program ι ν) (S : Schedule p.cfg) (n : ℕ) (s : ι) (x : ν) : Prop :=
  ∃ q ∈ p.cfg.predecessors s, LiveOut p S (S.against n q s) q x

/-- `x` is defined at `s`, or live before or after it, or live after a predecessor. -/
def Known (p : Program ι ν) (S : Schedule p.cfg) (n : ℕ) (s : ι) (x : ν) : Prop :=
  s ∈ S.statements ∧
    (x ∈ (p.flowInfo s).defined ∨ LiveIn p S n s x ∨ LiveOut p S n s x ∨ LivePred p S n s x)

/-- No path with `n` steps against the order makes anything known, or anything live after
a statement, that paths with fewer do not. -/
def Settled (p : Program ι ν) (S : Schedule p.cfg) (n : ℕ) : Prop :=
  ∀ s x, (Known p S (n + 1) s x → Known p S n s x) ∧ (LiveOut p S (n + 1) s x → LiveOut p S n s x)

/-- Once `n` steps against the order make nothing more known than fewer do, more of them make
nothing known and nothing live after a statement. -/
def Steady (p : Program ι ν) (S : Schedule p.cfg) : Prop :=
  ∀ n, 1 ≤ n → (∀ s x, Known p S (n + 1) s x → Known p S n s x) → Settled p S (n + 1)

section

variable {p : Program ι ν} {S : Schedule p.cfg} {n m : ℕ} {s t : ι} {x : ν}

theorem not_liveIn_zero (h : LiveIn p S 0 s x) : False := by
  generalize hn : 0 = n at h
  induction h with
  | use => cases hn
  | step _ _ _ _ ih =>
    subst hn
    exact ih (Nat.le_zero.mp (against_le S 0 _ _)).symm

theorem LiveIn.mem (h : LiveIn p S n s x) : s ∈ S.statements := by
  cases h with
  | use hs _ => exact hs
  | step hs _ _ _ => exact hs

theorem LiveIn.mono (h : LiveIn p S n s x) (hnm : n ≤ m) : LiveIn p S m s x := by
  induction h generalizing m with
  | use hs hx =>
    obtain ⟨k, rfl⟩ : ∃ k, m = k + 1 := ⟨m - 1, by omega⟩
    exact .use hs hx
  | step hs hx ht _ ih => exact .step hs hx ht (ih (against_mono S hnm _ _))

theorem LiveOut.mono (h : LiveOut p S n s x) (hnm : n ≤ m) : LiveOut p S m s x := by
  obtain ⟨hs, hx, t, ht, hlive⟩ := h
  exact ⟨hs, hx, t, ht, hlive.mono (against_mono S hnm _ _)⟩

theorem LivePred.mono (h : LivePred p S n s x) (hnm : n ≤ m) : LivePred p S m s x := by
  obtain ⟨q, hq, hlive⟩ := h
  exact ⟨q, hq, hlive.mono (against_mono S hnm _ _)⟩

theorem Known.mono (h : Known p S n s x) (hnm : n ≤ m) : Known p S m s x := by
  obtain ⟨hs, hx | hx | hx | hx⟩ := h
  · exact ⟨hs, .inl hx⟩
  · exact ⟨hs, .inr (.inl (hx.mono hnm))⟩
  · exact ⟨hs, .inr (.inr (.inl (hx.mono hnm)))⟩
  · exact ⟨hs, .inr (.inr (.inr (hx.mono hnm)))⟩

theorem liveIn_iff (hn : 1 ≤ n) (hs : s ∈ S.statements) :
    LiveIn p S n s x ↔ x ∈ (p.flowInfo s).modified ∪ (p.flowInfo s).read ∨
      (x ∉ (p.flowInfo s).defined ∪ (p.flowInfo s).cleared ∧ LiveOut p S n s x) := by
  constructor
  · intro h
    cases h with
    | use _ hx => exact .inl hx
    | step _ hx ht hlive =>
      exact .inr ⟨hx, hs, fun hc => hx (Finset.mem_union_right _ hc), _, ht, hlive⟩
  · rintro (hx | ⟨hx, -, -, t, ht, hlive⟩)
    · exact (LiveIn.use (n := 0) hs hx).mono hn
    · exact .step hs hx ht hlive

/-! ## When paths that go against the order more often add nothing -/

theorem LiveIn.of_liveOut_settled (hn : 1 ≤ n)
    (hout : ∀ s x, LiveOut p S (n + 1) s x → LiveOut p S n s x) (h : LiveIn p S m s x) :
    LiveIn p S n s x := by
  induction h with
  | use hs hx => exact (LiveIn.use (n := 0) hs hx).mono hn
  | step hs hx ht _ ih =>
    refine (liveIn_iff hn hs).mpr (.inr ⟨hx, hout _ _ ⟨hs, ?_, _, ht, ?_⟩⟩)
    · exact fun hc => hx (Finset.mem_union_right _ hc)
    · exact ih.mono (le_against_succ S n _ _)

theorem Settled.liveOut (hn : 1 ≤ n) (h : Settled p S n) (hx : LiveOut p S m s x) :
    LiveOut p S n s x := by
  obtain ⟨hs, hc, t, ht, hlive⟩ := hx
  have hlive' := hlive.of_liveOut_settled hn fun s x => (h s x).2
  exact (h s x).2 ⟨hs, hc, t, ht, hlive'.mono (le_against_succ S n _ _)⟩

theorem Settled.known (hn : 1 ≤ n) (h : Settled p S n) (hx : Known p S m s x) :
    Known p S n s x := by
  obtain ⟨hs, hx | hx | hx | ⟨q, hq, hx⟩⟩ := hx
  · exact ⟨hs, .inl hx⟩
  · exact ⟨hs, .inr (.inl (hx.of_liveOut_settled hn fun s x => (h s x).2))⟩
  · exact ⟨hs, .inr (.inr (.inl (h.liveOut hn hx)))⟩
  · apply (h s x).1
    exact ⟨hs, .inr (.inr (.inr ⟨q, hq, (h.liveOut hn hx).mono (le_against_succ S n _ _)⟩))⟩

theorem Settled.of_le (hn : 1 ≤ n) (h : Settled p S n) (hnm : n ≤ m) : Settled p S m :=
  fun _ _ => ⟨fun hx => (h.known hn hx).mono hnm, fun hx => (h.liveOut hn hx).mono hnm⟩

theorem steady_iff (hn : 1 ≤ n) (hknown : ∀ s x, Known p S (n + 1) s x → Known p S n s x)
    (hfirst : ∀ m, 1 ≤ m → m < n → ¬ ∀ s x, Known p S (m + 1) s x → Known p S m s x) :
    Steady p S ↔ Settled p S (n + 1) := by
  constructor
  · exact fun h => h n hn hknown
  · intro h m hm hm'
    have hnm : n ≤ m := by
      by_contra hlt
      exact hfirst m hm (by omega) hm'
    exact h.of_le (by omega) (by omega)

end

end Hilti.Liveness
