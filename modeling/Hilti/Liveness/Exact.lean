import Hilti.Liveness.Order
import Hilti.Liveness.Rounds
import Mathlib.Data.Fintype.Pi

/-!
# When the sets are exact

The sets with which the loop ends satisfy the data flow equations exactly if a round in
which nothing becomes known is never followed by one in which something would.
-/

namespace Hilti.Liveness

set_option autoImplicit false

variable {ι ν : Type} [DecidableEq ι] [DecidableEq ν]

/-- The data flow equations hold, and nothing that is read later is dead. -/
structure Exact (p : Program ι ν) (S : Schedule p.cfg) (l : Livenesses ι ν) : Prop where
  out_eq : ∀ s ∈ S.statements,
    (liveness l s).liveOut = liveBefore p.cfg l s \ (p.flowInfo s).cleared
  in_eq : ∀ s ∈ S.statements,
    (liveness l s).liveIn =
      ((liveness l s).liveOut \ ((p.flowInfo s).defined ∪ (p.flowInfo s).cleared)) ∪
        ((p.flowInfo s).modified ∪ (p.flowInfo s).read)
  dead_eq : ∀ s ∈ S.statements,
    (liveness l s).dead =
      (((liveness l s).liveIn \ (liveness l s).liveOut) ∪
        ((p.flowInfo s).defined \ (liveness l s).liveOut)) ∪
          ((predLive p.cfg l s \ (liveness l s).liveIn) \ (liveness l s).liveOut)
  not_dead : ∀ s ∈ S.statements, ∀ x, x ∉ (p.flowInfo s).cleared →
    (∃ t ∈ p.cfg.successors s, Reads p t x) → x ∉ (liveness l s).dead

variable {p : Program ι ν} {S : Schedule p.cfg} {n : ℕ} {s t : ι} {x : ν}
  {l : Livenesses ι ν} {k : Hasher S ν}

/-! ## The equations along paths -/

theorem Processed.in_eq (h : Processed p S n [] l) (hn : 1 ≤ n) (hs : s ∈ S.statements) :
    (liveness l s).liveIn =
      ((liveness l s).liveOut \ ((p.flowInfo s).defined ∪ (p.flowInfo s).cleared)) ∪
        ((p.flowInfo s).modified ∪ (p.flowInfo s).read) := by
  ext x
  rw [Finset.mem_union, Finset.mem_sdiff, h.liveIn_iff, h.liveOut_iff,
    Liveness.liveIn_iff hn hs, or_comm, and_comm]

theorem Processed.out_iff (h : Processed p S n [] l) :
    x ∈ liveBefore p.cfg l s \ (p.flowInfo s).cleared ↔
      x ∉ (p.flowInfo s).cleared ∧ ∃ t ∈ p.cfg.successors s, LiveIn p S n t x := by
  rw [Finset.mem_sdiff, mem_liveBefore, and_comm]
  simp only [h.liveIn_iff]

theorem Processed.out_eq_iff (h : Processed p S n [] l) (hn : 1 ≤ n) :
    (∀ s ∈ S.statements,
      (liveness l s).liveOut = liveBefore p.cfg l s \ (p.flowInfo s).cleared) ↔
    ∀ s x, LiveOut p S (n + 1) s x → LiveOut p S n s x := by
  constructor
  · intro heq
    have hout : ∀ s ∈ S.statements, ∀ x, x ∉ (p.flowInfo s).cleared →
        (∃ t ∈ p.cfg.successors s, LiveIn p S n t x) → LiveOut p S n s x := by
      intro s hs x hc ht
      rw [← h.liveOut_iff, heq s hs]
      exact h.out_iff.mpr ⟨hc, ht⟩
    -- along a path with any number of steps against the order
    have hin : ∀ m s x, LiveIn p S m s x → LiveIn p S n s x := by
      intro m s x hx
      induction hx with
      | use hs hx => exact (LiveIn.use (n := 0) hs hx).mono hn
      | step hs hx ht _ ih =>
        refine (Liveness.liveIn_iff hn hs).mpr (.inr ⟨hx, hout _ hs _ ?_ ⟨_, ht, ih⟩⟩)
        exact fun hc => hx (Finset.mem_union_right _ hc)
    rintro s x ⟨hs, hc, t, ht, hlive⟩
    exact hout s hs x hc ⟨t, ht, hin _ t x hlive⟩
  · intro hout s hs
    ext x
    rw [h.liveOut_iff, h.out_iff]
    constructor
    · rintro ⟨-, hc, t, ht, hlive⟩
      exact ⟨hc, t, ht, hlive.mono (against_le S n t s)⟩
    · rintro ⟨hc, t, ht, hlive⟩
      exact hout s x ⟨hs, hc, t, ht, hlive.mono (le_against_succ S n t s)⟩

theorem Processed.final_dead_iff (h : Processed p S n [] l) :
    x ∈ (((liveness l s).liveIn \ (liveness l s).liveOut) ∪
        ((p.flowInfo s).defined \ (liveness l s).liveOut)) ∪
          ((predLive p.cfg l s \ (liveness l s).liveIn) \ (liveness l s).liveOut) ↔
      ¬ LiveOut p S n s x ∧ (LiveIn p S n s x ∨ x ∈ (p.flowInfo s).defined ∨
        ∃ q ∈ p.cfg.predecessors s, LiveOut p S n q x) := by
  simp only [Finset.mem_union, Finset.mem_sdiff, mem_predLive, h.liveIn_iff, h.liveOut_iff]
  tauto

theorem Processed.dead_eq_iff (h : Processed p S n [] l) (hn : 1 ≤ n)
    (hout : ∀ s x, LiveOut p S (n + 1) s x → LiveOut p S n s x) :
    (∀ s ∈ S.statements,
      (liveness l s).dead =
        (((liveness l s).liveIn \ (liveness l s).liveOut) ∪
          ((p.flowInfo s).defined \ (liveness l s).liveOut)) ∪
            ((predLive p.cfg l s \ (liveness l s).liveIn) \ (liveness l s).liveOut)) ↔
    ∀ s x, Known p S (n + 1) s x → Known p S n s x := by
  constructor
  · rintro heq s x ⟨hs, hx | hx | hx | ⟨q, hq, hx⟩⟩
    · exact ⟨hs, .inl hx⟩
    · exact ⟨hs, .inr (.inl (hx.of_liveOut_settled hn hout))⟩
    · exact ⟨hs, .inr (.inr (.inl (hout s x hx)))⟩
    · have hq' : LiveOut p S n q x := hout q x (hx.mono (against_le S _ _ _))
      by_cases ho : LiveOut p S n s x
      · exact ⟨hs, .inr (.inr (.inl ho))⟩
      · have hdead := h.final_dead_iff.mpr ⟨ho, .inr (.inr ⟨q, hq, hq'⟩)⟩
        rw [← heq s hs, h.dead_iff hn hs] at hdead
        obtain ⟨-, hi | hd | hp⟩ := hdead
        · exact ⟨hs, .inr (.inl hi)⟩
        · exact ⟨hs, .inl hd⟩
        · exact ⟨hs, .inr (.inr (.inr hp))⟩
  · intro hknown s hs
    ext x
    rw [h.dead_iff hn hs, h.final_dead_iff]
    refine and_congr_right fun ho => ?_
    constructor
    · rintro (hi | hd | ⟨q, hq, hx⟩)
      · exact .inl hi
      · exact .inr (.inl hd)
      · exact .inr (.inr ⟨q, hq, hx.mono (against_le S _ _ _)⟩)
    · rintro (hi | hd | ⟨q, hq, hx⟩)
      · exact .inl hi
      · exact .inr (.inl hd)
      · have hk : Known p S (n + 1) s x :=
          ⟨hs, .inr (.inr (.inr ⟨q, hq, hx.mono (le_against_succ S n q s)⟩))⟩
        obtain ⟨-, hd | hi | ho' | hp⟩ := hknown s x hk
        · exact .inr (.inl hd)
        · exact .inl hi
        · exact absurd ho' ho
        · exact .inr (.inr hp)

theorem Reads.mem_liveIn (h : Processed p S n [] l) (hn : 1 ≤ n)
    (hout : ∀ s ∈ S.statements,
      (liveness l s).liveOut = liveBefore p.cfg l s \ (p.flowInfo s).cleared)
    (hx : Reads p s x) (hs : s ∈ S.statements) : x ∈ (liveness l s).liveIn := by
  induction hx with
  | here hx =>
    rw [h.in_eq hn hs]
    exact Finset.mem_union_right _ hx
  | @later s t x hx ht _ ih =>
    rw [h.in_eq hn hs, hout s hs]
    refine Finset.mem_union_left _ (Finset.mem_sdiff.mpr ⟨Finset.mem_sdiff.mpr ⟨?_, ?_⟩, hx⟩)
    · exact mem_liveBefore.mpr ⟨t, ht, ih (S.closed s hs t ht)⟩
    · exact fun hc => hx (Finset.mem_union_right _ hc)

theorem Processed.exact_iff (h : Processed p S n [] l) (hn : 1 ≤ n) :
    Exact p S l ↔ Settled p S n := by
  constructor
  · intro hexact
    have hout := (h.out_eq_iff hn).mp hexact.out_eq
    exact fun s x => ⟨(h.dead_eq_iff hn hout).mp hexact.dead_eq s x, hout s x⟩
  · intro hsettled
    have hout := (h.out_eq_iff hn).mpr fun s x => (hsettled s x).2
    have hdead := (h.dead_eq_iff hn fun s x => (hsettled s x).2).mpr fun s x => (hsettled s x).1
    refine ⟨hout, fun s hs => h.in_eq hn hs, hdead, ?_⟩
    rintro s hs x hc ⟨t, ht, hx⟩ hd
    have hmem : x ∈ (liveness l s).liveOut := by
      rw [hout s hs]
      exact Finset.mem_sdiff.mpr
        ⟨mem_liveBefore.mpr ⟨t, ht, hx.mem_liveIn h hn hout (S.closed s hs t ht)⟩, hc⟩
    rw [h.dead_iff hn hs] at hd
    exact hd.1 (h.liveOut_iff.mp hmem)

/-! ## The whole pass -/

theorem run_of_no_statements (k : Hasher S ν) (hempty : S.statements = []) (fuel : ℕ) :
    run k (fuel + 1) = some fun _ => none := by
  have hstatements : k.statements = [] := by
    have hperm := k.perm
    rw [hempty] at hperm
    exact hperm.eq_nil
  have hround : round p S (fun _ => none) = fun _ => none := by
    unfold round
    rw [hempty]
    rfl
  unfold run runLoop
  rw [hround]
  simp

/-- For every control flow graph, flow information and order of the statements: the pass
ends, and its sets are exact if and only if the order is steady for the program. -/
theorem run_exact_iff (p : Program ι ν) (S : Schedule p.cfg) (k : Hasher S ν)
    (hfree : k.CollisionFree) :
    ∃ n l, (∀ fuel, n ≤ fuel → run k fuel = some l) ∧ (Exact p S l ↔ Steady p S) := by
  by_cases hempty : S.statements = []
  · refine ⟨1, fun _ => none, fun fuel hf => ?_, ?_⟩
    · obtain ⟨m, rfl⟩ : ∃ m, fuel = m + 1 := ⟨fuel - 1, by omega⟩
      exact run_of_no_statements k hempty m
    · have hno : ∀ s, s ∉ S.statements := by simp [hempty]
      have hexact : Exact p S (fun _ => none) :=
        ⟨fun s hs => absurd hs (hno s), fun s hs => absurd hs (hno s),
          fun s hs => absurd hs (hno s), fun s hs => absurd hs (hno s)⟩
      have hsteady : Steady p S :=
        fun n _ _ s x => ⟨fun hk => absurd hk.1 (hno s), fun ho => absurd ho.1 (hno s)⟩
      exact ⟨fun _ => hsteady, fun _ => hexact⟩
  · have hex := exists_known_stable p S
    classical
    obtain ⟨hm, hknown⟩ := Nat.find_spec hex
    have hfirst : ∀ i, 1 ≤ i → i < Nat.find hex →
        ¬ ∀ s x, Known p S (i + 1) s x → Known p S i s x :=
      fun i hi hlt hk => Nat.find_min hex hlt ⟨hi, hk⟩
    refine ⟨Nat.find hex + 1, rounds p S (Nat.find hex + 1), fun fuel hf => ?_, ?_⟩
    · exact runLoop_rounds hfree hempty hm hknown hfirst fuel 0 (by omega) (by omega)
    · rw [(processed_rounds p S _).exact_iff (by omega), steady_iff hm hknown hfirst]

/-! ## A variable that is read, and reported dead -/

/-- A loop: 0 reads the variable, 1 branches to 0, 2 and 3, of which 2 and 3 assign the
variable and return to 1; 2 may leave for 4, which reads it. -/
def loopCfg : Cfg (Fin 5) :=
  (((((Cfg.empty.addSuccessor 0 1).addSuccessor 1 0).addSuccessor 1 2).addSuccessor 1 3).addSuccessor
    2 1 |>.addSuccessor 2 4).addSuccessor 3 1

def loopProgram : Program (Fin 5) (Fin 1) where
  cfg := loopCfg
  flowInfo s := match s with
    | 0 => ⟨∅, ∅, ∅, {0}⟩
    | 1 => ⟨∅, ∅, ∅, ∅⟩
    | 2 => ⟨{0}, ∅, ∅, ∅⟩
    | 3 => ⟨{0}, ∅, ∅, ∅⟩
    | 4 => ⟨∅, ∅, ∅, {0}⟩

def loopSchedule : Schedule loopProgram.cfg where
  statements := [4, 2, 3, 1, 0]
  nodup := by decide
  closed := by decide

def loopHasher : Hasher loopSchedule (Fin 1) where
  hashPtr s := ⟨s.val + 1, by omega⟩
  hashStr _ := 7
  statements := [0, 1, 2, 3, 4]
  names := [0]
  perm := by decide

def loopHash (recorded : Fin 5 → Bool) : UInt64 :=
  loopHasher.statements.foldl (fun hash s =>
    ([0].filter fun _ => recorded s).foldl (fun hash v => (hash + loopHasher.hashStr v) * 17)
      ((hash + loopHasher.hashPtr s) * 17)) 0

theorem loopHash_injective : ∀ f g : Fin 5 → Bool, loopHash f = loopHash g → f = g := by
  decide

theorem loopHasher_collisionFree : loopHasher.CollisionFree := by
  have hhash : ∀ l : Livenesses (Fin 5) (Fin 1),
      (∀ s, (l s).isSome = true ↔ s ∈ loopSchedule.statements) →
        loopHasher.hashLiveness l = loopHash fun s => decide (0 ∈ (liveness l s).union) := by
    intro l hl
    unfold Hasher.hashLiveness loopHash
    rw [loopHasher.entries_eq hl, List.foldl_map]
    rfl
  intro l l' hl hl' heq s
  rw [hhash l hl, hhash l' hl'] at heq
  have hs := congrFun (loopHash_injective _ _ heq) s
  ext x
  rw [Subsingleton.elim x 0]
  exact decide_eq_decide.mp hs

/-- The depth-first order of the loop is steady or not as its sets are exact or not. -/
theorem run_exact_iff_loop : ∃ n l, (∀ fuel, n ≤ fuel → run loopHasher fuel = some l) ∧
    (Exact loopProgram loopSchedule l ↔ Steady loopProgram loopSchedule) :=
  run_exact_iff loopProgram loopSchedule loopHasher loopHasher_collisionFree

/-- The order is the depth-first one.  The pass ends after two rounds.  The variable is then dead at 3, although 0 reads it after 1. -/
theorem liveness_inexact :
    loopCfg.depthFirstOrder 6 [0] = some loopSchedule.statements ∧
    loopHasher.CollisionFree ∧ (∃ l, run loopHasher 2 = some l ∧
      0 ∈ (liveness l 3).dead ∧ (liveness l 3).liveOut = ∅ ∧ 0 ∈ (liveness l 1).liveIn ∧
      ¬ Exact loopProgram loopSchedule l) ∧
    (1 ∈ loopCfg.successors 3 ∧ Reads loopProgram 1 0) := by
  have hreads : Reads loopProgram 1 0 := by
    refine .later (t := 0) (by decide) (by decide) (.here (by decide))
  refine ⟨by decide, loopHasher_collisionFree, ⟨rounds loopProgram loopSchedule 2,
    ?_, ?_, ?_, ?_, ?_⟩, ?_, hreads⟩
  · have hfirst : (loopHasher.entries (rounds loopProgram loopSchedule 0)).length ≠
        (loopHasher.entries (rounds loopProgram loopSchedule 1)).length := by decide
    exact (runLoop_of_changed 1 (.inl hfirst)).trans
      (runLoop_of_unchanged 0 (by decide) (by decide))
  · decide
  · decide
  · decide
  · intro hexact
    exact hexact.not_dead 3 (by decide) 0 (by decide) ⟨1, by decide, hreads⟩ (by decide)
  · decide

end Hilti.Liveness
