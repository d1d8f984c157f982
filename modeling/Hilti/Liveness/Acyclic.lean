import Hilti.Liveness.Exact

/-!
# Functions without loops

In a graph without cycles the depth-first order lists every statement behind its
successors.  Nothing is then handed on against the order, and the sets are exact.
-/

namespace Hilti.Liveness

open Hilti.Lib Relation

set_option autoImplicit false

variable {ι ν : Type} [DecidableEq ι]

/-! ## The order -/

section

variable {g : Cfg ι}

/-- One or more edges lead from `s` to `t`. -/
def Cfg.LeadsTo (g : Cfg ι) : ι → ι → Prop :=
  TransGen fun s t => t ∈ g.successors s

/-- Every statement of the list stands behind its successors. -/
def SuccessorsFirst (g : Cfg ι) (l : List ι) : Prop :=
  ∀ s ∈ l, ∀ t ∈ g.successors s, t ∈ l ∧ l.idxOf t < l.idxOf s

theorem SuccessorsFirst.append {l : List ι} {s : ι} (h : SuccessorsFirst g l) (hs : s ∉ l)
    (hsucc : ∀ t ∈ g.successors s, t ∈ l) : SuccessorsFirst g (l ++ [s]) := by
  intro q hq t ht
  obtain hq | hq := List.mem_append.mp hq
  · obtain ⟨htl, hlt⟩ := h q hq t ht
    rw [List.idxOf_append_of_mem hq, List.idxOf_append_of_mem htl]
    exact ⟨List.mem_append_left _ htl, hlt⟩
  · obtain rfl := List.mem_singleton.mp hq
    have htl := hsucc t ht
    have hlt := List.idxOf_lt_length_iff.mpr htl
    rw [List.idxOf_append_of_mem htl, List.idxOf_append_of_notMem hs]
    exact ⟨List.mem_append_left _ htl, by omega⟩

/-- What is recorded has been seen, and what is seen but not recorded leads to `s`. -/
structure Descending (g : Cfg ι) (s : ι) (r : Recorded ι) : Prop where
  seen : ∀ t ∈ r.statements, t ∈ r.done
  leads : ∀ t ∈ r.done, t ∉ r.statements → g.LeadsTo t s

omit [DecidableEq ι] in
theorem Records.mem {r r' : Recorded ι} (h : Records r r') {t : ι} (ht : t ∈ r.statements) :
    t ∈ r'.statements := by
  obtain ⟨new, heq, -, -⟩ := h.new
  rw [heq]
  exact List.mem_append_left _ ht

theorem Descending.records {s : ι} {r r' : Recorded ι} (h : Descending g s r)
    (hr : Records r r') : Descending g s r' := by
  obtain ⟨new, heq, -, hmem⟩ := hr.new
  constructor
  · intro t ht
    rw [heq] at ht
    obtain ht | ht := List.mem_append.mp ht
    · exact hr.subset (h.seen t ht)
    · exact ((hmem t).mp ht).1
  · intro t ht hn
    rw [heq, List.mem_append, not_or, hmem] at hn
    have hseen : t ∈ r.done := by
      by_contra hnot
      exact hn.2 ⟨ht, hnot⟩
    exact h.leads t hseen hn.1

theorem foldlM_visit_records {fuel : ℕ} {l : List ι} {r r' : Recorded ι}
    (h : l.foldlM (fun r s => g.visit fuel s r) r = some r') : Records r r' :=
  foldlM_records (fun r s r' hs => visit_records fuel s r r' hs) l r r' h

theorem foldlM_first {fuel : ℕ}
    (hvisit : ∀ s r r', g.visit fuel s r = some r' → Descending g s r →
      SuccessorsFirst g r.statements → SuccessorsFirst g r'.statements ∧ s ∈ r'.statements)
    (l : List ι) : ∀ r r', l.foldlM (fun r s => g.visit fuel s r) r = some r' →
      (∀ s ∈ l, Descending g s r) → SuccessorsFirst g r.statements →
        SuccessorsFirst g r'.statements ∧ ∀ s ∈ l, s ∈ r'.statements := by
  induction l with
  | nil =>
    intro r r' h _ hr
    cases h
    exact ⟨hr, by simp⟩
  | cons s l ih =>
    intro r r' h hl hr
    rw [List.foldlM_cons] at h
    obtain ⟨r₁, h₁, h₂⟩ := Option.bind_eq_some_iff.mp h
    have hrec := visit_records fuel s r r₁ h₁
    obtain ⟨hr₁, hs⟩ := hvisit s r r₁ h₁ (hl s (by simp)) hr
    obtain ⟨hr', hl'⟩ := ih r₁ r' h₂ (fun c hc => (hl c (by simp [hc])).records hrec) hr₁
    refine ⟨hr', fun c hc => ?_⟩
    obtain rfl | hc := List.mem_cons.mp hc
    · exact (foldlM_visit_records h₂).mem hs
    · exact hl' c hc

theorem visit_first (hacyclic : ∀ s, ¬ g.LeadsTo s s) (fuel : ℕ) :
    ∀ s r r', g.visit fuel s r = some r' → Descending g s r →
      SuccessorsFirst g r.statements → SuccessorsFirst g r'.statements ∧ s ∈ r'.statements := by
  induction fuel with
  | zero => intro s r r' h; cases h
  | succ fuel ih =>
    intro s r r' h hd hr
    unfold Cfg.visit depthFirst at h
    by_cases hs : s ∈ r.done
    · rw [if_pos (by simpa using hs)] at h
      cases h
      refine ⟨hr, ?_⟩
      by_contra hn
      exact hacyclic s (hd.leads s hs hn)
    · rw [if_neg (by simpa using hs)] at h
      obtain ⟨r₁, h₁, h⟩ := Option.bind_eq_some_iff.mp h
      cases h₁
      obtain ⟨r₂, h₂, h⟩ := Option.bind_eq_some_iff.mp h
      cases h
      -- the statement is open while its successors are visited
      have hchild : ∀ c ∈ g.successors s,
          Descending g c { r with done := insert s r.done } := by
        intro c hc
        refine ⟨fun t ht => Finset.mem_insert_of_mem (hd.seen t ht), fun t ht hn => ?_⟩
        obtain rfl | ht := Finset.mem_insert.mp ht
        · exact .single hc
        · exact .tail (hd.leads t ht hn) hc
      obtain ⟨hr₂, hc₂⟩ := foldlM_first ih _ _ r₂ h₂ hchild hr
      have hs₂ : s ∉ r₂.statements := by
        obtain ⟨new, heq, -, hmem⟩ := (foldlM_visit_records h₂).new
        rw [heq, List.mem_append, not_or, hmem]
        exact ⟨fun ht => hs (hd.seen s ht), fun ht => ht.2 (Finset.mem_insert_self s _)⟩
      exact ⟨hr₂.append hs₂ hc₂, List.mem_append_right _ (List.mem_singleton_self s)⟩

theorem depthFirstOrder_first (hacyclic : ∀ s, ¬ g.LeadsTo s s) {bodies l : List ι} {fuel : ℕ}
    (h : g.depthFirstOrder fuel bodies = some l) : SuccessorsFirst g l := by
  obtain ⟨r, hr, rfl⟩ := Option.map_eq_some_iff.mp h
  refine (foldlM_first (visit_first hacyclic fuel) bodies _ r hr (fun s _ => ?_) ?_).1
  · exact ⟨by simp, by simp⟩
  · exact fun s hs => absurd hs (List.not_mem_nil)

end

/-! ## The sets -/

variable [DecidableEq ν] {p : Program ι ν} {S : Schedule p.cfg} {n m : ℕ} {s t : ι} {x : ν}

omit [DecidableEq ν] in
theorem SuccessorsFirst.against (h : SuccessorsFirst p.cfg S.statements) (hs : s ∈ S.statements)
    (ht : t ∈ p.cfg.successors s) : S.against n t s = n :=
  if_pos (h s hs t ht).2

theorem LiveIn.of_first (hfirst : SuccessorsFirst p.cfg S.statements) (h : LiveIn p S n s x)
    (hm : 1 ≤ m) : LiveIn p S m s x := by
  induction h with
  | use hs hx => exact (LiveIn.use (n := 0) hs hx).mono hm
  | step hs hx ht _ ih =>
    apply LiveIn.step hs hx ht
    rw [hfirst.against hs ht]
    exact ih

theorem LiveOut.of_first (hfirst : SuccessorsFirst p.cfg S.statements) (h : LiveOut p S n s x)
    (hm : 1 ≤ m) : LiveOut p S m s x := by
  obtain ⟨hs, hc, t, ht, hlive⟩ := h
  refine ⟨hs, hc, t, ht, ?_⟩
  rw [hfirst.against hs ht]
  exact hlive.of_first hfirst hm

/-- Only what is live after predecessors, which come later, takes a second round. -/
theorem settled_of_first (hfirst : SuccessorsFirst p.cfg S.statements) : Settled p S 2 := by
  refine fun s x => ⟨?_, fun h => h.of_first hfirst (by omega)⟩
  rintro ⟨hs, h | h | h | ⟨q, hq, h⟩⟩
  · exact ⟨hs, .inl h⟩
  · exact ⟨hs, .inr (.inl (h.of_first hfirst (by omega)))⟩
  · exact ⟨hs, .inr (.inr (.inl (h.of_first hfirst (by omega))))⟩
  · exact ⟨hs, .inr (.inr (.inr ⟨q, hq, h.of_first hfirst (le_against_succ S 1 q s)⟩))⟩

theorem run_exact_of_settled (h : Settled p S 2) (k : Hasher S ν) :
    ∃ l, (∀ fuel, 3 ≤ fuel → run k fuel = some l) ∧ Exact p S l := by
  by_cases hempty : S.statements = []
  · have hno : ∀ s, s ∉ S.statements := by simp [hempty]
    refine ⟨fun _ => none, fun fuel hf => ?_, fun s hs => absurd hs (hno s),
      fun s hs => absurd hs (hno s), fun s hs => absurd hs (hno s), fun s hs => absurd hs (hno s)⟩
    obtain ⟨m, rfl⟩ : ∃ m, fuel = m + 1 := ⟨fuel - 1, by omega⟩
    exact run_of_no_statements k hempty m
  have hprocessed := processed_rounds p S
  have hentries : ∀ n, 1 ≤ n → (k.entries (rounds p S n)).length = S.statements.length := by
    intro n hn
    rw [k.entries_eq fun s => (hprocessed n).isSome_iff hn, List.length_map, k.perm.length_eq]
  -- the first round stores sets for the first time
  have hone : ∀ n, run k (n + 1) = runLoop k n (rounds p S 1) := by
    refine fun n => runLoop_of_changed n (.inl ?_)
    show (k.entries (rounds p S 0)).length ≠ (k.entries (rounds p S 1)).length
    rw [(hprocessed 0).entries_zero, hentries 1 le_rfl]
    exact fun heq => hempty (List.length_eq_zero_iff.mp heq.symm)
  by_cases hhash : k.hashLiveness (rounds p S 1) = k.hashLiveness (rounds p S 2)
  · refine ⟨rounds p S 2, fun fuel hf => ?_, ((hprocessed 2).exact_iff (by omega)).mpr h⟩
    obtain ⟨m, rfl⟩ : ∃ m, fuel = m + 2 := ⟨fuel - 2, by omega⟩
    rw [hone]
    exact runLoop_of_unchanged m ((hentries 1 le_rfl).trans (hentries 2 (by omega)).symm) hhash
  · have h₃ := h.of_le (m := 3) (by omega) (by omega)
    refine ⟨rounds p S 3, fun fuel hf => ?_, ((hprocessed 3).exact_iff (by omega)).mpr h₃⟩
    obtain ⟨m, rfl⟩ : ∃ m, fuel = m + 3 := ⟨fuel - 3, by omega⟩
    rw [hone, runLoop_of_changed (m + 1) (.inr hhash)]
    exact runLoop_of_unchanged m ((hentries 2 (by omega)).trans (hentries 3 (by omega)).symm)
      ((hprocessed 2).hash_eq (by omega) fun s x => (h s x).1)

/-- A branch to 1 or 2, both of which go on with 3. -/
def branchCfg : Cfg (Fin 4) :=
  (((Cfg.empty.addSuccessor 0 1).addSuccessor 0 2).addSuccessor 1 3).addSuccessor 2 3

end Hilti.Liveness
