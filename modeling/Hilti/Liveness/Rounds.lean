import Hilti.Liveness.Paths
import Mathlib.Data.Fintype.Powerset
import Mathlib.Order.OrderIsoNat

/-!
# What the rounds compute

After `n` rounds the sets hold what is read along paths that go against the order less
than `n` times.  The hash is taken of the variables known at the statements, so the loop
ends once nothing more becomes known, which need not be the end of the propagation.
-/

namespace Hilti.Liveness

set_option autoImplicit false

variable {ι ν : Type} [DecidableEq ι] [DecidableEq ν]

variable {p : Program ι ν} {S : Schedule p.cfg} {n m : ℕ} {s t : ι} {x : ν}

/-! ## One statement -/

theorem mem_foldl_union {α : Type} (f : α → Finset ν) (l : List α) (acc : Finset ν) :
    x ∈ l.foldl (fun acc a => acc ∪ f a) acc ↔ x ∈ acc ∨ ∃ a ∈ l, x ∈ f a := by
  induction l generalizing acc with
  | nil => simp
  | cons a l ih =>
    rw [List.foldl_cons, ih, Finset.mem_union, List.exists_mem_cons_iff, or_assoc]

theorem mem_liveBefore {g : Cfg ι} {l : Livenesses ι ν} :
    x ∈ liveBefore g l s ↔ ∃ t ∈ g.successors s, x ∈ (liveness l t).liveIn := by
  unfold liveBefore
  rw [mem_foldl_union]
  simp

theorem mem_predLive {g : Cfg ι} {l : Livenesses ι ν} :
    x ∈ predLive g l s ↔ ∃ q ∈ g.predecessors s, x ∈ (liveness l q).liveOut := by
  unfold predLive
  rw [mem_foldl_union]
  simp

theorem sdiff_of_card {a b : Finset ν} : (if b.card ≠ 0 then a \ b else a) = a \ b := by
  split
  · rfl
  · rename_i hb
    rw [Finset.card_eq_zero.mp (not_not.mp hb), Finset.sdiff_empty]

theorem union_of_card {a b : Finset ν} : (if b.card ≠ 0 then a ∪ b else a) = a ∪ b := by
  split
  · rfl
  · rename_i hb
    rw [Finset.card_eq_zero.mp (not_not.mp hb), Finset.union_empty]

@[simp] theorem liveness_update_self (l : Livenesses ι ν) (s : ι) (sets : LivenessSets ν) :
    liveness (Function.update l s (some sets)) s = sets := by
  simp [liveness]

theorem liveness_update_ne (l : Livenesses ι ν) {s t : ι} (h : t ≠ s)
    (sets : Option (LivenessSets ν)) :
    liveness (Function.update l s sets) t = liveness l t := by
  simp [liveness, Function.update_of_ne h]

theorem processStatement_spec (p : Program ι ν) (l : Livenesses ι ν) (s : ι) :
    ∃ sets, processStatement p l s = Function.update l s (some sets) ∧
      (∀ x, x ∈ sets.liveOut ↔ x ∉ (p.flowInfo s).cleared ∧ x ∈ liveBefore p.cfg l s) ∧
      (∀ x, x ∈ sets.liveIn ↔ x ∈ (p.flowInfo s).modified ∪ (p.flowInfo s).read ∨
        (x ∉ (p.flowInfo s).defined ∪ (p.flowInfo s).cleared ∧ x ∈ sets.liveOut)) ∧
      ∀ x, x ∈ sets.dead ↔ x ∉ sets.liveOut ∧ (x ∈ sets.liveIn ∨ x ∈ (p.flowInfo s).defined ∨
        ∃ q ∈ p.cfg.predecessors s, q ≠ s ∧ x ∈ (liveness l q).liveOut) := by
  unfold processStatement setLiveness
  simp only [sdiff_of_card, union_of_card, Function.update_idem]
  refine ⟨_, rfl, fun x => ?_, fun x => ?_, fun x => ?_⟩
  · rw [Finset.mem_sdiff, and_comm]
  · simp only [Finset.mem_union, Finset.mem_sdiff, not_or]
    tauto
  · simp only [Finset.mem_union, Finset.mem_sdiff, mem_predLive]
    constructor
    · rintro ((⟨h, ho⟩ | ⟨h, ho⟩) | ⟨⟨⟨q, hq, hx⟩, _⟩, ho⟩)
      · exact ⟨ho, .inl h⟩
      · exact ⟨ho, .inr (.inl h)⟩
      · -- the new set of the statement itself is in place, and is taken away again
        have hqs : q ≠ s := by
          rintro rfl
          rw [liveness_update_self] at hx
          exact ho (Finset.mem_sdiff.mp hx)
        rw [liveness_update_ne _ hqs] at hx
        exact ⟨ho, .inr (.inr ⟨q, hq, hqs, hx⟩)⟩
    · rintro ⟨ho, h | h | ⟨q, hq, hqs, hx⟩⟩
      · exact .inl (.inl ⟨h, ho⟩)
      · exact .inl (.inr ⟨h, ho⟩)
      · by_cases hin : x ∈ (liveBefore p.cfg l s \ ((p.flowInfo s).defined ∪ (p.flowInfo s).cleared)) ∪
            ((p.flowInfo s).modified ∪ (p.flowInfo s).read)
        · exact .inl (.inl ⟨by simpa using hin, ho⟩)
        · exact .inr ⟨⟨⟨q, hq, by rwa [liveness_update_ne _ hqs]⟩, by simpa using hin⟩, ho⟩

/-- `x` is in the dead set of `s`, as computed from what is live around `s`. -/
def Dead (p : Program ι ν) (S : Schedule p.cfg) (n : ℕ) (s : ι) (x : ν) : Prop :=
  ¬ LiveOut p S n s x ∧ (LiveIn p S n s x ∨ x ∈ (p.flowInfo s).defined ∨ LivePred p S n s x)

/-- After `n` rounds and the statements `pre` of the next, the sets hold what paths with less than
`n` steps against the order tell, and for the statements of `pre` those with one more. -/
structure Processed (p : Program ι ν) (S : Schedule p.cfg) (n : ℕ) (pre : List ι)
    (l : Livenesses ι ν) : Prop where
  stored : ∀ s, (l s).isSome = true ↔ s ∈ S.statements ∧ (s ∈ pre ∨ 0 < n)
  liveIn : ∀ s x, x ∈ (liveness l s).liveIn ↔ LiveIn p S (if s ∈ pre then n + 1 else n) s x
  liveOut : ∀ s x, x ∈ (liveness l s).liveOut ↔ LiveOut p S (if s ∈ pre then n + 1 else n) s x
  dead : ∀ s x, (l s).isSome = true →
    (x ∈ (liveness l s).dead ↔ Dead p S (if s ∈ pre then n + 1 else n) s x)

theorem before_iff {pre rest : List ι} (h : S.statements = pre ++ s :: rest) :
    S.Before t s ↔ t ∈ pre := by
  have hnodup := S.nodup
  rw [h] at hnodup
  have hs : s ∉ pre := fun hs => List.disjoint_of_nodup_append hnodup hs List.mem_cons_self
  unfold Schedule.Before
  rw [h, List.idxOf_append_of_notMem hs, List.idxOf_cons_self]
  by_cases ht : t ∈ pre
  · rw [List.idxOf_append_of_mem ht]
    have hlt := List.idxOf_lt_length_iff.mpr ht
    exact ⟨fun _ => ht, fun _ => by omega⟩
  · rw [List.idxOf_append_of_notMem ht]
    exact ⟨fun hlt => by omega, fun h' => absurd h' ht⟩

theorem against_eq {pre rest : List ι} (h : S.statements = pre ++ s :: rest) (t : ι) :
    S.against (n + 1) t s = if t ∈ pre then n + 1 else n := by
  unfold Schedule.against
  by_cases ht : t ∈ pre
  · rw [if_pos ((before_iff h).mpr ht), if_pos ht]
  · rw [if_neg (fun h' => ht ((before_iff h).mp h')), if_neg ht, Nat.add_sub_cancel]

/-- The step lemma: processing one statement. -/
theorem Processed.step {pre rest : List ι} {l : Livenesses ι ν} (h : Processed p S n pre l)
    (hpre : S.statements = pre ++ s :: rest) :
    Processed p S n (pre ++ [s]) (processStatement p l s) := by
  obtain ⟨sets, heq, hout, hin, hdead⟩ := processStatement_spec p l s
  have hs : s ∈ S.statements := by simp [hpre]
  have hmem : ∀ t, t ≠ s → (t ∈ pre ++ [s] ↔ t ∈ pre) := fun t ht => by simp [ht]
  have hlevel : (if s ∈ pre ++ [s] then n + 1 else n) = n + 1 := if_pos (by simp)
  have hlevel' : ∀ t, t ≠ s →
      (if t ∈ pre ++ [s] then n + 1 else n) = if t ∈ pre then n + 1 else n :=
    fun t ht => by simp only [hmem t ht]
  have hout' : ∀ x, x ∈ sets.liveOut ↔ LiveOut p S (n + 1) s x := by
    intro x
    rw [hout, mem_liveBefore]
    simp only [h.liveIn, ← against_eq hpre]
    exact ⟨fun ⟨hc, ht⟩ => ⟨hs, hc, ht⟩, fun ⟨_, hc, ht⟩ => ⟨hc, ht⟩⟩
  have hin' : ∀ x, x ∈ sets.liveIn ↔ LiveIn p S (n + 1) s x := by
    intro x
    rw [hin, hout', liveIn_iff (by omega) hs]
  have hdead' : ∀ x, x ∈ sets.dead ↔ Dead p S (n + 1) s x := by
    intro x
    rw [hdead, hout', hin']
    simp only [h.liveOut, ← against_eq hpre]
    refine and_congr_right fun hno => or_congr_right (or_congr_right ?_)
    constructor
    · exact fun ⟨q, hq, _, hx⟩ => ⟨q, hq, hx⟩
    · rintro ⟨q, hq, hx⟩
      refine ⟨q, hq, ?_, hx⟩
      rintro rfl
      exact hno (hx.mono (against_le S _ _ _))
  rw [heq]
  constructor
  · intro t
    by_cases ht : t = s
    · subst ht
      simp [hs]
    · rw [Function.update_of_ne ht, h.stored, hmem t ht]
  · intro t x
    by_cases ht : t = s
    · subst ht
      rw [liveness_update_self, hlevel, hin']
    · rw [liveness_update_ne _ ht, hlevel' t ht, h.liveIn]
  · intro t x
    by_cases ht : t = s
    · subst ht
      rw [liveness_update_self, hlevel, hout']
    · rw [liveness_update_ne _ ht, hlevel' t ht, h.liveOut]
  · intro t x hsome
    by_cases ht : t = s
    · subst ht
      rw [liveness_update_self, hlevel, hdead']
    · rw [Function.update_of_ne ht] at hsome
      rw [liveness_update_ne _ ht, hlevel' t ht, h.dead t x hsome]

theorem Processed.foldl (rest : List ι) :
    ∀ (pre : List ι) (l : Livenesses ι ν), Processed p S n pre l → S.statements = pre ++ rest →
      Processed p S n S.statements (rest.foldl (processStatement p) l) := by
  induction rest with
  | nil =>
    intro pre l h hpre
    rw [hpre, List.append_nil]
    exact h
  | cons s rest ih =>
    intro pre l h hpre
    exact ih (pre ++ [s]) _ (h.step hpre) (by simp [hpre])

theorem processed_start (p : Program ι ν) (S : Schedule p.cfg) :
    Processed p S 0 [] fun _ => none where
  stored s := by simp
  liveIn s x := by
    simp only [List.not_mem_nil, if_false]
    exact ⟨fun h => absurd h (Finset.notMem_empty x), fun h => (not_liveIn_zero h).elim⟩
  liveOut s x := by
    simp only [List.not_mem_nil, if_false]
    refine ⟨fun h => absurd h (Finset.notMem_empty x), fun ⟨_, _, t, _, hlive⟩ => ?_⟩
    exact (not_liveIn_zero (hlive.mono (against_le S 0 t s))).elim
  dead s x h := by cases h

theorem Processed.next {l : Livenesses ι ν} (h : Processed p S n [] l) :
    Processed p S (n + 1) [] (round p S l) := by
  have hall : Processed p S n S.statements (round p S l) := Processed.foldl S.statements [] l h rfl
  have hlevel : ∀ s ∈ S.statements, (if s ∈ S.statements then n + 1 else n) = n + 1 :=
    fun s hs => if_pos hs
  constructor
  · intro s
    rw [hall.stored]
    exact ⟨fun hs => ⟨hs.1, .inr (by omega)⟩, fun hs => ⟨hs.1, .inl hs.1⟩⟩
  · intro s x
    rw [hall.liveIn]
    simp only [List.not_mem_nil, if_false]
    constructor
    · intro hx
      rwa [hlevel s hx.mem] at hx
    · intro hx
      rwa [hlevel s hx.mem]
  · intro s x
    rw [hall.liveOut]
    simp only [List.not_mem_nil, if_false]
    constructor
    · intro hx
      rwa [hlevel s hx.1] at hx
    · intro hx
      rwa [hlevel s hx.1]
  · intro s x hsome
    rw [hall.dead s x hsome, hlevel s ((hall.stored s).mp hsome).1]
    simp

/-! ## What the hash is taken of -/

theorem Processed.liveIn_iff {l : Livenesses ι ν} (h : Processed p S n [] l) :
    x ∈ (liveness l s).liveIn ↔ LiveIn p S n s x := by
  simpa using h.liveIn s x

theorem Processed.liveOut_iff {l : Livenesses ι ν} (h : Processed p S n [] l) :
    x ∈ (liveness l s).liveOut ↔ LiveOut p S n s x := by
  simpa using h.liveOut s x

theorem Processed.isSome_iff {l : Livenesses ι ν} (h : Processed p S n [] l) (hn : 1 ≤ n) :
    (l s).isSome = true ↔ s ∈ S.statements := by
  rw [h.stored]
  exact ⟨And.left, fun hs => ⟨hs, .inr hn⟩⟩

theorem Processed.dead_iff {l : Livenesses ι ν} (h : Processed p S n [] l) (hn : 1 ≤ n)
    (hs : s ∈ S.statements) : x ∈ (liveness l s).dead ↔ Dead p S n s x := by
  simpa using h.dead s x ((h.isSome_iff hn).mpr hs)

theorem Processed.union_iff {l : Livenesses ι ν} (h : Processed p S n [] l) (hn : 1 ≤ n)
    (hs : s ∈ S.statements) : x ∈ (liveness l s).union ↔ Known p S n s x := by
  unfold LivenessSets.union Known
  rw [Finset.mem_union, Finset.mem_union, h.liveIn_iff, h.liveOut_iff, h.dead_iff hn hs]
  unfold Dead
  tauto

theorem Processed.union_of_not_mem {l : Livenesses ι ν} (h : Processed p S n [] l)
    (hs : s ∉ S.statements) : (liveness l s).union = ∅ := by
  have hnone : l s = none := by
    rw [← Option.not_isSome_iff_eq_none]
    exact fun hsome => hs ((h.stored s).mp hsome).1
  unfold liveness
  rw [hnone]
  rfl

theorem Hasher.entries_eq {l : Livenesses ι ν} (k : Hasher S ν)
    (hl : ∀ s, (l s).isSome = true ↔ s ∈ S.statements) :
    k.entries l = k.statements.map fun s => (s, liveness l s) := by
  unfold Hasher.entries
  rw [← List.filterMap_eq_map]
  refine List.filterMap_congr fun s hs => ?_
  obtain ⟨sets, hsets⟩ := Option.isSome_iff_exists.mp ((hl s).mpr (k.perm.mem_iff.mp hs))
  simp [liveness, hsets]

theorem Processed.entries_zero {l : Livenesses ι ν} (h : Processed p S 0 [] l)
    (k : Hasher S ν) : k.entries l = [] := by
  unfold Hasher.entries
  rw [List.filterMap_eq_nil_iff]
  intro s _
  have hnone : ¬ (l s).isSome = true := fun hsome => by simpa using ((h.stored s).mp hsome).2
  rw [Option.not_isSome_iff_eq_none.mp hnone]
  rfl

/-- Different unions of names never have the same hash. -/
def Hasher.CollisionFree (k : Hasher S ν) : Prop :=
  ∀ l l' : Livenesses ι ν, (∀ s, (l s).isSome = true ↔ s ∈ S.statements) →
    (∀ s, (l' s).isSome = true ↔ s ∈ S.statements) → k.hashLiveness l = k.hashLiveness l' →
      ∀ s, (liveness l s).union = (liveness l' s).union

theorem Processed.hash_eq {l : Livenesses ι ν} {k : Hasher S ν} (h : Processed p S n [] l)
    (hn : 1 ≤ n) (hknown : ∀ s x, Known p S (n + 1) s x → Known p S n s x) :
    k.hashLiveness l = k.hashLiveness (round p S l) := by
  have h' := h.next
  have hunion : ∀ s, (liveness l s).union = (liveness (round p S l) s).union := by
    intro s
    by_cases hs : s ∈ S.statements
    · ext x
      rw [h.union_iff hn hs, h'.union_iff (by omega) hs]
      exact ⟨fun hx => hx.mono (by omega), hknown s x⟩
    · rw [h.union_of_not_mem hs, h'.union_of_not_mem hs]
  unfold Hasher.hashLiveness
  rw [k.entries_eq fun s => h.isSome_iff hn, k.entries_eq fun s => h'.isSome_iff (by omega),
    List.foldl_map, List.foldl_map]
  simp only [hunion]

theorem Processed.unchanged_iff {l : Livenesses ι ν} {k : Hasher S ν} (hfree : k.CollisionFree)
    (h : Processed p S n [] l) (hn : 1 ≤ n) :
    k.hashLiveness l = k.hashLiveness (round p S l) ↔
      ∀ s x, Known p S (n + 1) s x → Known p S n s x := by
  have h' := h.next
  constructor
  · intro heq s x hx
    have hunion := hfree l _ (fun s => h.isSome_iff hn) (fun s => h'.isSome_iff (by omega)) heq s
    rw [← h.union_iff hn hx.1, hunion]
    exact (h'.union_iff (by omega) hx.1).mpr hx
  · exact h.hash_eq hn

/-! ## The loop ends -/

def namesOf (p : Program ι ν) (S : Schedule p.cfg) : Finset ν :=
  S.statements.toFinset.biUnion fun s =>
    (p.flowInfo s).defined ∪ ((p.flowInfo s).modified ∪ (p.flowInfo s).read)

theorem LiveIn.mem_names (h : LiveIn p S n s x) : x ∈ namesOf p S := by
  induction h with
  | use hs hx =>
    exact Finset.mem_biUnion.mpr ⟨_, List.mem_toFinset.mpr hs, Finset.mem_union_right _ hx⟩
  | step _ _ _ _ ih => exact ih

theorem LiveOut.mem_names (h : LiveOut p S n s x) : x ∈ namesOf p S := by
  obtain ⟨-, -, t, -, hlive⟩ := h
  exact hlive.mem_names

theorem Known.mem_names (h : Known p S n s x) : x ∈ namesOf p S := by
  obtain ⟨hs, hx | hx | hx | ⟨q, -, hx⟩⟩ := h
  · exact Finset.mem_biUnion.mpr ⟨s, List.mem_toFinset.mpr hs, Finset.mem_union_left _ hx⟩
  · exact hx.mem_names
  · exact hx.mem_names
  · exact hx.mem_names

theorem exists_known_stable (p : Program ι ν) (S : Schedule p.cfg) :
    ∃ n, 1 ≤ n ∧ ∀ s x, Known p S (n + 1) s x → Known p S n s x := by
  let f : ℕ →o Set (S.statements.toFinset ×ˢ namesOf p S : Finset (ι × ν)) :=
    ⟨fun n => {q | Known p S n q.1.1 q.1.2}, fun n m hnm q hq => Known.mono hq hnm⟩
  obtain ⟨n, hn⟩ := WellFoundedGT.monotone_chain_condition f
  refine ⟨n + 1, by omega, fun s x hx => ?_⟩
  have hmem : (s, x) ∈ S.statements.toFinset ×ˢ namesOf p S :=
    Finset.mem_product.mpr ⟨List.mem_toFinset.mpr hx.1, hx.mem_names⟩
  have heq : f (n + 1) = f (n + 2) := (hn _ (by omega)).symm.trans (hn _ (by omega))
  have hx' : (⟨(s, x), hmem⟩ : (S.statements.toFinset ×ˢ namesOf p S : Finset (ι × ν))) ∈
      f (n + 2) := hx
  rw [← heq] at hx'
  exact hx'

def rounds (p : Program ι ν) (S : Schedule p.cfg) : ℕ → Livenesses ι ν
  | 0 => fun _ => none
  | n + 1 => round p S (rounds p S n)

/-- The run lemma for the rounds. -/
theorem processed_rounds (p : Program ι ν) (S : Schedule p.cfg) (n : ℕ) :
    Processed p S n [] (rounds p S n) := by
  induction n with
  | zero => exact processed_start p S
  | succ n ih => exact ih.next

theorem runLoop_of_changed {k : Hasher S ν} {l : Livenesses ι ν} (fuel : ℕ)
    (h : (k.entries l).length ≠ (k.entries (round p S l)).length ∨
      k.hashLiveness l ≠ k.hashLiveness (round p S l)) :
    runLoop k (fuel + 1) l = runLoop k fuel (round p S l) := if_pos h

theorem runLoop_of_unchanged {k : Hasher S ν} {l : Livenesses ι ν} (fuel : ℕ)
    (hsize : (k.entries l).length = (k.entries (round p S l)).length)
    (hhash : k.hashLiveness l = k.hashLiveness (round p S l)) :
    runLoop k (fuel + 1) l = some (round p S l) :=
  if_neg (not_or.mpr ⟨not_not.mpr hsize, not_not.mpr hhash⟩)

theorem runLoop_rounds {k : Hasher S ν} (hfree : k.CollisionFree) (hne : S.statements ≠ [])
    (hm : 1 ≤ m) (hknown : ∀ s x, Known p S (m + 1) s x → Known p S m s x)
    (hfirst : ∀ i, 1 ≤ i → i < m → ¬ ∀ s x, Known p S (i + 1) s x → Known p S i s x)
    (fuel : ℕ) : ∀ n, n ≤ m → m < n + fuel →
      runLoop k fuel (rounds p S n) = some (rounds p S (m + 1)) := by
  induction fuel with
  | zero => intro n hn hf; omega
  | succ fuel ih =>
    intro n hn hf
    have h := processed_rounds p S n
    have h' := h.next
    by_cases hnm : n = m
    · subst hnm
      have hsize : (k.entries (rounds p S n)).length =
          (k.entries (round p S (rounds p S n))).length := by
        rw [k.entries_eq fun s => h.isSome_iff hm, k.entries_eq fun s => h'.isSome_iff (by omega),
          List.length_map, List.length_map]
      have hhash := (h.unchanged_iff hfree hm).mpr hknown
      exact runLoop_of_unchanged fuel hsize hhash
    · have hchanged : (k.entries (rounds p S n)).length ≠
            (k.entries (round p S (rounds p S n))).length ∨
          k.hashLiveness (rounds p S n) ≠ k.hashLiveness (round p S (rounds p S n)) := by
        obtain hn | hpos := Nat.eq_zero_or_pos n
        · -- the first round stores sets for the first time
          subst hn
          left
          rw [h.entries_zero, k.entries_eq fun s => h'.isSome_iff le_rfl, List.length_map,
            k.perm.length_eq]
          exact fun heq => hne (List.length_eq_zero_iff.mp heq.symm)
        · exact .inr fun heq => hfirst n hpos (by omega) ((h.unchanged_iff hfree hpos).mp heq)
      rw [runLoop_of_changed fuel hchanged]
      exact ih (n + 1) (by omega) (by omega)

end Hilti.Liveness
