import Mathlib.Tactic.SplitIfs
import Hilti.Lib.Sorting
import Hilti.Classifiers.Model

/-!
# Looking up the best rule

The rules are sorted with a comparison that returns the difference of two priorities as an
`int`.  Where these differences keep their sign, a lookup finds a matching rule of maximal
priority; for any other priorities there are rules for which it does not have to.
-/

namespace Hilti.Classifiers

open Hilti.Lib

set_option autoImplicit false

variable {α : Type}

/-- A lookup in the classifier `c` returns the value of a matching rule of maximal priority, and
raises an exception exactly when there is no match.  The lookups are those that read inside of
the fields. -/
def PicksBest (qsort : (Rule α → Rule α → ℤ) → List (Rule α) → List (Rule α))
    (c : Classifier α) : Prop :=
  ∀ vals, (∀ r ∈ c.rules, (matchSingleRule c r vals).isSome) →
    ∃ found, classifierMatches (classifierCompile qsort c) vals = some (.ok found) ∧
      (found = false → classifierGet (classifierCompile qsort c) vals = some (.error .indexError) ∧
        ∀ r ∈ c.rules, matchSingleRule c r vals = some false) ∧
      (found = true → ∃ r ∈ c.rules, matchSingleRule c r vals = some true ∧
        (∀ r' ∈ c.rules, matchSingleRule c r' vals = some true → r'.priority ≤ r.priority) ∧
        classifierGet (classifierCompile qsort c) vals = some (.ok r.value))

/-! ## The comparison -/

/-- The difference of two priorities keeps its sign. -/
def KeepsSign (p q : ℤ) : Prop :=
  0 < toInt (int64 (p - q))

instance (p q : ℤ) : Decidable (KeepsSign p q) :=
  inferInstanceAs (Decidable (0 < _))

theorem toInt_int64 (x : ℤ) : toInt (int64 x) = x.bmod (2 ^ 32) := by
  unfold toInt int64
  exact Int.bmod_bmod_of_dvd (by decide)

theorem toInt_neg (x : ℤ) (h : 0 < toInt (int64 x)) : toInt (int64 (-x)) < 0 := by
  rw [toInt_int64] at h ⊢
  rw [Int.bmod_def] at h ⊢
  split_ifs at h ⊢ <;> omega

theorem cmpRules_le_zero (r r' : Rule α)
    (h : r.priority < r'.priority → KeepsSign r'.priority r.priority)
    (h' : r'.priority < r.priority → KeepsSign r.priority r'.priority) :
    cmpRules r r' ≤ 0 ↔ r'.priority ≤ r.priority := by
  rcases lt_trichotomy r.priority r'.priority with hlt | heq | hlt
  · have hpos : 0 < cmpRules r r' := h hlt
    omega
  · have hzero : cmpRules r r' = 0 := by
      rw [cmpRules, toInt_int64, heq, Int.sub_self]
      rfl
    omega
  · have hneg : cmpRules r r' < 0 := by
      have := toInt_neg _ (h' hlt)
      rwa [Int.neg_sub] at this
    omega

theorem cmpRules_consistent (rules : List (Rule α))
    (h : ∀ p ∈ rules.map Rule.priority, ∀ q ∈ rules.map Rule.priority, q < p → KeepsSign p q) :
    Consistent cmpRules rules := by
  have hle : ∀ a ∈ rules, ∀ b ∈ rules, cmpRules a b ≤ 0 ↔ b.priority ≤ a.priority := by
    intro a ha b hb
    exact cmpRules_le_zero a b (h _ (List.mem_map_of_mem hb) _ (List.mem_map_of_mem ha))
      (h _ (List.mem_map_of_mem ha) _ (List.mem_map_of_mem hb))
  refine ⟨fun a ha b hb => ?_, fun a ha b hb c hc hab hbc => ?_⟩
  · have hneg : cmpRules a b < 0 ↔ b.priority < a.priority := by
      refine ⟨fun hlt => ?_, fun hlt => ?_⟩
      · have hba := (hle a ha b hb).mp hlt.le
        rcases hba.lt_or_eq with hba | hba
        · exact hba
        · have hzero : cmpRules a b = 0 := by
            rw [cmpRules, toInt_int64, hba, Int.sub_self]
            rfl
          omega
      · have := toInt_neg _ (h _ (List.mem_map_of_mem ha) _ (List.mem_map_of_mem hb) hlt)
        rwa [Int.neg_sub] at this
    have hba := hle b hb a ha
    rw [hneg]
    omega
  · rw [hle a ha b hb] at hab
    rw [hle b hb c hc] at hbc
    exact (hle a ha c hc).mpr (hbc.trans hab)

/-! ## The first match -/

theorem firstMatch_eq (c : Classifier α) (vals : List Field) (rules : List (Rule α))
    (h : ∀ r ∈ rules, (matchSingleRule c r vals).isSome) :
    firstMatch c vals rules =
      some (rules.find? fun r => matchSingleRule c r vals = some true) := by
  induction rules with
  | nil => rfl
  | cons r rules ih =>
    obtain ⟨b, hb⟩ := Option.isSome_iff_exists.mp (h r (by simp))
    rw [firstMatch, hb, Option.bind_eq_bind, Option.bind_some]
    cases b with
    | true => simp [hb]
    | false =>
      rw [if_neg (by simp), ih fun r' hr' => h r' (List.mem_cons_of_mem r hr')]
      simp [hb]

theorem firstMatch_compile (qsort : (Rule α → Rule α → ℤ) → List (Rule α) → List (Rule α))
    (c : Classifier α) (vals : List Field) (rules : List (Rule α)) :
    firstMatch (classifierCompile qsort c) vals rules = firstMatch c vals rules := by
  induction rules with
  | nil => rfl
  | cons r rules ih =>
    rw [firstMatch, firstMatch, ih]
    rfl

theorem classifierMatches_compile
    (qsort : (Rule α → Rule α → ℤ) → List (Rule α) → List (Rule α)) (c : Classifier α)
    (vals : List Field) :
    classifierMatches (classifierCompile qsort c) vals =
      (firstMatch c vals (qsort cmpRules c.rules)).map fun r => .ok r.isSome := by
  unfold classifierMatches
  rw [if_neg (by simp [classifierCompile]), firstMatch_compile]
  change (firstMatch c vals (qsort cmpRules c.rules)).bind _ = _
  cases firstMatch c vals (qsort cmpRules c.rules) <;> rfl

theorem classifierGet_compile
    (qsort : (Rule α → Rule α → ℤ) → List (Rule α) → List (Rule α)) (c : Classifier α)
    (vals : List Field) :
    classifierGet (classifierCompile qsort c) vals =
      (firstMatch c vals (qsort cmpRules c.rules)).map fun r => match r with
        | some r => .ok r.value
        | none => .error .indexError := by
  unfold classifierGet
  rw [if_neg (by simp [classifierCompile]), firstMatch_compile]
  change (firstMatch c vals (qsort cmpRules c.rules)).bind _ = _
  cases h : firstMatch c vals (qsort cmpRules c.rules) with
  | none => rfl
  | some r => cases r <;> rfl

/-! ## Priorities that are compared right -/

theorem find_max {rules rules' : List (Rule α)} (hs : SortedOf cmpRules rules rules')
    (hsign : ∀ p ∈ rules.map Rule.priority, ∀ q ∈ rules.map Rule.priority, q < p → KeepsSign p q)
    {P : Rule α → Bool} {r : Rule α} (hr : rules'.find? P = some r) :
    ∀ r' ∈ rules, P r' → r'.priority ≤ r.priority := by
  intro r' hr' hP
  obtain ⟨-, l, l', rfl, hl⟩ := List.find?_eq_some_iff_append.mp hr
  have hmem : r' ∈ l ++ r :: l' := hs.perm.mem_iff.mpr hr'
  have hrmem : r ∈ rules := hs.perm.mem_iff.mp (by simp)
  rcases List.mem_append.mp hmem with h | h
  · have := hl r' h
    simp [hP] at this
  · rcases List.mem_cons.mp h with rfl | h
    · exact le_refl _
    · have hle := (List.pairwise_cons.mp (List.pairwise_append.mp hs.ordered).2.1).1 r' h
      exact (cmpRules_le_zero r r'
        (hsign _ (List.mem_map_of_mem hr') _ (List.mem_map_of_mem hrmem))
        (hsign _ (List.mem_map_of_mem hrmem) _ (List.mem_map_of_mem hr'))).mp hle

theorem picksBest_of_keepsSign {qsort : (Rule α → Rule α → ℤ) → List (Rule α) → List (Rule α)}
    (hq : IsSort qsort) {c : Classifier α}
    (hsign : ∀ p ∈ c.rules.map Rule.priority, ∀ q ∈ c.rules.map Rule.priority, q < p →
      KeepsSign p q) :
    PicksBest qsort c := by
  intro vals hdef
  have hs := hq cmpRules c.rules (cmpRules_consistent c.rules hsign)
  have hfirst := firstMatch_eq c vals (qsort cmpRules c.rules)
    fun r hr => hdef r (hs.perm.mem_iff.mp hr)
  rw [classifierMatches_compile, classifierGet_compile, hfirst, Option.map_some, Option.map_some]
  refine ⟨_, rfl, fun hnone => ?_, fun hsome => ?_⟩
  · rw [Option.isSome_eq_false_iff, Option.isNone_iff_eq_none] at hnone
    refine ⟨by rw [hnone], fun r hr => ?_⟩
    have hr' := List.find?_eq_none.mp hnone r (hs.perm.mem_iff.mpr hr)
    obtain ⟨b, hb⟩ := Option.isSome_iff_exists.mp (hdef r hr)
    cases b with
    | true => simp [hb] at hr'
    | false => exact hb
  · obtain ⟨r, hr⟩ := Option.isSome_iff_exists.mp hsome
    have hmem := hs.perm.mem_iff.mp (List.mem_of_find?_eq_some hr)
    have hP := List.find?_some hr
    refine ⟨r, hmem, of_decide_eq_true hP, fun r' hr' hm => ?_, by rw [hr]⟩
    exact find_max hs hsign hr r' hr' (decide_eq_true hm)

/-! ## Priorities that are not -/

def anyField : Field := ⟨0, 0, []⟩

def otherField : Field := ⟨1, 8, [0xff]⟩

def keyField : Field := ⟨1, 8, [0]⟩

/-- Rules with given priorities, of which those with the priority `p` or `q` match `keyField`.
The value of a rule is its priority. -/
def twoMatching (p q x : ℤ) : Addition ℤ :=
  ⟨some x, [if x = p ∨ x = q then anyField else otherField], x⟩

def Addition.rule (a : Addition α) (priority : ℤ) : Rule α :=
  ⟨priority, a.fields, a.value⟩

theorem foldlM_run (c : Classifier α) (hc : c.compiled = false) (adds : List (Addition α))
    (hadds : ∀ a ∈ adds, a.priority.isSome) :
    ∃ c', adds.foldlM Addition.run c = .ok c' ∧ c'.compiled = false ∧
      c'.numFields = c.numFields ∧
      c'.rules = c.rules ++ adds.map fun a => a.rule (a.priority.getD 0) := by
  induction adds generalizing c with
  | nil => exact ⟨c, rfl, hc, rfl, by simp⟩
  | cons a adds ih =>
    obtain ⟨priority, ha⟩ := Option.isSome_iff_exists.mp (hadds a (by simp))
    have hrun : Addition.run c a = .ok { c with
        rules := c.rules ++ [a.rule priority],
        maxPrio := if priority > c.maxPrio then priority else c.maxPrio } := by
      rw [Addition.run, ha]
      simp [classifierAdd, hc, Addition.rule]
    obtain ⟨c', hfold, hc', hn, hrules⟩ := ih
      { c with
        rules := c.rules ++ [a.rule priority],
        maxPrio := if priority > c.maxPrio then priority else c.maxPrio }
      hc fun b hb => hadds b (List.mem_cons_of_mem a hb)
    refine ⟨c', ?_, hc', hn, ?_⟩
    · rw [List.foldlM_cons, hrun]
      exact hfold
    · rw [hrules, List.map_cons, ha]
      simp

section

variable (p q : ℤ) (c : Classifier ℤ) (hn : c.numFields = 1)

include hn

theorem twoMatching_matches (x : ℤ) :
    matchSingleRule c ((twoMatching p q x).rule x) [keyField] = some (decide (x = p ∨ x = q)) := by
  rw [matchSingleRule, hn]
  by_cases hx : x = p ∨ x = q
  · have hany : matchField anyField keyField = some true := by decide
    simp [twoMatching, Addition.rule, hx, matchLoop, hany]
  · have hother : matchField otherField keyField = some false := by decide
    simp [twoMatching, Addition.rule, hx, matchLoop, hother]

theorem exists_order {ps : List ℤ} (hq : q ∈ ps) (hqp : q < p) (hsign : ¬ KeepsSign p q)
    (hrules : c.rules = ps.map fun x => (twoMatching p q x).rule x) :
    ∃ rules r, (Consistent cmpRules c.rules → SortedOf cmpRules c.rules rules) ∧
      rules.Perm c.rules ∧ r.value = q ∧
      rules.find? (fun r => matchSingleRule c r [keyField] = some true) = some r := by
  have hform : ∀ r ∈ c.rules, r.value = r.priority ∧
      matchSingleRule c r [keyField] = some (decide (r.priority = p ∨ r.priority = q)) := by
    intro r hr
    rw [hrules] at hr
    obtain ⟨x, -, rfl⟩ := List.mem_map.mp hr
    exact ⟨rfl, twoMatching_matches p q c hn x⟩
  have hmemq : (twoMatching p q q).rule q ∈ c.rules := by
    rw [hrules]
    exact List.mem_map_of_mem hq
  have hmatchq : decide (matchSingleRule c ((twoMatching p q q).rule q) [keyField] =
      some true) = true := by
    rw [twoMatching_matches p q c hn]
    simp
  by_cases hcons : Consistent cmpRules c.rules
  · -- equal rules may come in any order, and the ones with priority `q` are never greater
    have hs := sortBy_isSort _ c.rules (hcons.preferring fun r => decide (r.priority = q))
    generalize sortBy _ c.rules = rules at hs
    obtain ⟨r, hr⟩ := Option.isSome_iff_exists.mp (List.find?_isSome.mpr
      (⟨_, hs.perm.mem_iff.mpr hmemq, hmatchq⟩ : ∃ r ∈ rules, decide
        (matchSingleRule c r [keyField] = some true) = true))
    obtain ⟨hP, l, l', hsplit, hl⟩ := List.find?_eq_some_iff_append.mp hr
    have hrmem := hs.perm.mem_iff.mp (List.mem_of_find?_eq_some hr)
    obtain ⟨hvalue, hmatch⟩ := hform r hrmem
    have hpq : r.priority = p ∨ r.priority = q := by
      have := of_decide_eq_true hP
      rw [hmatch] at this
      simpa using this
    refine ⟨rules, r, fun _ => ⟨hs.perm, hs.ordered.imp le_of_preferring⟩, hs.perm, ?_, hr⟩
    rcases hpq with hp | hq'
    · exfalso
      have hmem := hs.perm.mem_iff.mpr hmemq
      rw [hsplit] at hmem
      have hord := hs.ordered
      rw [hsplit] at hord
      have hle : 0 ≤ cmpRules r ((twoMatching p q q).rule q) := by
        have hswap := hcons.swap r hrmem _ hmemq
        have hnot : ¬ 0 < cmpRules ((twoMatching p q q).rule q) r := by
          rw [cmpRules, hp]
          exact hsign
        omega
      rcases List.mem_append.mp hmem with h | h
      · have := hl _ h
        simp [of_decide_eq_true hmatchq] at this
      · rcases List.mem_cons.mp h with h | h
        · rw [← h] at hp
          exact absurd hp (ne_of_lt hqp)
        · have hpref := (List.pairwise_cons.mp (List.pairwise_append.mp hord).2.1).1 _ h
          refine not_preferring_le ?_ ?_ hle hpref
          · simpa [hp] using ne_of_gt hqp
          · exact decide_eq_true rfl
    · rw [hvalue, hq']
  · -- nothing is promised about the order
    let isQ : Rule ℤ → Bool := fun r => decide (r.priority = q)
    have hmem : (twoMatching p q q).rule q ∈ c.rules.filter isQ :=
      List.mem_filter.mpr ⟨hmemq, decide_eq_true rfl⟩
    obtain ⟨r, hr⟩ := Option.isSome_iff_exists.mp (List.find?_isSome.mpr
      (⟨_, hmem, hmatchq⟩ : ∃ r ∈ c.rules.filter isQ, decide
        (matchSingleRule c r [keyField] = some true) = true))
    obtain ⟨hrmem, hrq⟩ := List.mem_filter.mp (List.mem_of_find?_eq_some hr)
    refine ⟨c.rules.filter isQ ++ c.rules.filter fun r => ! isQ r, r, fun h => absurd h hcons,
      List.filter_append_perm isQ c.rules, ?_, ?_⟩
    · rw [(hform r hrmem).1]
      exact of_decide_eq_true hrq
    · rw [List.find?_append, hr]
      rfl

end

/-- For priorities of which two have a difference that does not keep its sign, there are rules
and a way of sorting them for which a lookup is wrong. -/
theorem exists_not_picksBest {ps : List ℤ} {p q : ℤ} (hp : p ∈ ps) (hq : q ∈ ps) (hqp : q < p)
    (hsign : ¬ KeepsSign p q) :
    ∃ qsort, IsSort qsort ∧ ∃ (adds : List (Addition ℤ)) (c : Classifier ℤ),
      build 1 adds = .ok c ∧ c.rules.map Rule.priority = ps ∧ ¬ PicksBest qsort c := by
  obtain ⟨c, hbuild, -, hn, hrules⟩ := foldlM_run (classifierNew ℤ 1) rfl (ps.map (twoMatching p q))
    (by simp [twoMatching])
  have hrules' : c.rules = ps.map fun x => (twoMatching p q x).rule x := by
    rw [hrules, List.map_map]
    rfl
  obtain ⟨rules, r, hsorted, hperm, hvalue, hfind⟩ := exists_order p q c hn hq hqp hsign hrules'
  obtain ⟨qsort, hqsort, heq⟩ := (sortBy_isSort (α := Rule ℤ)).exists_eq hsorted
  refine ⟨qsort, hqsort, _, c, hbuild, ?_, fun hbest => ?_⟩
  · rw [hrules', List.map_map]
    exact List.map_id ps
  · have hdef : ∀ r ∈ c.rules, (matchSingleRule c r [keyField]).isSome := by
      intro r hr
      rw [hrules'] at hr
      obtain ⟨x, -, rfl⟩ := List.mem_map.mp hr
      rw [twoMatching_matches p q c hn]
      rfl
    obtain ⟨found, -, hnone, hsome⟩ := hbest [keyField] hdef
    have hmemp : (twoMatching p q p).rule p ∈ c.rules := by
      rw [hrules']
      exact List.mem_map_of_mem hp
    have hmatchp : matchSingleRule c ((twoMatching p q p).rule p) [keyField] = some true := by
      rw [twoMatching_matches p q c hn]
      simp
    have hget : classifierGet (classifierCompile qsort c) [keyField] = some (.ok q) := by
      rw [classifierGet_compile, heq, firstMatch_eq c _ rules
        fun r hr => hdef r (hperm.mem_iff.mp hr), hfind, ← hvalue]
      rfl
    cases found with
    | false =>
      have := (hnone rfl).2 _ hmemp
      rw [hmatchp] at this
      cases this
    | true =>
      obtain ⟨r', hr', -, hmax, hget'⟩ := hsome rfl
      have hle : p ≤ r'.priority := hmax _ hmemp hmatchp
      rw [hrules'] at hr'
      obtain ⟨x, -, rfl⟩ := List.mem_map.mp hr'
      rw [hget] at hget'
      have hxq : q = x := by
        injection hget' with h
        injection h
      have hpx : p ≤ x := hle
      omega

/-- Lookups pick the best rule, for all rules with given priorities and every way of sorting
them, exactly when the differences of the priorities keep their sign as an `int`. -/
theorem lookups_pick_best_iff (ps : List ℤ) :
    (∀ (α : Type) (qsort : (Rule α → Rule α → ℤ) → List (Rule α) → List (Rule α)) (n : ℕ)
      (adds : List (Addition α)) (c : Classifier α), IsSort qsort → build n adds = .ok c →
      c.rules.map Rule.priority = ps → PicksBest qsort c) ↔
    ∀ p ∈ ps, ∀ q ∈ ps, q < p → KeepsSign p q := by
  refine ⟨fun h p hp q hq hqp => ?_, fun h α qsort n adds c hsort _ hps => ?_⟩
  · by_contra hsign
    obtain ⟨qsort, hsort, adds, c, hbuild, hps, hnot⟩ := exists_not_picksBest hp hq hqp hsign
    exact hnot (h ℤ qsort 1 adds c hsort hbuild hps)
  · exact picksBest_of_keepsSign hsort (by rwa [hps])

/-- Two rules that match every key. -/
def twoRules : Classifier ℕ where
  numFields := 0
  compiled := false
  maxPrio := 3000000000
  rules := [⟨3000000000, [], 1⟩, ⟨0, [], 2⟩]

/-- Of two rules that match everything, the one with the priority 0 is found before the one with
the priority 3000000000. -/
theorem lower_priority_found :
    build 0 [⟨some 3000000000, [], 1⟩, ⟨some 0, [], 2⟩] = .ok twoRules ∧
      classifierGet (classifierCompile sortBy twoRules) [] = some (.ok 2) ∧
      IsSort (@sortBy (Rule ℕ)) ∧ ¬ PicksBest sortBy twoRules := by
  refine ⟨rfl, rfl, sortBy_isSort, fun h => ?_⟩
  obtain ⟨found, hmatches, -, hsome⟩ := h [] (fun r _ => rfl)
  obtain rfl : true = found := by
    injection hmatches with h
    injection h
  obtain ⟨r, hr, -, hmax, hget⟩ := hsome rfl
  have hle := hmax ⟨3000000000, [], 1⟩ (by simp [twoRules]) rfl
  have hvalue : 2 = r.value := by
    injection hget with h
    injection h
  simp only [twoRules, List.mem_cons, List.not_mem_nil, or_false] at hr
  rcases hr with rfl | rfl
  · cases hvalue
  · exact absurd hle (by decide)

end Hilti.Classifiers
