import Mathlib
import Hilti.Spicy.Model

/-!
# The productions of a grammar

Collecting the productions from the root returns, gives every production that
it finds a symbol of its own, and finds exactly the productions below the root;
the simplification that follows then has nothing to remove.
-/

namespace Hilti.Spicy

open Hilti.Lib

set_option autoImplicit false

variable {ι : Type}

/-! ## Unique symbols -/

theorem fmtSymbol_injective (base : String) {m n : ℕ} (h : fmtSymbol base m = fmtSymbol base n) :
    m = n := by
  unfold fmtSymbol at h
  exact Nat.repr_injective ((String.append_right_inj _).mp h)

theorem dot_mem_fmtSymbol (base : String) (n : ℕ) : '.' ∈ (fmtSymbol base n).toList := by
  simp [fmtSymbol]

theorem fmtSymbol_ne_base (base : String) (n : ℕ) : base ≠ fmtSymbol base n := by
  intro h
  have hlen := congrArg String.length h
  have hdot : (".").length = 1 := rfl
  simp only [fmtSymbol, String.length_append, hdot] at hlen
  omega

theorem fmtSymbol_ne_epsSymbol (base : String) (n : ℕ) : fmtSymbol base n ≠ epsSymbol := by
  intro h
  have hdot := dot_mem_fmtSymbol base n
  rw [h] at hdot
  simp [epsSymbol] at hdot

def candidate (base : String) (cnt : ℕ) : String :=
  if cnt ≤ 1 then base else fmtSymbol base cnt

theorem candidate_succ (base : String) {cnt : ℕ} (h : 1 ≤ cnt) :
    candidate base (cnt + 1) = fmtSymbol base (cnt + 1) :=
  if_neg (by omega)

theorem candidate_inj (base : String) {m n : ℕ} (hm : 1 ≤ m) (hn : 1 ≤ n)
    (h : candidate base m = candidate base n) : m = n := by
  unfold candidate at h
  split at h <;> split at h
  · omega
  · exact absurd h (fmtSymbol_ne_base base n)
  · exact absurd h.symm (fmtSymbol_ne_base base m)
  · exact fmtSymbol_injective base h

theorem taken_of_uniqueSymbol_none (taken : List String) (base : String) (fuel : ℕ) :
    ∀ cnt, 1 ≤ cnt → uniqueSymbol taken base fuel cnt (candidate base cnt) = none →
      ∀ i < fuel, candidate base (cnt + i) ∈ taken := by
  induction fuel with
  | zero => intro cnt _ _ i hi; omega
  | succ fuel ih =>
    intro cnt hcnt h i hi
    unfold uniqueSymbol at h
    split at h
    · rw [← candidate_succ base hcnt] at h
      cases i with
      | zero => assumption
      | succ i =>
        have := ih (cnt + 1) (by omega) h i (by omega)
        rwa [show cnt + (i + 1) = cnt + 1 + i by omega]
    · exact absurd h (by simp)

theorem uniqueSymbol_returns (taken : List String) (base : String) {fuel : ℕ}
    (hf : taken.length < fuel) : ∃ sym, uniqueSymbol taken base fuel 1 base = some sym := by
  by_contra hno
  have hnone : uniqueSymbol taken base fuel 1 (candidate base 1) = none := by
    rw [Option.eq_none_iff_forall_not_mem]
    exact fun sym h => hno ⟨sym, h⟩
  have htaken := taken_of_uniqueSymbol_none taken base fuel 1 le_rfl hnone
  have hsub : (Finset.range fuel).card ≤ taken.toFinset.card := by
    refine Finset.card_le_card_of_injOn (fun i => candidate base (1 + i)) ?_ ?_
    · intro i hi
      simpa using htaken i (by simpa using hi)
    · intro i _ j _ hij
      have := candidate_inj base (by omega) (by omega) hij
      omega
  have hcard := List.toFinset_card_le taken
  rw [Finset.card_range] at hsub
  omega

theorem uniqueSymbol_spec (taken : List String) (base : String) (fuel : ℕ) :
    ∀ (cnt : ℕ) (cand sym : String), cand = base ∨ (∃ n, cand = fmtSymbol base n) →
      uniqueSymbol taken base fuel cnt cand = some sym →
      sym ∉ taken ∧ (sym = base ∨ ∃ n, sym = fmtSymbol base n) := by
  induction fuel with
  | zero => intro cnt cand sym _ h; simp [uniqueSymbol] at h
  | succ fuel ih =>
    intro cnt cand sym hc h
    unfold uniqueSymbol at h
    split at h
    · exact ih _ _ sym (.inr ⟨_, rfl⟩) h
    · obtain rfl : cand = sym := by simpa using h
      exact ⟨‹_›, hc⟩

/-! ## Collecting -/

section

variable {g : Productions ι}

theorem isEpsilon_iff (p : ι) : (g.kind p).isEpsilon = true ↔ g.kind p = .epsilon := by
  cases h : g.kind p <;> simp [Kind.isEpsilon]

theorem not_isNonTerminal_of_isEpsilon {p : ι} (h : (g.kind p).isEpsilon = true) :
    (g.kind p).isNonTerminal = false := by
  rw [isEpsilon_iff] at h
  rw [h]
  rfl

theorem children_of_not_isNonTerminal {p : ι} (h : (g.kind p).isNonTerminal = false) :
    (g.kind p).children = [] := by
  cases hk : g.kind p <;> simp_all [Kind.isNonTerminal, Kind.children, Kind.rhss]

theorem symbol_eq_epsSymbol_iff (p : ι) :
    (g.node p).symbol = epsSymbol ↔ (g.kind p).isEpsilon = true := by
  rw [g.epsilon_iff, isEpsilon_iff]
  rfl

theorem ownInstance_eq_none (p : ι) : ownInstance g p = none ↔ (g.kind p).isEpsilon = true := by
  simp [ownInstance]

theorem ownInstance_eq_some (p q : ι) :
    ownInstance g p = some q ↔ p = q ∧ (g.kind p).isEpsilon = false := by
  unfold ownInstance
  split <;> simp_all

/-- What holds of the members of the grammar while productions are added. -/
structure Collecting (g : Productions ι) (s : Grammar ι) : Prop where
  prodsSet_eq : s.prodsSet = s.prods.map Prod.snd
  prodsSet_nodup : s.prodsSet.Nodup
  keys_nodup : (s.prods.map Prod.fst).Nodup
  entry_some : ∀ sym p, (sym, some p) ∈ s.prods →
    s.symbol p = sym ∧ sym ≠ epsSymbol ∧ (g.kind p).isEpsilon = false
  entry_none : ∀ sym, (sym, none) ∈ s.prods → sym = epsSymbol
  untouched : ∀ p, some p ∉ s.prodsSet → s.symbol p = (g.node p).symbol
  nterms_iff : ∀ p, p ∈ s.nterms ↔ some p ∈ s.prodsSet ∧ (g.kind p).isNonTerminal = true

theorem Collecting.mem_prodsSet {s : Grammar ι} (hs : Collecting g s) (q : Option ι) :
    q ∈ s.prodsSet ↔ ∃ sym, (sym, q) ∈ s.prods := by
  simp [hs.prodsSet_eq]

theorem Collecting.fresh_symbol {s : Grammar ι} (hs : Collecting g s) {p : ι} {sym : String}
    {fuel : ℕ} (hp : ownInstance g p ∉ s.prodsSet)
    (h : uniqueSymbol (s.prods.map Prod.fst) (s.symbol p) fuel 1 (s.symbol p) = some sym) :
    sym ∉ s.prods.map Prod.fst ∧ (sym = epsSymbol ↔ (g.kind p).isEpsilon = true) := by
  obtain ⟨hfresh, hsym⟩ := uniqueSymbol_spec _ _ fuel 1 _ sym (.inl rfl) h
  refine ⟨hfresh, ?_⟩
  have hbase : s.symbol p = (g.node p).symbol := by
    refine hs.untouched p fun hmem => ?_
    obtain ⟨sym', hmem'⟩ := (hs.mem_prodsSet _).mp hmem
    have heps := (hs.entry_some sym' p hmem').2.2
    exact hp (((ownInstance_eq_some p p).mpr ⟨rfl, heps⟩) ▸ hmem)
  rw [hbase] at hsym
  constructor
  · rintro rfl
    rcases hsym with h | ⟨n, h⟩
    · exact (symbol_eq_epsSymbol_iff p).mp h.symm
    · exact absurd h.symm (fmtSymbol_ne_epsSymbol _ n)
  · intro heps
    have hb := (symbol_eq_epsSymbol_iff p).mpr heps
    -- `<eps>` is free, since only the grammar's own instance may have it
    have hfree : epsSymbol ∉ s.prods.map Prod.fst := by
      intro hmem
      obtain ⟨⟨sym', q⟩, hq, rfl⟩ := List.mem_map.mp hmem
      cases q with
      | none => exact hp ((ownInstance_eq_none p).mpr heps ▸ (hs.mem_prodsSet _).mpr ⟨_, hq⟩)
      | some q => exact (hs.entry_some _ q hq).2.1 rfl
    cases fuel with
    | zero => simp [uniqueSymbol] at h
    | succ fuel =>
      rw [uniqueSymbol, hbase, hb, if_neg hfree] at h
      simpa using h.symm

def emptyGrammar (g : Productions ι) : Grammar ι where
  symbol p := (g.node p).symbol
  prods := []
  prodsSet := []
  nterms := []
  needsLookAhead := false

theorem collecting_emptyGrammar : Collecting g (emptyGrammar g) where
  prodsSet_eq := rfl
  prodsSet_nodup := List.nodup_nil
  keys_nodup := List.nodup_nil
  entry_some _ _ h := by simp [emptyGrammar] at h
  entry_none _ h := by simp [emptyGrammar] at h
  untouched _ _ := rfl
  nterms_iff p := by simp [emptyGrammar]

/-! ## The productions below the root -/

/-- The productions that the right-hand sides lead to from `root`. -/
def Productions.Below (g : Productions ι) (root p : ι) : Prop :=
  Lib.Below (fun p => (g.kind p).children) root p

theorem Productions.Below.child {root p c : ι} (hp : g.Below root p)
    (hc : c ∈ (g.kind p).children) : g.Below root c :=
  Relation.ReflTransGen.tail hp hc

/-- A grammar that holds exactly the productions below `root`, each under a
symbol of its own. -/
structure Collected (g : Productions ι) (root : ι) (s : Grammar ι) : Prop where
  collecting : Collecting g s
  prodsSet_iff : ∀ k, k ∈ s.prodsSet ↔ ∃ q, g.Below root q ∧ ownInstance g q = k

namespace Collected

variable {root : ι} {s : Grammar ι}

theorem entry (hs : Collected g root s) {p : ι} (hp : g.Below root p)
    (hne : (g.kind p).isEpsilon = false) : (s.symbol p, some p) ∈ s.prods := by
  have hmem : some p ∈ s.prodsSet :=
    (hs.prodsSet_iff _).mpr ⟨p, hp, (ownInstance_eq_some p p).mpr ⟨rfl, hne⟩⟩
  obtain ⟨sym, hsym⟩ := (hs.collecting.mem_prodsSet _).mp hmem
  rwa [(hs.collecting.entry_some sym p hsym).1]

theorem lookup_symbol (hs : Collected g root s) {p : ι} (hp : g.Below root p)
    (hne : (g.kind p).isEpsilon = false) : s.prods.lookup (s.symbol p) = some (some p) := by
  have hmem := hs.entry hp hne
  have hnodup := hs.collecting.keys_nodup
  generalize s.prods = l at hmem hnodup
  induction l with
  | nil => simp at hmem
  | cons e l ih =>
    rw [List.map_cons, List.nodup_cons] at hnodup
    rcases List.mem_cons.mp hmem with rfl | hmem
    · simp [List.lookup]
    · have hne' : ¬ s.symbol p = e.1 := fun h => hnodup.1 (h ▸ List.mem_map_of_mem hmem)
      simp [List.lookup, beq_eq_false_iff_ne.mpr hne', ih hmem hnodup.2]

theorem symbol_inj (hs : Collected g root s) {p q : ι} (hp : g.Below root p)
    (hq : g.Below root q) (hnp : (g.kind p).isEpsilon = false)
    (hnq : (g.kind q).isEpsilon = false) (h : s.symbol p = s.symbol q) : p = q := by
  have hlp := hs.lookup_symbol hp hnp
  rw [h, hs.lookup_symbol hq hnq] at hlp
  simpa using hlp.symm

theorem symbol_epsilon (hs : Collected g root s) {p : ι} (h : (g.kind p).isEpsilon = true) :
    s.symbol p = epsSymbol := by
  rw [hs.collecting.untouched p, (symbol_eq_epsSymbol_iff p).mpr h]
  intro hmem
  obtain ⟨sym, hsym⟩ := (hs.collecting.mem_prodsSet _).mp hmem
  rw [(hs.collecting.entry_some sym p hsym).2.2] at h
  exact absurd h (by simp)

theorem symbol_ne_epsSymbol (hs : Collected g root s) {p : ι} (hp : g.Below root p)
    (hne : (g.kind p).isEpsilon = false) : s.symbol p ≠ epsSymbol :=
  (hs.collecting.entry_some _ p (hs.entry hp hne)).2.1

theorem mem_nterms (hs : Collected g root s) (p : ι) :
    p ∈ s.nterms ↔ g.Below root p ∧ (g.kind p).isNonTerminal = true := by
  rw [hs.collecting.nterms_iff, hs.prodsSet_iff]
  constructor
  · rintro ⟨⟨q, hq, hown⟩, hn⟩
    obtain ⟨rfl, -⟩ := (ownInstance_eq_some q p).mp hown
    exact ⟨hq, hn⟩
  · rintro ⟨hp, hn⟩
    refine ⟨⟨p, hp, (ownInstance_eq_some p p).mpr ⟨rfl, ?_⟩⟩, hn⟩
    by_contra hc
    rw [not_isNonTerminal_of_isEpsilon (by simpa using hc)] at hn
    exact absurd hn (by simp)

theorem closure_traversal (hs : Collected g root s) :
    Traversal (fun used p => decide (s.symbol p ∈ used))
      (fun p used => some (insert (s.symbol p) used)) (fun p => (g.kind p).children)
      (fun _ used => used) root s.symbol id (fun _ => True) where
  seen_iff used p := by simp
  children_key p q hp hq h := by
    cases hnp : (g.kind p).isEpsilon <;> cases hnq : (g.kind q).isEpsilon
    · rw [hs.symbol_inj hp hq hnp hnq h]
    · exact absurd (h.trans (hs.symbol_epsilon hnq)) (hs.symbol_ne_epsSymbol hp hnp)
    · exact absurd (h.symm.trans (hs.symbol_epsilon hnp)) (hs.symbol_ne_epsSymbol hq hnq)
    · rw [children_of_not_isNonTerminal (not_isNonTerminal_of_isEpsilon hnp),
        children_of_not_isNonTerminal (not_isNonTerminal_of_isEpsilon hnq)]
  enter_spec _ _ _ _ _ := ⟨_, rfl, trivial, rfl⟩
  leave_spec _ _ _ := ⟨trivial, rfl⟩

end Collected

/-! ## The traversal -/

variable [DecidableEq ι]

theorem Collecting.enter {s s' : Grammar ι} (hs : Collecting g s) {p : ι} {fuel : ℕ}
    (hp : ownInstance g p ∉ s.prodsSet) (h : enterProduction g fuel p s = some s') :
    Collecting g s' := by
  obtain ⟨sym, hsym, h⟩ := Option.bind_eq_some_iff.mp h
  obtain ⟨hfresh, heps⟩ := hs.fresh_symbol hp hsym
  rw [Option.some.injEq] at h
  subst h
  have hother : ∀ q sym', (sym', some q) ∈ s.prods →
      (if (g.kind p).isEpsilon then s.symbol else Function.update s.symbol p sym) q =
        s.symbol q := by
    intro q sym' hq
    split
    · rfl
    · refine Function.update_of_ne ?_ _ _
      rintro rfl
      refine hp ((hs.mem_prodsSet _).mpr ⟨sym', ?_⟩)
      rwa [(ownInstance_eq_some q q).mpr ⟨rfl, by simp_all⟩]
  refine ⟨?_, ?_, ?_, ?_, ?_, ?_, ?_⟩
  · simp [hs.prodsSet_eq]
  · have hn := hs.prodsSet_nodup.concat hp
    rwa [List.concat_eq_append] at hn
  · have hn := hs.keys_nodup.concat hfresh
    rw [List.concat_eq_append] at hn
    rw [List.map_append]
    exact hn
  · intro sym' q hq
    rcases List.mem_append.mp hq with hq | hq
    · obtain ⟨hsym', hne⟩ := hs.entry_some sym' q hq
      exact ⟨(hother q sym' hq).trans hsym', hne⟩
    · obtain ⟨rfl, hown⟩ : sym' = sym ∧ some q = ownInstance g p := by simpa using hq
      obtain ⟨rfl, hne⟩ := (ownInstance_eq_some p q).mp hown.symm
      refine ⟨by simp [hne], fun h => ?_, hne⟩
      rw [heps.mp h] at hne
      exact absurd hne (by simp)
  · intro sym' hq
    rcases List.mem_append.mp hq with hq | hq
    · exact hs.entry_none sym' hq
    · obtain ⟨rfl, hown⟩ : sym' = sym ∧ none = ownInstance g p := by simpa using hq
      exact heps.mpr ((ownInstance_eq_none p).mp hown.symm)
  · intro q hq
    have hq' : some q ∉ s.prodsSet ∧ some q ≠ ownInstance g p := by simpa using hq
    rw [← hs.untouched q hq'.1]
    dsimp only
    split
    · rfl
    · refine Function.update_of_ne (fun h => hq'.2 ?_) _ _
      rw [h, (ownInstance_eq_some p p).mpr ⟨rfl, by simp_all⟩]
  · intro q
    cases hnt : (g.kind p).isNonTerminal with
    | false =>
      simp only [Bool.false_eq_true, if_false, List.mem_append, List.mem_singleton]
      rw [hs.nterms_iff q]
      refine ⟨fun h => ⟨.inl h.1, h.2⟩, fun ⟨h, hn⟩ => ⟨h.resolve_right fun hq => ?_, hn⟩⟩
      obtain ⟨rfl, -⟩ := (ownInstance_eq_some p q).mp hq.symm
      rw [hnt] at hn
      exact absurd hn (by simp)
    | true =>
      have hne : (g.kind p).isEpsilon = false := by
        by_contra hc
        rw [not_isNonTerminal_of_isEpsilon (by simpa using hc)] at hnt
        exact absurd hnt (by simp)
      have hown : ownInstance g p = some p := (ownInstance_eq_some p p).mpr ⟨rfl, hne⟩
      simp only [if_true, List.mem_append, List.mem_singleton, hs.nterms_iff q, hown,
        Option.some.injEq]
      constructor
      · rintro (h | rfl)
        · exact ⟨.inl h.1, h.2⟩
        · exact ⟨.inr rfl, hnt⟩
      · rintro ⟨h | rfl, hn⟩
        · exact .inl ⟨h, hn⟩
        · exact .inr rfl

variable [Fintype ι]

theorem Collecting.enter_returns {s : Grammar ι} (hs : Collecting g s) (p : ι) {fuel : ℕ}
    (hf : Fintype.card ι + 1 < fuel) : ∃ s', enterProduction g fuel p s = some s' := by
  have hlen : (s.prods.map Prod.fst).length < fuel := by
    have h1 : s.prodsSet.length = s.prodsSet.toFinset.card :=
      (List.toFinset_card_of_nodup hs.prodsSet_nodup).symm
    have h2 : s.prodsSet.toFinset.card ≤ Fintype.card (Option ι) := Finset.card_le_univ _
    rw [hs.prodsSet_eq, List.length_map] at h1
    rw [Fintype.card_option, ← hs.prodsSet_eq] at *
    rw [List.length_map]
    omega
  obtain ⟨sym, hsym⟩ := uniqueSymbol_returns (s.prods.map Prod.fst) (s.symbol p) hlen
  exact ⟨_, by simp [enterProduction, hsym]; rfl⟩

theorem addProduction_traversal (root : ι) {fuel : ℕ} (hf : Fintype.card ι + 1 < fuel) :
    Traversal (fun s p => decide (ownInstance g p ∈ s.prodsSet)) (enterProduction g fuel)
      (fun p => (g.kind p).children) (leaveProduction g) root (ownInstance g)
      (fun s => s.prodsSet.toFinset) (Collecting g) where
  seen_iff s p := by simp
  children_key p q _ _ h := by
    cases hp : (g.kind p).isEpsilon with
    | true =>
      have hq : (g.kind q).isEpsilon = true := by
        rw [← ownInstance_eq_none, ← h, ownInstance_eq_none, hp]
      rw [children_of_not_isNonTerminal (not_isNonTerminal_of_isEpsilon hp),
        children_of_not_isNonTerminal (not_isNonTerminal_of_isEpsilon hq)]
    | false =>
      have hown := (ownInstance_eq_some p p).mpr ⟨rfl, hp⟩
      rw [h] at hown
      rw [((ownInstance_eq_some q p).mp hown).1]
  enter_spec p s hs _ hp := by
    obtain ⟨s', hs'⟩ := hs.enter_returns p hf
    have hp' : ownInstance g p ∉ s.prodsSet := by simpa using hp
    refine ⟨s', hs', hs.enter hp' hs', ?_⟩
    obtain ⟨sym, -, h⟩ := Option.bind_eq_some_iff.mp hs'
    rw [Option.some.injEq] at h
    subst h
    ext k
    simp [or_comm]
  leave_spec p s hs := by
    unfold leaveProduction
    split
    · exact ⟨⟨hs.prodsSet_eq, hs.prodsSet_nodup, hs.keys_nodup, hs.entry_some, hs.entry_none,
        hs.untouched, hs.nterms_iff⟩, rfl⟩
    · exact ⟨hs, rfl⟩

theorem addProduction_spec (root : ι) {fuel : ℕ} (hf : Fintype.card ι + 1 < fuel) :
    ∃ s, addProduction g fuel root (emptyGrammar g) = some s ∧ Collecting g s ∧
      ∀ k, k ∈ s.prodsSet ↔ ∃ q, g.Below root q ∧ ownInstance g q = k := by
  obtain ⟨s, h, hs, hk⟩ := depthFirst_root (addProduction_traversal (g := g) root hf) fuel
    (emptyGrammar g) collecting_emptyGrammar rfl (by omega)
  exact ⟨s, h, hs, fun k => by simpa [Productions.Below] using hk k⟩

/-! ## Simplification -/

namespace Collected

variable {root : ι} {s : Grammar ι}

omit [DecidableEq ι] in
theorem simplify_eq (hs : Collected g root s) {fuel : ℕ} (hf : Fintype.card ι < fuel) :
    simplify g fuel root s = some s := by
  obtain ⟨used, hclosure, -, hused⟩ :=
    depthFirst_root hs.closure_traversal fuel ∅ trivial rfl hf
  have hall : ∀ e ∈ s.prods, e.1 ∈ used := by
    rintro ⟨sym, q⟩ he
    have hmem : q ∈ s.prodsSet := (hs.collecting.mem_prodsSet q).mpr ⟨sym, he⟩
    obtain ⟨p, hp, rfl⟩ := (hs.prodsSet_iff q).mp hmem
    refine (hused sym).mpr ⟨p, hp, ?_⟩
    cases hne : (g.kind p).isEpsilon with
    | true =>
      rw [(ownInstance_eq_none p).mpr hne] at he
      rw [hs.symbol_epsilon hne, hs.collecting.entry_none sym he]
    | false =>
      rw [(ownInstance_eq_some p p).mpr ⟨rfl, hne⟩] at he
      exact (hs.collecting.entry_some sym p he).1
  have hprods : s.prods.filter (fun e => decide (e.1 ∈ used)) = s.prods :=
    List.filter_eq_self.mpr fun e he => decide_eq_true (hall e he)
  have hunused : (s.prods.map Prod.fst).filter (fun sym => decide (sym ∉ used)) = [] := by
    refine List.filter_eq_nil_iff.mpr fun sym hsym => ?_
    obtain ⟨e, he, rfl⟩ := List.mem_map.mp hsym
    simp [hall e he]
  have hclosure' : computeClosure g s.symbol fuel root ∅ = some used := hclosure
  simp only [simplify, hclosure', Option.bind_eq_bind, Option.bind_some, hunused, hprods,
    List.foldl_nil]

end Collected

theorem newGrammar_eq (g : Productions ι) (root : ι) {fuel : ℕ}
    (hf : Fintype.card ι + 1 < fuel) :
    ∃ s, Collected g root s ∧ newGrammar g fuel root = computeTables g s fuel := by
  obtain ⟨s, hadd, hcol, hset⟩ := addProduction_spec (g := g) root hf
  have hs : Collected g root s := ⟨hcol, hset⟩
  have hsimp := hs.simplify_eq (show Fintype.card ι < fuel by omega)
  refine ⟨s, hs, ?_⟩
  have hadd' : addProduction g fuel root ⟨fun p => (g.node p).symbol, [], [], [], false⟩ =
      some s := hadd
  simp only [newGrammar, hadd', hsimp, Option.bind_eq_bind, Option.bind_some]

end

end Hilti.Spicy
