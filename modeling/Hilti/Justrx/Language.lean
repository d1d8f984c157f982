import Mathlib.Computability.NFA
import Hilti.Justrx.Walk

/-!
# The language of a DFA

A DFA does what the NFA does that it was made from, one character after the other: the
class of the transition that a matcher takes has the character, and every class of the
NFA that meets it has the character as well.  This needs two things of the classes on
transitions.  A range that was written backwards must not touch another class, and of the
transitions that are open at a time all must have the same assertions, since only one is
taken.
-/

namespace Hilti.Justrx

set_option autoImplicit false

/-! ## NFAs -/

/-- The tags that the constructors of NFAs attach to transitions: sets that are not empty,
of tags with a priority of at least the one that `transition_with` starts with. -/
def Nfa.WellTagged (nfa : Nfa) : Prop :=
  ∀ t ∈ nfa.allTrans, ∀ tags, t.tags = some tags → tags ≠ [] ∧ ∀ tag ∈ tags, -127 ≤ tag.prio

/-- A range that ends before it begins is written with characters that are in no other
class on a transition with the same assertions. -/
def Nfa.Orderly (nfa : Nfa) : Prop :=
  ∀ x ∈ nfa.transCcls, ∀ y ∈ nfa.transCcls, x ≠ y → x.assertions = y.assertions →
    ∀ r ∈ x.rangeList, r.Avoids y.chars

/-- The NFA as an automaton, where `pass` says which classes a symbol passes. -/
def Nfa.automaton {σ : Type} (nfa : Nfa) (pass : σ → Ccl → Prop) : NFA σ ℕ where
  step p s := { q | ∃ t ∈ (nfa.state p).trans, pass s (nfa.ccl t.ccl) ∧ t.succ = q }
  start := { nfa.initial }
  accept := { p | (nfa.state p).accepts ≠ [] }

theorem Nfa.mem_transCcls {nfa : Nfa} {nid : ℕ} {t : NfaTransition}
    (h : t ∈ (nfa.state nid).trans) : nfa.ccl t.ccl ∈ nfa.transCcls := by
  obtain ⟨s, hs, ht⟩ := List.mem_flatMap.mp (Nfa.mem_allTrans h)
  exact List.mem_flatMap.mpr ⟨s, hs, List.mem_map.mpr ⟨t, ht, rfl⟩⟩

/-! ## The classes of a DFA -/

section

variable {g : Group} {a : Ccl}

theorem Ccl.isPartOf_self (a : Ccl) : a.isPartOf a = true := by
  unfold Ccl.isPartOf
  rw [if_neg (not_not.mpr rfl)]
  cases a.ranges with
  | none => rfl
  | some rs =>
    simp only [List.all_eq_true, List.any_eq_true, decide_eq_true_eq]
    exact fun r hr => ⟨r, hr, le_rfl, le_rfl⟩

theorem Ccl.compare_self (a : Ccl) : a.compare a = true := by
  rw [Ccl.compare, Ccl.isPartOf_self]
  rfl

/-- The classes of a group of which each was added to the ones before. -/
structure Gathered (from_ g : Group) : Prop where
  mem : ∀ p ∈ g, p ∈ from_
  nodup : g.Nodup
  found : ∀ x ∈ from_, ∃ p ∈ g, p.assertions = x.assertions ∧ p.chars = x.chars

theorem Gathered.add {l : Group} (h : Gathered l g)
    (hl : ∀ p ∈ l, p.ranges = some p.rangeList) (ha : a.ranges = some a.rangeList) :
    Gathered (l ++ [a]) (groupAddTo g a).1 := by
  unfold groupAddTo
  split
  · rename_i k hk
    refine ⟨fun p hp => List.mem_append_left _ (h.mem p hp), h.nodup, fun x hx => ?_⟩
    obtain hx | hx := List.mem_append.mp hx
    · exact h.found x hx
    · rw [List.mem_singleton] at hx
      subst hx
      exact groupFind_chars (fun p hp => hl p (h.mem p hp)) ha hk
  · rename_i hnone
    have hnew : a ∉ g := by
      intro hmem
      rw [groupFind, List.findIdx?_eq_none_iff] at hnone
      have := hnone a hmem
      rw [Ccl.compare_self] at this
      cases this
    refine ⟨fun p hp => ?_, ?_, fun x hx => ?_⟩
    · obtain hp | hp := List.mem_append.mp hp
      · exact List.mem_append_left _ (h.mem p hp)
      · exact List.mem_append_right _ hp
    · rw [List.nodup_append]
      refine ⟨h.nodup, List.nodup_singleton a, fun x hx y hy hxy => ?_⟩
      rw [List.mem_singleton] at hy
      exact hnew (hy ▸ hxy ▸ hx)
    · obtain hx | hx := List.mem_append.mp hx
      · obtain ⟨p, hp, hpx⟩ := h.found x hx
        exact ⟨p, List.mem_append_left _ hp, hpx⟩
      · exact ⟨x, List.mem_append_right _ hx, rfl, rfl⟩

theorem Gathered.addAll (l : Group) :
    ∀ (l₀ g : Group), Gathered l₀ g → (∀ p ∈ l₀ ++ l, p.ranges = some p.rangeList) →
      Gathered (l₀ ++ l) (l.foldl (fun group ccl => (groupAddTo group ccl).1) g) := by
  induction l with
  | nil =>
    intro l₀ g h _
    rwa [List.append_nil]
  | cons a l ih =>
    intro l₀ g h hl
    have hadd := h.add (fun p hp => hl p (List.mem_append_left _ hp)) (hl a (by simp))
    have := ih (l₀ ++ [a]) _ hadd (by simpa using hl)
    rwa [List.append_assoc, List.singleton_append] at this

end

section

variable {nfa : Nfa} {g : Group}

theorem Ccl.ranges_eq_of_not_empty {a : Ccl} (h : (!(a.isEmpty || a.isEpsilon)) = true) :
    a.ranges = some a.rangeList := by
  cases hr : a.ranges with
  | none => simp [Ccl.isEmpty, hr] at h
  | some rs => simp [Ccl.rangeList, hr]

theorem usedCcls_gathered (nfa : Nfa) :
    Gathered (nfa.transCcls.filter fun ccl => !(ccl.isEmpty || ccl.isEpsilon)) (usedCcls nfa) := by
  have hnil : Gathered [] [] := ⟨by simp, List.nodup_nil, by simp⟩
  have := Gathered.addAll (nfa.transCcls.filter fun ccl => !(ccl.isEmpty || ccl.isEpsilon)) [] []
    hnil fun p hp => Ccl.ranges_eq_of_not_empty (List.mem_filter.mp hp).2
  rwa [List.nil_append] at this

theorem usedCcls_subset {p : Ccl} (hp : p ∈ usedCcls nfa) : p ∈ nfa.transCcls :=
  (List.mem_filter.mp ((usedCcls_gathered nfa).mem p hp)).1

theorem usedCcls_refined (h : nfa.Orderly) : Refined (usedCcls nfa) (usedCcls nfa) := by
  have hg := usedCcls_gathered nfa
  refine ⟨fun p hp => ?_, ?_, fun x hx c hc => ⟨x, hx, rfl, hc, Finset.Subset.refl _⟩,
    fun p hp => ⟨p, hp, rfl, Finset.Subset.refl _⟩, fun p hp => .inl hp⟩
  · exact Ccl.ranges_eq_of_not_empty (List.mem_filter.mp (hg.mem p hp)).2
  · intro i j a b ha hb hij hab
    have hne : a ≠ b := by
      intro heq
      subst heq
      have hi := List.getElem?_eq_some_iff.mp ha
      have hj := List.getElem?_eq_some_iff.mp hb
      exact hij ((hg.nodup.getElem_inj_iff).mp (hi.2.trans hj.2.symm))
    exact h a (usedCcls_subset (List.mem_of_getElem? ha)) b
      (usedCcls_subset (List.mem_of_getElem? hb)) hne hab

/-- The classes of a DFA: those on transitions of the NFA are unions of them, and two of
them that have the same assertions have no character in common. -/
structure Partition (nfa : Nfa) (g : Group) : Prop where
  refined : Refined (usedCcls nfa) g
  disjoint : PairwiseDisjoint g

theorem usedCcls_partition (h : nfa.Orderly) {fuel : ℕ}
    (hf : 2 * ((usedCcls nfa).length + measure (usedCcls nfa)) + measure (usedCcls nfa) + 1 < fuel) :
    ∃ g, groupDisambiguate fuel (usedCcls nfa) = some g ∧ Partition nfa g := by
  obtain ⟨g, hg, hrefined, hdone⟩ := groupDisambiguate_spec (P := Refined (usedCcls nfa))
    (fun _ _ _ _ hij hP hsplit => hP.splitPair hij hsplit) (usedCcls_refined h) hf
  exact ⟨g, hg, hrefined, hrefined.disjoint hdone⟩

end

/-! ## Classes that meet -/

theorem Ccl.ranges_eq_of_mem {a : Ccl} {c : ℕ} (h : c ∈ a.chars) : a.ranges = some a.rangeList := by
  cases hr : a.ranges with
  | none => simp [Ccl.chars, Ccl.rangeList, charsOf, hr] at h
  | some rs => simp [Ccl.rangeList, hr]

theorem doIntersect_of_mem {a b : Ccl} {c : ℕ} (hab : a.assertions = b.assertions)
    (ha : c ∈ a.chars) (hb : c ∈ b.chars) : doIntersect a b = true := by
  obtain ⟨r1, hr1, hc1⟩ := mem_charsOf.mp ha
  obtain ⟨r2, hr2, hc2⟩ := mem_charsOf.mp hb
  have hlt1 := (Range.mem_chars r1 c).mp hc1
  have hlt2 := (Range.mem_chars r2 c).mp hc2
  have h1 : r1.Avoids r2.chars := fun hlt => absurd hlt (by omega)
  have h2 : r2.Avoids r1.chars := fun hlt => absurd hlt (by omega)
  obtain ⟨r, hr, hc⟩ := (chars_intersectOne h1 h2 c).mpr ⟨hc1, hc2⟩
  have hlt := (Range.mem_chars r c).mp hc
  have hmem : r ∈ cleanup ((a.rangeList.flatMap fun r1 => b.rangeList.flatMap fun r2 =>
      intersectOne r1 r2).foldl (fun nranges r => rangeInsert r nranges) []) := by
    refine mem_cleanup.mpr ⟨?_, by omega⟩
    rw [show rangeInsert = setInsert Range.Before from rfl, mem_insertAll]
    exact .inl (List.mem_flatMap.mpr ⟨r1, hr1, List.mem_flatMap.mpr ⟨r2, hr2, hr⟩⟩)
  have hsome : (intersect a b).isSome = true := by
    rw [intersect, Ccl.ranges_eq_of_mem ha, Ccl.ranges_eq_of_mem hb]
    simp only [hab, ne_eq, not_true_eq_false, if_false, Ccl.isEmpty, List.isEmpty_iff]
    rw [if_neg (List.ne_nil_of_mem hmem)]
    rfl
  rw [doIntersect, hsome, Bool.or_true]

theorem doIntersect_assertions {a b : Ccl} (hb : b.ranges = some b.rangeList)
    (h : doIntersect a b = true) : a.Kind a.assertions ∧ b.Kind a.assertions := by
  rw [doIntersect, hb] at h
  simp only [Option.isNone_some, Bool.and_false, Bool.false_or] at h
  obtain ⟨is, his⟩ := Option.isSome_iff_exists.mp h
  obtain ⟨ha, hb, -⟩ := intersect_eq_some his
  exact ⟨ha, hb⟩

section

variable {nfa : Nfa} {g : Group} {p x : Ccl} {c : ℕ}

theorem exists_usedCcl (hx : x ∈ nfa.transCcls) (hc : c ∈ x.chars) :
    ∃ p ∈ usedCcls nfa, p.assertions = x.assertions ∧ p.chars = x.chars := by
  refine (usedCcls_gathered nfa).found x (List.mem_filter.mpr ⟨hx, ?_⟩)
  obtain ⟨r, hr, -⟩ := mem_charsOf.mp hc
  simp only [Ccl.isEmpty, Ccl.isEpsilon, Ccl.ranges_eq_of_mem hc]
  simp [List.ne_nil_of_mem hr]

theorem Partition.subset (h : Partition nfa g) (hp : p ∈ g) (hx : x ∈ nfa.transCcls)
    (hA : x.assertions = p.assertions) (hcp : c ∈ p.chars) (hcx : c ∈ x.chars) :
    p.chars ⊆ x.chars := by
  obtain ⟨x', hx', hA', hchars⟩ := exists_usedCcl hx hcx
  obtain ⟨p', hp', hpA, hcp', hsub⟩ := h.refined.covers x' hx' c (hchars ▸ hcx)
  obtain ⟨k, hk⟩ := List.mem_iff_getElem?.mp hp
  obtain ⟨k', hk'⟩ := List.mem_iff_getElem?.mp hp'
  have hkk : k = k' := by
    by_contra hne
    have hdis := h.disjoint k k' p p' hne hk hk' (by rw [hpA, hA', hA])
    exact Finset.disjoint_left.mp hdis hcp hcp'
  subst hkk
  rw [hk, Option.some.injEq] at hk'
  subst hk'
  exact hsub.trans hchars.subset

theorem Partition.doIntersect_iff (h : Partition nfa g) (ho : nfa.Orderly) (hp : p ∈ g)
    (hx : x ∈ nfa.transCcls) (hc : c ∈ p.chars) :
    doIntersect x p = true ↔ x.assertions = p.assertions ∧ c ∈ x.chars := by
  constructor
  · intro hmeet
    obtain ⟨hkx, hkp⟩ := doIntersect_assertions (h.refined.proper p hp) hmeet
    have hA := hkp.assertions_eq.symm
    refine ⟨hA, ?_⟩
    by_contra hcx
    -- no character of the class is one of the transition's, so the two classes differ
    have hdis : Disjoint x.chars p.chars := by
      rw [Finset.disjoint_right]
      intro d hd hdx
      exact hcx (h.subset hp hx hA hd hdx hc)
    obtain ⟨y, hy, hyA, hpy⟩ := h.refined.within p hp
    have hxy : x ≠ y := by
      intro heq
      exact hcx (heq ▸ hpy hc)
    have hleft : ∀ r ∈ x.rangeList, r.Avoids p.chars := fun r hr =>
      (ho x hx y (usedCcls_subset hy) hxy (hA.trans hyA.symm) r hr).mono hpy
    have hright : ∀ r ∈ p.rangeList, r.Avoids x.chars := by
      intro r hr
      obtain hporig | hclean := h.refined.unsplit p hp
      · have hpx : p ≠ x := fun heq => hcx (heq ▸ hc)
        exact ho p (usedCcls_subset hporig) x hx hpx hA.symm r hr
      · exact hclean.avoids hr _
    obtain ⟨hnone, -⟩ | ⟨is, hsome, -, -, heq, hne⟩ := intersect_spec hkx hkp ⟨hleft, hright⟩
    · rw [doIntersect, hnone, hkp.ranges_eq] at hmeet
      simp at hmeet
    · rw [heq, Finset.disjoint_iff_inter_eq_empty.mp hdis] at hne
      exact Finset.not_nonempty_empty hne
  · rintro ⟨hA, hcx⟩
    exact doIntersect_of_mem hA hcx hc

theorem Partition.exists_class (h : Partition nfa g) (hx : x ∈ nfa.transCcls) (hc : c ∈ x.chars) :
    ∃ p ∈ g, p.assertions = x.assertions ∧ c ∈ p.chars := by
  obtain ⟨x', hx', hA', hchars⟩ := exists_usedCcl hx hc
  obtain ⟨p, hp, hpA, hcp, -⟩ := h.refined.covers x' hx' c (hchars ▸ hc)
  exact ⟨p, hp, hpA.trans hA', hcp⟩

end

/-! ## The NFA states of a set of items -/

def nids (e : List Elem) : Set ℕ :=
  { q | ∃ x ∈ e, x.nid = q }

/-- The loop for the tag group with the highest priority ends with that of an operation,
unless there is none with the priority it starts with. -/
theorem maxTnew_cases (ntops : List NidTagOp) (nid : ℕ) (best : ℤ × ℕ) :
    (∃ o ∈ ntops, o.nid = nid ∧ ntops.foldl (fun best ntop =>
      if ntop.nid = nid ∧ best.1 ≤ ntop.tag.prio then (ntop.tag.prio, ntop.tnew) else best) best =
        (o.tag.prio, o.tnew)) ∨
    (ntops.foldl (fun best ntop =>
      if ntop.nid = nid ∧ best.1 ≤ ntop.tag.prio then (ntop.tag.prio, ntop.tnew) else best) best =
        best ∧ ∀ o ∈ ntops, o.nid = nid → o.tag.prio < best.1) := by
  induction ntops generalizing best with
  | nil => exact .inr ⟨rfl, by simp⟩
  | cons o ntops ih =>
    rw [List.foldl_cons]
    split
    · rename_i ho
      obtain ⟨o', ho', hnid, heq⟩ | ⟨heq, -⟩ := ih (o.tag.prio, o.tnew)
      · exact .inl ⟨o', List.mem_cons_of_mem _ ho', hnid, heq⟩
      · exact .inl ⟨o, List.mem_cons_self, ho.1, heq⟩
    · rename_i ho
      obtain ⟨o', ho', hnid, heq⟩ | ⟨heq, hlt⟩ := ih best
      · exact .inl ⟨o', List.mem_cons_of_mem _ ho', hnid, heq⟩
      · refine .inr ⟨heq, fun o' ho' hnid => ?_⟩
        obtain rfl | ho' := List.mem_cons.mp ho'
        · exact not_le.mp fun hle => ho ⟨hnid, hle⟩
        · exact hlt o' ho' hnid

section

variable {nfa : Nfa} {g : Group} {e : List Elem} {c : Ccl}

theorem exists_numberedOp (ht : nfa.WellTagged) {told : ℕ} {t : NfaTransition}
    (h : (told, t) ∈ transitionsWith nfa e c) :
    ∃ o ∈ numberedOps (transitionsWith nfa e c), o.nid = t.succ ∧ -127 ≤ o.tag.prio := by
  obtain ⟨k, hk, hget⟩ := List.mem_iff_getElem.mp h
  have hmem : ((told, t), k) ∈ (transitionsWith nfa e c).zipIdx := by
    rw [List.mem_zipIdx_iff_getElem?, List.getElem?_eq_getElem hk, hget]
  obtain ⟨x, -, -, htx, -⟩ := mem_transitionsWith.mp h
  have hops : ∀ o ∈ nidTagOps told ((k + 1) % 256) t,
      o ∈ numberedOps (transitionsWith nfa e c) := fun o ho =>
    List.mem_flatMap.mpr ⟨((told, t), k), hmem, ho⟩
  cases htags : t.tags with
  | none => exact ⟨_, hops _ (by rw [nidTagOps, htags]; exact List.mem_singleton_self _), rfl, by simp⟩
  | some tags =>
    obtain ⟨hne, hprio⟩ := ht t (Nfa.mem_allTrans htx) tags htags
    obtain ⟨tag, l, rfl⟩ := List.exists_cons_of_ne_nil hne
    refine ⟨⟨t.succ, told, (k + 1) % 256, tag⟩, hops _ ?_, rfl, hprio tag (by simp)⟩
    rw [nidTagOps, htags]
    simp

theorem nids_transitionWith (ht : nfa.WellTagged) {q : ℕ} :
    q ∈ nids (transitionWith nfa e c).1 ↔ ∃ p ∈ nids e, ∃ t ∈ (nfa.state p).trans,
      doIntersect (nfa.ccl t.ccl) c = true ∧ t.succ = q := by
  constructor
  · rintro ⟨y, hy, rfl⟩
    obtain ⟨o, ho, hnid, -⟩ := mem_transitionWith.mp hy
    obtain ⟨-, ⟨⟨told, t⟩, htf, hsucc⟩, -⟩ := mem_keptBy.mp ho
    obtain ⟨x, hx, -, htx, hmeet⟩ := mem_transitionsWith.mp htf
    exact ⟨x.nid, ⟨x, hx, rfl⟩, t, htx, hmeet, hsucc.trans hnid⟩
  · rintro ⟨-, ⟨x, hx, rfl⟩, t, htx, hmeet, rfl⟩
    have hfound : (x.tid, t) ∈ transitionsWith nfa e c :=
      mem_transitionsWith.mpr ⟨x, hx, rfl, htx, hmeet⟩
    obtain ⟨o, ho, hnid, hprio⟩ := exists_numberedOp ht hfound
    obtain ⟨o', ho', hnid', hbest⟩ | ⟨-, hlt⟩ :=
      maxTnew_cases (numberedOps (transitionsWith nfa e c)) t.succ (-127, 0)
    · refine ⟨⟨t.succ, o'.tnew⟩, mem_transitionWith.mpr ⟨o', ?_, hnid', rfl⟩, rfl⟩
      refine mem_keptBy.mpr ⟨ho', ⟨(x.tid, t), hfound, hnid'.symm⟩, ?_⟩
      rw [maxTnew, hnid', hbest]
    · exact absurd (hlt o ho hnid) (not_lt.mpr hprio)


/-! ## One character -/

theorem mem_specTrans {d : ℕ × List Elem × List TagOp} :
    d ∈ specTrans nfa e g.zipIdx ↔ ∃ p k, g[k]? = some p ∧ p.isEmpty = false ∧
      (transitionWith nfa e p).1 ≠ [] ∧ d = (k, transitionWith nfa e p) := by
  simp only [specTrans, List.mem_filterMap, Prod.exists, List.mem_zipIdx_iff_getElem?]
  constructor
  · rintro ⟨p, k, hk, hd⟩
    split at hd
    · cases hd
    · rename_i hne
      rw [not_or] at hne
      exact ⟨p, k, hk, Bool.eq_false_iff.mpr hne.1, hne.2, (Option.some.inj hd).symm⟩
  · rintro ⟨p, k, hk, hempty, hne, rfl⟩
    refine ⟨p, k, hk, ?_⟩
    rw [if_neg (by simp [hempty, hne])]

theorem inRanges_iff {rs : List Range} {cp : ℕ} : inRanges rs cp = true ↔ cp ∈ charsOf rs := by
  rw [mem_charsOf, inRanges, List.any_eq_true]
  simp only [decide_eq_true_eq, Range.mem_chars, ge_iff_le]

theorem cclMatch_iff {cp : ℕ} {previous : Option ℕ} {assertions : Finset Assertion} :
    cclMatch c cp previous assertions = true ↔
      cclMatchAssertions cp previous assertions c.assertions = true ∧ cp ∈ c.chars := by
  unfold cclMatch
  cases hr : c.ranges with
  | none => simp [Ccl.chars, Ccl.rangeList, charsOf, hr]
  | some rs =>
    cases cclMatchAssertions cp previous assertions c.assertions with
    | false => simp
    | true => simp [inRanges_iff, Ccl.chars, Ccl.rangeList, hr]

/-- What a matcher gets to see of a position of its input. -/
structure Symbol where
  cp : ℕ
  previous : Option ℕ
  assertions : Finset Assertion

/-- The standard matcher's way to decide whether a class lets pass. -/
def Symbol.passes (s : Symbol) (ccl : Ccl) : Bool :=
  cclMatch ccl s.cp s.previous s.assertions

/-- All transitions out of the states that let the symbol pass have the same assertions. -/
def Nfa.Uniform (nfa : Nfa) (S : Set ℕ) (s : Symbol) : Prop :=
  ∀ p ∈ S, ∀ t ∈ (nfa.state p).trans, ∀ p' ∈ S, ∀ t' ∈ (nfa.state p').trans,
    s.passes (nfa.ccl t.ccl) = true → s.passes (nfa.ccl t'.ccl) = true →
      (nfa.ccl t.ccl).assertions = (nfa.ccl t'.ccl).assertions

/-- The NFA for the standard matcher. -/
def Nfa.machine (nfa : Nfa) : NFA Symbol ℕ :=
  nfa.automaton fun s ccl => s.passes ccl = true

theorem mem_machine_stepSet {S : Set ℕ} {s : Symbol} {q : ℕ} :
    q ∈ nfa.machine.stepSet S s ↔ ∃ p ∈ S, ∃ t ∈ (nfa.state p).trans,
      s.passes (nfa.ccl t.ccl) = true ∧ t.succ = q := by
  rw [NFA.mem_stepSet]
  rfl

theorem specFind_step (hP : Partition nfa g) (ho : nfa.Orderly) (ht : nfa.WellTagged) (s : Symbol)
    (hu : nfa.Uniform (nids e) s) :
    (specFind nfa g s.passes e = none ∧ nfa.machine.stepSet (nids e) s = ∅) ∨
      ∃ d, specFind nfa g s.passes e = some d ∧ nids d.2.1 = nfa.machine.stepSet (nids e) s ∧
        (nfa.machine.stepSet (nids e) s).Nonempty := by
  cases hfind : specFind nfa g s.passes e with
  | none =>
    refine .inl ⟨rfl, Set.eq_empty_iff_forall_notMem.mpr fun q hq => ?_⟩
    obtain ⟨p, hp, t, htp, hpass, rfl⟩ := mem_machine_stepSet.mp hq
    obtain ⟨hA, hcp⟩ := cclMatch_iff.mp hpass
    have hx := Nfa.mem_transCcls htp
    obtain ⟨P, hPg, hPA, hPcp⟩ := hP.exists_class hx hcp
    obtain ⟨k, hk⟩ := List.mem_iff_getElem?.mp hPg
    have hsucc : t.succ ∈ nids (transitionWith nfa e P).1 :=
      (nids_transitionWith ht).mpr
        ⟨p, hp, t, htp, (hP.doIntersect_iff ho hPg hx hPcp).mpr ⟨hPA.symm, hcp⟩, rfl⟩
    obtain ⟨y, hy, -⟩ := hsucc
    have hmem : (k, transitionWith nfa e P) ∈ specTrans nfa e g.zipIdx := by
      refine mem_specTrans.mpr ⟨P, k, hk, ?_, List.ne_nil_of_mem hy, rfl⟩
      obtain ⟨r, hr, -⟩ := mem_charsOf.mp hPcp
      rw [Ccl.isEmpty, Ccl.ranges_eq_of_mem hPcp]
      simp [List.ne_nil_of_mem hr]
    have hnone := List.find?_eq_none.mp hfind _ hmem
    rw [List.getD_eq_getElem?_getD, hk] at hnone
    exact hnone (cclMatch_iff.mpr ⟨hPA ▸ hA, hPcp⟩)
  | some d =>
    refine .inr ⟨d, rfl, ?_⟩
    obtain ⟨P, k, hk, -, hne, rfl⟩ := mem_specTrans.mp (List.mem_of_find?_eq_some hfind)
    have hpass := List.find?_some hfind
    rw [List.getD_eq_getElem?_getD, hk, Option.getD_some] at hpass
    obtain ⟨hA, hcp⟩ := cclMatch_iff.mp hpass
    have hPg := List.mem_of_getElem? hk
    -- some transition has led to the class, so it lets pass and has the same assertions
    obtain ⟨y, l, hy⟩ := List.exists_cons_of_ne_nil hne
    have hy' : y.nid ∈ nids (transitionWith nfa e P).1 := ⟨y, by simp [hy], rfl⟩
    have hsame : ∀ p ∈ nids e, ∀ t ∈ (nfa.state p).trans,
        (doIntersect (nfa.ccl t.ccl) P = true ↔ s.passes (nfa.ccl t.ccl) = true) := by
      obtain ⟨p₀, hp₀, t₀, ht₀, hmeet₀, -⟩ := (nids_transitionWith ht).mp hy'
      obtain ⟨hA₀, hcp₀⟩ := (hP.doIntersect_iff ho hPg (Nfa.mem_transCcls ht₀) hcp).mp hmeet₀
      have hpass₀ : s.passes (nfa.ccl t₀.ccl) = true := cclMatch_iff.mpr ⟨hA₀ ▸ hA, hcp₀⟩
      intro p hp t htp
      rw [hP.doIntersect_iff ho hPg (Nfa.mem_transCcls htp) hcp]
      constructor
      · rintro ⟨hAt, hcpt⟩
        exact cclMatch_iff.mpr ⟨hAt ▸ hA, hcpt⟩
      · intro hpt
        exact ⟨(hu p hp t htp p₀ hp₀ t₀ ht₀ hpt hpass₀).trans hA₀, (cclMatch_iff.mp hpt).2⟩
    have hnids : nids (transitionWith nfa e P).1 = nfa.machine.stepSet (nids e) s := by
      ext q
      rw [nids_transitionWith ht, mem_machine_stepSet]
      constructor
      · rintro ⟨p, hp, t, htp, hmeet, hq⟩
        exact ⟨p, hp, t, htp, (hsame p hp t htp).mp hmeet, hq⟩
      · rintro ⟨p, hp, t, htp, hpt, hq⟩
        exact ⟨p, hp, t, htp, (hsame p hp t htp).mpr hpt, hq⟩
    exact ⟨hnids, y.nid, hnids ▸ hy'⟩

end

/-! ## Words -/

/-- The state that a matcher reaches with a word, if it does not jam. -/
def reach : List Symbol → Dfa → ℕ → Option (Dfa × Option DfaState)
  | [], dfa, id => do
    let r ← dfaGetState dfa id
    some (r.1, some r.2)
  | s :: word, dfa, id => do
    let r ← findTransition s.passes dfa id
    match r.2.2 with
    | none => some (r.1, none)
    | some (t, _) => reach word r.1 t.succ

/-- At every position of the word, the open transitions have the same assertions. -/
def Nfa.UniformFrom (nfa : Nfa) : Set ℕ → List Symbol → Prop
  | _, [] => True
  | S, s :: word => nfa.Uniform S s ∧ nfa.UniformFrom (nfa.machine.stepSet S s) word

theorem evalFrom_empty {α σ : Type} (M : NFA α σ) (word : List α) : M.evalFrom ∅ word = ∅ := by
  induction word with
  | nil => rfl
  | cons a word ih => rw [NFA.evalFrom_cons, NFA.stepSet_empty, ih]

theorem reach_spec {nfa : Nfa} {g : Group} {recurse : Bool} (hP : Partition nfa g)
    (ho : nfa.Orderly) (ht : nfa.WellTagged) (word : List Symbol) :
    ∀ (dfa : Dfa) (id : ℕ) (e : List Elem), Idle recurse dfa → dfa.nfa = nfa → dfa.ccls = g →
      dfa.hstates[id]? = some e → (nids e).Nonempty → nfa.UniformFrom (nids e) word →
      ∃ dfa' o, reach word dfa id = some (dfa', o) ∧ dfa'.nfa = nfa ∧
        ((o = none ∧ nfa.machine.evalFrom (nids e) word = ∅) ∨
          ∃ s e', o = some s ∧ s.accepts = acceptsOf nfa e' ∧
            nids e' = nfa.machine.evalFrom (nids e) word ∧ (nids e').Nonempty) := by
  induction word with
  | nil =>
    intro dfa id e h hnfa hccls he hne _
    obtain ⟨dfa', s, hget, -, hx, hm, -⟩ := dfaGetState_spec h he
    have hnfa' := hx.nfa_eq.trans hnfa
    refine ⟨dfa', some s, by simp [reach, hget], hnfa', .inr ⟨s, e, rfl, ?_, rfl, hne⟩⟩
    rw [hm.accepts_eq, hnfa']
  | cons s word ih =>
    intro dfa id e h hnfa hccls he hne hu
    obtain ⟨dfa₁, st, o, hfind, hidle, hx, -, -, hcase⟩ := findTransition_spec h he s.passes
    rw [hnfa, hccls] at hcase
    have hnfa₁ := hx.nfa_eq.trans hnfa
    have hccls₁ := hx.ccls_eq.trans hccls
    have hstep := specFind_step hP ho ht s hu.1
    obtain ⟨rfl, hspec⟩ | ⟨t, succ, c, rfl, hspec, htc, -⟩ := hcase
    · rw [hspec] at hstep
      obtain ⟨-, hempty⟩ | ⟨d, hd, -⟩ := hstep
      · refine ⟨dfa₁, none, by simp [reach, hfind], hnfa₁, .inl ⟨rfl, ?_⟩⟩
        rw [NFA.evalFrom_cons, hempty, evalFrom_empty]
      · cases hd
    · rw [hspec] at hstep
      obtain ⟨hnone, -⟩ | ⟨d, hd, hnids, hnonempty⟩ := hstep
      · cases hnone
      · cases hd
        obtain ⟨dfa', o, hreach, hnfa', hrest⟩ := ih dfa₁ t.succ c.2.1 hidle hnfa₁ hccls₁ htc.2.1
          (hnids ▸ hnonempty) (hnids ▸ hu.2)
        refine ⟨dfa', o, by simp [reach, hfind, hreach], hnfa', ?_⟩
        rwa [NFA.evalFrom_cons, ← hnids]

theorem nids_initialElems (nfa : Nfa) : nids nfa.initialElems = { nfa.initial } := by
  ext q
  simp [nids, Nfa.initialElems, eq_comm]

theorem mem_acceptsOf_aid {nfa : Nfa} {e : List Elem} {aid : ℕ} :
    (∃ a ∈ acceptsOf nfa e, a.aid = aid) ↔
      ∃ q ∈ nids e, ∃ a ∈ (nfa.state q).accepts, a.aid = aid := by
  simp only [acceptsOf, List.mem_flatMap, List.mem_map]
  constructor
  · rintro ⟨_, ⟨x, hx, a, ha, rfl⟩, rfl⟩
    exact ⟨x.nid, ⟨x, hx, rfl⟩, a, ha, rfl⟩
  · rintro ⟨_, ⟨x, hx, rfl⟩, a, ha, rfl⟩
    exact ⟨_, ⟨x, hx, a, ha, rfl⟩, rfl⟩

/-! ## Patterns without assertions -/

def Nfa.AssertionFree (nfa : Nfa) : Prop :=
  ∀ ccl ∈ nfa.transCcls, ccl.assertions = ∅

/-- The NFA as an automaton that reads characters. -/
def Nfa.toNFA (nfa : Nfa) : NFA ℕ ℕ :=
  nfa.automaton fun c ccl => c ∈ ccl.chars

/-- A character for which no assertions are made. -/
def plain (c : ℕ) : Symbol :=
  ⟨c, none, ∅⟩

theorem plain_passes {ccl : Ccl} (h : ccl.assertions = ∅) (c : ℕ) :
    (plain c).passes ccl = true ↔ c ∈ ccl.chars := by
  rw [Symbol.passes, cclMatch_iff, h]
  simp [plain, cclMatchAssertions]

theorem plain_uniformFrom {nfa : Nfa} (h : nfa.AssertionFree) (word : List ℕ) (S : Set ℕ) :
    nfa.UniformFrom S (word.map plain) := by
  induction word generalizing S with
  | nil => trivial
  | cons c word ih =>
    refine ⟨fun p _ t htp p' _ t' htp' _ _ => ?_, ih _⟩
    rw [h _ (Nfa.mem_transCcls htp), h _ (Nfa.mem_transCcls htp')]

theorem plain_evalFrom {nfa : Nfa} (h : nfa.AssertionFree) (word : List ℕ) (S : Set ℕ) :
    nfa.machine.evalFrom S (word.map plain) = nfa.toNFA.evalFrom S word := by
  induction word generalizing S with
  | nil => rfl
  | cons c word ih =>
    have hstep : nfa.machine.stepSet S (plain c) = nfa.toNFA.stepSet S c := by
      ext q
      rw [mem_machine_stepSet, NFA.mem_stepSet]
      constructor
      · rintro ⟨p, hp, t, htp, hpass, hq⟩
        exact ⟨p, hp, t, htp, (plain_passes (h _ (Nfa.mem_transCcls htp)) c).mp hpass, hq⟩
      · rintro ⟨p, hp, t, htp, hc, hq⟩
        exact ⟨p, hp, t, htp, (plain_passes (h _ (Nfa.mem_transCcls htp)) c).mpr hc, hq⟩
    rw [List.map_cons, NFA.evalFrom_cons, NFA.evalFrom_cons, hstep, ih]

/-- The DFA of an NFA without assertions accepts the language of the NFA, with the same
ids, and jams exactly when the NFA does, whether its states are computed on demand or up
front. -/
theorem dfa_language (nfa : Nfa) (ha : nfa.AssertionFree) (ht : nfa.WellTagged)
    (ho : nfa.Orderly) (lazy : Bool) :
    ∃ n, ∀ fuel ≥ n, ∃ dfa, dfaFromNfa lazy fuel nfa = some dfa ∧
      ∀ word : List ℕ, ∃ dfa' o, reach (word.map plain) dfa dfa.initial = some (dfa', o) ∧
        (o = none ↔ nfa.toNFA.eval word = ∅) ∧
        ∀ s, o = some s → ∀ aid, (∃ a ∈ s.accepts, a.aid = aid) ↔
          ∃ q ∈ nfa.toNFA.eval word, ∃ a ∈ (nfa.state q).accepts, a.aid = aid := by
  refine ⟨2 * ((usedCcls nfa).length + measure (usedCcls nfa)) + measure (usedCcls nfa) + 2 +
    nfa.itemSets.card, fun fuel hfuel => ?_⟩
  obtain ⟨g, hg, hP⟩ := usedCcls_partition ho (show _ < fuel by omega)
  obtain ⟨dfa, hdfa, hidle, hnfa, hccls, hinit, -⟩ := dfaFromNfa_spec lazy hg (by omega)
  refine ⟨dfa, hdfa, fun word => ?_⟩
  have hstart : nids nfa.initialElems = nfa.toNFA.start := nids_initialElems nfa
  have hne : (nids nfa.initialElems).Nonempty := ⟨nfa.initial, by rw [nids_initialElems]; rfl⟩
  obtain ⟨dfa', o, hreach, -, hcase⟩ := reach_spec hP ho ht (word.map plain) dfa dfa.initial
    nfa.initialElems hidle hnfa hccls hinit hne (plain_uniformFrom ha word _)
  rw [plain_evalFrom ha, hstart] at hcase
  refine ⟨dfa', o, hreach, ?_⟩
  obtain ⟨rfl, hempty⟩ | ⟨s, e', rfl, hacc, hnids, hnonempty⟩ := hcase
  · exact ⟨⟨fun _ => hempty, fun _ => rfl⟩, fun s hs => by cases hs⟩
  · rw [hnids] at hnonempty
    refine ⟨⟨fun h => absurd h (Option.some_ne_none s), fun h => ?_⟩, fun s' hs aid => ?_⟩
    · have hempty : nfa.toNFA.evalFrom nfa.toNFA.start word = ∅ := h
      rw [hempty] at hnonempty
      exact absurd hnonempty Set.not_nonempty_empty
    · cases hs
      rw [hacc, mem_acceptsOf_aid, hnids]
      rfl

/-- What `jrx_regset_add` makes of the patterns `[a-c]x` and `[b-d]y` when nothing is to be
captured. -/
def overlapping : Nfa where
  ccls := [⟨∅, some [⟨97, 100⟩]⟩, ⟨∅, some [⟨120, 121⟩]⟩, ⟨∅, none⟩, ⟨∅, some [⟨98, 101⟩]⟩,
    ⟨∅, some [⟨121, 122⟩]⟩]
  states := [⟨[], [⟨0, 1, none⟩]⟩, ⟨[], [⟨1, 3, none⟩]⟩, ⟨[], [⟨1, 3, none⟩]⟩, ⟨[⟨∅, 1, none⟩], []⟩,
    ⟨[], [⟨3, 5, none⟩]⟩, ⟨[], [⟨4, 7, none⟩]⟩, ⟨[], [⟨4, 7, none⟩]⟩, ⟨[⟨∅, 2, none⟩], []⟩,
    ⟨[], [⟨0, 1, none⟩, ⟨3, 5, none⟩]⟩, ⟨[], []⟩]
  initial := 8
  initialTags := none

/-- With the word `bx` the first of the two patterns is accepted. -/
theorem overlapping_language :
    ∃ n, ∀ fuel ≥ n, ∃ dfa, dfaFromNfa true fuel overlapping = some dfa ∧
      ∃ dfa' s, reach ([98, 120].map plain) dfa dfa.initial = some (dfa', some s) ∧
        ∃ a ∈ s.accepts, a.aid = 1 := by
  have hclean : ∀ x ∈ overlapping.transCcls, x.Clean := by
    unfold Ccl.Clean
    decide
  have htags : ∀ t ∈ overlapping.allTrans, t.tags = none := by decide
  obtain ⟨n, hn⟩ := dfa_language overlapping (by unfold Nfa.AssertionFree; decide)
    (fun t ht tags hsome => by rw [htags t ht] at hsome; cases hsome)
    (fun x hx y _ _ _ r hr => (hclean x hx).avoids hr _) true
  refine ⟨n, fun fuel hfuel => ?_⟩
  obtain ⟨dfa, hdfa, hwords⟩ := hn fuel hfuel
  obtain ⟨dfa', o, hreach, hjam, hacc⟩ := hwords [98, 120]
  have hmem : 3 ∈ overlapping.toNFA.eval [98, 120] := by
    rw [NFA.eval, NFA.evalFrom_cons, NFA.evalFrom_singleton, NFA.mem_stepSet]
    refine ⟨1, NFA.mem_stepSet.mpr ⟨8, rfl, ⟨0, 1, none⟩, ?_, ?_, rfl⟩, ⟨1, 3, none⟩, ?_, ?_, rfl⟩
    all_goals decide
  cases o with
  | none => exact absurd (hjam.mp rfl ▸ hmem) (Set.notMem_empty 3)
  | some s =>
    refine ⟨dfa, hdfa, dfa', s, hreach, (hacc s rfl 1).mpr ⟨3, hmem, ⟨∅, 1, none⟩, ?_, rfl⟩⟩
    decide

/-- What `jrx_regset_add` makes of the patterns `[z-a]x` and `[a-c]y` when nothing is to be
captured: the first one stands for no word at all. -/
def backwards : Nfa where
  ccls := [⟨∅, some [⟨122, 98⟩]⟩, ⟨∅, some [⟨120, 121⟩]⟩, ⟨∅, none⟩, ⟨∅, some [⟨97, 100⟩]⟩,
    ⟨∅, some [⟨121, 122⟩]⟩]
  states := [⟨[], [⟨0, 1, none⟩]⟩, ⟨[], [⟨1, 3, none⟩]⟩, ⟨[], [⟨1, 3, none⟩]⟩, ⟨[⟨∅, 1, none⟩], []⟩,
    ⟨[], [⟨3, 5, none⟩]⟩, ⟨[], [⟨4, 7, none⟩]⟩, ⟨[], [⟨4, 7, none⟩]⟩, ⟨[⟨∅, 2, none⟩], []⟩,
    ⟨[], [⟨0, 1, none⟩, ⟨3, 5, none⟩]⟩, ⟨[], []⟩]
  initial := 8
  initialTags := none

/-- With the word `ax` the DFA reaches a state that accepts the first pattern, while the
NFA has no states left. -/
theorem backwards_language :
    ((dfaFromNfa true 40 backwards).bind fun dfa =>
      (reach ([97, 120].map plain) dfa dfa.initial).map fun r =>
        r.2.map fun s => s.accepts.map DfaAccept.aid) = some (some [1]) ∧
      backwards.toNFA.eval [97, 120] = ∅ := by
  refine ⟨by decide, ?_⟩
  rw [NFA.eval, NFA.evalFrom_cons, NFA.evalFrom_singleton, Set.eq_empty_iff_forall_notMem]
  intro q hq
  obtain ⟨p, hp, t, ht, hc, -⟩ := NFA.mem_stepSet.mp hq
  obtain ⟨p', hp', t', ht', hc', rfl⟩ := NFA.mem_stepSet.mp hp
  rw [Set.mem_singleton_iff.mp hp'] at ht'
  simp only [Nfa.state, backwards, List.getD_cons_succ, List.getD_cons_zero, List.mem_cons,
    List.not_mem_nil, or_false] at ht'
  obtain rfl | rfl := ht'
  · revert hc'
    decide
  · simp only [Nfa.state, backwards, List.getD_cons_succ, List.getD_cons_zero, List.mem_cons,
      List.not_mem_nil, or_false] at ht
    subst ht
    revert hc
    decide

end Hilti.Justrx
