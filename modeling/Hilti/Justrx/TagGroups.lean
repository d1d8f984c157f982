import Mathlib.Tactic
import Hilti.Justrx.Language

/-!
# The tag groups of a transition

`transition_with` numbers the transitions that it finds for a class, and keeps for every state
they lead to the one with the highest priority, or the last one of these.  Its number, in eight
bits, is the tag group of the item for the state.
-/

namespace Hilti.Justrx

set_option autoImplicit false

/-- The priorities of the operations for a transition. -/
def NfaTransition.prios (trans : NfaTransition) : List ℤ :=
  match trans.tags with
  | some tags => tags.map Tag.prio
  | none => [0]

/-- The transition at position `k` is the one that decides for the state `nid`: it has a priority
that no other one into the state exceeds, and that no later one reaches. -/
def Decides (found : List (ℕ × NfaTransition)) (k nid : ℕ) : Prop :=
  ∃ e, found[k]? = some e ∧ e.2.succ = nid ∧ ∃ p ∈ e.2.prios,
    ∀ j e', found[j]? = some e' → e'.2.succ = nid → ∀ q ∈ e'.2.prios, q ≤ p ∧ (k < j → q < p)

theorem Decides.unique {found : List (ℕ × NfaTransition)} {k k' nid : ℕ} (h : Decides found k nid)
    (h' : Decides found k' nid) : k = k' := by
  obtain ⟨e, he, hnid, p, hp, hbest⟩ := h
  obtain ⟨e', he', hnid', p', hp', hbest'⟩ := h'
  have hle := hbest k' e' he' hnid' p' hp'
  have hle' := hbest' k e he hnid p hp
  by_contra hne
  cases Nat.lt_or_gt_of_ne hne with
  | inl hlt => exact absurd hle'.1 (not_le.mpr (hle.2 hlt))
  | inr hgt => exact absurd hle.1 (not_le.mpr (hle'.2 hgt))

/-! ## The search for the highest priority -/

def pickTnew (nid : ℕ) (best : ℤ × ℕ) (ntop : NidTagOp) : ℤ × ℕ :=
  if ntop.nid = nid ∧ best.1 ≤ ntop.tag.prio then (ntop.tag.prio, ntop.tnew) else best

theorem foldl_pickTnew (nid succ told tid : ℕ) (tags : List Tag) (best : ℤ × ℕ) :
    (succ = nid ∧ ∃ p ∈ tags.map Tag.prio, best.1 ≤ p ∧ (∀ q ∈ tags.map Tag.prio, q ≤ p) ∧
      (tags.map fun tag => NidTagOp.mk succ told tid tag).foldl (pickTnew nid) best = (p, tid)) ∨
    ((succ = nid → ∀ q ∈ tags.map Tag.prio, q < best.1) ∧
      (tags.map fun tag => NidTagOp.mk succ told tid tag).foldl (pickTnew nid) best = best) := by
  induction tags generalizing best with
  | nil => exact Or.inr ⟨by simp, rfl⟩
  | cons tag tags ih =>
    simp only [List.map_cons, List.foldl_cons, List.mem_cons, forall_eq_or_imp]
    rw [pickTnew]
    split
    · rename_i htag
      cases ih (tag.prio, tid) with
      | inl hmore =>
        obtain ⟨hnid, p, hp, hle, hmax, hfold⟩ := hmore
        exact Or.inl ⟨hnid, p, Or.inr hp, htag.2.trans hle, ⟨hle, hmax⟩, hfold⟩
      | inr hsame =>
        obtain ⟨hlt, hfold⟩ := hsame
        refine Or.inl ⟨htag.1, tag.prio, Or.inl rfl, htag.2, ⟨le_rfl, ?_⟩, hfold⟩
        intro q hq
        exact (hlt htag.1 q hq).le
    · rename_i htag
      cases ih best with
      | inl hmore =>
        obtain ⟨hnid, p, hp, hle, hmax, hfold⟩ := hmore
        refine Or.inl ⟨hnid, p, Or.inr hp, hle, ⟨?_, hmax⟩, hfold⟩
        have hlt : tag.prio < best.1 := not_le.mp fun h => htag ⟨hnid, h⟩
        exact hlt.le.trans hle
      | inr hsame =>
        refine Or.inr ⟨?_, hsame.2⟩
        intro hnid
        exact ⟨not_le.mp fun h => htag ⟨hnid, h⟩, hsame.1 hnid⟩

theorem foldl_nidTagOps (nid told tid : ℕ) (trans : NfaTransition) (best : ℤ × ℕ) :
    (trans.succ = nid ∧ ∃ p ∈ trans.prios, best.1 ≤ p ∧ (∀ q ∈ trans.prios, q ≤ p) ∧
      (nidTagOps told tid trans).foldl (pickTnew nid) best = (p, tid)) ∨
    ((trans.succ = nid → ∀ q ∈ trans.prios, q < best.1) ∧
      (nidTagOps told tid trans).foldl (pickTnew nid) best = best) := by
  unfold nidTagOps NfaTransition.prios
  cases trans.tags with
  | some tags => exact foldl_pickTnew nid trans.succ told tid tags best
  | none => exact foldl_pickTnew nid trans.succ told tid [⟨-1, 0⟩] best

theorem numberedOps_append (found : List (ℕ × NfaTransition)) (e : ℕ × NfaTransition) :
    numberedOps (found ++ [e]) =
      numberedOps found ++ nidTagOps e.1 ((found.length + 1) % 256) e.2 := by
  simp [numberedOps, List.zipIdx_append]

theorem foldl_numberedOps (found : List (ℕ × NfaTransition)) (nid : ℕ) :
    (∃ k e p, found[k]? = some e ∧ e.2.succ = nid ∧ p ∈ e.2.prios ∧
      (numberedOps found).foldl (pickTnew nid) (-127, 0) = (p, (k + 1) % 256) ∧
      ∀ j e', found[j]? = some e' → e'.2.succ = nid → ∀ q ∈ e'.2.prios, q ≤ p ∧ (k < j → q < p)) ∨
    ((numberedOps found).foldl (pickTnew nid) (-127, 0) = (-127, 0) ∧
      ∀ e ∈ found, e.2.succ = nid → ∀ q ∈ e.2.prios, q < -127) := by
  induction found using List.reverseRecOn with
  | nil => exact Or.inr ⟨rfl, by simp⟩
  | append_singleton found e ih =>
    rw [numberedOps_append, List.foldl_append]
    have hlast : (found ++ [e])[found.length]? = some e := by simp
    have hold : ∀ j e', (found ++ [e])[j]? = some e' →
        (j < found.length ∧ found[j]? = some e') ∨ (j = found.length ∧ e' = e) := by
      intro j e' hj
      have hlt := (List.getElem?_eq_some_iff.mp hj).1
      rw [List.length_append, List.length_singleton] at hlt
      by_cases hj' : j < found.length
      · rw [List.getElem?_append_left hj'] at hj
        exact Or.inl ⟨hj', hj⟩
      · have heq : j = found.length := by omega
        rw [heq, hlast] at hj
        exact Or.inr ⟨heq, (Option.some.inj hj).symm⟩
    cases foldl_nidTagOps nid e.1 ((found.length + 1) % 256) e.2
      ((numberedOps found).foldl (pickTnew nid) (-127, 0)) with
    | inl hnew =>
      obtain ⟨hnid, p, hp, hle, hmax, hfold⟩ := hnew
      refine Or.inl ⟨found.length, e, p, hlast, hnid, hp, hfold, ?_⟩
      intro j e' hj hnid' q hq
      cases hold j e' hj with
      | inr hend =>
        rw [hend.2] at hq
        exact ⟨hmax q hq, fun hlt => absurd hlt (by omega)⟩
      | inl hbefore =>
        refine ⟨le_trans ?_ hle, fun hlt => absurd hlt (by omega)⟩
        cases ih with
        | inl hfound =>
          obtain ⟨k, e₁, p₁, _, _, _, hfold₁, hbest⟩ := hfound
          rw [hfold₁]
          exact (hbest j e' hbefore.2 hnid' q hq).1
        | inr hnone =>
          rw [hnone.1]
          exact (hnone.2 e' (List.mem_of_getElem? hbefore.2) hnid' q hq).le
    | inr hsame =>
      obtain ⟨hlow, hfold⟩ := hsame
      rw [hfold]
      cases ih with
      | inl hfound =>
        obtain ⟨k, e₁, p, hk, hnid, hp, hfold₁, hbest⟩ := hfound
        have hklt := (List.getElem?_eq_some_iff.mp hk).1
        refine Or.inl ⟨k, e₁, p, by rw [List.getElem?_append_left hklt, hk], hnid, hp, hfold₁, ?_⟩
        intro j e' hj hnid' q hq
        cases hold j e' hj with
        | inl hbefore => exact hbest j e' hbefore.2 hnid' q hq
        | inr hend =>
          rw [hend.2] at hnid' hq
          have hlt := hlow hnid' q hq
          rw [hfold₁] at hlt
          exact ⟨hlt.le, fun _ => hlt⟩
      | inr hnone =>
        refine Or.inr ⟨hnone.1, ?_⟩
        intro e' he' hnid' q hq
        cases List.mem_append.mp he' with
        | inl hbefore => exact hnone.2 e' hbefore hnid' q hq
        | inr hend =>
          rw [List.mem_singleton.mp hend] at hnid' hq
          have hlt := hlow hnid' q hq
          rw [hnone.1] at hlt
          exact hlt

/-! ## The tag group of an item -/

section

variable {nfa : Nfa} {dstate : List Elem} {ccl : Ccl}

theorem maxTnew_decides (ht : nfa.WellTagged) {told : ℕ} {t : NfaTransition}
    (h : (told, t) ∈ transitionsWith nfa dstate ccl) :
    ∃ k, Decides (transitionsWith nfa dstate ccl) k t.succ ∧
      maxTnew (numberedOps (transitionsWith nfa dstate ccl)) t.succ = (k + 1) % 256 := by
  cases foldl_numberedOps (transitionsWith nfa dstate ccl) t.succ with
  | inl hfound =>
    obtain ⟨k, e, p, hk, hnid, hp, hfold, hbest⟩ := hfound
    exact ⟨k, ⟨e, hk, hnid, p, hp, hbest⟩, congrArg Prod.snd hfold⟩
  | inr hnone =>
    obtain ⟨x, _, _, htx, _⟩ := mem_transitionsWith.mp h
    have hprio : ∃ q ∈ t.prios, -127 ≤ q := by
      unfold NfaTransition.prios
      split
      · rename_i tags htags
        obtain ⟨hne, hmin⟩ := ht t (Nfa.mem_allTrans htx) tags htags
        obtain ⟨tag, htag⟩ := List.exists_mem_of_ne_nil tags hne
        exact ⟨tag.prio, List.mem_map_of_mem htag, hmin tag htag⟩
      · exact ⟨0, List.mem_singleton_self 0, by decide⟩
    obtain ⟨q, hq, hmin⟩ := hprio
    exact absurd (hnone.2 (told, t) h rfl q hq) (not_lt.mpr hmin)

theorem item_tid (ht : nfa.WellTagged) {x : Elem} (hx : x ∈ (transitionWith nfa dstate ccl).1) :
    ∃ k, Decides (transitionsWith nfa dstate ccl) k x.nid ∧ x.tid = (k + 1) % 256 := by
  obtain ⟨o, ho, hnid, htid⟩ := mem_transitionWith.mp hx
  obtain ⟨_, ⟨t, htf, hsucc⟩, hmax⟩ := mem_keptBy.mp ho
  have htf' : (t.1, t.2) ∈ transitionsWith nfa dstate ccl := htf
  obtain ⟨k, hk, htnew⟩ := maxTnew_decides ht htf'
  refine ⟨k, by rw [← hnid, ← hsucc]; exact hk, ?_⟩
  rw [← htid, hmax, ← hsucc, htnew]

theorem exists_item (ht : nfa.WellTagged) {k nid : ℕ}
    (h : Decides (transitionsWith nfa dstate ccl) k nid) :
    ⟨nid, (k + 1) % 256⟩ ∈ (transitionWith nfa dstate ccl).1 := by
  obtain ⟨e, hk, hnid, _⟩ := id h
  obtain ⟨x, hx, _, htx, hmeet⟩ := mem_transitionsWith.mp (List.mem_of_getElem? hk)
  have hreached : nid ∈ nids (transitionWith nfa dstate ccl).1 :=
    (nids_transitionWith ht).mpr ⟨x.nid, ⟨x, hx, rfl⟩, e.2, htx, hmeet, hnid⟩
  obtain ⟨y, hy, hynid⟩ := hreached
  obtain ⟨k', hk', htid⟩ := item_tid ht hy
  rw [hynid] at hk'
  have hitem : y = ⟨nid, (k + 1) % 256⟩ := by
    rw [h.unique hk', ← htid, ← hynid]
  rw [← hitem]
  exact hy

theorem tids_collide (ht : nfa.WellTagged) {k k' nid nid' : ℕ}
    (h : Decides (transitionsWith nfa dstate ccl) k nid)
    (h' : Decides (transitionsWith nfa dstate ccl) k' nid') (hne : nid ≠ nid')
    (hmod : k % 256 = k' % 256) : ¬((transitionWith nfa dstate ccl).1.map Elem.tid).Nodup := by
  intro hnodup
  have hinj := List.inj_on_of_nodup_map hnodup (exists_item ht h) (exists_item ht h')
    (show (k + 1) % 256 = (k' + 1) % 256 by omega)
  exact hne (congrArg Elem.nid hinj)

theorem tids_nodup (ht : nfa.WellTagged)
    (h : ∀ k k' nid nid', Decides (transitionsWith nfa dstate ccl) k nid →
      Decides (transitionsWith nfa dstate ccl) k' nid' → nid ≠ nid' → k % 256 ≠ k' % 256) :
    ((transitionWith nfa dstate ccl).1.map Elem.tid).Nodup := by
  apply List.Nodup.map_on ?_ (transitionWith_nodup nfa dstate ccl)
  intro x hx y hy htid
  obtain ⟨k, hk, hkx⟩ := item_tid ht hx
  obtain ⟨k', hk', hky⟩ := item_tid ht hy
  have hnid : x.nid = y.nid := by
    by_contra hne
    apply h k k' x.nid y.nid hk hk' hne
    omega
  cases x
  cases y
  simp_all

end

/-- The tag groups are distinct exactly where no two transitions that decide for different states
are a multiple of 256 apart. -/
theorem tagGroups_distinct_iff (nfa : Nfa) (ht : nfa.WellTagged) (dstate : List Elem) (ccl : Ccl) :
    ((transitionWith nfa dstate ccl).1.map Elem.tid).Nodup ↔
      ∀ k k' nid nid', Decides (transitionsWith nfa dstate ccl) k nid →
        Decides (transitionsWith nfa dstate ccl) k' nid' → nid ≠ nid' → k % 256 ≠ k' % 256 := by
  constructor
  · intro hnodup k k' nid nid' hk hk' hne hmod
    exact tids_collide ht hk hk' hne hmod hnodup
  · exact tids_nodup ht

theorem overlapping_wellTagged : overlapping.WellTagged := by
  intro t ht tags htags
  have hnone : ∀ t ∈ overlapping.allTrans, t.tags = none := by decide
  rw [hnone t ht] at htags
  cases htags

theorem overlapping_tagGroups :
    ((transitionWith overlapping overlapping.initialElems ⟨∅, some [⟨98, 100⟩]⟩).1.map
      Elem.tid).Nodup := by
  apply (tagGroups_distinct_iff overlapping overlapping_wellTagged overlapping.initialElems
    ⟨∅, some [⟨98, 100⟩]⟩).mpr
  intro k k' nid nid' hk hk' hne hmod
  obtain ⟨e, he, hnid, _⟩ := hk
  obtain ⟨e', he', hnid', _⟩ := hk'
  have hlen : (transitionsWith overlapping overlapping.initialElems ⟨∅, some [⟨98, 100⟩]⟩).length =
    2 := by decide
  have hlt := (List.getElem?_eq_some_iff.mp he).1
  have hlt' := (List.getElem?_eq_some_iff.mp he').1
  have heq : k = k' := by omega
  rw [heq, he'] at he
  rw [← hnid, ← hnid', Option.some.inj he] at hne
  exact hne rfl

/-- `width` states are reached from the initial one with the same character, as where so many
patterns begin with it. -/
def fan (width : ℕ) : Nfa where
  ccls := [⟨∅, some [⟨97, 98⟩]⟩]
  states := [⟨[], (List.range width).map fun k => ⟨0, k + 1, none⟩⟩]
  initial := 0
  initialTags := none

theorem fan_transitions (width : ℕ) :
    transitionsWith (fan width) (fan width).initialElems ⟨∅, some [⟨97, 98⟩]⟩ =
      (List.range width).map fun k => (0, ⟨0, k + 1, none⟩) := by
  have hstate : (fan width).state 0 = ⟨[], (List.range width).map fun k => ⟨0, k + 1, none⟩⟩ := rfl
  have hmeet : doIntersect ((fan width).ccl 0) ⟨∅, some [⟨97, 98⟩]⟩ = true :=
    show doIntersect ⟨∅, some [⟨97, 98⟩]⟩ ⟨∅, some [⟨97, 98⟩]⟩ = true by decide
  rw [transitionsWith, Nfa.initialElems, List.flatMap_singleton]
  rw [show (fan width).initial = 0 from rfl, hstate, List.filter_eq_self.mpr, List.map_map]
  · rfl
  · intro t ht
    obtain ⟨k, _, hk⟩ := List.mem_map.mp ht
    rw [← hk]
    exact hmeet

theorem fan_decides {width k : ℕ} (hk : k < width) :
    Decides (transitionsWith (fan width) (fan width).initialElems ⟨∅, some [⟨97, 98⟩]⟩) k (k + 1) := by
  have hget : ∀ (j : ℕ) (e : ℕ × NfaTransition),
      ((List.range width).map fun k => ((0 : ℕ), NfaTransition.mk 0 (k + 1) none))[j]? = some e →
      e = (0, ⟨0, j + 1, none⟩) := by
    intro j e hj
    obtain ⟨hlt, heq⟩ := List.getElem?_eq_some_iff.mp hj
    rw [← heq, List.getElem_map, List.getElem_range]
  unfold Decides
  rw [fan_transitions]
  refine ⟨(0, ⟨0, k + 1, none⟩), by simp [hk], rfl, 0, List.mem_singleton_self 0, ?_⟩
  intro j e hj hsucc q hq
  rw [hget j e hj] at hsucc hq
  rw [show q = 0 from List.mem_singleton.mp hq]
  exact ⟨le_rfl, fun hlt => absurd (Nat.succ.inj hsucc) (Nat.ne_of_gt hlt)⟩

theorem fan_wellTagged (width : ℕ) : (fan width).WellTagged := by
  intro t ht tags htags
  obtain ⟨s, hs, hts⟩ := List.mem_flatMap.mp ht
  rw [List.mem_singleton.mp hs] at hts
  obtain ⟨k, _, hk⟩ := List.mem_map.mp hts
  rw [← hk] at htags
  cases htags

/-- With 257 of them, two have the same tag group. -/
theorem fan_collides :
    ¬((transitionWith (fan 257) (fan 257).initialElems ⟨∅, some [⟨97, 98⟩]⟩).1.map Elem.tid).Nodup :=
  tids_collide (fan_wellTagged 257) (fan_decides (show 0 < 257 by decide))
    (fan_decides (show 256 < 257 by decide)) (by decide) (by decide)

end Hilti.Justrx
