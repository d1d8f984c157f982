import Mathlib
import Hilti.Ast.Model

/-!
# Parent and child links

Each operation on nodes keeps the two lists of links in step, unless `replace` assigns the new node
to a cell that is shared with another entry of a list of childs: that entry then denotes the new
node without a link back.
-/

namespace Hilti.Ast

set_option autoImplicit false

/-! ## Removing the element at an index -/

section

variable {α : Type} {a : α} {P : α → Bool}

theorem countP_eraseIdx : ∀ {l : List α} {i : ℕ}, l[i]? = some a →
    l.countP P = (l.eraseIdx i).countP P + if P a then 1 else 0
  | b :: l, 0, h => by
    obtain rfl := Option.some.inj h
    exact List.countP_cons
  | b :: l, i + 1, h => by
    rw [List.getElem?_cons_succ] at h
    rw [List.eraseIdx_cons_succ, List.countP_cons, List.countP_cons, countP_eraseIdx h]
    omega

theorem eraseIdx_append {l : List α} {i : ℕ} (h : l[i]? = some a) (m : List α) :
    (l ++ m).eraseIdx i = l.eraseIdx i ++ m :=
  List.eraseIdx_append_of_lt_length (List.getElem?_eq_some_iff.mp h).1 m

theorem getElem?_findIdx? {l : List α} {i : ℕ} (h : l.findIdx? P = some i) :
    ∃ a, l[i]? = some a ∧ P a := by
  obtain ⟨hi, hP, -⟩ := List.findIdx?_eq_some_iff_getElem.mp h
  exact ⟨l[i], List.getElem?_eq_getElem hi, hP⟩

end

variable {ν : Type} [DecidableEq ν]

namespace Heap

variable {h : Heap ν} {p q c d x n : ν} {i k : ℕ}

/-- How often `c` occurs in the list of `p`'s childs. -/
def links (h : Heap ν) (p c : ν) : ℕ :=
  (h.childs p).countP (h.holds c)

/-- The links mirror each other; and the cells of childs have been made and are not null. -/
structure Inv (h : Heap ν) : Prop where
  mirror : ∀ p c, h.links p c = (h.parents c).count p
  nonNull : ∀ p, ∀ k ∈ h.childs p, (h.cell k).isSome
  unmade : ∀ k, h.fresh ≤ k → h.cell k = none

theorem Inv.lt (hinv : Inv h) (hk : k ∈ h.childs p) : k < h.fresh := by
  by_contra hle
  have hsome := hinv.nonNull p k hk
  rw [hinv.unmade k (Nat.not_lt.mp hle)] at hsome
  exact Bool.false_ne_true hsome

/-! ## The parts of a heap -/

@[simp] theorem childs_setChilds (h : Heap ν) (p q : ν) (ks : List ℕ) :
    (h.setChilds p ks).childs q = if q = p then ks else h.childs q :=
  Function.update_apply h.childs p ks q

@[simp] theorem parents_setChilds (h : Heap ν) (p : ν) (ks : List ℕ) :
    (h.setChilds p ks).parents = h.parents := rfl

@[simp] theorem cell_setChilds (h : Heap ν) (p : ν) (ks : List ℕ) :
    (h.setChilds p ks).cell = h.cell := rfl

@[simp] theorem fresh_setChilds (h : Heap ν) (p : ν) (ks : List ℕ) :
    (h.setChilds p ks).fresh = h.fresh := rfl

@[simp] theorem childs_setParents (h : Heap ν) (c : ν) (ps : List ν) :
    (h.setParents c ps).childs = h.childs := rfl

@[simp] theorem parents_setParents (h : Heap ν) (c d : ν) (ps : List ν) :
    (h.setParents c ps).parents d = if d = c then ps else h.parents d :=
  Function.update_apply h.parents c ps d

@[simp] theorem cell_setParents (h : Heap ν) (c : ν) (ps : List ν) :
    (h.setParents c ps).cell = h.cell := rfl

@[simp] theorem fresh_setParents (h : Heap ν) (c : ν) (ps : List ν) :
    (h.setParents c ps).fresh = h.fresh := rfl

theorem holds_iff : h.holds c k = true ↔ h.cell k = some c := by
  rw [holds, decide_eq_true_eq]

theorem links_pos_iff : 0 < h.links p c ↔ ∃ k ∈ h.childs p, h.cell k = some c := by
  rw [links, List.countP_pos_iff]
  simp only [holds_iff]

theorem links_congr {h' : Heap ν} (hchilds : h'.childs p = h.childs p)
    (hcell : ∀ k ∈ h.childs p, h'.cell k = h.cell k) : h'.links p c = h.links p c := by
  rw [links, links, hchilds]
  apply List.countP_congr
  intro k hk
  rw [holds_iff, holds_iff, hcell k hk]

/-! ## Adding a child -/

theorem addChild_eq (hk : h.cell k = some c) :
    h.addChild p k =
      (h.setChilds p (h.childs p ++ [k])).setParents c (h.parents c ++ [p]) := by
  rw [addChild, hk]

theorem Inv.addChild (hinv : Inv h) (p : ν) (k : ℕ) : Inv (h.addChild p k) := by
  cases hk : h.cell k with
  | none =>
    have hsame : h.addChild p k = h := by rw [Heap.addChild, hk]
    rw [hsame]
    exact hinv
  | some c =>
    rw [addChild_eq hk]
    refine ⟨fun q d => ?_, fun q k' hk' => ?_, hinv.unmade⟩
    · have hmirror := hinv.mirror q d
      rw [links] at hmirror ⊢
      simp only [childs_setParents, childs_setChilds, parents_setParents, parents_setChilds]
      have hholds : ∀ d, (((h.setChilds p (h.childs p ++ [k])).setParents c
          (h.parents c ++ [p])).holds d) = h.holds d := fun d => rfl
      rw [hholds]
      by_cases hq : q = p
      · subst hq
        by_cases hd : d = c
        · subst hd
          rw [if_pos rfl, if_pos rfl, List.countP_append, List.count_append, hmirror,
            List.countP_singleton, if_pos (holds_iff.mpr hk), List.count_singleton_self]
        · have hnot : ¬ h.holds d k = true := fun hholds =>
            hd (Option.some.inj ((holds_iff.mp hholds).symm.trans hk))
          rw [if_pos rfl, if_neg hd, List.countP_append, List.countP_singleton, if_neg hnot,
            hmirror, Nat.add_zero]
      · rw [if_neg hq, hmirror]
        by_cases hd : d = c
        · subst hd
          rw [if_pos rfl, List.count_append, List.count_singleton, if_neg (by simpa using Ne.symm hq),
            Nat.add_zero]
        · rw [if_neg hd]
    · simp only [childs_setParents, childs_setChilds] at hk'
      by_cases hq : q = p
      · rw [if_pos hq] at hk'
        rcases List.mem_append.mp hk' with hold | hnew
        · exact hinv.nonNull p k' hold
        · rw [List.mem_singleton.mp hnew]
          exact hk ▸ rfl
      · rw [if_neg hq] at hk'
        exact hinv.nonNull q k' hk'

/-! ## Cells that are no entry -/

theorem Inv.of_cell {h' : Heap ν} (hinv : Inv h) (hchilds : h'.childs = h.childs)
    (hparents : h'.parents = h.parents) (hcell : ∀ p, ∀ k ∈ h.childs p, h'.cell k = h.cell k)
    (hunmade : ∀ k, h'.fresh ≤ k → h'.cell k = none) : Inv h' where
  mirror := fun p c => by
    rw [links_congr (congrFun hchilds p) (hcell p), hinv.mirror, hparents]
  nonNull := fun p k hk => by
    rw [hchilds] at hk
    rw [hcell p k hk]
    exact hinv.nonNull p k hk
  unmade := hunmade

theorem Inv.newPtr (hinv : Inv h) (c : ν) : Inv (h.newPtr c) := by
  refine hinv.of_cell rfl rfl (fun p k hk => ?_) (fun k hk => ?_)
  · exact Function.update_of_ne (Nat.ne_of_lt (hinv.lt hk)) (some c) h.cell
  · have hne : k ≠ h.fresh := Nat.ne_of_gt hk
    exact (Function.update_of_ne hne (some c) h.cell).trans
      (hinv.unmade k (Nat.le_of_lt hk))

theorem Inv.assign (hinv : Inv h) (hk : ∀ p, k ∉ h.childs p) (hmade : k < h.fresh) (c : ν) :
    Inv (h.assign k c) := by
  refine hinv.of_cell rfl rfl (fun p j hj => ?_) (fun j hj => ?_)
  · have hne : j ≠ k := fun heq => hk p (heq ▸ hj)
    exact Function.update_of_ne hne (some c) h.cell
  · have hne : j ≠ k := Nat.ne_of_gt (Nat.lt_of_lt_of_le hmade hj)
    exact (Function.update_of_ne hne (some c) h.cell).trans (hinv.unmade j hj)

/-! ## Removing a child -/

/-- The heap without the `i`-th child of `p`, the node `c`. -/
def unlinked (h : Heap ν) (p : ν) (i : ℕ) (c : ν) : Heap ν :=
  (h.setChilds p ((h.childs p).eraseIdx i)).setParents c ((h.parents c).erase p)

theorem Inv.mem_parents (hinv : Inv h) (hk : k ∈ h.childs p) (hc : h.cell k = some c) :
    p ∈ h.parents c := by
  rw [← List.count_pos_iff, ← hinv.mirror]
  exact links_pos_iff.mpr ⟨k, hk, hc⟩

theorem removeAt_eq (hinv : Inv h) (hi : (h.childs p)[i]? = some k) (hc : h.cell k = some c) :
    h.removeAt p i = some (h.unlinked p i c) := by
  have hmem := hinv.mem_parents (List.mem_of_getElem? hi) hc
  rw [removeAt]
  simp only [hi, hc, Option.bind_eq_bind, Option.bind_some, if_pos hmem]
  rfl

theorem Inv.unlinked (hinv : Inv h) (hi : (h.childs p)[i]? = some k) (hc : h.cell k = some c) :
    Inv (h.unlinked p i c) := by
  have hholds : ∀ d, (h.unlinked p i c).holds d = h.holds d := fun d => rfl
  refine ⟨fun q d => ?_, fun q j hj => ?_, hinv.unmade⟩
  · have hmirror := hinv.mirror q d
    rw [links] at hmirror ⊢
    rw [hholds, Heap.unlinked]
    simp only [childs_setParents, childs_setChilds, parents_setParents, parents_setChilds]
    by_cases hq : q = p
    · subst hq
      have hcount := countP_eraseIdx (P := h.holds d) hi
      rw [if_pos rfl]
      by_cases hd : d = c
      · subst hd
        rw [if_pos (holds_iff.mpr hc)] at hcount
        rw [if_pos rfl, List.count_erase_self, ← hmirror]
        omega
      · have hnot : ¬ h.holds d k = true := fun hholds =>
          hd (Option.some.inj ((holds_iff.mp hholds).symm.trans hc))
        rw [if_neg hnot] at hcount
        rw [if_neg hd, ← hmirror]
        omega
    · rw [if_neg hq, hmirror]
      by_cases hd : d = c
      · subst hd
        rw [if_pos rfl, List.count_erase_of_ne hq]
      · rw [if_neg hd]
  · rw [Heap.unlinked, childs_setParents, childs_setChilds] at hj
    by_cases hq : q = p
    · rw [if_pos hq] at hj
      exact hinv.nonNull p j (List.mem_of_mem_eraseIdx hj)
    · rw [if_neg hq] at hj
      exact hinv.nonNull q j hj

theorem removeChildLoop_spec : ∀ {fuel : ℕ} {h : Heap ν}, Inv h → h.links p c < fuel →
    ∃ h', removeChildLoop p c fuel h = some h' ∧ Inv h'
  | fuel + 1, h, hinv, hfuel => by
    rw [removeChildLoop]
    cases hfind : (h.childs p).findIdx? (h.holds c) with
    | none => exact ⟨h, rfl, hinv⟩
    | some i =>
      obtain ⟨k, hi, hholds⟩ := getElem?_findIdx? hfind
      have hc := holds_iff.mp hholds
      have hcount := countP_eraseIdx (P := h.holds c) hi
      have hless : (h.unlinked p i c).links p c < fuel := by
        rw [links] at hfuel ⊢
        have hchilds : (h.unlinked p i c).childs p = (h.childs p).eraseIdx i := by
          rw [Heap.unlinked, childs_setParents, childs_setChilds, if_pos rfl]
        rw [if_pos hholds] at hcount
        rw [hchilds]
        show (List.countP (h.holds c) ((h.childs p).eraseIdx i)) < fuel
        omega
      dsimp only
      rw [removeAt_eq hinv hi hc]
      exact removeChildLoop_spec (hinv.unlinked hi hc) hless

theorem removeChild_spec (hinv : Inv h) (p c : ν) :
    ∃ h', h.removeChild p c = some h' ∧ Inv h' :=
  removeChildLoop_spec hinv (Nat.lt_succ_of_le List.countP_le_length)

/-! ## Finding a link -/

theorem findLink_some {scope : ν → Bool} (hfind : h.findLink x scope = some (p, i)) :
    p ∈ h.parents x ∧ scope p = true ∧ ∃ k, (h.childs p)[i]? = some k ∧ h.cell k = some x := by
  obtain ⟨q, hq, hlink⟩ := List.exists_of_findSome?_eq_some hfind
  by_cases hscope : scope q = true
  · rw [if_pos hscope] at hlink
    obtain ⟨j, hj, hpair⟩ := Option.map_eq_some_iff.mp hlink
    obtain ⟨rfl, rfl⟩ := Prod.mk.inj hpair
    obtain ⟨k, hk, hholds⟩ := getElem?_findIdx? hj
    exact ⟨hq, hscope, k, hk, holds_iff.mp hholds⟩
  · rw [if_neg hscope] at hlink
    cases hlink

theorem findLink_none {scope : ν → Bool} (hfind : h.findLink x scope = none) (hp : p ∈ h.parents x)
    (hscope : scope p = true) : h.links p x = 0 := by
  have hnone := List.findSome?_eq_none_iff.mp hfind p hp
  rw [if_pos hscope, Option.map_eq_none_iff, List.findIdx?_eq_none_iff] at hnone
  rw [links, List.countP_eq_zero]
  intro k hk
  rw [hnone k hk]
  exact Bool.false_ne_true

theorem Inv.not_mem_parents (hinv : Inv h) {scope : ν → Bool}
    (hfind : h.findLink x scope = none) (hscope : scope p = true) : p ∉ h.parents x := by
  intro hp
  have hzero := findLink_none hfind hp hscope
  rw [hinv.mirror, List.count_eq_zero] at hzero
  exact hzero hp

/-! ## Removing a node from its parents -/

theorem removeFromParentsLoop_spec : ∀ {fuel : ℕ} {h : Heap ν}, Inv h →
    (h.parents x).length < fuel →
      ∃ h', removeFromParentsLoop x fuel h = some h' ∧ Inv h' ∧ h'.parents x = []
  | fuel + 1, h, hinv, hfuel => by
    rw [removeFromParentsLoop]
    cases hfind : h.findLink x (fun _ => true) with
    | none =>
      refine ⟨h, rfl, hinv, List.eq_nil_iff_forall_not_mem.mpr fun p => ?_⟩
      exact hinv.not_mem_parents hfind rfl
    | some link =>
      obtain ⟨p, i⟩ := link
      obtain ⟨hp, -, k, hi, hc⟩ := findLink_some hfind
      have hparents : (h.unlinked p i x).parents x = (h.parents x).erase p := by
        rw [Heap.unlinked, parents_setParents, if_pos rfl]
      have hless : ((h.unlinked p i x).parents x).length < fuel := by
        rw [hparents, List.length_erase_of_mem hp]
        have := List.length_pos_of_mem hp
        omega
      dsimp only
      rw [removeAt_eq hinv hi hc]
      exact removeFromParentsLoop_spec (hinv.unlinked hi hc) hless

theorem removeFromParents_spec (hinv : Inv h) (x : ν) :
    ∃ h', h.removeFromParents x = some h' ∧ Inv h' ∧ h'.parents x = [] := by
  obtain ⟨h', hloop, hinv', hnil⟩ := removeFromParentsLoop_spec hinv (Nat.lt_succ_self _)
  refine ⟨h', ?_, hinv', hnil⟩
  rw [removeFromParents, Option.bind_eq_bind, hloop, Option.bind_some, if_pos hnil]

/-! ## Unlinking the childs -/

theorem unlinkChilds_spec : ∀ {ks : List ℕ} {h : Heap ν}, (∀ k ∈ ks, (h.cell k).isSome) →
    ∃ h', unlinkChilds x ks h = some h' ∧ h'.cell = h.cell ∧ h'.fresh = h.fresh ∧
      h'.childs = h.childs ∧ ∀ c, h'.parents c =
        if ∃ k ∈ ks, h.cell k = some c then (h.parents c).filter fun p => p ≠ x else h.parents c
  | [], h, _ => ⟨h, rfl, rfl, rfl, rfl, fun c => by simp⟩
  | k :: ks, h, hsome => by
    obtain ⟨d, hd⟩ := Option.isSome_iff_exists.mp (hsome k List.mem_cons_self)
    set h₁ := h.setParents d ((h.parents d).filter fun p => p ≠ x) with hh₁
    have hrest : ∀ j ∈ ks, (h₁.cell j).isSome := fun j hj => hsome j (List.mem_cons_of_mem k hj)
    obtain ⟨h', hrun, hcell, hfresh, hchilds, hparents⟩ := unlinkChilds_spec hrest
    refine ⟨h', ?_, hcell, hfresh, hchilds, fun c => ?_⟩
    · rw [unlinkChilds, hd]
      exact hrun
    · rw [hparents c, hh₁, parents_setParents, cell_setParents]
      by_cases hc : c = d
      · subst hc
        have hfirst : ∃ j ∈ k :: ks, h.cell j = some c := ⟨k, List.mem_cons_self, hd⟩
        rw [if_pos rfl]
        simp only [if_pos hfirst, List.filter_filter, Bool.and_self, ite_self]
      · have hiff : (∃ j ∈ k :: ks, h.cell j = some c) ↔ ∃ j ∈ ks, h.cell j = some c := by
          constructor
          · rintro ⟨j, hj, hcj⟩
            rcases List.mem_cons.mp hj with rfl | hmem
            · exact absurd (Option.some.inj (hcj.symm.trans hd)) hc
            · exact ⟨j, hmem, hcj⟩
          · rintro ⟨j, hj, hcj⟩
            exact ⟨j, List.mem_cons_of_mem k hj, hcj⟩
        rw [if_neg hc]
        simp only [hiff]

theorem unlinked_childs (hinv : Inv h) (x : ν) :
    ∃ h', unlinkChilds x (h.childs x) h = some h' ∧ h'.cell = h.cell ∧ h'.childs = h.childs ∧
      Inv (h'.setChilds x []) ∧ ∀ c, h'.parents c = (h.parents c).filter (fun p => p ≠ x) := by
  obtain ⟨h', hrun, hcell, hfresh, hchilds, hparents⟩ :=
    unlinkChilds_spec (x := x) (hinv.nonNull x)
  have hfilter : ∀ c, h'.parents c = (h.parents c).filter fun p => p ≠ x := by
    intro c
    rw [hparents c]
    split
    · rfl
    · next hnone =>
      have hzero : (h.parents c).count x = 0 := by
        rw [← hinv.mirror]
        exact Nat.eq_zero_of_not_pos fun hpos => hnone (links_pos_iff.mp hpos)
      refine (List.filter_eq_self.mpr fun p hp => decide_eq_true ?_).symm
      exact fun heq => List.count_eq_zero.mp hzero (heq ▸ hp)
  refine ⟨h', hrun, hcell, hchilds, ⟨fun p c => ?_, fun p k hk => ?_, fun k hk => ?_⟩, hfilter⟩
  · have hmirror := hinv.mirror p c
    rw [links] at hmirror ⊢
    have hholds : (h'.setChilds x []).holds c = h.holds c := by
      funext k
      rw [holds, holds, cell_setChilds, hcell]
    rw [hholds, childs_setChilds, parents_setChilds, hfilter, hchilds]
    by_cases hp : p = x
    · subst hp
      rw [if_pos rfl, List.countP_nil, eq_comm, List.count_eq_zero]
      intro hmem
      exact of_decide_eq_true (List.mem_filter.mp hmem).2 rfl
    · rw [if_neg hp, hmirror]
      exact (List.count_filter (p := fun q => decide (q ≠ x)) (decide_eq_true hp)).symm
  · rw [childs_setChilds] at hk
    by_cases hp : p = x
    · rw [if_pos hp] at hk
      cases hk
    · rw [if_neg hp, hchilds] at hk
      rw [cell_setChilds, hcell]
      exact hinv.nonNull p k hk
  · rw [cell_setChilds, hcell]
    rw [fresh_setChilds, hfresh] at hk
    exact hinv.unmade k hk

/-! ## Replacing -/

/-- The cell is one entry of the list of `p`, and no other. -/
def Unshared (h : Heap ν) (p : ν) (k : ℕ) : Prop :=
  (h.childs p).count k = 1 ∧ ∀ q, q ≠ p → k ∉ h.childs q

/-- The entries of `x` in the lists of the parents in the scope have cells of their own. -/
def OwnCells (h : Heap ν) (x : ν) (scope : ν → Bool) : Prop :=
  ∀ p, scope p = true → ∀ k ∈ h.childs p, h.cell k = some x → h.Unshared p k

/-- The heap after a round of `replace`. -/
def replaced (h : Heap ν) (x n p : ν) (i k : ℕ) : Heap ν :=
  (((h.newPtr n).addChild p h.fresh).unlinked p i x).assign k n

omit [DecidableEq ν] in
theorem newPtr_fresh (h : Heap ν) (n : ν) : (h.newPtr n).cell h.fresh = some n := by
  unfold Heap.newPtr
  exact Function.update_self h.fresh (some n) h.cell

omit [DecidableEq ν] in
theorem newPtr_old (h : Heap ν) (n : ν) (hne : k ≠ h.fresh) : (h.newPtr n).cell k = h.cell k := by
  unfold Heap.newPtr
  exact Function.update_of_ne hne (some n) h.cell

theorem added_eq (h : Heap ν) (n p : ν) : (h.newPtr n).addChild p h.fresh =
    ((h.newPtr n).setChilds p (h.childs p ++ [h.fresh])).setParents n (h.parents n ++ [p]) :=
  addChild_eq (newPtr_fresh h n)

theorem added_cell (hinv : Inv h) (hi : (h.childs p)[i]? = some k) (hc : h.cell k = some x) (n : ν) :
    ((h.newPtr n).addChild p h.fresh).cell k = some x := by
  have hne : k ≠ h.fresh := Nat.ne_of_lt (hinv.lt (List.mem_of_getElem? hi))
  rw [added_eq]
  exact (newPtr_old h n hne).trans hc

theorem added_getElem? (hi : (h.childs p)[i]? = some k) (n : ν) :
    (((h.newPtr n).addChild p h.fresh).childs p)[i]? = some k := by
  rw [added_eq, childs_setParents, childs_setChilds, if_pos rfl]
  exact (List.getElem?_append_left (List.getElem?_eq_some_iff.mp hi).1).trans hi

theorem replaceAt_eq (hinv : Inv h) (hi : (h.childs p)[i]? = some k) (hc : h.cell k = some x)
    (n : ν) : h.replaceAt n p i = some (h.replaced x n p i k) := by
  have hadd := (hinv.newPtr n).addChild p h.fresh
  rw [replaceAt]
  simp only [hi, removeAt_eq hadd (added_getElem? hi n) (added_cell hinv hi hc n),
    Option.bind_eq_bind, Option.bind_some]
  rfl

theorem childs_replaced (x : ν) (hi : (h.childs p)[i]? = some k) (n q : ν) :
    (h.replaced x n p i k).childs q =
      if q = p then (h.childs p).eraseIdx i ++ [h.fresh] else h.childs q := by
  show (((h.newPtr n).addChild p h.fresh).unlinked p i x).childs q = _
  rw [unlinked, childs_setParents, childs_setChilds, added_eq, childs_setParents,
    childs_setChilds, childs_setChilds, if_pos rfl, eraseIdx_append hi]
  split <;> rfl

theorem parents_replaced (h : Heap ν) (p : ν) (i k : ℕ) (hne : n ≠ x) :
    (h.replaced x n p i k).parents x = (h.parents x).erase p := by
  show (((h.newPtr n).addChild p h.fresh).unlinked p i x).parents x = _
  rw [unlinked, parents_setParents, if_pos rfl, added_eq, parents_setParents, if_neg hne.symm]
  rfl

theorem cell_replaced (h : Heap ν) (x n p : ν) (i : ℕ) {j : ℕ} (hj : j ≠ k) (hold : j < h.fresh) :
    (h.replaced x n p i k).cell j = h.cell j := by
  show Function.update (((h.newPtr n).addChild p h.fresh).unlinked p i x).cell k (some n) j = _
  rw [Function.update_of_ne hj, unlinked, cell_setParents, cell_setChilds, added_eq]
  exact newPtr_old h n (Nat.ne_of_lt hold)

theorem cell_replaced_fresh (h : Heap ν) (x n p : ν) (i : ℕ) (hk : k < h.fresh) :
    (h.replaced x n p i k).cell h.fresh = some n := by
  show Function.update (((h.newPtr n).addChild p h.fresh).unlinked p i x).cell k (some n) _ = _
  rw [Function.update_of_ne (Nat.ne_of_gt hk), unlinked, cell_setParents, cell_setChilds, added_eq]
  exact newPtr_fresh h n

theorem count_eraseIdx {l : List ℕ} (hi : l[i]? = some k) (j : ℕ) :
    l.count j = (l.eraseIdx i).count j + if k = j then 1 else 0 := by
  have hcount := countP_eraseIdx (P := fun a => a == j) hi
  rw [List.count_eq_countP, List.count_eq_countP, hcount]
  simp only [beq_iff_eq]

theorem not_mem_replaced (hinv : Inv h) (hi : (h.childs p)[i]? = some k) (hown : h.Unshared p k)
    (x n q : ν) : k ∉ (h.replaced x n p i k).childs q := by
  have hlt := hinv.lt (List.mem_of_getElem? hi)
  rw [childs_replaced x hi]
  by_cases hq : q = p
  · rw [if_pos hq, List.mem_append, List.mem_singleton]
    rintro (hold | hnew)
    · have hcount := count_eraseIdx hi k
      rw [hown.1, if_pos rfl] at hcount
      have hpos := List.count_pos_iff.mpr hold
      omega
    · omega
  · rw [if_neg hq]
    exact hown.2 q hq

theorem Inv.replaced (hinv : Inv h) (hi : (h.childs p)[i]? = some k) (hc : h.cell k = some x)
    (hown : h.Unshared p k) (n : ν) : Inv (h.replaced x n p i k) := by
  have hadd := (hinv.newPtr n).addChild p h.fresh
  have hunlinked := hadd.unlinked (added_getElem? hi n) (added_cell hinv hi hc n)
  have hlt := hinv.lt (List.mem_of_getElem? hi)
  refine hunlinked.assign (fun q => not_mem_replaced hinv hi hown x n q) ?_ n
  rw [Heap.unlinked, fresh_setParents, fresh_setChilds, added_eq]
  exact Nat.lt_succ_of_lt hlt

theorem OwnCells.replaced {scope : ν → Bool} (hinv : Inv h) (hi : (h.childs p)[i]? = some k)
    (hown : h.OwnCells x scope) (hk : h.Unshared p k) (hne : n ≠ x) :
    (h.replaced x n p i k).OwnCells x scope := by
  intro q hq j hj hcj
  have hlt := hinv.lt (List.mem_of_getElem? hi)
  have hjk : j ≠ k := by
    rintro rfl
    exact not_mem_replaced hinv hi hk x n q hj
  have hfresh : j ≠ h.fresh := by
    rintro rfl
    rw [cell_replaced_fresh h x n p i hlt] at hcj
    exact hne (Option.some.inj hcj)
  -- An entry that is left is an old one.
  have hold : j ∈ h.childs q := by
    rw [childs_replaced x hi] at hj
    by_cases hqp : q = p
    · rw [if_pos hqp] at hj
      rcases List.mem_append.mp hj with hmem | hmem
      · exact hqp ▸ List.mem_of_mem_eraseIdx hmem
      · exact absurd (List.mem_singleton.mp hmem) hfresh
    · rwa [if_neg hqp] at hj
  rw [cell_replaced h x n p i hjk (hinv.lt hold)] at hcj
  obtain ⟨hone, hother⟩ := hown q hq j hold hcj
  refine ⟨?_, fun r hr => ?_⟩
  · rw [childs_replaced x hi]
    by_cases hqp : q = p
    · subst hqp
      have hcount := count_eraseIdx hi j
      rw [if_neg hjk.symm, hone] at hcount
      rw [if_pos rfl, List.count_append, List.count_singleton,
        if_neg (by simpa using hfresh.symm)]
      exact hcount.symm
    · rw [if_neg hqp, hone]
  · rw [childs_replaced x hi]
    by_cases hrp : r = p
    · rw [if_pos hrp, List.mem_append, List.mem_singleton]
      rintro (hmem | hmem)
      · exact hother r hr (hrp ▸ List.mem_of_mem_eraseIdx hmem)
      · exact hfresh hmem
    · rw [if_neg hrp]
      exact hother r hr

theorem replaceLoop_spec {scope : ν → Bool} (hne : n ≠ x) : ∀ {fuel : ℕ} {h : Heap ν}, Inv h →
    h.OwnCells x scope → (h.parents x).length < fuel →
      ∃ h', replaceLoop x n scope fuel h = some h' ∧ Inv h' ∧
        ∀ p, scope p = true → p ∉ h'.parents x
  | fuel + 1, h, hinv, hown, hfuel => by
    rw [replaceLoop]
    cases hfind : h.findLink x scope with
    | none => exact ⟨h, rfl, hinv, fun p hp => hinv.not_mem_parents hfind hp⟩
    | some link =>
      obtain ⟨p, i⟩ := link
      obtain ⟨hp, hscope, k, hi, hc⟩ := findLink_some hfind
      have hk := hown p hscope k (List.mem_of_getElem? hi) hc
      have hless : ((h.replaced x n p i k).parents x).length < fuel := by
        rw [parents_replaced h p i k hne, List.length_erase_of_mem hp]
        have := List.length_pos_of_mem hp
        omega
      dsimp only
      rw [replaceAt_eq hinv hi hc]
      exact replaceLoop_spec hne (hinv.replaced hi hc hk n) (hown.replaced hinv hi hk hne) hless

theorem replace_spec (hinv : Inv h) {parent : Option ν}
    (hown : n ≠ x → h.OwnCells x (inScope parent)) :
    ∃ h', h.replace x n parent = some h' ∧ Inv h' ∧
      (n ≠ x → parent = none → h'.parents x = [] ∧ h'.childs x = []) := by
  rw [replace]
  by_cases hne : n = x
  · exact ⟨h, if_pos hne, hinv, fun hnot => absurd hne hnot⟩
  · obtain ⟨h₁, hloop, hinv₁, hscope⟩ :=
      replaceLoop_spec hne hinv (hown hne) (Nat.lt_succ_self _)
    rw [if_neg hne, hloop, Option.bind_some]
    by_cases hparent : parent = none
    · obtain ⟨h', hrun, -, -, hinv', hparents⟩ := unlinked_childs hinv₁ x
      rw [if_pos hparent, hrun]
      refine ⟨_, rfl, hinv', fun _ _ => ⟨?_, ?_⟩⟩
      · have hnil : h₁.parents x = [] := List.eq_nil_iff_forall_not_mem.mpr fun p =>
          hscope p (by rw [inScope, hparent]; simp)
        rw [parents_setChilds, hparents, hnil]
        rfl
      · rw [childs_setChilds, if_pos rfl]
    · rw [if_neg hparent]
      exact ⟨h₁, rfl, hinv₁, fun _ hnone => absurd hnone hparent⟩

/-! ## Destroying -/

/-- What the loop of the destructor keeps: no other node has `x` as a parent, and only the links to
`x` are out of step, which are those of its parents. -/
structure Destroying (h : Heap ν) (x : ν) : Prop where
  unlinked : ∀ c, x ∉ h.parents c
  mirror : ∀ p c, p ≠ x → c ≠ x → h.links p c = (h.parents c).count p
  nonNull : ∀ p, ∀ k ∈ h.childs p, (h.cell k).isSome
  unmade : ∀ k, h.fresh ≤ k → h.cell k = none
  mem : ∀ p, p ≠ x → 0 < h.links p x → p ∈ h.parents x

/-- How often `x` occurs in the lists of its parents. -/
def occurrences (h : Heap ν) (x : ν) : ℕ :=
  ((h.parents x).map fun p => h.links p x).sum

theorem links_dropped (h : Heap ν) (p q c : ν) (i : ℕ) :
    (h.setChilds p ((h.childs p).eraseIdx i)).links q c =
      if q = p then ((h.childs p).eraseIdx i).countP (h.holds c) else h.links q c := by
  rw [links, childs_setChilds]
  show List.countP (h.holds c) _ = _
  split <;> rfl

theorem Destroying.dropped (hd : h.Destroying x) (hi : (h.childs p)[i]? = some k)
    (hc : h.cell k = some x) : (h.setChilds p ((h.childs p).eraseIdx i)).Destroying x := by
  have hcount := fun c => countP_eraseIdx (P := h.holds c) hi
  refine ⟨hd.unlinked, fun q c hqx hcx => ?_, fun q j hj => ?_, hd.unmade, fun q hqx hq => ?_⟩
  · rw [links_dropped, parents_setChilds, ← hd.mirror q c hqx hcx]
    split
    · next hq =>
      have hnot : ¬ h.holds c k = true := fun hholds =>
        hcx (Option.some.inj ((holds_iff.mp hholds).symm.trans hc))
      rw [hq, links, hcount c, if_neg hnot, Nat.add_zero]
    · rfl
  · rw [childs_setChilds] at hj
    by_cases hq : q = p
    · rw [if_pos hq] at hj
      exact hd.nonNull p j (List.mem_of_mem_eraseIdx hj)
    · rw [if_neg hq] at hj
      exact hd.nonNull q j hj
  · apply hd.mem q hqx
    rw [links_dropped] at hq
    by_cases hqp : q = p
    · rw [if_pos hqp] at hq
      rw [hqp, links, hcount x]
      omega
    · rwa [if_neg hqp] at hq

theorem occurrences_dropped (hp : p ∈ h.parents x) (hi : (h.childs p)[i]? = some k)
    (hc : h.cell k = some x) :
    (h.setChilds p ((h.childs p).eraseIdx i)).occurrences x < h.occurrences x := by
  have hcount := countP_eraseIdx (P := h.holds x) hi
  rw [if_pos (holds_iff.mpr hc)] at hcount
  have hle : ∀ q, (h.setChilds p ((h.childs p).eraseIdx i)).links q x ≤ h.links q x := by
    intro q
    rw [links_dropped]
    split
    · next hq =>
      rw [hq, links, hcount]
      exact Nat.le_succ _
    · exact Nat.le_refl _
  refine List.sum_lt_sum _ _ (fun q _ => hle q) ⟨p, hp, ?_⟩
  rw [links_dropped, if_pos rfl, links, hcount]
  exact Nat.lt_succ_self _

theorem destroyLoop_spec : ∀ {fuel : ℕ} {h : Heap ν}, h.Destroying x → h.occurrences x < fuel →
    ∃ h', destroyLoop x fuel h = some h' ∧ h'.Destroying x ∧ ∀ p, p ≠ x → h'.links p x = 0
  | fuel + 1, h, hd, hfuel => by
    rw [destroyLoop]
    cases hfind : h.findLink x (fun _ => true) with
    | none =>
      refine ⟨h, rfl, hd, fun p hpx => Nat.eq_zero_of_not_pos fun hpos => ?_⟩
      exact Nat.ne_of_gt hpos (findLink_none hfind (hd.mem p hpx hpos) rfl)
    | some link =>
      obtain ⟨p, i⟩ := link
      obtain ⟨hp, -, k, hi, hc⟩ := findLink_some hfind
      have hless := occurrences_dropped hp hi hc
      exact destroyLoop_spec (hd.dropped hi hc) (by omega)

theorem destroy_spec (hinv : Inv h) (x : ν) : ∃ h', h.destroy x = some h' ∧ Inv h' := by
  obtain ⟨h₁, hrun, hcell, hchilds, hinv₁, hparents⟩ := unlinked_childs hinv x
  have hlinks : ∀ p c, h₁.links p c = h.links p c := fun p c =>
    links_congr (congrFun hchilds p) fun k _ => congrFun hcell k
  have hmem : ∀ p c, p ≠ x → (p ∈ h₁.parents c ↔ p ∈ h.parents c) := by
    intro p c hpx
    rw [hparents, List.mem_filter, decide_eq_true_eq, and_iff_left hpx]
  have hd : h₁.Destroying x := by
    refine ⟨fun c hc => ?_, fun p c hpx _ => ?_, fun p k hk => ?_, hinv₁.unmade,
      fun p hpx hpos => ?_⟩
    · rw [hparents] at hc
      exact of_decide_eq_true (List.mem_filter.mp hc).2 rfl
    · rw [hlinks, hinv.mirror, hparents]
      exact (List.count_filter (p := fun q => decide (q ≠ x)) (decide_eq_true hpx)).symm
    · rw [hchilds] at hk
      rw [hcell]
      exact hinv.nonNull p k hk
    · rw [hmem p x hpx, ← List.count_pos_iff, ← hinv.mirror, ← hlinks]
      exact hpos
  have hfuel : h₁.occurrences x <
      ((h₁.parents x).map fun p => (h₁.childs p).length).sum + 1 :=
    Nat.lt_succ_of_le (List.sum_le_sum fun p _ => List.countP_le_length)
  obtain ⟨h₂, hloop, hd₂, hnone⟩ := destroyLoop_spec hd hfuel
  refine ⟨(h₂.setParents x []).setChilds x [], ?_, fun p c => ?_, fun p k hk => ?_, hd₂.unmade⟩
  · rw [destroy, Option.bind_eq_bind, hrun, Option.bind_some, hloop]
    rfl
  · rw [links, childs_setChilds, parents_setChilds, parents_setParents]
    show List.countP (h₂.holds c) _ = _
    by_cases hpx : p = x
    · subst hpx
      rw [if_pos rfl, List.countP_nil, eq_comm, List.count_eq_zero]
      split
      · exact List.not_mem_nil
      · exact hd₂.unlinked c
    · rw [if_neg hpx]
      by_cases hcx : c = x
      · subst hcx
        rw [if_pos rfl, List.count_nil]
        exact hnone p hpx
      · rw [if_neg hcx]
        exact hd₂.mirror p c hpx hcx
  · rw [childs_setChilds] at hk
    by_cases hpx : p = x
    · rw [if_pos hpx] at hk
      cases hk
    · rw [if_neg hpx] at hk
      exact hd₂.nonNull p k hk

end Heap

/-! ## Runs -/

/-- The operations, and the making of a `node_ptr`, of which copies can be given to `addChild`. -/
inductive Op (ν : Type) where
  | newPtr (c : ν)
  | addChild (p : ν) (k : ℕ)
  | removeChild (p c : ν)
  | removeAt (p : ν) (i : ℕ)
  | removeFromParents (x : ν)
  | replace (x n : ν) (parent : Option ν)
  | destroy (x : ν)

namespace Op

def run (h : Heap ν) : Op ν → Option (Heap ν)
  | newPtr c => some (h.newPtr c)
  | addChild p k => some (h.addChild p k)
  | removeChild p c => h.removeChild p c
  | removeAt p i => h.removeAt p i
  | removeFromParents x => h.removeFromParents x
  | replace x n parent => h.replace x n parent
  | destroy x => h.destroy x

/-- What is promised of the nodes of single operations. -/
def Done (h' : Heap ν) : Op ν → Prop
  | removeFromParents x => h'.parents x = []
  | replace x n parent => n ≠ x → parent = none → h'.parents x = [] ∧ h'.childs x = []
  | _ => True

/-- An iterator that is given is one of the list. -/
def Valid (h : Heap ν) : Op ν → Prop
  | removeAt p i => i < (h.childs p).length
  | _ => True

/-- Every child that is replaced has a cell of its own. -/
def Meets (h : Heap ν) : Op ν → Prop
  | replace x n parent => n ≠ x → h.OwnCells x (Heap.inScope parent)
  | _ => True

end Op

/-- Node `c` occurs in the list of `p`'s childs as often as `p` in the list of `c`'s parents. -/
def Mirrored (h : Heap ν) : Prop :=
  ∀ p c, ((h.childs p).filter fun k => h.cell k = some c).length = (h.parents c).count p

/-- Every operation of a run returns, leaves the links mirrored, and does what is promised. -/
def AllMirrored : Heap ν → List (Op ν) → Prop
  | _, [] => True
  | h, op :: ops => op.Valid h → ∃ h', op.run h = some h' ∧ Mirrored h' ∧ op.Done h' ∧
      AllMirrored h' ops

/-- Every operation of a run meets the condition. -/
def AllMeet : Heap ν → List (Op ν) → Prop
  | _, [] => True
  | h, op :: ops => op.Meets h ∧ ∀ h', op.run h = some h' → AllMeet h' ops

theorem op_spec {h : Heap ν} (hinv : h.Inv) {op : Op ν} (hvalid : op.Valid h) (hmeets : op.Meets h) :
    ∃ h', op.run h = some h' ∧ h'.Inv ∧ op.Done h' := by
  cases op with
  | newPtr c => exact ⟨_, rfl, hinv.newPtr c, trivial⟩
  | addChild p k => exact ⟨_, rfl, hinv.addChild p k, trivial⟩
  | removeChild p c =>
    obtain ⟨h', hrun, hinv'⟩ := Heap.removeChild_spec hinv p c
    exact ⟨h', hrun, hinv', trivial⟩
  | removeAt p i =>
    have hi : (h.childs p)[i]? = some (h.childs p)[i] := List.getElem?_eq_getElem hvalid
    obtain ⟨c, hc⟩ := Option.isSome_iff_exists.mp
      (hinv.nonNull p _ (List.mem_of_getElem? hi))
    exact ⟨_, Heap.removeAt_eq hinv hi hc, hinv.unlinked hi hc, trivial⟩
  | removeFromParents x => exact Heap.removeFromParents_spec hinv x
  | replace x n parent => exact Heap.replace_spec hinv hmeets
  | destroy x =>
    obtain ⟨h', hrun, hinv'⟩ := Heap.destroy_spec hinv x
    exact ⟨h', hrun, hinv', trivial⟩

theorem mirrored_of_inv {h : Heap ν} (hinv : h.Inv) : Mirrored h := by
  intro p c
  rw [← hinv.mirror, Heap.links, List.countP_eq_length_filter]
  rfl

theorem run_mirrored : ∀ {ops : List (Op ν)} {h : Heap ν}, h.Inv → AllMeet h ops →
    AllMirrored h ops
  | [], _, _, _ => trivial
  | op :: ops, h, hinv, hmeets => by
    intro hvalid
    obtain ⟨h', hrun, hinv', hdone⟩ := op_spec hinv hvalid hmeets.1
    exact ⟨h', hrun, mirrored_of_inv hinv', hdone, run_mirrored hinv' (hmeets.2 h' hrun)⟩

/-- Nodes without links. -/
def Heap.initial : Heap ν :=
  ⟨fun _ => none, 0, fun _ => [], fun _ => []⟩

omit [DecidableEq ν] in
theorem inv_initial [DecidableEq ν] : (Heap.initial : Heap ν).Inv :=
  ⟨fun _ _ => rfl, fun _ _ hk => absurd hk List.not_mem_nil, fun _ _ => rfl⟩

/-- **In every run in which `replace` meets children with cells of their own only, all operations
end and leave the links mirrored.** -/
theorem links_mirrored (ops : List (Op ν)) (h : AllMeet Heap.initial ops) :
    AllMirrored Heap.initial ops :=
  run_mirrored inv_initial h

/-- A child of one node is replaced. -/
theorem links_mirrored_one :
    AllMirrored (Heap.initial : Heap ℕ) [.newPtr 1, .addChild 0 0, .replace 1 2 none] := by
  refine links_mirrored _ ⟨trivial, fun h₁ hrun₁ => ?_⟩
  obtain rfl := Option.some.inj hrun₁
  refine ⟨trivial, fun h₂ hrun₂ => ?_⟩
  obtain rfl := Option.some.inj hrun₂
  refine ⟨fun _ p _ k hk hc => ?_, fun _ _ => trivial⟩
  have hchilds : ∀ q, (((Heap.initial : Heap ℕ).newPtr 1).addChild 0 0).childs q =
      if q = 0 then [0] else [] := fun q => Function.update_apply _ _ _ _
  rw [hchilds] at hk
  by_cases hp : p = 0
  · subst hp
    rw [if_pos rfl, List.mem_singleton] at hk
    subst hk
    refine ⟨by decide, fun q hq => ?_⟩
    rw [hchilds, if_neg hq]
    exact List.not_mem_nil
  · rw [if_neg hp] at hk
    cases hk

/-- Two nodes have been given the same `node_ptr`: when its node is replaced, one of them has a child
without a link back. -/
theorem shared_not_mirrored :
    ¬ AllMirrored (Heap.initial : Heap ℕ)
      [.newPtr 2, .addChild 0 0, .addChild 1 0, .replace 2 3 none] := by
  intro h
  obtain ⟨h₁, hrun₁, -, -, h⟩ := h trivial
  obtain rfl := Option.some.inj hrun₁
  obtain ⟨h₂, hrun₂, -, -, h⟩ := h trivial
  obtain rfl := Option.some.inj hrun₂
  obtain ⟨h₃, hrun₃, -, -, h⟩ := h trivial
  obtain rfl := Option.some.inj hrun₃
  obtain ⟨h₄, hrun₄, hmirror, -, -⟩ := h trivial
  have hcounts : ((Op.replace 2 3 none).run ((((Heap.initial : Heap ℕ).newPtr 2).addChild 0 0).addChild
      1 0)).map (fun h => (((h.childs 1).filter fun k => h.cell k = some 3).length,
        (h.parents 3).count 1)) = some (1, 0) := by decide
  rw [hrun₄, Option.map_some, hmirror 1 3] at hcounts
  have hpair := Prod.mk.inj (Option.some.inj hcounts)
  exact absurd (hpair.1.symm.trans hpair.2) (by decide)

end Hilti.Ast
