import Hilti.TimerMgr.Model

/-! # The priority queue of the timers is a heap

Each operation of `libpqueue`, as `timer.c` calls it, keeps the two heap properties `Holds` and
`Ordered`; a pop takes out an element with the smallest key. `changePriority` is the exception: the
caller has already stored the new key, so the element always moves down, and the order is kept only
if the new key is not below that of the parent. -/

namespace Hilti.TimerMgr
open Hilti.Lib Hilti.Lib.IndexedHeap
set_option autoImplicit false

/-- The queue holds the elements of `S` and is ordered by `key`. -/
structure HeapOf (key : ℕ → ℕ) (q : IndexedHeap ℕ) (S : ℕ → Prop) : Prop where
  size_pos : 1 ≤ q.size
  holds : Holds q S
  ordered : Ordered key q

theorem HeapOf.congr {key key' : ℕ → ℕ} {q : IndexedHeap ℕ} {S T : ℕ → Prop} (h : HeapOf key q S)
    (hST : ∀ x, S x ↔ T x) (hk : ∀ x, S x → key' x = key x) : HeapOf key' q T := by
  refine ⟨h.size_pos, ⟨h.holds.pos, fun y => (hST y).symm.trans (h.holds.mem y)⟩, ?_⟩
  intro i hi hi'
  have hm : ∀ j, 1 ≤ j → j < q.size → S (q.d j) := fun j hj hj' => (h.holds.mem _).mpr ⟨j, hj, hj', rfl⟩
  rw [hk _ (hm (i / 2) (by omega) (by omega)), hk _ (hm i (by omega) hi')]
  exact h.ordered i hi hi'

theorem heapOf_new (key : ℕ → ℕ) : HeapOf key hltTimerMgrNew.queue fun _ => False where
  size_pos := le_rfl
  holds := by
    constructor
    · intro i hi hi'
      simp only [hltTimerMgrNew] at hi'
      omega
    · intro y
      simp only [hltTimerMgrNew, false_iff]
      rintro ⟨i, hi, hi', -⟩
      omega
  ordered := by
    intro i hi hi'
    simp only [hltTimerMgrNew] at hi'
    omega

theorem appended_hole {q : IndexedHeap ℕ} {S : ℕ → Prop} {x : ℕ} (h : Holds q S) (h1 : 1 ≤ q.size)
    (hx : ¬ S x) :
    Hole (⟨Function.update q.d q.size x, q.pos, q.size + 1⟩ : IndexedHeap ℕ) q.size x
      fun y => S y ∨ y = x := by
  have hne : ∀ j, 1 ≤ j → j < q.size → q.d j ≠ x := fun j hj hj' he =>
    hx ((h.mem x).mpr ⟨j, hj, hj', he⟩)
  constructor
  · exact h1
  · exact Nat.lt_succ_self _
  · intro j hj hj' hjs
    simp only [Function.update_of_ne hjs]
    exact h.pos j hj (by dsimp only at hj'; omega)
  · intro j hj hj' hjs
    simp only [Function.update_of_ne hjs]
    exact hne j hj (by dsimp only at hj'; omega)
  · intro y
    rw [h.mem y, or_comm]
    refine or_congr_right ?_
    constructor
    · rintro ⟨j, hj, hj', rfl⟩
      have hjs : j ≠ q.size := by omega
      exact ⟨j, hj, by dsimp only; omega, hjs, Function.update_of_ne hjs _ _⟩
    · rintro ⟨j, hj, hj', hjs, rfl⟩
      exact ⟨j, hj, by dsimp only at hj'; omega, (Function.update_of_ne hjs _ _).symm⟩

theorem priorityQueueInsert_heapOf {key : ℕ → ℕ} {q : IndexedHeap ℕ} {S : ℕ → Prop} {x : ℕ}
    (h : HeapOf key q S) (hx : ¬ S x) :
    HeapOf key (priorityQueueInsert key q x) fun y => S y ∨ y = x := by
  have h1 := h.size_pos
  have hole := appended_hole h.holds h1 hx
  have order : UpOrder key (⟨Function.update q.d q.size x, q.pos, q.size + 1⟩ : IndexedHeap ℕ) q.size x := by
    constructor
    · intro i hi hi' his hps
      dsimp only at hi' ⊢
      rw [Function.update_of_ne his, Function.update_of_ne hps]
      exact h.ordered i hi (by omega)
    · intro _ c hc hc'
      dsimp only at hc'
      omega
    · intro c hc hc'
      dsimp only at hc'
      omega
  have hd : Function.update q.d q.size x q.size = x := Function.update_self _ _ _
  obtain ⟨hh, ho, hs⟩ := bubbleUpLoop_spec q.size _ q.size le_rfl hole order
  unfold priorityQueueInsert bubbleUp
  dsimp only
  rw [hd]
  refine ⟨?_, hh, ho⟩
  rw [hs]
  dsimp only
  omega

/-! ## Taking an element out -/

/-- The queue after `--size`, with the last element in slot `p`. -/
def refilled (q : IndexedHeap ℕ) (p : ℕ) : IndexedHeap ℕ :=
  { q with d := Function.update q.d p (q.d (q.size - 1)), size := q.size - 1 }

theorem refilled_d_ne (q : IndexedHeap ℕ) {p j : ℕ} (h : j ≠ p) : (refilled q p).d j = q.d j :=
  Function.update_of_ne h _ _

@[simp] theorem refilled_d_self (q : IndexedHeap ℕ) (p : ℕ) :
    (refilled q p).d p = q.d (q.size - 1) := Function.update_self _ _ _

theorem refilled_last_eq (key : ℕ → ℕ) (q : IndexedHeap ℕ) {p : ℕ} (hp : 1 ≤ p)
    (hp' : p + 1 = q.size) :
    (refilled q p).percolateDown key p = (refilled q p).place p (q.d p) := by
  have hlast : q.size - 1 = p := by omega
  have hno : maxchild key (refilled q p) p = 0 := by
    unfold maxchild
    rw [if_pos]
    change q.size - 1 ≤ 2 * p
    omega
  have hs : (refilled q p).size = p - 1 + 1 := by
    change q.size - 1 = _
    omega
  unfold percolateDown
  rw [refilled_d_self, hlast, hs]
  unfold percolateDownLoop
  rw [if_neg]
  exact fun hc => hc.1 hno

theorem refilled_last_d (q : IndexedHeap ℕ) (p : ℕ) {j : ℕ} (hj : j < p) :
    ((refilled q p).place p (q.d p)).d j = q.d j := by
  rw [place_d_ne _ _ (by omega), refilled_d_ne q (by omega)]

theorem refilled_last_holds {q : IndexedHeap ℕ} {S : ℕ → Prop} (h : Holds q S) {p : ℕ}
    (hp : 1 ≤ p) (hp' : p + 1 = q.size) :
    Holds ((refilled q p).place p (q.d p)) fun y => S y ∧ y ≠ q.d p := by
  have hne : ∀ j, 1 ≤ j → j < p → q.d j ≠ q.d p := by
    intro j hj hjp he
    have := h.inj hj (by omega) hp (by omega) he
    omega
  have hsize : ((refilled q p).place p (q.d p)).size = p := by
    change q.size - 1 = p
    omega
  refine ⟨?_, ?_⟩
  · intro j hj hj'
    rw [hsize] at hj'
    rw [refilled_last_d q p hj', place_pos_ne _ _ (hne j hj hj')]
    exact h.pos j hj (by omega)
  · intro y
    rw [h.mem y, hsize]
    constructor
    · rintro ⟨⟨j, hj, hj', rfl⟩, hyp⟩
      have hjp : j ≠ p := fun e => hyp (by rw [e])
      exact ⟨j, hj, by omega, refilled_last_d q p (by omega)⟩
    · rintro ⟨j, hj, hj', rfl⟩
      rw [refilled_last_d q p hj']
      exact ⟨⟨j, hj, by omega, rfl⟩, hne j hj hj'⟩

theorem refilled_last {key : ℕ → ℕ} {q : IndexedHeap ℕ} {S : ℕ → Prop} (h : HeapOf key q S) {p : ℕ}
    (hp : 1 ≤ p) (hp' : p + 1 = q.size) :
    HeapOf key ((refilled q p).percolateDown key p) fun y => S y ∧ y ≠ q.d p := by
  have hsize : ((refilled q p).place p (q.d p)).size = p := by
    change q.size - 1 = p
    omega
  rw [refilled_last_eq key q hp hp']
  refine ⟨by omega, refilled_last_holds h.holds hp hp', ?_⟩
  intro i hi hi'
  rw [hsize] at hi'
  rw [refilled_last_d q p hi', refilled_last_d q p (show i / 2 < p by omega)]
  exact h.ordered i hi (by omega)

theorem refilled_hole {q : IndexedHeap ℕ} {S : ℕ → Prop} (h : Holds q S) {p : ℕ}
    (hp : 1 ≤ p) (hp' : p + 1 < q.size) :
    Hole (refilled q p) p (q.d (q.size - 1)) fun y => S y ∧ y ≠ q.d p := by
  have hsize : (refilled q p).size = q.size - 1 := rfl
  constructor
  · exact hp
  · rw [hsize]
    omega
  · intro j hj hj' hjp
    rw [hsize] at hj'
    rw [refilled_d_ne q hjp]
    exact h.pos j hj (by omega)
  · intro j hj hj' hjp he
    rw [hsize] at hj'
    rw [refilled_d_ne q hjp] at he
    have := h.inj hj (by omega) (by omega) (by omega) he
    omega
  · intro y
    rw [h.mem y, hsize]
    constructor
    · rintro ⟨⟨j, hj, hj', rfl⟩, hyp⟩
      have hjp : j ≠ p := fun e => hyp (by rw [e])
      by_cases hjl : j = q.size - 1
      · exact .inl (by rw [hjl])
      · exact .inr ⟨j, hj, by omega, hjp, refilled_d_ne q hjp⟩
    · have hnp : ∀ j, 1 ≤ j → j < q.size → j ≠ p → q.d j ≠ q.d p := fun j hj hj' hjp he =>
        hjp (h.inj hj hj' hp (by omega) he)
      rintro (rfl | ⟨j, hj, hj', hjp, rfl⟩)
      · exact ⟨⟨q.size - 1, by omega, by omega, rfl⟩, hnp _ (by omega) (by omega) (by omega)⟩
      · rw [refilled_d_ne q hjp]
        exact ⟨⟨j, hj, by omega, rfl⟩, hnp j hj (by omega) hjp⟩

theorem refilled_offHole {key : ℕ → ℕ} {q : IndexedHeap ℕ} (h : Ordered key q) (p : ℕ) :
    OffHole key (refilled q p) p := by
  intro i hi hi' hip hpp
  rw [refilled_d_ne q hip, refilled_d_ne q hpp]
  refine h i hi ?_
  change i < q.size - 1 at hi'
  omega

theorem refilled_grand {key : ℕ → ℕ} {q : IndexedHeap ℕ} (h : Ordered key q) (p : ℕ) :
    GrandOrder key (refilled q p) p := by
  intro h2 c hc hc'
  rw [refilled_d_ne q (show p / 2 ≠ p by omega), refilled_d_ne q (show c ≠ p by omega)]
  refine h.grand p h2 c hc ?_
  change c < q.size - 1 at hc'
  omega

theorem refilled_down {key : ℕ → ℕ} {q : IndexedHeap ℕ} {S : ℕ → Prop} (h : HeapOf key q S) {p : ℕ}
    (hp : 1 ≤ p) (hp' : p < q.size) (hle : key (q.d p) ≤ key (q.d (q.size - 1))) :
    HeapOf key ((refilled q p).percolateDown key p) fun y => S y ∧ y ≠ q.d p := by
  by_cases hlast : p + 1 = q.size
  · exact refilled_last h hp hlast
  · have hole := refilled_hole h.holds hp (by omega)
    have order : DownOrder key (refilled q p) p (q.d (q.size - 1)) := by
      refine ⟨refilled_offHole h.ordered p, refilled_grand h.ordered p, ?_⟩
      intro h2
      rw [refilled_d_ne q (show p / 2 ≠ p by omega)]
      exact (h.ordered p h2 hp').trans hle
    obtain ⟨hh, ho⟩ := percolateDownLoop_spec (refilled q p).size _ p (by omega) hole order
    refine ⟨?_, ?_, ?_⟩
    · rw [percolateDown_size]
      change 1 ≤ q.size - 1
      omega
    · unfold percolateDown
      rwa [refilled_d_self]
    · unfold percolateDown
      rwa [refilled_d_self]

theorem refilled_up {key : ℕ → ℕ} {q : IndexedHeap ℕ} {S : ℕ → Prop} (h : HeapOf key q S) {p : ℕ}
    (hp : 1 ≤ p) (hp' : p < q.size) (hlt : key (q.d (q.size - 1)) < key (q.d p)) :
    HeapOf key ((refilled q p).bubbleUp key p) fun y => S y ∧ y ≠ q.d p := by
  have hlast : p ≠ q.size - 1 := fun e => by
    rw [← e] at hlt
    exact lt_irrefl _ hlt
  have hole := refilled_hole h.holds hp (by omega)
  have order : UpOrder key (refilled q p) p (q.d (q.size - 1)) := by
    refine ⟨refilled_offHole h.ordered p, refilled_grand h.ordered p, ?_⟩
    intro c hc hc'
    change c < q.size - 1 at hc'
    rw [refilled_d_ne q (show c ≠ p by omega)]
    have := h.ordered c (by omega) (by omega)
    rw [hc] at this
    exact hlt.le.trans this
  obtain ⟨hh, ho, hs⟩ := bubbleUpLoop_spec p _ p le_rfl hole order
  unfold bubbleUp
  rw [refilled_d_self]
  refine ⟨?_, hh, ho⟩
  rw [hs]
  change 1 ≤ q.size - 1
  omega

theorem priorityQueueRemove_heapOf {key : ℕ → ℕ} {q : IndexedHeap ℕ} {S : ℕ → Prop} {x : ℕ}
    (h : HeapOf key q S) (hx : S x) :
    HeapOf key (priorityQueueRemove key q x) fun y => S y ∧ y ≠ x := by
  obtain ⟨hp, hp', hd⟩ := h.holds.slot hx
  change HeapOf key (if key x > key ((refilled q (q.pos x)).d (q.pos x)) then
    (refilled q (q.pos x)).bubbleUp key (q.pos x) else (refilled q (q.pos x)).percolateDown key (q.pos x)) _
  rw [refilled_d_self]
  split
  · rename_i hlt
    have := refilled_up h hp hp' (by rw [hd]; exact hlt)
    rwa [hd] at this
  · rename_i hle
    have := refilled_down h hp hp' (by rw [hd]; omega)
    rwa [hd] at this

theorem priorityQueuePop_heapOf {key : ℕ → ℕ} {q : IndexedHeap ℕ} {S : ℕ → Prop} {x : ℕ}
    (h : HeapOf key q S) (hx : priorityQueuePeek q = some x) :
    S x ∧ (∀ y, S y → key x ≤ key y) ∧ HeapOf key (priorityQueuePop key q) (fun y => S y ∧ y ≠ x) ∧
      (priorityQueuePop key q).size + 1 = q.size := by
  have h1 := h.size_pos
  unfold priorityQueuePeek at hx
  split at hx
  · cases hx
  · rename_i hs
    cases hx
    have hmin : ∀ y, S y → key (q.d 1) ≤ key y := by
      intro y hy
      obtain ⟨i, hi, hi', rfl⟩ := (h.holds.mem y).mp hy
      exact h.ordered.root_le i hi hi'
    have hmem : ∀ i, 1 ≤ i → i < q.size → S (q.d i) := fun i hi hi' =>
      (h.holds.mem _).mpr ⟨i, hi, hi', rfl⟩
    have hdown := refilled_down h (p := 1) le_rfl (by omega)
      (hmin _ (hmem (q.size - 1) (by omega) (by omega)))
    refine ⟨hmem 1 le_rfl (by omega), hmin, hdown, ?_⟩
    unfold priorityQueuePop
    rw [percolateDown_size]
    dsimp only
    omega

theorem priorityQueuePeek_eq_none {key : ℕ → ℕ} {q : IndexedHeap ℕ} {S : ℕ → Prop}
    (h : HeapOf key q S) (hx : priorityQueuePeek q = none) (y : ℕ) : ¬ S y := by
  unfold priorityQueuePeek at hx
  split at hx
  · rename_i hs
    rw [h.holds.mem y]
    rintro ⟨i, hi, hi', -⟩
    omega
  · cases hx

/-! ## Changing a key -/

theorem percolateDown_rekeyed {key : ℕ → ℕ} {q : IndexedHeap ℕ} {S : ℕ → Prop} {x : ℕ}
    (h : HeapOf key q S) (hx : S x) (t : ℕ) (hpar : 1 < q.pos x → key (q.d (q.pos x / 2)) ≤ t) :
    HeapOf (Function.update key x t) (q.percolateDown (Function.update key x t) (q.pos x)) S := by
  obtain ⟨hp, hp', hd⟩ := h.holds.slot hx
  have hole := h.holds.hole hp hp'
  rw [hd] at hole
  have hk : ∀ j, 1 ≤ j → j < q.size → j ≠ q.pos x → Function.update key x t (q.d j) = key (q.d j) :=
    fun j hj hj' hjp => Function.update_of_ne (hole.ne j hj hj' hjp) _ _
  have order : DownOrder (Function.update key x t) q (q.pos x) x := by
    refine ⟨?_, ?_, ?_⟩
    · intro i hi hi' hip hpp
      rw [hk i (by omega) hi' hip, hk (i / 2) (by omega) (by omega) hpp]
      exact h.ordered i hi hi'
    · intro h2 c hc hc'
      rw [hk c (by omega) hc' (by omega), hk (q.pos x / 2) (by omega) (by omega) (by omega)]
      exact h.ordered.grand _ h2 c hc hc'
    · intro h2
      rw [hk (q.pos x / 2) (by omega) (by omega) (by omega), Function.update_self]
      exact hpar (by omega)
  obtain ⟨hh, ho⟩ := percolateDownLoop_spec q.size q (q.pos x) (by omega) hole order
  refine ⟨?_, ?_, ?_⟩
  · rw [percolateDown_size]
    exact h.size_pos
  · unfold percolateDown
    rwa [hd]
  · unfold percolateDown
    rwa [hd]

/-! ## Membership without the order

A timer knows its slot by a field of its own, so what a queue does must also leave the slots of
timers alone that are in other queues. -/

/-- The queue now holds the elements of `T`, and elements that it did not hold keep their slot. -/
structure Rearranged (q q' : IndexedHeap ℕ) (S T : ℕ → Prop) : Prop where
  size_pos : 1 ≤ q'.size
  holds : Holds q' T
  pos_eq : ∀ y, ¬ S y → q'.pos y = q.pos y

theorem priorityQueueInsert_rearranged (key : ℕ → ℕ) {q : IndexedHeap ℕ} {S : ℕ → Prop} {x : ℕ}
    (h : Holds q S) (h1 : 1 ≤ q.size) (hx : ¬ S x) :
    Rearranged q (priorityQueueInsert key q x) (fun y => S y ∨ y = x) fun y => S y ∨ y = x := by
  have hd : Function.update q.d q.size x q.size = x := Function.update_self _ _ _
  obtain ⟨hholds, hsize, hpos⟩ := bubbleUpLoop_holds key q.size _ q.size (appended_hole h h1 hx)
  unfold priorityQueueInsert bubbleUp
  dsimp only
  rw [hd]
  refine ⟨?_, hholds, hpos⟩
  rw [hsize]
  dsimp only
  omega

theorem refilled_rearranged (key : ℕ → ℕ) {q : IndexedHeap ℕ} {S : ℕ → Prop} (h : Holds q S) {p : ℕ}
    (hp : 1 ≤ p) (hp' : p < q.size) :
    Rearranged q ((refilled q p).percolateDown key p) S fun y => S y ∧ y ≠ q.d p := by
  have hmem : S (q.d p) := (h.mem _).mpr ⟨p, hp, hp', rfl⟩
  have hsize : 1 ≤ ((refilled q p).percolateDown key p).size := by
    rw [percolateDown_size]
    change 1 ≤ q.size - 1
    omega
  refine ⟨hsize, ?_, ?_⟩
  · by_cases hlast : p + 1 = q.size
    · rw [refilled_last_eq key q hp hlast]
      exact refilled_last_holds h hp hlast
    · have hholds := (percolateDownLoop_holds key (refilled q p).size _ p
        (refilled_hole h hp (by omega))).1
      unfold percolateDown
      rwa [refilled_d_self]
  · intro y hy
    by_cases hlast : p + 1 = q.size
    · rw [refilled_last_eq key q hp hlast]
      exact place_pos_ne _ _ fun he => hy (he ▸ hmem)
    · have hpos := (percolateDownLoop_holds key (refilled q p).size _ p
        (refilled_hole h hp (by omega))).2 y fun hS => hy hS.1
      unfold percolateDown
      rwa [refilled_d_self]

theorem priorityQueueRemove_rearranged (key : ℕ → ℕ) {q : IndexedHeap ℕ} {S : ℕ → Prop} {x : ℕ}
    (h : Holds q S) (hx : S x) :
    Rearranged q (priorityQueueRemove key q x) S fun y => S y ∧ y ≠ x := by
  obtain ⟨hp, hp', hd⟩ := h.slot hx
  change Rearranged q (if key x > key ((refilled q (q.pos x)).d (q.pos x)) then
    (refilled q (q.pos x)).bubbleUp key (q.pos x)
    else (refilled q (q.pos x)).percolateDown key (q.pos x)) S _
  rw [refilled_d_self]
  split
  · rename_i hlt
    have hlast : q.pos x ≠ q.size - 1 := by
      intro e
      rw [← e, hd] at hlt
      exact lt_irrefl _ hlt
    have hole := refilled_hole h hp (by omega)
    rw [hd] at hole
    obtain ⟨hholds, hsize, hpos⟩ := bubbleUpLoop_holds key (q.pos x) _ (q.pos x) hole
    unfold bubbleUp
    rw [refilled_d_self]
    refine ⟨?_, hholds, fun y hy => hpos y fun hS => hy hS.1⟩
    rw [hsize]
    change 1 ≤ q.size - 1
    omega
  · have hdown := refilled_rearranged key h hp hp'
    rwa [hd] at hdown

theorem priorityQueuePop_rearranged (key : ℕ → ℕ) {q : IndexedHeap ℕ} {S : ℕ → Prop} {x : ℕ}
    (h : Holds q S) (h1 : 1 ≤ q.size) (hx : priorityQueuePeek q = some x) :
    S x ∧ Rearranged q (priorityQueuePop key q) S fun y => S y ∧ y ≠ x := by
  unfold priorityQueuePeek at hx
  split at hx
  · cases hx
  · cases hx
    exact ⟨(h.mem _).mpr ⟨1, le_rfl, by omega, rfl⟩, refilled_rearranged key h le_rfl (by omega)⟩

end Hilti.TimerMgr
