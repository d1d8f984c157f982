import Mathlib

/-! # Binary heaps whose elements know their slot

An array heap with its root in slot 1, kept by `bubbleUp` and `percolateDown`, where a second map
gives the slot of each element. The keys are looked up through a function, so they may change while
an element stays in its slot.

Both loops carry a *hole*: the slot the moving element has left. `Hole` says which elements the other
slots hold, `UpOrder` and `DownOrder` what is known about their order; each has a lemma for one round
of the loop and one for its end. -/

namespace Hilti.Lib
set_option autoImplicit false
set_option linter.unusedSectionVars false

/-- `size` is one more than the number of elements, since slot 0 is not used. -/
structure IndexedHeap (α : Type) where
  d : ℕ → α
  pos : α → ℕ
  size : ℕ

namespace IndexedHeap
variable {α κ : Type} [DecidableEq α] [LinearOrder κ]

/-- Put an element into a slot. -/
def place (q : IndexedHeap α) (i : ℕ) (x : α) : IndexedHeap α :=
  { q with d := Function.update q.d i x, pos := Function.update q.pos x i }

@[simp] theorem place_size (q : IndexedHeap α) (i : ℕ) (x : α) : (q.place i x).size = q.size := rfl

@[simp] theorem place_d_self (q : IndexedHeap α) (i : ℕ) (x : α) : (q.place i x).d i = x := by
  simp [place]

theorem place_d_ne (q : IndexedHeap α) {i j : ℕ} (x : α) (h : j ≠ i) : (q.place i x).d j = q.d j := by
  simp [place, h]

@[simp] theorem place_pos_self (q : IndexedHeap α) (i : ℕ) (x : α) : (q.place i x).pos x = i := by
  simp [place]

theorem place_pos_ne (q : IndexedHeap α) (i : ℕ) {x y : α} (h : y ≠ x) :
    (q.place i x).pos y = q.pos y := by
  simp [place, h]

/-! ## The two loops -/

/-- The loop of `bubbleUp`: the hole is at `i`, the element `x` is moving. -/
def bubbleUpLoop (key : α → κ) (x : α) : ℕ → IndexedHeap α → ℕ → IndexedHeap α
  | 0, q, i => q.place i x
  | fuel + 1, q, i =>
      if 1 < i ∧ key x < key (q.d (i / 2)) then bubbleUpLoop key x fuel (q.place i (q.d (i / 2))) (i / 2)
      else q.place i x

/-- Move the element in slot `i` up to where its key belongs. -/
def bubbleUp (key : α → κ) (q : IndexedHeap α) (i : ℕ) : IndexedHeap α :=
  bubbleUpLoop key (q.d i) i q i

/-- The child of slot `i` with the smaller key, or 0 if `i` has no children. -/
def maxchild (key : α → κ) (q : IndexedHeap α) (i : ℕ) : ℕ :=
  if q.size ≤ 2 * i then 0
  else if 2 * i + 1 < q.size ∧ key (q.d (2 * i + 1)) < key (q.d (2 * i)) then 2 * i + 1
  else 2 * i

/-- The loop of `percolateDown`. -/
def percolateDownLoop (key : α → κ) (x : α) : ℕ → IndexedHeap α → ℕ → IndexedHeap α
  | 0, q, i => q.place i x
  | fuel + 1, q, i =>
      if maxchild key q i ≠ 0 ∧ key (q.d (maxchild key q i)) < key x then
        percolateDownLoop key x fuel (q.place i (q.d (maxchild key q i))) (maxchild key q i)
      else q.place i x

/-- Move the element in slot `i` down to where its key belongs. -/
def percolateDown (key : α → κ) (q : IndexedHeap α) (i : ℕ) : IndexedHeap α :=
  percolateDownLoop key (q.d i) q.size q i

theorem percolateDownLoop_size (key : α → κ) (x : α) (fuel : ℕ) (q : IndexedHeap α) (i : ℕ) :
    (percolateDownLoop key x fuel q i).size = q.size := by
  induction fuel generalizing q i with
  | zero => rfl
  | succ fuel ih =>
    unfold percolateDownLoop
    split
    · rw [ih, place_size]
    · rfl

@[simp] theorem percolateDown_size (key : α → κ) (q : IndexedHeap α) (i : ℕ) :
    (q.percolateDown key i).size = q.size := percolateDownLoop_size _ _ _ _ _

/-! ## What a heap holds -/

/-- The heap holds exactly the elements of `S`, each in the slot it is said to be in. -/
structure Holds (q : IndexedHeap α) (S : α → Prop) : Prop where
  pos : ∀ i, 1 ≤ i → i < q.size → q.pos (q.d i) = i
  mem : ∀ y, S y ↔ ∃ i, 1 ≤ i ∧ i < q.size ∧ q.d i = y

/-- The same with the element `x` taken out of slot `i`. -/
structure Hole (q : IndexedHeap α) (i : ℕ) (x : α) (S : α → Prop) : Prop where
  one_le : 1 ≤ i
  lt_size : i < q.size
  pos : ∀ j, 1 ≤ j → j < q.size → j ≠ i → q.pos (q.d j) = j
  ne : ∀ j, 1 ≤ j → j < q.size → j ≠ i → q.d j ≠ x
  mem : ∀ y, S y ↔ y = x ∨ ∃ j, 1 ≤ j ∧ j < q.size ∧ j ≠ i ∧ q.d j = y

theorem Holds.inj {q : IndexedHeap α} {S : α → Prop} (h : Holds q S) {i j : ℕ} (hi : 1 ≤ i)
    (hi' : i < q.size) (hj : 1 ≤ j) (hj' : j < q.size) (he : q.d i = q.d j) : i = j := by
  rw [← h.pos i hi hi', ← h.pos j hj hj', he]

theorem Holds.slot {q : IndexedHeap α} {S : α → Prop} (h : Holds q S) {x : α} (hx : S x) :
    1 ≤ q.pos x ∧ q.pos x < q.size ∧ q.d (q.pos x) = x := by
  obtain ⟨i, hi, hi', rfl⟩ := (h.mem x).mp hx
  rw [h.pos i hi hi']
  exact ⟨hi, hi', rfl⟩

theorem Holds.hole {q : IndexedHeap α} {S : α → Prop} (h : Holds q S) {i : ℕ} (hi : 1 ≤ i)
    (hi' : i < q.size) : Hole q i (q.d i) S where
  one_le := hi
  lt_size := hi'
  pos := fun j hj hj' _ => h.pos j hj hj'
  ne := fun j hj hj' hne he => hne (h.inj hj hj' hi hi' he)
  mem := by
    intro y
    rw [h.mem y]
    constructor
    · rintro ⟨j, hj, hj', rfl⟩
      by_cases hji : j = i
      · exact .inl (by rw [hji])
      · exact .inr ⟨j, hj, hj', hji, rfl⟩
    · rintro (rfl | ⟨j, hj, hj', _, rfl⟩)
      · exact ⟨i, hi, hi', rfl⟩
      · exact ⟨j, hj, hj', rfl⟩

theorem Hole.move {q : IndexedHeap α} {i k : ℕ} {x : α} {S : α → Prop} (h : Hole q i x S)
    (hk : 1 ≤ k) (hk' : k < q.size) (hki : k ≠ i) : Hole (q.place i (q.d k)) k x S := by
  have hd : ∀ j, 1 ≤ j → j < q.size → j ≠ i → j ≠ k → q.d j ≠ q.d k := by
    intro j hj hj' hji hjk he
    exact hjk (by rw [← h.pos j hj hj' hji, ← h.pos k hk hk' hki, he])
  constructor
  · exact hk
  · exact hk'
  · intro j hj hj' hjk
    by_cases hji : j = i
    · rw [hji, place_d_self, place_pos_self]
    · rw [place_d_ne q _ hji, place_pos_ne q i (hd j hj hj' hji hjk)]
      exact h.pos j hj hj' hji
  · intro j hj hj' hjk
    by_cases hji : j = i
    · rw [hji, place_d_self]
      exact h.ne k hk hk' hki
    · rw [place_d_ne q _ hji]
      exact h.ne j hj hj' hji
  · intro y
    rw [h.mem y]
    refine or_congr_right ?_
    constructor
    · rintro ⟨j, hj, hj', hji, rfl⟩
      by_cases hjk : j = k
      · exact ⟨i, h.one_le, h.lt_size, fun e => hki e.symm, by rw [place_d_self, hjk]⟩
      · exact ⟨j, hj, hj', hjk, place_d_ne q _ hji⟩
    · rintro ⟨j, hj, hj', hjk, rfl⟩
      by_cases hji : j = i
      · exact ⟨k, hk, hk', hki, by rw [hji, place_d_self]⟩
      · exact ⟨j, hj, hj', hji, (place_d_ne q _ hji).symm⟩

theorem Hole.finish {q : IndexedHeap α} {i : ℕ} {x : α} {S : α → Prop} (h : Hole q i x S) :
    Holds (q.place i x) S := by
  constructor
  · intro j hj hj'
    by_cases hji : j = i
    · rw [hji, place_d_self, place_pos_self]
    · rw [place_d_ne q _ hji, place_pos_ne q i (h.ne j hj hj' hji)]
      exact h.pos j hj hj' hji
  · intro y
    rw [h.mem y]
    constructor
    · rintro (rfl | ⟨j, hj, hj', hji, rfl⟩)
      · exact ⟨i, h.one_le, h.lt_size, place_d_self q i y⟩
      · exact ⟨j, hj, hj', place_d_ne q _ hji⟩
    · rintro ⟨j, hj, hj', rfl⟩
      by_cases hji : j = i
      · exact .inl (by rw [hji, place_d_self])
      · exact .inr ⟨j, hj, hj', hji, (place_d_ne q _ hji).symm⟩

/-! ## Membership without the order -/

theorem Hole.mem_moving {q : IndexedHeap α} {i : ℕ} {x : α} {S : α → Prop} (h : Hole q i x S) : S x :=
  (h.mem x).mpr (.inl rfl)

theorem Hole.mem_slot {q : IndexedHeap α} {i k : ℕ} {x : α} {S : α → Prop} (h : Hole q i x S)
    (hk : 1 ≤ k) (hk' : k < q.size) (hki : k ≠ i) : S (q.d k) :=
  (h.mem _).mpr (.inr ⟨k, hk, hk', hki, rfl⟩)

/-- Whatever the keys are, `bubbleUp` closes the hole, and elements that the heap does not hold keep
their slot. -/
theorem bubbleUpLoop_holds (key : α → κ) {x : α} {S : α → Prop} (fuel : ℕ) (q : IndexedHeap α) (i : ℕ)
    (h : Hole q i x S) :
    Holds (bubbleUpLoop key x fuel q i) S ∧ (bubbleUpLoop key x fuel q i).size = q.size ∧
      ∀ y, ¬ S y → (bubbleUpLoop key x fuel q i).pos y = q.pos y := by
  have hdone : Holds (q.place i x) S ∧ (q.place i x).size = q.size ∧
      ∀ y, ¬ S y → (q.place i x).pos y = q.pos y :=
    ⟨h.finish, rfl, fun y hy => place_pos_ne q i fun he => hy (he ▸ h.mem_moving)⟩
  induction fuel generalizing q i with
  | zero => exact hdone
  | succ fuel ih =>
    have hlt := h.lt_size
    unfold bubbleUpLoop
    split
    · rename_i hc
      have hmove := h.move (k := i / 2) (by omega) (by omega) (by omega)
      obtain ⟨hholds, hsize, hpos⟩ := ih _ (i / 2) hmove ⟨hmove.finish, rfl, fun y hy =>
        place_pos_ne _ _ fun he => hy (he ▸ hmove.mem_moving)⟩
      refine ⟨hholds, hsize, fun y hy => (hpos y hy).trans (place_pos_ne q i fun he => hy ?_)⟩
      rw [he]
      exact h.mem_slot (by omega) (by omega) (by omega)
    · exact hdone

/-! ## The order -/

/-- No element has a smaller key than its parent. -/
def Ordered (key : α → κ) (q : IndexedHeap α) : Prop :=
  ∀ i, 2 ≤ i → i < q.size → key (q.d (i / 2)) ≤ key (q.d i)

def OffHole (key : α → κ) (q : IndexedHeap α) (h : ℕ) : Prop :=
  ∀ i, 2 ≤ i → i < q.size → i ≠ h → i / 2 ≠ h → key (q.d (i / 2)) ≤ key (q.d i)

def GrandOrder (key : α → κ) (q : IndexedHeap α) (h : ℕ) : Prop :=
  2 ≤ h → ∀ c, c / 2 = h → c < q.size → key (q.d (h / 2)) ≤ key (q.d c)

structure UpOrder (key : α → κ) (q : IndexedHeap α) (h : ℕ) (x : α) : Prop where
  off : OffHole key q h
  grand : GrandOrder key q h
  below : ∀ c, c / 2 = h → c < q.size → key x ≤ key (q.d c)

structure DownOrder (key : α → κ) (q : IndexedHeap α) (h : ℕ) (x : α) : Prop where
  off : OffHole key q h
  grand : GrandOrder key q h
  above : 2 ≤ h → key (q.d (h / 2)) ≤ key x

theorem Ordered.grand {key : α → κ} {q : IndexedHeap α} (h : Ordered key q) (i : ℕ) :
    GrandOrder key q i := by
  intro hi c hc hc'
  have h1 := h c (by omega) hc'
  have h2 := h i hi (by omega)
  rw [hc] at h1
  exact h2.trans h1

theorem Ordered.root_le {key : α → κ} {q : IndexedHeap α} (h : Ordered key q) (i : ℕ) (hi : 1 ≤ i)
    (hi' : i < q.size) : key (q.d 1) ≤ key (q.d i) := by
  induction i using Nat.strong_induction_on with
  | _ i ih =>
    by_cases h1 : i = 1
    · rw [h1]
    · exact (ih (i / 2) (by omega) (by omega) (by omega)).trans (h i (by omega) hi')

theorem UpOrder.move {key : α → κ} {q : IndexedHeap α} {h : ℕ} {x : α} (o : UpOrder key q h x)
    (h1 : 1 < h) (hs : h < q.size) (hx : key x < key (q.d (h / 2))) :
    UpOrder key (q.place h (q.d (h / 2))) (h / 2) x := by
  have hp : h / 2 ≠ h := by omega
  -- The parent of the hole is in order with its own parent and with its other child.
  have hup : 2 ≤ h / 2 → key (q.d (h / 2 / 2)) ≤ key (q.d (h / 2)) := fun h2 =>
    o.off (h / 2) h2 (by omega) hp (by omega)
  have hsib : ∀ c, c / 2 = h / 2 → c < q.size → 2 ≤ c → c ≠ h → key (q.d (h / 2)) ≤ key (q.d c) := by
    intro c hc hc' hc2 hch
    have := o.off c hc2 hc' hch (by omega)
    rwa [hc] at this
  constructor
  · intro i hi hi' hih hpi
    rw [place_size] at hi'
    have hi_h : i ≠ h := by
      rintro rfl
      exact hpi rfl
    rw [place_d_ne q _ hi_h]
    by_cases hpe : i / 2 = h
    · rw [hpe, place_d_self]
      exact o.grand (by omega) i hpe hi'
    · rw [place_d_ne q _ hpe]
      exact o.off i hi hi' hi_h hpe
  · intro h2 c hc hc'
    rw [place_size] at hc'
    rw [place_d_ne q _ (show h / 2 / 2 ≠ h by omega)]
    by_cases hch : c = h
    · rw [hch, place_d_self]
      exact hup h2
    · rw [place_d_ne q _ hch]
      exact (hup h2).trans (hsib c hc hc' (by omega) hch)
  · intro c hc hc'
    rw [place_size] at hc'
    by_cases hch : c = h
    · rw [hch, place_d_self]
      exact hx.le
    · rw [place_d_ne q _ hch]
      exact hx.le.trans (hsib c hc hc' (by omega) hch)

theorem UpOrder.finish {key : α → κ} {q : IndexedHeap α} {h : ℕ} {x : α} (o : UpOrder key q h x)
    (hstop : 1 < h → key (q.d (h / 2)) ≤ key x) : Ordered key (q.place h x) := by
  intro i hi hi'
  rw [place_size] at hi'
  by_cases hih : i = h
  · rw [hih, place_d_self, place_d_ne q _ (show h / 2 ≠ h by omega)]
    exact hstop (by omega)
  · rw [place_d_ne q _ hih]
    by_cases hp : i / 2 = h
    · rw [hp, place_d_self]
      exact o.below i hp hi'
    · rw [place_d_ne q _ hp]
      exact o.off i hi hi' hih hp

theorem bubbleUpLoop_spec {key : α → κ} {x : α} {S : α → Prop} (fuel : ℕ) (q : IndexedHeap α) (i : ℕ)
    (hf : i ≤ fuel) (h : Hole q i x S) (o : UpOrder key q i x) :
    Holds (bubbleUpLoop key x fuel q i) S ∧ Ordered key (bubbleUpLoop key x fuel q i) ∧
      (bubbleUpLoop key x fuel q i).size = q.size := by
  induction fuel generalizing q i with
  | zero =>
    have := h.one_le
    omega
  | succ fuel ih =>
    have hlt := h.lt_size
    unfold bubbleUpLoop
    split
    · rename_i hc
      exact ih _ (i / 2) (by omega) (h.move (by omega) (by omega) (by omega)) (o.move hc.1 hlt hc.2)
    · rename_i hc
      refine ⟨h.finish, o.finish ?_, rfl⟩
      intro h1
      by_contra hlt'
      exact hc ⟨h1, lt_of_not_ge hlt'⟩

/-! ## Downwards -/

theorem maxchild_spec (key : α → κ) (q : IndexedHeap α) (i : ℕ) (h : maxchild key q i ≠ 0) :
    maxchild key q i / 2 = i ∧ maxchild key q i < q.size ∧
      ∀ c, c / 2 = i → 2 ≤ c → c < q.size → key (q.d (maxchild key q i)) ≤ key (q.d c) := by
  unfold maxchild at h ⊢
  split at h
  · exact absurd rfl h
  · rename_i h0
    rw [if_neg h0]
    by_cases hr : 2 * i + 1 < q.size ∧ key (q.d (2 * i + 1)) < key (q.d (2 * i))
    · rw [if_pos hr]
      refine ⟨by omega, hr.1, ?_⟩
      intro c hc hc2 hc'
      obtain rfl | rfl : c = 2 * i ∨ c = 2 * i + 1 := by omega
      · exact hr.2.le
      · exact le_rfl
    · rw [if_neg hr]
      refine ⟨by omega, by omega, ?_⟩
      intro c hc hc2 hc'
      obtain rfl | rfl : c = 2 * i ∨ c = 2 * i + 1 := by omega
      · exact le_rfl
      · exact le_of_not_gt fun hlt => hr ⟨hc', hlt⟩

theorem maxchild_eq_zero {key : α → κ} {q : IndexedHeap α} {i : ℕ} (hi : 1 ≤ i)
    (h : maxchild key q i = 0) : ∀ c, c / 2 = i → ¬ c < q.size := by
  intro c hc hc'
  unfold maxchild at h
  split at h
  · omega
  · split at h <;> omega

theorem DownOrder.move {key : α → κ} {q : IndexedHeap α} {h : ℕ} {x : α} (o : DownOrder key q h x)
    (h1 : 1 ≤ h) (hc : maxchild key q h ≠ 0) (hx : key (q.d (maxchild key q h)) < key x) :
    DownOrder key (q.place h (q.d (maxchild key q h))) (maxchild key q h) x := by
  obtain ⟨hp, hlt, hmin⟩ := maxchild_spec key q h hc
  generalize hcd : maxchild key q h = c at hp hlt hmin hx hc
  have hch : c ≠ h := by omega
  constructor
  · intro i hi hi' hic hpi
    rw [place_size] at hi'
    by_cases hih : i = h
    · rw [hih, place_d_self, place_d_ne q _ (show h / 2 ≠ h by omega)]
      exact o.grand (by omega) c hp hlt
    · rw [place_d_ne q _ hih]
      by_cases hpe : i / 2 = h
      · rw [hpe, place_d_self]
        exact hmin i hpe hi hi'
      · rw [place_d_ne q _ hpe]
        exact o.off i hi hi' hih hpe
  · intro _ g hg hg'
    rw [place_size] at hg'
    rw [hp, place_d_self, place_d_ne q _ (show g ≠ h by omega)]
    have := o.off g (by omega) hg' (by omega) (by omega)
    rwa [hg] at this
  · intro _
    rw [hp, place_d_self]
    exact hx.le

theorem DownOrder.finish {key : α → κ} {q : IndexedHeap α} {h : ℕ} {x : α} (o : DownOrder key q h x)
    (hstop : ∀ c, c / 2 = h → 2 ≤ c → c < q.size → key x ≤ key (q.d c)) :
    Ordered key (q.place h x) := by
  intro i hi hi'
  rw [place_size] at hi'
  by_cases hih : i = h
  · rw [hih, place_d_self, place_d_ne q _ (show h / 2 ≠ h by omega)]
    exact o.above (by omega)
  · rw [place_d_ne q _ hih]
    by_cases hp : i / 2 = h
    · rw [hp, place_d_self]
      exact hstop i hp hi hi'
    · rw [place_d_ne q _ hp]
      exact o.off i hi hi' hih hp

/-- Whatever the keys are, `percolateDown` closes the hole, and elements that the heap does not hold
keep their slot. -/
theorem percolateDownLoop_holds (key : α → κ) {x : α} {S : α → Prop} (fuel : ℕ) (q : IndexedHeap α)
    (i : ℕ) (h : Hole q i x S) :
    Holds (percolateDownLoop key x fuel q i) S ∧
      ∀ y, ¬ S y → (percolateDownLoop key x fuel q i).pos y = q.pos y := by
  have hdone : Holds (q.place i x) S ∧ ∀ y, ¬ S y → (q.place i x).pos y = q.pos y :=
    ⟨h.finish, fun y hy => place_pos_ne q i fun he => hy (he ▸ h.mem_moving)⟩
  induction fuel generalizing q i with
  | zero => exact hdone
  | succ fuel ih =>
    have h1 := h.one_le
    unfold percolateDownLoop
    split
    · rename_i hc
      obtain ⟨hp, hlt, -⟩ := maxchild_spec key q i hc.1
      have hmove := h.move (k := maxchild key q i) (by omega) hlt (by omega)
      obtain ⟨hholds, hpos⟩ := ih _ (maxchild key q i) hmove ⟨hmove.finish, fun y hy =>
        place_pos_ne _ _ fun he => hy (he ▸ hmove.mem_moving)⟩
      refine ⟨hholds, fun y hy => (hpos y hy).trans (place_pos_ne q i fun he => hy ?_)⟩
      rw [he]
      exact h.mem_slot (by omega) hlt (by omega)
    · exact hdone

theorem percolateDownLoop_spec {key : α → κ} {x : α} {S : α → Prop} (fuel : ℕ) (q : IndexedHeap α)
    (i : ℕ) (hf : q.size ≤ fuel + i) (h : Hole q i x S) (o : DownOrder key q i x) :
    Holds (percolateDownLoop key x fuel q i) S ∧ Ordered key (percolateDownLoop key x fuel q i) := by
  induction fuel generalizing q i with
  | zero =>
    have := h.lt_size
    omega
  | succ fuel ih =>
    have h1 := h.one_le
    unfold percolateDownLoop
    split
    · rename_i hc
      obtain ⟨hp, hlt, -⟩ := maxchild_spec key q i hc.1
      refine ih _ (maxchild key q i) ?_ (h.move (by omega) hlt (by omega)) (o.move h1 hc.1 hc.2)
      rw [place_size]
      omega
    · rename_i hc
      refine ⟨h.finish, o.finish ?_⟩
      intro c hci hc2 hc'
      by_cases h0 : maxchild key q i = 0
      · exact absurd hc' (maxchild_eq_zero h1 h0 c hci)
      · have hle := le_of_not_gt fun hlt => hc ⟨h0, hlt⟩
        exact hle.trans ((maxchild_spec key q i h0).2.2 c hci hc2 hc')

end IndexedHeap
end Hilti.Lib
