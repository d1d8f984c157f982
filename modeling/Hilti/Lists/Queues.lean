import Hilti.Lists.Sequences
import Hilti.TimerMgr.Queue

/-!
# The queues of the timer managers

Each queue is a heap of the timers that are linked to its manager.  The lemmas say what keeps this
when one timer is scheduled, taken out, or gets another time.
-/

namespace Hilti.Lists

open Hilti.Lib
open Hilti.TimerMgr (HeapOf priorityQueueInsert priorityQueueRemove priorityQueuePeek
  priorityQueuePop priorityQueueInsert_heapOf percolateDown_rekeyed heapOf_new)

set_option autoImplicit false

/-- The timer `x` is linked to the manager `m`. -/
def Waits (timers : ℕ → Option Timer) (m x : ℕ) : Prop :=
  ∃ t, timers x = some t ∧ t.mgr = some m

def Queued (timers : ℕ → Option Timer) (mgrs : ℕ → Option Mgr) : Prop :=
  ∀ m M, mgrs m = some M → HeapOf (timeOf timers) M.queue (Waits timers m)

variable {timers : ℕ → Option Timer} {mgrs : ℕ → Option Mgr} {m x : ℕ} {M : Mgr}

/-! ## One timer changes -/

theorem timeOf_eq {t : Timer} (hx : timers x = some t) : timeOf timers x = t.time := by
  rw [timeOf, hx]
  rfl

theorem timeOf_update (timers : ℕ → Option Timer) (x : ℕ) (t : Timer) :
    timeOf (Function.update timers x (some t)) = Function.update (timeOf timers) x t.time := by
  funext y
  by_cases hy : y = x
  · subst hy
    simp [timeOf]
  · simp [timeOf, hy]

theorem waits_update_self (m : ℕ) (t : Timer) :
    Waits (Function.update timers x (some t)) m x ↔ t.mgr = some m := by
  simp [Waits]

theorem waits_update_ne {y : ℕ} (hy : y ≠ x) (m : ℕ) (t : Timer) :
    Waits (Function.update timers x (some t)) m y ↔ Waits timers m y := by
  simp [Waits, hy]

theorem Waits.unique {k : ℕ} (h : Waits timers m x) (h' : Waits timers k x) : m = k := by
  obtain ⟨t, ht, hm⟩ := h
  obtain ⟨t', ht', hk⟩ := h'
  cases ht.symm.trans ht'
  exact Option.some.inj (hm.symm.trans hk)

theorem Queued.other (h : Queued timers mgrs) {k : ℕ} {K : Mgr} (hK : mgrs k = some K) {t : Timer}
    (hx : ¬ Waits timers k x) (ht : t.mgr ≠ some k) :
    HeapOf (timeOf (Function.update timers x (some t))) K.queue
      (Waits (Function.update timers x (some t)) k) := by
  refine (h k K hK).congr (fun y => ?_) fun y hy => ?_
  · by_cases hyx : y = x
    · subst hyx
      rw [waits_update_self]
      exact iff_of_false hx ht
    · rw [waits_update_ne hyx]
  · rw [timeOf_update, Function.update_of_ne]
    rintro rfl
    exact hx hy

theorem Queued.set (h : Queued timers mgrs) {t : Timer} {time : ℕ} {q : IndexedHeap ℕ}
    (hq : HeapOf (timeOf (Function.update timers x (some t))) q
      (Waits (Function.update timers x (some t)) m))
    (hx : ∀ k, k ≠ m → ¬ Waits timers k x) (ht : ∀ k, k ≠ m → t.mgr ≠ some k) :
    Queued (Function.update timers x (some t)) (Function.update mgrs m (some ⟨time, q⟩)) := by
  intro k K hK
  by_cases hk : k = m
  · subst hk
    rw [Function.update_self] at hK
    cases hK
    exact hq
  · rw [Function.update_of_ne hk] at hK
    exact h.other hK (hx k hk) (ht k hk)

theorem Queued.schedule (h : Queued timers mgrs) (hM : mgrs m = some M) {t : Timer}
    (hx : ∀ k, ¬ Waits timers k x) (ht : t.mgr = some m) (time : ℕ) :
    Queued (Function.update timers x (some t))
      (Function.update mgrs m (some ⟨time,
        priorityQueueInsert (timeOf (Function.update timers x (some t))) M.queue x⟩)) := by
  refine h.set ?_ (fun k _ => hx k) fun k hk he => hk (Option.some.inj (he.symm.trans ht))
  have hold : HeapOf (timeOf (Function.update timers x (some t))) M.queue (Waits timers m) := by
    refine (h m M hM).congr (fun _ => Iff.rfl) fun y hy => ?_
    rw [timeOf_update, Function.update_of_ne]
    rintro rfl
    exact hx m hy
  refine (priorityQueueInsert_heapOf hold (hx m)).congr (fun y => ?_) fun _ _ => rfl
  by_cases hyx : y = x
  · subst hyx
    rw [waits_update_self]
    exact iff_of_true (.inr rfl) ht
  · rw [waits_update_ne hyx]
    exact ⟨fun hy => hy.resolve_right hyx, .inl⟩

theorem Queued.unlink (h : Queued timers mgrs) (hx : Waits timers m x) {t : Timer}
    (ht : t.mgr = none) {q : IndexedHeap ℕ}
    (hq : HeapOf (timeOf timers) q fun y => Waits timers m y ∧ y ≠ x) (time : ℕ) :
    Queued (Function.update timers x (some t)) (Function.update mgrs m (some ⟨time, q⟩)) := by
  refine h.set (hq.congr (fun y => ?_) fun y hy => ?_) (fun k hk hw => hk (hw.unique hx))
    fun k _ => by simp [ht]
  · by_cases hyx : y = x
    · subst hyx
      rw [waits_update_self, ht]
      exact iff_of_false (fun hy => hy.2 rfl) (fun he => nomatch he)
    · rw [waits_update_ne hyx]
      exact ⟨fun hy => hy.1, fun hy => ⟨hy, hyx⟩⟩
  · rw [timeOf_update, Function.update_of_ne hy.2]

theorem Queued.rekey (h : Queued timers mgrs) (hM : mgrs m = some M) {t : Timer}
    (hx : timers x = some t) (hm : t.mgr = some m) {d : ℕ}
    (hpar : 1 < M.queue.pos x → timeOf timers (M.queue.d (M.queue.pos x / 2)) ≤ d) :
    Queued (Function.update timers x (some { t with time := d }))
      (Function.update mgrs m (some ⟨M.time, M.queue.percolateDown
        (timeOf (Function.update timers x (some { t with time := d }))) (M.queue.pos x)⟩)) := by
  have hw : Waits timers m x := ⟨t, hx, hm⟩
  refine h.set ?_ (fun k hk hwk => hk (hwk.unique hw))
    fun k hk he => hk (Option.some.inj (he.symm.trans hm))
  rw [timeOf_update]
  refine (percolateDown_rekeyed (h m M hM) hw d hpar).congr (fun y => ?_) fun _ _ => rfl
  by_cases hyx : y = x
  · subst hyx
    rw [waits_update_self]
    exact iff_of_true hw hm
  · rw [waits_update_ne hyx]

theorem times_setQueue (hM : mgrs m = some M) (q : IndexedHeap ℕ) (k : ℕ) :
    (Function.update mgrs m (some ⟨M.time, q⟩) k).map Mgr.time = (mgrs k).map Mgr.time := by
  by_cases hk : k = m
  · subst hk
    simp [hM]
  · simp [hk]

theorem newMgr_heapOf (key : ℕ → ℕ) {S : ℕ → Prop} (hS : ∀ y, ¬ S y) : HeapOf key newMgr.queue S :=
  (heapOf_new key).congr (fun y => ⟨False.elim, hS y⟩) fun _ _ => rfl

end Hilti.Lists
