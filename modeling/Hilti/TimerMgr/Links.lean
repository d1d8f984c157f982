import Hilti.TimerMgr.Calls

/-! # The manager link of a timer

A timer should have a manager exactly while it is in the queue of that manager. While its callback
runs it has one without being in a queue; and it keeps it when the manager expires without firing.
In runs that keep away from this, the timers that are not being fired are linked exactly. -/

namespace Hilti.TimerMgr.Calls
open Hilti.Lib Hilti.Lib.IndexedHeap
set_option autoImplicit false

/-- `timer->mgr` is a manager exactly if the timer is in its queue. -/
def LinkExact (s : Timers) (x : ℕ) : Prop := ∀ m, s.link x = some m ↔ Queued s m x

theorem Linked.queued_iff {s : Timers} (h : Linked s) (m x : ℕ) : Queued s m x ↔ Waits s m x :=
  ((h.holds m).mem x).symm

theorem Linked.linkExact_iff {s : Timers} (h : Linked s) (x : ℕ) : LinkExact s x ↔ x ∉ s.firing := by
  constructor
  · intro hexact hfiring
    obtain ⟨m, hm⟩ := Option.ne_none_iff_exists'.mp (h.linked x hfiring)
    exact ((h.queued_iff m x).mp ((hexact m).mp hm)).2 hfiring
  · intro hx m
    rw [h.queued_iff m x]
    exact ⟨fun hm => ⟨hm, hx⟩, fun hw => hw.1⟩

/-! ## Steps -/

theorem rearranged_congr {q q' : IndexedHeap ℕ} {S T T' : ℕ → Prop} (h : Rearranged q q' S T)
    (hT : ∀ y, T' y ↔ T y) : Rearranged q q' S T' :=
  ⟨h.size_pos, ⟨h.holds.pos, fun y => (hT y).trans (h.holds.mem y)⟩, h.pos_eq⟩

theorem moved_rearranged (key : ℕ → ℕ) {q : IndexedHeap ℕ} {S : ℕ → Prop} {x : ℕ} (h : Holds q S)
    (h1 : 1 ≤ q.size) (hx : S x) :
    Rearranged q (q.bubbleUp key (q.pos x)) S S ∧ Rearranged q (q.percolateDown key (q.pos x)) S S := by
  obtain ⟨hp, hp', -⟩ := h.slot hx
  have hole := h.hole hp hp'
  constructor
  · obtain ⟨hholds, hsize, hpos⟩ := bubbleUpLoop_holds key (q.pos x) q (q.pos x) hole
    exact ⟨hsize ▸ h1, hholds, hpos⟩
  · obtain ⟨hholds, hpos⟩ := percolateDownLoop_holds key q.size q (q.pos x) hole
    exact ⟨by rw [percolateDown_size]; exact h1, hholds, hpos⟩

theorem Linked.taken {s : Timers} (h : Linked s) {m x : ℕ} {q : IndexedHeap ℕ} (rest : Rest)
    (hx : Waits s m x)
    (hq : Rearranged (s.queue m) q (Waits s m) fun y => Waits s m y ∧ y ≠ x) :
    Linked ((s.setQueue m q).fire x rest) := by
  have hwaits : ∀ k y, Waits ((s.setQueue m q).fire x rest) k y ↔ Waits s k y ∧ y ≠ x := by
    intro k y
    change s.link y = some k ∧ y ∉ x :: s.firing ↔ _
    rw [List.mem_cons, not_or]
    constructor
    · rintro ⟨hk, hne, hy⟩
      exact ⟨⟨hk, hy⟩, hne⟩
    · rintro ⟨⟨hk, hy⟩, hne⟩
      exact ⟨hk, hne, hy⟩
  refine h.of_rearranged m (rearranged_congr hq (hwaits m)) rfl rfl (fun k hk y => ?_)
    (fun k hk y hy hm => hk (hy.unique hm)) (fun y hy => ?_) ?_
  · rw [hwaits k y]
    refine ⟨fun hy => hy.1, fun hy => ⟨hy, fun he => hk ?_⟩⟩
    exact hy.unique (he ▸ hx)
  · rcases List.mem_cons.mp hy with rfl | hy
    · change s.link y ≠ none
      rw [hx.1]
      simp
    · exact h.linked y hy
  · exact List.nodup_cons.mpr ⟨hx.2, h.nodup⟩

theorem hltTimerMgrSchedule_linked {s : Timers} (h : Linked s) (m t x : ℕ) :
    Linked (hltTimerMgrSchedule s m t x).1 := by
  unfold hltTimerMgrSchedule
  split
  · exact h
  rename_i hx
  have hnone : s.link x = none := not_not.mp hx
  have hnot := h.not_firing hnone
  -- the links of the other timers stay as they are
  have hlink : ∀ y, y ≠ x → Function.update s.link x (some m) y = s.link y :=
    fun y hy => Function.update_of_ne hy _ _
  have hother : ∀ k y, Waits s k y → y ≠ x := by
    rintro k y ⟨hk, -⟩ rfl
    rw [hnone] at hk
    cases hk
  have hlinked : ∀ y ∈ s.firing, Function.update s.link x (some m) y ≠ none := by
    intro y hy
    have hne : y ≠ x := fun he => hnot (he ▸ hy)
    rw [hlink y hne]
    exact h.linked y hy
  dsimp only
  split
  · refine h.of_same rfl rfl (fun k y => ?_) (fun y hy => ?_) ?_
    · change Function.update s.link x (some m) y = some k ∧ y ∉ x :: s.firing ↔ _
      by_cases hy : y = x
      · rw [hy]
        refine ⟨fun hw => absurd (List.mem_cons_self) hw.2, fun hw => absurd rfl (hother k x hw)⟩
      · rw [hlink y hy, List.mem_cons, not_or]
        exact ⟨fun hw => ⟨hw.1, hw.2.2⟩, fun hw => ⟨hw.1, hy, hw.2⟩⟩
    · rcases List.mem_cons.mp hy with rfl | hy
      · change Function.update s.link y (some m) y ≠ none
        rw [Function.update_self]
        simp
      · exact hlinked y hy
    · exact List.nodup_cons.mpr ⟨hnot, h.nodup⟩
  · have hx' : ¬ Waits s m x := fun hw => hother m x hw rfl
    have hq := priorityQueueInsert_rearranged (Function.update s.due x t) (h.holds m)
      (h.size_pos m) hx'
    have hwaits : ∀ k y, (Function.update s.link x (some m) y = some k ∧ y ∉ s.firing) ↔
        Waits s k y ∨ (y = x ∧ k = m) := by
      intro k y
      by_cases hy : y = x
      · rw [hy, Function.update_self]
        constructor
        · rintro ⟨hk, -⟩
          exact .inr ⟨rfl, (Option.some.inj hk).symm⟩
        · rintro (hw | ⟨-, rfl⟩)
          · exact absurd rfl (hother k x hw)
          · exact ⟨rfl, hnot⟩
      · rw [hlink y hy]
        exact ⟨fun hw => .inl hw, fun hw => hw.resolve_right fun he => hy he.1⟩
    refine h.of_rearranged m (rearranged_congr hq fun y => ?_) rfl rfl (fun k hk y => ?_)
      (fun k hk y hy hm => ?_) hlinked h.nodup
    · refine (hwaits m y).trans ?_
      simp
    · refine (hwaits k y).trans ?_
      exact ⟨fun hw => hw.resolve_right fun he => hk he.2, .inl⟩
    · rcases hm with hm | hm
      · exact hk (hy.unique hm)
      · exact hother k y hy hm

theorem hltTimerUpdate_linked {s : Timers} (h : Linked s) {x : ℕ} (t : ℕ) (hx : x ∉ s.firing) :
    Linked (hltTimerUpdate s x t).1 := by
  unfold hltTimerUpdate
  split
  · exact h
  rename_i m hm
  have hw : Waits s m x := ⟨hm, hx⟩
  split
  · have hsame : ∀ q, Rearranged (s.queue m) q (Waits s m) (Waits s m) →
        ∀ due, Linked { s.setQueue m q with due := due } := by
      intro q hq due
      refine h.of_rearranged m hq rfl rfl (fun k hk y => Iff.rfl)
        (fun k hk y hy hm => hk (hy.unique hm)) h.linked h.nodup
    unfold priorityQueueChangePriority
    dsimp only
    split
    · exact hsame _ (moved_rearranged _ (h.holds m) (h.size_pos m) hw).1 _
    · exact hsame _ (moved_rearranged _ (h.holds m) (h.size_pos m) hw).2 _
  · exact h.taken .finished hw (priorityQueueRemove_rearranged s.due (h.holds m) hw)

theorem hltTimerCancel_linked {s : Timers} (h : Linked s) {m x : ℕ} (hx : Waits s m x) :
    ∃ s', hltTimerCancel s x = some s' ∧ Linked s' := by
  have hq := priorityQueueRemove_rearranged s.due (h.holds m) hx
  set q := priorityQueueRemove s.due (s.queue m) x with hqdef
  refine ⟨_, by simp only [hltTimerCancel, hx.1]; rfl, ?_⟩
  have hwaits : ∀ k y, (Function.update s.link x none y = some k ∧ y ∉ s.firing) ↔
      Waits s k y ∧ y ≠ x := by
    intro k y
    by_cases hy : y = x
    · rw [hy, Function.update_self]
      simp
    · rw [Function.update_of_ne hy]
      exact ⟨fun hw => ⟨hw, hy⟩, fun hw => hw.1⟩
  refine h.of_rearranged m (rearranged_congr hq (hwaits m)) rfl rfl (fun k hk y => ?_)
    (fun k hk y hy hm => hk (hy.unique hm)) (fun y hy => ?_) h.nodup
  · refine (hwaits k y).trans ⟨fun hy => hy.1, fun hy => ⟨hy, fun he => hk ?_⟩⟩
    exact hy.unique (he ▸ hx)
  · have hne : y ≠ x := fun he => hx.2 (he ▸ hy)
    change Function.update s.link x none y ≠ none
    rw [Function.update_of_ne hne]
    exact h.linked y hy

theorem Linked.popped {s : Timers} (h : Linked s) {m x : ℕ} (rest : Rest)
    (hx : priorityQueuePeek (s.queue m) = some x) :
    s.link x ≠ none ∧
      Linked ((s.setQueue m (priorityQueuePop s.due (s.queue m))).fire x rest) := by
  obtain ⟨hw, hq⟩ := priorityQueuePop_rearranged s.due (h.holds m) (h.size_pos m) hx
  exact ⟨by rw [hw.1]; simp, h.taken rest hw hq⟩

theorem advanceLoop_linked {s : Timers} (h : Linked s) (m t fuel : ℕ) :
    Linked (advanceLoop m t fuel s) := by
  cases fuel with
  | zero => exact h
  | succ fuel =>
    unfold advanceLoop
    split
    · exact h
    · rename_i x hx
      obtain ⟨hne, hpop⟩ := h.popped (.advance m t) hx
      split
      · exact h
      · -- a timer in the queue has a manager, so it is fired
        dsimp only
        rw [if_neg (show ¬ (s.setQueue m _).link x = none from hne)]
        exact hpop

theorem expireLoop_linked {s : Timers} (h : Linked s) (m fuel : ℕ) :
    Linked (expireLoop m true fuel s) := by
  cases fuel with
  | zero => exact h
  | succ fuel =>
    unfold expireLoop
    split
    · exact h
    · rename_i x hx
      obtain ⟨hne, hpop⟩ := h.popped (.expire m) hx
      dsimp only
      rw [if_pos ⟨rfl, show ¬ (s.setQueue m _).link x = none from hne⟩]
      exact hpop

theorem callbackReturns_linked {s s' : Timers} (h : Linked s) (hret : callbackReturns s = some s') :
    Linked s' := by
  unfold callbackReturns at hret
  split at hret
  · cases hret
  rename_i x rest calls hcalls
  have hfiring : s.firing = x :: calls.map Prod.fst := by
    unfold Timers.firing
    rw [hcalls]
    rfl
  have hnodup := h.nodup
  rw [hfiring, List.nodup_cons] at hnodup
  have hdone : Linked { s with link := Function.update s.link x none, calls := calls } := by
    refine h.of_same rfl rfl (fun m y => ?_) (fun y hy => ?_) hnodup.2
    · change Function.update s.link x none y = some m ∧ y ∉ calls.map Prod.fst ↔
        s.link y = some m ∧ y ∉ s.firing
      rw [hfiring]
      by_cases hy : y = x
      · rw [hy, Function.update_self]
        simp
      · rw [Function.update_of_ne hy, List.mem_cons, not_or]
        exact ⟨fun hw => ⟨hw.1, hy, hw.2⟩, fun hw => ⟨hw.1, hw.2.2⟩⟩
    · have hne : y ≠ x := fun he => hnodup.1 (he ▸ hy)
      change Function.update s.link x none y ≠ none
      rw [Function.update_of_ne hne]
      refine h.linked y ?_
      rw [hfiring]
      exact List.mem_cons_of_mem _ hy
  dsimp only at hret
  split at hret <;> cases hret
  · exact hdone
  · exact advanceLoop_linked hdone _ _ _
  · exact expireLoop_linked hdone _ _

/-! ## Runs -/

/-- A timer is neither updated nor cancelled while its callback runs, only timers that have a manager
are cancelled, and no manager with timers in its queue expires without firing them. -/
def Meets (s : Timers) : Op → Prop
  | .update x _ => x ∉ s.firing
  | .cancel x => s.link x ≠ none ∧ x ∉ s.firing
  | .expire m fire => fire = true ∨ (s.slots m).size = 1
  | _ => True

instance (s : Timers) : (op : Op) → Decidable (Meets s op)
  | .schedule _ _ _ => isTrue trivial
  | .update x _ => inferInstanceAs (Decidable (x ∉ s.firing))
  | .cancel x => inferInstanceAs (Decidable (s.link x ≠ none ∧ x ∉ s.firing))
  | .advance _ _ => isTrue trivial
  | .expire m fire => inferInstanceAs (Decidable (fire = true ∨ (s.slots m).size = 1))
  | .callbackReturns => isTrue trivial

theorem next_linked {s s' : Timers} {op : Op} (h : Linked s) (hmeets : Meets s op)
    (hnext : next s op = some s') : Linked s' := by
  cases op with
  | schedule m t x =>
    cases hnext
    exact hltTimerMgrSchedule_linked h m t x
  | update x t =>
    cases hnext
    exact hltTimerUpdate_linked h t hmeets
  | cancel x =>
    obtain ⟨m, hm⟩ := Option.ne_none_iff_exists'.mp hmeets.1
    obtain ⟨s₁, hcancel, hlinked⟩ := hltTimerCancel_linked h ⟨hm, hmeets.2⟩
    cases hcancel.symm.trans hnext
    exact hlinked
  | advance m t =>
    cases hnext
    refine advanceLoop_linked ?_ m t _
    exact h.of_same rfl rfl (fun _ _ => Iff.rfl) h.linked h.nodup
  | expire m fire =>
    cases hnext
    rcases hmeets with rfl | hempty
    · exact expireLoop_linked h m _
    · have hsame : hltTimerMgrExpire s m fire = s := by
        unfold hltTimerMgrExpire
        rw [hempty]
        simp [expireLoop, priorityQueuePeek, Timers.queue, hempty]
      rw [hsame]
      exact h
  | callbackReturns => exact callbackReturns_linked h hnext

theorem run_linked {ops : List Op} {s s' : Timers} (hrun : machine.run s ops = some s')
    (h : Linked s) (hops : machine.Along Meets s ops) : Linked s' :=
  Machine.run_keeps (P := Linked) (fun _ _ _ h hop hnext => next_linked h hop hnext) hrun h hops

theorem Linked.link_ne_none_iff {s : Timers} (h : Linked s) {x : ℕ} (hx : x ∉ s.firing) :
    s.link x ≠ none ↔ ∃ m, Queued s m x := by
  rw [Option.ne_none_iff_exists']
  exact exists_congr ((h.linkExact_iff x).mpr hx)

theorem hltTimerMgrSchedule_raises_iff (s : Timers) (m t x : ℕ) :
    (hltTimerMgrSchedule s m t x).2 = some .timerAlreadyScheduled ↔ s.link x ≠ none := by
  unfold hltTimerMgrSchedule
  split
  · rename_i hx
    exact ⟨fun _ => hx, fun _ => rfl⟩
  · rename_i hx
    refine ⟨fun h => ?_, fun h => absurd h hx⟩
    dsimp only at h
    split at h <;> cases h

theorem hltTimerUpdate_raises_iff (s : Timers) (x t : ℕ) :
    (hltTimerUpdate s x t).2 = none ↔ s.link x ≠ none := by
  unfold hltTimerUpdate
  split
  · rename_i hx
    simp [hx]
  · rename_i m hm
    split <;> simp [hm]

theorem hltTimerUpdate_of_none {s : Timers} {x : ℕ} (t : ℕ) (hx : s.link x = none) :
    hltTimerUpdate s x t = (s, some .timerNotScheduled) := by
  simp only [hltTimerUpdate, hx]

theorem hltTimerCancel_isSome_iff (s : Timers) (x : ℕ) :
    (hltTimerCancel s x).isSome ↔ s.link x ≠ none := by
  unfold hltTimerCancel
  split
  · rename_i hx
    simp [hx]
  · rename_i m hm
    simp [hm]

/-- Timers that are fired by time and by expiration, one of them updated from the callback of
another. -/
def linksRun : List Op :=
  [.schedule 0 5 1, .schedule 0 7 2, .advance 0 6, .schedule 1 9 3, .update 2 20, .callbackReturns,
    .cancel 3, .expire 0 true, .callbackReturns, .expire 0 false, .schedule 0 30 1]

end Hilti.TimerMgr.Calls
