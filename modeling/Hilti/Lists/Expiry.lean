import Hilti.Lists.Removal

/-!
# Accesses and expiry

An access puts the deadline of its node off, and advancing a timer manager takes out the nodes that
are due, and no others.  An access must not put a timer ahead of its parent in the heap:
`hlt_timer_update` stores the new time before it has the queue compare it with the old one.
-/

namespace Hilti.Lists

open Hilti.Lib
open Hilti.TimerMgr (priorityQueuePeek priorityQueuePop priorityQueuePop_heapOf
  priorityQueuePeek_eq_none)

set_option autoImplicit false

variable {α : Type}

theorem ListOk.entry_eq {timers : ℕ → Option Timer} {n : ℕ} {l : HltList α} (h : ListOk timers n l)
    {e f : ℕ × Node α} (he : e ∈ l.entries) (hf : f ∈ l.entries) (heq : e.1 = f.1) : e = f :=
  List.inj_on_of_nodup_map h.cells.nodup he hf heq

theorem Spec.setSeq_self {S : Spec α} {n : ℕ} {A : Sequence α} (hA : S.seqs n = some A) :
    S.setSeq n A = S := by
  rw [Spec.setSeq, ← hA, Function.update_eq_self]

/-! ## Accesses -/

/-- An access puts the timer of the node off to a time that does not overflow, and that is not
below that of its parent in the heap. -/
def accessFits (w : World α) (n a : ℕ) : Bool :=
  (w.lists n).all fun l => l.strategy ≠ some .access || l.timeout = 0 ||
    l.tmgr.all fun m => (w.mgrs m).all fun M => (l.cells.heap a).all fun c => c.val.timer.all fun x =>
      M.time + l.timeout < 2 ^ 64 && (M.queue.pos x ≤ 1 ||
        timeOf w.timers (M.queue.d (M.queue.pos x / 2)) ≤ M.time + l.timeout)

theorem spec_access_self {w : World α} {n a : ℕ} {l : HltList α} (hl : w.lists n = some l)
    (hnone : ∀ e ∈ l.entries, e.1 = a → e.2.timer = none) :
    (specOf w).access n a = some (specOf w) := by
  rw [Spec.access, Good.spec_seqs hl]
  dsimp only [Option.bind_eq_bind, Option.bind_some]
  split
  · rfl
  · have hitems : (seqOf w.timers l).items.map (fun it => if it.id = a then
          { it with deadline := it.deadline.bind fun _ => (specOf w).deadline (seqOf w.timers l) }
        else it) = (seqOf w.timers l).items := by
      rw [seqOf, List.map_map]
      refine List.map_congr_left fun e he => ?_
      rw [Function.comp_apply]
      split
      · rename_i hid
        simp [itemOf, hnone e he hid]
      · rfl
    rw [hitems]
    exact congrArg some (Spec.setSeq_self (Good.spec_seqs hl))

theorem access_off {w : World α} {n a : ℕ} {l : HltList α} (hl : w.lists n = some l)
    (hoff : l.tmgr = none ∨ l.strategy ≠ some .access ∨ l.timeout = 0) :
    access w n a = some (w, none) ∧ (specOf w).access n a = some (specOf w) := by
  refine ⟨?_, ?_⟩
  · cases hm : l.tmgr with
    | none => simp [access, hl, hm]
    | some m =>
      have hoff := hoff.resolve_left fun he => nomatch hm.symm.trans he
      simp [access, hl, hm, hoff]
  · rw [Spec.access, Good.spec_seqs hl]
    exact if_pos hoff

def putOff (timers : ℕ → Option Timer) (x : ℕ) (t : Timer) (time : ℕ) : ℕ → Option Timer :=
  Function.update timers x (some { t with time := time })

theorem putOff_self (timers : ℕ → Option Timer) (x : ℕ) (t : Timer) (time : ℕ) :
    putOff timers x t time x = some { t with time := time } := Function.update_self _ _ _

theorem putOff_ne (timers : ℕ → Option Timer) {x y : ℕ} (t : Timer) (time : ℕ) (hy : y ≠ x) :
    putOff timers x t time y = timers y := Function.update_of_ne hy _ _

theorem Good.retimed {w : World α} (h : Good w) {n a x m time : ℕ} {l : HltList α} {v : Node α}
    {t : Timer} {M : Mgr} (hl : w.lists n = some l) (hmem : (a, v) ∈ l.entries)
    (hx : v.timer = some x) (ht : w.timers x = some t) (hM : w.mgrs m = some M) {q : IndexedHeap ℕ}
    (hqueued : Queued (putOff w.timers x t time) (Function.update w.mgrs m (some ⟨M.time, q⟩))) :
    Good { w with
      timers := putOff w.timers x t time
      mgrs := Function.update w.mgrs m (some ⟨M.time, q⟩) } ∧
    specOf { w with
      timers := putOff w.timers x t time
      mgrs := Function.update w.mgrs m (some ⟨M.time, q⟩) } = (specOf w).setSeq n
        { seqOf w.timers l with items := (seqOf w.timers l).items.map fun it => if it.id = a then
            { it with deadline := it.deadline.bind fun _ => some time } else it } := by
  have hok := h.lists n l hl
  obtain ⟨t', m', ht', hm', htm, hlist, hnode⟩ := hok.timer _ hmem x hx
  cases ht.symm.trans ht'
  have hself := putOff_self w.timers x t time
  have hok' : ListOk (putOff w.timers x t time) n l := by
    refine ⟨hok.cells, hok.size, hok.valid, fun e he y hy => ?_, hok.gone, hok.timeout⟩
    by_cases hyx : y = x
    · subst hyx
      obtain ⟨t', m', ht', hm'', hrest⟩ := hok.timer e he y hy
      cases ht.symm.trans ht'
      exact ⟨_, m', hself, hm'', hrest⟩
    · rw [putOff_ne w.timers t time hyx]
      exact hok.timer e he y hy
  have hitems : l.entries.map (itemOf (putOff w.timers x t time)) =
      (l.entries.map (itemOf w.timers)).map fun it => if it.id = a then
        { it with deadline := it.deadline.bind fun _ => some time } else it := by
    rw [List.map_map]
    refine List.map_congr_left fun e he => ?_
    rw [Function.comp_apply]
    split
    · rename_i hid
      rw [hok.entry_eq he hmem hid]
      simp [itemOf, hx, timeOf_eq hself]
    · rename_i hid
      cases hy : e.2.timer with
      | none => simp [itemOf, hy]
      | some y =>
        obtain ⟨u, -, hu, -, -, -, hnode'⟩ := hok.timer e he y hy
        have hyx : y ≠ x := by
          rintro rfl
          cases ht.symm.trans hu
          exact hid (hnode'.symm.trans hnode)
        have htime : timeOf (putOff w.timers x t time) y = timeOf w.timers y := by
          rw [putOff, timeOf_update, Function.update_of_ne hyx]
        simp [itemOf, hy, htime]
  obtain ⟨hgood, hspec⟩ := h.update { w with
      timers := putOff w.timers x t time
      mgrs := Function.update w.mgrs m (some ⟨M.time, q⟩) }
    (h.list_lt hl) (hl ▸ (Function.update_eq_self n w.lists).symm) rfl rfl hqueued
    (times_setQueue hM q)
    hok' (fun k hk => h.managed n l k hl hk)
    (fun y u hu => by
      by_cases hyx : y = x
      · subst hyx
        refine iff_of_false (fun he => ?_) fun he => ?_
        · cases hself.symm.trans he
          exact hu hlist
        · cases ht.symm.trans he
          exact hu hlist
      · exact iff_of_eq (congrArg (· = some u) (putOff_ne w.timers t time hyx)))
    (fun y u k hu hk hul => by
      by_cases hyx : y = x
      · subst hyx
        cases hself.symm.trans hu
        exact ⟨v, hnode ▸ hmem, hx⟩
      · exact h.owner hl ((putOff_ne w.timers t time hyx).symm.trans hu) hk hul)
    (fun y u hu => by
      by_cases hyx : y = x
      · exact hyx ▸ h.timerCount x t ht
      · exact h.timerCount y u ((putOff_ne w.timers t time hyx).symm.trans hu))
  refine ⟨hgood, hspec.trans (congrArg _ ?_)⟩
  rw [seqOf, hitems]
  rfl

theorem timerUpdate_eq {w : World α} {x m time : ℕ} {t : Timer} {M : Mgr}
    (ht : w.timers x = some t) (hm : t.mgr = some m) (hM : w.mgrs m = some M) (hlt : M.time < time) :
    timerUpdate w x time = some ({ w with
      timers := putOff w.timers x t time
      mgrs := Function.update w.mgrs m (some ⟨M.time, M.queue.percolateDown
        (timeOf (putOff w.timers x t time)) (M.queue.pos x)⟩) }, none) := by
  obtain ⟨_, time₀, list, node⟩ := t
  cases hm
  have hself : (w.setTimer x ⟨some m, time, list, node⟩).timers x = some ⟨some m, time, list, node⟩ :=
    Function.update_self _ _ _
  have hmgrs : (w.setTimer x ⟨some m, time, list, node⟩).mgrs m = some M := hM
  have hchange : priorityQueueChangePriority (w.setTimer x ⟨some m, time, list, node⟩) m time x =
      some { w with
        timers := putOff w.timers x ⟨some m, time₀, list, node⟩ time
        mgrs := Function.update w.mgrs m (some ⟨M.time, M.queue.percolateDown
          (timeOf (putOff w.timers x ⟨some m, time₀, list, node⟩ time)) (M.queue.pos x)⟩) } := by
    rw [priorityQueueChangePriority, hself, hmgrs]
    dsimp only [Option.bind_eq_bind, Option.bind_some]
    rw [timeOf_eq hself, if_neg (lt_irrefl time)]
    simp [World.setTimer, World.setMgr, putOff]
  simp [timerUpdate, ht, hM, hlt, hchange]

theorem access_good {w : World α} (h : Good w) {n a : ℕ} {l : HltList α} (hl : w.lists n = some l)
    (ha : a < l.cells.fresh) (hfits : accessFits w n a = true) :
    ∃ w', access w n a = some (w', none) ∧ Good w' ∧ (specOf w).access n a = some (specOf w') ∧
      w'.lists = w.lists := by
  have hok := h.lists n l hl
  by_cases hoff : l.tmgr = none ∨ l.strategy ≠ some .access ∨ l.timeout = 0
  · obtain ⟨hrun, hspec⟩ := access_off hl (a := a) hoff
    exact ⟨w, hrun, h, hspec, rfl⟩
  · have hon := hoff
    rw [not_or, not_or, not_not] at hoff
    obtain ⟨hm, hstrategy, hne⟩ := hoff
    obtain ⟨m, hm⟩ := Option.ne_none_iff_exists'.mp hm
    obtain ⟨M, hM⟩ := Option.isSome_iff_exists.mp (h.managed n l m hl hm)
    cases hok.known ha with
    | inr hgone =>
      obtain ⟨d, hd, hnew⟩ := hgone
      refine ⟨w, ?_, h, spec_access_self hl fun e he hid => ?_, rfl⟩
      · simp [access, hl, hm, hstrategy, hne, hd]
      · exact (hnew (List.mem_map.mpr ⟨e, he, hid⟩)).elim
    | inl hlinked =>
      obtain ⟨l₁, v, l₂, hsplit⟩ := hlinked
      have hmem : (a, v) ∈ l.entries := by simp [hsplit]
      have hheap := (hsplit ▸ hok.cells).heap_eq
      cases hx : v.timer with
      | none =>
        refine ⟨w, ?_, h, spec_access_self hl fun e he hid => ?_, rfl⟩
        · simp [access, hl, hm, hstrategy, hne, hheap, hx]
        · rw [hok.entry_eq he hmem hid]
          exact hx
      | some x =>
        obtain ⟨t, m', ht, hm', htm, -⟩ := hok.timer _ hmem x hx
        cases hm.symm.trans htm
        have hboth : M.time + l.timeout < 2 ^ 64 ∧ (M.queue.pos x ≤ 1 ∨
            timeOf w.timers (M.queue.d (M.queue.pos x / 2)) ≤ M.time + l.timeout) := by
          simpa [accessFits, hl, hstrategy, hne, hm, hM, hheap, hx] using hfits
        obtain ⟨hlt, hpar⟩ := hboth
        obtain ⟨hgood, hspec⟩ := h.retimed hl hmem hx ht hM
          (h.queued.rekey hM ht hm' (d := M.time + l.timeout) fun hpos =>
            hpar.resolve_left (not_le.mpr hpos))
        have hupdate := timerUpdate_eq ht hm' hM (show M.time < M.time + l.timeout by omega)
        have hdeadline : (specOf w).deadline (seqOf w.timers l) = some (M.time + l.timeout) :=
          (spec_deadline hm hM).trans (later_fits hne hlt)
        refine ⟨_, ?_, hgood, ?_, rfl⟩
        · simp only [access, hl, hm, hstrategy, hne, hheap, hx, deadline, hM, Nat.mod_eq_of_lt hlt,
            hupdate, Option.bind_eq_bind, Option.bind_some, ne_eq, not_true_eq_false, or_self, if_false]
          rfl
        · rw [hspec, Spec.access, Good.spec_seqs hl]
          dsimp only [Option.bind_eq_bind, Option.bind_some]
          rw [hdeadline]
          exact if_neg hon

/-! ## Expiry -/

theorem spec_expire_self {w : World α} (h : Good w) {m : ℕ} {limit : Option ℕ}
    (hlater : ∀ x, Waits w.timers m x → limit.any (timeOf w.timers x > ·) = true) :
    (specOf w).expire m limit = specOf w := by
  have hseqs : (fun n => ((specOf w).seqs n).map fun A => if A.tmgr = some m then
      { A with items := A.items.filter fun it => ! it.due limit } else A) = (specOf w).seqs := by
    funext n
    cases hl : w.lists n with
    | none => simp [specOf, hl]
    | some l =>
      rw [Good.spec_seqs hl, Option.map_some]
      refine congrArg some ?_
      split
      · rename_i hm
        have hfilter : (seqOf w.timers l).items.filter (fun it => ! it.due limit) =
            (seqOf w.timers l).items := by
          refine List.filter_eq_self.mpr fun it hit => ?_
          obtain ⟨e, he, rfl⟩ := List.mem_map.mp hit
          cases hx : e.2.timer with
          | none => simp [itemOf, Item.due, hx]
          | some x =>
            obtain ⟨t, m', ht, hm', htm, -⟩ := (h.lists n l hl).timer e he x hx
            cases (show l.tmgr = some m from hm).symm.trans htm
            have hgt := hlater x ⟨t, ht, hm'⟩
            cases limit with
            | none => cases hgt
            | some d => simpa [itemOf, Item.due, hx] using hgt
        rw [hfilter]
      · rfl
  rw [Spec.expire, hseqs]

theorem spec_expire_setSeq {S : Spec α} {n m a : ℕ} {limit : Option ℕ} {A : Sequence α}
    (hA : S.seqs n = some A) (hm : A.tmgr = some m)
    (hdue : ∀ it ∈ A.items, it.id = a → it.due limit = true) :
    (S.setSeq n { A with items := A.items.filter fun it => it.id ≠ a }).expire m limit =
      S.expire m limit := by
  have hfilter : (A.items.filter fun it => it.id ≠ a).filter (fun it => ! it.due limit) =
      A.items.filter fun it => ! it.due limit := by
    rw [List.filter_filter]
    refine List.filter_congr fun it hit => ?_
    by_cases hid : it.id = a
    · simp [hid, hdue it hit hid]
    · simp [hid]
  rw [Spec.expire, Spec.expire]
  refine congrArg (fun seqs => ({ S with seqs := seqs } : Spec α)) (funext fun k => ?_)
  by_cases hk : k = n
  · subst hk
    simp only [Spec.setSeq, Function.update_self, hA, Option.map_some, hm, if_true, hfilter]
  · simp only [Spec.setSeq, Function.update_of_ne hk]

theorem advanceLoop_good (m : ℕ) (limit : Option ℕ) (fuel : ℕ) {w : World α} (h : Good w) {M : Mgr}
    (hM : w.mgrs m = some M) (hfuel : M.queue.size ≤ fuel) :
    ∃ w', advanceLoop m limit fuel w = some w' ∧ Good w' ∧
      specOf w' = (specOf w).expire m limit := by
  induction fuel generalizing w M with
  | zero =>
    have := (h.queued m M hM).size_pos
    omega
  | succ fuel ih =>
    have hheap := h.queued m M hM
    cases hpeek : priorityQueuePeek M.queue with
    | none =>
      refine ⟨w, by simp [advanceLoop, hM, hpeek], h, (spec_expire_self h fun x hx => ?_).symm⟩
      exact (priorityQueuePeek_eq_none hheap hpeek x hx).elim
    | some x =>
      obtain ⟨⟨t, ht, hm⟩, hmin, hpop, hsize⟩ := priorityQueuePop_heapOf hheap hpeek
      by_cases hlater : limit.any (timeOf w.timers x > ·) = true
      · refine ⟨w, by simp [advanceLoop, hM, hpeek, hlater], h,
          (spec_expire_self h fun y hy => ?_).symm⟩
        cases limit with
        | none => cases hlater
        | some d =>
          have hxd : d < timeOf w.timers x := by simpa using hlater
          simpa using hxd.trans_le (hmin y hy)
      · obtain ⟨w₁, l, v, hfire, hgood, hmgrs, hl, hv, hx, htm, hspec⟩ :=
          timerFire_good h ht hm hM hpop
        have hself : w₁.mgrs m =
            some { M with queue := priorityQueuePop (timeOf w.timers) M.queue } := by
          rw [hmgrs, Function.update_self]
        obtain ⟨w', hrun, hgood', hspec'⟩ := ih hgood hself (by dsimp only; omega)
        refine ⟨w', by simp [advanceLoop, hM, hpeek, hlater, hfire, hrun], hgood', ?_⟩
        rw [hspec', hspec]
        refine spec_expire_setSeq (Good.spec_seqs hl) htm fun it hit hid => ?_
        obtain ⟨e, he, rfl⟩ := List.mem_map.mp hit
        rw [(h.lists _ l hl).entry_eq he hv hid]
        cases limit with
        | none => simp [itemOf, Item.due, hx]
        | some d => simpa [itemOf, Item.due, hx] using hlater

theorem Good.setTime {w : World α} (h : Good w) {m time : ℕ} {M : Mgr} (hM : w.mgrs m = some M)
    (htime : time < 2 ^ 64) :
    Good (w.setMgr m { M with time := time }) ∧ specOf (w.setMgr m { M with time := time }) =
      { specOf w with times := Function.update (specOf w).times m (some time) } := by
  have hself : (w.setMgr m { M with time := time }).mgrs m = some { M with time := time } :=
    Function.update_self _ _ _
  have hne : ∀ k, k ≠ m → (w.setMgr m { M with time := time }).mgrs k = w.mgrs k :=
    fun k hk => Function.update_of_ne hk _ _
  have hsome : ∀ k, ((w.setMgr m { M with time := time }).mgrs k).isSome = (w.mgrs k).isSome := by
    intro k
    by_cases hk : k = m
    · rw [hk, hself, hM]
      rfl
    · rw [hne k hk]
  refine ⟨⟨h.lists, fun n l k hl hk => ?_, h.owned, fun k K hK => ?_, fun k K hK => ?_, h.timerCount,
    h.listCount, fun k hk => ?_, (hsome _).trans h.main⟩, ?_⟩
  · rw [hsome]
    exact h.managed n l k hl hk
  · by_cases hk : k = m
    · subst hk
      cases hself.symm.trans hK
      exact h.queued k M hM
    · exact h.queued k K ((hne k hk).symm.trans hK)
  · by_cases hk : k = m
    · subst hk
      cases hself.symm.trans hK
      exact htime
    · exact h.times k K ((hne k hk).symm.trans hK)
  · have hnone := hsome k
    rw [h.mgrCount k hk] at hnone
    exact Option.isNone_iff_eq_none.mp (by simpa using hnone)
  · rw [specOf, specOf]
    refine congrArg (fun times => (⟨_, times, _, _⟩ : Spec α)) (funext fun k => ?_)
    by_cases hk : k = m
    · subst hk
      rw [hself, Function.update_self]
      rfl
    · rw [hne k hk, Function.update_of_ne hk]

end Hilti.Lists
