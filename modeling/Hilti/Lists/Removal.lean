import Hilti.Lists.Nodes

/-!
# Nodes are taken out

Unlinking keeps the lists well formed wherever the node is, whether an operation does it or a timer
that fires, and with timers that have been taken out of their queue by then.
-/

namespace Hilti.Lists

open Hilti.Lib
open Hilti.TimerMgr (HeapOf priorityQueueRemove priorityQueueRemove_heapOf)

set_option autoImplicit false

variable {α : Type}

/-! ## Unlinking -/

theorem ListOk.unlink {timers : ℕ → Option Timer} {n : ℕ} {l : HltList α} (h : ListOk timers n l)
    {l₁ l₂ : List (ℕ × Node α)} {a : ℕ} {v : Node α} (hl : l.entries = l₁ ++ (a, v) :: l₂) :
    ∃ c cells₁ cells, l.cells.heap a = some c ∧ c.val = v ∧ l.cells.remove a = some cells₁ ∧
      cells₁.setVal a { v with timer := none, invalid := true } = some cells ∧
      cells.Represents (l₁ ++ l₂) ∧ cells.fresh = l.cells.fresh ∧
      ∀ b, b < l.cells.fresh → b ∉ (l₁ ++ l₂).map Prod.fst →
        ∃ d, cells.heap b = some ⟨none, none, ⟨none, true, d⟩⟩ := by
  have hcells := h.cells
  rw [hl] at hcells
  obtain ⟨cells₁, hremove, hrep, hfresh, hheap, hframe⟩ := hcells.remove
  have hnew : a ∉ (l₁ ++ l₂).map Prod.fst := by
    have hnodup := hcells.nodup
    rw [List.map_append, List.map_cons, List.nodup_middle, ← List.map_append] at hnodup
    exact (List.nodup_cons.mp hnodup).1
  refine ⟨_, cells₁, cells₁.write a ⟨none, none, { v with timer := none, invalid := true }⟩,
    hcells.heap_eq, rfl, hremove, by simp [LinkedList.setVal, hheap],
    hrep.of_heap rfl rfl rfl fun b hb => ?_, hfresh, fun b hb hmem => ?_⟩
  · exact Function.update_of_ne (fun he : b = a => hnew (he ▸ hb)) _ _
  · by_cases hba : b = a
    · subst hba
      exact ⟨v.data, Function.update_self _ _ _⟩
    · have hold : b ∉ l.entries.map Prod.fst := by
        rw [List.map_append, List.mem_append, not_or] at hmem
        rw [hl, List.map_append, List.map_cons, List.mem_append, List.mem_cons, not_or, not_or]
        exact ⟨hmem.1, hba, hmem.2⟩
      obtain ⟨d, hd⟩ := h.gone b hb hold
      refine ⟨d, ?_⟩
      change Function.update cells₁.heap a _ b = _
      rw [Function.update_of_ne hba, hframe b (hl ▸ hold), hd]

theorem ListOk.unlinked {timers : ℕ → Option Timer} {n : ℕ} {l : HltList α}
    (h : ListOk timers n l) (timers' : ℕ → Option Timer) {l₁ l₂ : List (ℕ × Node α)} {a : ℕ} {v : Node α}
    (hl : l.entries = l₁ ++ (a, v) :: l₂) {cells : LinkedList (Node α)}
    (hrep : cells.Represents (l₁ ++ l₂)) (hfresh : cells.fresh = l.cells.fresh)
    (hgone : ∀ b, b < l.cells.fresh → b ∉ (l₁ ++ l₂).map Prod.fst →
      ∃ d, cells.heap b = some ⟨none, none, ⟨none, true, d⟩⟩)
    (hkept : ∀ x t, timers x = some t → t.node ≠ a → timers' x = some t) :
    ListOk timers' n { l with cells := cells, size := l.size - 1 } ∧
      seqOf timers' { l with cells := cells, size := l.size - 1 } =
        { seqOf timers l with items := (seqOf timers l).items.filter fun it => it.id ≠ a } := by
  have hentries : cells.entries = l₁ ++ l₂ := hrep.entries_eq
  have hmem : ∀ e ∈ l₁ ++ l₂, e ∈ l.entries := by
    intro e he
    rw [hl]
    rw [List.mem_append] at he ⊢
    exact he.imp_right (List.mem_cons_of_mem _)
  have hne : ∀ e ∈ l₁ ++ l₂, e.1 ≠ a := by
    have hnodup := h.cells.nodup
    rw [hl, List.map_append, List.map_cons, List.nodup_middle, ← List.map_append] at hnodup
    exact fun e he heq => (List.nodup_cons.mp hnodup).1 (List.mem_map.mpr ⟨e, he, heq⟩)
  have htimer : ∀ e ∈ l₁ ++ l₂, ∀ x, e.2.timer = some x → ∃ t m, timers x = some t ∧
      timers' x = some t ∧ t.mgr = some m ∧ l.tmgr = some m ∧ t.list = n ∧ t.node = e.1 := by
    intro e he x hx
    obtain ⟨t, m, ht, hm, htm, hlist, hnode⟩ := h.timer e (hmem e he) x hx
    exact ⟨t, m, ht, hkept x t ht (hnode ▸ hne e he), hm, htm, hlist, hnode⟩
  refine ⟨⟨?_, ?_, fun e he => ?_, fun e he x hx => ?_, fun b hb hnew => ?_, h.timeout⟩, ?_⟩
  · change cells.Represents cells.entries
    rw [hentries]
    exact hrep
  · change l.size - 1 = (cells.entries.length : ℤ)
    rw [hentries, h.size, hl]
    simp only [List.length_append, List.length_cons]
    omega
  · exact h.valid e (hmem e (hentries ▸ he))
  · obtain ⟨t, m, -, ht, hrest⟩ := htimer e (hentries ▸ he) x hx
    exact ⟨t, m, ht, hrest⟩
  · change b ∉ cells.entries.map Prod.fst at hnew
    rw [hentries] at hnew
    exact hgone b (hfresh ▸ hb) hnew
  · have hitems : (l₁ ++ l₂).map (itemOf timers') = (l₁ ++ l₂).map (itemOf timers) := by
      refine List.map_congr_left fun e he => ?_
      cases hx : e.2.timer with
      | none => simp [itemOf, hx]
      | some x =>
        obtain ⟨t, -, ht, ht', -⟩ := htimer e he x hx
        simp [itemOf, hx, timeOf_eq ht, timeOf_eq ht']
    have hfilter : (l.entries.map (itemOf timers)).filter (fun it => it.id ≠ a) =
        (l₁ ++ l₂).map (itemOf timers) := by
      have hkeep : ∀ k : List (ℕ × Node α), (∀ e ∈ k, e ∈ l₁ ++ l₂) →
          (k.map (itemOf timers)).filter (fun it => it.id ≠ a) = k.map (itemOf timers) := by
        intro k hk
        refine List.filter_eq_self.mpr fun it hit => ?_
        obtain ⟨e, he, rfl⟩ := List.mem_map.mp hit
        exact decide_eq_true (hne e (hk e he))
      rw [hl, List.map_append, List.map_cons, List.filter_append, List.filter_cons_of_neg,
        hkeep l₁ fun e he => List.mem_append_left _ he,
        hkeep l₂ fun e he => List.mem_append_right _ he, List.map_append]
      simp [itemOf]
    change Sequence.mk (cells.entries.map (itemOf timers')) cells.fresh _ _ _ = _
    rw [hentries, hitems, hfresh, ← hfilter]
    rfl

theorem Good.unlinked {w : World α} (h : Good w) (w' : World α) {n : ℕ} {l : HltList α}
    (hl : w.lists n = some l) {l₁ l₂ : List (ℕ × Node α)} {a : ℕ} {v : Node α}
    (hsplit : l.entries = l₁ ++ (a, v) :: l₂) {cells : LinkedList (Node α)}
    (hrep : cells.Represents (l₁ ++ l₂)) (hfresh : cells.fresh = l.cells.fresh)
    (hgone : ∀ b, b < l.cells.fresh → b ∉ (l₁ ++ l₂).map Prod.fst →
      ∃ d, cells.heap b = some ⟨none, none, ⟨none, true, d⟩⟩)
    (hlists : w'.lists =
      Function.update w.lists n (some { l with cells := cells, size := l.size - 1 }))
    (hlc : w'.listCount = w.listCount) (hmc : w'.mgrCount = w.mgrCount)
    (htc : w'.timerCount = w.timerCount) (hqueued : Queued w'.timers w'.mgrs)
    (htimes : ∀ m, (w'.mgrs m).map Mgr.time = (w.mgrs m).map Mgr.time)
    (hkept : ∀ x, v.timer ≠ some x → w'.timers x = w.timers x)
    (hclear : ∀ x, v.timer = some x → ∃ t, w'.timers x = some t ∧ t.mgr = none ∧ t.list = n) :
    Good w' ∧ specOf w' = (specOf w).setSeq n { seqOf w.timers l with
      items := (seqOf w.timers l).items.filter fun it => it.id ≠ a } := by
  have hok := h.lists n l hl
  have hmem : (a, v) ∈ l.entries := by
    rw [hsplit]
    exact List.mem_append_right _ List.mem_cons_self
  obtain ⟨hok', hseq⟩ := hok.unlinked w'.timers hsplit hrep hfresh hgone
    fun x t ht hnode => by
      rw [hkept x fun hx => ?_, ht]
      obtain ⟨t', m, ht', -, -, -, hnode'⟩ := hok.timer _ hmem x hx
      cases ht.symm.trans ht'
      exact hnode hnode'
  rw [← hseq]
  refine h.update w' (h.list_lt hl) hlists hlc hmc hqueued htimes hok'
    (fun m hm => h.managed n l m hl hm) (fun x t hlist => ?_) (fun x t m ht hm hlist => ?_)
    fun x t ht => ?_
  · by_cases hx : v.timer = some x
    · obtain ⟨t₁, ht₁, -, hlist₁⟩ := hclear x hx
      obtain ⟨t₂, -, ht₂, -, -, hlist₂, -⟩ := hok.timer _ hmem x hx
      rw [ht₁, ht₂]
      refine iff_of_false (fun he => ?_) fun he => ?_
      · cases he
        exact hlist hlist₁
      · cases he
        exact hlist hlist₂
    · rw [hkept x hx]
  · have hx : v.timer ≠ some x := by
      intro hx
      obtain ⟨t', ht', hnone, -⟩ := hclear x hx
      cases ht.symm.trans ht'
      cases hm.symm.trans hnone
    rw [hkept x hx] at ht
    obtain ⟨v', hv', hx'⟩ := h.owner hl ht hm hlist
    refine ⟨v', ?_, hx'⟩
    change _ ∈ cells.entries
    rw [hrep.entries_eq]
    rw [hsplit, List.mem_append, List.mem_cons] at hv'
    rw [List.mem_append]
    refine hv'.imp_right fun hv' => hv'.resolve_left fun he => ?_
    cases he
    exact hx hx'
  · rw [htc]
    by_cases hx : v.timer = some x
    · obtain ⟨t', -, ht', -⟩ := hok.timer _ hmem x hx
      exact h.timerCount x t' ht'
    · exact h.timerCount x t (hkept x hx ▸ ht)

theorem unlink_good {w : World α} (h : Good w) {n : ℕ} {l : HltList α} (hl : w.lists n = some l)
    {l₁ l₂ : List (ℕ × Node α)} {a : ℕ} {v : Node α} (hsplit : l.entries = l₁ ++ (a, v) :: l₂) :
    ∃ w', unlink w n a true = some w' ∧ Good w' ∧ (specOf w).remove n a = some (specOf w') := by
  have hok := h.lists n l hl
  obtain ⟨c, cells₁, cells, hc, hv, hremove, hset, hrep, hfresh, hgone⟩ := hok.unlink hsplit
  have hspec : (specOf w).remove n a = some ((specOf w).setSeq n { seqOf w.timers l with
      items := (seqOf w.timers l).items.filter fun it => it.id ≠ a }) := by
    rw [Spec.remove, Good.spec_seqs hl]
    rfl
  rw [hspec]
  cases hx : v.timer with
  | none =>
    obtain ⟨hgood, hw'⟩ := h.unlinked
      (w.setList n { l with cells := cells, size := l.size - 1 }) hl hsplit hrep hfresh hgone
      rfl rfl rfl rfl h.queued (fun _ => rfl) (fun _ _ => rfl)
      fun x he => nomatch hx.symm.trans he
    refine ⟨_, ?_, hgood, congrArg some hw'.symm⟩
    simp [Lists.unlink, hl, hc, hv, hremove, hset, hx]
  | some x =>
    obtain ⟨t, m, ht, hm, htm, hlist, -⟩ := hok.timer (a, v) (by simp [hsplit]) x hx
    obtain ⟨M, hM⟩ := Option.isSome_iff_exists.mp (h.managed n l m hl htm)
    have hq := priorityQueueRemove_heapOf (h.queued m M hM) (x := x) ⟨t, ht, hm⟩
    have hqueued := h.queued.unlink (t := { t with mgr := none, time := 0 }) ⟨t, ht, hm⟩ rfl hq M.time
    obtain ⟨hgood, hw'⟩ := h.unlinked { w with
        lists := Function.update w.lists n (some { l with cells := cells, size := l.size - 1 })
        timers := Function.update w.timers x (some { t with mgr := none, time := 0 })
        mgrs := Function.update w.mgrs m (some ⟨M.time, _⟩) }
      hl hsplit hrep hfresh hgone rfl rfl rfl rfl hqueued
      (times_setQueue hM _)
      (fun y hy => Function.update_of_ne (fun he : y = x => hy (he ▸ hx)) _ _)
      fun y hy => by
        cases hx.symm.trans hy
        exact ⟨_, Function.update_self _ _ _, rfl, hlist⟩
    refine ⟨_, ?_, hgood, congrArg some hw'.symm⟩
    simp [Lists.unlink, hl, hc, hv, hremove, hset, hx, timerCancel, World.setList, World.setMgr,
      World.setTimer, ht, hm, hM]

/-! ## Firing -/

theorem timerFire_good {w : World α} (h : Good w) {x m : ℕ} {t : Timer} {M : Mgr}
    (ht : w.timers x = some t) (hm : t.mgr = some m) (hM : w.mgrs m = some M) {q : IndexedHeap ℕ}
    (hq : HeapOf (timeOf w.timers) q fun y => Waits w.timers m y ∧ y ≠ x) :
    ∃ w' l v, timerFire (w.setMgr m { M with queue := q }) x = some w' ∧ Good w' ∧
      w'.mgrs = Function.update w.mgrs m (some { M with queue := q }) ∧
      w.lists t.list = some l ∧ (t.node, v) ∈ l.entries ∧ v.timer = some x ∧ l.tmgr = some m ∧
      specOf w' = (specOf w).setSeq t.list { seqOf w.timers l with
        items := (seqOf w.timers l).items.filter fun it => it.id ≠ t.node } := by
  obtain ⟨l, v, hl, hv, hx⟩ := h.owned x t m ht hm
  have hok := h.lists _ l hl
  obtain ⟨t', m', ht', hm', htm, -⟩ := hok.timer _ hv x hx
  cases ht.symm.trans ht'
  cases hm.symm.trans hm'
  obtain ⟨l₁, l₂, hsplit⟩ := List.append_of_mem hv
  obtain ⟨c, cells₁, cells, hc, hval, hremove, hset, hrep, hfresh, hgone⟩ := hok.unlink hsplit
  have hqueued := h.queued.unlink (t := { t with mgr := none }) ⟨t, ht, hm⟩ rfl hq M.time
  obtain ⟨hgood, hw'⟩ := h.unlinked { w with
      lists := Function.update w.lists t.list (some { l with cells := cells, size := l.size - 1 })
      timers := Function.update w.timers x (some { t with mgr := none })
      mgrs := Function.update w.mgrs m (some ⟨M.time, q⟩) }
    hl hsplit hrep hfresh hgone rfl rfl rfl rfl hqueued
    (times_setQueue hM q)
    (fun y hy => Function.update_of_ne (fun he : y = x => hy (he ▸ hx)) _ _)
    fun y hy => by
      cases hx.symm.trans hy
      exact ⟨_, Function.update_self _ _ _, rfl, rfl⟩
  refine ⟨_, l, v, ?_, hgood, rfl, hl, hv, hx, htm, hw'⟩
  simp [timerFire, listExpire, Lists.unlink, hl, hc, hval, hremove, hset, hx, World.setList,
    World.setMgr, World.setTimer, ht, hm]

end Hilti.Lists
