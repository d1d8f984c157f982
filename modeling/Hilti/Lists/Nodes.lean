import Hilti.Lists.WellFormed

/-!
# Nodes come and go

What making and linking a node, unlinking one and accessing one do to well-formed lists, and to the
sequences that they stand for.  A new node, and an access, need a deadline that does not overflow:
otherwise the timer fires at once, and then it unlinks a node that is not linked yet.
-/

namespace Hilti.Lists

open Hilti.Lib
open Hilti.TimerMgr (HeapOf priorityQueueRemove_heapOf)

set_option autoImplicit false

variable {α : Type}

/-- A deadline from now on does not go beyond the bound. -/
def deadlineFits (w : World α) (l : HltList α) (bound : ℕ) : Bool :=
  l.tmgr.all fun m => (w.mgrs m).all fun M => l.timeout = 0 || M.time + l.timeout ≤ bound

theorem deadlineFits_mgr {w : World α} {l : HltList α} {bound m : ℕ} {M : Mgr}
    (h : deadlineFits w l bound = true) (hm : l.tmgr = some m) (hM : w.mgrs m = some M)
    (ht : l.timeout ≠ 0) : M.time + l.timeout ≤ bound := by
  simpa [deadlineFits, hm, hM, ht] using h

theorem deadlineFits_congr {w w' : World α} {l l' : HltList α} (bound : ℕ)
    (htimes : ∀ m, (w'.mgrs m).map Mgr.time = (w.mgrs m).map Mgr.time) (htmgr : l'.tmgr = l.tmgr)
    (htimeout : l'.timeout = l.timeout) : deadlineFits w' l' bound = deadlineFits w l bound := by
  have hmgr : ∀ (w : World α) m, ((w.mgrs m).all fun M => l.timeout = 0 || M.time + l.timeout ≤ bound) =
      ((w.mgrs m).map Mgr.time).all fun time => l.timeout = 0 || time + l.timeout ≤ bound :=
    fun w m => by cases w.mgrs m <;> rfl
  simp only [deadlineFits, htmgr, htimeout, hmgr, htimes]

/-! ## Linking -/

theorem ListOk.link {timers : ℕ → Option Timer} {n : ℕ} {l : HltList α} (h : ListOk timers n l)
    (v : Node α) {l₁ l₂ : List (ℕ × Node α)} (hl : l.entries = l₁ ++ l₂) :
    ∃ cells, (l.cells.alloc v).insertAfter (LinkedList.lastAddr none l₁) l.cells.fresh = some cells ∧
      cells.Represents (l₁ ++ (l.cells.fresh, v) :: l₂) ∧ cells.fresh = l.cells.fresh + 1 ∧
      ∀ b, b ≠ l.cells.fresh → b ∉ l.entries.map Prod.fst → cells.heap b = l.cells.heap b := by
  obtain ⟨halloc, hheap, hnew⟩ := h.cells.alloc v
  rw [hl] at halloc hnew
  obtain ⟨cells, hrun, hrep, hfresh⟩ := halloc.insertAfter hheap hnew (Nat.lt_succ_self _)
  refine ⟨cells, hrun, hrep, hfresh, fun b hb hmem => ?_⟩
  rw [halloc.insertAfter_heap hheap hnew hrun]
  · exact Function.update_of_ne hb _ _
  · rw [hl, List.map_append, List.mem_append, not_or] at hmem
    rw [List.map_append, List.map_cons, List.mem_append, List.mem_cons, not_or, not_or]
    exact ⟨hmem.1, hb, hmem.2⟩

theorem ListOk.linked {timers timers' : ℕ → Option Timer} {n : ℕ} {l : HltList α}
    (h : ListOk timers n l) {timer : Option ℕ} {val : α} {l₁ l₂ : List (ℕ × Node α)}
    (hl : l.entries = l₁ ++ l₂) {cells : LinkedList (Node α)}
    (hrep : cells.Represents (l₁ ++ (l.cells.fresh, ⟨timer, false, val⟩) :: l₂))
    (hfresh : cells.fresh = l.cells.fresh + 1)
    (hheap : ∀ b, b ≠ l.cells.fresh → b ∉ l.entries.map Prod.fst → cells.heap b = l.cells.heap b)
    (hkept : ∀ x t, timers x = some t → timers' x = some t)
    (htimer : ∀ x, timer = some x → ∃ t m, timers' x = some t ∧ t.mgr = some m ∧ l.tmgr = some m ∧
      t.list = n ∧ t.node = l.cells.fresh) :
    ListOk timers' n { l with cells := cells, size := l.size + 1 } ∧
      seqOf timers' { l with cells := cells, size := l.size + 1 } =
        { seqOf timers l with
          items := l₁.map (itemOf timers) ++
            ⟨l.cells.fresh, val, timer.map (timeOf timers')⟩ :: l₂.map (itemOf timers)
          fresh := l.cells.fresh + 1 } := by
  have hentries : cells.entries = l₁ ++ (l.cells.fresh, ⟨timer, false, val⟩) :: l₂ := hrep.entries_eq
  have hmem : ∀ e ∈ cells.entries, e = (l.cells.fresh, ⟨timer, false, val⟩) ∨ e ∈ l.entries := by
    intro e he
    rw [hentries, List.mem_append, List.mem_cons] at he
    rw [hl, List.mem_append]
    tauto
  have hitems : ∀ e ∈ l.entries, itemOf timers' e = itemOf timers e := by
    intro e he
    cases hx : e.2.timer with
    | none => simp [itemOf, hx]
    | some x =>
      obtain ⟨t, -, ht, -⟩ := h.timer e he x hx
      simp [itemOf, hx, timeOf_eq ht, timeOf_eq (hkept x t ht)]
  refine ⟨⟨?_, ?_, fun e he => ?_, fun e he x hx => ?_, fun a ha hnew => ?_, h.timeout⟩, ?_⟩
  · change cells.Represents cells.entries
    rw [hentries]
    exact hrep
  · change l.size + 1 = (cells.entries.length : ℤ)
    rw [hentries, h.size, hl]
    simp only [List.length_append, List.length_cons]
    omega
  · cases hmem e he with
    | inl he => rw [he]
    | inr he => exact h.valid e he
  · cases hmem e he with
    | inl he =>
      subst he
      exact htimer x hx
    | inr he =>
      obtain ⟨t, m, ht, hrest⟩ := h.timer e he x hx
      exact ⟨t, m, hkept x t ht, hrest⟩
  · change a < cells.fresh at ha
    change a ∉ cells.entries.map Prod.fst at hnew
    rw [hentries, List.map_append, List.map_cons, List.mem_append, List.mem_cons, not_or, not_or]
      at hnew
    have hold : a ∉ l.entries.map Prod.fst := by
      rw [hl, List.map_append, List.mem_append, not_or]
      exact ⟨hnew.1, hnew.2.2⟩
    rw [hfresh] at ha
    obtain ⟨d, hd⟩ := h.gone a (by omega) hold
    exact ⟨d, (hheap a hnew.2.1 hold).trans hd⟩
  · have h₁ : l₁.map (itemOf timers') = l₁.map (itemOf timers) :=
      List.map_congr_left fun e he => hitems e (by rw [hl]; exact List.mem_append_left _ he)
    have h₂ : l₂.map (itemOf timers') = l₂.map (itemOf timers) :=
      List.map_congr_left fun e he => hitems e (by rw [hl]; exact List.mem_append_right _ he)
    change Sequence.mk (cells.entries.map (itemOf timers')) cells.fresh _ _ _ = _
    rw [hentries, List.map_append, List.map_cons, h₁, h₂, hfresh]
    rfl

/-! ## New nodes -/

theorem spec_deadline {w : World α} {l : HltList α} {m : ℕ} {M : Mgr} (hm : l.tmgr = some m)
    (hM : w.mgrs m = some M) :
    (specOf w).deadline (seqOf w.timers l) = later M.time l.timeout := by
  simp [Spec.deadline, seqOf, specOf, hm, hM]

theorem later_fits {time timeout : ℕ} (hne : timeout ≠ 0) (hlt : time + timeout < 2 ^ 64) :
    later time timeout = some (time + timeout) := by
  refine if_neg ?_
  rw [not_or, not_le]
  exact ⟨hne, hlt⟩

theorem nodeTime_eq {w : World α} (h : Good w) {n : ℕ} {l : HltList α} (hl : w.lists n = some l)
    (hfits : deadlineFits w l (2 ^ 64) = true) :
    (nodeTime w l = some 0 ∧ (specOf w).deadline (seqOf w.timers l) = none) ∨
      ∃ t m M, nodeTime w l = some t ∧ t ≠ 0 ∧ (specOf w).deadline (seqOf w.timers l) = some t ∧
        l.tmgr = some m ∧ w.mgrs m = some M ∧ M.time < t := by
  cases hm : l.tmgr with
  | none => exact .inl ⟨by simp [nodeTime, hm], by simp [Spec.deadline, seqOf, hm]⟩
  | some m =>
    obtain ⟨M, hM⟩ := Option.isSome_iff_exists.mp (h.managed n l m hl hm)
    rw [spec_deadline hm hM]
    by_cases ht : l.timeout = 0
    · exact .inl ⟨by simp [nodeTime, hm, ht], by simp [later, ht]⟩
    · have hsum := deadlineFits_mgr hfits hm hM ht
      have htime : nodeTime w l = some ((M.time + l.timeout) % 2 ^ 64) := by
        simp [nodeTime, hm, ht, deadline, hM]
      by_cases heq : M.time + l.timeout = 2 ^ 64
      · refine .inl ⟨by rw [htime, heq, Nat.mod_self], if_pos (.inr ?_)⟩
        rw [heq]
      · have hlt : M.time + l.timeout < 2 ^ 64 := Nat.lt_of_le_of_ne hsum heq
        rw [Nat.mod_eq_of_lt hlt] at htime
        refine .inr ⟨M.time + l.timeout, m, M, htime, by omega, if_neg ?_, rfl, hM, by omega⟩
        rw [not_or, not_le]
        exact ⟨ht, hlt⟩

theorem Good.list_lt {w : World α} (h : Good w) {n : ℕ} {l : HltList α} (hl : w.lists n = some l) :
    n < w.listCount := by
  by_contra hn
  rw [h.listCount n (not_lt.mp hn)] at hl
  cases hl

theorem Good.owner {w : World α} (h : Good w) {n : ℕ} {l : HltList α} (hl : w.lists n = some l)
    {x m : ℕ} {t : Timer} (ht : w.timers x = some t) (hm : t.mgr = some m) (hlist : t.list = n) :
    ∃ v, (t.node, v) ∈ l.entries ∧ v.timer = some x := by
  obtain ⟨l', v, hl', hv, hx⟩ := h.owned x t m ht hm
  rw [hlist] at hl'
  cases hl.symm.trans hl'
  exact ⟨v, hv, hx⟩

theorem Good.linked {w : World α} (h : Good w) (w' : World α) {n : ℕ} {l : HltList α}
    (hl : w.lists n = some l)
    {timer : Option ℕ} {val : α} {l₁ l₂ : List (ℕ × Node α)} (hsplit : l.entries = l₁ ++ l₂)
    {cells : LinkedList (Node α)}
    (hrep : cells.Represents (l₁ ++ (l.cells.fresh, ⟨timer, false, val⟩) :: l₂))
    (hfresh : cells.fresh = l.cells.fresh + 1)
    (hheap : ∀ b, b ≠ l.cells.fresh → b ∉ l.entries.map Prod.fst → cells.heap b = l.cells.heap b)
    (hlists : w'.lists =
      Function.update w.lists n (some { l with cells := cells, size := l.size + 1 }))
    (hlc : w'.listCount = w.listCount) (hmc : w'.mgrCount = w.mgrCount)
    (hqueued : Queued w'.timers w'.mgrs)
    (htimes : ∀ m, (w'.mgrs m).map Mgr.time = (w.mgrs m).map Mgr.time)
    (hkept : ∀ x t, w.timers x = some t → w'.timers x = some t)
    (hnew : ∀ x t, w'.timers x = some t →
      w.timers x = some t ∨ timer = some x ∧ t.list = n ∧ t.node = l.cells.fresh)
    (htimer : ∀ x, timer = some x → ∃ t m, w'.timers x = some t ∧ t.mgr = some m ∧
      l.tmgr = some m ∧ t.list = n ∧ t.node = l.cells.fresh)
    (hcount : ∀ x t, w'.timers x = some t → x < w'.timerCount) :
    Good w' ∧ specOf w' = (specOf w).setSeq n
      { seqOf w.timers l with
        items := l₁.map (itemOf w.timers) ++
          ⟨l.cells.fresh, val, timer.map (timeOf w'.timers)⟩ :: l₂.map (itemOf w.timers)
        fresh := l.cells.fresh + 1 } := by
  obtain ⟨hok, hseq⟩ := (h.lists n l hl).linked hsplit hrep hfresh hheap hkept htimer
  rw [← hseq]
  refine h.update w' (h.list_lt hl) hlists hlc hmc hqueued htimes hok
    (fun m hm => h.managed n l m hl hm) (fun x t hlist => ⟨fun ht => ?_, hkept x t⟩)
    (fun x t m ht hm hlist => ?_) hcount
  · exact (hnew x t ht).resolve_right fun hn => hlist hn.2.1
  · change ∃ v, (t.node, v) ∈ cells.entries ∧ _
    rw [hrep.entries_eq]
    cases hnew x t ht with
    | inl ht =>
      obtain ⟨v, hv, hx⟩ := h.owner hl ht hm hlist
      refine ⟨v, ?_, hx⟩
      rw [hsplit] at hv
      simp only [List.mem_append, List.mem_cons] at hv ⊢
      exact hv.imp_right .inr
    | inr hn =>
      rw [hn.2.2]
      exact ⟨_, List.mem_append_right _ List.mem_cons_self, hn.1⟩

theorem makeNode_plain {w : World α} {n : ℕ} {l : HltList α} (hl : w.lists n = some l) (val : α)
    (htime : nodeTime w l = some 0) :
    makeNode w n val =
      some (w.setList n { l with cells := l.cells.alloc ⟨none, false, val⟩ }, l.cells.fresh) := by
  simp [makeNode, hl, htime]

def newTimer (l : HltList α) (n m time : ℕ) : Timer :=
  ⟨some m, time, n, l.cells.fresh⟩

theorem makeNode_timer {w : World α} {n : ℕ} {l : HltList α} (hl : w.lists n = some l) (val : α)
    {time m : ℕ} {M : Mgr} (htime : nodeTime w l = some time) (hne : time ≠ 0)
    (hm : l.tmgr = some m) (hM : w.mgrs m = some M) (hlt : M.time < time) :
    makeNode w n val = some ({ w with
      lists := Function.update w.lists n
        (some { l with cells := l.cells.alloc ⟨some w.timerCount, false, val⟩ })
      timers := Function.update w.timers w.timerCount (some (newTimer l n m time))
      mgrs := Function.update w.mgrs m (some ⟨M.time, TimerMgr.priorityQueueInsert
        (timeOf (Function.update w.timers w.timerCount (some (newTimer l n m time))))
        M.queue w.timerCount⟩)
      timerCount := w.timerCount + 1 }, l.cells.fresh) := by
  simp [makeNode, hl, htime, hne, hm, World.setList, World.setTimer, timerMgrSchedule, hM,
    not_le.mpr hlt, World.setMgr, newTimer]

theorem addNode_good {w : World α} (h : Good w) {n : ℕ} {l : HltList α} (hl : w.lists n = some l)
    (val : α) (hfits : deadlineFits w l (2 ^ 64) = true) (l₁ l₂ : List (ℕ × Node α))
    (hsplit : l.entries = l₁ ++ l₂) (pos : HltList α → Option (Option ℕ))
    (hpos : ∀ timer, pos { l with cells := l.cells.alloc ⟨timer, false, val⟩ } =
      some (LinkedList.lastAddr none l₁)) :
    ∃ w' cells timer, addNode w n val pos = some w' ∧ Good w' ∧
      cells.entries = l₁ ++ (l.cells.fresh, ⟨timer, false, val⟩) :: l₂ ∧
      w'.lists = Function.update w.lists n (some { l with cells := cells, size := l.size + 1 }) ∧
      (∀ m, (w'.mgrs m).map Mgr.time = (w.mgrs m).map Mgr.time) ∧
      specOf w' = (specOf w).setSeq n { seqOf w.timers l with
        items := l₁.map (itemOf w.timers) ++
          (specOf w).newItem (seqOf w.timers l) val :: l₂.map (itemOf w.timers)
        fresh := l.cells.fresh + 1 } := by
  have hok := h.lists n l hl
  cases nodeTime_eq h hl hfits with
  | inl hnone =>
    obtain ⟨htime, hdeadline⟩ := hnone
    obtain ⟨cells, hcells, hrep, hfresh, hheap⟩ := hok.link ⟨none, false, val⟩ hsplit
    obtain ⟨hgood, hspec⟩ := h.linked
      (w.setList n { l with cells := cells, size := l.size + 1 }) hl hsplit hrep hfresh hheap
      rfl rfl rfl h.queued (fun _ => rfl) (fun _ _ ht => ht) (fun _ _ ht => .inl ht)
      (fun x hx => nomatch hx) h.timerCount
    refine ⟨_, cells, none, ?_, hgood, hrep.entries_eq, rfl, fun _ => rfl, ?_⟩
    · simp [addNode, makeNode_plain hl val htime, World.setList, hpos, Lists.link, hcells]
    · rw [hspec, Spec.newItem, hdeadline]
      rfl
  | inr hsome =>
    obtain ⟨time, m, M, htime, hne, hdeadline, hm, hM, hlt⟩ := hsome
    have hfree : ∀ x t, w.timers x = some t → x ≠ w.timerCount := fun x t ht he =>
      absurd (h.timerCount x t ht) (by omega)
    have hself : Function.update w.timers w.timerCount (some (newTimer l n m time)) w.timerCount =
        some (newTimer l n m time) := Function.update_self _ _ _
    have hother : ∀ x, x ≠ w.timerCount →
        Function.update w.timers w.timerCount (some (newTimer l n m time)) x = w.timers x :=
      fun x hx => Function.update_of_ne hx _ _
    obtain ⟨cells, hcells, hrep, hfresh, hheap⟩ := hok.link ⟨some w.timerCount, false, val⟩ hsplit
    have hqueued := h.queued.schedule hM (t := newTimer l n m time)
      (fun k ⟨t, ht, _⟩ => hfree _ t ht rfl) rfl M.time
    obtain ⟨hgood, hspec⟩ := h.linked { w with
        lists := Function.update w.lists n (some { l with cells := cells, size := l.size + 1 })
        timers := Function.update w.timers w.timerCount (some (newTimer l n m time))
        mgrs := Function.update w.mgrs m (some ⟨M.time, _⟩)
        timerCount := w.timerCount + 1 } hl hsplit hrep hfresh hheap rfl rfl rfl hqueued (times_setQueue hM _)
      (fun x t ht => (hother x (hfree x t ht)).trans ht)
      (fun x t ht => by
        by_cases hx : x = w.timerCount
        · subst hx
          cases hself.symm.trans ht
          exact .inr ⟨rfl, rfl, rfl⟩
        · exact .inl ((hother x hx).symm.trans ht))
      (fun x hx => by
        cases hx
        exact ⟨_, m, hself, rfl, hm, rfl, rfl⟩)
      (fun x t ht => by
        by_cases hx : x = w.timerCount
        · exact hx ▸ Nat.lt_succ_self _
        · exact Nat.lt_succ_of_lt (h.timerCount x t ((hother x hx).symm.trans ht)))
    refine ⟨_, cells, some w.timerCount, ?_, hgood, hrep.entries_eq, rfl, times_setQueue hM _, ?_⟩
    · simp [addNode, makeNode_timer hl val htime hne hm hM hlt, World.setList, hpos, Lists.link,
        hcells]
    · rw [hspec, Spec.newItem, hdeadline, Option.map_some, timeOf_eq hself]
      rfl

end Hilti.Lists
