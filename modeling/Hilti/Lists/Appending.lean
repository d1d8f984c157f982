import Hilti.Lists.Faithful

/-!
# Appending a list

`hlt_list_append` follows the links of the second list while it pushes to the first.  Appending a
list to itself never comes to an end, unless the list is empty: each round adds a node behind the
one it has reached.
-/

namespace Hilti.Lists

open Hilti.Lib

set_option autoImplicit false

variable {α : Type} {w : World α}

/-- `hlt_list_append` comes to an end, and then the first list holds its old elements followed by
the old elements of the second. -/
def Appends (w : World α) (n1 n2 : ℕ) : Prop :=
  ∃ l1 l2 fuel w' l', w.lists n1 = some l1 ∧ w.lists n2 = some l2 ∧
    listAppend fuel w n1 n2 = some w' ∧ w'.lists n1 = some l' ∧
    l'.values = l1.values ++ l2.values ∧ l'.size = l'.values.length

theorem values_length (l : HltList α) : l.values.length = l.entries.length :=
  List.length_map _

/-! ## A list to itself -/

theorem appendLoop_self (h : Good w) {n a : ℕ} {l : HltList α} (hl : w.lists n = some l)
    (hfits : deadlineFits w l (2 ^ 64) = true) (ha : a ∈ l.entries.map Prod.fst) (fuel : ℕ) :
    appendLoop n n fuel w (some a) = none := by
  induction fuel generalizing w l a with
  | zero => rfl
  | succ fuel ih =>
    obtain ⟨⟨a, v⟩, hmem, rfl⟩ := List.mem_map.mp ha
    obtain ⟨l₁, l₂, hsplit⟩ := List.append_of_mem hmem
    have hheap := (hsplit ▸ (h.lists n l hl).cells).heap_eq
    obtain ⟨w₁, cells, timer, hrun, -, hgood, hentries, hlists, htimes⟩ :=
      pushBack_good h hl hfits v.data
    have hl' : w₁.lists n = some { l with cells := cells, size := l.size + 1 } := by
      rw [hlists, Function.update_self]
    have hsplit' : cells.entries =
        l₁ ++ (a, v) :: (l₂ ++ [(l.cells.fresh, ⟨timer, false, v.data⟩)]) := by
      rw [hentries, hsplit, List.append_assoc]
      rfl
    have hcells : cells.Represents cells.entries := (hgood.lists n _ hl').cells
    rw [hsplit'] at hcells
    have hheap' := hcells.heap_eq
    obtain ⟨b, hb, hnext⟩ : ∃ b, b ∈ cells.entries.map Prod.fst ∧
        LinkedList.headAddr (l₂ ++ [(l.cells.fresh, ⟨timer, false, v.data⟩)]) none = some b := by
      rw [hsplit']
      cases l₂ with
      | nil => exact ⟨_, by simp, rfl⟩
      | cons e es => exact ⟨e.1, by simp, rfl⟩
    have hrest := ih hgood hl' ((deadlineFits_congr _ htimes rfl rfl).trans hfits) hb
    rw [hnext] at hheap'
    simp [appendLoop, hl, hheap, hrun, hl', hheap', hrest]

/-! ## Deadlines that overflow -/

def Overflows (w : World α) (n : ℕ) (size : ℤ) : Prop :=
  ∃ l m M, w.lists n = some l ∧ l.tmgr = some m ∧ w.mgrs m = some M ∧ l.timeout < 2 ^ 64 ∧
    M.time < 2 ^ 64 ∧ 2 ^ 64 < M.time + l.timeout ∧ l.size = size

/-- The cells of a list after the timer of its new node has fired: the ends of the list are those
of the node. -/
def firedCells (l : HltList α) (val : α) : LinkedList (Node α) where
  heap := Function.update l.cells.heap l.cells.fresh (some ⟨none, none, ⟨none, true, val⟩⟩)
  fresh := l.cells.fresh + 1
  first := none
  last := none

theorem makeNode_fires {n m : ℕ} {l : HltList α} {M : Mgr} (hl : w.lists n = some l)
    (hm : l.tmgr = some m) (hM : w.mgrs m = some M) {time : ℕ} (htime : nodeTime w l = some time)
    (hne : time ≠ 0) (hle : time ≤ M.time) (val : α) :
    makeNode w n val = some ({ w with
      lists := Function.update w.lists n
        (some { l with cells := firedCells l val, size := l.size - 1 })
      timers := Function.update w.timers w.timerCount (some ⟨none, time, n, l.cells.fresh⟩)
      timerCount := w.timerCount + 1 }, l.cells.fresh) := by
  simp [makeNode, hl, htime, hne, hm, World.setList, World.setTimer, timerMgrSchedule, hM, hle,
    timerFire, listExpire, unlink, LinkedList.alloc, LinkedList.write, LinkedList.remove,
    LinkedList.setNext, LinkedList.setPrev, LinkedList.setVal, firedCells]

theorem pushBack_overflows {n : ℕ} {size : ℤ} (h : Overflows w n size) (val : α) :
    ∃ w', pushBack w n val = some w' ∧ Overflows w' n size := by
  obtain ⟨l, m, M, hl, hm, hM, htimeout, htime, hsum, hsize⟩ := h
  have hmod : (M.time + l.timeout) % 2 ^ 64 = M.time + l.timeout - 2 ^ 64 := by
    rw [Nat.mod_eq_sub_mod hsum.le, Nat.mod_eq_of_lt (by omega)]
  have hne : l.timeout ≠ 0 := by omega
  have htime' : nodeTime w l = some (M.time + l.timeout - 2 ^ 64) := by
    rw [← hmod]
    simp [nodeTime, hm, hne, deadline, hM]
  have hmake := makeNode_fires hl hm hM htime' (by omega) (by omega) val
  refine ⟨{ w with
    lists := Function.update w.lists n (some { l with
      cells := { firedCells l val with first := some l.cells.fresh, last := some l.cells.fresh } })
    timers := Function.update w.timers w.timerCount
      (some ⟨none, M.time + l.timeout - 2 ^ 64, n, l.cells.fresh⟩)
    timerCount := w.timerCount + 1 }, ?_, ?_⟩
  · simp [pushBack, addNode, hmake, link, firedCells, LinkedList.insertAfter, LinkedList.setNext,
      LinkedList.write, World.setList]
  · exact ⟨_, m, M, Function.update_self _ _ _, hm, hM, htimeout, htime, hsum, hsize⟩

theorem appendLoop_overflows {n1 n2 : ℕ} {size : ℤ} (fuel : ℕ) {p : Option ℕ} {w' : World α}
    (h : Overflows w n1 size) (hrun : appendLoop n1 n2 fuel w p = some w') :
    Overflows w' n1 size := by
  induction fuel generalizing w p with
  | zero =>
    cases p with
    | none =>
      cases hrun
      exact h
    | some a => cases hrun
  | succ fuel ih =>
    cases p with
    | none =>
      cases hrun
      exact h
    | some a =>
      simp only [appendLoop, Option.bind_eq_bind, Option.bind_eq_some_iff] at hrun
      obtain ⟨l, -, c, -, w₁, hpush, l', -, c', -, hrest⟩ := hrun
      obtain ⟨w₂, hpush', h'⟩ := pushBack_overflows h c.val.data
      cases hpush.symm.trans hpush'
      exact ih h' hrest

theorem Good.overflows (h : Good w) {n : ℕ} {l : HltList α} (hl : w.lists n = some l)
    (hfits : deadlineFits w l (2 ^ 64) ≠ true) : Overflows w n l.size := by
  cases hm : l.tmgr with
  | none => exact (hfits (by simp [deadlineFits, hm])).elim
  | some m =>
    obtain ⟨M, hM⟩ := Option.isSome_iff_exists.mp (h.managed n l m hl hm)
    have hsum : l.timeout ≠ 0 ∧ 2 ^ 64 < M.time + l.timeout := by
      simpa [deadlineFits, hm, hM] using hfits
    exact ⟨l, m, M, hl, hm, hM, (h.lists n l hl).timeout, h.times m M hM, hsum.2, rfl⟩

/-! ## When appending works -/

/-- Appending works if the second list is empty, or if it is another list and the deadlines of new
elements of the first do not overflow; and in no other case. -/
theorem append_iff (h : Good w) {n1 n2 : ℕ} {l1 l2 : HltList α} (hl1 : w.lists n1 = some l1)
    (hl2 : w.lists n2 = some l2) :
    Appends w n1 n2 ↔ l2.entries = [] ∨ n1 ≠ n2 ∧ deadlineFits w l1 (2 ^ 64) = true := by
  have hcells := (h.lists n2 l2 hl2).cells
  constructor
  · rintro ⟨k1, k2, fuel, w', l', hk1, hk2, hrun, hl', hvalues, hsize⟩
    cases hl1.symm.trans hk1
    cases hl2.symm.trans hk2
    have hloop : appendLoop n1 n2 fuel w l2.cells.first = some w' := by
      simpa [listAppend, hl2] using hrun
    by_contra hnot
    rw [not_or, not_and] at hnot
    obtain ⟨hnonempty, hnot⟩ := hnot
    by_cases hfits : deadlineFits w l1 (2 ^ 64) = true
    · have heq : n1 = n2 := by
        by_contra hne
        exact hnot hne hfits
      subst heq
      cases hl1.symm.trans hl2
      obtain ⟨e, es, hentries⟩ := List.exists_cons_of_ne_nil hnonempty
      rw [hcells.first_eq, hentries] at hloop
      have hnone := appendLoop_self h hl1 hfits (a := e.1) (by simp [hentries]) fuel
      cases hnone.symm.trans hloop
    · obtain ⟨l, -, -, hl, -, -, -, -, -, hlsize⟩ :=
        appendLoop_overflows fuel (h.overflows hl1 hfits) hloop
      cases hl'.symm.trans hl
      rw [hlsize, (h.lists n1 l1 hl1).size, hvalues, List.length_append, values_length,
        values_length] at hsize
      have hpos := List.length_pos_iff.mpr hnonempty
      omega
  · intro hcase
    have hdone : ∀ (w' : World α) (l' : HltList α), Good w' → w'.lists n1 = some l' →
        l'.size = l'.values.length := fun w' l' hw' hl' => by
      rw [values_length]
      exact (hw'.lists n1 l' hl').size
    by_cases hempty : l2.entries = []
    · have hfirst : l2.cells.first = none := by
        rw [hcells.first_eq, hempty]
        rfl
      refine ⟨l1, l2, 0, w, l1, hl1, hl2, ?_, hl1, ?_, hdone w l1 h hl1⟩
      · simp [listAppend, hl2, hfirst, appendLoop]
      · simp [HltList.values, hempty]
    · obtain ⟨hne, hfits⟩ := hcase.resolve_left hempty
      obtain ⟨w', l', hrun, -, hgood, hl', hvalues⟩ := appendLoop_good hne l2.entries.length h hl1
        hl2 [] l2.entries rfl le_rfl (.inr hfits)
      rw [← hcells.first_eq] at hrun
      refine ⟨l1, l2, l2.entries.length, w', l', hl1, hl2, ?_, hl', hvalues, hdone w' l' hgood hl'⟩
      simp [listAppend, hl2, hrun]

/-! ## Samples -/

theorem reaches_good (ops : List (Op α))
    (h : (machine α).Along (fun s op => fine s.1 op = true) (machine α).start ops) :
    ∃ s, (machine α).run (machine α).start ops = some s ∧ Good s.1 :=
  Machine.run_invariant (fun s op hgood hfine => by
    obtain ⟨w', r, hstep, -, hgood'⟩ := step_good hgood hfine
    exact ⟨(w', s.2 ++ [r]), by simp [machine, hstep], hgood'⟩) ops _ initWorld_good h

/-- Two lists of one element each. -/
def twoLists : List (Op ℕ) :=
  [.new none, .pushBack 0 1, .new none, .pushBack 1 2]

theorem append_iff_twoLists :
    ∃ s l1 l2, (machine ℕ).run (machine ℕ).start twoLists = some s ∧ s.1.lists 0 = some l1 ∧
      s.1.lists 1 = some l2 ∧
      (Appends s.1 0 1 ↔ l2.entries = [] ∨ 0 ≠ 1 ∧ deadlineFits s.1 l1 (2 ^ 64) = true) := by
  obtain ⟨s, hrun, hgood⟩ := reaches_good twoLists (by decide)
  have hlists : ((machine ℕ).run (machine ℕ).start twoLists).any
      (fun s => (s.1.lists 0).isSome && (s.1.lists 1).isSome) = true := by decide
  rw [hrun, Option.any_some, Bool.and_eq_true] at hlists
  obtain ⟨l1, hl1⟩ := Option.isSome_iff_exists.mp hlists.1
  obtain ⟨l2, hl2⟩ := Option.isSome_iff_exists.mp hlists.2
  exact ⟨s, l1, l2, hrun, hl1, hl2, append_iff hgood hl1 hl2⟩

/-- Appending the first list to itself does not come to an end. -/
theorem append_self_stuck :
    ∃ s, (machine ℕ).run (machine ℕ).start twoLists = some s ∧ Good s.1 ∧ ¬ Appends s.1 0 0 := by
  obtain ⟨s, hrun, hgood⟩ := reaches_good twoLists (by decide)
  refine ⟨s, hrun, hgood, ?_⟩
  have hlist : ((machine ℕ).run (machine ℕ).start twoLists).any (fun s => (s.1.lists 0).any fun l =>
      deadlineFits s.1 l (2 ^ 64) && l.cells.first = some 0 && l.entries.map Prod.fst = [0]) = true := by
    decide
  rw [hrun, Option.any_some] at hlist
  obtain ⟨l, hl, hlist⟩ := (Option.any_eq_true _ _).mp hlist
  obtain ⟨⟨hfits, hfirst⟩, hentries⟩ : (deadlineFits s.1 l (2 ^ 64) = true ∧ l.cells.first = some 0) ∧
      l.entries.map Prod.fst = [0] := by
    simpa using hlist
  rintro ⟨l1, l2, fuel, w', l', -, -, happend, -⟩
  have hloop : appendLoop 0 0 fuel s.1 (some 0) = some w' := by
    simpa [listAppend, hl, hfirst] using happend
  cases (appendLoop_self hgood hl hfits (by simp [hentries]) fuel).symm.trans hloop

end Hilti.Lists
