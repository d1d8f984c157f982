import Hilti.Lists.Expiry

/-!
# The operations on lists

Each operation does to a well-formed list what the sequence operation of its name does to the
sequence that the list stands for, with the same result.
-/

namespace Hilti.Lists

open Hilti.Lib

set_option autoImplicit false

variable {α : Type} {w : World α}

/-- The operation and the one on sequences have the same result, and lead to corresponding
states. -/
def Agrees (run : Option (World α × Result α)) (spec : Option (Spec α × Result α)) : Prop :=
  ∃ w' r, run = some (w', r) ∧ spec = some (specOf w', r) ∧ Good w'

theorem Agrees.done {run : Option (World α)} {spec : Option (Spec α)} {w' : World α}
    (hrun : run = some w') (hspec : spec = some (specOf w')) (hw' : Good w') :
    Agrees (Lists.done run) (spec.map fun S => (S, .done)) :=
  ⟨w', .done, by rw [Lists.done, hrun]; rfl, by rw [hspec]; rfl, hw'⟩

theorem Agrees.same (h : Good w) (r : Result α) :
    Agrees (some (w, r)) (some (specOf w, r)) :=
  ⟨w, r, rfl, rfl, h⟩

/-! ## Items and nodes -/

theorem Good.find_linked (h : Good w) {n a : ℕ} {l : HltList α} {v : Node α}
    (hl : w.lists n = some l) (hmem : (a, v) ∈ l.entries) :
    (seqOf w.timers l).find a = some (itemOf w.timers (a, v)) := by
  have hok := h.lists n l hl
  obtain ⟨l₁, l₂, hsplit⟩ := List.append_of_mem hmem
  have hnot : ∀ e ∈ l₁, e.1 ≠ a := by
    have hnodup := hok.cells.nodup
    rw [hsplit, List.map_append, List.map_cons, List.nodup_middle] at hnodup
    exact fun e he heq => (List.nodup_cons.mp hnodup).1
      (List.mem_append_left _ (List.mem_map.mpr ⟨e, he, heq⟩))
  have hfirst : (l₁.map (itemOf w.timers)).find? (fun it => it.id = a) = none := by
    refine List.find?_eq_none.mpr fun it hit => ?_
    obtain ⟨e, he, rfl⟩ := List.mem_map.mp hit
    rw [decide_eq_true_eq]
    exact hnot e he
  rw [Sequence.find, seqOf, hsplit, List.map_append, List.map_cons, List.find?_append, hfirst,
    Option.none_or, List.find?_cons_of_pos]
  simp [itemOf]

theorem find_gone {l : HltList α} {a : ℕ} (timers : ℕ → Option Timer)
    (hnew : a ∉ l.entries.map Prod.fst) : (seqOf timers l).find a = none := by
  refine List.find?_eq_none.mpr fun it hit => ?_
  obtain ⟨e, he, rfl⟩ := List.mem_map.mp hit
  rw [decide_eq_true_eq]
  exact fun heq : e.1 = a => hnew (List.mem_map.mpr ⟨e, he, heq⟩)

theorem Good.items_split (h : Good w) {n a : ℕ} {l : HltList α} {v : Node α}
    (hl : w.lists n = some l) {l₁ l₂ : List (ℕ × Node α)} (hsplit : l.entries = l₁ ++ (a, v) :: l₂) :
    (seqOf w.timers l).items.takeWhile (fun it => it.id ≠ a) = l₁.map (itemOf w.timers) ∧
      (seqOf w.timers l).items.dropWhile (fun it => it.id ≠ a) =
        ((a, v) :: l₂).map (itemOf w.timers) := by
  have hnot : ∀ it ∈ l₁.map (itemOf w.timers), (decide (it.id ≠ a)) = true := by
    have hnodup := (h.lists n l hl).cells.nodup
    rw [hsplit, List.map_append, List.map_cons, List.nodup_middle] at hnodup
    intro it hit
    obtain ⟨e, he, rfl⟩ := List.mem_map.mp hit
    refine decide_eq_true fun heq => (List.nodup_cons.mp hnodup).1 ?_
    exact List.mem_append_left _ (List.mem_map.mpr ⟨e, he, heq⟩)
  have hitems : (seqOf w.timers l).items =
      l₁.map (itemOf w.timers) ++ ((a, v) :: l₂).map (itemOf w.timers) := by
    rw [seqOf, hsplit, List.map_append]
  rw [hitems, List.takeWhile_append_of_pos hnot, List.dropWhile_append_of_pos hnot]
  simp [itemOf]

/-! ## The ends of a list -/

theorem pushFront_good (h : Good w) {n : ℕ} {l : HltList α} (hl : w.lists n = some l)
    (hfits : deadlineFits w l (2 ^ 64) = true) (val : α) :
    ∃ w', pushFront w n val = some w' ∧ (specOf w).pushFront n val = some (specOf w') ∧ Good w' := by
  obtain ⟨w', -, -, hrun, hgood, -, -, -, hspec⟩ := addNode_good h hl val hfits [] l.entries
    rfl (fun _ => some none) fun _ => rfl
  refine ⟨w', hrun, ?_, hgood⟩
  rw [hspec, Spec.pushFront, Spec.add, Good.spec_seqs hl]
  rfl

theorem pushBack_good (h : Good w) {n : ℕ} {l : HltList α} (hl : w.lists n = some l)
    (hfits : deadlineFits w l (2 ^ 64) = true) (val : α) :
    ∃ w' cells timer, pushBack w n val = some w' ∧
      (specOf w).pushBack n val = some (specOf w') ∧ Good w' ∧
      cells.entries = l.entries ++ [(l.cells.fresh, ⟨timer, false, val⟩)] ∧
      w'.lists = Function.update w.lists n (some { l with cells := cells, size := l.size + 1 }) ∧
      ∀ m, (w'.mgrs m).map Mgr.time = (w.mgrs m).map Mgr.time := by
  obtain ⟨w', cells, timer, hrun, hgood, hentries, hlists, htimes, hspec⟩ :=
    addNode_good h hl val hfits l.entries [] (List.append_nil _).symm
      (fun l => some l.cells.last) fun _ => congrArg some (h.lists n l hl).cells.last_eq
  refine ⟨w', cells, timer, hrun, ?_, hgood, hentries, hlists, htimes⟩
  rw [hspec, Spec.pushBack, Spec.add, Good.spec_seqs hl]
  rfl

theorem popAt_good (h : Good w) {n : ℕ} {l : HltList α} (hl : w.lists n = some l)
    {node : HltList α → Option ℕ} {item : List (Item α) → Option (Item α)}
    (hends : (node l = none ∧ item (seqOf w.timers l).items = none) ∨ ∃ l₁ a v l₂,
      l.entries = l₁ ++ (a, v) :: l₂ ∧ node l = some a ∧
        item (seqOf w.timers l).items = some (itemOf w.timers (a, v))) :
    Agrees (popAt w n node) ((specOf w).popAt n item) := by
  cases hends with
  | inl hnone =>
    refine ⟨w, .exception .underflow, ?_, ?_, h⟩
    · simp [popAt, hl, hnone.1]
    · simp [Spec.popAt, Good.spec_seqs hl, hnone.2]
  | inr hsome =>
    obtain ⟨l₁, a, v, l₂, hsplit, hnode, hitem⟩ := hsome
    obtain ⟨w', hrun, hgood, hspec⟩ := unlink_good h hl hsplit
    refine ⟨w', .done, ?_, ?_, hgood⟩
    · simp [popAt, hl, hnode, hrun]
    · simp [Spec.popAt, Good.spec_seqs hl, hitem, itemOf, hspec]

theorem Good.first (h : Good w) {n : ℕ} {l : HltList α} (hl : w.lists n = some l) :
    (l.cells.first = none ∧ (seqOf w.timers l).items.head? = none) ∨ ∃ l₁ a v l₂,
      l.entries = l₁ ++ (a, v) :: l₂ ∧ l.cells.first = some a ∧
        (seqOf w.timers l).items.head? = some (itemOf w.timers (a, v)) := by
  have hfirst := (h.lists n l hl).cells.first_eq
  rw [seqOf]
  cases hentries : l.entries with
  | nil =>
    rw [hentries] at hfirst
    exact .inl ⟨hfirst, rfl⟩
  | cons e es =>
    rw [hentries] at hfirst
    exact .inr ⟨[], e.1, e.2, es, rfl, hfirst, rfl⟩

theorem Good.last (h : Good w) {n : ℕ} {l : HltList α} (hl : w.lists n = some l) :
    (l.cells.last = none ∧ (seqOf w.timers l).items.getLast? = none) ∨ ∃ l₁ a v l₂,
      l.entries = l₁ ++ (a, v) :: l₂ ∧ l.cells.last = some a ∧
        (seqOf w.timers l).items.getLast? = some (itemOf w.timers (a, v)) := by
  have hlast := (h.lists n l hl).cells.last_eq
  rw [seqOf]
  rcases List.eq_nil_or_concat l.entries with hentries | ⟨es, e, hentries⟩
  · rw [hentries] at hlast ⊢
    exact .inl ⟨hlast, rfl⟩
  · rw [List.concat_eq_append] at hentries
    rw [hentries, LinkedList.lastAddr_append] at hlast
    refine .inr ⟨es, e.1, e.2, [], hentries, hlast, ?_⟩
    rw [hentries, List.map_append]
    exact List.getLast?_concat

theorem readNode_good (h : Good w) {n a : ℕ} {l : HltList α} {v : Node α} (hl : w.lists n = some l)
    {l₁ l₂ : List (ℕ × Node α)} (hsplit : l.entries = l₁ ++ (a, v) :: l₂)
    (node : HltList α → Option ℕ) (hnode : node l = some a) (hfits : accessFits w n a = true) :
    ∃ w', readNode w n node = some (w', .value v.data) ∧
      (specOf w).access n a = some (specOf w') ∧ Good w' := by
  have hok := h.lists n l hl
  have hold : a < l.cells.fresh := hok.cells.old a (by simp [hsplit])
  obtain ⟨w', hrun, hgood, hspec, hlists⟩ := access_good h hl hold hfits
  have hheap := (hsplit ▸ hok.cells).heap_eq
  refine ⟨w', ?_, hspec, hgood⟩
  simp [readNode, hl, hnode, hrun, hlists, hheap]

theorem readAt_good (h : Good w) {n : ℕ} {l : HltList α} (hl : w.lists n = some l)
    {node : HltList α → Option ℕ} {item : List (Item α) → Option (Item α)}
    (hends : (node l = none ∧ item (seqOf w.timers l).items = none) ∨ ∃ l₁ a v l₂,
      l.entries = l₁ ++ (a, v) :: l₂ ∧ node l = some a ∧
        item (seqOf w.timers l).items = some (itemOf w.timers (a, v)))
    (hfits : (node l).all (accessFits w n) = true) :
    Agrees (readAt w n node) ((specOf w).readAt n item) := by
  cases hends with
  | inl hnone =>
    refine ⟨w, .exception .underflow, ?_, ?_, h⟩
    · simp [readAt, hl, hnone.1]
    · simp [Spec.readAt, Good.spec_seqs hl, hnone.2]
  | inr hsome =>
    obtain ⟨l₁, a, v, l₂, hsplit, hnode, hitem⟩ := hsome
    obtain ⟨w', hrun, hspec, hgood⟩ := readNode_good h hl hsplit node hnode (by simpa [hnode] using hfits)
    refine ⟨w', .value v.data, ?_, ?_, hgood⟩
    · simp [readAt, hl, hnode, hrun]
    · simp [Spec.readAt, Good.spec_seqs hl, hitem, itemOf, hspec]

/-! ## Appending -/

/-- The values of a list in order. -/
def HltList.values (l : HltList α) : List α := l.entries.map fun e => e.2.data

theorem appendLoop_good {n1 n2 : ℕ} (hne : n1 ≠ n2) (fuel : ℕ) {w : World α} (h : Good w)
    {l1 l2 : HltList α} (hl1 : w.lists n1 = some l1) (hl2 : w.lists n2 = some l2)
    (es₁ es : List (ℕ × Node α)) (hsplit : l2.entries = es₁ ++ es) (hfuel : es.length ≤ fuel)
    (hfits : es = [] ∨ deadlineFits w l1 (2 ^ 64) = true) :
    ∃ w' l', appendLoop n1 n2 fuel w (LinkedList.headAddr es none) = some w' ∧
      es.foldlM (fun S e => S.pushBack n1 e.2.data) (specOf w) = some (specOf w') ∧ Good w' ∧
      w'.lists n1 = some l' ∧ l'.values = l1.values ++ es.map fun e => e.2.data := by
  induction es generalizing fuel w l1 es₁ with
  | nil => exact ⟨w, l1, by cases fuel <;> rfl, rfl, h, hl1, (List.append_nil _).symm⟩
  | cons e es ih =>
    obtain ⟨a, v⟩ := e
    obtain ⟨fuel, rfl⟩ : ∃ k, fuel = k + 1 := ⟨fuel - 1, by simp only [List.length_cons] at hfuel; omega⟩
    have hfits := hfits.resolve_left (List.cons_ne_nil _ _)
    have hheap := (hsplit ▸ (h.lists n2 l2 hl2).cells).heap_eq
    obtain ⟨w₁, cells, timer, hrun, hspec, hgood, hentries, hlists, htimes⟩ :=
      pushBack_good h hl1 hfits v.data
    have hl1' : w₁.lists n1 = some { l1 with cells := cells, size := l1.size + 1 } := by
      rw [hlists, Function.update_self]
    have hl2' : w₁.lists n2 = some l2 := by
      rw [hlists, Function.update_of_ne (Ne.symm hne), hl2]
    obtain ⟨w', l', hrun', hspec', hgood', hl', hvalues⟩ := ih fuel hgood hl1' hl2' (es₁ ++ [(a, v)])
      (by rw [hsplit, List.append_assoc]; rfl) (Nat.le_of_succ_le_succ hfuel)
      (.inr ((deadlineFits_congr _ htimes rfl rfl).trans hfits))
    refine ⟨w', l', ?_, ?_, hgood', hl', ?_⟩
    · change appendLoop n1 n2 (fuel + 1) w (some a) = _
      simp [appendLoop, hl2, hheap, hrun, hl2', hrun']
    · rw [List.foldlM_cons, hspec]
      exact hspec'
    · rw [hvalues, HltList.values, HltList.entries, hentries]
      simp [HltList.values]

/-! ## Iterators -/

/-- The iterator can have come out of a run. -/
def known (w : World α) (i : Iter) : Bool :=
  match i.list with
  | none => i.node.isNone
  | some n => (w.lists n).any fun l => i.node.all (· < l.cells.fresh)

/-- The kinds of iterators: one of no list, one at the end of a list, one at a node of a list, and
one at a node that is not in its list any more. -/
theorem known_cases (h : Good w) {i : Iter} (hi : known w i = true) :
    (i = ⟨none, none⟩) ∨
    (∃ n l, i = ⟨some n, none⟩ ∧ w.lists n = some l) ∨
    (∃ n l a l₁ v l₂, i = ⟨some n, some a⟩ ∧ w.lists n = some l ∧
      l.entries = l₁ ++ (a, v) :: l₂ ∧ a < l.cells.fresh ∧
      invalidNode w n (some a) = some false ∧ (specOf w).isValid i = true) ∨
    (∃ n l a, i = ⟨some n, some a⟩ ∧ w.lists n = some l ∧ a < l.cells.fresh ∧
      invalidNode w n (some a) = some true ∧ (specOf w).isValid i = false) := by
  obtain ⟨list, node⟩ := i
  cases list with
  | none =>
    cases node with
    | none => exact .inl rfl
    | some a => cases hi
  | some n =>
    obtain ⟨l, hl, hnode⟩ : ∃ l, w.lists n = some l ∧ node.all (· < l.cells.fresh) = true := by
      simpa [known, Option.any_eq_true] using hi
    cases node with
    | none => exact .inr (.inl ⟨n, l, rfl, hl⟩)
    | some a =>
      have ha : a < l.cells.fresh := by simpa using hnode
      have hok := h.lists n l hl
      cases hok.known ha with
      | inl hlinked =>
        obtain ⟨l₁, v, l₂, hsplit⟩ := hlinked
        have hmem : (a, v) ∈ l.entries := by simp [hsplit]
        have hheap := (hsplit ▸ hok.cells).heap_eq
        refine .inr (.inr (.inl ⟨n, l, a, l₁, v, l₂, rfl, hl, hsplit, ha, ?_, ?_⟩))
        · simpa [invalidNode, hl, hheap] using hok.valid _ hmem
        · simp [Spec.isValid, Good.spec_seqs hl, h.find_linked hl hmem]
      | inr hgone =>
        obtain ⟨d, hd, hnew⟩ := hgone
        refine .inr (.inr (.inr ⟨n, l, a, rfl, hl, ha, ?_, ?_⟩))
        · simp [invalidNode, hl, hd]
        · simp [Spec.isValid, Good.spec_seqs hl, find_gone w.timers hnew]

theorem listErase_good (h : Good w) {i : Iter} (hi : known w i = true) :
    Agrees (listErase w i) (specStep (specOf w) (.erase i)) := by
  rcases known_cases h hi with rfl | ⟨n, l, rfl, hl⟩ | ⟨n, l, a, l₁, v, l₂, rfl, hl, hsplit, -,
    hvalid, hspec⟩ | ⟨n, l, a, rfl, hl, -, hvalid, hspec⟩
  · exact .same h _
  · have hspec : (specOf w).isValid ⟨some n, none⟩ = true := by
      simp [Spec.isValid, Good.spec_seqs hl]
    rw [specStep, hspec]
    exact .same h _
  · obtain ⟨w', hrun, hgood, hremove⟩ := unlink_good h hl hsplit
    refine ⟨w', .done, ?_, ?_, hgood⟩
    · simp [listErase, hvalid, hrun]
    · simp [specStep, hspec, hremove]
  · refine ⟨w, .exception .invalidIterator, ?_, ?_, h⟩
    · simp [listErase, hvalid]
    · simp [specStep, hspec]

/-- A new node of the list expires at a time that does not overflow. -/
def pushFits (w : World α) (n : ℕ) : Bool :=
  (w.lists n).any fun l => deadlineFits w l (2 ^ 64)

theorem pushFits_list {n : ℕ} {l : HltList α} (hl : w.lists n = some l)
    (hfits : pushFits w n = true) : deadlineFits w l (2 ^ 64) = true := by
  simpa [pushFits, hl] using hfits

theorem listInsert_good (h : Good w) (val : α) {i : Iter} (hi : known w i = true)
    (hfits : i.list.all (fun n => invalidNode w n i.node = some true || pushFits w n) = true) :
    Agrees (listInsert w val i) (specStep (specOf w) (.insert val i)) := by
  rcases known_cases h hi with rfl | ⟨n, l, rfl, hl⟩ | ⟨n, l, a, l₁, v, l₂, rfl, hl, hsplit, ha,
    hvalid, hspec⟩ | ⟨n, l, a, rfl, hl, -, hvalid, hspec⟩
  · exact .same h _
  · have hfits' : pushFits w n = true := by simpa [invalidNode] using hfits
    obtain ⟨w', -, -, hrun, hspec, hgood, -⟩ :=
      pushBack_good h hl (pushFits_list hl hfits') val
    have hvalid : (specOf w).isValid ⟨some n, none⟩ = true := by
      simp [Spec.isValid, Good.spec_seqs hl]
    refine ⟨w', .done, ?_, ?_, hgood⟩
    · rw [pushBack] at hrun
      simp [listInsert, invalidNode, hrun]
    · simp [specStep, hvalid, hspec]
  · have hfits' : pushFits w n = true := by simpa [hvalid] using hfits
    have hheap := (hsplit ▸ (h.lists n l hl).cells).heap_eq
    obtain ⟨w', -, -, hrun, hgood, -, -, -, hnew⟩ := addNode_good h hl val (pushFits_list hl hfits')
      l₁ ((a, v) :: l₂) hsplit (fun l => do
        let c ← l.cells.heap a
        some c.prev) fun timer => by
      have hne : a ≠ l.cells.fresh := Nat.ne_of_lt ha
      simp [LinkedList.alloc, LinkedList.write, hne, hheap]
    obtain ⟨htake, hdrop⟩ := h.items_split hl hsplit
    refine ⟨w', .done, ?_, ?_, hgood⟩
    · simp only [Option.bind_eq_bind] at hrun
      simp [listInsert, hvalid, hrun]
    · rw [specStep, hspec]
      dsimp only
      rw [Spec.insertBefore, Spec.add, Good.spec_seqs hl]
      dsimp only [Option.bind_eq_bind, Option.bind_some]
      rw [htake, hdrop, hnew]
      rfl
  · refine ⟨w, .exception .invalidIterator, ?_, ?_, h⟩
    · simp [listInsert, hvalid]
    · simp [specStep, hspec]

theorem iteratorIncr_good (h : Good w) {i : Iter} (hi : known w i = true) :
    Agrees (iteratorIncr w i) (specStep (specOf w) (.incr i)) := by
  rcases known_cases h hi with rfl | ⟨n, l, rfl, hl⟩ | ⟨n, l, a, l₁, v, l₂, rfl, hl, hsplit, -,
    hvalid, hspec⟩ | ⟨n, l, a, rfl, hl, -, hvalid, hspec⟩
  · exact .same h _
  · have hspec : (specOf w).isValid ⟨some n, none⟩ = true := by
      simp [Spec.isValid, Good.spec_seqs hl]
    rw [specStep, hspec]
    exact .same h _
  · have hheap := (hsplit ▸ (h.lists n l hl).cells).heap_eq
    obtain ⟨-, hdrop⟩ := h.items_split hl hsplit
    have hnext : (seqOf w.timers l).next a = LinkedList.headAddr l₂ none := by
      rw [Sequence.next, hdrop]
      cases l₂ <;> rfl
    refine ⟨w, .iter ⟨some n, LinkedList.headAddr l₂ none⟩, ?_, ?_, h⟩
    · simp [iteratorIncr, hvalid, hl, hheap]
    · simp [specStep, hspec, Good.spec_seqs hl, hnext]
  · refine ⟨w, .exception .invalidIterator, ?_, ?_, h⟩
    · simp [iteratorIncr, hvalid]
    · simp [specStep, hspec]

/-- The node of the iterator can be accessed. -/
def iterFits (w : World α) (i : Iter) : Bool :=
  match i.list, i.node with
  | some n, some a => accessFits w n a
  | _, _ => true

theorem iteratorDeref_good (h : Good w) {i : Iter} (hi : known w i = true)
    (hfits : iterFits w i = true) :
    Agrees (iteratorDeref w i) (specStep (specOf w) (.deref i)) := by
  rcases known_cases h hi with rfl | ⟨n, l, rfl, hl⟩ | ⟨n, l, a, l₁, v, l₂, rfl, hl, hsplit, -,
    hvalid, hspec⟩ | ⟨n, l, a, rfl, hl, -, hvalid, hspec⟩
  · exact .same h _
  · have hspec : (specOf w).isValid ⟨some n, none⟩ = true := by
      simp [Spec.isValid, Good.spec_seqs hl]
    rw [specStep, hspec]
    exact .same h _
  · obtain ⟨w', hrun, haccess, hgood⟩ := readNode_good h hl hsplit (fun _ => some a) rfl hfits
    have hfind := h.find_linked hl (show (a, v) ∈ l.entries by simp [hsplit])
    refine ⟨w', .value v.data, ?_, ?_, hgood⟩
    · simp [iteratorDeref, hvalid, hrun]
    · simp [specStep, hspec, Good.spec_seqs hl, hfind, haccess, itemOf]
  · refine ⟨w, .exception .invalidIterator, ?_, ?_, h⟩
    · simp [iteratorDeref, hvalid]
    · simp [specStep, hspec]

theorem accessIter_good (h : Good w) {i : Iter} (hi : known w i = true)
    (hfits : iterFits w i = true) :
    ∃ w', accessIter w i = some (w', none) ∧ (specOf w).accessIter i = some (specOf w') ∧
      Good w' ∧ w'.lists = w.lists := by
  rcases known_cases h hi with rfl | ⟨n, l, rfl, hl⟩ | ⟨n, l, a, -, -, -, rfl, hl, -, ha, -, -⟩ |
    ⟨n, l, a, rfl, hl, ha, -, -⟩
  · exact ⟨w, rfl, rfl, h, rfl⟩
  · exact ⟨w, rfl, rfl, h, rfl⟩
  all_goals
    obtain ⟨w', hrun, hgood, hspec, hlists⟩ := access_good h hl ha hfits
    exact ⟨w', hrun, hspec, hgood, hlists⟩

theorem known_congr {w' : World α} (hlists : w'.lists = w.lists) (i : Iter) :
    known w' i = known w i := by
  rw [known, known, hlists]

theorem iteratorEq_good (h : Good w) {i1 i2 : Iter} (hi1 : known w i1 = true)
    (hi2 : known w i2 = true) (hfits1 : iterFits w i1 = true)
    (hfits2 : (accessIter w i1).all (fun r => iterFits r.1 i2) = true) :
    Agrees (iteratorEq w i1 i2) (specStep (specOf w) (.eq i1 i2)) := by
  obtain ⟨w₁, hrun₁, hspec₁, hgood₁, hlists₁⟩ := accessIter_good h hi1 hfits1
  rw [hrun₁] at hfits2
  obtain ⟨w₂, hrun₂, hspec₂, hgood₂, -⟩ :=
    accessIter_good hgood₁ ((known_congr hlists₁ i2).trans hi2) hfits2
  refine ⟨w₂, .bool (i1 = i2), ?_, ?_, hgood₂⟩
  · simp [iteratorEq, hrun₁, hrun₂]
  · simp [specStep, hspec₁, hspec₂]

end Hilti.Lists
