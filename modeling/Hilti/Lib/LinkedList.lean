import Mathlib.Data.List.Nodup
import Mathlib.Data.List.Perm.Subperm
import Mathlib.Data.List.Basic
import Mathlib.Logic.Function.Basic
import Mathlib.Order.Basic

/-!
# Doubly linked lists on a heap

Cells live at addresses of a heap; a list is given by its first and last cell.  An
operation that follows an absent pointer, or one to a cell that has been freed,
has no result.  `Represents` relates such a list to the cells and values it holds.
-/

namespace Hilti.Lib

set_option autoImplicit false

variable {α : Type}

/-- A cell with its links. -/
structure Cell (α : Type) where
  next : Option ℕ
  prev : Option ℕ
  val : α

/-- A doubly linked list; the addresses from `fresh` on have never been used. -/
structure LinkedList (α : Type) where
  heap : ℕ → Option (Cell α)
  fresh : ℕ
  first : Option ℕ
  last : Option ℕ

namespace LinkedList

/-- The list without cells. -/
def empty : LinkedList α where
  heap _ := none
  fresh := 0
  first := none
  last := none

def write (L : LinkedList α) (a : ℕ) (c : Cell α) : LinkedList α :=
  { L with heap := Function.update L.heap a (some c) }

def setNext (L : LinkedList α) (a : ℕ) (next : Option ℕ) : Option (LinkedList α) := do
  let c ← L.heap a
  some (L.write a { c with next := next })

def setPrev (L : LinkedList α) (a : ℕ) (prev : Option ℕ) : Option (LinkedList α) := do
  let c ← L.heap a
  some (L.write a { c with prev := prev })

def setVal (L : LinkedList α) (a : ℕ) (v : α) : Option (LinkedList α) := do
  let c ← L.heap a
  some (L.write a { c with val := v })

/-- Allocates an unlinked cell at the address `fresh`. -/
def alloc (L : LinkedList α) (v : α) : LinkedList α :=
  { L.write L.fresh ⟨none, none, v⟩ with fresh := L.fresh + 1 }

/-- Links the cell `a` after `prev`, or as the first cell. -/
def insertAfter (L : LinkedList α) (prev : Option ℕ) (a : ℕ) : Option (LinkedList α) :=
  match prev with
  | some p => do
    let c ← L.heap p
    let L ← match c.next with
      | some n => L.setPrev n (some a)
      | none => some { L with last := some a }
    let L ← L.setNext a c.next
    let L ← L.setNext p (some a)
    L.setPrev a (some p)
  | none => do
    let L ← L.setNext a L.first
    let L ← match L.first with
      | some n => L.setPrev n (some a)
      | none => some { L with last := some a }
    some { L with first := some a }

/-- Takes the cell `a` out of the list. -/
def remove (L : LinkedList α) (a : ℕ) : Option (LinkedList α) := do
  let c ← L.heap a
  let L ← match c.next with
    | some n => L.setPrev n c.prev
    | none => some { L with last := c.prev }
  let L ← match c.prev with
    | some p => L.setNext p c.next
    | none => some { L with first := c.next }
  let L ← L.setNext a none
  L.setPrev a none

/-- Frees the cell `a`. -/
def free (L : LinkedList α) (a : ℕ) : LinkedList α :=
  { L with heap := Function.update L.heap a none }

/-- The values found by following the links from `a` on. -/
def walk (h : ℕ → Option (Cell α)) : ℕ → Option ℕ → List α
  | 0, _ => []
  | _ + 1, none => []
  | fuel + 1, some a =>
    match h a with
    | none => []
    | some c => c.val :: walk h fuel c.next

/-- The values of a list in order. -/
def toList (L : LinkedList α) : List α :=
  walk L.heap L.fresh L.first

/-- The cells found by following the links from `a` on. -/
def walkCells (h : ℕ → Option (Cell α)) : ℕ → Option ℕ → List (ℕ × α)
  | 0, _ => []
  | _ + 1, none => []
  | fuel + 1, some a =>
    match h a with
    | none => []
    | some c => (a, c.val) :: walkCells h fuel c.next

/-- The cells of a list in order. -/
def entries (L : LinkedList α) : List (ℕ × α) :=
  walkCells L.heap L.fresh L.first

theorem walk_eq_map (h : ℕ → Option (Cell α)) (fuel : ℕ) (a : Option ℕ) :
    walk h fuel a = (walkCells h fuel a).map Prod.snd := by
  induction fuel generalizing a with
  | zero => rfl
  | succ fuel ih =>
    cases a with
    | none => rfl
    | some a =>
      cases hc : h a with
      | none => simp [walk, walkCells, hc]
      | some c => simp [walk, walkCells, hc, ih]

theorem toList_eq_map (L : LinkedList α) : L.toList = L.entries.map Prod.snd :=
  walk_eq_map _ _ _

/-! ## The cells of a list -/

/-- The address of the first cell, or `nx` when there is none. -/
def headAddr (l : List (ℕ × α)) (nx : Option ℕ) : Option ℕ :=
  match l with
  | [] => nx
  | e :: _ => some e.1

/-- The address of the last cell, or `pv` when there is none. -/
def lastAddr (pv : Option ℕ) : List (ℕ × α) → Option ℕ
  | [] => pv
  | e :: l => lastAddr (some e.1) l

/-- The cells `l` are linked to each other, to `pv` before them and to `nx` after
them. -/
def Chain (h : ℕ → Option (Cell α)) : Option ℕ → List (ℕ × α) → Option ℕ → Prop
  | _, [], _ => True
  | pv, e :: l, nx => h e.1 = some ⟨headAddr l nx, pv, e.2⟩ ∧ Chain h (some e.1) l nx

/-- The list consists of the cells `l`. -/
structure Represents (L : LinkedList α) (l : List (ℕ × α)) : Prop where
  first_eq : L.first = headAddr l none
  last_eq : L.last = lastAddr none l
  chain : Chain L.heap none l none
  nodup : (l.map Prod.fst).Nodup
  old : ∀ a ∈ l.map Prod.fst, a < L.fresh

theorem headAddr_append (l l' : List (ℕ × α)) (nx : Option ℕ) :
    headAddr (l ++ l') nx = headAddr l (headAddr l' nx) := by
  cases l <;> rfl

theorem lastAddr_append (pv : Option ℕ) (l l' : List (ℕ × α)) :
    lastAddr pv (l ++ l') = lastAddr (lastAddr pv l) l' := by
  induction l generalizing pv with
  | nil => rfl
  | cons e l ih => exact ih _

theorem chain_append (h : ℕ → Option (Cell α)) (pv nx : Option ℕ) (l l' : List (ℕ × α)) :
    Chain h pv (l ++ l') nx ↔
      Chain h pv l (headAddr l' nx) ∧ Chain h (lastAddr pv l) l' nx := by
  induction l generalizing pv with
  | nil => simp [Chain, lastAddr]
  | cons e l ih =>
    rw [List.cons_append, Chain, Chain, ih, headAddr_append, lastAddr, and_assoc]

theorem Chain.frame {h h' : ℕ → Option (Cell α)} {pv nx : Option ℕ} {l : List (ℕ × α)}
    (hc : Chain h pv l nx) (heq : ∀ a ∈ l.map Prod.fst, h' a = h a) : Chain h' pv l nx := by
  induction l generalizing pv with
  | nil => trivial
  | cons e l ih =>
    refine ⟨by rw [heq e.1 (by simp)]; exact hc.1, ih hc.2 fun a ha => heq a (by simp_all)⟩

theorem Chain.update {h : ℕ → Option (Cell α)} {pv nx : Option ℕ} {l : List (ℕ × α)}
    (hc : Chain h pv l nx) {a : ℕ} (ha : a ∉ l.map Prod.fst) (c : Option (Cell α)) :
    Chain (Function.update h a c) pv l nx :=
  hc.frame fun b hb => Function.update_of_ne (fun heq : b = a => ha (heq ▸ hb)) _ _

theorem Chain.relink_next {h : ℕ → Option (Cell α)} {pv nx : Option ℕ} {l : List (ℕ × α)}
    {p : ℕ} {w : α} (hc : Chain h pv (l ++ [(p, w)]) nx) (hp : p ∉ l.map Prod.fst)
    (nx' : Option ℕ) :
    Chain (Function.update h p (some ⟨nx', lastAddr pv l, w⟩)) pv (l ++ [(p, w)]) nx' := by
  rw [chain_append] at hc ⊢
  exact ⟨hc.1.update hp _, by simp [Chain, headAddr]⟩

theorem Chain.relink_prev {h : ℕ → Option (Cell α)} {pv nx : Option ℕ} {l : List (ℕ × α)}
    {n : ℕ} {x : α} (hc : Chain h pv ((n, x) :: l) nx) (hn : n ∉ l.map Prod.fst)
    (pv' : Option ℕ) :
    Chain (Function.update h n (some ⟨headAddr l nx, pv', x⟩)) pv' ((n, x) :: l) nx :=
  ⟨by simp, hc.2.update hn _⟩

theorem empty_represents : Represents (empty : LinkedList α) [] where
  first_eq := rfl
  last_eq := rfl
  chain := trivial
  nodup := List.nodup_nil
  old _ h := by simp at h

namespace Represents

variable {L : LinkedList α}

theorem heap_eq {l₁ l₂ : List (ℕ × α)} {a : ℕ} {v : α}
    (h : L.Represents (l₁ ++ (a, v) :: l₂)) :
    L.heap a = some ⟨headAddr l₂ none, lastAddr none l₁, v⟩ :=
  ((chain_append _ _ _ _ _).mp h.chain).2.1

theorem length_le {l : List (ℕ × α)} (h : L.Represents l) : l.length ≤ L.fresh := by
  have hsub : l.map Prod.fst ⊆ List.range L.fresh := fun a ha => List.mem_range.mpr (h.old a ha)
  simpa using (List.subperm_of_subset h.nodup hsub).length_le

theorem entries_eq {l : List (ℕ × α)} (h : L.Represents l) : L.entries = l := by
  have hwalk : ∀ (l : List (ℕ × α)) (pv : Option ℕ) (fuel : ℕ), Chain L.heap pv l none →
      l.length ≤ fuel → walkCells L.heap fuel (headAddr l none) = l := by
    intro l
    induction l with
    | nil =>
      intro pv fuel _ _
      cases fuel <;> rfl
    | cons e l ih =>
      intro pv fuel hc hf
      obtain ⟨fuel, rfl⟩ : ∃ n, fuel = n + 1 :=
        ⟨fuel - 1, (Nat.succ_pred_eq_of_pos (Nat.lt_of_lt_of_le (Nat.succ_pos _) hf)).symm⟩
      have hrest := ih (some e.1) fuel hc.2 (Nat.le_of_succ_le_succ hf)
      rw [headAddr, walkCells, hc.1]
      exact congrArg (e :: ·) hrest
  rw [entries, h.first_eq]
  exact hwalk l none L.fresh h.chain h.length_le

theorem toList_eq {l : List (ℕ × α)} (h : L.Represents l) : L.toList = l.map Prod.snd := by
  rw [toList_eq_map, h.entries_eq]

theorem alloc {l : List (ℕ × α)} (h : L.Represents l) (v : α) :
    (L.alloc v).Represents l ∧ (L.alloc v).heap L.fresh = some ⟨none, none, v⟩ ∧
      L.fresh ∉ l.map Prod.fst := by
  have hnew : L.fresh ∉ l.map Prod.fst := fun hmem => Nat.lt_irrefl _ (h.old _ hmem)
  refine ⟨⟨h.first_eq, h.last_eq, h.chain.update hnew _, h.nodup, fun a ha => ?_⟩, ?_, hnew⟩
  · exact Nat.lt_succ_of_lt (h.old a ha)
  · simp [LinkedList.alloc, write]

theorem singleton (h : L.Represents []) (v : α) :
    ({ L.alloc v with first := some L.fresh, last := some L.fresh } : LinkedList α).Represents
      [(L.fresh, v)] where
  first_eq := rfl
  last_eq := rfl
  chain := ⟨(h.alloc v).2.1, trivial⟩
  nodup := by simp
  old a ha := by
    obtain rfl : a = L.fresh := by simpa using ha
    exact Nat.lt_succ_self _

theorem remove_first {l : List (ℕ × α)} {a : ℕ} {v : α} (h : L.Represents ((a, v) :: l)) :
    ∃ L', L.remove a = some L' ∧ (L'.free a).Represents l ∧ L'.fresh = L.fresh := by
  have hnodup := h.nodup
  rw [List.map_cons, List.nodup_cons] at hnodup
  have ha : L.heap a = some ⟨headAddr l none, none, v⟩ := h.chain.1
  have hrest : Chain L.heap (some a) l none := h.chain.2
  have hold : ∀ b ∈ l.map Prod.fst, b < L.fresh := fun b hb => h.old b (by simp_all)
  cases l with
  | nil =>
    have ha' : L.heap a = some ⟨none, none, v⟩ := ha
    refine ⟨⟨Function.update L.heap a (some ⟨none, none, v⟩), L.fresh, none, none⟩,
      by simp [remove, setNext, setPrev, ha', write], ⟨rfl, rfl, trivial, List.nodup_nil,
        by simp⟩, rfl⟩
  | cons e l =>
    obtain ⟨b, w⟩ := e
    have ha' : L.heap a = some ⟨some b, none, v⟩ := ha
    have hb : L.heap b = some ⟨headAddr l none, some a, w⟩ := hrest.1
    have hne : a ≠ b := fun heq => hnodup.1 (by simp [heq])
    refine ⟨⟨Function.update (Function.update L.heap b (some ⟨headAddr l none, none, w⟩)) a
        (some ⟨none, none, v⟩), L.fresh, some b, L.last⟩,
      by simp [remove, setNext, setPrev, ha', hb, write, hne], ⟨rfl, ?_, ⟨?_, ?_⟩, hnodup.2, hold⟩,
      rfl⟩
    · exact h.last_eq
    · simp [LinkedList.free, hne.symm]
    · have hb' : b ∉ l.map Prod.fst := by
        have := hnodup.2
        rw [List.map_cons, List.nodup_cons] at this
        exact this.1
      have hal : a ∉ l.map Prod.fst := fun hmem => hnodup.1 (by simp_all)
      have hc := ((hrest.2.update hb' (some ⟨headAddr l none, none, w⟩)).update hal
        (some ⟨none, none, v⟩)).update hal none
      refine hc.frame fun c hc => ?_
      have hca : c ≠ a := fun heq => hal (heq ▸ hc)
      have hcb : c ≠ b := fun heq => hb' (heq ▸ hc)
      simp [LinkedList.free, hca, hcb]

theorem insertAfter {l₁ l₂ : List (ℕ × α)} {a : ℕ} {v : α} (h : L.Represents (l₁ ++ l₂))
    (ha : L.heap a = some ⟨none, none, v⟩) (hnew : a ∉ (l₁ ++ l₂).map Prod.fst)
    (hold : a < L.fresh) :
    ∃ L', L.insertAfter (lastAddr none l₁) a = some L' ∧
      L'.Represents (l₁ ++ (a, v) :: l₂) ∧ L'.fresh = L.fresh := by
  have hnew₁ : a ∉ l₁.map Prod.fst := fun hmem => hnew (by simp_all)
  have hnew₂ : a ∉ l₂.map Prod.fst := fun hmem => hnew (by simp_all)
  have hnodup : ((l₁ ++ (a, v) :: l₂).map Prod.fst).Nodup := by
    have hperm : ((l₁ ++ (a, v) :: l₂).map Prod.fst).Perm (a :: (l₁ ++ l₂).map Prod.fst) := by
      exact (show (l₁ ++ (a, v) :: l₂).Perm _ from List.perm_middle).map Prod.fst
    exact hperm.nodup_iff.mpr (List.nodup_cons.mpr ⟨hnew, h.nodup⟩)
  have hallold : ∀ b ∈ (l₁ ++ (a, v) :: l₂).map Prod.fst, b < L.fresh := by
    intro b hb
    have hb' : b = a ∨ b ∈ (l₁ ++ l₂).map Prod.fst := by
      simp only [List.map_append, List.map_cons, List.mem_append, List.mem_cons] at hb ⊢
      tauto
    rcases hb' with rfl | hb'
    · exact hold
    · exact h.old b hb'
  obtain ⟨hc₁, hc₂⟩ := (chain_append _ _ _ _ _).mp h.chain
  have hdisj : ∀ b ∈ l₁.map Prod.fst, b ∉ l₂.map Prod.fst := by
    have := h.nodup
    rw [List.map_append, List.nodup_append] at this
    exact fun b hb hb' => this.2.2 b hb b hb' rfl
  have hfirst := h.first_eq
  have hlast := h.last_eq
  -- the two chains around the new cell, and the cell itself, in the final heap
  suffices hsuff : ∃ h' L', L.insertAfter (lastAddr none l₁) a = some L' ∧ L'.heap = h' ∧
      L'.fresh = L.fresh ∧ L'.first = headAddr l₁ (some a) ∧
      L'.last = lastAddr (some a) l₂ ∧ Chain h' none l₁ (some a) ∧
      h' a = some ⟨headAddr l₂ none, lastAddr none l₁, v⟩ ∧ Chain h' (some a) l₂ none by
    obtain ⟨h', L', hL', rfl, hfresh, hf, hl, h₁, hcell, h₂⟩ := hsuff
    refine ⟨L', hL', ⟨?_, ?_, ?_, hnodup, hfresh ▸ hallold⟩, hfresh⟩
    · rw [hf, headAddr_append]
      rfl
    · rw [hl, lastAddr_append]
      rfl
    · exact (chain_append _ _ _ _ _).mpr ⟨h₁, hcell, h₂⟩
  rcases List.eq_nil_or_concat l₁ with rfl | ⟨l, ⟨p, w⟩, rfl⟩
  · cases l₂ with
    | nil =>
      have hf : L.first = none := hfirst
      exact ⟨_, ⟨Function.update L.heap a (some ⟨none, none, v⟩), L.fresh, some a, some a⟩,
        by simp [LinkedList.insertAfter, lastAddr, setNext, ha, write, hf], rfl, rfl, rfl, rfl,
        trivial, by simp [headAddr, lastAddr], trivial⟩
    | cons e l =>
      obtain ⟨n, x⟩ := e
      have hf : L.first = some n := hfirst
      have hn : L.heap n = some ⟨headAddr l none, none, x⟩ := hc₂.1
      have hne : a ≠ n := fun heq => hnew₂ (by simp [heq])
      have hnl : n ∉ l.map Prod.fst := by
        have := h.nodup
        rw [List.nil_append, List.map_cons, List.nodup_cons] at this
        exact this.1
      refine ⟨_, ⟨Function.update (Function.update L.heap a (some ⟨some n, none, v⟩)) n
          (some ⟨headAddr l none, some a, x⟩), L.fresh, some a, L.last⟩,
        by simp [LinkedList.insertAfter, lastAddr, setNext, setPrev, ha, hn, write, hf, hne.symm],
        rfl, rfl, rfl, hlast, trivial, by simp [headAddr, lastAddr, hne], ?_⟩
      exact (hc₂.update hnew₂ _).relink_prev hnl (some a)
  · rw [List.concat_eq_append] at *
    have hpl : p ∉ l.map Prod.fst := by
      have := h.nodup
      rw [List.map_append, List.nodup_append, List.map_append, List.nodup_append] at this
      exact fun hmem => this.1.2.2 p hmem p (by simp) rfl
    have hp₂ : p ∉ l₂.map Prod.fst := hdisj p (by simp)
    have hpa : a ≠ p := fun heq => hnew₁ (by simp [heq])
    have hp : L.heap p = some ⟨headAddr l₂ none, lastAddr none l, w⟩ := by
      have := ((chain_append _ _ _ _ _).mp hc₁).2.1
      simpa [headAddr] using this
    have hla : lastAddr none (l ++ [(p, w)]) = some p := by simp [lastAddr_append, lastAddr]
    have hhead : L.first = headAddr (l ++ [(p, w)]) (some a) := by
      rw [hfirst, headAddr_append, headAddr_append, headAddr_append]
      rfl
    rw [hla]
    cases l₂ with
    | nil =>
      have hp' : L.heap p = some ⟨none, lastAddr none l, w⟩ := hp
      refine ⟨_, ⟨Function.update (Function.update (Function.update L.heap a
          (some ⟨none, none, v⟩)) p (some ⟨some a, lastAddr none l, w⟩)) a
          (some ⟨none, some p, v⟩), L.fresh, L.first, some a⟩,
        by simp [LinkedList.insertAfter, setNext, setPrev, ha, hp', write, hpa, hpa.symm],
        rfl, rfl, hhead, rfl, ?_, by simp [headAddr], trivial⟩
      exact ((hc₁.update hnew₁ _).relink_next hpl (some a)).update hnew₁ _
    | cons e l' =>
      obtain ⟨n, x⟩ := e
      have hp' : L.heap p = some ⟨some n, lastAddr none l, w⟩ := hp
      have hn : L.heap n = some ⟨headAddr l' none, some p, x⟩ := by
        have := hc₂.1
        rwa [hla] at this
      have hne : a ≠ n := fun heq => hnew₂ (by simp [heq])
      have hpn : p ≠ n := fun heq => hp₂ (by simp [heq])
      have hn₁ : n ∉ (l ++ [(p, w)]).map Prod.fst := fun hmem => hdisj n hmem (by simp)
      have hnl : n ∉ l'.map Prod.fst := by
        have := h.nodup
        rw [List.map_append, List.nodup_append, List.map_cons, List.nodup_cons] at this
        exact this.2.1.1
      refine ⟨_, ⟨Function.update (Function.update (Function.update (Function.update L.heap n
          (some ⟨headAddr l' none, some a, x⟩)) a (some ⟨some n, none, v⟩)) p
          (some ⟨some a, lastAddr none l, w⟩)) a (some ⟨some n, some p, v⟩), L.fresh, L.first,
          L.last⟩,
        by simp [LinkedList.insertAfter, setNext, setPrev, ha, hp', hn, write, hpa, hpa.symm, hne,
          hpn],
        rfl, rfl, hhead, ?_, ?_, by simp [headAddr], ?_⟩
      · rw [hlast, lastAddr_append]
        rfl
      · exact (((hc₁.update hn₁ _).update hnew₁ _).relink_next hpl (some a)).update hnew₁ _
      · exact (((hc₂.relink_prev hnl (some a)).update hnew₂ _).update hp₂ _).update hnew₂ _

theorem insertAfter_heap {l₁ l₂ : List (ℕ × α)} {a : ℕ} {v : α} (h : L.Represents (l₁ ++ l₂))
    (ha : L.heap a = some ⟨none, none, v⟩) (hnew : a ∉ (l₁ ++ l₂).map Prod.fst)
    {L' : LinkedList α} (hrun : L.insertAfter (lastAddr none l₁) a = some L') {b : ℕ}
    (hb : b ∉ (l₁ ++ (a, v) :: l₂).map Prod.fst) : L'.heap b = L.heap b := by
  rw [List.map_append, List.map_cons, List.mem_append, List.mem_cons, not_or, not_or] at hb
  obtain ⟨hb₁, hba, hb₂⟩ := hb
  have hcell : ∀ e l l', l₁ ++ l₂ = l ++ e :: l' →
      L.heap e.1 = some ⟨headAddr l' none, lastAddr none l, e.2⟩ :=
    fun e l l' heq => (heq ▸ h : L.Represents (l ++ e :: l')).heap_eq
  have hfirst := h.first_eq
  cases l₂ with
  | nil =>
    rcases List.eq_nil_or_concat l₁ with rfl | ⟨l, ⟨p, w⟩, rfl⟩
    · have hf : L.first = none := hfirst
      obtain rfl : _ = L' := by
        simpa [LinkedList.insertAfter, lastAddr, setNext, ha, write, hf] using hrun
      simp [hba]
    · rw [List.concat_eq_append] at *
      have hla : lastAddr none (l ++ [(p, w)]) = some p := by simp [lastAddr_append, lastAddr]
      have hp := hcell (p, w) l [] (by simp)
      have hpa : a ≠ p := fun heq => hnew (by simp [heq])
      have hbp : b ≠ p := fun heq => hb₁ (by simp [heq])
      rw [hla] at hrun
      obtain rfl : _ = L' := by
        simpa [LinkedList.insertAfter, setNext, setPrev, ha, hp, write, headAddr, hpa, hpa.symm]
          using hrun
      simp [hba, hbp]
  | cons e l' =>
    obtain ⟨n, x⟩ := e
    have hn := hcell (n, x) l₁ l' rfl
    have hne : a ≠ n := fun heq => hnew (by simp [heq])
    have hbn : b ≠ n := fun heq => hb₂ (by simp [heq])
    rcases List.eq_nil_or_concat l₁ with rfl | ⟨l, ⟨p, w⟩, rfl⟩
    · have hf : L.first = some n := hfirst
      obtain rfl : _ = L' := by
        simpa [LinkedList.insertAfter, lastAddr, setNext, setPrev, ha, hn, write, hf, hne.symm]
          using hrun
      simp [hba, hbn]
    · rw [List.concat_eq_append] at *
      have hla : lastAddr none (l ++ [(p, w)]) = some p := by simp [lastAddr_append, lastAddr]
      have hp := hcell (p, w) l ((n, x) :: l') (by simp)
      have hpa : a ≠ p := fun heq => hnew (by simp [heq])
      have hbp : b ≠ p := fun heq => hb₁ (by simp [heq])
      have hpn : p ≠ n := by
        have hnodup := h.nodup
        rw [List.map_append, List.nodup_append] at hnodup
        exact hnodup.2.2 p (by simp) n (by simp)
      rw [hla] at hrun
      obtain rfl : _ = L' := by
        simpa [LinkedList.insertAfter, setNext, setPrev, ha, hp, hn, write, headAddr, hpa, hpa.symm,
          hne, hpn] using hrun
      simp [hba, hbn, hbp]

theorem of_heap {L' : LinkedList α} {l : List (ℕ × α)} (h : L.Represents l)
    (hfirst : L'.first = L.first) (hlast : L'.last = L.last) (hfresh : L'.fresh = L.fresh)
    (hheap : ∀ a ∈ l.map Prod.fst, L'.heap a = L.heap a) : L'.Represents l where
  first_eq := hfirst.trans h.first_eq
  last_eq := hlast.trans h.last_eq
  chain := h.chain.frame hheap
  nodup := h.nodup
  old a ha := hfresh ▸ h.old a ha

theorem remove {l₁ l₂ : List (ℕ × α)} {a : ℕ} {v : α} (h : L.Represents (l₁ ++ (a, v) :: l₂)) :
    ∃ L', L.remove a = some L' ∧ L'.Represents (l₁ ++ l₂) ∧ L'.fresh = L.fresh ∧
      L'.heap a = some ⟨none, none, v⟩ ∧
      ∀ b ∉ (l₁ ++ (a, v) :: l₂).map Prod.fst, L'.heap b = L.heap b := by
  have hnodup := h.nodup
  rw [List.map_append, List.map_cons, List.nodup_append] at hnodup
  obtain ⟨hnodup₁, hnodup₂, hdisj⟩ := hnodup
  obtain ⟨ha₂, hnodup₂⟩ := List.nodup_cons.mp hnodup₂
  have ha₁ : a ∉ l₁.map Prod.fst := fun hmem => hdisj a hmem a List.mem_cons_self rfl
  have hdisj' : ∀ b ∈ l₁.map Prod.fst, b ∉ l₂.map Prod.fst :=
    fun b hb hb' => hdisj b hb b (List.mem_cons_of_mem _ hb') rfl
  obtain ⟨hc₁, hcell, hc₂⟩ := (chain_append _ _ _ _ _).mp h.chain
  -- what comes behind the cell gets another predecessor
  obtain ⟨L₁, hL₁, hfirst₁, hfresh₁, hlast₁, hchain₁, hheap₁⟩ : ∃ L₁,
      (match headAddr l₂ none with
        | some n => L.setPrev n (lastAddr none l₁)
        | none => some { L with last := lastAddr none l₁ }) = some L₁ ∧
      L₁.first = L.first ∧ L₁.fresh = L.fresh ∧ L₁.last = lastAddr (lastAddr none l₁) l₂ ∧
      Chain L₁.heap (lastAddr none l₁) l₂ none ∧
      ∀ b ∉ l₂.map Prod.fst, L₁.heap b = L.heap b := by
    have hlast := h.last_eq
    rw [lastAddr_append] at hlast
    cases l₂ with
    | nil => exact ⟨_, rfl, rfl, rfl, rfl, trivial, fun _ _ => rfl⟩
    | cons e l =>
      obtain ⟨n, x⟩ := e
      have hn : L.heap n = some ⟨headAddr l none, some a, x⟩ := hc₂.1
      have hnl : n ∉ l.map Prod.fst := (List.nodup_cons.mp hnodup₂).1
      refine ⟨L.write n ⟨headAddr l none, lastAddr none l₁, x⟩, by simp [headAddr, setPrev, hn],
        rfl, rfl, hlast, hc₂.relink_prev hnl _, fun b hb => ?_⟩
      exact Function.update_of_ne (fun heq => hb (by simp [heq])) _ _
  -- what comes before it gets another successor
  obtain ⟨L₂, hL₂, hfresh₂, hlast₂, hfirst₂, hchain₂, hheap₂⟩ : ∃ L₂,
      (match lastAddr none l₁ with
        | some p => L₁.setNext p (headAddr l₂ none)
        | none => some { L₁ with first := headAddr l₂ none }) = some L₂ ∧
      L₂.fresh = L₁.fresh ∧ L₂.last = L₁.last ∧ L₂.first = headAddr l₁ (headAddr l₂ none) ∧
      Chain L₂.heap none l₁ (headAddr l₂ none) ∧
      ∀ b ∉ l₁.map Prod.fst, L₂.heap b = L₁.heap b := by
    have hc₁' : Chain L₁.heap none l₁ (some a) := hc₁.frame fun b hb => hheap₁ b (hdisj' b hb)
    rcases List.eq_nil_or_concat l₁ with rfl | ⟨l, ⟨p, w⟩, rfl⟩
    · exact ⟨_, rfl, rfl, rfl, rfl, trivial, fun _ _ => rfl⟩
    · rw [List.concat_eq_append] at *
      have hla : lastAddr none (l ++ [(p, w)]) = some p := by simp [lastAddr_append, lastAddr]
      have hp : L₁.heap p = some ⟨some a, lastAddr none l, w⟩ :=
        ((chain_append _ _ _ _ _).mp hc₁').2.1
      have hpl : p ∉ l.map Prod.fst := by
        rw [List.map_append, List.nodup_append] at hnodup₁
        exact fun hmem => hnodup₁.2.2 p hmem p (by simp) rfl
      refine ⟨L₁.write p ⟨headAddr l₂ none, lastAddr none l, w⟩, by simp [hla, setNext, hp], rfl,
        rfl, ?_, hc₁'.relink_next hpl _, fun b hb => ?_⟩
      · change L₁.first = _
        rw [hfirst₁, h.first_eq, headAddr_append, headAddr_append, headAddr_append]
        rfl
      · exact Function.update_of_ne (fun heq => hb (by simp [heq])) _ _
  have ha : L₂.heap a = some ⟨headAddr l₂ none, lastAddr none l₁, v⟩ := by
    rw [hheap₂ a ha₁, hheap₁ a ha₂]
    exact hcell
  refine ⟨L₂.write a ⟨none, none, v⟩, ?_, ⟨?_, ?_, ?_, ?_, ?_⟩, ?_, ?_, ?_⟩
  · have hend : (L₂.setNext a none).bind (fun L => L.setPrev a none) =
        some (L₂.write a ⟨none, none, v⟩) := by simp [setNext, setPrev, ha, write]
    rw [LinkedList.remove, hcell]
    cases hn : headAddr l₂ none with
    | none =>
      cases hp : lastAddr none l₁ with
      | none =>
        rw [hn, hp] at hL₁
        rw [hn, hp] at hL₂
        obtain rfl := Option.some.inj hL₁
        obtain rfl := Option.some.inj hL₂
        exact hend
      | some p =>
        rw [hn, hp] at hL₁
        rw [hn, hp] at hL₂
        obtain rfl := Option.some.inj hL₁
        simp only [Option.bind_eq_bind, Option.bind_some, hL₂, hend]
    | some n =>
      cases hp : lastAddr none l₁ with
      | none =>
        rw [hn, hp] at hL₁
        rw [hn, hp] at hL₂
        obtain rfl := Option.some.inj hL₂
        simp only [Option.bind_eq_bind, Option.bind_some, hL₁, hend]
      | some p =>
        rw [hn, hp] at hL₁
        rw [hn, hp] at hL₂
        simp only [Option.bind_eq_bind, Option.bind_some, hL₁, hL₂, hend]
  · exact hfirst₂.trans (headAddr_append _ _ _).symm
  · exact hlast₂.trans (hlast₁.trans (lastAddr_append _ _ _).symm)
  · refine (chain_append _ _ _ _ _).mpr ⟨hchain₂.update ha₁ _, ?_⟩
    exact (hchain₁.frame fun b hb => hheap₂ b fun hb' => hdisj' b hb' hb).update ha₂ _
  · rw [List.map_append, List.nodup_append]
    exact ⟨hnodup₁, hnodup₂, fun b hb c hc heq => hdisj' b hb (heq ▸ hc)⟩
  · intro b hb
    change b < L₂.fresh
    rw [hfresh₂, hfresh₁]
    refine h.old b ?_
    rw [List.map_append, List.mem_append] at hb ⊢
    exact hb.imp_right (List.mem_cons_of_mem _)
  · exact hfresh₂.trans hfresh₁
  · exact Function.update_self a _ _
  · intro b hb
    rw [List.map_append, List.map_cons, List.mem_append, List.mem_cons, not_or, not_or] at hb
    have hba : (L₂.write a ⟨none, none, v⟩).heap b = L₂.heap b := Function.update_of_ne hb.2.1 _ _
    rw [hba, hheap₂ b hb.1, hheap₁ b hb.2.2]

end Represents

end LinkedList

end Hilti.Lib
