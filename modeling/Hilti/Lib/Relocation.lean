import Mathlib.Tactic
import Hilti.Lib.LinkedList

/-!
# Linked lists at other addresses

The operations on a linked list do not depend on where its cells lie, nor on what else
there is in memory.  `relocate` moves a list by `k` addresses into a memory that holds `g`
below them; every operation commutes with it.
-/

namespace Hilti.Lib

set_option autoImplicit false

variable {α : Type}

def Cell.relocate (k : ℕ) (c : Cell α) : Cell α :=
  ⟨c.next.map (· + k), c.prev.map (· + k), c.val⟩

@[simp] theorem Cell.relocate_next (k : ℕ) (c : Cell α) :
    (c.relocate k).next = c.next.map (· + k) := rfl

@[simp] theorem Cell.relocate_prev (k : ℕ) (c : Cell α) :
    (c.relocate k).prev = c.prev.map (· + k) := rfl

@[simp] theorem Cell.relocate_val (k : ℕ) (c : Cell α) : (c.relocate k).val = c.val := rfl

namespace LinkedList

def Confined (L : LinkedList α) : Prop :=
  ∀ a, L.fresh ≤ a → L.heap a = none

def relocate (g : ℕ → Option (Cell α)) (k : ℕ) (L : LinkedList α) : LinkedList α where
  heap a := if a < k then g a else (L.heap (a - k)).map (Cell.relocate k)
  fresh := L.fresh + k
  first := L.first.map (· + k)
  last := L.last.map (· + k)

section

variable (g : ℕ → Option (Cell α)) (k : ℕ) (L : LinkedList α)

@[simp] theorem relocate_heap (a : ℕ) :
    (L.relocate g k).heap (a + k) = (L.heap a).map (Cell.relocate k) := by
  simp [relocate]

@[simp] theorem relocate_fresh : (L.relocate g k).fresh = L.fresh + k := rfl

@[simp] theorem relocate_first : (L.relocate g k).first = L.first.map (· + k) := rfl

@[simp] theorem relocate_last : (L.relocate g k).last = L.last.map (· + k) := rfl

theorem update_relocate (a : ℕ) (v : Option (Cell α)) (b : ℕ) :
    Function.update (L.relocate g k).heap (a + k) (v.map (Cell.relocate k)) b =
      if b < k then g b else (Function.update L.heap a v (b - k)).map (Cell.relocate k) := by
  by_cases hb : b < k
  · rw [Function.update_of_ne (by omega), if_pos hb]
    exact if_pos hb
  · rw [if_neg hb]
    by_cases hab : b = a + k
    · subst hab
      simp
    · rw [Function.update_of_ne hab, Function.update_of_ne (by omega)]
      simp only [relocate, if_neg hb]

theorem relocate_write (a : ℕ) (c : Cell α) :
    (L.relocate g k).write (a + k) (c.relocate k) = (L.write a c).relocate g k := by
  unfold write relocate
  congr 1
  funext b
  exact update_relocate g k L a (some c) b

theorem relocate_free (a : ℕ) :
    (L.relocate g k).free (a + k) = (L.free a).relocate g k := by
  unfold free relocate
  congr 1
  funext b
  exact update_relocate g k L a none b

theorem relocate_alloc (v : α) :
    (L.relocate g k).alloc v = (L.alloc v).relocate g k := by
  have hcell : (⟨none, none, v⟩ : Cell α) = Cell.relocate k ⟨none, none, v⟩ := rfl
  have hwrite := relocate_write g k L L.fresh ⟨none, none, v⟩
  simp only [alloc, relocate_fresh]
  rw [hcell, hwrite]
  simp only [relocate, write, Nat.add_right_comm]
  rfl

theorem relocate_setNext (a : ℕ) (next : Option ℕ) :
    (L.relocate g k).setNext (a + k) (next.map (· + k)) =
      (L.setNext a next).map (relocate g k) := by
  cases hc : L.heap a with
  | none => simp [setNext, hc]
  | some c =>
    have hwrite := relocate_write g k L a { c with next := next }
    simp only [setNext, relocate_heap, hc, Option.map_some, Option.bind_eq_bind, Option.bind_some]
    rw [← hwrite]
    rfl

theorem relocate_setPrev (a : ℕ) (prev : Option ℕ) :
    (L.relocate g k).setPrev (a + k) (prev.map (· + k)) =
      (L.setPrev a prev).map (relocate g k) := by
  cases hc : L.heap a with
  | none => simp [setPrev, hc]
  | some c =>
    have hwrite := relocate_write g k L a { c with prev := prev }
    simp only [setPrev, relocate_heap, hc, Option.map_some, Option.bind_eq_bind, Option.bind_some]
    rw [← hwrite]
    rfl

theorem relocate_setNext_some (a n : ℕ) :
    (L.relocate g k).setNext (a + k) (some (n + k)) = (L.setNext a (some n)).map (relocate g k) :=
  relocate_setNext g k L a (some n)

theorem relocate_setNext_none (a : ℕ) :
    (L.relocate g k).setNext (a + k) none = (L.setNext a none).map (relocate g k) :=
  relocate_setNext g k L a none

theorem relocate_setPrev_some (a n : ℕ) :
    (L.relocate g k).setPrev (a + k) (some (n + k)) = (L.setPrev a (some n)).map (relocate g k) :=
  relocate_setPrev g k L a (some n)

theorem relocate_setPrev_none (a : ℕ) :
    (L.relocate g k).setPrev (a + k) none = (L.setPrev a none).map (relocate g k) :=
  relocate_setPrev g k L a none

theorem relocate_insertAfter (prev : Option ℕ) (a : ℕ) :
    (L.relocate g k).insertAfter (prev.map (· + k)) (a + k) =
      (L.insertAfter prev a).map (relocate g k) := by
  cases prev with
  | none =>
    cases hL₁ : L.setNext a L.first with
    | none => simp [insertAfter, relocate_setNext, hL₁]
    | some L₁ =>
      cases hfirst : L₁.first with
      | none =>
        simp [insertAfter, relocate_setNext, hL₁, hfirst]
        rfl
      | some n =>
        simp [insertAfter, relocate_setNext, hL₁, hfirst, relocate_setPrev_some]
        cases L₁.setPrev n (some a) <;> rfl
  | some p =>
    have hlink : ∀ (L : LinkedList α) (n : Option ℕ),
        (((L.relocate g k).setNext (a + k) (n.map (· + k))).bind fun L =>
          (L.setNext (p + k) (some (a + k))).bind fun L => L.setPrev (a + k) (some (p + k))) =
        (((L.setNext a n).bind fun L => (L.setNext p (some a)).bind fun L =>
          L.setPrev a (some p))).map (relocate g k) := by
      intro L n
      rw [relocate_setNext]
      cases L.setNext a n with
      | none => rfl
      | some L₁ =>
        simp only [Option.map_some, Option.bind_some, relocate_setNext_some]
        cases L₁.setNext p (some a) with
        | none => rfl
        | some L₂ => exact relocate_setPrev_some g k L₂ a p
    cases hc : L.heap p with
    | none => simp [insertAfter, hc]
    | some c =>
      cases hn : c.next with
      | none =>
        have hlast := hlink { L with last := some a } none
        simp only [insertAfter, Option.map_some, relocate_heap, hc, Cell.relocate, hn,
          Option.bind_eq_bind, Option.bind_some, Option.map_none] at hlast ⊢
        exact hlast
      | some n =>
        simp only [insertAfter, Option.map_some, relocate_heap, hc, Cell.relocate, hn,
          Option.bind_eq_bind, Option.bind_some, relocate_setPrev_some]
        cases L.setPrev n (some a) with
        | none => rfl
        | some L₁ => exact hlink L₁ (some n)

theorem relocate_remove (a : ℕ) :
    (L.relocate g k).remove (a + k) = (L.remove a).map (relocate g k) := by
  have hunlink : ∀ L : LinkedList α,
      (((L.relocate g k).setNext (a + k) none).bind fun L => L.setPrev (a + k) none) =
        ((L.setNext a none).bind fun L => L.setPrev a none).map (relocate g k) := by
    intro L
    rw [relocate_setNext_none]
    cases L.setNext a none with
    | none => rfl
    | some L₁ => exact relocate_setPrev_none g k L₁ a
  have hback : ∀ (L : LinkedList α) (next : Option ℕ) (p : ℕ),
      (((L.relocate g k).setNext (p + k) (next.map (· + k))).bind fun L =>
        (L.setNext (a + k) none).bind fun L => L.setPrev (a + k) none) =
      ((L.setNext p next).bind fun L =>
        (L.setNext a none).bind fun L => L.setPrev a none).map (relocate g k) := by
    intro L next p
    rw [relocate_setNext]
    cases L.setNext p next with
    | none => rfl
    | some L₁ => exact hunlink L₁
  cases hc : L.heap a with
  | none => simp [remove, hc]
  | some c =>
    cases hn : c.next with
    | none =>
      simp only [remove, relocate_heap, hc, Option.map_some, Option.bind_eq_bind, Option.bind_some,
        Cell.relocate, hn, Option.map_none]
      cases hp : c.prev with
      | none => exact hunlink { L with first := none, last := none }
      | some p => exact hback { L with last := some p } none p
    | some n =>
      simp only [remove, relocate_heap, hc, Option.map_some, Option.bind_eq_bind, Option.bind_some,
        Cell.relocate, hn, relocate_setPrev]
      cases L.setPrev n c.prev with
      | none => rfl
      | some L₁ =>
        simp only [Option.map_some, Option.bind_some]
        cases hp : c.prev with
        | none => exact hunlink { L₁ with first := some n }
        | some p => exact hback L₁ (some n) p

end

/-! ## Memory in use -/

section

variable {L L' : LinkedList α}

theorem Confined.write (h : L.Confined) {a : ℕ} {c : Cell α} (hc : L.heap a = some c)
    (c' : Cell α) : (L.write a c').Confined := by
  intro b hb
  have hne : b ≠ a := by
    rintro rfl
    rw [h b hb] at hc
    cases hc
  exact (Function.update_of_ne hne _ _).trans (h b hb)

theorem Confined.setNext (h : L.Confined) {a : ℕ} {n : Option ℕ} (heq : L.setNext a n = some L') :
    L'.Confined := by
  obtain ⟨c, hc, heq⟩ := Option.bind_eq_some_iff.mp heq
  cases heq
  exact h.write hc _

theorem Confined.setPrev (h : L.Confined) {a : ℕ} {n : Option ℕ} (heq : L.setPrev a n = some L') :
    L'.Confined := by
  obtain ⟨c, hc, heq⟩ := Option.bind_eq_some_iff.mp heq
  cases heq
  exact h.write hc _

theorem Confined.alloc (h : L.Confined) (v : α) : (L.alloc v).Confined := by
  intro b hb
  have hlt : L.fresh < b := hb
  exact (Function.update_of_ne hlt.ne' _ _).trans (h b hlt.le)

theorem Confined.free (h : L.Confined) (a : ℕ) : (L.free a).Confined := by
  intro b hb
  have hnone := h b hb
  by_cases hba : b = a
  · subst hba
    exact Function.update_self _ _ _
  · exact (Function.update_of_ne hba _ _).trans hnone

theorem Confined.insertAfter (h : L.Confined) {prev : Option ℕ} {a : ℕ}
    (heq : L.insertAfter prev a = some L') : L'.Confined := by
  cases prev with
  | none =>
    obtain ⟨L₁, h₁, heq⟩ := Option.bind_eq_some_iff.mp heq
    have hL₁ := h.setNext h₁
    cases hfirst : L₁.first with
    | none =>
      simp only [hfirst] at heq
      cases heq
      exact hL₁
    | some n =>
      simp only [hfirst] at heq
      obtain ⟨L₂, h₂, heq⟩ := Option.bind_eq_some_iff.mp heq
      cases heq
      have hL₂ : L₂.Confined := hL₁.setPrev h₂
      exact hL₂
  | some p =>
    obtain ⟨c, -, heq⟩ := Option.bind_eq_some_iff.mp heq
    have hlink : ∀ {L₁ : LinkedList α}, L₁.Confined →
        ((L₁.setNext a c.next).bind fun L => (L.setNext p (some a)).bind fun L =>
          L.setPrev a (some p)) = some L' → L'.Confined := by
      intro L₁ hL₁ heq
      obtain ⟨L₂, h₂, heq⟩ := Option.bind_eq_some_iff.mp heq
      obtain ⟨L₃, h₃, heq⟩ := Option.bind_eq_some_iff.mp heq
      exact ((hL₁.setNext h₂).setNext h₃).setPrev heq
    cases hn : c.next with
    | none =>
      rw [hn] at hlink
      simp only [hn] at heq
      exact hlink (show Confined { L with last := some a } from h) heq
    | some n =>
      rw [hn] at hlink
      simp only [hn] at heq
      obtain ⟨L₁, h₁, heq⟩ := Option.bind_eq_some_iff.mp heq
      exact hlink (h.setPrev h₁) heq

theorem Confined.remove (h : L.Confined) {a : ℕ} (heq : L.remove a = some L') : L'.Confined := by
  obtain ⟨c, -, heq⟩ := Option.bind_eq_some_iff.mp heq
  have hunlink : ∀ {L₁ : LinkedList α}, L₁.Confined →
      ((L₁.setNext a none).bind fun L => L.setPrev a none) = some L' → L'.Confined := by
    intro L₁ hL₁ heq
    obtain ⟨L₂, h₂, heq⟩ := Option.bind_eq_some_iff.mp heq
    exact (hL₁.setNext h₂).setPrev heq
  have hback : ∀ {L₁ : LinkedList α} {p : ℕ}, L₁.Confined →
      ((L₁.setNext p c.next).bind fun L =>
        (L.setNext a none).bind fun L => L.setPrev a none) = some L' → L'.Confined := by
    intro L₁ p hL₁ heq
    obtain ⟨L₂, h₂, heq⟩ := Option.bind_eq_some_iff.mp heq
    exact hunlink (hL₁.setNext h₂) heq
  cases hn : c.next with
  | none =>
    rw [hn] at hback
    simp only [hn] at heq
    cases hp : c.prev with
    | none =>
      rw [hp] at heq
      exact hunlink (show Confined { L with first := none, last := none } from h) heq
    | some p =>
      rw [hp] at heq
      exact hback (show Confined { L with last := some p } from h) heq
  | some n =>
    rw [hn] at hback
    simp only [hn] at heq
    obtain ⟨L₁, h₁, heq⟩ := Option.bind_eq_some_iff.mp heq
    have hL₁ : L₁.Confined := h.setPrev h₁
    cases hp : c.prev with
    | none =>
      rw [hp] at heq
      exact hunlink (show Confined { L₁ with first := some n } from hL₁) heq
    | some p =>
      rw [hp] at heq
      exact hback hL₁ heq

theorem Confined.eq_relocate (h : L.Confined) (hfirst : L.first = none) (hlast : L.last = none) :
    L = empty.relocate L.heap L.fresh := by
  obtain ⟨heap, fresh, first, last⟩ := L
  simp only at hfirst hlast
  subst hfirst
  subst hlast
  simp only [relocate, empty, Option.map_none, Nat.zero_add, mk.injEq, and_true]
  funext a
  split
  · rfl
  · rename_i hge
    exact h a (not_lt.mp hge)

end

end LinkedList

end Hilti.Lib
