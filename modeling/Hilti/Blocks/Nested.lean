import Mathlib
import Hilti.Blocks.Model

/-!
# Nested bodies as listings

Executing a body with nested blocks is executing its listing: falling through at the end
of a block, and entering one, lead to the next line.
-/

namespace Hilti.Blocks

open Hilti.Lib

set_option autoImplicit false

variable {α I : Type}

namespace Statements

def listing : Statements I → List (Item I String)
  | nil => []
  | instr i rest => .instr i :: rest.listing
  | block id stmts rest => id.toList.map .label ++ (stmts.listing ++ rest.listing)

def size : Statements I → ℕ
  | nil => 1
  | instr _ rest => rest.size + 1
  | block _ stmts rest => stmts.size + rest.size + 1

theorem labels_listing (s : Statements I) : Item.labels s.listing = s.labels := by
  induction s with
  | nil => rfl
  | instr i rest ih => exact ih
  | block id stmts rest ihs ihr =>
    unfold listing labels
    rw [Item.labels_append, Item.labels_append, ihs, ihr]
    cases id with
    | none => rfl
    | some l => rfl

end Statements

open Statements

def lines (k : List (Statements I)) : List (Item I String) := k.flatMap listing

@[simp] theorem lines_nil : lines ([] : List (Statements I)) = [] := rfl

@[simp] theorem lines_cons (s : Statements I) (k : List (Statements I)) :
    lines (s :: k) = s.listing ++ lines k := rfl

theorem lines_block (id : Option String) (stmts rest : Statements I) (k : List (Statements I)) :
    lines (block id stmts rest :: k) = id.toList.map .label ++ lines (stmts :: rest :: k) := by
  simp [listing, List.append_assoc]

theorem find_listing {l : String} (s : Statements I) : ∀ (k : List (Statements I)),
    (∀ k', s.find l k = some k' → Item.find l (lines (s :: k)) = some (lines k')) ∧
      (s.find l k = none → l ∉ s.labels) := by
  induction s with
  | nil =>
    intro k
    exact ⟨nofun, fun _ => List.not_mem_nil⟩
  | instr i rest ih => exact ih
  | block id stmts rest ihs ihr =>
    intro k
    unfold Statements.find
    by_cases hid : id = some l
    · rw [if_pos hid]
      refine ⟨fun k' h => ?_, fun h => by cases h⟩
      cases h
      rw [lines_block, hid]
      exact if_pos rfl
    · rw [if_neg hid]
      have hskip : Item.find l (lines (block id stmts rest :: k)) =
          Item.find l (lines (stmts :: rest :: k)) := by
        rw [lines_block]
        cases id with
        | none => rfl
        | some l' => exact if_neg fun hl => hid (congrArg some hl)
      obtain ⟨hsome, hnone⟩ := ihs (rest :: k)
      rw [hskip]
      cases hs : stmts.find l (rest :: k) with
      | some k₁ =>
        refine ⟨fun k' h => ?_, fun h => by cases h⟩
        cases h
        exact hsome k₁ hs
      | none =>
        obtain ⟨hsome', hnone'⟩ := ihr k
        have hno := hnone hs
        constructor
        · intro k' h
          have hno' : l ∉ Item.labels stmts.listing := by rwa [labels_listing]
          rw [lines_cons, Item.find_append_of_not_mem _ _ hno']
          exact hsome' k' h
        · intro h
          unfold labels
          rw [List.mem_append, List.mem_append, not_or, not_or]
          refine ⟨fun hl => ?_, hno, hnone' h⟩
          cases id with
          | none => cases hl
          | some l' => exact hid (congrArg some (List.mem_singleton.mp hl).symm)

theorem find_listing_eq (body : Statements I) (l : String) :
    Item.find l body.listing = (body.find l []).map lines := by
  obtain ⟨hsome, hnone⟩ := find_listing (l := l) body []
  cases h : body.find l [] with
  | some k =>
    have hk := hsome k h
    rwa [lines_cons, lines_nil, List.append_nil] at hk
  | none =>
    apply Item.find_eq_none.mpr
    rw [labels_listing]
    exact hnone h

variable {body : Statements (Instruction α)} {ds : List (Option ℕ)} {tr : List α}

theorem follow_listing (i : Instruction α) (k : List (Statements (Instruction α)))
    (d : Option ℕ) :
    (reading α).follow body.listing i (lines k) d = (follow body i k d).map lines := by
  cases d with
  | none =>
    unfold follow
    rw [follow_none]
    change (if i.terminator = true then none else some (lines k)) = _
    split <;> rfl
  | some j =>
    change (i.successors[j]?.bind fun l => Item.find l body.listing) =
      (i.successors[j]?.bind fun l => body.find l []).map lines
    cases i.successors[j]? with
    | none => rfl
    | some l => exact find_listing_eq body l

theorem exec_of_runs {k : List (Statements (Instruction α))} (h : Runs body k ds tr) :
    (reading α).Exec body.listing (lines k) ds tr := by
  induction h with
  | done k => exact .done _
  | leave _ ih => exact ih
  | @enter id stmts rest k _ _ _ ih =>
    rw [lines_block]
    cases id with
    | none => exact ih
    | some l => exact .label ih
  | @silent i rest k _ _ _ hi hf _ ih =>
    exact .silent hi ((follow_listing i (rest :: k) _).trans (congrArg (Option.map lines) hf)) ih
  | last hi => exact .last hi
  | @step i a rest k _ d _ _ hi hf _ ih =>
    exact .step hi ((follow_listing i (rest :: k) d).trans (congrArg (Option.map lines) hf)) ih

theorem lines_cases (body : Statements (Instruction α)) (n : ℕ) :
    ∀ (k : List (Statements (Instruction α))), (k.map size).sum ≤ n →
      lines k = [] ∨
      (∃ l k', lines k = .label l :: lines k' ∧ ∀ ds tr, Runs body k' ds tr → Runs body k ds tr) ∨
      ∃ i rest k', lines k = .instr i :: lines (rest :: k') ∧
        ∀ ds tr, Runs body (instr i rest :: k') ds tr → Runs body k ds tr := by
  induction n with
  | zero =>
    intro k hk
    cases k with
    | nil => exact .inl rfl
    | cons s k =>
      have hs : 0 < s.size := by cases s <;> simp [size]
      simp only [List.map_cons, List.sum_cons] at hk
      omega
  | succ n ih =>
    intro k hk
    cases k with
    | nil => exact .inl rfl
    | cons s k =>
      cases s with
      | nil =>
        simp only [List.map_cons, List.sum_cons, size] at hk
        obtain h | ⟨l, k', h, hruns⟩ | ⟨i, rest, k', h, hruns⟩ := ih k (by omega)
        · exact .inl h
        · exact .inr (.inl ⟨l, k', h, fun ds tr hr => .leave (hruns ds tr hr)⟩)
        · exact .inr (.inr ⟨i, rest, k', h, fun ds tr hr => .leave (hruns ds tr hr)⟩)
      | instr i rest => exact .inr (.inr ⟨i, rest, k, rfl, fun ds tr hr => hr⟩)
      | block id stmts rest =>
        cases id with
        | some l =>
          exact .inr (.inl ⟨l, stmts :: rest :: k, lines_block _ _ _ _, fun ds tr hr => .enter hr⟩)
        | none =>
          have hlines : lines (block none stmts rest :: k) = lines (stmts :: rest :: k) :=
            lines_block _ _ _ _
          simp only [List.map_cons, List.sum_cons, size] at hk
          rw [hlines]
          obtain h | ⟨l, k', h, hruns⟩ | ⟨i, rest', k', h, hruns⟩ :=
            ih (stmts :: rest :: k) (by simp only [List.map_cons, List.sum_cons]; omega)
          · exact .inl h
          · exact .inr (.inl ⟨l, k', h, fun ds tr hr => .enter (hruns ds tr hr)⟩)
          · exact .inr (.inr ⟨i, rest', k', h, fun ds tr hr => .enter (hruns ds tr hr)⟩)

theorem runs_of_exec {s : List (Item (Instruction α) String)}
    (h : (reading α).Exec body.listing s ds tr) :
    ∀ k, lines k = s → Runs body k ds tr := by
  induction h with
  | done => exact fun k _ => .done k
  | label _ ih =>
    intro k hk
    obtain h | ⟨l, k', h, hruns⟩ | ⟨i, rest, k', h, hruns⟩ := lines_cases body _ k le_rfl
    · rw [h] at hk
      cases hk
    · rw [h] at hk
      cases hk
      exact hruns _ _ (ih k' rfl)
    · rw [h] at hk
      cases hk
  | silent hi hf _ ih =>
    intro k hk
    obtain h | ⟨l, k', h, hruns⟩ | ⟨i, rest, k', h, hruns⟩ := lines_cases body _ k le_rfl
    · rw [h] at hk
      cases hk
    · rw [h] at hk
      cases hk
    · rw [h] at hk
      cases hk
      rw [follow_listing] at hf
      obtain ⟨k₁, hk₁, hlines⟩ := Option.map_eq_some_iff.mp hf
      exact hruns _ _ (.silent hi hk₁ (ih k₁ hlines))
  | last hi =>
    intro k hk
    obtain h | ⟨l, k', h, hruns⟩ | ⟨i, rest, k', h, hruns⟩ := lines_cases body _ k le_rfl
    · rw [h] at hk
      cases hk
    · rw [h] at hk
      cases hk
    · rw [h] at hk
      cases hk
      exact hruns _ _ (.last hi)
  | step hi hf _ ih =>
    intro k hk
    obtain h | ⟨l, k', h, hruns⟩ | ⟨i, rest, k', h, hruns⟩ := lines_cases body _ k le_rfl
    · rw [h] at hk
      cases hk
    · rw [h] at hk
      cases hk
    · rw [h] at hk
      cases hk
      rw [follow_listing] at hf
      obtain ⟨k₁, hk₁, hlines⟩ := Option.map_eq_some_iff.mp hf
      exact hruns _ _ (.step hi hk₁ (ih k₁ hlines))

theorem runs_iff_exec (body : Statements (Instruction α))
    (k : List (Statements (Instruction α))) (ds : List (Option ℕ)) (tr : List α) :
    Runs body k ds tr ↔ (reading α).Exec body.listing (lines k) ds tr :=
  ⟨exec_of_runs, fun h => runs_of_exec h k rfl⟩

end Hilti.Blocks
