import Hilti.Blocks.Flatten
import Mathlib.Data.List.Perm.Subperm

/-!
# Normalizing

Linking blocks, cutting off what follows a terminator and ending the last block changes
no execution.  Together with the flattener this shows that the passes preserve a body
exactly if its labels are apart.
-/

namespace Hilti.Blocks

open Hilti.Lib Statements

set_option autoImplicit false

variable {α : Type}

/-! ## Linking -/

def linked (pred : Block α) (rest : List (Block α)) : List (Block α) :=
  (linkFrom pred rest).map Prod.fst

theorem code_add_stmts (b : Block α) (is : List (Instruction α)) (bs : List (Block α)) :
    code ({ b with stmts := b.stmts ++ is } :: bs) =
      b.id.toList.map .label ++ (b.stmts.map .instr ++ (is.map .instr ++ code bs)) := by
  rw [code_cons]
  simp only [List.map_append, List.append_assoc]

theorem align_linked (rest : List (Block α)) :
    ∀ pred, (reading α).Align true (code (pred :: rest)) (code (linked pred rest)) := by
  induction rest with
  | nil => exact fun pred => .refl _
  | cons cur rest ih =>
    intro pred
    have hkeep : (reading α).Align true (code (pred :: cur :: rest))
        (code (pred :: linked cur rest)) := by
      rw [code_cons pred, code_cons pred]
      exact ((ih cur).append_left _).append_left _
    unfold linked linkFrom
    cases hid : cur.id with
    | some l =>
      by_cases hterm : pred.terminated = true
      · simp only [if_pos hterm, List.map_cons]
        exact hkeep
      · simp only [if_neg hterm, List.map_cons]
        rw [code_add_stmts, code_cons]
        refine Reading.Align.append_left _ (Reading.Align.append_left _ ?_)
        -- the jump goes to the label that follows
        have hcur := ih cur
        rw [code_cons, hid] at hcur ⊢
        exact .addJump rfl rfl rfl hcur.dead
    | none =>
      by_cases hterm : pred.terminated = true
      · simp only [if_pos hterm, List.map_cons]
        exact hkeep
      · simp only [if_neg hterm]
        have hmerge : code (pred :: cur :: rest) =
            code ({ pred with stmts := pred.stmts ++ cur.stmts } :: rest) := by
          rw [code_add_stmts, code_cons, code_cons, hid]
          rfl
        rw [hmerge]
        exact ih _

/-! ## Ends of blocks -/

theorem align_removeUseless (stmts tail : List (Instruction α))
    {u u' : List (Item (Instruction α) String)}
    (h : (reading α).Align true u ((removeUselessFrom tail).map .instr ++ u'))
    (hdead : (reading α).Align false u u') :
    (reading α).Align true (stmts.map .instr ++ u)
      ((removeUselessFrom (stmts ++ tail)).map .instr ++ u') := by
  induction stmts with
  | nil => exact h
  | cons i stmts ih =>
    rw [List.cons_append]
    unfold removeUselessFrom
    by_cases hnop : (i.resolved && i.isNop) = true
    · rw [if_pos hnop]
      cases i with
      | nop r => exact .dropSilent rfl rfl ih
      | own a t r n => exact absurd hnop (by simp [Instruction.isNop])
      | jump l r => exact absurd hnop (by simp [Instruction.isNop])
      | blockEnd r => exact absurd hnop (by simp [Instruction.isNop])
    · rw [if_neg hnop]
      by_cases hterm : (i.resolved && i.terminator) = true
      · -- nothing falls through a terminator
        rw [if_pos hterm]
        refine .instr (.refl _ i) ?_
        have hi : (reading α).terminator i = true := (Bool.and_eq_true_iff.mp hterm).2
        rw [hi]
        exact hdead.drop_dead stmts
      · rw [if_neg hterm]
        exact .cons_instr (.refl _ i) ih

theorem align_cons_removeUseless (b : Block α) {bs bs' : List (Block α)}
    (h : (reading α).Align true (code bs) (code bs')) :
    (reading α).Align true (code (b :: bs)) (code (b.removeUseless :: bs')) := by
  rw [code_cons, code_cons]
  have hstmts := align_removeUseless b.stmts [] h h.dead
  rw [List.append_nil] at hstmts
  exact hstmts.append_left _

/-- The blocks after the second loop and `removeUseless`. -/
def ended (pred : Block α) (rest : List (Block α)) : List (Block α) :=
  (linkFrom pred rest).map fun (b, nowTerminated) => (addEnd b nowTerminated).removeUseless

theorem align_ended (rest : List (Block α)) :
    ∀ pred, (reading α).Align true (code (linked pred rest)) (code (ended pred rest)) := by
  induction rest with
  | nil =>
    intro pred
    unfold linked ended linkFrom
    simp only [List.map_cons, List.map_nil, addEnd, Bool.or_false]
    by_cases hterm : pred.terminated = true
    · rw [if_pos hterm]
      exact align_cons_removeUseless pred .nil
    · rw [if_neg hterm, code_cons, code_cons]
      refine Reading.Align.append_left _ (align_removeUseless pred.stmts [.blockEnd false] ?_ .nil)
      exact .addEnd rfl rfl rfl .nil
  | cons cur rest ih =>
    intro pred
    have hkeep : ∀ b : Block α, (reading α).Align true (code (b :: linked cur rest))
        (code (b.removeUseless :: ended cur rest)) :=
      fun b => align_cons_removeUseless b (ih cur)
    unfold linked ended linkFrom
    cases cur.id with
    | some l =>
      by_cases hterm : pred.terminated = true
      · simp only [if_pos hterm, List.map_cons, addEnd, hterm, Bool.true_or, if_true]
        exact hkeep pred
      · simp only [if_neg hterm, List.map_cons, addEnd, Bool.or_true, if_true]
        exact hkeep _
    | none =>
      by_cases hterm : pred.terminated = true
      · simp only [if_pos hterm, List.map_cons, addEnd, hterm, Bool.true_or, if_true]
        exact hkeep pred
      · simp only [if_neg hterm]
        exact ih _

theorem agree_blockNormalizer (instructionsNormalized : Bool) (bs : List (Block α))
    (h : (Item.labels (code bs)).Nodup) :
    (reading α).Agree (code bs) (code (blockNormalizer instructionsNormalized bs)) := by
  cases bs with
  | nil => exact .refl _
  | cons b bs =>
    have hlinked := align_linked bs b
    cases instructionsNormalized with
    | false => exact hlinked.agree h
    | true =>
      have hended := align_ended bs b
      exact (hlinked.agree h).trans (hended.agree (hlinked.labels_eq ▸ h))

theorem align_instructionResolver (bs : List (Block α)) :
    (reading α).Align true (code bs) (code (instructionResolver bs)) := by
  have hstmts : ∀ (stmts : List (Instruction α)) {u u' : List (Item (Instruction α) String)},
      (reading α).Align true u u' →
        (reading α).Align true (stmts.map .instr ++ u)
          ((stmts.map Instruction.resolve).map .instr ++ u') := by
    intro stmts u u' hu
    induction stmts with
    | nil => exact hu
    | cons i stmts ih => exact .cons_instr (by cases i <;> exact ⟨rfl, rfl, rfl⟩) ih
  induction bs with
  | nil => exact .nil
  | cons b bs ih =>
    have hcons : instructionResolver (b :: bs) =
        { b with stmts := b.stmts.map Instruction.resolve } :: instructionResolver bs := rfl
    rw [hcons, code_cons, code_cons]
    exact (hstmts b.stmts ih).append_left _

/-! ## What the passes preserve -/

/-- Every label still stands where the same instructions are executed, and the executions
from the start are the same. -/
structure Preserves (body : Statements (Instruction α)) (bs : List (Block α)) : Prop where
  labels : ∀ l k, body.find l [] = some k → ∃ k', (ofBlocks bs).find l [] = some k' ∧
    ∀ ds tr, Runs body k ds tr ↔ Runs (ofBlocks bs) k' ds tr
  runs : ∀ ds tr, Runs body [body] ds tr ↔ Runs (ofBlocks bs) [ofBlocks bs] ds tr

theorem preserves_of_agree {body : Statements (Instruction α)} {bs : List (Block α)}
    (h : (reading α).Agree body.listing (code bs)) : Preserves body bs := by
  constructor
  · intro l k hk
    have hfind : Item.find l body.listing = some (lines k) := by
      rw [find_listing_eq, hk]
      rfl
    obtain ⟨s, hs, hiff⟩ := h.find l _ hfind
    unfold code at hs
    rw [find_listing_eq] at hs
    obtain ⟨k', hk', rfl⟩ := Option.map_eq_some_iff.mp hs
    refine ⟨k', hk', fun ds tr => ?_⟩
    rw [runs_iff_exec, runs_iff_exec, hiff]
    rfl
  · intro ds tr
    rw [runs_iff_exec, runs_iff_exec, lines_cons, lines_cons, lines_nil, List.append_nil,
      List.append_nil]
    exact h.exec_iff ds tr

theorem labelsApart_of_preserves {b : Body α} {bs : List (Block α)} (h : Preserves b.code bs)
    (hlabels : Item.labels (code bs) = Item.labels (code (blockFlattener b))) :
    LabelsApart b.code := by
  by_contra hapart
  have hsub : b.code.labels ⊆ Item.labels (code bs) := by
    intro l hl
    have hmem : l ∈ Item.labels b.code.listing := by rwa [labels_listing]
    cases hfind : Item.find l b.code.listing with
    | none => exact absurd hmem (Item.find_eq_none.mp hfind)
    | some s =>
      rw [find_listing_eq] at hfind
      obtain ⟨k, hk, -⟩ := Option.map_eq_some_iff.mp hfind
      obtain ⟨k', hk', -⟩ := h.labels l k hk
      by_contra hno
      have hnone := Item.find_eq_none.mpr hno
      unfold code at hnone
      rw [find_listing_eq, hk'] at hnone
      cases hnone
  have hle := (List.Nodup.subperm b.nodup hsub).length_le
  have hlt := labels_flatListing_lt hapart
  rw [hlabels, code_blockFlattener] at hle
  exact absurd hle (by simpa [Body.code] using hlt)

theorem labels_blockNormalizer (instructionsNormalized : Bool) (bs : List (Block α)) :
    Item.labels (code (blockNormalizer instructionsNormalized bs)) = Item.labels (code bs) := by
  cases bs with
  | nil => rfl
  | cons b bs =>
    have hlinked := (align_linked bs b).labels_eq
    cases instructionsNormalized with
    | false => exact hlinked.symm
    | true => exact (hlinked.trans (align_ended bs b).labels_eq).symm

/-- The passes that `CompilerContext::_finalizeModule` runs. -/
def finalizePasses (b : Body α) : List (Block α) :=
  blockNormalizer true (instructionResolver (blockNormalizer false (blockFlattener b)))

/-- For every body: the flattener and the normalizer, alone or before and after instructions are
resolved, preserve labels and executions if and only if no labelled block begins with
another one. -/
theorem passes_preserve_iff (b : Body α) :
    (∀ instructionsNormalized, Preserves b.code
      (blockNormalizer instructionsNormalized (blockFlattener b)) ↔ LabelsApart b.code) ∧
    (Preserves b.code (finalizePasses b) ↔ LabelsApart b.code) := by
  have hresolve := fun bs : List (Block α) => align_instructionResolver bs
  refine ⟨fun n => ⟨fun h => labelsApart_of_preserves h (labels_blockNormalizer n _), fun h => ?_⟩,
    fun h => labelsApart_of_preserves h ?_, fun h => ?_⟩
  · have hflat := agree_blockFlattener h
    have hnodup : (Item.labels (code (blockFlattener b))).Nodup := by
      rw [← hflat.labels_eq, labels_listing]
      exact b.nodup
    exact preserves_of_agree (hflat.trans (agree_blockNormalizer n _ hnodup))
  · unfold finalizePasses
    rw [labels_blockNormalizer, ← (hresolve _).labels_eq, labels_blockNormalizer]
  · have hflat := agree_blockFlattener h
    have hnodup : (Item.labels (code (blockFlattener b))).Nodup := by
      rw [← hflat.labels_eq, labels_listing]
      exact b.nodup
    have hnorm := agree_blockNormalizer false _ hnodup
    have hnodup₁ := hnorm.labels_eq ▸ hnodup
    have hres := (hresolve (blockNormalizer false (blockFlattener b))).agree hnodup₁
    have hnodup₂ := hres.labels_eq ▸ hnodup₁
    exact preserves_of_agree
      (((hflat.trans hnorm).trans hres).trans (agree_blockNormalizer true _ hnodup₂))

/-- A loop body, the first statement of which is a labelled block. -/
def loopBody : Body Unit where
  id := none
  stmts := block (some "@__loop_body_1")
    (block (some "@again") (instr (.own () ["@again"] true true) nil) nil) nil
  nodup := by decide

/-- The label of the inner block is gone, and with it the second round of the loop. -/
theorem label_lost :
    finalizePasses loopBody = [⟨some "@__loop_body_1", [.own () ["@again"] true true]⟩] ∧
    ¬ Preserves loopBody.code (finalizePasses loopBody) ∧
    Runs loopBody.code [loopBody.code] [some 0] [(), ()] ∧
    ¬ Runs (ofBlocks (finalizePasses loopBody)) [ofBlocks (finalizePasses loopBody)]
      [some 0] [(), ()] := by
  have hpasses : finalizePasses loopBody =
      [⟨some "@__loop_body_1", [.own () ["@again"] true true]⟩] := by decide
  refine ⟨hpasses, fun h => ?_, ?_, fun h => ?_⟩
  · exact absurd (labelsApart_of_preserves h (by decide)) (by decide)
  · exact .enter (.enter (.enter (.step rfl rfl (.last rfl))))
  · rw [hpasses] at h
    cases h with
    | enter h =>
      cases h with
      | silent hi _ _ => cases hi
      | step _ hf _ => cases hf

end Hilti.Blocks
