import Hilti.Blocks.Nested

/-!
# Flattening

The listing of the blocks that the flattener creates is that of the nested body, with a
`nop` for each empty block, except that of several labels at one instruction only that of
the outermost block is left.
-/

namespace Hilti.Blocks

open Hilti.Lib Statements

set_option autoImplicit false

variable {α : Type}

/-- The first statement is a labelled block, or a block that begins with one. -/
def startsLabelled {I : Type} : Statements I → Bool
  | nil => false
  | instr _ _ => false
  | block id stmts _ => id.isSome || startsLabelled stmts

/-- No labelled block begins with another one. -/
def LabelsApart {I : Type} : Statements I → Prop
  | nil => True
  | instr _ rest => LabelsApart rest
  | block id stmts rest =>
    (id.isSome = true → startsLabelled stmts = false) ∧ LabelsApart stmts ∧ LabelsApart rest

instance LabelsApart.decidable {I : Type} : (s : Statements I) → Decidable (LabelsApart s)
  | nil => isTrue trivial
  | instr _ rest => LabelsApart.decidable rest
  | block id stmts rest =>
    have := LabelsApart.decidable stmts
    have := LabelsApart.decidable rest
    inferInstanceAs (Decidable (_ ∧ _ ∧ _))

def code (bs : List (Block α)) : List (Item (Instruction α) String) := (ofBlocks bs).listing

/-- What `setID` makes of the listing of some blocks. -/
def relabel {I : Type} : Option String → List (Item I String) → List (Item I String)
  | some l, .label _ :: t => .label l :: t
  | some l, .instr i :: t => .label l :: .instr i :: t
  | _, t => t

def flatListing : Statements (Instruction α) → List (Item (Instruction α) String)
  | nil => []
  | instr i rest => .instr i :: flatListing rest
  | block id stmts rest =>
    relabel id (match stmts with
      | nil => [.instr (.nop false)]
      | stmts => flatListing stmts) ++ flatListing rest

/-! ## The blocks that are created -/

theorem ofInstructions_listing (is : List (Instruction α)) :
    (ofInstructions is).listing = is.map .instr := by
  induction is with
  | nil => rfl
  | cons i is ih => exact congrArg _ ih

@[simp] theorem code_nil : code ([] : List (Block α)) = [] := rfl

theorem code_cons (b : Block α) (bs : List (Block α)) :
    code (b :: bs) = b.id.toList.map .label ++ (b.stmts.map .instr ++ code bs) := by
  change b.id.toList.map .label ++ ((ofInstructions b.stmts).listing ++ code bs) = _
  rw [ofInstructions_listing]

theorem code_append (bs bs' : List (Block α)) : code (bs ++ bs') = code bs ++ code bs' := by
  induction bs with
  | nil => rfl
  | cons b bs ih => simp only [List.cons_append, code_cons, ih, List.append_assoc]

@[simp] theorem relabel_nil {I : Type} (id : Option String) :
    relabel id ([] : List (Item I String)) = [] := by
  cases id <;> rfl

theorem relabel_append {I : Type} (id : Option String) {t : List (Item I String)} (ht : t ≠ [])
    (u : List (Item I String)) : relabel id (t ++ u) = relabel id t ++ u := by
  cases id with
  | none => rfl
  | some l =>
    cases t with
    | nil => exact absurd rfl ht
    | cons a t => cases a <;> rfl

theorem relabel_ne_nil {I : Type} (id : Option String) {t : List (Item I String)} (ht : t ≠ []) :
    relabel id t ≠ [] := by
  cases id with
  | none => exact ht
  | some l =>
    cases t with
    | nil => exact absurd rfl ht
    | cons a t => cases a <;> exact List.cons_ne_nil _ _

theorem code_setID (src : Option String) (b : Block α) (hb : b.stmts ≠ []) (bs : List (Block α)) :
    code (setID src b :: bs) = relabel src (code (b :: bs)) := by
  obtain ⟨id, stmts⟩ := b
  unfold setID
  cases src with
  | none => rfl
  | some l =>
    cases stmts with
    | nil => exact absurd rfl hb
    | cons i stmts => cases id <;> rfl

/-- The loop has created blocks, behind those of `old`, for statements with the listing `t`. -/
structure Created (src : Option String) (old : List (Block α)) (f : Flattening α)
    (t : List (Item (Instruction α) String)) (new : List (Block α)) : Prop where
  toplevel : f.toplevel = old ++ new
  stmts : ∀ b ∈ new, b.stmts ≠ []
  code_eq : code new = relabel src t
  empty_iff : t = [] ↔ new = []
  first : f.first = if new = [] then none else some old.length
  cur : f.cur = true → new ≠ []

theorem created_start (src : Option String) (old : List (Block α)) :
    Created src old ⟨old, none, false⟩ [] [] where
  toplevel := (List.append_nil _).symm
  stmts := by simp
  code_eq := by simp
  empty_iff := by simp
  first := rfl
  cur h := by cases h

theorem Created.isNone_iff {src : Option String} {old new : List (Block α)} {f : Flattening α}
    {t : List (Item (Instruction α) String)} (h : Created src old f t new) :
    f.first.isNone = true ↔ new = [] := by
  rw [h.first]
  split
  · rename_i hnew
    exact ⟨fun _ => hnew, fun _ => rfl⟩
  · rename_i hnew
    exact ⟨nofun, fun h' => absurd h' hnew⟩

theorem modify_append_cons {β : Type} (l : List β) (b : β) (r : List β) (g : β → β) :
    (l ++ b :: r).modify l.length g = l ++ g b :: r := by
  induction l with
  | nil => rfl
  | cons a l ih => exact congrArg (List.cons a) ih

theorem code_add_last (new : List (Block α)) (b : Block α) (i : Instruction α) :
    code (new ++ [{ b with stmts := b.stmts ++ [i] }]) = code (new ++ [b]) ++ [.instr i] := by
  simp [code_append, code_cons, List.append_assoc]

theorem Created.addInstruction {src : Option String} {old new : List (Block α)} {f : Flattening α}
    {t : List (Item (Instruction α) String)} (h : Created src old f t new) (i : Instruction α) :
    ∃ new', Created src old (f.addInstruction src i) (t ++ [.instr i]) new' := by
  have hne : t ++ [Item.instr i] ≠ [] := List.append_ne_nil_of_right_ne_nil _ (List.cons_ne_nil _ _)
  cases hcur : f.cur with
  | true =>
    have hnew := h.cur hcur
    have ht : t ≠ [] := fun ht => hnew (h.empty_iff.mp ht)
    obtain hnil | ⟨new₀, b, rfl⟩ := List.eq_nil_or_concat new
    · exact absurd hnil hnew
    have hadd : f.addInstruction src i =
        { f with toplevel := old ++ (new₀ ++ [{ b with stmts := b.stmts ++ [i] }]) } := by
      unfold Flattening.addInstruction
      simp only [hcur, if_true]
      rw [h.toplevel, List.concat_eq_append, ← List.append_assoc, List.length_append,
        List.length_singleton, Nat.add_sub_cancel, modify_append_cons, List.append_assoc]
    refine ⟨new₀ ++ [{ b with stmts := b.stmts ++ [i] }], ?_⟩
    rw [hadd]
    refine ⟨rfl, ?_, ?_, ?_, ?_, fun _ => by simp⟩
    · intro b' hb'
      obtain hb' | hb' := List.mem_append.mp hb'
      · exact h.stmts b' (by simp [hb'])
      · rw [List.mem_singleton.mp hb']
        simp
    · rw [code_add_last, relabel_append _ ht, ← h.code_eq, List.concat_eq_append]
    · simp
    · rw [if_neg (by simp)]
      exact h.first.trans (if_neg hnew)
  | false =>
    by_cases hnew : new = []
    · have hnone := h.isNone_iff.mpr hnew
      have ht : t = [] := h.empty_iff.mpr hnew
      subst hnew ht
      have hold : f.toplevel = old := h.toplevel.trans (List.append_nil _)
      have hadd : f.addInstruction src i =
          ⟨old ++ [{ (setID src ⟨none, []⟩ : Block α) with stmts := [i] }], some old.length, true⟩ := by
        unfold Flattening.addInstruction
        simp only [hcur, hnone, hold, if_true, Bool.false_eq_true, if_false]
        rw [List.length_append, List.length_singleton, Nat.add_sub_cancel, modify_append_cons,
          h.first]
        cases src <;> rfl
      refine ⟨[{ (setID src ⟨none, []⟩ : Block α) with stmts := [i] }], ?_⟩
      rw [hadd]
      refine ⟨rfl, by simp, ?_, by simp, by simp, fun _ => by simp⟩
      cases src <;> rfl
    · have hsome : f.first.isNone = false := by
        rw [Bool.eq_false_iff]
        exact fun hnone => hnew (h.isNone_iff.mp hnone)
      have ht : t ≠ [] := fun ht => hnew (h.empty_iff.mp ht)
      have hadd : f.addInstruction src i =
          ⟨old ++ (new ++ [⟨none, [i]⟩]), some old.length, true⟩ := by
        unfold Flattening.addInstruction
        simp only [hcur, hsome, Bool.false_eq_true, if_false]
        rw [List.length_append, List.length_singleton, Nat.add_sub_cancel, modify_append_cons,
          h.first, if_neg hnew, h.toplevel, List.append_assoc]
        rfl
      refine ⟨new ++ [⟨none, [i]⟩], ?_⟩
      rw [hadd]
      refine ⟨rfl, ?_, ?_, by simp, by simp, fun _ => by simp⟩
      · intro b hb
        obtain hb | hb := List.mem_append.mp hb
        · exact h.stmts b hb
        · rw [List.mem_singleton.mp hb]
          simp
      · rw [code_append, h.code_eq, relabel_append _ ht]
        rfl

theorem Created.addBlock {src id : Option String} {old new newin : List (Block α)}
    {f inner : Flattening α} {t u : List (Item (Instruction α) String)}
    (h : Created src old f t new) (hin : Created id f.toplevel inner u newin) (hu : u ≠ []) :
    ∃ new', Created src old (f.addBlock src inner) (t ++ relabel id u) new' := by
  have hne : t ++ relabel id u ≠ [] := List.append_ne_nil_of_right_ne_nil _ (relabel_ne_nil id hu)
  have hnewin : newin ≠ [] := fun hnil => hu (hin.empty_iff.mpr hnil)
  by_cases hnew : new = []
  · have hnone := h.isNone_iff.mpr hnew
    have ht : t = [] := h.empty_iff.mpr hnew
    subst hnew ht
    have hold : f.toplevel = old := h.toplevel.trans (List.append_nil _)
    obtain ⟨b, rest, rfl⟩ := List.exists_cons_of_ne_nil hnewin
    have hfirst : inner.first = some old.length := by
      rw [hin.first, if_neg hnewin, hold]
    have hadd : f.addBlock src inner =
        ⟨old ++ setID src b :: rest, some old.length, false⟩ := by
      unfold Flattening.addBlock
      rw [if_pos hnone, hin.toplevel, hfirst, hold, h.first]
      exact congrArg (fun top => (⟨top, some old.length, false⟩ : Flattening α))
        (modify_append_cons old b rest (setID src))
    have hstmts : (setID src b).stmts = b.stmts := by cases src <;> rfl
    refine ⟨setID src b :: rest, ?_⟩
    rw [hadd]
    refine ⟨rfl, ?_, ?_, by simp [relabel_ne_nil id hu], by simp, nofun⟩
    · intro b' hb'
      obtain rfl | hb' := List.mem_cons.mp hb'
      · rw [hstmts]
        exact hin.stmts b List.mem_cons_self
      · exact hin.stmts b' (List.mem_cons_of_mem _ hb')
    · rw [code_setID src b (hin.stmts b List.mem_cons_self), hin.code_eq]
      rfl
  · have hsome : f.first.isNone = false := by
      rw [Bool.eq_false_iff]
      exact fun hnone => hnew (h.isNone_iff.mp hnone)
    have ht : t ≠ [] := fun ht => hnew (h.empty_iff.mp ht)
    have hadd : f.addBlock src inner = ⟨old ++ (new ++ newin), some old.length, false⟩ := by
      unfold Flattening.addBlock
      simp only [hsome, Bool.false_eq_true, if_false]
      rw [hin.toplevel, h.toplevel, h.first, if_neg hnew, List.append_assoc]
      rfl
    refine ⟨new ++ newin, ?_⟩
    rw [hadd]
    refine ⟨rfl, ?_, ?_, ?_, ?_, nofun⟩
    · intro b hb
      obtain hb | hb := List.mem_append.mp hb
      · exact h.stmts b hb
      · exact hin.stmts b hb
    · rw [code_append, h.code_eq, hin.code_eq, relabel_append _ ht]
    · exact ⟨fun h' => absurd h' hne, fun h' => absurd (List.append_eq_nil_iff.mp h').1 hnew⟩
    · exact (if_neg fun h' => hnew (List.append_eq_nil_iff.mp h').1).symm

theorem flatListing_ne_nil {s : Statements (Instruction α)} (hs : s ≠ nil) : flatListing s ≠ [] := by
  induction s with
  | nil => exact absurd rfl hs
  | instr i rest _ => exact List.cons_ne_nil _ _
  | block id stmts rest ihs _ =>
    unfold flatListing
    apply List.append_ne_nil_of_left_ne_nil
    apply relabel_ne_nil
    cases stmts with
    | nil => exact List.cons_ne_nil _ _
    | instr i rest => exact ihs (by simp)
    | block id' stmts' rest' => exact ihs (by simp)

def nonempty (stmts : Statements (Instruction α)) : List (Item (Instruction α) String) :=
  match stmts with
  | nil => [.instr (.nop false)]
  | stmts => flatListing stmts

theorem nonempty_ne_nil (stmts : Statements (Instruction α)) : nonempty stmts ≠ [] := by
  cases stmts with
  | nil => exact List.cons_ne_nil _ _
  | instr i rest => exact flatListing_ne_nil (by simp)
  | block id stmts rest => exact flatListing_ne_nil (by simp)

theorem flatListing_block (id : Option String) (stmts rest : Statements (Instruction α)) :
    flatListing (block id stmts rest) = relabel id (nonempty stmts) ++ flatListing rest := by
  cases stmts <;> rfl

theorem flattenLoop_block (src id : Option String) (stmts rest : Statements (Instruction α))
    (f : Flattening α) :
    flattenLoop src (block id stmts rest) f =
      flattenLoop src rest (f.addBlock src (flatten id stmts f.toplevel)) := by
  cases stmts <;> rfl

theorem Created.flattenLoop (s : Statements (Instruction α)) :
    ∀ (src : Option String) (old : List (Block α)) (f : Flattening α)
      (t : List (Item (Instruction α) String)) (new : List (Block α)), Created src old f t new →
      ∃ new', Created src old (flattenLoop src s f) (t ++ flatListing s) new' := by
  induction s with
  | nil =>
    intro src old f t new h
    refine ⟨new, ?_⟩
    have ht : t ++ flatListing (nil : Statements (Instruction α)) = t := List.append_nil t
    rw [ht]
    exact h
  | instr i rest ih =>
    intro src old f t new h
    obtain ⟨new₁, h₁⟩ := h.addInstruction i
    obtain ⟨new₂, h₂⟩ := ih src old _ _ new₁ h₁
    refine ⟨new₂, ?_⟩
    rwa [List.append_assoc] at h₂
  | block id stmts rest ihs ihr =>
    intro src old f t new h
    have hinner : ∃ newin, Created id f.toplevel (flatten id stmts f.toplevel) (nonempty stmts) newin := by
      have hstart := created_start id f.toplevel
      cases stmts with
      | nil => exact hstart.addInstruction _
      | instr i rest => exact ihs id f.toplevel _ _ _ hstart
      | block id' stmts' rest' => exact ihs id f.toplevel _ _ _ hstart
    obtain ⟨newin, hin⟩ := hinner
    obtain ⟨new₁, h₁⟩ := h.addBlock hin (nonempty_ne_nil stmts)
    obtain ⟨new₂, h₂⟩ := ihr src old _ _ new₁ h₁
    refine ⟨new₂, ?_⟩
    rw [flattenLoop_block, flatListing_block, ← List.append_assoc]
    exact h₂

theorem code_blockFlattener (b : Body α) : code (blockFlattener b) = flatListing b.code := by
  have hflat : ∃ new, Created b.id [] (flatten b.id b.stmts []) (nonempty b.stmts) new := by
    have hstart := created_start (α := α) b.id []
    cases hstmts : b.stmts with
    | nil => exact hstart.addInstruction _
    | instr i rest => exact Created.flattenLoop _ _ _ _ _ _ hstart
    | block id' stmts' rest' => exact Created.flattenLoop _ _ _ _ _ _ hstart
  obtain ⟨new, h⟩ := hflat
  have htop : blockFlattener b = new := h.toplevel
  rw [htop, h.code_eq, Body.code, flatListing_block]
  exact (List.append_nil _).symm

/-! ## Labels that are kept apart -/

theorem labels_relabel_le {I : Type} (id : Option String) (t : List (Item I String)) :
    (Item.labels (relabel id t)).length ≤ id.toList.length + (Item.labels t).length := by
  cases id with
  | none => exact Nat.le_add_left _ _
  | some l =>
    cases t with
    | nil => exact Nat.zero_le _
    | cons a t =>
      cases a with
      | label l' => exact Nat.le_add_left _ _
      | instr i => exact (Nat.add_comm _ _).le

theorem relabel_some {I : Type} (l : String) {t : List (Item I String)} (ht : t ≠ []) :
    ∃ t', relabel (some l) t = .label l :: t' := by
  cases t with
  | nil => exact absurd rfl ht
  | cons a t => cases a <;> exact ⟨_, rfl⟩

theorem flatListing_labelled {s : Statements (Instruction α)} (hs : startsLabelled s = true) :
    ∃ l t, flatListing s = .label l :: t := by
  induction s with
  | nil => cases hs
  | instr i rest _ => cases hs
  | block id stmts rest ihs _ =>
    rw [flatListing_block]
    cases id with
    | some l =>
      obtain ⟨t, ht⟩ := relabel_some l (nonempty_ne_nil stmts)
      exact ⟨l, t ++ flatListing rest, by rw [ht]; rfl⟩
    | none =>
      obtain ⟨l, t, ht⟩ := ihs hs
      have hnonempty : nonempty stmts = flatListing stmts := by
        cases stmts with
        | nil => cases hs
        | instr i rest => rfl
        | block id stmts rest => rfl
      exact ⟨l, t ++ flatListing rest, by rw [hnonempty, ht]; rfl⟩

theorem nonempty_of_not_labelled (stmts : Statements (Instruction α))
    (hs : startsLabelled stmts = false) : ∃ i t, nonempty stmts = .instr i :: t := by
  induction stmts with
  | nil => exact ⟨_, _, rfl⟩
  | instr i rest _ => exact ⟨_, _, rfl⟩
  | block id stmts rest ihs _ =>
    have hblock : nonempty (block id stmts rest) = relabel id (nonempty stmts) ++ flatListing rest :=
      flatListing_block id stmts rest
    obtain ⟨hid, hstmts⟩ := Bool.or_eq_false_iff.mp hs
    obtain ⟨i, t, ht⟩ := ihs hstmts
    cases id with
    | some l => cases hid
    | none => exact ⟨i, t ++ flatListing rest, by rw [hblock, ht]; rfl⟩

theorem labels_nonempty_le {stmts : Statements (Instruction α)}
    (h : (Item.labels (flatListing stmts)).length ≤ stmts.labels.length) :
    (Item.labels (nonempty stmts)).length ≤ stmts.labels.length := by
  cases stmts with
  | nil => exact le_rfl
  | instr i rest => exact h
  | block id stmts rest => exact h

theorem labels_flatListing_le (s : Statements (Instruction α)) :
    (Item.labels (flatListing s)).length ≤ s.labels.length := by
  induction s with
  | nil => exact le_rfl
  | instr i rest ih => exact ih
  | block id stmts rest ihs ihr =>
    rw [flatListing_block, Item.labels_append, List.length_append]
    have hle := labels_relabel_le id (nonempty stmts)
    have hstmts := labels_nonempty_le ihs
    simp only [labels, List.length_append]
    omega

theorem labels_flatListing_lt {s : Statements (Instruction α)} (h : ¬ LabelsApart s) :
    (Item.labels (flatListing s)).length < s.labels.length := by
  induction s with
  | nil => exact absurd trivial h
  | instr i rest ih => exact ih h
  | block id stmts rest ihs ihr =>
    rw [flatListing_block, Item.labels_append, List.length_append]
    have hrelabel := labels_relabel_le id (nonempty stmts)
    have hstmts := labels_nonempty_le (labels_flatListing_le stmts)
    have hrest := labels_flatListing_le rest
    simp only [labels, List.length_append]
    by_cases hid : id.isSome = true → startsLabelled stmts = false
    · by_cases hs : LabelsApart stmts
      · have hr := ihr fun hr => h ⟨hid, hs, hr⟩
        omega
      · have hlt := ihs hs
        have hnonempty : nonempty stmts = flatListing stmts := by
          cases stmts with
          | nil => exact absurd trivial hs
          | instr i rest => rfl
          | block id stmts rest => rfl
        rw [← hnonempty] at hlt
        omega
    · -- the label of the inner block is overwritten
      obtain ⟨hsome, hlabelled⟩ := Classical.not_imp.mp hid
      obtain ⟨l, rfl⟩ := Option.isSome_iff_exists.mp hsome
      obtain ⟨l', t, ht⟩ := flatListing_labelled (Bool.not_eq_false _ ▸ hlabelled)
      have hnonempty : nonempty stmts = flatListing stmts := by
        cases stmts with
        | nil => cases ht
        | instr i rest => rfl
        | block id stmts rest => rfl
      rw [hnonempty, ht] at hstmts ⊢
      have hlabels : (Item.labels (relabel (some l) (.label l' :: t : List (Item (Instruction α) String)))).length =
          (Item.labels (.label l' :: t : List (Item (Instruction α) String))).length := rfl
      rw [hlabels]
      simp only [Option.toList_some, List.length_singleton]
      omega

theorem relabel_eq {id : Option String} {stmts : Statements (Instruction α)}
    (h : id.isSome = true → startsLabelled stmts = false) :
    relabel id (nonempty stmts) = id.toList.map .label ++ nonempty stmts := by
  cases id with
  | none => rfl
  | some l =>
    obtain ⟨i, t, ht⟩ := nonempty_of_not_labelled stmts (h rfl)
    rw [ht]
    rfl

theorem align_flatListing {s : Statements (Instruction α)} (h : LabelsApart s) :
    ∀ {u u' : List (Item (Instruction α) String)}, (reading α).Align true u u' →
      (reading α).Align true (s.listing ++ u) (flatListing s ++ u') := by
  induction s with
  | nil => exact fun hu => hu
  | instr i rest ih => exact fun hu => .cons_instr (.refl _ i) (ih h hu)
  | block id stmts rest ihs ihr =>
    intro u u' hu
    obtain ⟨hid, hstmts, hrest⟩ := h
    have htail := ihr hrest hu
    have hinner : (reading α).Align true (stmts.listing ++ (rest.listing ++ u))
        (nonempty stmts ++ (flatListing rest ++ u')) := by
      cases stmts with
      | nil => exact .addSilent rfl rfl htail
      | instr i rest => exact ihs hstmts htail
      | block id stmts rest => exact ihs hstmts htail
    rw [flatListing_block, relabel_eq hid]
    unfold listing
    simp only [List.append_assoc]
    exact hinner.append_left _

theorem agree_blockFlattener {b : Body α} (h : LabelsApart b.code) :
    (reading α).Agree b.code.listing (code (blockFlattener b)) := by
  have halign := align_flatListing h (.nil : (reading α).Align true [] [])
  rw [List.append_nil, List.append_nil, ← code_blockFlattener] at halign
  apply halign.agree
  rw [labels_listing]
  exact b.nodup

end Hilti.Blocks
