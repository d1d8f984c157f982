import Mathlib.Data.List.Infix
import Mathlib.Data.List.Nodup

/-!
# Listings of labelled instructions

A listing is a sequence of labels and instructions that falls through from one line to
the next.  An execution follows branch decisions and observes some of the instructions;
the others are silent.  Listings that differ in silent instructions, and in what comes
after an instruction that does not fall through, have the same executions.
-/

namespace Hilti.Lib

set_option autoImplicit false

/-- A line of a listing. -/
inductive Item (I L : Type) where
  | label (l : L)
  | instr (i : I)

/-- Where an instruction can branch to, whether it does not fall through, and what is
observed of it. -/
structure Reading (I L A : Type) where
  targets : I → List L
  terminator : I → Bool
  observe : I → Option A

variable {I L A : Type}

namespace Item

def labels : List (Item I L) → List L
  | [] => []
  | label l :: s => l :: labels s
  | instr _ :: s => labels s

theorem labels_append (s t : List (Item I L)) : labels (s ++ t) = labels s ++ labels t := by
  induction s with
  | nil => rfl
  | cons a s ih =>
    cases a with
    | label l => exact congrArg (l :: ·) ih
    | instr i => exact ih

variable [DecidableEq L]

def find (l : L) : List (Item I L) → Option (List (Item I L))
  | [] => none
  | label l' :: s => if l' = l then some s else find l s
  | instr _ :: s => find l s

theorem find_suffix {l : L} {s k : List (Item I L)} (h : find l s = some k) : k <:+ s := by
  induction s with
  | nil => cases h
  | cons a s ih =>
    cases a with
    | label l' =>
      unfold find at h
      split at h
      · cases h
        exact List.suffix_cons _ _
      · exact (ih h).trans (List.suffix_cons _ _)
    | instr i => exact (ih h).trans (List.suffix_cons _ _)

theorem find_eq_none {l : L} {s : List (Item I L)} : find l s = none ↔ l ∉ labels s := by
  induction s with
  | nil => exact ⟨fun _ => List.not_mem_nil, fun _ => rfl⟩
  | cons a s ih =>
    cases a with
    | label l' =>
      unfold find labels
      rw [List.mem_cons, not_or, ← ih]
      by_cases hl : l' = l
      · rw [if_pos hl]
        exact ⟨nofun, fun h => absurd hl.symm h.1⟩
      · rw [if_neg hl]
        exact ⟨fun h => ⟨fun h' => hl h'.symm, h⟩, And.right⟩
    | instr i => exact ih

theorem find_append_of_not_mem {l : L} (s t : List (Item I L)) (h : l ∉ labels s) :
    find l (s ++ t) = find l t := by
  induction s with
  | nil => rfl
  | cons a s ih =>
    cases a with
    | label l' =>
      have hl : l' ≠ l := fun hl => h (hl ▸ List.mem_cons_self)
      exact (if_neg hl).trans (ih fun h' => h (List.mem_cons_of_mem _ h'))
    | instr i => exact ih h

theorem find_of_suffix {l : L} {T s k : List (Item I L)} (hT : (labels T).Nodup) (hs : s <:+ T)
    (h : find l s = some k) : find l T = some k := by
  obtain ⟨pre, rfl⟩ := hs
  rw [labels_append] at hT
  rw [find_append_of_not_mem, h]
  intro hpre
  have hmem : l ∈ labels s := by
    by_contra hno
    rw [find_eq_none.mpr hno] at h
    cases h
  exact List.disjoint_of_nodup_append hT hpre hmem

end Item

open Item

namespace Reading

variable [DecidableEq L] (R : Reading I L A)

/-- Where the execution goes from `i`, which is followed by `s` in the listing `T`: on to
`s`, or to the label with the given number. -/
def follow (T : List (Item I L)) (i : I) (s : List (Item I L)) : Option ℕ → Option (List (Item I L))
  | none => if R.terminator i then none else some s
  | some j => (R.targets i)[j]?.bind fun l => find l T

/-- The way a silent instruction takes. -/
def only (i : I) : Option ℕ := if R.terminator i then some 0 else none

/-- From `s`, the branch decisions `ds` lead through instructions of which `tr` is
observed. -/
inductive Exec (T : List (Item I L)) : List (Item I L) → List (Option ℕ) → List A → Prop
  | done (s : List (Item I L)) : Exec T s [] []
  | label {l : L} {s : List (Item I L)} {ds : List (Option ℕ)} {tr : List A} :
      Exec T s ds tr → Exec T (.label l :: s) ds tr
  | silent {i : I} {s k : List (Item I L)} {ds : List (Option ℕ)} {tr : List A} :
      R.observe i = none → R.follow T i s (R.only i) = some k → Exec T k ds tr →
        Exec T (.instr i :: s) ds tr
  | last {i : I} {a : A} {s : List (Item I L)} :
      R.observe i = some a → Exec T (.instr i :: s) [] [a]
  | step {i : I} {a : A} {s k : List (Item I L)} {d : Option ℕ} {ds : List (Option ℕ)}
      {tr : List A} : R.observe i = some a → R.follow T i s d = some k → Exec T k ds tr →
        Exec T (.instr i :: s) (d :: ds) (a :: tr)

/-- Two instructions that are observed as the same and continue in the same way. -/
structure Alike (i i' : I) : Prop where
  targets_eq : R.targets i = R.targets i'
  terminator_eq : R.terminator i = R.terminator i'
  observe_eq : R.observe i = R.observe i'

omit [DecidableEq L] in
theorem Alike.refl (i : I) : R.Alike i i := ⟨rfl, rfl, rfl⟩

/-- Listings that have the same executions; the flag says whether an execution can get
here by falling through. -/
inductive Align : Bool → List (Item I L) → List (Item I L) → Prop
  | nil {live : Bool} : Align live [] []
  | label {live : Bool} {l : L} {s s' : List (Item I L)} :
      Align true s s' → Align live (.label l :: s) (.label l :: s')
  | instr {i i' : I} {s s' : List (Item I L)} : R.Alike i i' →
      Align (!R.terminator i) s s' → Align true (.instr i :: s) (.instr i' :: s')
  | dropDead {i : I} {s s' : List (Item I L)} : Align false s s' → Align false (.instr i :: s) s'
  | addDead {i : I} {s s' : List (Item I L)} : Align false s s' → Align false s (.instr i :: s')
  | dropSilent {i : I} {s s' : List (Item I L)} : R.observe i = none → R.terminator i = false →
      Align true s s' → Align true (.instr i :: s) s'
  | addSilent {i : I} {s s' : List (Item I L)} : R.observe i = none → R.terminator i = false →
      Align true s s' → Align true s (.instr i :: s')
  | addJump {i : I} {l : L} {s s' : List (Item I L)} : R.observe i = none →
      R.terminator i = true → (R.targets i)[0]? = some l → Align false (.label l :: s) s' →
        Align true (.label l :: s) (.instr i :: s')
  | addEnd {i : I} {s' : List (Item I L)} : R.observe i = none → R.terminator i = true →
      (R.targets i)[0]? = none → Align false [] s' → Align true [] (.instr i :: s')

/-- Silent steps. -/
inductive Quiet (T : List (Item I L)) : List (Item I L) → List (Item I L) → Prop
  | refl (s : List (Item I L)) : Quiet T s s
  | label {l : L} {s k : List (Item I L)} : Quiet T s k → Quiet T (.label l :: s) k
  | silent {i : I} {s k k' : List (Item I L)} : R.observe i = none →
      R.follow T i s (R.only i) = some k → Quiet T k k' → Quiet T (.instr i :: s) k'

end Reading

open Reading

section

variable [DecidableEq L] {R : Reading I L A} {T T' s s' k k' : List (Item I L)} {i : I} {l : L}
  {live : Bool} {ds : List (Option ℕ)} {tr : List A}

theorem Reading.Quiet.exec (h : R.Quiet T s k) (hk : R.Exec T k ds tr) : R.Exec T s ds tr := by
  induction h with
  | refl => exact hk
  | label _ ih => exact .label (ih hk)
  | silent hi hf _ ih => exact .silent hi hf (ih hk)

theorem follow_none : R.follow T i s none = if R.terminator i then none else some s := rfl

theorem follow_some (j : ℕ) :
    R.follow T i s (some j) = (R.targets i)[j]?.bind fun l => find l T := rfl

theorem follow_only_of_not_terminator (h : R.terminator i = false) :
    R.follow T i s (R.only i) = some s := by
  unfold Reading.only
  rw [h]
  exact if_neg (by simp [h])

theorem follow_only_of_target (h : R.terminator i = true) (hl : (R.targets i)[0]? = some l) :
    R.follow T i s (R.only i) = find l T := by
  unfold Reading.only
  rw [h]
  unfold Reading.follow
  simp [hl]

theorem follow_only_of_end (h : R.terminator i = true) (hl : (R.targets i)[0]? = none) :
    R.follow T i s (R.only i) = none := by
  unfold Reading.only
  rw [h]
  unfold Reading.follow
  simp [hl]

namespace Reading.Align

theorem find (h : R.Align live s s') (l : L) :
    (Item.find l s = none ∧ Item.find l s' = none) ∨
      ∃ k k', Item.find l s = some k ∧ Item.find l s' = some k' ∧ R.Align true k k' := by
  induction h with
  | nil => exact .inl ⟨rfl, rfl⟩
  | @label _ l' s s' h ih =>
    unfold Item.find
    by_cases hl : l' = l
    · rw [if_pos hl, if_pos hl]
      exact .inr ⟨s, s', rfl, rfl, h⟩
    · rw [if_neg hl, if_neg hl]
      exact ih
  | instr _ _ ih => exact ih
  | dropDead _ ih => exact ih
  | addDead _ ih => exact ih
  | dropSilent _ _ _ ih => exact ih
  | addSilent _ _ _ ih => exact ih
  | addJump _ _ _ _ ih => exact ih
  | addEnd _ _ _ _ ih => exact ih

theorem find_left (h : R.Align live s s') (hk : Item.find l s = some k) :
    ∃ k', Item.find l s' = some k' ∧ R.Align true k k' := by
  obtain ⟨hnone, -⟩ | ⟨k₁, k', hk₁, hk', halign⟩ := h.find l
  · rw [hnone] at hk
    cases hk
  · rw [hk₁] at hk
    cases hk
    exact ⟨k', hk', halign⟩

omit [DecidableEq L] in
theorem labels_eq (h : R.Align live s s') : labels s = labels s' := by
  induction h with
  | nil => rfl
  | label _ ih => exact congrArg (List.cons _) ih
  | instr _ _ ih => exact ih
  | dropDead _ ih => exact ih
  | addDead _ ih => exact ih
  | dropSilent _ _ _ ih => exact ih
  | addSilent _ _ _ ih => exact ih
  | addJump _ _ _ _ ih => exact ih
  | addEnd _ _ _ _ ih => exact ih

theorem follow {i' : I} {d : Option ℕ} (hT : R.Align true T T') (hi : R.Alike i i')
    (h : R.Align (!R.terminator i) s s') :
    (R.follow T i s d = none ∧ R.follow T' i' s' d = none) ∨
      ∃ k k', R.follow T i s d = some k ∧ R.follow T' i' s' d = some k' ∧ R.Align true k k' := by
  cases d with
  | none =>
    rw [follow_none, follow_none, ← hi.terminator_eq]
    cases hterm : R.terminator i with
    | true => exact .inl ⟨rfl, rfl⟩
    | false =>
      rw [hterm] at h
      exact .inr ⟨s, s', rfl, rfl, h⟩
  | some j =>
    rw [follow_some, follow_some, ← hi.targets_eq]
    cases hl : (R.targets i)[j]? with
    | none => exact .inl ⟨rfl, rfl⟩
    | some l => exact hT.find l

theorem follow_suffix {d : Option ℕ} (h : R.follow T i s d = some k) (hs : .instr i :: s <:+ T) :
    k <:+ T := by
  cases d with
  | none =>
    rw [follow_none] at h
    split at h
    · cases h
    · cases h
      exact (List.suffix_cons _ _).trans hs
  | some j =>
    rw [follow_some] at h
    obtain ⟨l, -, h⟩ := Option.bind_eq_some_iff.mp h
    exact find_suffix h

/-! ## What comes first on one side -/

theorem jump_follows (hT : (labels T').Nodup) (hs : .instr i :: s' <:+ T')
    (hterm : R.terminator i = true) (hl : (R.targets i)[0]? = some l)
    (h : R.Align false (.label l :: s) s') :
    ∃ k', R.follow T' i s' (R.only i) = some k' ∧ k' <:+ T' ∧ R.Align true s k' := by
  obtain ⟨k', hk', halign⟩ := h.find_left (k := s) (if_pos rfl)
  have hfind := find_of_suffix hT ((List.suffix_cons _ _).trans hs) hk'
  exact ⟨k', (follow_only_of_target hterm hl).trans hfind, find_suffix hfind, halign⟩

theorem label_left (h : R.Align true (.label l :: s) s') (hT : (labels T').Nodup)
    (hs : s' <:+ T') : ∃ k', R.Quiet T' s' k' ∧ k' <:+ T' ∧ R.Align true s k' := by
  generalize hlive : true = live at h
  generalize hleft : .label l :: s = left at h
  induction h with
  | nil => cases hleft
  | @label _ _ _ s' h =>
    cases hlive
    cases hleft
    exact ⟨s', .label (.refl _), (List.suffix_cons _ _).trans hs, h⟩
  | instr => cases hleft
  | dropDead => cases hleft
  | addDead => cases hlive
  | dropSilent => cases hleft
  | addSilent hi hterm _ ih =>
    obtain ⟨k', hquiet, hsuf, halign⟩ := ih ((List.suffix_cons _ _).trans hs) rfl hleft
    exact ⟨k', .silent hi (follow_only_of_not_terminator hterm) hquiet, hsuf, halign⟩
  | addJump hi hterm hl h _ =>
    cases hleft
    obtain ⟨k', hf, hsuf, halign⟩ := jump_follows hT hs hterm hl h
    exact ⟨k', .silent hi hf (.refl _), hsuf, halign⟩
  | addEnd => cases hleft

theorem instr_left (h : R.Align true (.instr i :: s) s') (hs : s' <:+ T') :
    ∃ s₁, R.Quiet T' s' s₁ ∧ s₁ <:+ T' ∧
      ((∃ i' k', s₁ = .instr i' :: k' ∧ R.Alike i i' ∧ R.Align (!R.terminator i) s k') ∨
        (R.observe i = none ∧ R.terminator i = false ∧ R.Align true s s₁)) := by
  generalize hlive : true = live at h
  generalize hleft : .instr i :: s = left at h
  induction h with
  | nil => cases hleft
  | label => cases hleft
  | @instr _ i' _ s' halike h =>
    cases hleft
    exact ⟨_, .refl _, hs, .inl ⟨i', s', rfl, halike, h⟩⟩
  | dropDead => cases hlive
  | addDead => cases hlive
  | dropSilent hi hterm h _ =>
    cases hleft
    exact ⟨_, .refl _, hs, .inr ⟨hi, hterm, h⟩⟩
  | addSilent hi hterm _ ih =>
    obtain ⟨s₁, hquiet, hsuf, halign⟩ := ih ((List.suffix_cons _ _).trans hs) rfl hleft
    exact ⟨s₁, .silent hi (follow_only_of_not_terminator hterm) hquiet, hsuf, halign⟩
  | addJump => cases hleft
  | addEnd => cases hleft

theorem label_right (h : R.Align true s (.label l :: s')) :
    ∃ k, R.Quiet T s k ∧ R.Align true k s' := by
  generalize hlive : true = live at h
  generalize hright : .label l :: s' = right at h
  induction h with
  | nil => cases hright
  | @label _ _ s _ h =>
    cases hlive
    cases hright
    exact ⟨s, .label (.refl _), h⟩
  | instr => cases hright
  | dropDead => cases hlive
  | addDead => cases hlive
  | dropSilent hi hterm _ ih =>
    obtain ⟨k, hquiet, halign⟩ := ih rfl hright
    exact ⟨k, .silent hi (follow_only_of_not_terminator hterm) hquiet, halign⟩
  | addSilent => cases hright
  | addJump => cases hright
  | addEnd => cases hright

theorem instr_right (h : R.Align true s (.instr i :: s')) :
    ∃ s₁, R.Quiet T s s₁ ∧
      ((∃ i₁ k, s₁ = .instr i₁ :: k ∧ R.Alike i₁ i ∧ R.Align (!R.terminator i₁) k s') ∨
        (R.observe i = none ∧ ((R.terminator i = false ∧ R.Align true s₁ s') ∨
          (R.terminator i = true ∧ ((∃ l k, s₁ = .label l :: k ∧ (R.targets i)[0]? = some l ∧
            R.Align false (.label l :: k) s') ∨ (R.targets i)[0]? = none))))) := by
  generalize hlive : true = live at h
  generalize hright : .instr i :: s' = right at h
  induction h with
  | nil => cases hright
  | label => cases hright
  | @instr i₁ _ s _ halike h =>
    cases hright
    exact ⟨_, .refl _, .inl ⟨i₁, s, rfl, halike, h⟩⟩
  | dropDead => cases hlive
  | addDead => cases hlive
  | dropSilent hi hterm _ ih =>
    obtain ⟨s₁, hquiet, hcases⟩ := ih rfl hright
    exact ⟨s₁, .silent hi (follow_only_of_not_terminator hterm) hquiet, hcases⟩
  | addSilent hi hterm h _ =>
    cases hright
    exact ⟨_, .refl _, .inr ⟨hi, .inl ⟨hterm, h⟩⟩⟩
  | @addJump _ l s _ hi hterm hl h _ =>
    cases hright
    exact ⟨_, .refl _, .inr ⟨hi, .inr ⟨hterm, .inl ⟨l, s, rfl, hl, h⟩⟩⟩⟩
  | addEnd hi hterm hl _ _ =>
    cases hright
    exact ⟨_, .refl _, .inr ⟨hi, .inr ⟨hterm, .inr hl⟩⟩⟩

/-! ## The executions -/

theorem exec_right (hT : R.Align true T T') (hnodup : (labels T').Nodup)
    (hexec : R.Exec T s ds tr) : ∀ s', s' <:+ T' → R.Align true s s' → R.Exec T' s' ds tr := by
  induction hexec with
  | done => exact fun s' _ _ => .done s'
  | label _ ih =>
    intro s' hs h
    obtain ⟨k', hquiet, hsuf, halign⟩ := h.label_left hnodup hs
    exact hquiet.exec (ih k' hsuf halign)
  | @silent i s k ds tr hi hf _ ih =>
    intro s' hs h
    obtain ⟨s₁, hquiet, hsuf, ⟨i', k', rfl, halike, halign⟩ | ⟨-, hterm, halign⟩⟩ := h.instr_left hs
    · obtain ⟨hnone, -⟩ | ⟨k, k₁, hk, hk₁, hnext⟩ :=
        follow (d := R.only i) hT halike halign
      · rw [hnone] at hf
        cases hf
      · rw [hk] at hf
        cases hf
        have honly : R.only i' = R.only i := by
          unfold Reading.only
          rw [halike.terminator_eq]
        refine hquiet.exec (.silent (halike.observe_eq ▸ hi) (honly ▸ hk₁) ?_)
        exact ih k₁ (follow_suffix hk₁ hsuf) hnext
    · rw [follow_only_of_not_terminator hterm] at hf
      cases hf
      exact hquiet.exec (ih s₁ hsuf halign)
  | last hi =>
    intro s' hs h
    obtain ⟨s₁, hquiet, -, ⟨i', k', rfl, halike, -⟩ | ⟨hsilent, -⟩⟩ := h.instr_left hs
    · exact hquiet.exec (.last (halike.observe_eq ▸ hi))
    · rw [hi] at hsilent
      cases hsilent
  | step hi hf _ ih =>
    intro s' hs h
    obtain ⟨s₁, hquiet, hsuf, ⟨i', k', rfl, halike, halign⟩ | ⟨hsilent, -⟩⟩ := h.instr_left hs
    · obtain ⟨hnone, -⟩ | ⟨k, k₁, hk, hk₁, hnext⟩ := follow hT halike halign
      · rw [hnone] at hf
        cases hf
      · rw [hk] at hf
        cases hf
        refine hquiet.exec (.step (halike.observe_eq ▸ hi) hk₁ ?_)
        exact ih k₁ (follow_suffix hk₁ hsuf) hnext
    · rw [hi] at hsilent
      cases hsilent

theorem exec_left (hT : R.Align true T T') (hnodup : (labels T').Nodup)
    (hexec : R.Exec T' s' ds tr) : ∀ s, s' <:+ T' → R.Align true s s' → R.Exec T s ds tr := by
  induction hexec with
  | done => exact fun s _ _ => .done s
  | label _ ih =>
    intro s hs h
    obtain ⟨k, hquiet, halign⟩ := h.label_right (T := T)
    exact hquiet.exec (ih k ((List.suffix_cons _ _).trans hs) halign)
  | @silent i _ _ _ _ hi hf _ ih =>
    intro s hs h
    obtain ⟨s₁, hquiet, ⟨i₁, k, rfl, halike, halign⟩ | ⟨-, ⟨hterm, halign⟩ |
      ⟨hterm, ⟨l, k, rfl, hl, halign⟩ | hl⟩⟩⟩ := h.instr_right (T := T)
    · have honly : R.only i = R.only i₁ := by
        unfold Reading.only
        rw [← halike.terminator_eq]
      rw [honly] at hf
      obtain ⟨-, hnone⟩ | ⟨k₁, k', hk₁, hk', hnext⟩ := follow (d := R.only i₁) hT halike halign
      · rw [hnone] at hf
        cases hf
      · refine hquiet.exec (.silent (halike.observe_eq.trans hi) hk₁ ?_)
        rw [hk'] at hf
        cases hf
        exact ih k₁ (follow_suffix hk' hs) hnext
    · rw [follow_only_of_not_terminator hterm] at hf
      cases hf
      exact hquiet.exec (ih s₁ ((List.suffix_cons _ _).trans hs) halign)
    · obtain ⟨k', hk', hsuf, hnext⟩ := jump_follows hnodup hs hterm hl halign
      rw [hk'] at hf
      cases hf
      exact hquiet.exec (.label (ih k hsuf hnext))
    · rw [follow_only_of_end hterm hl] at hf
      cases hf
  | last hi =>
    intro s hs h
    obtain ⟨s₁, hquiet, ⟨i₁, k, rfl, halike, -⟩ | ⟨hsilent, -⟩⟩ := h.instr_right (T := T)
    · exact hquiet.exec (.last (halike.observe_eq.trans hi))
    · rw [hi] at hsilent
      cases hsilent
  | step hi hf _ ih =>
    intro s hs h
    obtain ⟨s₁, hquiet, ⟨i₁, k, rfl, halike, halign⟩ | ⟨hsilent, -⟩⟩ := h.instr_right (T := T)
    · obtain ⟨-, hnone⟩ | ⟨k₁, k', hk₁, hk', hnext⟩ := follow hT halike halign
      · rw [hnone] at hf
        cases hf
      · refine hquiet.exec (.step (halike.observe_eq.trans hi) hk₁ ?_)
        rw [hk'] at hf
        cases hf
        exact ih k₁ (follow_suffix hk' hs) hnext
    · rw [hi] at hsilent
      cases hsilent

theorem exec_iff (hT : R.Align true T T') (hnodup : (labels T').Nodup) (hs : s' <:+ T')
    (h : R.Align true s s') : R.Exec T s ds tr ↔ R.Exec T' s' ds tr :=
  ⟨fun hexec => hT.exec_right hnodup hexec s' hs h, fun hexec => hT.exec_left hnodup hexec s hs h⟩

/-! ## Building alignments -/

omit [DecidableEq L] in
theorem dead (h : R.Align live s s') : R.Align false s s' := by
  induction h with
  | nil => exact .nil
  | label h _ => exact .label h
  | instr _ _ ih => exact .dropDead (.addDead ih)
  | dropDead h _ => exact .dropDead h
  | addDead h _ => exact .addDead h
  | dropSilent _ _ _ ih => exact .dropDead ih
  | addSilent _ _ _ ih => exact .addDead ih
  | addJump _ _ _ h _ => exact .addDead h
  | addEnd _ _ _ h _ => exact .addDead h

omit [DecidableEq L] in
theorem cons_instr {i' : I} (hi : R.Alike i i') (h : R.Align true s s') :
    R.Align true (.instr i :: s) (.instr i' :: s') := by
  apply Align.instr hi
  cases R.terminator i with
  | true => exact h.dead
  | false => exact h

omit [DecidableEq L] in
theorem append_left (t : List (Item I L)) (h : R.Align true s s') :
    R.Align true (t ++ s) (t ++ s') := by
  induction t with
  | nil => exact h
  | cons a t ih =>
    cases a with
    | label l => exact .label ih
    | instr i => exact cons_instr (.refl R i) ih

omit [DecidableEq L] in
theorem drop_dead (is : List I) (h : R.Align false s s') :
    R.Align false (is.map .instr ++ s) s' := by
  induction is with
  | nil => exact h
  | cons i is ih => exact .dropDead ih

omit [DecidableEq L] in
theorem refl (s : List (Item I L)) : R.Align true s s := by
  have h := append_left s (.nil : R.Align true [] [])
  rwa [List.append_nil] at h

end Reading.Align

/-- Listings with the same labels and the same executions, from the start and from every
label. -/
structure Reading.Agree (R : Reading I L A) (T T' : List (Item I L)) : Prop where
  labels_eq : labels T = labels T'
  exec_iff : ∀ ds tr, R.Exec T T ds tr ↔ R.Exec T' T' ds tr
  find : ∀ l k, Item.find l T = some k → ∃ k', Item.find l T' = some k' ∧
    ∀ ds tr, R.Exec T k ds tr ↔ R.Exec T' k' ds tr

theorem Reading.Agree.refl (T : List (Item I L)) : R.Agree T T where
  labels_eq := rfl
  exec_iff _ _ := Iff.rfl
  find _ k hk := ⟨k, hk, fun _ _ => Iff.rfl⟩

theorem Reading.Agree.trans {T'' : List (Item I L)} (h : R.Agree T T') (h' : R.Agree T' T'') :
    R.Agree T T'' where
  labels_eq := h.labels_eq.trans h'.labels_eq
  exec_iff ds tr := (h.exec_iff ds tr).trans (h'.exec_iff ds tr)
  find l k hk := by
    obtain ⟨k', hk', hiff⟩ := h.find l k hk
    obtain ⟨k'', hk'', hiff'⟩ := h'.find l k' hk'
    exact ⟨k'', hk'', fun ds tr => (hiff ds tr).trans (hiff' ds tr)⟩

theorem Reading.Align.agree (h : R.Align true T T') (hT : (labels T).Nodup) : R.Agree T T' := by
  have hT' : (labels T').Nodup := h.labels_eq ▸ hT
  refine ⟨h.labels_eq, fun ds tr => h.exec_iff hT' List.suffix_rfl h, fun l k hk => ?_⟩
  obtain ⟨k', hk', halign⟩ := h.find_left hk
  exact ⟨k', hk', fun ds tr => h.exec_iff hT' (find_suffix hk') halign⟩

end

end Hilti.Lib
