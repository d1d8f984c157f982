import Mathlib
import Hilti.Spicy.Tokens

/-!
# Grammars without ambiguities

`Grammar::check` compares the look-ahead sets of the two alternatives by the texts of the
terminals and of their types.  The generated parser compares identifiers of tokens instead, which
stand for these texts with a dash in between.  From such a key both texts can be recovered, so a
grammar that passes the check has no token that selects both alternatives.
-/

namespace Hilti.Spicy

set_option autoImplicit false

/-! ## Texts of types -/

def NotBlankDash (a b : Char) : Prop :=
  ¬ (a = ' ' ∧ b = '-')

/-- There is no dash behind a blank, and none at the beginning. -/
structure Tidy (l : List Char) : Prop where
  chain : l.IsChain NotBlankDash
  head : ∀ c ∈ l.head?, c ≠ '-'

theorem Tidy.nil : Tidy [] :=
  ⟨List.isChain_nil, by simp⟩

theorem Tidy.append {l r : List Char} (hl : Tidy l) (hr : Tidy r) : Tidy (l ++ r) := by
  constructor
  · rw [List.isChain_append]
    refine ⟨hl.chain, hr.chain, fun a ha b hb h => ?_⟩
    exact hr.head b hb h.2
  · intro c hc
    cases l with
    | nil => exact hr.head c hc
    | cons d l => exact hl.head c hc

theorem Tidy.of_no_blank {l : List Char} (hblank : ' ' ∉ l) (hhead : ∀ c ∈ l.head?, c ≠ '-') :
    Tidy l := by
  refine ⟨?_, hhead⟩
  rw [List.isChain_iff_forall_rel_of_append_cons_cons]
  intro a b l₁ l₂ heq h
  apply hblank
  rw [heq, ← h.1]
  exact List.mem_append_right _ List.mem_cons_self

theorem tidy_append {s t : String} (hs : Tidy s.toList) (ht : Tidy t.toList) :
    Tidy (s ++ t).toList := by
  rw [String.toList_append]
  exact hs.append ht

/-- The characters of the path of an ID. -/
structure Path (l : List Char) : Prop where
  nonempty : ∃ c cs, l = c :: cs ∧ isIdStart c = true
  chars : ∀ d ∈ l, isIdChar d = true ∨ d = ':'

theorem isIdChar_of_start {c : Char} (h : isIdStart c = true) : isIdChar c = true := by
  unfold isIdStart at h
  unfold isIdChar
  rcases Bool.or_eq_true _ _ ▸ h with h | h
  · simp [Char.isAlphanum, h]
  · simp [of_decide_eq_true h]

theorem Word.path {s : String} (h : Word s) : Path s.toList := by
  obtain ⟨c, cs, heq, hc, hcs⟩ := h
  refine ⟨⟨c, cs, heq, hc⟩, fun d hd => .inl ?_⟩
  rw [heq, List.mem_cons] at hd
  rcases hd with rfl | hd
  · exact isIdChar_of_start hc
  · exact hcs d hd

theorem Path.append {s t : String} (hs : Path s.toList) (ht : Path t.toList) :
    Path (s ++ "::" ++ t).toList := by
  obtain ⟨c, cs, heq, hc⟩ := hs.nonempty
  rw [String.toList_append, String.toList_append]
  refine ⟨⟨c, cs ++ "::".toList ++ t.toList, by rw [heq]; rfl, hc⟩, fun d hd => ?_⟩
  rcases List.mem_append.mp hd with hd | hd
  · rcases List.mem_append.mp hd with hd | hd
    · exact hs.chars d hd
    · have hcolons : ∀ e ∈ "::".toList, e = ':' := by simp
      exact .inr (hcolons d hd)
  · exact ht.chars d hd

theorem pathAsString_path (id : TypeId) : Path id.pathAsString.toList := by
  have hfold : ∀ (rest : List Identifier) (s : String), Path s.toList →
      Path (rest.foldl (fun s c => s ++ "::" ++ c.text) s).toList := by
    intro rest
    induction rest with
    | nil => exact fun s hs => hs
    | cons c rest ih => exact fun s hs => ih _ (hs.append c.word.path)
  exact hfold id.rest id.first.text id.first.word.path

theorem printTypeID_path (qualify : Bool) (id : TypeId) : Path (printTypeID qualify id).toList := by
  unfold printTypeID
  split
  · rename_i scope _ _
    exact scope.word.path.append id.first.word.path
  · exact pathAsString_path id

theorem Path.not_mem {l : List Char} (h : Path l) {c : Char} (hc : isIdChar c = false)
    (hcolon : c ≠ ':') : c ∉ l := by
  intro hmem
  rcases h.chars c hmem with h | h
  · rw [hc] at h
    cases h
  · exact hcolon h

theorem Path.tidy {l : List Char} (h : Path l) : Tidy l := by
  refine Tidy.of_no_blank (h.not_mem (by decide) (by decide)) fun c hc => ?_
  obtain ⟨d, cs, rfl, hd⟩ := h.nonempty
  rintro rfl
  obtain rfl := Option.some.inj hc
  exact absurd hd (by decide)

theorem repr_chars (n : ℕ) : ∀ c ∈ (Nat.repr n).toList, c.isDigit = true := by
  intro c hc
  rw [Nat.toList_repr] at hc
  exact Nat.isDigit_of_mem_toDigits (by decide) (by decide) hc

theorem repr_tidy (n : ℕ) : Tidy (Nat.repr n).toList := by
  refine Tidy.of_no_blank (fun h => ?_) fun c hc => ?_
  · exact absurd (repr_chars n ' ' h) (by decide)
  · rintro rfl
    exact absurd (repr_chars n '-' (List.mem_of_mem_head? hc)) (by decide)

theorem tidy_of_decide {s : String} (h : s.toList.all (fun c => c ≠ '-') = true) :
    Tidy s.toList := by
  rw [List.all_eq_true] at h
  constructor
  · rw [List.isChain_iff_forall_rel_of_append_cons_cons]
    intro a b l₁ l₂ heq hab
    have hmem : b ∈ s.toList := by
      rw [heq]
      exact List.mem_append_right _ (List.mem_cons_of_mem _ List.mem_cons_self)
    exact of_decide_eq_true (h b hmem) hab.2
  · intro c hc
    exact of_decide_eq_true (h c (List.mem_of_mem_head? hc))

theorem renderLabels_tidy (ls : List Label) : Tidy (renderLabels ls).toList := by
  induction ls with
  | nil => exact Tidy.nil
  | cons l ls ih =>
    rw [renderLabels]
    refine tidy_append (tidy_append (tidy_append (tidy_of_decide rfl) l.id.word.path.tidy) ?_) ih
    split
    · exact tidy_append (tidy_of_decide rfl) (repr_tidy _)
    · exact Tidy.nil

mutual

theorem render_tidy (qualify : Bool) : ∀ t : Ty, Tidy (t.render qualify).toList
  | .named id => by
    rw [Ty.render]
    exact (printTypeID_path qualify id).tidy
  | .plain p => by
    rw [Ty.render]
    cases p <;> exact tidy_of_decide rfl
  | .integer signed width => by
    rw [Ty.render]
    refine tidy_append (tidy_append ?_ ?_) (tidy_of_decide rfl)
    · cases signed <;> exact tidy_of_decide rfl
    · split
      · exact tidy_of_decide rfl
      · exact repr_tidy width
  | .container c arg => by
    rw [Ty.render]
    have hname : Tidy c.name.toList := by
      cases c <;> exact tidy_of_decide rfl
    exact tidy_append (tidy_append (tidy_append hname (tidy_of_decide rfl))
      (render_tidy qualify arg)) (tidy_of_decide rfl)
  | .map key value => by
    rw [Ty.render]
    exact tidy_append (tidy_append (tidy_append (tidy_append (tidy_of_decide rfl)
      (render_tidy qualify key)) (tidy_of_decide rfl)) (render_tidy qualify value))
      (tidy_of_decide rfl)
  | .tuple types => by
    rw [Ty.render]
    exact renderTypes_tidy qualify types
  | .bitset labels => by
    rw [Ty.render]
    exact tidy_append (tidy_of_decide rfl) (renderLabels_tidy labels)
  | .enum labels => by
    rw [Ty.render]
    exact tidy_append (tidy_of_decide rfl) (renderLabels_tidy labels)

theorem renderTypes_tidy (qualify : Bool) : ∀ ts : List Ty, Tidy (renderTypes qualify ts).toList
  | [] => by
    rw [renderTypes]
    exact Tidy.nil
  | t :: ts => by
    rw [renderTypes]
    refine tidy_append (tidy_append (tidy_append (tidy_of_decide rfl) (render_tidy qualify t))
      (tidy_of_decide rfl)) ?_
    split
    · exact Tidy.nil
    · exact tidy_append (tidy_of_decide rfl) (renderTypes_tidy qualify ts)

end

/-! ## The beginning of a key -/

/-- The text begins as the type of a variable does, and not as a literal. -/
structure OpensVariable (l : List Char) : Prop where
  ne_nil : l ≠ []
  head : ∀ c ∈ l.head?, c.isDigit = false ∧ c ≠ '-' ∧ c ≠ '/'
  not_bytes : ¬ "b\"".toList <+: l
  not_object : ¬ "object<".toList <+: l

theorem not_prefix_cons {p : Char} {ps l : List Char} (h : ∀ c ∈ l.head?, c ≠ p) :
    ¬ p :: ps <+: l := by
  rintro ⟨t, rfl⟩
  exact h p rfl rfl

theorem OpensVariable.of_head {c : Char} {cs : List Char}
    (h : c.isDigit = false ∧ c ≠ '-' ∧ c ≠ '/' ∧ c ≠ 'b' ∧ c ≠ 'o') :
    OpensVariable (c :: cs) := by
  obtain ⟨hdigit, hdash, hslash, hb, ho⟩ := h
  refine ⟨List.cons_ne_nil c cs, ?_, ?_, ?_⟩
  · rintro d hd
    obtain rfl := Option.some.inj hd
    exact ⟨hdigit, hdash, hslash⟩
  · refine not_prefix_cons fun d hd => ?_
    obtain rfl := Option.some.inj hd
    exact hb
  · refine not_prefix_cons fun d hd => ?_
    obtain rfl := Option.some.inj hd
    exact ho

theorem not_isDigit_of_start {c : Char} (h : isIdStart c = true) : c.isDigit = false := by
  simp only [isIdStart, Char.isAlpha, Char.isUpper, Char.isLower, Char.isDigit, Bool.or_eq_true,
    Bool.and_eq_true, decide_eq_true_eq, Bool.and_eq_false_iff, decide_eq_false_iff_not,
    UInt32.le_iff_toNat_le, ge_iff_le] at h ⊢
  rcases h with (h | h) | rfl
  · refine .inr fun hle => ?_
    have h₁ : (65 : ℕ) ≤ c.val.toNat := h.1
    have h₂ : c.val.toNat ≤ 57 := hle
    omega
  · refine .inr fun hle => ?_
    have h₁ : (97 : ℕ) ≤ c.val.toNat := h.1
    have h₂ : c.val.toNat ≤ 57 := hle
    omega
  · decide

theorem Path.opensVariable {l : List Char} (h : Path l) : OpensVariable l := by
  obtain ⟨c, cs, rfl, hc⟩ := h.nonempty
  refine ⟨List.cons_ne_nil c cs, ?_, ?_, ?_⟩
  · intro d hd
    obtain rfl := Option.some.inj hd
    refine ⟨not_isDigit_of_start hc, ?_, ?_⟩
    · rintro rfl
      exact absurd hc (by decide)
    · rintro rfl
      exact absurd hc (by decide)
  · intro hpre
    exact h.not_mem (c := '"') (by decide) (by decide) (hpre.subset (by decide))
  · intro hpre
    exact h.not_mem (c := '<') (by decide) (by decide) (hpre.subset (by decide))

theorem prefix_before_dash {p l r : List Char} (hp : '-' ∉ p) (h : p <+: l ++ '-' :: r) :
    p <+: l := by
  by_cases hlt : p.length ≤ l.length
  · exact List.prefix_of_prefix_length_le h (List.prefix_append l _) hlt
  · have hdash : l ++ ['-'] <+: p := by
      refine List.prefix_of_prefix_length_le ⟨r, ?_⟩ h ?_
      · rw [List.append_assoc]
        rfl
      · rw [List.length_append, List.length_singleton]
        omega
    exact absurd (hdash.subset (List.mem_append_right _ List.mem_cons_self)) hp

theorem OpensVariable.append {l : List Char} (h : OpensVariable l) (r : List Char) :
    OpensVariable (l ++ '-' :: r) := by
  refine ⟨by simp, ?_, ?_, ?_⟩
  · obtain ⟨c, cs, rfl⟩ := List.exists_cons_of_ne_nil h.ne_nil
    exact h.head
  · exact fun hpre => h.not_bytes (prefix_before_dash (by decide) hpre)
  · exact fun hpre => h.not_object (prefix_before_dash (by decide) hpre)

theorem OpensVariable.of_prefix {s t : String} {c : Char} {cs : List Char}
    (hs : s.toList = c :: cs)
    (h : c.isDigit = false ∧ c ≠ '-' ∧ c ≠ '/' ∧ c ≠ 'b' ∧ c ≠ 'o') :
    OpensVariable (s ++ t).toList := by
  rw [String.toList_append, hs]
  exact OpensVariable.of_head h

theorem isVariable_opens {t : Ty} (h : t.isVariable = true) :
    OpensVariable (t.render true).toList := by
  cases t with
  | named id =>
    rw [Ty.render]
    exact (printTypeID_path true id).opensVariable
  | plain p =>
    rw [Ty.render]
    cases p <;> first
      | exact absurd h (by decide)
      | exact ⟨by decide, by simp [Plain.render], by decide, by decide⟩
  | integer signed width =>
    rw [Ty.render, String.append_assoc]
    cases signed with
    | true => exact OpensVariable.of_prefix rfl (by decide)
    | false => exact OpensVariable.of_prefix rfl (by decide)
  | container c arg =>
    have hc : decide (c ∈ [Container.list, .set, .vector]) = true := h
    rw [Ty.render, String.append_assoc, String.append_assoc]
    cases c <;> first
      | exact absurd hc (by decide)
      | exact OpensVariable.of_prefix rfl (by decide)
  | map key value => cases h
  | tuple types => cases h
  | bitset labels => cases h
  | enum labels => cases h

/-! ## The texts can be recovered from a key -/

theorem last_dash_inj {l₁ l₂ r₁ r₂ : List Char} (h₁ : '-' ∉ r₁) (h₂ : '-' ∉ r₂)
    (h : l₁ ++ '-' :: r₁ = l₂ ++ '-' :: r₂) : l₁ = l₂ ∧ r₁ = r₂ := by
  induction l₁ generalizing l₂ with
  | nil =>
    cases l₂ with
    | nil => exact ⟨rfl, (List.cons.inj h).2⟩
    | cons c l₂ =>
      have hr : r₁ = l₂ ++ '-' :: r₂ := (List.cons.inj h).2
      exact absurd (hr ▸ List.mem_append_right _ List.mem_cons_self) h₁
  | cons c l₁ ih =>
    cases l₂ with
    | nil =>
      have hr : l₁ ++ '-' :: r₁ = r₂ := (List.cons.inj h).2
      exact absurd (hr ▸ List.mem_append_right _ List.mem_cons_self) h₂
    | cons d l₂ =>
      obtain ⟨rfl, hrest⟩ := List.cons.inj h
      obtain ⟨rfl, rfl⟩ := ih hrest
      exact ⟨rfl, rfl⟩

theorem blank_dash_inj {l₁ l₂ r₁ r₂ : List Char} (h₁ : l₁.IsChain NotBlankDash)
    (h₂ : l₂.IsChain NotBlankDash) (h : l₁ ++ ' ' :: '-' :: r₁ = l₂ ++ ' ' :: '-' :: r₂) :
    l₁ = l₂ ∧ r₁ = r₂ := by
  have hnot : ∀ {l r r' : List Char}, l.IsChain NotBlankDash → l ≠ [] →
      ' ' :: '-' :: r ≠ l ++ ' ' :: '-' :: r' := by
    intro l r r' hchain hne heq
    obtain ⟨c, l, rfl⟩ := List.exists_cons_of_ne_nil hne
    obtain ⟨rfl, hrest⟩ := List.cons.inj heq
    cases l with
    | nil => exact absurd (List.cons.inj hrest).1 (by decide)
    | cons d l =>
      obtain ⟨rfl, -⟩ := List.cons.inj hrest
      exact (List.isChain_cons_cons.mp hchain).1 ⟨rfl, rfl⟩
  induction l₁ generalizing l₂ with
  | nil =>
    cases l₂ with
    | nil => exact ⟨rfl, (List.cons.inj (List.cons.inj h).2).2⟩
    | cons c l₂ => exact absurd h (hnot h₂ (List.cons_ne_nil c l₂))
  | cons c l₁ ih =>
    cases l₂ with
    | nil => exact absurd h.symm (hnot h₁ (List.cons_ne_nil c l₁))
    | cons d l₂ =>
      obtain ⟨rfl, hrest⟩ := List.cons.inj h
      obtain ⟨rfl, rfl⟩ := ih h₁.tail h₂.tail hrest
      exact ⟨rfl, rfl⟩

theorem intRepr_head (value : ℤ) : ∃ c cs, (Int.repr value).toList = c :: cs ∧
    (c.isDigit = true ∨ c = '-') := by
  cases value with
  | ofNat n =>
    obtain ⟨c, cs, hrepr⟩ : ∃ c cs, (Nat.repr n).toList = c :: cs := by
      refine List.exists_cons_of_ne_nil ?_
      rw [Nat.toList_repr]
      exact Nat.toDigits_ne_nil
    exact ⟨c, cs, hrepr, .inl (repr_chars n c (by rw [hrepr]; exact List.mem_cons_self))⟩
  | negSucc n =>
    refine ⟨'-', (Nat.repr (n + 1)).toList, ?_, .inr rfl⟩
    simp [Int.repr, String.toList_append]

namespace Terminal

def key (t : Terminal) : List Char :=
  t.renderTerminal.toList ++ '-' :: (t.type.render true).toList

def isVariable : Terminal → Bool
  | .var _ _ => true
  | _ => false

theorem opensVariable_iff (t : Terminal) : OpensVariable t.key ↔ t.isVariable = true := by
  cases t with
  | var t h =>
    exact ⟨fun _ => rfl, fun _ => (isVariable_opens h).append _⟩
  | integer value signed width =>
    refine ⟨fun h => ?_, fun h => nomatch h⟩
    obtain ⟨c, cs, hrepr, hc⟩ := intRepr_head value
    have hhead : c ∈ (key (.integer value signed width)).head? := by
      simp [key, renderTerminal, hrepr]
    rcases hc with hdigit | rfl
    · rw [(h.head c hhead).1] at hdigit
      cases hdigit
    · exact absurd rfl (h.head '-' hhead).2.1
  | bytes escaped =>
    refine ⟨fun h => absurd ?_ h.not_bytes, fun h => nomatch h⟩
    simp only [key, renderTerminal, String.toList_append, List.append_assoc]
    exact List.prefix_append _ _
  | regexp patterns =>
    refine ⟨fun h => ?_, fun h => nomatch h⟩
    cases patterns with
    | nil => exact absurd rfl (h.head '-' rfl).2.1
    | cons p ps =>
      have hhead : '/' ∈ (key (.regexp (p :: ps))).head? := by
        simp [key, renderTerminal, renderPatterns, String.toList_append]
      exact absurd rfl (h.head '/' hhead).2.2
  | typeLiteral arg =>
    refine ⟨fun h => absurd ?_ h.not_object, fun h => nomatch h⟩
    simp only [key, renderTerminal, Ty.render, String.toList_append, List.append_assoc]
    exact ⟨_, rfl⟩

def isTypeLiteral : Terminal → Bool
  | .typeLiteral _ => true
  | _ => false

theorem object_prefix_iff {t : Terminal} (h : t.isVariable = false) :
    "object<".toList <+: t.key ↔ t.isTypeLiteral = true := by
  cases t with
  | var t h' => cases h
  | integer value signed width =>
    refine ⟨fun hpre => absurd hpre (not_prefix_cons fun c hc => ?_), fun h => nomatch h⟩
    obtain ⟨d, cs, hrepr, hd⟩ := intRepr_head value
    have hhead : (key (.integer value signed width)).head? = some d := by
      simp [key, renderTerminal, hrepr]
    obtain rfl : d = c := Option.some.inj (hhead.symm.trans hc)
    rintro rfl
    exact absurd hd (by decide)
  | bytes escaped =>
    refine ⟨fun hpre => absurd hpre (not_prefix_cons fun c hc => ?_), fun h => nomatch h⟩
    have hhead : (key (.bytes escaped)).head? = some 'b' := by
      simp [key, renderTerminal, String.toList_append]
    obtain rfl : 'b' = c := Option.some.inj (hhead.symm.trans hc)
    decide
  | regexp patterns =>
    refine ⟨fun hpre => absurd hpre (not_prefix_cons fun c hc => ?_), fun h => nomatch h⟩
    cases patterns with
    | nil =>
      obtain rfl : '-' = c := Option.some.inj hc
      decide
    | cons p ps =>
      have hhead : (key (.regexp (p :: ps))).head? = some '/' := by
        simp [key, renderTerminal, renderPatterns, String.toList_append]
      obtain rfl : '/' = c := Option.some.inj (hhead.symm.trans hc)
      decide
  | typeLiteral arg =>
    refine ⟨fun _ => rfl, fun _ => ?_⟩
    simp only [key, renderTerminal, Ty.render, String.toList_append, List.append_assoc]
    exact ⟨_, rfl⟩

theorem dash_not_mem {t : Terminal} (h : t.isVariable = false) (h' : t.isTypeLiteral = false) :
    '-' ∉ (t.type.render true).toList := by
  cases t with
  | var t h'' => cases h
  | integer value signed width =>
    have hwidth : '-' ∉ (if width = 0 then "*" else Nat.repr width).toList := by
      split
      · decide
      · exact fun hmem => absurd (repr_chars width '-' hmem) (by decide)
    simp only [type, Ty.render, String.toList_append, List.mem_append, not_or]
    refine ⟨⟨?_, hwidth⟩, by decide⟩
    cases signed <;> decide
  | bytes escaped =>
    rw [type, Ty.render]
    decide
  | regexp patterns =>
    rw [type, Ty.render]
    decide
  | typeLiteral arg => cases h'

theorem key_inj {t u : Terminal} (h : t.key = u.key) :
    t.renderTerminal = u.renderTerminal ∧ t.type.render true = u.type.render true := by
  have hvariable : t.isVariable = u.isVariable := by
    rw [Bool.eq_iff_iff, ← opensVariable_iff, ← opensVariable_iff, h]
  cases ht : t.isVariable with
  | true =>
    obtain ⟨a, ha, rfl⟩ : ∃ a ha, t = .var a ha := by
      cases t <;> first | exact ⟨_, _, rfl⟩ | cases ht
    obtain ⟨b, hb, rfl⟩ : ∃ b hb, u = .var b hb := by
      rw [ht] at hvariable
      cases u <;> first | exact ⟨_, _, rfl⟩ | cases hvariable
    have hlen := congrArg List.length h
    simp only [key, renderTerminal, type, List.length_append, List.length_cons] at hlen
    obtain ⟨htext, -⟩ := List.append_inj h (show (a.render true).toList.length = _ by
      simp only [renderTerminal]; omega)
    have hrender : a.render true = b.render true := String.toList_injective htext
    exact ⟨hrender, hrender⟩
  | false =>
    have hu : u.isVariable = false := by rw [← hvariable, ht]
    have hliteral : t.isTypeLiteral = u.isTypeLiteral := by
      rw [Bool.eq_iff_iff, ← object_prefix_iff ht, ← object_prefix_iff hu, h]
    cases ht' : t.isTypeLiteral with
    | false =>
      obtain ⟨htext, htype⟩ := last_dash_inj (dash_not_mem ht ht')
        (dash_not_mem hu (by rw [← hliteral, ht'])) h
      exact ⟨String.toList_injective htext, String.toList_injective htype⟩
    | true =>
      obtain ⟨a, rfl⟩ : ∃ a, t = .typeLiteral a := by
        cases t <;> first | exact ⟨_, rfl⟩ | cases ht'
      obtain ⟨b, rfl⟩ : ∃ b, u = .typeLiteral b := by
        rw [ht'] at hliteral
        cases u <;> first | exact ⟨_, rfl⟩ | cases hliteral
      have hkey : ∀ c : Ty, key (.typeLiteral c) = ((Ty.container .object c).render false).toList ++
          ' ' :: '-' :: ((Ty.container .object c).render true).toList := by
        intro c
        simp only [key, renderTerminal, type, String.toList_append, List.append_assoc]
        rfl
      rw [hkey, hkey] at h
      obtain ⟨htext, htype⟩ := blank_dash_inj (render_tidy false _).chain
        (render_tidy false _).chain h
      refine ⟨?_, String.toList_injective htype⟩
      simp only [renderTerminal, String.toList_injective htext]

end Terminal

/-! ## The identifiers of tokens -/

section

variable {ι : Type} {g : Productions ι} {s : TokenIds ι}

/-- An identifier stands for one key, and a terminal has that of its key. -/
structure TokenIds.Consistent (g : Productions ι) (s : TokenIds ι) : Prop where
  bounded : ∀ k n, s.ids.lookup k = some n → 1 ≤ n ∧ n ≤ s.ids.length
  inj : ∀ k k' n, s.ids.lookup k = some n → s.ids.lookup k' = some n → k = k'
  cached : ∀ p, s.id p ≠ 0 → s.ids.lookup (tokenKey (g.node p)) = some (s.id p)

theorem TokenIds.Consistent.new (g : Productions ι) :
    TokenIds.Consistent g ⟨[], fun _ => 0⟩ :=
  ⟨fun _ _ h => (nomatch h), fun _ _ _ h => (nomatch h), fun _ h => absurd rfl h⟩

variable [DecidableEq ι]

theorem tokenID_consistent (h : s.Consistent g) (p : ι) : (tokenID g s p).2.Consistent g := by
  unfold tokenID
  split
  · exact h
  · split
    · rename_i i hlook
      refine ⟨h.bounded, h.inj, fun q hq => ?_⟩
      by_cases hqp : q = p
      · subst hqp
        simpa using hlook
      · simp only [Function.update_of_ne hqp] at hq ⊢
        exact h.cached q hq
    · rename_i hlook
      have hcons : ∀ k n, List.lookup k ((tokenKey (g.node p), s.ids.length + 1) :: s.ids) =
          some n → (k = tokenKey (g.node p) ∧ n = s.ids.length + 1) ∨
            s.ids.lookup k = some n := by
        intro k n hk
        by_cases hkey : k = tokenKey (g.node p)
        · subst hkey
          rw [List.lookup_cons_self] at hk
          exact .inl ⟨rfl, (Option.some.inj hk).symm⟩
        · rw [List.lookup_cons, beq_false_of_ne hkey] at hk
          exact .inr hk
      have hold : ∀ k n, s.ids.lookup k = some n → n ≠ s.ids.length + 1 := by
        intro k n hk
        have hle := (h.bounded k n hk).2
        omega
      refine ⟨fun k n hk => ?_, fun k k' n hk hk' => ?_, fun q hq => ?_⟩
      · rcases hcons k n hk with ⟨-, rfl⟩ | hk
        · simp
        · have hbounds := h.bounded k n hk
          simp only [List.length_cons]
          omega
      · rcases hcons k n hk with ⟨rfl, rfl⟩ | hk
        · rcases hcons k' _ hk' with ⟨rfl, -⟩ | hk'
          · rfl
          · exact absurd rfl (hold k' _ hk')
        · rcases hcons k' n hk' with ⟨-, rfl⟩ | hk'
          · exact absurd rfl (hold k _ hk)
          · exact h.inj k k' n hk hk'
      · by_cases hqp : q = p
        · subst hqp
          simp
        · simp only [Function.update_of_ne hqp] at hq ⊢
          have hcached := h.cached q hq
          have hkey : tokenKey (g.node q) ≠ tokenKey (g.node p) := by
            intro heq
            rw [heq, hlook] at hcached
            cases hcached
          rw [List.lookup_cons, beq_false_of_ne hkey]
          exact hcached

theorem tokenIDs_consistent (g : Productions ι) (calls : List ι) :
    (tokenIDs g calls).Consistent g := by
  have hfold : ∀ (calls : List ι) (s : TokenIds ι), s.Consistent g →
      (calls.foldl (fun s p => (tokenID g s p).2) s).Consistent g := by
    intro calls
    induction calls with
    | nil => exact fun s h => h
    | cons p calls ih => exact fun s h => ih _ (tokenID_consistent h p)
  exact hfold calls _ (TokenIds.Consistent.new g)

end

/-! ## The look-ahead sets -/

section

variable {ι : Type} [DecidableEq ι] {g : Productions ι} {s : Grammar ι} {t : Tables}

/-- The terminals of a grammar are those that the grammar builder makes. -/
def Printed (g : Productions ι) : Prop :=
  ∀ p, (g.kind p).isTerminal = true →
    ∃ t : Terminal, (g.node p).terminal = t.renderTerminal ∧ (g.node p).type = t.type.render true

theorem lookAheadTerminals_terminal {syms : List String} {v : Finset ι} {e : List (Option ι)}
    (h : lookAheadTerminals g s syms = some (v, e)) : ∀ q ∈ v, (g.kind q).isTerminal = true := by
  induction syms generalizing v e with
  | nil =>
    obtain ⟨rfl, -⟩ := Prod.mk.inj (Option.some.inj h)
    exact fun q hq => absurd hq (Finset.notMem_empty q)
  | cons sym syms ih =>
    rw [lookAheadTerminals] at h
    split at h
    · cases h
    · obtain ⟨rfl, -⟩ := Prod.mk.inj (Option.some.inj h)
      exact fun q hq => absurd hq (Finset.notMem_empty q)
    · rename_i q' _
      split at h
      · rename_i hterminal
        obtain ⟨⟨v', e'⟩, hrest, hv⟩ := Option.bind_eq_some_iff.mp h
        obtain ⟨rfl, -⟩ := Prod.mk.inj (Option.some.inj hv)
        intro q hq
        rcases Finset.mem_insert.mp hq with rfl | hq
        · exact hterminal
        · exact ih hrest q hq
      · obtain ⟨rfl, -⟩ := Prod.mk.inj (Option.some.inj h)
        exact fun q hq => absurd hq (Finset.notMem_empty q)

theorem lookAheadLoop_entry {ps : List ι} {lahs : List (LookAheads ι)} {errors : List (Option ι)}
    (h : lookAheadLoop g s t ps = some (lahs, errors)) : ∀ l ∈ lahs, l.prod ∈ ps ∧
      ∃ alt1 alt2 d e0 e1, g.kind l.prod = .lookAhead alt1 alt2 d ∧
        lookAheadTerminals g s ((laheads g s t l.prod [alt1]).sort (· ≤ ·)) =
          some (l.first, e0) ∧
        lookAheadTerminals g s ((laheads g s t l.prod [alt2]).sort (· ≤ ·)) =
          some (l.second, e1) := by
  induction ps generalizing lahs errors with
  | nil =>
    obtain ⟨rfl, -⟩ := Prod.mk.inj (Option.some.inj h)
    exact fun l hl => absurd hl List.not_mem_nil
  | cons p ps ih =>
    rw [lookAheadLoop] at h
    split at h
    · rename_i alt1 alt2 d hkind
      obtain ⟨⟨v0, e0⟩, h0, h⟩ := Option.bind_eq_some_iff.mp h
      obtain ⟨⟨v1, e1⟩, h1, h⟩ := Option.bind_eq_some_iff.mp h
      obtain ⟨⟨lahs', errors'⟩, hrest, h⟩ := Option.bind_eq_some_iff.mp h
      obtain ⟨rfl, -⟩ := Prod.mk.inj (Option.some.inj h)
      intro l hl
      rcases List.mem_cons.mp hl with rfl | hl
      · exact ⟨List.mem_cons_self, alt1, alt2, d, e0, e1, hkind, h0, h1⟩
      · obtain ⟨hmem, hentry⟩ := ih hrest l hl
        exact ⟨List.mem_cons_of_mem _ hmem, hentry⟩
    · intro l hl
      obtain ⟨hmem, hentry⟩ := ih h l hl
      exact ⟨List.mem_cons_of_mem _ hmem, hentry⟩

theorem lookAheadLoop_mem {ps : List ι} {lahs : List (LookAheads ι)} {errors : List (Option ι)}
    (h : lookAheadLoop g s t ps = some (lahs, errors)) {p alt1 alt2 : ι} {d : ℕ} (hp : p ∈ ps)
    (hkind : g.kind p = .lookAhead alt1 alt2 d) : ∃ l ∈ lahs, l.prod = p := by
  induction ps generalizing lahs errors with
  | nil => exact absurd hp List.not_mem_nil
  | cons q ps ih =>
    rw [lookAheadLoop] at h
    split at h
    · obtain ⟨⟨v0, e0⟩, -, h⟩ := Option.bind_eq_some_iff.mp h
      obtain ⟨⟨v1, e1⟩, -, h⟩ := Option.bind_eq_some_iff.mp h
      obtain ⟨⟨lahs', errors'⟩, hrest, h⟩ := Option.bind_eq_some_iff.mp h
      obtain ⟨rfl, -⟩ := Prod.mk.inj (Option.some.inj h)
      rcases List.mem_cons.mp hp with rfl | hp
      · exact ⟨_, List.mem_cons_self, rfl⟩
      · obtain ⟨l, hl, hprod⟩ := ih hrest hp
        exact ⟨l, List.mem_cons_of_mem _ hl, hprod⟩
    · rename_i hnot
      rcases List.mem_cons.mp hp with rfl | hp
      · exact absurd hkind (hnot alt1 alt2 d)
      · exact ih h hp

theorem newGrammar_lookAheads {fuel : ℕ} {root : ι} {c : Computed ι}
    (h : newGrammar g fuel root = some c) :
    ∃ t errors, lookAheadLoop g c.grammar t c.grammar.nterms = some (c.lookAheads, errors) := by
  obtain ⟨s₁, -, h⟩ := Option.bind_eq_some_iff.mp h
  obtain ⟨s₂, -, h⟩ := Option.bind_eq_some_iff.mp h
  obtain ⟨s₃, -, h⟩ := Option.bind_eq_some_iff.mp h
  obtain ⟨t, -, h⟩ := Option.bind_eq_some_iff.mp h
  obtain ⟨⟨lahs, errors⟩, hloop, h⟩ := Option.bind_eq_some_iff.mp h
  obtain rfl := Option.some.inj h
  exact ⟨t, errors, hloop⟩

end

/-! ## Grammars that pass the check -/

section

variable {ι : Type} [DecidableEq ι] {g : Productions ι} {name location : String} {c : Computed ι}

theorem checkLoop_tail {p : ι} {ps : List ι} (h : checkLoop g name location c (p :: ps) = "") :
    checkLoop g name location c ps = "" := by
  rw [checkLoop] at h
  split at h
  · dsimp only at h
    split at h
    · exact absurd (String.append_eq_empty_iff.mp h).2 (by decide)
    · split at h
      · exact absurd (String.append_eq_empty_iff.mp h).2 (by decide)
      · exact (String.append_eq_empty_iff.mp h).2
  · exact h

theorem checkLoop_head {p : ι} {ps : List ι} (h : checkLoop g name location c (p :: ps) = "")
    {alt1 alt2 : ι} {d : ℕ} {l : LookAheads ι} (hkind : g.kind p = .lookAhead alt1 alt2 d)
    (hfind : c.lookAheads.find? (fun l => l.prod = p) = some l) :
    ((defaultAlternatives g d l).1 && (defaultAlternatives g d l).2) = false ∧
      terminalNames g l.first ∩ terminalNames g l.second = ∅ := by
  rw [checkLoop, hkind, hfind] at h
  dsimp only at h
  split at h
  · exact absurd (String.append_eq_empty_iff.mp h).2 (by decide)
  · rename_i hdefaults
    refine ⟨Bool.eq_false_iff.mpr hdefaults, ?_⟩
    split at h
    · exact absurd (String.append_eq_empty_iff.mp h).2 (by decide)
    · have hmessage := (String.append_eq_empty_iff.mp h).1
      split at hmessage
      · rename_i hcard
        exact Finset.card_eq_zero.mp hcard
      · exact absurd (String.append_eq_empty_iff.mp hmessage).2 (by decide)

theorem checkLoop_empty {ps : List ι} (h : checkLoop g name location c ps = "") :
    ∀ p ∈ ps, ∀ alt1 alt2 d l, g.kind p = .lookAhead alt1 alt2 d →
      c.lookAheads.find? (fun l => l.prod = p) = some l →
        ((defaultAlternatives g d l).1 && (defaultAlternatives g d l).2) = false ∧
          terminalNames g l.first ∩ terminalNames g l.second = ∅ := by
  induction ps with
  | nil => exact fun p hp => absurd hp List.not_mem_nil
  | cons p ps ih =>
    intro q hq alt1 alt2 d l hkind hfind
    rcases List.mem_cons.mp hq with rfl | hq
    · exact checkLoop_head h hkind hfind
    · exact ih (checkLoop_tail h) q hq alt1 alt2 d l hkind hfind

end

theorem names_eq_of_key {ι : Type} {g : Productions ι} (hprinted : Printed g) {p q : ι} (hp : (g.kind p).isTerminal = true)
    (hq : (g.kind q).isTerminal = true) (h : tokenKey (g.node p) = tokenKey (g.node q)) :
    (g.node p).terminal = (g.node q).terminal ∧ (g.node p).type = (g.node q).type := by
  obtain ⟨t, hterminal, htype⟩ := hprinted p hp
  obtain ⟨u, hterminal', htype'⟩ := hprinted q hq
  have hkey : ∀ (r : Production ι) (v : Terminal), r.terminal = v.renderTerminal →
      r.type = v.type.render true → (tokenKey r).toList = v.key := by
    intro r v hr hr'
    rw [tokenKey, hr, hr', Terminal.key, String.toList_append, String.toList_append,
      List.append_assoc]
    rfl
  have heq : t.key = u.key := by
    rw [← hkey _ t hterminal htype, ← hkey _ u hterminal' htype', h]
  rw [hterminal, htype, hterminal', htype']
  exact Terminal.key_inj heq

/-- Where the check finds nothing, every look-ahead production has at most one alternative for
each token, after any calls of `tokenID`, and at most one default. -/
theorem check_deterministic {ι : Type} [DecidableEq ι] (g : Productions ι) (hprinted : Printed g)
    (fuel : ℕ) (root : ι) (c : Computed ι) (hc : newGrammar g fuel root = some c)
    (name location : String) (hcheck : check g name location c = "") (calls : List ι) :
    ∀ p ∈ c.grammar.nterms, ∀ alt1 alt2 d, g.kind p = .lookAhead alt1 alt2 d →
      ∃ l, c.lookAheads.find? (fun l => l.prod = p) = some l ∧
        (∀ id ≠ 0, ¬ ((∃ t ∈ l.first, (tokenIDs g calls).id t = id) ∧
          ∃ t ∈ l.second, (tokenIDs g calls).id t = id)) ∧
        ¬ ((defaultAlternatives g d l).1 = true ∧ (defaultAlternatives g d l).2 = true) := by
  intro p hp alt1 alt2 d hkind
  obtain ⟨t, errors, hloop⟩ := newGrammar_lookAheads hc
  obtain ⟨l, hfind⟩ : ∃ l, c.lookAheads.find? (fun l => l.prod = p) = some l := by
    obtain ⟨l, hl, hprod⟩ := lookAheadLoop_mem hloop hp hkind
    cases hf : c.lookAheads.find? (fun l => l.prod = p) with
    | none =>
      have hnone := List.find?_eq_none.mp hf l hl
      simp [hprod] at hnone
    | some l' => exact ⟨l', rfl⟩
  obtain ⟨-, alt1', alt2', d', e0, e1, -, h0, h1⟩ :=
    lookAheadLoop_entry hloop l (List.mem_of_find?_eq_some hfind)
  have hempty := (String.append_eq_empty_iff.mp hcheck).2
  obtain ⟨hdefaults, hnames⟩ := checkLoop_empty hempty p hp alt1 alt2 d l hkind hfind
  refine ⟨l, hfind, ?_, ?_⟩
  · rintro id hid ⟨⟨q, hq, hqid⟩, ⟨r, hr, hrid⟩⟩
    have hids := tokenIDs_consistent g calls
    have hkey : tokenKey (g.node q) = tokenKey (g.node r) := by
      refine hids.inj _ _ id ?_ ?_
      · rw [← hqid]
        exact hids.cached q (hqid ▸ hid)
      · rw [← hrid]
        exact hids.cached r (hrid ▸ hid)
    obtain ⟨hterminal, htype⟩ := names_eq_of_key hprinted (lookAheadTerminals_terminal h0 q hq)
      (lookAheadTerminals_terminal h1 r hr) hkey
    have hinter : (g.node q).terminal ++ " (" ++ (g.node q).type ++ ")" ∈
        terminalNames g l.first ∩ terminalNames g l.second := by
      refine Finset.mem_inter.mpr ⟨Finset.mem_image.mpr ⟨q, hq, rfl⟩,
        Finset.mem_image.mpr ⟨r, hr, ?_⟩⟩
      rw [hterminal, htype]
    rw [hnames] at hinter
    exact absurd hinter (Finset.notMem_empty _)
  · rintro ⟨h₁, h₂⟩
    rw [h₁, h₂] at hdefaults
    cases hdefaults

/-- A choice between a literal and an integer. -/
def choiceGrammar : Productions (Fin 3) where
  node p := match p with
    | 0 => ⟨.lookAhead 1 2 0, "choice", "", "", ""⟩
    | 1 => ⟨.literal, "ctor:a", "", "b\"a\"", "bytes"⟩
    | 2 => ⟨.literal, "const:b", "", "5", "int<64>"⟩
  epsilon_iff := by decide

theorem choiceGrammar_printed : Printed choiceGrammar := by
  intro p hp
  match p with
  | 0 => cases hp
  | 1 => exact ⟨.bytes "a", by decide, by decide⟩
  | 2 => exact ⟨.integer 5 true 64, by decide, by decide⟩

theorem choiceGrammar_deterministic :
    ∃ c, newGrammar choiceGrammar 20 0 = some c ∧ check choiceGrammar "" "" c = "" ∧
      ∀ p ∈ c.grammar.nterms, ∀ alt1 alt2 d, choiceGrammar.kind p = .lookAhead alt1 alt2 d →
        ∃ l, c.lookAheads.find? (fun l => l.prod = p) = some l ∧
          (∀ id ≠ 0, ¬ ((∃ t ∈ l.first, (tokenIDs choiceGrammar [1, 2]).id t = id) ∧
            ∃ t ∈ l.second, (tokenIDs choiceGrammar [1, 2]).id t = id)) ∧
          ¬ ((defaultAlternatives choiceGrammar d l).1 = true ∧
            (defaultAlternatives choiceGrammar d l).2 = true) := by
  have hrun : (newGrammar choiceGrammar 20 0).map (check choiceGrammar "" "") = some "" := by
    decide +kernel
  obtain ⟨c, hc, hcheck⟩ := Option.map_eq_some_iff.mp hrun
  exact ⟨c, hc, hcheck, check_deterministic choiceGrammar choiceGrammar_printed 20 0 c hc "" ""
    hcheck [1, 2]⟩

end Hilti.Spicy
