import Mathlib.Computability.Language
import Hilti.Lib.Spans

/-! # Words as spans

What a language matches of an input: it goes from one position to another if the letters between them
are a word of the language.  Sums, products and repetitions of languages become those of spans. -/

namespace Hilti.Lib

set_option autoImplicit false

variable {ι α : Type} (chars : ι → List α)

/-- The spans of the words of a language. -/
def wordSpans (L : Language α) : Spans ι := fun x i j =>
  ∃ w ∈ L, j = i + w.length ∧ w <+: (chars x).drop i

/-- The words of one letter, for the letters of a set. -/
def letters (S : Set α) : Language α := (fun c => [c]) '' S

variable {chars} {L M : Language α} {x : ι} {i j : ℕ}

theorem mem_letters {S : Set α} {w : List α} : w ∈ letters S ↔ ∃ c ∈ S, [c] = w := Iff.rfl

theorem wordSpans_one : wordSpans chars (1 : Language α) = 1 := by
  funext x i j
  apply propext
  constructor
  · intro h
    obtain ⟨w, hw, hj, -⟩ := h
    rw [Language.mem_one] at hw
    rw [hw] at hj
    exact hj.symm
  · intro h
    exact ⟨[], Language.nil_mem_one, (Spans.one_iff.mp h).symm, List.nil_prefix⟩

theorem wordSpans_mul : wordSpans chars (L * M) = wordSpans chars L * wordSpans chars M := by
  funext x i j
  apply propext
  constructor
  · intro h
    obtain ⟨w, hw, hj, rest, hrest⟩ := h
    obtain ⟨a, ha, b, hb, rfl⟩ := Language.mem_mul.mp hw
    rw [List.append_assoc] at hrest
    refine ⟨i + a.length, ⟨a, ha, rfl, ⟨_, hrest⟩⟩, b, hb, ?_, ⟨rest, ?_⟩⟩
    · rw [hj, List.length_append, Nat.add_assoc]
    · rw [← List.drop_drop, ← hrest, List.drop_left]
  · intro h
    obtain ⟨k, ⟨a, ha, hk, resta, hresta⟩, b, hb, hj, hpre⟩ := h
    refine ⟨a ++ b, Language.append_mem_mul ha hb, ?_, ?_⟩
    · rw [hj, hk, List.length_append, Nat.add_assoc]
    · rw [hk, ← List.drop_drop, ← hresta, List.drop_left] at hpre
      rw [← hresta]
      exact (List.prefix_append_right_inj a).mpr hpre

theorem wordSpans_add : wordSpans chars (L + M) = wordSpans chars L ⊔ wordSpans chars M := by
  funext x i j
  apply propext
  constructor
  · intro h
    obtain ⟨w, hw, hspan⟩ := h
    cases (Language.mem_add L M w).mp hw with
    | inl hw => exact .inl ⟨w, hw, hspan⟩
    | inr hw => exact .inr ⟨w, hw, hspan⟩
  · intro h
    cases h with
    | inl h =>
      obtain ⟨w, hw, hspan⟩ := h
      exact ⟨w, (Language.mem_add L M w).mpr (.inl hw), hspan⟩
    | inr h =>
      obtain ⟨w, hw, hspan⟩ := h
      exact ⟨w, (Language.mem_add L M w).mpr (.inr hw), hspan⟩

theorem wordSpans_pow (n : ℕ) : wordSpans chars (L ^ n) = wordSpans chars L ^ n := by
  induction n with
  | zero => rw [pow_zero, pow_zero, wordSpans_one]
  | succ n ih => rw [pow_succ, pow_succ, wordSpans_mul, ih]

theorem wordSpans_iSup {κ : Sort*} (f : κ → Language α) :
    wordSpans chars (⨆ k, f k) = ⨆ k, wordSpans chars (f k) := by
  funext x i j
  apply propext
  rw [Spans.iSup_iff]
  constructor
  · intro h
    obtain ⟨w, hw, hspan⟩ := h
    obtain ⟨k, hk⟩ := Language.mem_iSup.mp hw
    exact ⟨k, w, hk, hspan⟩
  · intro h
    obtain ⟨k, w, hw, hspan⟩ := h
    exact ⟨w, Language.mem_iSup.mpr ⟨k, hw⟩, hspan⟩

theorem wordSpans_letters {S : Set α} :
    wordSpans chars (letters S) x i j ↔ j = i + 1 ∧ ∃ c, (chars x)[i]? = some c ∧ c ∈ S := by
  constructor
  · intro h
    obtain ⟨w, ⟨c, hc, rfl⟩, hj, rest, hrest⟩ := h
    refine ⟨hj, c, ?_, hc⟩
    rw [← Nat.add_zero i, ← List.getElem?_drop, ← hrest]
    rfl
  · intro h
    obtain ⟨hj, c, hget, hc⟩ := h
    refine ⟨[c], ⟨c, hc, rfl⟩, hj, ?_⟩
    rw [List.drop_eq_getElem?_toList_append, hget]
    exact List.prefix_append [c] _

theorem wordSpans_whole : wordSpans chars L x 0 (chars x).length ↔ chars x ∈ L := by
  constructor
  · intro h
    obtain ⟨w, hw, hlen, hpre⟩ := h
    rw [Nat.zero_add] at hlen
    have heq : w = chars x := hpre.eq_of_length hlen.symm
    exact heq ▸ hw
  · intro h
    exact ⟨chars x, h, (Nat.zero_add _).symm, List.prefix_rfl⟩

end Hilti.Lib
