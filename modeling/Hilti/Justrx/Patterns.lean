import Hilti.Justrx.Iterate
import Hilti.Lib.Words

/-!
# The languages of patterns

What a pattern without assertions stands for, over any set of characters, and when it is one that
`nfa.c` and `ccl.c` do justice to: its ranges are not written backwards and leave out the last
character, which no range can end behind, what is iterated bears the bounds, and where classes are
negated no characters of a class are given twice.
-/

namespace Hilti.Justrx

open Hilti.Lib

set_option autoImplicit false

/-! ## Characters -/

/-- The characters that the ranges of `.` have. -/
def below : Set ℕ := {c | c < charMax}

/-- The characters of some ranges, the last ones included. -/
def charsIn (ranges : List (UInt32 × UInt32)) : Set ℕ :=
  {c | ∃ r ∈ ranges, r.1.toNat ≤ c ∧ c ≤ r.2.toNat}

/-- The characters of the standard classes; `any` has all of the given ones. -/
def StdCcl.chars (S : Set ℕ) : StdCcl → Set ℕ
  | .epsilon => ∅
  | .any => S
  | .lower => charsIn [(97, 122)]
  | .upper => charsIn [(65, 90)]
  | .word => charsIn [(97, 122), (65, 90), (48, 57), (95, 95)]
  | .digit => charsIn [(48, 57)]
  | .blank => charsIn [(32, 32), (9, 9)]

def CclElem.chars : CclElem → Set ℕ
  | .range first last => charsIn [(first, last)]
  | .dynccl std => std.chars Set.univ
  | .codepoint cp => charsIn [(cp, cp)]

def elemsChars (elems : List CclElem) : Set ℕ :=
  {c | ∃ elem ∈ elems, c ∈ elem.chars}

theorem elemsChars_singleton (elem : CclElem) : elemsChars [elem] = elem.chars := by
  ext c
  simp [elemsChars]

theorem elemsChars_cons (elem : CclElem) (elems : List CclElem) :
    elemsChars (elem :: elems) = elem.chars ∪ elemsChars elems := by
  ext c
  simp [elemsChars]

/-! ## Languages -/

namespace Pattern

/-- The language over the characters `S`, which `.` and negated classes range over. -/
noncomputable def language (S : Set ℕ) : Pattern → Language ℕ
  | .empty => 1
  | .codepoint cp => letters {cp.toNat}
  | .any => letters S
  | .ccl elems => letters (elemsChars elems)
  | .negatedCcl elems => letters (S \ elemsChars elems)
  | .group pattern => pattern.language S
  | .iterate pattern min max =>
    ⨆ k : ℕ, ⨆ (_ : min ≤ k ∧ (max = -1 ∨ (k : ℤ) ≤ max)), pattern.language S ^ k
  | .concat pattern1 pattern2 => pattern1.language S * pattern2.language S
  | .asserting pattern1 _ pattern2 => pattern1.language S * pattern2.language S
  | .alternative pattern1 pattern2 => pattern1.language S + pattern2.language S

def AssertionFree : Pattern → Prop
  | .group pattern => pattern.AssertionFree
  | .iterate pattern _ _ => pattern.AssertionFree
  | .concat pattern1 pattern2 => pattern1.AssertionFree ∧ pattern2.AssertionFree
  | .asserting _ _ _ => False
  | .alternative pattern1 pattern2 => pattern1.AssertionFree ∧ pattern2.AssertionFree
  | _ => True

/-- Whether there is a negated class in the pattern. -/
def negates : Pattern → Bool
  | .negatedCcl _ => true
  | .group pattern => pattern.negates
  | .iterate pattern _ _ => pattern.negates
  | .concat pattern1 pattern2 => pattern1.negates || pattern2.negates
  | .asserting pattern1 _ pattern2 => pattern1.negates || pattern2.negates
  | .alternative pattern1 pattern2 => pattern1.negates || pattern2.negates
  | _ => false

end Pattern

/-! ## Regular patterns -/

/-- The range does not end before it begins, and the character behind it is still one. -/
def CclElem.Regular : CclElem → Prop
  | .range first last => first.toNat ≤ last.toNat ∧ last.toNat < charMax
  | .dynccl std => std ≠ .epsilon ∧ std ≠ .any
  | .codepoint cp => cp.toNat < charMax

/-- What stands between brackets; if classes are to be negated, no character is given twice. -/
structure RegularElems (neg : Bool) (elems : List CclElem) : Prop where
  nonempty : elems ≠ []
  regular : ∀ elem ∈ elems, elem.Regular
  once : neg = true → elems.Pairwise fun elem elem' => Disjoint elem.chars elem'.chars

def Pattern.Regular (neg : Bool) : Pattern → Prop
  | .empty => True
  | .codepoint cp => cp.toNat < charMax
  | .any => True
  | .ccl elems => RegularElems neg elems
  | .negatedCcl elems => neg = true ∧ RegularElems neg elems
  | .group pattern => pattern.Regular neg
  | .iterate pattern min max => pattern.Regular neg ∧ 0 ≤ min ∧ (max = -1 ∨ min ≤ max) ∧
    IterationExact (wordSpans Input.chars (pattern.language below)) min max
  | .concat pattern1 pattern2 => pattern1.Regular neg ∧ pattern2.Regular neg
  | .asserting pattern1 _ pattern2 => pattern1.Regular neg ∧ pattern2.Regular neg
  | .alternative pattern1 pattern2 => pattern1.Regular neg ∧ pattern2.Regular neg

section

variable {S T : Set ℕ}

theorem letters_mono (h : S ⊆ T) : letters S ≤ letters T :=
  Set.image_mono h

theorem Pattern.language_mono (h : S ⊆ T) (pattern : Pattern) :
    pattern.language S ≤ pattern.language T := by
  induction pattern with
  | empty => exact le_rfl
  | codepoint cp => exact le_rfl
  | any => exact letters_mono h
  | ccl elems => exact le_rfl
  | negatedCcl elems => exact letters_mono (Set.sdiff_subset_sdiff_left h)
  | group pattern ih => exact ih
  | iterate pattern min max ih =>
    apply iSup₂_mono
    intro k _
    exact pow_le_pow_left' ih k
  | concat pattern1 pattern2 ih1 ih2 => exact mul_le_mul' ih1 ih2
  | asserting pattern1 assertions pattern2 ih1 ih2 => exact mul_le_mul' ih1 ih2
  | alternative pattern1 pattern2 ih1 ih2 => exact add_le_add ih1 ih2

theorem wordSpans_iterate (pattern : Pattern) (min max : ℤ) :
    wordSpans Input.chars ((Pattern.iterate pattern min max).language S) =
      repetitions (wordSpans Input.chars (pattern.language S)) min max := by
  rw [Pattern.language, repetitions, wordSpans_iSup]
  apply iSup_congr
  intro k
  rw [wordSpans_iSup]
  apply iSup_congr
  intro _
  exact wordSpans_pow k

end

end Hilti.Justrx
