import Mathlib.Data.Nat.Bitwise
import Hilti.Classifiers.Model

/-!
# Rules that match on prefixes

The last byte that is compared gets a mask with one bit less than there are valid ones, so the last
valid bit of a field never counts; and a rule field without valid bits is compared by the byte before
its data.  A rule matches as it should as long as neither makes a difference.
-/

namespace Hilti.Classifiers

set_option autoImplicit false

variable {α : Type}

/-! ## Reads within the data -/

/-! ## What is expected -/

/-- The bits of some bytes, the highest one of each byte first. -/
def bitAt (data : List ℕ) (j : ℕ) : Bool :=
  (data[j / 8]?.getD 0).testBit (7 - j % 8)

def SamePrefix (a b : List ℕ) (n : ℕ) : Prop :=
  ∀ j < n, bitAt a j = bitAt b j

instance (a b : List ℕ) (n : ℕ) : Decidable (SamePrefix a b n) := by
  unfold SamePrefix
  infer_instance

/-- A field of a rule lets a field of a key pass. -/
def FieldMatches (field val : Field) : Prop :=
  val.bits = 0 ∨ field.bits = 0 ∨
    (field.len ≤ val.len ∧ SamePrefix field.data val.data field.bits)

/-- Matching does not read outside of the data, and it succeeds if all fields match. -/
def MatchesPrefixes (c : Classifier α) (r : Rule α) (vals : List Field) : Prop :=
  ∃ b, checkSingleRule c r vals = some b ∧
    (b = true ↔ ∀ p ∈ r.fields.zip vals, FieldMatches p.1 p.2)

/-- A field whose valid bits are some of its data. -/
structure Field.Valid (f : Field) : Prop where
  length : f.data.length = f.len
  bits : f.bits ≤ 8 * f.len
  bits_lt : f.bits < 2 ^ 64
  byte : ∀ x ∈ f.data, x < 256

/-! ## Bits -/

theorem mask_testBit (n j : ℕ) (hn : n ≤ 8) :
    ((0xff <<< (8 - n)) % 2 ^ 8).testBit j = decide (8 - n ≤ j ∧ j < 8) := by
  rw [Nat.testBit_mod_two_pow, Nat.testBit_shiftLeft, show 0xff = 2 ^ 8 - 1 from rfl,
    Nat.testBit_two_pow_sub_one, Bool.eq_iff_iff]
  simp only [Bool.and_eq_true, decide_eq_true_eq]
  omega

theorem and_mask_eq_iff (x y n : ℕ) (hn : n ≤ 8) :
    x &&& ((0xff <<< (8 - n)) % 2 ^ 8) = y &&& ((0xff <<< (8 - n)) % 2 ^ 8) ↔
      ∀ j < n, x.testBit (7 - j) = y.testBit (7 - j) := by
  constructor
  · intro h j hj
    have hbit := congrArg (Nat.testBit · (7 - j)) h
    simp only [Nat.testBit_and, mask_testBit n _ hn] at hbit
    have hmask : 8 - n ≤ 7 - j ∧ 7 - j < 8 := by omega
    simpa only [hmask, and_self, decide_true, Bool.and_true] using hbit
  · intro h
    apply Nat.eq_of_testBit_eq
    intro j
    rw [Nat.testBit_and, Nat.testBit_and, mask_testBit n _ hn]
    by_cases hj : 8 - n ≤ j ∧ j < 8
    · have hbit := h (7 - j) (by omega)
      rw [show 7 - (7 - j) = j by omega] at hbit
      rw [hbit]
    · rw [decide_eq_false hj, Bool.and_false, Bool.and_false]

theorem byte_eq_iff {x y : ℕ} (hx : x < 256) (hy : y < 256) :
    x = y ↔ ∀ j < 8, x.testBit (7 - j) = y.testBit (7 - j) := by
  constructor
  · rintro rfl _ _
    rfl
  · intro h
    apply Nat.eq_of_testBit_eq
    intro j
    by_cases hj : j < 8
    · have hbit := h (7 - j) (by omega)
      rwa [show 7 - (7 - j) = j by omega] at hbit
    · have hle : 2 ^ 8 ≤ 2 ^ j := Nat.pow_le_pow_right (by omega) (by omega)
      rw [Nat.testBit_lt_two_pow (Nat.lt_of_lt_of_le hx hle),
        Nat.testBit_lt_two_pow (Nat.lt_of_lt_of_le hy hle)]

theorem bitAt_add (data : List ℕ) (n : ℕ) {j : ℕ} (hj : j < 8) :
    bitAt data (8 * n + j) = (data[n]?.getD 0).testBit (7 - j) := by
  rw [bitAt, show (8 * n + j) / 8 = n by omega, show (8 * n + j) % 8 = j by omega]

theorem samePrefix_add (a b : List ℕ) (n : ℕ) {m : ℕ} (hm : m ≤ 8) :
    SamePrefix a b (8 * n + m) ↔ SamePrefix a b (8 * n) ∧
      ∀ j < m, (a[n]?.getD 0).testBit (7 - j) = (b[n]?.getD 0).testBit (7 - j) := by
  constructor
  · intro h
    refine ⟨fun j hj => h j (by omega), fun j hj => ?_⟩
    have hbit := h (8 * n + j) (by omega)
    rwa [bitAt_add a n (by omega), bitAt_add b n (by omega)] at hbit
  · rintro ⟨hwhole, hpart⟩ j hj
    by_cases hlt : j < 8 * n
    · exact hwhole j hlt
    · obtain ⟨k, rfl⟩ := Nat.exists_eq_add_of_le (Nat.le_of_not_lt hlt)
      rw [bitAt_add a n (by omega), bitAt_add b n (by omega)]
      exact hpart k (by omega)

theorem take_eq_iff {a b : List ℕ} (ha : ∀ x ∈ a, x < 256) (hb : ∀ x ∈ b, x < 256) {n : ℕ}
    (hna : n ≤ a.length) (hnb : n ≤ b.length) :
    a.take n = b.take n ↔ SamePrefix a b (8 * n) := by
  induction n with
  | zero => simp [SamePrefix]
  | succ n ih =>
    have hla : a[n]? = some a[n] := List.getElem?_eq_getElem hna
    have hlb : b[n]? = some b[n] := List.getElem?_eq_getElem hnb
    rw [Nat.mul_succ, samePrefix_add a b n (le_refl 8), ← ih (by omega) (by omega),
      List.take_add_one, List.take_add_one, hla, hlb, Option.toList_some, Option.toList_some,
      Option.getD_some, Option.getD_some,
      ← byte_eq_iff (ha _ (List.getElem_mem hna)) (hb _ (List.getElem_mem hnb))]
    constructor
    · intro h
      obtain ⟨htake, hlast⟩ := List.append_inj' h rfl
      exact ⟨htake, List.singleton_inj.mp hlast⟩
    · rintro ⟨htake, hlast⟩
      rw [htake, hlast]

/-! ## Comparing a field -/

/-- The variable `bytes`. -/
def numBytes (field : Field) : ℤ :=
  toInt ((field.bits + 8 - 1) % 2 ^ 64 / 8 : ℕ)

/-- The number of bits that are compared: those of the bytes before the last one, and all but the
last valid one of that. -/
def comparedBits (field : Field) : ℕ :=
  if 0 < numBytes field then 8 * (numBytes field - 1).toNat + (field.bits + 7) % 8 else 0

theorem numBytes_eq {field : Field} (hbits : field.bits < 2 ^ 64) (h : 0 < numBytes field) :
    ∃ k : ℕ, (((field.bits + 7) / 8 : ℕ) : ℤ) = numBytes field + 2 ^ 32 * k := by
  unfold numBytes toInt at h ⊢
  rw [Int.bmod_def] at h ⊢
  refine ⟨(field.bits + 7) / 8 / 2 ^ 32, ?_⟩
  split_ifs at h ⊢ with hlt
  · omega
  · omega

theorem comparedBits_le {field : Field} (hbits : field.bits < 2 ^ 64) :
    comparedBits field ≤ field.bits := by
  rw [comparedBits]
  split_ifs with hpos
  · obtain ⟨k, hk⟩ := numBytes_eq hbits hpos
    omega
  · exact Nat.zero_le _

theorem dataAt_natCast {f : Field} {n : ℕ} (h : n < f.data.length) :
    f.dataAt n = some f.data[n] := by
  rw [Field.dataAt, if_pos (Int.natCast_nonneg n), Int.toNat_natCast, List.getElem?_eq_getElem h]

theorem masked_eq {field val : Field} (hf : ∀ x ∈ field.data, x < 256)
    (hv : ∀ x ∈ val.data, x < 256) {n m : ℕ} (hnf : n < field.data.length)
    (hnv : n < val.data.length) (hm : m ≤ 8) :
    ((some (decide (field.data.take n = val.data.take n))).bind fun same =>
      if ! same then some false else
        (val.dataAt n).bind fun v => (field.dataAt n).bind fun f =>
          some (decide (v &&& ((0xff <<< (8 - m)) % 2 ^ 8) = f &&& ((0xff <<< (8 - m)) % 2 ^ 8)))) =
      some (decide (SamePrefix field.data val.data (8 * n + m))) := by
  have htake := take_eq_iff hf hv (Nat.le_of_lt hnf) (Nat.le_of_lt hnv)
  have hlead := samePrefix_add field.data val.data n hm
  rw [List.getElem?_eq_getElem hnf, List.getElem?_eq_getElem hnv, Option.getD_some,
    Option.getD_some, ← and_mask_eq_iff _ _ m hm, ← htake] at hlead
  rw [Option.bind_some, dataAt_natCast hnf, dataAt_natCast hnv, Option.bind_some, Option.bind_some]
  by_cases hsame : field.data.take n = val.data.take n
  · rw [decide_eq_true hsame, Bool.not_true, if_neg Bool.false_ne_true]
    simp only [hlead, hsame, true_and, eq_comm]
  · rw [decide_eq_false hsame, Bool.not_false, if_pos rfl]
    simp only [hlead, hsame, false_and, decide_false]

theorem checkField_eq {field val : Field} (hf : field.Valid) (hv : val.Valid) :
    checkField field val =
      if val.bits = 0 then some true
      else if val.len < field.len then some false
      else if numBytes field ≤ 0 then none
      else some (decide (SamePrefix field.data val.data (comparedBits field))) := by
  unfold checkField
  by_cases hval : val.bits = 0
  · rw [if_pos hval, if_pos hval]
  · rw [if_neg hval, if_neg hval]
    by_cases hlen : val.len < field.len
    · rw [if_pos hlen, if_pos hlen]
    · rw [if_neg hlen, if_neg hlen]
      dsimp only
      rw [show toInt ((field.bits + 8 - 1) % 2 ^ 64 / 8 : ℕ) = numBytes field from rfl]
      by_cases hpos : numBytes field ≤ 0
      · rw [if_neg (by omega), if_pos hpos]
        have hout : val.dataAt (numBytes field - 1) = none := by
          rw [Field.dataAt, if_neg (by omega)]
        simp only [Option.bind_eq_bind, Option.bind_some, Bool.not_true, Bool.false_eq_true,
          if_false, hout, Option.bind_none]
      · rw [if_neg hpos]
        obtain ⟨k, hk⟩ := numBytes_eq hf.bits_lt (by omega)
        obtain ⟨n, hn⟩ : ∃ n : ℕ, numBytes field = n + 1 := ⟨(numBytes field - 1).toNat, by omega⟩
        have hbits : (((field.bits : ℤ) - (numBytes field - 1) * 8 - 1) % 2 ^ 8).toNat =
            (field.bits + 7) % 8 := by omega
        have hnf : n < field.data.length := by
          have := hf.length
          have := hf.bits
          omega
        have hnv : n < val.data.length := by
          have := hf.length
          have := hv.length
          omega
        have hsub : numBytes field - 1 = n := by rw [hn, Int.add_sub_cancel]
        have hcompared : comparedBits field = 8 * n + (field.bits + 7) % 8 := by
          rw [comparedBits, if_pos (by omega), hsub, Int.toNat_natCast]
        have hmask := masked_eq hf.byte hv.byte hnf hnv (Nat.le_of_lt (Nat.mod_lt (field.bits + 7)
          (by omega : 0 < 8)))
        rw [hbits, hsub, hcompared, ← hmask, Int.toNat_natCast]
        by_cases hone : numBytes field > 1
        · rw [if_pos hone, sameBytes, if_pos ⟨Nat.le_of_lt hnf, Nat.le_of_lt hnv⟩]
          rfl
        · have hzero : n = 0 := by omega
          rw [if_neg hone, hzero, List.take_zero, List.take_zero, decide_eq_true rfl]
          rfl

/-! ## Comparing a rule -/

/-- A field of a key passes the comparison. -/
def Agrees (field val : Field) : Prop :=
  val.bits = 0 ∨ (field.len ≤ val.len ∧ SamePrefix field.data val.data (comparedBits field))

instance (field val : Field) : Decidable (Agrees field val) := by
  unfold Agrees
  infer_instance

/-- The comparison reads before the data. -/
def Blind (field val : Field) : Prop :=
  val.bits ≠ 0 ∧ field.len ≤ val.len ∧ numBytes field ≤ 0

/-- No comparison reads before the data, unless a field before has not passed; fields that agree up
to the bit that is not compared agree in it; and a field that is too short for one without valid bits
comes with one that does not match. -/
structure Sound (ps : List (Field × Field)) : Prop where
  reached : ∀ before p after, ps = before ++ p :: after → Blind p.1 p.2 →
    ∃ q ∈ before, ¬ Agrees q.1 q.2
  last : (∀ p ∈ ps, Agrees p.1 p.2) → ∀ p ∈ ps, p.2.bits ≠ 0 →
    SamePrefix p.1.data p.2.data p.1.bits
  short : ∀ p ∈ ps, p.2.bits ≠ 0 → p.1.bits = 0 → p.2.len < p.1.len →
    ∃ q ∈ ps, ¬ FieldMatches q.1 q.2

theorem checkField_blind {field val : Field} (hf : field.Valid) (hv : val.Valid)
    (h : Blind field val) : checkField field val = none := by
  rw [checkField_eq hf hv, if_neg h.1, if_neg (Nat.not_lt.mpr h.2.1), if_pos h.2.2]

theorem checkField_agrees {field val : Field} (hf : field.Valid) (hv : val.Valid)
    (h : ¬ Blind field val) : checkField field val = some (decide (Agrees field val)) := by
  rw [checkField_eq hf hv]
  unfold Agrees
  by_cases hval : val.bits = 0
  · simp only [hval, if_true, true_or, decide_true]
  · by_cases hlen : val.len < field.len
    · have hle : ¬ field.len ≤ val.len := Nat.not_le.mpr hlen
      simp only [if_pos hlen, hval, hle, if_false, false_and, or_self, decide_false]
    · have hpos : ¬ numBytes field ≤ 0 := fun hle => h ⟨hval, Nat.not_lt.mp hlen, hle⟩
      have hle : field.len ≤ val.len := Nat.not_lt.mp hlen
      simp only [if_neg hlen, if_neg hpos, hval, hle, if_false, true_and, false_or]

def checkPairs : List (Field × Field) → Option Bool
  | [] => some true
  | p :: ps => (checkField p.1 p.2).bind fun m => if m then checkPairs ps else some false

theorem checkLoop_eq {r : Rule α} {vals : List Field} {n i : ℕ} (hr : r.fields.length = i + n)
    (hv : vals.length = i + n) :
    checkLoop r vals n i = checkPairs ((r.fields.zip vals).drop i) := by
  induction n generalizing i with
  | zero =>
    rw [checkLoop, List.drop_eq_nil_of_le (by rw [List.length_zip]; omega), checkPairs]
  | succ n ih =>
    have hi : i < r.fields.length := by omega
    have hi' : i < vals.length := by omega
    have hzip : i < (r.fields.zip vals).length := by
      rw [List.length_zip]
      omega
    rw [checkLoop, List.drop_eq_getElem_cons hzip, List.getElem_zip, checkPairs,
      List.getElem?_eq_getElem hi, List.getElem?_eq_getElem hi', Option.bind_eq_bind,
      Option.bind_some, Option.bind_eq_bind, Option.bind_some, ih (by omega) (by omega)]

section

variable {ps : List (Field × Field)} (hvalid : ∀ p ∈ ps, p.1.Valid ∧ p.2.Valid)

include hvalid

theorem checkPairs_some (h : ∀ before p after, ps = before ++ p :: after → Blind p.1 p.2 →
    ∃ q ∈ before, ¬ Agrees q.1 q.2) :
    ∃ b, checkPairs ps = some b ∧ (b = true ↔ ∀ p ∈ ps, Agrees p.1 p.2) := by
  induction ps with
  | nil => exact ⟨true, rfl, by simp⟩
  | cons p ps ih =>
    have hnot : ¬ Blind p.1 p.2 := by
      intro hblind
      obtain ⟨q, hq, _⟩ := h [] p ps rfl hblind
      cases hq
    have hp := hvalid p List.mem_cons_self
    rw [checkPairs, checkField_agrees hp.1 hp.2 hnot, Option.bind_some]
    by_cases hagrees : Agrees p.1 p.2
    · obtain ⟨b, hb, hiff⟩ := ih (fun q hq => hvalid q (List.mem_cons_of_mem p hq)) (by
        rintro before q after rfl hblind
        obtain ⟨q', hq', hnot'⟩ := h (p :: before) q after rfl hblind
        rcases List.mem_cons.mp hq' with rfl | hq'
        · exact absurd hagrees hnot'
        · exact ⟨q', hq', hnot'⟩)
      rw [decide_eq_true hagrees, if_pos rfl]
      refine ⟨b, hb, hiff.trans ?_⟩
      simp only [List.forall_mem_cons, hagrees, true_and]
    · rw [decide_eq_false hagrees, if_neg Bool.false_ne_true]
      refine ⟨false, rfl, ?_⟩
      simp only [List.forall_mem_cons, hagrees, false_and, Bool.false_eq_true]

theorem reached_of_checkPairs {b : Bool} (h : checkPairs ps = some b) :
    ∀ before p after, ps = before ++ p :: after → Blind p.1 p.2 →
      ∃ q ∈ before, ¬ Agrees q.1 q.2 := by
  induction ps with
  | nil =>
    intro before p after heq
    simp at heq
  | cons p ps ih =>
    have hp := hvalid p List.mem_cons_self
    rw [checkPairs] at h
    obtain ⟨m, hm, h⟩ := Option.bind_eq_some_iff.mp h
    have hnot : ¬ Blind p.1 p.2 := by
      intro hblind
      rw [checkField_blind hp.1 hp.2 hblind] at hm
      cases hm
    rw [checkField_agrees hp.1 hp.2 hnot] at hm
    intro before q after heq hblind
    cases before with
    | nil =>
      obtain ⟨rfl, rfl⟩ := List.cons.inj heq
      exact absurd hblind hnot
    | cons p' before =>
      obtain ⟨rfl, rfl⟩ := List.cons.inj heq
      by_cases hagrees : Agrees p.1 p.2
      · rw [decide_eq_true hagrees] at hm
        cases hm
        rw [if_pos rfl] at h
        obtain ⟨q', hq', hnot'⟩ := ih (fun q hq => hvalid q (List.mem_cons_of_mem p hq)) h before q
          after rfl hblind
        exact ⟨q', List.mem_cons_of_mem p hq', hnot'⟩
      · exact ⟨p, List.mem_cons_self, hagrees⟩

theorem agrees_iff_matches :
    ((∀ p ∈ ps, Agrees p.1 p.2) ↔ ∀ p ∈ ps, FieldMatches p.1 p.2) ↔
      ((∀ p ∈ ps, Agrees p.1 p.2) → ∀ p ∈ ps, p.2.bits ≠ 0 →
        SamePrefix p.1.data p.2.data p.1.bits) ∧
      ∀ p ∈ ps, p.2.bits ≠ 0 → p.1.bits = 0 → p.2.len < p.1.len →
        ∃ q ∈ ps, ¬ FieldMatches q.1 q.2 := by
  constructor
  · intro h
    refine ⟨fun hagrees p hp hbits => ?_, fun p hp hbits hzero hlen => ?_⟩
    · rcases h.mp hagrees p hp with hval | hfield | hlead
      · exact absurd hval hbits
      · rw [hfield]
        exact fun j hj => absurd hj (Nat.not_lt_zero j)
      · exact hlead.2
    · by_contra hall
      push Not at hall
      rcases h.mpr hall p hp with hval | hagrees
      · exact hbits hval
      · exact absurd hlen (Nat.not_lt.mpr hagrees.1)
  · rintro ⟨hlast, hshort⟩
    constructor
    · intro hagrees p hp
      by_cases hbits : p.2.bits = 0
      · exact .inl hbits
      · rcases hagrees p hp with hval | hpass
        · exact .inl hval
        · exact .inr (.inr ⟨hpass.1, hlast hagrees p hp hbits⟩)
    · intro hmatches p hp
      by_cases hbits : p.2.bits = 0
      · exact .inl hbits
      · have hlen : p.1.len ≤ p.2.len := by
          rcases hmatches p hp with hval | hfield | hlead
          · exact absurd hval hbits
          · by_contra hlt
            obtain ⟨q, hq, hnot⟩ := hshort p hp hbits hfield (Nat.not_le.mp hlt)
            exact hnot (hmatches q hq)
          · exact hlead.1
        have hle := comparedBits_le (hvalid p hp).1.bits_lt
        refine .inr ⟨hlen, fun j hj => ?_⟩
        rcases hmatches p hp with hval | hfield | hlead
        · exact absurd hval hbits
        · rw [hfield] at hle
          omega
        · exact hlead.2 j (Nat.lt_of_lt_of_le hj hle)

end

/-- A rule is matched as it should, and without reading outside of the data, if and only if what is
not compared makes no difference. -/
theorem matchesPrefixes_iff (c : Classifier α) (r : Rule α) (vals : List Field)
    (hr : r.fields.length = c.numFields) (hv : vals.length = c.numFields)
    (hfields : ∀ f ∈ r.fields, f.Valid) (hvals : ∀ f ∈ vals, f.Valid) :
    MatchesPrefixes c r vals ↔ Sound (r.fields.zip vals) := by
  have hvalid : ∀ p ∈ r.fields.zip vals, p.1.Valid ∧ p.2.Valid := fun p hp =>
    ⟨hfields _ (List.of_mem_zip hp).1, hvals _ (List.of_mem_zip hp).2⟩
  have hcheck : checkSingleRule c r vals = checkPairs (r.fields.zip vals) := by
    rw [checkSingleRule, checkLoop_eq (by omega) (by omega), List.drop_zero]
  have hiff := agrees_iff_matches hvalid
  constructor
  · rintro ⟨b, hb, hmatches⟩
    rw [hcheck] at hb
    have hreached := reached_of_checkPairs hvalid hb
    obtain ⟨b', hb', hagrees⟩ := checkPairs_some hvalid hreached
    obtain rfl : b = b' := Option.some.inj (hb.symm.trans hb')
    obtain ⟨hlast, hshort⟩ := hiff.mp (hagrees.symm.trans hmatches)
    exact ⟨hreached, hlast, hshort⟩
  · rintro ⟨hreached, hlast, hshort⟩
    obtain ⟨b, hb, hagrees⟩ := checkPairs_some hvalid hreached
    exact ⟨b, hcheck.trans hb, hagrees.trans (hiff.mpr ⟨hlast, hshort⟩)⟩

/-- A rule and a key with one field, of one byte. -/
theorem matchesPrefixes_iff_byte :
    MatchesPrefixes (classifierNew ℕ 1) ⟨0, [⟨1, 8, [1]⟩], 0⟩ [⟨1, 8, [1]⟩] ↔
      Sound [(⟨1, 8, [1]⟩, ⟨1, 8, [1]⟩)] := by
  have hvalid : ∀ f ∈ [(⟨1, 8, [1]⟩ : Field)], f.Valid := by
    intro f hf
    obtain rfl := List.mem_singleton.mp hf
    exact ⟨rfl, le_refl 8, by decide, by decide⟩
  exact matchesPrefixes_iff (classifierNew ℕ 1) ⟨0, [⟨1, 8, [1]⟩], 0⟩ [⟨1, 8, [1]⟩] rfl rfl hvalid
    hvalid

/-- Bytes that differ in their last bit match. -/
theorem last_bit_not_matchesPrefixes :
    ¬ MatchesPrefixes (classifierNew ℕ 1) ⟨0, [⟨1, 8, [1]⟩], 0⟩ [⟨1, 8, [0]⟩] := by
  rintro ⟨b, hb, hiff⟩
  have hcheck : checkSingleRule (classifierNew ℕ 1) ⟨0, [⟨1, 8, [1]⟩], 0⟩ [⟨1, 8, [0]⟩] =
      some true := by decide
  obtain rfl : b = true := Option.some.inj (hb.symm.trans hcheck)
  rcases hiff.mp rfl (⟨1, 8, [1]⟩, ⟨1, 8, [0]⟩) List.mem_cons_self with hval | hfield | hlead
  · cases hval
  · cases hfield
  · have hbit := hlead.2 7 (by decide)
    revert hbit
    decide

end Hilti.Classifiers
