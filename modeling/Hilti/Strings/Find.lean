import Hilti.Strings.Utf8

/-!
# Searching in strings

`hlt_string_find` compares the pattern at each character, with `memcmp` of the whole length of
the pattern, and goes on by what `utf8proc_iterate` returns without a check for an error.  So it
finds what it looks for where it meets it before a noncharacter and before the end of the string
is near; elsewhere it reads behind the end, before the beginning, or does not end.
-/

namespace Hilti.Strings

set_option autoImplicit false

/-! ## What is expected -/

/-- The pattern `ps` occurs in `cs` at the character `k`, and not before. -/
def FirstAt (cs ps : List Char) (k : ℕ) : Prop :=
  ps <+: cs.drop k ∧ ∀ j < k, ¬ ps <+: cs.drop j

def Absent (cs ps : List Char) : Prop :=
  ∀ k, ¬ ps <+: cs.drop k

/-- The result of a search for `ps` in `cs`. -/
def Found (cs ps : List Char) (x : ℤ) : Prop :=
  (∃ k : ℕ, FirstAt cs ps k ∧ x = k) ∨ (Absent cs ps ∧ x = -1)

/-- The string is some text in UTF-8. -/
def ValidUtf8 (s : HltString) : Prop :=
  ∃ cs, bytesOf s = encode cs

/-- The search ends without reading outside of the two strings; with the result of the search
where both are valid UTF-8, and with an exception where one is not. -/
def FindRight (s pattern : HltString) : Prop :=
  ∃ fuel r, stringFind fuel s pattern = some r ∧
    (∀ cs ps, bytesOf s = encode cs → bytesOf pattern = encode ps →
      ∃ x, r = .ok x ∧ Found cs ps x) ∧
    (¬ (ValidUtf8 s ∧ ValidUtf8 pattern) → r = .error .valueError)

/-! ## When this is so -/

/-- The first occurrence is met before a noncharacter. -/
def Meets (cs ps : List Char) (k : ℕ) : Prop :=
  FirstAt cs ps k ∧ ∀ c ∈ cs.take k, ¬ Noncharacter c

/-- There is no occurrence and no noncharacter, and the last character has not less bytes than the
pattern. -/
def Passes (cs ps : List Char) : Prop :=
  Absent cs ps ∧ (∀ c ∈ cs, ¬ Noncharacter c) ∧
    ∀ c ∈ cs.getLast?, (encode ps).length ≤ c.utf8Size

/-- Texts with which the search is right.  The lengths in bytes are converted to `int`, where they
can become zero; so can the number of a character overflow. -/
def Searchable (cs ps : List Char) : Prop :=
  (toInt (encode ps).length = 0 → ps <+: cs) ∧
    (toInt (encode ps).length ≠ 0 → toInt (encode cs).length = 0 → Absent cs ps) ∧
    (toInt (encode ps).length ≠ 0 → toInt (encode cs).length ≠ 0 →
      (∃ k < 2 ^ 31, Meets cs ps k) ∨ (Passes cs ps ∧ cs.length < 2 ^ 31))

/-! ## Steps of the loop -/

section

variable (q r ps : List Char) (c : Char)

theorem sameAt_boundary : sameAt (encode (q ++ r)) (encode ps) (encode q).length
      (encode ps).length =
    if (encode ps).length ≤ (encode r).length then some (decide (ps <+: r)) else none := by
  have hlen : (encode (q ++ r)).length = (encode q).length + (encode r).length := by
    rw [encode_append, List.length_append]
  have hdrop : (encode (q ++ r)).drop (encode q).length = encode r := by
    rw [encode_append, List.drop_left]
  have hsame : ((encode r).take (encode ps).length = (encode ps).take (encode ps).length) ↔
      ps <+: r := by
    rw [List.take_length, ← encode_prefix_iff, List.prefix_iff_eq_take]
    exact eq_comm
  rw [sameAt, Int.toNat_natCast, hdrop, hlen]
  by_cases h : (encode ps).length ≤ (encode r).length
  · rw [if_pos ⟨by omega, by omega, le_refl _⟩, if_pos h]
    simp only [hsame]
  · rw [if_neg (fun h' => h (by omega)), if_neg h]

noncomputable def advance : ℤ :=
  open Classical in if Noncharacter c then errorInvalidUtf8 else c.utf8Size

theorem findLoop_step (fuel : ℕ) (pos : ℤ) :
    findLoop (encode (q ++ c :: r)) (encode ps) (fuel + 1) (encode q).length pos =
      if (encode ps).length ≤ (encode (c :: r)).length then
        if ps <+: c :: r then some (.ok pos)
        else if pos + 1 < 2 ^ 31 then
          findLoop (encode (q ++ c :: r)) (encode ps) fuel ((encode q).length + advance c)
            (pos + 1)
        else none
      else none := by
  have hlen : (encode (q ++ c :: r)).length =
      (encode q).length + (c.utf8Size + (encode r).length) := by
    rw [encode_append, List.length_append, encode_cons, List.length_append,
      String.length_utf8EncodeChar]
  have hpos := c.utf8Size_pos
  have hdrop : (encode (q ++ c :: r)).drop (encode q).length =
      String.utf8EncodeChar c ++ encode r := by
    rw [encode_append, List.drop_left, encode_cons]
  have hiter : utf8procIterate (String.utf8EncodeChar c ++ encode r)
      ((encode (q ++ c :: r)).length - (encode q).length) = _ :=
    iterate_char c (encode r) (.inr (by omega))
  rw [findLoop, if_pos (by omega), sameAt_boundary, Int.toNat_natCast, hdrop, hiter]
  by_cases hfits : (encode ps).length ≤ (encode (c :: r)).length
  · rw [if_pos hfits, if_pos hfits]
    by_cases hpre : ps <+: c :: r
    · simp [hpre]
    · by_cases hnon : Noncharacter c
      · simp [hpre, advance, hnon]
      · simp [hpre, advance, hnon]
  · rw [if_neg hfits, if_neg hfits]
    rfl

theorem findLoop_end (fuel : ℕ) (pos : ℤ) :
    findLoop (encode q) (encode ps) (fuel + 1) (encode q).length pos = some (.ok (-1)) := by
  rw [findLoop, if_neg (lt_irrefl _)]

end

/-! ## Searches that end -/

theorem firstAt_zero_iff {cs ps : List Char} : FirstAt cs ps 0 ↔ ps <+: cs := by
  simp [FirstAt]

theorem firstAt_succ_iff {c : Char} {r ps : List Char} {k : ℕ} :
    FirstAt (c :: r) ps (k + 1) ↔ ¬ ps <+: c :: r ∧ FirstAt r ps k := by
  constructor
  · rintro ⟨hpre, hnot⟩
    refine ⟨hnot 0 (Nat.succ_pos k), hpre, fun j hj => hnot (j + 1) (Nat.succ_lt_succ hj)⟩
  · rintro ⟨hzero, hpre, hnot⟩
    refine ⟨hpre, fun j hj => ?_⟩
    cases j with
    | zero => exact hzero
    | succ j => exact hnot j (Nat.lt_of_succ_lt_succ hj)

theorem absent_cons_iff {c : Char} {r ps : List Char} :
    Absent (c :: r) ps ↔ ¬ ps <+: c :: r ∧ Absent r ps := by
  constructor
  · intro h
    exact ⟨h 0, fun k => h (k + 1)⟩
  · rintro ⟨hzero, hrest⟩ k
    cases k with
    | zero => exact hzero
    | succ k => exact hrest k

theorem meets_succ_iff {c : Char} {r ps : List Char} {k : ℕ} :
    Meets (c :: r) ps (k + 1) ↔ ¬ ps <+: c :: r ∧ ¬ Noncharacter c ∧ Meets r ps k := by
  rw [Meets, Meets, firstAt_succ_iff, List.take_succ_cons, List.forall_mem_cons]
  tauto

theorem length_encode_le {ps r : List Char} {k : ℕ} (h : ps <+: r.drop k) :
    (encode ps).length ≤ (encode r).length := by
  have hps := ((encode_prefix_iff ps (r.drop k)).mpr h).length_le
  have hr : encode r = encode (r.take k) ++ encode (r.drop k) := by
    rw [← encode_append, List.take_append_drop]
  rw [hr, List.length_append]
  omega

theorem length_encode_snoc (q : List Char) {c : Char} (h : ¬ Noncharacter c) :
    ((encode q).length : ℤ) + advance c = (encode (q ++ [c])).length := by
  rw [advance, if_neg h, encode_append, List.length_append, encode_cons, encode_nil,
    List.append_nil, String.length_utf8EncodeChar]
  omega

theorem passes_cons_iff {c : Char} {r ps : List Char} :
    Passes (c :: r) ps ↔ ¬ ps <+: c :: r ∧ ¬ Noncharacter c ∧ Passes r ps ∧
      (r = [] → (encode ps).length ≤ c.utf8Size) := by
  rw [Passes, Passes, absent_cons_iff, List.forall_mem_cons]
  cases r with
  | nil => simp; tauto
  | cons d r => simp [List.getLast?_cons_cons]; tauto

/-! ## Searches that do not end -/

theorem continuationLoop_true {str : List UInt8} {n i : ℕ}
    (h : continuationLoop str n i = some true) {j : ℕ} (hj : j < n) :
    ∃ b, str[i + j]? = some b ∧ utf8class b = 0 := by
  induction n generalizing i j with
  | zero => omega
  | succ n ih =>
    rw [continuationLoop] at h
    cases hb : str[i]? with
    | none => simp [hb] at h
    | some b =>
      by_cases hclass : b.toNat / 0x40 = 2
      · cases j with
        | zero =>
          refine ⟨b, hb, ?_⟩
          rw [utf8class, if_neg (by omega), if_pos (by omega)]
        | succ j =>
          have hrest : continuationLoop str n (i + 1) = some true := by
            simpa [hb, hclass] using h
          obtain ⟨b', hb', hclass'⟩ := ih hrest (j := j) (by omega)
          exact ⟨b', by rw [← hb']; congr 1; omega, hclass'⟩
      · simp [hb, hclass] at h

theorem boundary_or_continued (q : List Char) {n : ℕ} (hn : n ≤ (encode q).length) :
    (∃ u t, q = u ++ t ∧ n = (encode u).length) ∨
      ∃ b, (encode q)[n]? = some b ∧ utf8class b = 0 := by
  induction q generalizing n with
  | nil =>
    refine .inl ⟨[], [], rfl, ?_⟩
    rw [encode_nil, List.length_nil] at hn ⊢
    omega
  | cons c q ih =>
    obtain ⟨uc, hdec, -⟩ := decodes_char c (encode q)
    rw [encode_cons, List.length_append, String.length_utf8EncodeChar] at hn
    by_cases hlt : n < c.utf8Size
    · cases n with
      | zero => exact .inl ⟨[], c :: q, rfl, rfl⟩
      | succ n =>
        obtain ⟨b, hb, hclass⟩ := continuationLoop_true hdec.continued (j := n) (by omega)
        rw [Nat.add_comm] at hb
        exact .inr ⟨b, hb, hclass⟩
    · obtain ⟨u, t, hq, hu⟩ | ⟨b, hb, hclass⟩ := ih (n := n - c.utf8Size) (by omega)
      · refine .inl ⟨c :: u, t, by rw [hq, List.cons_append], ?_⟩
        rw [encode_cons, List.length_append, String.length_utf8EncodeChar]
        omega
      · refine .inr ⟨b, ?_, hclass⟩
        rw [encode_cons, List.getElem?_append_right (by rw [String.length_utf8EncodeChar]; omega),
          String.length_utf8EncodeChar, hb]

theorem sameAt_continued {s : List UInt8} {ps : List Char} {n : ℕ} {b : UInt8} (hps : ps ≠ [])
    (hb : s[n]? = some b) (hclass : utf8class b = 0) :
    sameAt s (encode ps) n (encode ps).length ≠ some true := by
  intro h
  obtain ⟨d, ps, rfl⟩ := List.exists_cons_of_ne_nil hps
  obtain ⟨uc, hdec, -⟩ := decodes_char d (encode ps)
  obtain ⟨b0, hb0, hclass0⟩ := hdec.first
  have hpos := d.utf8Size_pos
  rw [sameAt, Int.toNat_natCast] at h
  split at h
  · have heq := of_decide_eq_true (Option.some.inj h)
    rw [List.take_length] at heq
    have hfirst : (s.drop n)[0]? = (encode (d :: ps))[0]? := by
      rw [← heq, List.getElem?_take_of_lt]
      rw [encode_cons, List.length_append, String.length_utf8EncodeChar]
      omega
    rw [List.getElem?_drop, Nat.add_zero, hb, encode_cons, hb0] at hfirst
    obtain rfl := Option.some.inj hfirst
    omega
  · cases h

section

variable {q r ps : List Char} {c : Char}

theorem findLoop_stuck (hps : ps ≠ []) (hnon : Noncharacter c)
    (hnot : ∀ j ≤ q.length, ¬ ps <+: (q ++ c :: r).drop j) (fuel : ℕ) (p pos : ℤ)
    (hp : p ≤ (encode q).length) :
    findLoop (encode (q ++ c :: r)) (encode ps) fuel p pos = none := by
  induction fuel generalizing p pos with
  | zero => rfl
  | succ fuel ih =>
    by_cases hneg : p < 0
    · have hsame : sameAt (encode (q ++ c :: r)) (encode ps) p (encode ps).length = none := by
        rw [sameAt, if_neg (fun h => by omega)]
      rw [findLoop, if_pos (by omega), hsame]
      rfl
    · obtain ⟨n, rfl⟩ := Int.eq_ofNat_of_zero_le (not_lt.mp hneg)
      obtain ⟨u, t, rfl, rfl⟩ | ⟨b, hb, hclass⟩ :=
        boundary_or_continued q (n := n) (by omega)
      · -- at a character of `t`, or at the noncharacter
        obtain ⟨d, v, htail, hadvance⟩ : ∃ d v, t ++ c :: r = d :: v ∧
            advance d ≤ (encode t).length := by
          cases t with
          | nil => exact ⟨c, r, rfl, by rw [advance, if_pos hnon]; decide⟩
          | cons d t =>
            refine ⟨d, t ++ c :: r, rfl, ?_⟩
            rw [encode_cons, List.length_append, String.length_utf8EncodeChar, advance]
            split
            · rw [errorInvalidUtf8]; omega
            · omega
        have hpre : ¬ ps <+: d :: v := by
          have h := hnot u.length (by rw [List.length_append]; omega)
          rwa [List.append_assoc, List.drop_left, htail] at h
        have hnext := ih ((encode u).length + advance d) (pos + 1) (by
          rw [encode_append, List.length_append]
          omega)
        rw [List.append_assoc, htail] at hnext ⊢
        rw [findLoop_step, if_neg hpre, hnext]
        simp
      · have hb' : (encode (q ++ c :: r))[n]? = some b := by
          rw [encode_append, List.getElem?_append_left (List.getElem?_eq_some_iff.mp hb).1, hb]
        have hlt := (List.getElem?_eq_some_iff.mp hb').1
        have hfirst : ((encode (q ++ c :: r)).drop n)[0]? = some b := by
          rw [List.getElem?_drop, Nat.add_zero, hb']
        have hiter : utf8procIterate ((encode (q ++ c :: r)).drop n)
            ((encode (q ++ c :: r)).length - n) = some (errorInvalidUtf8, -1) := by
          rw [utf8procIterate, if_neg (by omega), hfirst]
          simp [hclass]
        have hsame := sameAt_continued hps hb' hclass
        have hnext := ih (n + errorInvalidUtf8) (pos + 1) (by rw [errorInvalidUtf8]; omega)
        rw [findLoop, if_pos (by omega), Int.toNat_natCast, hiter]
        cases hs : sameAt (encode (q ++ c :: r)) (encode ps) n (encode ps).length with
        | none => rfl
        | some same =>
          cases same with
          | true => exact absurd hs hsame
          | false => simp [hnext]

end

/-! ## All searches -/

theorem not_meets_nil {ps : List Char} (hps : ps ≠ []) (k : ℕ) : ¬ Meets [] ps k := by
  intro h
  have hpre := h.1.1
  rw [List.drop_nil, List.prefix_nil] at hpre
  exact hps hpre

theorem fits_of_passes {r ps : List Char} (hr : r ≠ []) (h : Passes r ps) :
    (encode ps).length ≤ (encode r).length := by
  have hlast := h.2.2 (r.getLast hr) (List.getLast?_eq_some_getLast hr)
  rw [← List.dropLast_append_getLast hr, encode_append, List.length_append, encode_cons,
    encode_nil, List.append_nil, String.length_utf8EncodeChar]
  omega

theorem findLoop_iff {r ps : List Char} (hps : ps ≠ []) (q : List Char)
    (hq : q.length < 2 ^ 31) (hnot : ∀ j < q.length, ¬ ps <+: (q ++ r).drop j)
    (x : Except Excpt ℤ) :
    (∃ fuel, findLoop (encode (q ++ r)) (encode ps) fuel (encode q).length q.length = some x) ↔
      (∃ k, Meets r ps k ∧ q.length + k < 2 ^ 31 ∧ x = .ok (q.length + k : ℕ)) ∨
        (Passes r ps ∧ q.length + r.length < 2 ^ 31 ∧ x = .ok (-1)) := by
  induction r generalizing q with
  | nil =>
    rw [List.append_nil]
    constructor
    · rintro ⟨fuel, h⟩
      cases fuel with
      | zero => cases h
      | succ fuel =>
        rw [findLoop_end] at h
        refine .inr ⟨⟨fun k hk => ?_, by simp, by simp⟩, hq, (Option.some.inj h).symm⟩
        rw [List.drop_nil, List.prefix_nil] at hk
        exact hps hk
    · rintro (⟨k, hk, -⟩ | ⟨-, -, rfl⟩)
      · exact absurd hk (not_meets_nil hps k)
      · exact ⟨1, findLoop_end q ps 0 _⟩
  | cons c r ih =>
    have hfuel : (∃ fuel, findLoop (encode (q ++ c :: r)) (encode ps) fuel (encode q).length
          q.length = some x) ↔
        ∃ fuel, findLoop (encode (q ++ c :: r)) (encode ps) (fuel + 1) (encode q).length
          q.length = some x := by
      constructor
      · rintro ⟨fuel, h⟩
        cases fuel with
        | zero => cases h
        | succ fuel => exact ⟨fuel, h⟩
      · rintro ⟨fuel, h⟩
        exact ⟨fuel + 1, h⟩
    rw [hfuel]
    simp only [findLoop_step]
    by_cases hfits : (encode ps).length ≤ (encode (c :: r)).length
    · simp only [hfits, if_true]
      by_cases hpre : ps <+: c :: r
      · have hzero : Meets (c :: r) ps 0 := ⟨firstAt_zero_iff.mpr hpre, by simp⟩
        simp only [hpre, if_true]
        constructor
        · rintro ⟨fuel, h⟩
          exact .inl ⟨0, hzero, by omega, (Option.some.inj h).symm⟩
        · rintro (⟨k, hk, -, rfl⟩ | ⟨hpasses, -⟩)
          · cases k with
            | zero => exact ⟨0, rfl⟩
            | succ k => exact absurd hpre (meets_succ_iff.mp hk).1
          · exact absurd hpre (passes_cons_iff.mp hpasses).1
      · simp only [hpre, if_false]
        have hshift : ∀ k, q.length + (k + 1) = q.length + 1 + k := fun k => by omega
        have hsplit : (∃ k, Meets (c :: r) ps k ∧ q.length + k < 2 ^ 31 ∧
              x = .ok (q.length + k : ℕ)) ↔
            ¬ Noncharacter c ∧ ∃ k, Meets r ps k ∧ q.length + 1 + k < 2 ^ 31 ∧
              x = .ok (q.length + 1 + k : ℕ) := by
          constructor
          · rintro ⟨k, hk, hlt, rfl⟩
            cases k with
            | zero => exact absurd (firstAt_zero_iff.mp hk.1) hpre
            | succ k =>
              obtain ⟨-, hnon, hmeets⟩ := meets_succ_iff.mp hk
              rw [hshift k] at hlt ⊢
              exact ⟨hnon, k, hmeets, hlt, rfl⟩
          · rintro ⟨hnon, k, hk, hlt, rfl⟩
            rw [← hshift k] at hlt ⊢
            exact ⟨k + 1, meets_succ_iff.mpr ⟨hpre, hnon, hk⟩, hlt, rfl⟩
        rw [hsplit, passes_cons_iff]
        by_cases hnon : Noncharacter c
        · have hstuck := fun fuel => findLoop_stuck (q := q) (r := r) hps hnon (fun j hj => by
            rcases Nat.lt_or_eq_of_le hj with h | rfl
            · exact hnot j h
            · rwa [List.drop_left]) fuel ((encode q).length + advance c) (q.length + 1) (by
              rw [advance, if_pos hnon, errorInvalidUtf8]
              omega)
          simp [hnon, hstuck]
        · by_cases hlt : (q.length : ℤ) + 1 < 2 ^ 31
          · have hnext := ih (q ++ [c]) (by rw [List.length_append, List.length_singleton]; omega)
              (fun j hj => by
                rw [List.append_assoc]
                rw [List.length_append, List.length_singleton] at hj
                rcases Nat.lt_or_eq_of_le (Nat.le_of_lt_succ hj) with h | rfl
                · exact hnot j h
                · rwa [List.drop_left])
            rw [← length_encode_snoc q hnon, List.length_append, List.length_singleton,
              List.append_assoc, List.singleton_append] at hnext
            have hlast : r = [] → (encode ps).length ≤ c.utf8Size := by
              rintro rfl
              rw [encode_cons, encode_nil, List.append_nil, String.length_utf8EncodeChar] at hfits
              exact hfits
            have hcast : ((q.length + 1 : ℕ) : ℤ) = q.length + 1 := Nat.cast_succ _
            rw [hcast] at hnext
            simp only [hlt, if_true]
            rw [hnext]
            rw [List.length_cons, hshift r.length]
            simp only [hpre, hnon, not_false_eq_true, true_and, and_iff_left hlast]
          · have hfar : ∀ k, ¬ q.length + 1 + k < 2 ^ 31 := fun k => by omega
            rw [List.length_cons, hshift r.length]
            simp only [hlt, if_false, hfar]
            simp
    · simp only [hfits, if_false]
      constructor
      · rintro ⟨fuel, h⟩
        cases h
      · rintro (⟨k, hk, -⟩ | ⟨hpasses, -⟩)
        · exact absurd (length_encode_le hk.1.1) hfits
        · exact absurd (fits_of_passes (List.cons_ne_nil c r) hpasses) hfits

theorem findLoop_ok {s pattern : List UInt8} {fuel : ℕ} {p pos : ℤ} {r : Except Excpt ℤ}
    (h : findLoop s pattern fuel p pos = some r) : ∃ x, r = .ok x := by
  induction fuel generalizing p pos with
  | zero => cases h
  | succ fuel ih =>
    rw [findLoop] at h
    split at h
    · cases hsame : sameAt s pattern p pattern.length with
      | none => simp [hsame] at h
      | some same =>
        cases same with
        | true => exact ⟨pos, by simpa [hsame] using h.symm⟩
        | false =>
          cases hiter : utf8procIterate (s.drop p.toNat) (s.length - p) with
          | none => simp [hsame, hiter] at h
          | some n =>
            simp [hsame, hiter] at h
            exact ih h.2
    · exact ⟨-1, (Option.some.inj h).symm⟩

theorem stringFind_ok {s pattern : HltString} {fuel : ℕ} {r : Except Excpt ℤ}
    (h : stringFind fuel s pattern = some r) : ∃ x, r = .ok x := by
  unfold stringFind at h
  dsimp only at h
  split_ifs at h
  · exact ⟨0, (Option.some.inj h).symm⟩
  · exact ⟨-1, (Option.some.inj h).symm⟩
  · exact ⟨0, (Option.some.inj h).symm⟩
  · exact findLoop_ok h

section

variable {s pattern : HltString} {cs ps : List Char}

theorem stringFind_eq (hs : bytesOf s = encode cs) (hpattern : bytesOf pattern = encode ps)
    (fuel : ℕ) : stringFind fuel s pattern =
      if toInt (encode ps).length = 0 then some (.ok 0)
      else if toInt (encode cs).length = 0 then some (.ok (-1))
      else findLoop (encode cs) (encode ps) fuel 0 0 := by
  unfold stringFind
  rw [hs, hpattern]
  by_cases hps : toInt (encode ps).length = 0 <;> by_cases hcs : toInt (encode cs).length = 0
  · simp only [hps, hcs, and_self, if_true]
  · simp only [hps, hcs, false_and, if_false, if_true]
  · simp only [hps, hcs, and_false, if_false, if_true]
  · simp only [hps, hcs, and_self, if_false]

theorem found_zero_iff : Found cs ps 0 ↔ ps <+: cs := by
  rw [Found, ← firstAt_zero_iff]
  constructor
  · rintro (⟨k, hk, h0⟩ | ⟨-, h0⟩)
    · obtain rfl : k = 0 := by omega
      exact hk
    · omega
  · intro h
    exact .inl ⟨0, h, rfl⟩

theorem found_neg_iff : Found cs ps (-1) ↔ Absent cs ps := by
  constructor
  · rintro (⟨k, hk, h⟩ | ⟨h, -⟩)
    · omega
    · exact h
  · intro h
    exact .inr ⟨h, rfl⟩

theorem stringFind_found_iff (hs : bytesOf s = encode cs)
    (hpattern : bytesOf pattern = encode ps) :
    (∃ fuel x, stringFind fuel s pattern = some (.ok x) ∧ Found cs ps x) ↔
      Searchable cs ps := by
  simp only [stringFind_eq hs hpattern, Searchable]
  by_cases hps : toInt (encode ps).length = 0
  · simp only [hps, if_true, ne_eq, not_true_eq_false, false_implies, true_implies, and_true]
    rw [← found_zero_iff]
    constructor
    · rintro ⟨fuel, x, hx, hfound⟩
      obtain rfl := Except.ok.inj (Option.some.inj hx)
      exact hfound
    · intro h
      exact ⟨0, 0, rfl, h⟩
  · by_cases hcs : toInt (encode cs).length = 0
    · simp only [hps, hcs, if_true, if_false, ne_eq, not_true_eq_false, not_false_eq_true,
        false_implies, true_implies, true_and, and_true]
      rw [← found_neg_iff]
      constructor
      · rintro ⟨fuel, x, hx, hfound⟩
        obtain rfl := Except.ok.inj (Option.some.inj hx)
        exact hfound
      · intro h
        exact ⟨0, -1, rfl, h⟩
    · simp only [hps, hcs, if_false, ne_eq, not_false_eq_true, false_implies, true_implies,
        true_and]
      have hne : ps ≠ [] := by
        rintro rfl
        exact hps (by decide)
      have hloop := fun x => findLoop_iff (r := cs) hne [] (by decide) (fun j hj => by simp at hj) x
      simp only [List.nil_append, encode_nil, List.length_nil, Nat.cast_zero, Nat.zero_add]
        at hloop
      constructor
      · rintro ⟨fuel, x, hx, -⟩
        rcases (hloop (.ok x)).mp ⟨fuel, hx⟩ with ⟨k, hk, hlt, -⟩ | ⟨hpasses, hlt, -⟩
        · exact .inl ⟨k, hlt, hk⟩
        · exact .inr ⟨hpasses, hlt⟩
      · rintro (⟨k, hlt, hk⟩ | ⟨hpasses, hlt⟩)
        · obtain ⟨fuel, h⟩ := (hloop _).mpr (.inl ⟨k, hk, hlt, rfl⟩)
          exact ⟨fuel, k, h, .inl ⟨k, hk.1, rfl⟩⟩
        · obtain ⟨fuel, h⟩ := (hloop _).mpr (.inr ⟨hpasses, hlt, rfl⟩)
          exact ⟨fuel, -1, h, .inr ⟨hpasses.1, rfl⟩⟩

end

/-- A search is right exactly when both strings are valid UTF-8 and searchable. -/
theorem findRight_iff (s pattern : HltString) : FindRight s pattern ↔
    ∃ cs ps, bytesOf s = encode cs ∧ bytesOf pattern = encode ps ∧ Searchable cs ps := by
  constructor
  · rintro ⟨fuel, r, hr, hright, herror⟩
    obtain ⟨x, rfl⟩ := stringFind_ok hr
    have hvalid : ValidUtf8 s ∧ ValidUtf8 pattern := by
      by_contra h
      cases herror h
    obtain ⟨⟨cs, hs⟩, ⟨ps, hpattern⟩⟩ := hvalid
    obtain ⟨y, hy, hfound⟩ := hright cs ps hs hpattern
    obtain rfl := Except.ok.inj hy
    have hsearch := (stringFind_found_iff hs hpattern).mp ⟨fuel, x, hr, hfound⟩
    exact ⟨cs, ps, hs, hpattern, hsearch⟩
  · rintro ⟨cs, ps, hs, hpattern, hsearch⟩
    obtain ⟨fuel, x, hx, hfound⟩ := (stringFind_found_iff hs hpattern).mpr hsearch
    refine ⟨fuel, .ok x, hx, fun cs' ps' hs' hpattern' => ⟨x, rfl, ?_⟩, fun h => ?_⟩
    · obtain rfl := encode_injective (hs.symm.trans hs')
      obtain rfl := encode_injective (hpattern.symm.trans hpattern')
      exact hfound
    · exact absurd ⟨⟨cs, hs⟩, ⟨ps, hpattern⟩⟩ h

/-- The pattern of two bytes is compared at the last byte of `ab`, which reads behind its end; and
in a byte that is not UTF-8, the search goes back to before its beginning. -/
theorem find_reads_outside :
    (∀ fuel, stringFind fuel (some (encode ['a', 'b'])) (some (encode ['b', 'c'])) = none) ∧
      (∀ fuel, stringFind fuel (some [0xFF]) (some (encode ['a'])) = none) ∧
      ¬ FindRight (some (encode ['a', 'b'])) (some (encode ['b', 'c'])) ∧
      ¬ FindRight (some [0xFF]) (some (encode ['a'])) := by
  have h₁ : ∀ fuel, stringFind fuel (some (encode ['a', 'b'])) (some (encode ['b', 'c'])) =
      none := by
    intro fuel
    rw [stringFind_eq rfl rfl, if_neg (by decide), if_neg (by decide)]
    match fuel with
    | 0 => rfl
    | 1 => decide
    | fuel + 2 => rfl
  have h₂ : ∀ fuel, stringFind fuel (some [0xFF]) (some (encode ['a'])) = none := by
    intro fuel
    rw [stringFind]
    rw [if_neg (by decide), if_neg (by decide), if_neg (by decide)]
    match fuel with
    | 0 => rfl
    | 1 => decide
    | fuel + 2 => rfl
  refine ⟨h₁, h₂, ?_, ?_⟩
  · rintro ⟨fuel, r, hr, -⟩
    rw [h₁ fuel] at hr
    cases hr
  · rintro ⟨fuel, r, hr, -⟩
    rw [h₂ fuel] at hr
    cases hr

end Hilti.Strings
