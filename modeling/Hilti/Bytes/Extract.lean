import Hilti.Bytes.Layout

/-!
# Extracting bytes

`__hlt_bytes_extract_one` has a fast path for an iterator that does not reach the end of
its chunk.  The path looks at the representation of the iterators only, and one position
has more than one of them.
-/

namespace Hilti.Bytes

open Hilti.Lib

set_option autoImplicit false

/-! ## The functions -/

inductive Raised where
  | wouldBlock
  | valueError
  deriving DecidableEq

/-- `__hlt_iterator_bytes_deref`. -/
def derefOnce (H : Heap) (p : Iter) : Option (Except Raised UInt8) := do
  let e ← isEnd H p
  if e then some (.error .valueError)
  else do
    let x ← byteAt H p
    some (.ok x)

/-- `__hlt_bytes_extract_one_slowpath`: the byte, and the iterator after it. -/
def extractOneSlowpath (H : Heap) (p stop : Iter) : Option (Except Raised UInt8 × Iter) := do
  let _ ← p.bytes
  let p ← normalizeIter H p
  let stop ← normalizeIter H stop
  let e ← isEnd H p
  if e then some (.error .wouldBlock, p)
  else do
    let same ← iteratorEq H p stop
    if same then some (.error .wouldBlock, p)
    else do
      let x ← derefOnce H p
      let p ← incrOnce H p
      some (x, p)

/-- `__hlt_bytes_extract_one`. -/
def extractOne (H : Heap) (p stop : Iter) : Option (Except Raised UInt8 × Iter) :=
  match p.bytes with
  | none => extractOneSlowpath H p stop
  | some b => do
    let c ← H.chunk b
    if (p.bytes = stop.bytes ∧ p.cur + 1 < stop.cur) ∨
        (p.bytes ≠ stop.bytes ∧ p.cur + 1 < c.data.length) then do
      let x ← c.data[p.cur]?
      some (.ok x, ⟨some b, p.cur + 1⟩)
    else extractOneSlowpath H p stop

/-! ## The slow path -/

section

variable {H : Heap} {cs l r : Cells} {i j : Iter} {a k m : ℕ} {c : Chunk}

theorem extractOneSlowpath_byte (h : Layout H cs) (hi : Stands cs i k l a c r)
    (hj : Designates cs j m) (hkm : k < m) {x : UInt8} (hx : (content cs)[k]? = some x) :
    ∃ i', extractOneSlowpath H i j = some (.ok x, i') ∧ Designates cs i' (k + 1) := by
  have hk : k < (content cs).length := (List.getElem?_eq_some_iff.mp hx).1
  obtain ⟨_, _, _, _, hj⟩ := hj
  obtain ⟨i', k', _, _, _, _, hi', hnorm, hs, hin, -⟩ := normalizeIter_stands h hi
  obtain ⟨j', m', _, _, _, _, hj', hnorm', hs', hin', hout', -⟩ := normalizeIter_stands h hj
  obtain rfl := hin hk
  have hne : ¬ min k' (content cs).length = min m' (content cs).length := by
    by_cases hm : m < (content cs).length
    · rw [hin' hm]
      omega
    · have := hout' (not_lt.mp hm)
      omega
  have hbyte := hi'.getElem? ((hi'.lt_iff h hs).mp hk)
  rw [hx] at hbyte
  obtain ⟨i'', _, _, _, _, hincr, hi'', -⟩ := incrOnce_at h hi' hs hk
  refine ⟨i'', ?_, _, _, _, _, hi''⟩
  simp only [extractOneSlowpath, hi.bytes_eq, hnorm, hnorm', hi'.isEnd_iff h hs, not_le.mpr hk,
    decide_false, Bool.false_eq_true, if_false, Option.bind_eq_bind, Option.bind_some,
    iteratorEq_at h ⟨_, _, _, _, hi'⟩ ⟨_, _, _, _, hj'⟩, hne, derefOnce, byteAt, hi'.bytes_eq,
    (h.cell hi'.split).1.1, hbyte, hincr]

theorem extractOneSlowpath_blocks (h : Layout H cs) (hi : Stands cs i k l a c r)
    (hj : Designates cs j m) (hend : (content cs).length ≤ k ∨ k = m) :
    ∃ i' k', extractOneSlowpath H i j = some (.error .wouldBlock, i') ∧ Designates cs i' k' := by
  obtain ⟨_, _, _, _, hj⟩ := hj
  obtain ⟨i', k', _, _, _, _, hi', hnorm, hs, hin, hout, -⟩ := normalizeIter_stands h hi
  obtain ⟨j', m', _, _, _, _, hj', hnorm', hs', hin', hout', -⟩ := normalizeIter_stands h hj
  refine ⟨i', k', ?_, _, _, _, _, hi'⟩
  simp only [extractOneSlowpath, hi.bytes_eq, hnorm, hnorm', hi'.isEnd_iff h hs,
    Option.bind_eq_bind, Option.bind_some]
  by_cases hk : (content cs).length ≤ k'
  · simp only [hk, decide_true, if_true]
  · have hklt : k < (content cs).length := by
      by_contra hge
      exact hk (hout (not_lt.mp hge))
    have hkm := hend.resolve_left (not_le.mpr hklt)
    have heq : min k' (content cs).length = min m' (content cs).length := by
      rw [hin hklt, hin' (hkm ▸ hklt), hkm]
    simp only [hk, decide_false, Bool.false_eq_true, if_false, Option.bind_some,
      iteratorEq_at h ⟨_, _, _, _, hi'⟩ ⟨_, _, _, _, hj'⟩, heq, decide_true, if_true]

/-! ## The two paths -/

/-- The same byte or exception, and iterators for the same index. -/
def SameExtraction (cs : Cells) (x y : Option (Except Raised UInt8 × Iter)) : Prop :=
  ∃ result i i' k, x = some (result, i) ∧ y = some (result, i') ∧ Designates cs i k ∧
    Designates cs i' k

/-- The iterator is behind its chunk, and the end further on in that chunk. -/
def PastChunk (c : Chunk) (p stop : Iter) : Prop :=
  p.bytes = stop.bytes ∧ p.cur + 1 < stop.cur ∧ c.data.length ≤ p.cur

/-- The end is at the same position as the iterator, in another chunk. -/
def EndElsewhere (c : Chunk) (p stop : Iter) (k m : ℕ) : Prop :=
  p.bytes ≠ stop.bytes ∧ p.cur + 1 < c.data.length ∧ k = m

/-- The fast path does what the slow path does, except behind a chunk and when the end is given by
another chunk. -/
theorem sameExtraction_iff (h : Layout H cs) (hi : Stands cs i k l a c r)
    (hj : Designates cs j m) (hkm : k ≤ m) :
    SameExtraction cs (extractOne H i j) (extractOneSlowpath H i j) ↔
      ¬ PastChunk c i j ∧ ¬ EndElsewhere c i j k m := by
  have hchunk := (h.cell hi.split).1.1
  have hpos := hi.pos_eq
  have hstart := hi.start_le
  have hlen := content_split hi.split
  by_cases hfast : (i.bytes = j.bytes ∧ i.cur + 1 < j.cur) ∨
      (i.bytes ≠ j.bytes ∧ i.cur + 1 < c.data.length)
  · have hrun : extractOne H i j = (c.data[i.cur]?).bind fun x =>
        some (.ok x, ⟨some a, i.cur + 1⟩) := by
      rw [hi.bytes_eq] at hfast
      simp only [extractOne, hi.bytes_eq, hchunk, Option.bind_eq_bind, Option.bind_some, if_pos hfast]
    by_cases hpast : PastChunk c i j
    · refine iff_of_false ?_ fun hnot => hnot.1 hpast
      rintro ⟨_, _, _, _, hresult, -⟩
      rw [hrun, List.getElem?_eq_none hpast.2.2] at hresult
      cases hresult
    · have hcur : i.cur < c.data.length := by
        rcases hfast with ⟨hsame, hlt⟩ | ⟨-, hlt⟩
        · by_contra hge
          exact hpast ⟨hsame, hlt, not_lt.mp hge⟩
        · omega
      have hk : k < (content cs).length := by omega
      have hbyte := hi.getElem? hcur
      rw [List.getElem?_eq_getElem hk] at hbyte
      have hnext : Designates cs ⟨some a, i.cur + 1⟩ (k + 1) :=
        ⟨l, a, c, r, hi.split, rfl, by simp only; omega, by simp only; omega⟩
      rw [hrun, hbyte]
      simp only [hpast, not_false_eq_true, true_and, Option.bind_some]
      by_cases hother : EndElsewhere c i j k m
      · refine iff_of_false ?_ (not_not.mpr hother)
        rintro ⟨_, _, _, _, hresult, hslow, -⟩
        obtain ⟨i', k', hblocks, -⟩ := extractOneSlowpath_blocks h hi hj (.inr hother.2.2)
        rw [hblocks] at hslow
        obtain ⟨rfl, -⟩ := Prod.mk.inj (Option.some.inj hslow)
        cases (Prod.mk.inj (Option.some.inj hresult)).1
      · refine iff_of_true ?_ hother
        have hlt : k < m := by
          refine lt_of_le_of_ne hkm fun heq => ?_
          rcases hfast with ⟨hsame, hlt⟩ | ⟨hne, hlt⟩
          · obtain ⟨l', a', c', r', hj⟩ := hj
            obtain rfl : a = a' :=
              Option.some.inj (hi.bytes_eq.symm.trans (hsame.trans hj.bytes_eq))
            obtain ⟨rfl, rfl, rfl⟩ := h.split_unique hi.split hj.split
            have hpos' := hj.pos_eq
            omega
          · exact hother ⟨hne, hlt, heq⟩
        obtain ⟨i', hslow, hi'⟩ :=
          extractOneSlowpath_byte h hi hj hlt (List.getElem?_eq_getElem hk)
        exact ⟨_, _, i', k + 1, rfl, hslow, hnext, hi'⟩
  · have hrun : extractOne H i j = extractOneSlowpath H i j := by
      rw [hi.bytes_eq] at hfast
      simp only [extractOne, hi.bytes_eq, hchunk, Option.bind_eq_bind, Option.bind_some, if_neg hfast]
    refine iff_of_true ?_ ⟨fun hpast => hfast (.inl ⟨hpast.1, hpast.2.1⟩),
      fun hother => hfast (.inr ⟨hother.1, hother.2.1⟩)⟩
    rw [hrun]
    by_cases hend : (content cs).length ≤ k ∨ k = m
    · obtain ⟨i', k', hslow, hi'⟩ := extractOneSlowpath_blocks h hi hj hend
      exact ⟨_, i', i', k', hslow, hslow, hi', hi'⟩
    · obtain ⟨hk, hne⟩ := not_or.mp hend
      obtain ⟨i', hslow, hi'⟩ := extractOneSlowpath_byte h hi hj (lt_of_le_of_ne hkm hne)
        (List.getElem?_eq_getElem (not_le.mp hk))
      exact ⟨_, i', i', k + 1, hslow, hslow, hi', hi'⟩

end

theorem sameExtraction_iff_sample :
    SameExtraction sampleCells (extractOne sampleHeap ⟨some 1, 0⟩ ⟨some 1, 2⟩)
      (extractOneSlowpath sampleHeap ⟨some 1, 0⟩ ⟨some 1, 2⟩) ↔
      ¬ PastChunk ⟨none, 1, [2, 3], 0⟩ ⟨some 1, 0⟩ ⟨some 1, 2⟩ ∧
        ¬ EndElsewhere ⟨none, 1, [2, 3], 0⟩ ⟨some 1, 0⟩ ⟨some 1, 2⟩ 1 3 :=
  sameExtraction_iff (l := [_]) (a := 1) (r := []) sample_layout ⟨rfl, rfl, by decide, rfl⟩
    ⟨[_], 1, _, [], rfl, rfl, by decide, rfl⟩ (by decide)

/-- The end is at the end of the first chunk: the fast path returns the byte after it. -/
theorem extraction_passes_end :
    ¬ SameExtraction sampleCells (extractOne sampleHeap ⟨some 1, 0⟩ ⟨some 0, 1⟩)
      (extractOneSlowpath sampleHeap ⟨some 1, 0⟩ ⟨some 0, 1⟩) := by
  rintro ⟨result, i, i', k, hfast, hslow, -⟩
  have hrun : extractOne sampleHeap ⟨some 1, 0⟩ ⟨some 0, 1⟩ = some (.ok 2, ⟨some 1, 1⟩) := by rfl
  have hrun' : extractOneSlowpath sampleHeap ⟨some 1, 0⟩ ⟨some 0, 1⟩ =
      some (.error .wouldBlock, ⟨some 1, 0⟩) := by rfl
  rw [hrun] at hfast
  rw [hrun'] at hslow
  obtain ⟨rfl, -⟩ := Prod.mk.inj (Option.some.inj hfast)
  cases (Prod.mk.inj (Option.some.inj hslow)).1

end Hilti.Bytes
