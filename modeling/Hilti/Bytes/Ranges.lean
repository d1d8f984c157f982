import Hilti.Bytes.Layout

/-!
# Ranges of bytes

The bytes between two iterators can be copied to a new object or to a buffer, visited block
by block, and read one after the other.
-/

namespace Hilti.Bytes

open Hilti.Lib

set_option autoImplicit false

/-! ## Copying to a buffer -/

/-- `__hlt_bytes_sub_raw_internal` for a buffer of any size: what is written to it, and the place
in it that is returned. -/
def subRawBuffer (H : Heap) (bufferSize len : ℕ) (p1 p2 : Iter) :
    Option (Except Error (List UInt8 × Option ℕ)) :=
  if bufferSize = 0 then some (.ok ([], if len = 0 then some 0 else none))
  else if len = 0 then some (.ok ([], some 0))
  else do
    let e1 ← isEnd H p1
    if e1 then some (.error .valueError)
    else do
      let b1 ← p1.bytes
      let c1 ← H.chunk b1
      let p2 ← match p2.bytes with
        | none => bytesEnd H b1
        | some _ => some p2
      if p1.bytes = p2.bytes then
        let n := min (p2.cur - p1.cur) bufferSize
        if p1.cur + n ≤ c1.data.length then
          some (.ok ((c1.data.drop p1.cur).take n, if bufferSize ≤ len then some n else none))
        else none
      else do
        let out := (c1.data.drop p1.cur).take bufferSize
        let e2 ← isEnd H p2
        let rest ← subLoop H p2 e2 H.fresh c1.next (bufferSize - out.length)
        some (rest.map fun rest =>
          (out ++ rest, if bufferSize ≤ len then some (out.length + rest.length) else none))

/-- `hlt_bytes_sub_raw`: what is written to the buffer, and whether it is returned. -/
def bytesSubRaw (H : Heap) (dstLen : ℕ) (p1 p2 : Iter) :
    Option (Except Error (List UInt8 × Bool)) := do
  let p1 ← normalizeIter H p1
  let p2 ← normalizeIter H p2
  let len ← iteratorDiff H p1 p2
  let r ← subRawBuffer H dstLen len.toNat p1 p2
  some (r.map fun r => (r.1, r.2.isSome))

/-- `hlt_bytes_to_raw`. -/
def bytesToRaw (H : Heap) (dstLen : ℕ) (b : ℕ) : Option (Except Error (List UInt8 × Bool)) := do
  let start ← bytesBegin H b
  let stop ← bytesEnd H b
  bytesSubRaw H dstLen start stop

/-! ## Blocks -/

/-- `hlt_bytes_block`.  `start` and `stop` are places in the chunk `bytes`. -/
structure RawBlock where
  bytes : Option ℕ
  start : ℕ
  stop : ℕ
  next : Option ℕ
  deriving DecidableEq

/-- The bytes that the block refers to. -/
def RawBlock.read (H : Heap) (block : RawBlock) : Option (List UInt8) := do
  let b ← block.bytes
  let c ← H.chunk b
  if block.start < block.stop ∧ c.data.length < block.stop then none
  else some ((c.data.take block.stop).drop block.start)

/-- `hlt_bytes_iterate_raw`: the block, and whether the cookie is not null.  The cookie of a call is
the block of the one before. -/
def iterateRaw (H : Heap) (cookie : Option RawBlock) (p1 p2 : Iter) :
    Option (Except Error (RawBlock × Bool)) := do
  let p1 ← normalizeIter H p1
  let p2 ← normalizeIter H p2
  match cookie with
  | none => do
    let e1 ← isEnd H p1
    let e2 ← isEnd H p2
    if e1 ∧ e2 ∨ p1 = p2 then some (.ok (⟨p1.bytes, p1.cur, p1.cur, none⟩, false))
    else if e1 ∧ ¬ e2 then some (.error .valueError)
    else do
      let b ← p1.bytes
      let c ← H.chunk b
      if p1.bytes ≠ p2.bytes then
        some (.ok (⟨p1.bytes, p1.cur, c.data.length, c.next⟩, c.next.isSome))
      else some (.ok (⟨p1.bytes, p1.cur, p2.cur, none⟩, false))
  | some block =>
    match block.next with
    | none => some (.ok (block, false))
    | some b => do
      let c ← H.chunk b
      if some b ≠ p2.bytes then
        some (.ok (⟨some b, c.start, c.data.length, c.next⟩, c.next.isSome))
      else some (.ok (⟨some b, c.start, p2.cur, none⟩, false))

/-- The bytes of all blocks, one after the other. -/
def blocksLoop (H : Heap) (p1 p2 : Iter) : ℕ → Option RawBlock → Option (Except Error (List UInt8))
  | 0, _ => none
  | fuel + 1, cookie => do
    match ← iterateRaw H cookie p1 p2 with
    | .error e => some (.error e)
    | .ok (block, more) => do
      let out ← block.read H
      if more then do
        let rest ← blocksLoop H p1 p2 fuel (some block)
        some (rest.map fun rest => out ++ rest)
      else some (.ok out)

/-! ## The bytes of a range -/

section

variable {H : Heap} {cs l r l' r' : Cells} {i j : Iter} {a a' k m : ℕ} {c c' : Chunk}

/-- The bytes between two positions. -/
def range (cs : Cells) (k m : ℕ) : List UInt8 :=
  ((content cs).drop k).take (m - k)

theorem range_length (cs : Cells) (k m : ℕ) :
    (range cs k m).length = min m (content cs).length - k := by
  simp only [range, List.length_take, List.length_drop]
  omega

theorem Stands.drop_eq (hi : Stands cs i k l a c r) (hle : i.cur ≤ c.data.length) :
    (content cs).drop k = c.data.drop i.cur ++ content r := by
  have hstart := hi.start_le
  rw [hi.split, content_append, content_cons, hi.pos_eq, List.drop_length_add_append,
    List.drop_append_of_le_length (by simp only [List.length_drop]; omega), List.drop_drop,
    Nat.add_sub_cancel' hstart]

theorem range_same (hi : Stands cs i k l a c r) (hj : Stands cs j m l a c r)
    (hle : j.cur ≤ c.data.length) (hkm : k ≤ m) :
    range cs k m = (c.data.take j.cur).drop i.cur := by
  have hpos := hi.pos_eq
  have hpos' := hj.pos_eq
  have hstart := hi.start_le
  have hstart' := hj.start_le
  rw [range, hi.drop_eq (by omega), List.take_append_of_le_length
    (by rw [List.length_drop]; omega), List.drop_take]
  congr 1
  omega

theorem range_after (hi : Stands cs i k l a c r) (hle : i.cur ≤ c.data.length) {t : Cells}
    (hr : r = t ++ (a', c') :: r') (hj : Stands cs j m l' a' c' r')
    (hl : l' = l ++ (a, c) :: t) (hle' : j.cur ≤ c'.data.length) :
    range cs k m = c.data.drop i.cur ++ (content t ++ (c'.data.take j.cur).drop c'.start) := by
  have hpos := hi.pos_eq
  have hpos' := hj.pos_eq
  have hstart := hi.start_le
  have hstart' := hj.start_le
  have hsize : (content l').length =
      (content l).length + (c.data.length - c.start) + (content t).length := by
    rw [hl, content_append, content_cons]
    simp only [List.length_append, List.length_drop]
    omega
  have hlen : m - k = (c.data.drop i.cur).length + ((content t).length + (j.cur - c'.start)) := by
    rw [List.length_drop]
    omega
  rw [range, hi.drop_eq hle, hlen, List.take_length_add_append, hr, content_append, content_cons,
    List.take_length_add_append, List.take_append_of_le_length
      (by simp only [List.length_drop]; omega), List.drop_take]

theorem range_end (hi : Stands cs i k l a c r) (hle : i.cur ≤ c.data.length)
    (hm : (content cs).length ≤ m) : range cs k m = c.data.drop i.cur ++ content r := by
  rw [range, ← hi.drop_eq hle, List.take_of_length_le]
  rw [List.length_drop]
  omega

theorem Stands.order (hi : Stands cs i k l a c r) (hj : Stands cs j m l' a' c' r')
    (hs' : hj.Settled) (hkm : k ≤ m) :
    (l' = l ∧ a' = a ∧ c' = c ∧ r' = r) ∨ ∃ t, r = t ++ (a', c') :: r' ∧ l' = l ++ (a, c) :: t := by
  rcases hi.cases hj with hsame | hafter | ⟨t, hr, hl⟩
  · exact .inl hsame
  · exact .inr hafter
  · have hpos := hi.pos_eq
    have hpos' := hj.pos_eq
    have hstart := hj.start_le
    have hcur : j.cur < c'.data.length := hs'.resolve_right (by simp [hr])
    have hsize : (content l).length =
        (content l').length + (c'.data.length - c'.start) + (content t).length := by
      rw [hl, content_append, content_cons]
      simp only [List.length_append, List.length_drop]
      omega
    omega

/-! ## What is copied -/

theorem take_room (room : ℕ) (l₁ l₂ : List UInt8) : (l₁ ++ l₂).take room =
    l₁.take room ++ l₂.take (room - (l₁.take room).length) := by
  rw [List.take_append, List.length_take]
  congr 2
  omega

theorem subLoop_rest {r : Cells} (h : Follow H r) (p2 : Iter) {fuel : ℕ} (hf : r.length ≤ fuel)
    (room : ℕ) : subLoop H p2 true fuel (firstAddr r) room = some (.ok ((content r).take room)) := by
  induction r generalizing fuel room with
  | nil => cases fuel <;> simp [subLoop, firstAddr, content]
  | cons e r ih =>
    obtain ⟨fuel, rfl⟩ : ∃ n, fuel = n + 1 := ⟨fuel - 1, by simp at hf; omega⟩
    have hrest := ih h.2.2 (show r.length ≤ fuel by simpa using hf)
      (room - ((e.2.data.drop e.2.start).take room).length)
    rw [show firstAddr (e :: r) = some e.1 from rfl, subLoop, h.1]
    simp only [Option.bind_eq_bind, Option.bind_some, or_true, if_true]
    rw [show e.2.next = firstAddr r from h.2.1, hrest, content_cons, take_room]
    rfl

theorem subLoop_to {r : Cells} {t r' : Cells} (h : Follow H r) (hr : r = t ++ (a', c') :: r')
    (hnot : a' ∉ t.map Prod.fst) {p2 : Iter} (hp2 : p2.bytes = some a') {fuel : ℕ}
    (hf : r.length ≤ fuel) (room : ℕ) : subLoop H p2 false fuel (firstAddr r) room =
      some (.ok ((content t ++ (c'.data.take p2.cur).drop c'.start).take room)) := by
  induction t generalizing r fuel room with
  | nil =>
    subst hr
    obtain ⟨fuel, rfl⟩ : ∃ n, fuel = n + 1 :=
      ⟨fuel - 1, by simp only [List.nil_append, List.length_cons] at hf; omega⟩
    rw [show firstAddr ([] ++ (a', c') :: r') = some a' from rfl, subLoop, h.1]
    simp [hp2, content]
  | cons e t ih =>
    subst hr
    obtain ⟨fuel, rfl⟩ : ∃ n, fuel = n + 1 :=
      ⟨fuel - 1, by simp only [List.cons_append, List.length_cons] at hf; omega⟩
    obtain ⟨hne, hnot⟩ : a' ≠ e.1 ∧ a' ∉ t.map Prod.fst := by simpa using hnot
    have hrest := ih (r := t ++ (a', c') :: r') h.2.2 rfl hnot (by simpa using hf)
      (room - ((e.2.data.drop e.2.start).take room).length)
    rw [show firstAddr (e :: t ++ (a', c') :: r') = some e.1 from rfl, subLoop, h.1]
    simp only [Option.bind_eq_bind, Option.bind_some, hp2, Option.some.injEq, ne_eq, hne.symm,
      not_false_eq_true, true_or, if_true]
    rw [show e.2.next = firstAddr (t ++ (a', c') :: r') from h.2.1, hrest, content_cons,
      List.append_assoc, take_room room (e.2.data.drop e.2.start)]
    rfl

theorem subLoop_range (h : Layout H cs) (hi : Stands cs i k l a c r) (hs : hi.Settled)
    (hj : Stands cs j m l' a' c' r') (hs' : hj.Settled) (hk : k < (content cs).length)
    {t : Cells} (hr : r = t ++ (a', c') :: r') (hl : l' = l ++ (a, c) :: t) (room : ℕ) :
    ∃ tail, range cs k m = c.data.drop i.cur ++ tail ∧
      subLoop H j (decide ((content cs).length ≤ m)) H.fresh c.next room =
        some (.ok (tail.take room)) := by
  obtain ⟨hfollow, -, hnot, hfuel⟩ := h.cell hi.split
  have hcur := (hi.lt_iff h hs).mp hk
  rw [show c.next = firstAddr r from hfollow.2.1]
  by_cases hm : (content cs).length ≤ m
  · refine ⟨content r, range_end hi hcur.le hm, ?_⟩
    rw [decide_eq_true hm]
    exact subLoop_rest hfollow.2.2 j hfuel.le room
  · have hcur' := (hj.lt_iff h hs').mp (not_le.mp hm)
    refine ⟨_, range_after hi hcur.le hr hj hl hcur'.le, ?_⟩
    rw [decide_eq_false hm]
    refine subLoop_to hfollow.2.2 hr ?_ hj.bytes_eq hfuel.le room
    have hnodup := h.nodup
    rw [hj.split, hl, List.map_append, List.nodup_append] at hnodup
    intro hmem
    exact hnodup.2.2 a' (by simp [hmem]) a' (by simp) rfl

theorem same_chunk (h : Layout H cs) (hi : Stands cs i k l a c r) (hs : hi.Settled)
    (hj : Stands cs j m l a c r) (hs' : hj.Settled) (hk : k < (content cs).length) (hkm : k ≤ m) :
    range cs k m = (c.data.drop i.cur).take (min m (content cs).length - k) ∧
      min m (content cs).length - k = min (j.cur - i.cur) (c.data.length - i.cur) := by
  have hcur := (hi.lt_iff h hs).mp hk
  have hpos := hi.pos_eq
  have hpos' := hj.pos_eq
  have hstart := hi.start_le
  have hstart' := hj.start_le
  have hlen := content_split hi.split
  have hcount : min m (content cs).length - k = min (j.cur - i.cur) (c.data.length - i.cur) := by
    rcases hs' with hlt | hnil
    · omega
    · have hnone : (content r).length = 0 := by rw [hnil]; rfl
      omega
  refine ⟨?_, hcount⟩
  have hmin : min (m - k) ((content cs).drop k).length = min m (content cs).length - k := by
    rw [List.length_drop]
    omega
  rw [range, List.take_eq_take_min, hmin, hi.drop_eq hcur.le, List.take_append_of_le_length]
  rw [List.length_drop]
  omega

/-- The place that `__hlt_bytes_sub_raw_internal` returns for a range of `len` bytes. -/
def returned (size len : ℕ) : Option ℕ :=
  if size = 0 then (if len = 0 then some 0 else none)
  else if len = 0 then some 0
  else if size ≤ len then some size
  else none

theorem subRawBuffer_range (h : Layout H cs) (hi : Stands cs i k l a c r) (hs : hi.Settled)
    (hj : Stands cs j m l' a' c' r') (hs' : hj.Settled) (hkm : k < (content cs).length → k ≤ m)
    (size : ℕ)
    (hsize : range cs k m = [] ∨ size ≤ (range cs k m).length ∨ j.cur ≤ c'.data.length) :
    subRawBuffer H size (range cs k m).length i j =
      some (.ok ((range cs k m).take size, returned size (range cs k m).length)) := by
  have hlen := range_length cs k m
  unfold subRawBuffer returned
  by_cases hzero : size = 0
  · simp only [hzero, if_true, List.take_zero]
  by_cases hempty : (range cs k m).length = 0
  · simp only [hzero, if_true, if_false, List.length_eq_zero_iff.mp hempty, List.take_nil,
      List.length_nil]
  replace hsize := hsize.resolve_left fun hnil => hempty (by rw [hnil]; rfl)
  have hk : k < (content cs).length := by omega
  replace hkm := hkm hk
  have hcur := (hi.lt_iff h hs).mp hk
  obtain ⟨hfollow, -⟩ := h.cell hi.split
  simp only [hzero, hempty, if_false, hi.isEnd_iff h hs, not_le.mpr hk, decide_false, hi.bytes_eq,
    hj.bytes_eq, hfollow.1, Option.bind_eq_bind, Option.bind_some, Bool.false_eq_true,
    Option.some.injEq]
  rcases hi.order hj hs' hkm with ⟨rfl, rfl, rfl, rfl⟩ | ⟨t, hr, hl⟩
  · obtain ⟨hrange, hcount⟩ := same_chunk h hi hs hj hs' hk hkm
    rw [if_pos rfl, if_pos (by omega)]
    rw [← hlen] at hrange hcount
    congr 2
    refine Prod.ext ?_ ?_
    · simp only
      conv_rhs => rw [hrange, List.take_take]
      rw [List.take_eq_take_iff, List.length_drop]
      omega
    · simp only
      by_cases hfits : size ≤ (range cs k m).length
      · rw [if_pos hfits, if_pos hfits]
        congr 1
        omega
      · rw [if_neg hfits, if_neg hfits]
  · obtain ⟨tail, hrange, hloop⟩ := subLoop_range h hi hs hj hs' hk hr hl
      (size - ((c.data.drop i.cur).take size).length)
    have hne : ¬ a = a' := by
      rintro rfl
      exact (h.cell hi.split).2.2.1 (by rw [hr]; simp)
    rw [if_neg hne, hj.isEnd_iff h hs']
    simp only [Option.bind_some, hloop, Except.map]
    rw [← take_room, ← hrange]
    congr 3
    have hsum : ((c.data.drop i.cur).take size).length +
        (tail.take (size - ((c.data.drop i.cur).take size).length)).length =
          min size (range cs k m).length := by
      rw [← List.length_append, ← take_room, ← hrange, List.length_take]
    rw [hsum]
    by_cases hfits : size ≤ (range cs k m).length
    · rw [if_pos hfits, if_pos hfits, min_eq_left hfits]
    · rw [if_neg hfits, if_neg hfits]

theorem subRawInternal_of_buffer {len : ℕ} (hlen : len ≠ 0) {p1 p2 : Iter} {b2 : ℕ}
    (hb2 : p2.bytes = some b2) {out : List UInt8} {ret : Option ℕ}
    (hout : subRawBuffer H len len p1 p2 = some (.ok (out, ret))) :
    subRawInternal H len p1 p2 = some (.ok out) := by
  simp only [subRawBuffer, hlen, if_false] at hout
  obtain ⟨e1, he1, hout⟩ := Option.bind_eq_some_iff.mp hout
  simp only [subRawInternal, he1, Option.bind_eq_bind, Option.bind_some]
  split at hout
  · cases hout
  rename_i hnot
  rw [if_neg hnot]
  obtain ⟨b1, hb1, hout⟩ := Option.bind_eq_some_iff.mp hout
  obtain ⟨c1, hc1, hout⟩ := Option.bind_eq_some_iff.mp hout
  simp only [hb1, hc1, hb2, Option.bind_eq_bind, Option.bind_some] at hout ⊢
  split at hout
  · rename_i hsame
    rw [if_pos hsame]
    split at hout
    · obtain ⟨rfl, -⟩ := Prod.mk.inj (Except.ok.inj (Option.some.inj hout))
      rw [List.drop_take, List.take_take, min_comm]
    · cases hout
  · rename_i hother
    rw [if_neg hother]
    obtain ⟨e2, he2, hout⟩ := Option.bind_eq_some_iff.mp hout
    obtain ⟨rest, hrest, hout⟩ := Option.bind_eq_some_iff.mp hout
    simp only [he2, hrest, Option.bind_some]
    cases rest with
    | error e => cases hout
    | ok rest =>
      obtain ⟨rfl, -⟩ := Prod.mk.inj (Except.ok.inj (Option.some.inj hout))
      rfl

theorem subRawBuffer_larger {size len : ℕ} (hlen : len ≠ 0) (hlt : len < size) {p1 p2 : Iter}
    {b2 : ℕ} (hb2 : p2.bytes = some b2) {out : List UInt8} {ret : Option ℕ}
    (hout : subRawBuffer H size len p1 p2 = some (.ok (out, ret))) : ret = none := by
  simp only [subRawBuffer, hlen, show ¬ size = 0 by omega, not_le.mpr hlt, if_false] at hout
  obtain ⟨e1, -, hout⟩ := Option.bind_eq_some_iff.mp hout
  split at hout
  · cases hout
  obtain ⟨b1, -, hout⟩ := Option.bind_eq_some_iff.mp hout
  obtain ⟨c1, -, hout⟩ := Option.bind_eq_some_iff.mp hout
  simp only [hb2, Option.bind_eq_bind, Option.bind_some] at hout
  split at hout
  · split at hout
    · exact (Prod.mk.inj (Except.ok.inj (Option.some.inj hout))).2.symm
    · cases hout
  · obtain ⟨e2, -, hout⟩ := Option.bind_eq_some_iff.mp hout
    obtain ⟨rest, -, hout⟩ := Option.bind_eq_some_iff.mp hout
    cases rest with
    | error e => cases hout
    | ok rest => exact (Prod.mk.inj (Except.ok.inj (Option.some.inj hout))).2.symm

theorem normalize_range (h : Layout H cs) (hi : Designates cs i k) (hj : Designates cs j m)
    (hkm : k ≤ m) : ∃ i' k' l a c r, ∃ hi' : Stands cs i' k' l a c r,
      ∃ j' m' l' a' c' r', ∃ hj' : Stands cs j' m' l' a' c' r',
      normalizeIter H i = some i' ∧ normalizeIter H j = some j' ∧ hi'.Settled ∧ hj'.Settled ∧
      (k' < (content cs).length → k' = k ∧ k' ≤ m') ∧
      (k < (content cs).length ↔ k' < (content cs).length) ∧
      (m < (content cs).length ↔ m' < (content cs).length) ∧
      range cs k' m' = range cs k m := by
  obtain ⟨_, _, _, _, hi⟩ := hi
  obtain ⟨_, _, _, _, hj⟩ := hj
  obtain ⟨i', k', l, a, c, r, hi', hnorm, hs, hin, hout, -⟩ := normalizeIter_stands h hi
  obtain ⟨j', m', l', a', c', r', hj', hnorm', hs', hin', hout', -⟩ := normalizeIter_stands h hj
  have hk : k < (content cs).length ↔ k' < (content cs).length :=
    ⟨fun hlt => by rw [hin hlt]; exact hlt, fun hlt => by
      by_contra hge
      exact absurd hlt (not_lt.mpr (hout (not_lt.mp hge)))⟩
  have hm : m < (content cs).length ↔ m' < (content cs).length :=
    ⟨fun hlt => by rw [hin' hlt]; exact hlt, fun hlt => by
      by_contra hge
      exact absurd hlt (not_lt.mpr (hout' (not_lt.mp hge)))⟩
  refine ⟨i', k', l, a, c, r, hi', j', m', l', a', c', r', hj', hnorm, hnorm', hs, hs',
    fun hlt => ?_, hk, hm, ?_⟩
  · have hkk := hin (hk.mpr hlt)
    refine ⟨hkk, ?_⟩
    by_cases hmlt : m < (content cs).length
    · rw [hkk, hin' hmlt]
      exact hkm
    · have := hout' (not_lt.mp hmlt)
      omega
  · unfold range
    by_cases hklt : k < (content cs).length
    · rw [hin hklt]
      by_cases hmlt : m < (content cs).length
      · rw [hin' hmlt]
      · have := hout' (not_lt.mp hmlt)
        rw [List.take_of_length_le (by rw [List.length_drop]; omega),
          List.take_of_length_le (by rw [List.length_drop]; omega)]
    · have := hout (not_lt.mp hklt)
      rw [List.drop_eq_nil_of_le (by omega), List.drop_eq_nil_of_le (by omega), List.take_nil,
        List.take_nil]

theorem bytesSub_range (h : Layout H cs) (hi : Designates cs i k) (hj : Designates cs j m)
    (hkm : k ≤ m) : bytesSub H i j = some (.ok (bytesNew H (range cs k m))) := by
  obtain ⟨i', k', l, a, c, r, hi', j', m', l', a', c', r', hj', hnorm, hnorm', hs, hs', hord, -, -,
    hrange⟩ := normalize_range h hi hj hkm
  have hdiff := iteratorDiff_at h hi' hs hj' hs'
  rw [← range_length, hrange] at hdiff
  simp only [bytesSub, hnorm, hnorm', hdiff, Option.bind_eq_bind, Option.bind_some, Nat.cast_eq_zero,
    List.length_eq_zero_iff, Int.toNat_natCast]
  split
  · rename_i hnil
    rw [hnil]
  · rename_i hne
    have hbuffer := subRawBuffer_range h hi' hs hj' hs' (fun hk => (hord hk).2)
      (range cs k' m').length (.inr (.inl le_rfl))
    rw [hrange, List.take_length] at hbuffer
    rw [subRawInternal_of_buffer (by simpa using hne) hj'.bytes_eq hbuffer]
    simp only [Option.bind_some, if_true]

/-! ## Extracting to a buffer -/

/-- The buffer holds exactly the range and is returned, if the range fits; it is not returned if
the range is larger; and nothing is written past it. -/
def RawRight (size : ℕ) (bytes : List UInt8)
    (result : Option (Except Error (List UInt8 × Bool))) : Prop :=
  ∃ written returned, result = some (.ok (written, returned)) ∧ written.length ≤ size ∧
    (returned = true ↔ bytes.length ≤ size) ∧ (bytes.length ≤ size → written = bytes)

theorem bytesSubRaw_right (h : Layout H cs) (hi : Designates cs i k) (hj : Designates cs j m)
    (hkm : k ≤ m) (size : ℕ) : RawRight size (range cs k m) (bytesSubRaw H size i j) ↔
      size = (range cs k m).length ∨ range cs k m = [] ∨ size = 0 := by
  obtain ⟨i', k', l, a, c, r, hi', j', m', l', a', c', r', hj', hnorm, hnorm', hs, hs', hord, -, -,
    hrange⟩ := normalize_range h hi hj hkm
  have hdiff := iteratorDiff_at h hi' hs hj' hs'
  rw [← range_length, hrange] at hdiff
  have hrun : bytesSubRaw H size i j =
      (subRawBuffer H size (range cs k m).length i' j').map
        (Except.map fun r => (r.1, r.2.isSome)) := by
    simp only [bytesSubRaw, hnorm, hnorm', hdiff, Option.bind_eq_bind, Option.bind_some,
      Int.toNat_natCast]
    cases subRawBuffer H size (range cs k m).length i' j' <;> rfl
  have hcopy : range cs k' m' = [] ∨ size ≤ (range cs k' m').length ∨ j'.cur ≤ c'.data.length →
      bytesSubRaw H size i j = some (.ok ((range cs k m).take size,
        (returned size (range cs k m).length).isSome)) := by
    intro hsize
    have hbuffer := subRawBuffer_range h hi' hs hj' hs' (fun hk => (hord hk).2) size hsize
    rw [hrange] at hbuffer
    rw [hrun, hbuffer]
    rfl
  rw [hrange] at hcopy
  constructor
  · rintro ⟨written, ok, hresult, -, hok, -⟩
    by_contra hnot
    obtain ⟨hne, hnil, hzero⟩ : size ≠ (range cs k m).length ∧ range cs k m ≠ [] ∧ size ≠ 0 := by
      simpa only [not_or] using hnot
    have hlen : (range cs k m).length ≠ 0 := by simpa using hnil
    rcases Nat.lt_or_gt_of_ne hne with hlt | hgt
    · rw [hcopy (.inr (.inl hlt.le))] at hresult
      obtain ⟨-, rfl⟩ := Prod.mk.inj (Except.ok.inj (Option.some.inj hresult))
      have := hok.mp (by simp [returned, hzero, hlen, hlt.le])
      omega
    · rw [hrun] at hresult
      obtain ⟨e, he, hmap⟩ := Option.map_eq_some_iff.mp hresult
      cases e with
      | error e => cases hmap
      | ok p =>
        obtain ⟨-, rfl⟩ := Prod.mk.inj (Except.ok.inj hmap)
        have hnone := subRawBuffer_larger hlen hgt hj'.bytes_eq he
        have := hok.mpr hgt.le
        rw [hnone] at this
        cases this
  · intro hcase
    have hsize : range cs k m = [] ∨ size ≤ (range cs k m).length ∨ j'.cur ≤ c'.data.length := by
      rcases hcase with heq | hnil | hzero
      · exact .inr (.inl heq.le)
      · exact .inl hnil
      · exact .inr (.inl (by omega))
    refine ⟨_, _, hcopy hsize, List.length_take_le _ _, ?_, fun hle => List.take_of_length_le hle⟩
    unfold returned
    rcases hcase with heq | hnil | rfl
    · by_cases hzero : (range cs k m).length = 0
      · simp [heq, hzero]
      · simp [heq, hzero]
    · by_cases hzero : size = 0
      · simp [hnil, hzero]
      · simp [hnil, hzero]
    · by_cases hnil : (range cs k m).length = 0
      · simp [hnil]
      · simp [hnil]

/-- Exactly the ranges that have the size of the buffer, and empty ranges and buffers, are
extracted as documented. -/
theorem raw_right_iff (h : Layout H cs) (hi : Designates cs i k) (hj : Designates cs j m)
    (hkm : k ≤ m) {e : ℕ × Chunk} (heq : cs = e :: r) (size : ℕ) :
    (RawRight size (range cs k m) (bytesSubRaw H size i j) ↔
      size = (range cs k m).length ∨ range cs k m = [] ∨ size = 0) ∧
    (RawRight size (content cs) (bytesToRaw H size e.1) ↔
      size = (content cs).length ∨ content cs = [] ∨ size = 0) := by
  refine ⟨bytesSubRaw_right h hi hj hkm size, ?_⟩
  obtain ⟨start, hbegin, hstart⟩ := bytesBegin_at h heq
  obtain ⟨stop, _, _, _, hend, hstop, -⟩ := bytesEnd_at h heq
  have hall : range cs 0 (content cs).length = content cs := by simp [range]
  have hright := bytesSubRaw_right h hstart ⟨_, _, _, _, hstop⟩ (Nat.zero_le _) size
  rw [hall] at hright
  simp only [bytesToRaw, hbegin, hend, Option.bind_eq_bind, Option.bind_some]
  exact hright

theorem raw_right_iff_sample :
    (RawRight 2 (range sampleCells 0 2) (bytesSubRaw sampleHeap 2 ⟨some 0, 0⟩ ⟨some 1, 1⟩) ↔
      2 = (range sampleCells 0 2).length ∨ range sampleCells 0 2 = [] ∨ 2 = 0) ∧
    (RawRight 2 (content sampleCells) (bytesToRaw sampleHeap 2 0) ↔
      2 = (content sampleCells).length ∨ content sampleCells = [] ∨ 2 = 0) :=
  raw_right_iff sample_layout ⟨[], 0, _, _, rfl, rfl, by decide, rfl⟩
    ⟨[_], 1, _, [], rfl, rfl, by decide, rfl⟩ (by decide) rfl 2

/-- Three bytes and room for four: the buffer is not returned. -/
theorem raw_larger_buffer :
    ¬ RawRight 4 [1, 2, 3] (bytesSubRaw sampleHeap 4 ⟨some 0, 0⟩ ⟨some 1, 2⟩) := by
  rintro ⟨written, ok, hresult, -, hok, -⟩
  have hrun : bytesSubRaw sampleHeap 4 ⟨some 0, 0⟩ ⟨some 1, 2⟩ = some (.ok ([1, 2, 3], false)) := by
    rfl
  rw [hrun] at hresult
  obtain ⟨-, rfl⟩ := Prod.mk.inj (Except.ok.inj (Option.some.inj hresult))
  exact absurd (hok.mpr (by decide)) (by decide)

/-! ## The blocks of a range -/

theorem blocksLoop_to {t : Cells} (hi' : ∃ i', normalizeIter H i = some i') {j' : Iter}
    (hj' : normalizeIter H j = some j') (hbytes : j'.bytes = some a') (block : RawBlock)
    (hnext : block.next = firstAddr (t ++ (a', c') :: r')) (h : Follow H (t ++ (a', c') :: r'))
    (hstart : ∀ e ∈ t ++ (a', c') :: r', e.2.start ≤ e.2.data.length)
    (hnot : a' ∉ t.map Prod.fst) (fuel : ℕ) :
    blocksLoop H i j fuel (some block) =
      if fuel ≤ t.length ∨ c'.data.length < j'.cur then none
      else some (.ok (content t ++ (c'.data.take j'.cur).drop c'.start)) := by
  obtain ⟨i', hi'⟩ := hi'
  induction t generalizing block fuel with
  | nil =>
    by_cases hzero : fuel = 0
    · rw [hzero, if_pos (.inl (Nat.zero_le _))]
      rfl
    obtain ⟨fuel, rfl⟩ := Nat.exists_eq_succ_of_ne_zero hzero
    have hiter : iterateRaw H (some block) i j =
        some (.ok (⟨some a', c'.start, j'.cur, none⟩, false)) := by
      simp only [iterateRaw, hi', hj', Option.bind_eq_bind, Option.bind_some]
      rw [show block.next = some a' from hnext]
      simp only [h.1, Option.bind_some, hbytes, ne_eq, not_true_eq_false, if_false]
    have hle := hstart (a', c') (by simp)
    simp only at hle
    rw [blocksLoop, hiter]
    simp only [Option.bind_eq_bind, Option.bind_some, RawBlock.read, h.1, Bool.false_eq_true,
      if_false]
    by_cases hbeyond : c'.data.length < j'.cur
    · rw [if_pos ⟨by omega, hbeyond⟩, if_pos (.inr hbeyond)]
      rfl
    · rw [if_neg (fun hand => hbeyond hand.2), if_neg (by simp [hbeyond])]
      rfl
  | cons e t ih =>
    by_cases hzero : fuel = 0
    · rw [hzero, if_pos (.inl (Nat.zero_le _))]
      rfl
    obtain ⟨fuel, rfl⟩ := Nat.exists_eq_succ_of_ne_zero hzero
    obtain ⟨hne, hnot⟩ : a' ≠ e.1 ∧ a' ∉ t.map Prod.fst := by simpa using hnot
    have hchunk : H.chunk e.1 = some e.2 := h.1
    have hmore : e.2.next = firstAddr (t ++ (a', c') :: r') := h.2.1
    have hsome : e.2.next.isSome = true := by
      rw [hmore]
      cases t <;> rfl
    have hiter : iterateRaw H (some block) i j =
        some (.ok (⟨some e.1, e.2.start, e.2.data.length, e.2.next⟩, true)) := by
      simp only [iterateRaw, hi', hj', Option.bind_eq_bind, Option.bind_some]
      rw [show block.next = some e.1 from hnext]
      simp only [hchunk, Option.bind_some, hbytes, ne_eq, Option.some.injEq, hne.symm,
        not_false_eq_true, if_true, hsome]
    have hrest := ih ⟨some e.1, e.2.start, e.2.data.length, e.2.next⟩ hmore h.2.2
      (fun e' he' => hstart e' (List.mem_cons_of_mem _ he')) hnot fuel
    rw [blocksLoop, hiter]
    simp only [Option.bind_eq_bind, Option.bind_some, RawBlock.read, hchunk, lt_irrefl, and_false,
      if_false, if_true, hrest, List.take_length]
    simp only [List.length_cons, Nat.succ_eq_add_one, Nat.add_le_add_iff_right]
    by_cases hnone : fuel ≤ t.length ∨ c'.data.length < j'.cur
    · rw [if_pos hnone, if_pos hnone]
      rfl
    · rw [if_neg hnone, if_neg hnone, content_cons, List.append_assoc]
      rfl

/-- The iterator, brought to the chunk of its position, points beyond the end of the chunk. -/
def Beyond (H : Heap) (j : Iter) : Prop :=
  ∃ j' b c, normalizeIter H j = some j' ∧ j'.bytes = some b ∧ H.chunk b = some c ∧
    c.data.length < j'.cur

theorem beyond_iff {j' : Iter} (hnorm : normalizeIter H j = some j')
    (hj' : Stands cs j' m l' a' c' r') (h : Layout H cs) : Beyond H j ↔ c'.data.length < j'.cur := by
  have hchunk := (h.cell hj'.split).1.1
  constructor
  · rintro ⟨j₁, b, d, hnorm₁, hbytes, hd, hlt⟩
    obtain rfl : j' = j₁ := Option.some.inj (hnorm.symm.trans hnorm₁)
    obtain rfl : a' = b := Option.some.inj (hj'.bytes_eq.symm.trans hbytes)
    obtain rfl : c' = d := Option.some.inj (hchunk.symm.trans hd)
    exact hlt
  · exact fun hlt => ⟨j', a', c', hnorm, hj'.bytes_eq, hchunk, hlt⟩

theorem blocksLoop_range (h : Layout H cs) (hi : Designates cs i k) (hj : Designates cs j m)
    (hkm : k ≤ m) : (∃ fuel, blocksLoop H i j fuel none = some (.ok (range cs k m))) ↔
      (content cs).length ≤ k ∨ ¬ Beyond H j := by
  obtain ⟨i', k', l, a, c, r, hi', j', m', l', a', c', r', hj', hnorm, hnorm', hs, hs', hord, hkk,
    hmm, hrange⟩ := normalize_range h hi hj hkm
  rw [beyond_iff hnorm' hj' h, ← hrange]
  obtain ⟨hfollow, hstarts, hnot, -⟩ := h.cell hi'.split
  have hend := hi'.isEnd_iff h hs
  have hend' := hj'.isEnd_iff h hs'
  by_cases hk : (content cs).length ≤ k'
  · have hm : (content cs).length ≤ m' := by
      by_contra hlt
      have := hmm.mpr (not_le.mp hlt)
      omega
    have hnil : range cs k' m' = [] := by
      rw [range, List.drop_eq_nil_of_le hk, List.take_nil]
    refine iff_of_true ⟨1, ?_⟩ (.inl (by omega))
    rw [blocksLoop]
    simp only [iterateRaw, hnorm, hnorm', hend, hend', hk, hm, decide_true, and_self, true_or,
      if_true, Option.bind_eq_bind, Option.bind_some, RawBlock.read, hi'.bytes_eq, hfollow.1,
      lt_irrefl, false_and, if_false, Bool.false_eq_true, hnil]
    rw [List.drop_eq_nil_of_le (List.length_take_le _ _)]
  · have hk' := not_le.mp hk
    obtain ⟨-, hkm'⟩ := hord hk'
    have hcur := (hi'.lt_iff h hs).mp hk'
    by_cases hsame : i' = j'
    · have hunique := Designates.unique ⟨_, _, _, _, hi'⟩ ⟨_, _, _, _, hsame ▸ hj'⟩ h
      have hnil : range cs k' m' = [] := by
        rw [range, hunique, Nat.sub_self, List.take_zero]
      have hcur' := (hj'.lt_iff h hs').mp (hunique ▸ hk')
      refine iff_of_true ⟨1, ?_⟩ (.inr (not_lt.mpr hcur'.le))
      rw [blocksLoop]
      simp only [iterateRaw, hnorm, hnorm', hend', hsame, or_true, if_true,
        Option.bind_eq_bind, Option.bind_some, RawBlock.read, hj'.bytes_eq,
        (h.cell hj'.split).1.1, lt_irrefl, false_and, if_false, Bool.false_eq_true, hnil]
      rw [List.drop_eq_nil_of_le (List.length_take_le _ _)]
    · have hleft : ((content cs).length ≤ k ∨ ¬ c'.data.length < j'.cur) ↔
          ¬ c'.data.length < j'.cur := or_iff_right (by omega)
      rw [hleft]
      rcases hi'.order hj' hs' hkm' with ⟨rfl, rfl, rfl, rfl⟩ | ⟨t, hr, hl⟩
      · have hiter : iterateRaw H none i j =
            some (.ok (⟨some a', i'.cur, j'.cur, none⟩, false)) := by
          simp only [iterateRaw, hnorm, hnorm', hend, hend', hk, hsame, decide_false,
            Bool.false_eq_true, false_and, or_self, if_false, Option.bind_eq_bind,
            Option.bind_some, hi'.bytes_eq, hj'.bytes_eq, hfollow.1, ne_eq, not_true_eq_false]
        have hrun : ∀ fuel, blocksLoop H i j (fuel + 1) none = if c'.data.length < j'.cur then none
            else some (.ok ((c'.data.take j'.cur).drop i'.cur)) := by
          intro fuel
          rw [blocksLoop, hiter]
          simp only [Option.bind_eq_bind, Option.bind_some, RawBlock.read, hfollow.1,
            Bool.false_eq_true, if_false]
          by_cases hbeyond : c'.data.length < j'.cur
          · rw [if_pos ⟨by omega, hbeyond⟩, if_pos hbeyond]
            rfl
          · rw [if_neg (fun hand => hbeyond hand.2), if_neg hbeyond]
            rfl
        constructor
        · rintro ⟨fuel, hfuel⟩ hbeyond
          cases fuel with
          | zero => cases hfuel
          | succ fuel =>
            rw [hrun, if_pos hbeyond] at hfuel
            cases hfuel
        · intro hbeyond
          refine ⟨1, ?_⟩
          rw [hrun, if_neg hbeyond, range_same hi' hj' (not_lt.mp hbeyond) hkm']
      · have hnext : c.next = firstAddr (t ++ (a', c') :: r') := by
          rw [← hr]
          exact hfollow.2.1
        have hsome : c.next.isSome = true := by
          rw [hnext]
          cases t <;> rfl
        have hne : ¬ a = a' := by
          rintro rfl
          exact hnot (by rw [hr]; simp)
        have hnot' : a' ∉ t.map Prod.fst := by
          have hnodup := h.nodup
          rw [hj'.split, hl, List.map_append, List.nodup_append] at hnodup
          intro hmem
          exact hnodup.2.2 a' (by simp [hmem]) a' (by simp) rfl
        have hiter : iterateRaw H none i j =
            some (.ok (⟨some a, i'.cur, c.data.length, c.next⟩, true)) := by
          simp only [iterateRaw, hnorm, hnorm', hend, hend', hk, hsame, decide_false,
            Bool.false_eq_true, false_and, or_self, if_false, Option.bind_eq_bind,
            Option.bind_some, hi'.bytes_eq, hj'.bytes_eq, hfollow.1, ne_eq, Option.some.injEq, hne,
            not_false_eq_true, if_true, hsome]
        have hrun : ∀ fuel, blocksLoop H i j (fuel + 1) none =
            if fuel ≤ t.length ∨ c'.data.length < j'.cur then none
            else some (.ok (c.data.drop i'.cur ++
              (content t ++ (c'.data.take j'.cur).drop c'.start))) := by
          intro fuel
          have hrest := blocksLoop_to ⟨i', hnorm⟩ hnorm' hj'.bytes_eq
            ⟨some a, i'.cur, c.data.length, c.next⟩ hnext (hr ▸ hfollow.2.2)
            (fun e he => hstarts e (List.mem_cons_of_mem _ (hr ▸ he))) hnot' fuel
          rw [blocksLoop, hiter]
          simp only [Option.bind_eq_bind, Option.bind_some, RawBlock.read, hfollow.1, lt_irrefl,
            and_false, if_false, if_true, hrest, List.take_length]
          by_cases hnone : fuel ≤ t.length ∨ c'.data.length < j'.cur
          · rw [if_pos hnone, if_pos hnone]
            rfl
          · rw [if_neg hnone, if_neg hnone]
            rfl
        constructor
        · rintro ⟨fuel, hfuel⟩ hbeyond
          cases fuel with
          | zero => cases hfuel
          | succ fuel =>
            rw [hrun, if_pos (.inr hbeyond)] at hfuel
            cases hfuel
        · intro hbeyond
          refine ⟨t.length + 2, ?_⟩
          rw [hrun, if_neg (by omega), range_after hi' hcur.le hr hj' hl (not_lt.mp hbeyond)]

/-! ## The same bytes -/

/-- The new object, the blocks and the bytes read one by one are the same, and there are as many
of them as the difference of the iterators says. -/
def Agree (H : Heap) (i j : Iter) (bytes : List UInt8) : Prop :=
  bytesSub H i j = some (.ok (bytesNew H bytes)) ∧
  (∃ fuel, blocksLoop H i j fuel none = some (.ok bytes)) ∧
  (∃ fuel, readLoop H j fuel i = some bytes) ∧
  bytesDiff H i j = some (bytes.length : ℤ)

/-- They agree exactly if the second iterator does not point beyond the end, unless the first one is
there already. -/
theorem agree_iff (h : Layout H cs) (hi : Designates cs i k) (hj : Designates cs j m)
    (hkm : k ≤ m) : Agree H i j (range cs k m) ↔ (content cs).length ≤ k ∨ ¬ Beyond H j := by
  rw [← blocksLoop_range h hi hj hkm]
  constructor
  · exact fun hagree => hagree.2.1
  · intro hblocks
    refine ⟨bytesSub_range h hi hj hkm, hblocks, ⟨_, readLoop_at h hj _ i k hi hkm rfl⟩, ?_⟩
    rw [bytesDiff_at h hi hj, range_length]

theorem agree_iff_sample : Agree sampleHeap ⟨some 0, 0⟩ ⟨some 1, 1⟩ (range sampleCells 0 2) ↔
    (content sampleCells).length ≤ 0 ∨ ¬ Beyond sampleHeap ⟨some 1, 1⟩ :=
  agree_iff sample_layout ⟨[], 0, _, _, rfl, rfl, by decide, rfl⟩
    ⟨[_], 1, _, [], rfl, rfl, by decide, rfl⟩ (by decide)

/-- The position after the end: the last block goes on beyond the chunk. -/
theorem blocks_beyond_chunk :
    ¬ Agree sampleHeap ⟨some 0, 0⟩ ⟨some 1, 3⟩ (range sampleCells 0 4) := by
  rintro ⟨-, hblocks, -⟩
  have hiff := blocksLoop_range sample_layout
    (show Designates sampleCells ⟨some 0, 0⟩ 0 from ⟨[], 0, _, _, rfl, rfl, by decide, rfl⟩)
    (show Designates sampleCells ⟨some 1, 3⟩ 4 from ⟨[_], 1, _, [], rfl, rfl, by decide, rfl⟩)
    (by decide)
  rcases hiff.mp hblocks with hle | hnot
  · exact absurd hle (by decide)
  · exact hnot ⟨_, 1, _, rfl, rfl, rfl, by decide⟩

end

end Hilti.Bytes
