import Hilti.Bytes.Compare
import Hilti.Embedded.Blocks
import Hilti.Embedded.Hoisted

/-!
# Where the functions stop

The functions of `libhilti/bytes.c` that go over a bytes object, each with its own test for embedded
objects, and the bytes in front of the first one.  `hlt_bytes_copy` and `hlt_bytes_hash` do not stop
there.
-/

namespace Hilti.Embedded

open Hilti.Bytes (int8 cmpLists hashBytes)

set_option autoImplicit false

variable {ω : Type}

/-! ## The functions -/

/-- `__hlt_iterator_bytes_deref` in front of the end. -/
def byteAt (b : Bytes ω) (i : Iter) : Option UInt8 :=
  (b[i.bytes]?).bind fun c => c.bytes[i.cur]?

/-- `__hlt_iterator_bytes_incr`. -/
def incrOnce (b : Bytes ω) (i : Iter) : Iter :=
  if isEnd b i then i
  else if i.cur + 1 < lenAt b i.bytes then ⟨i.bytes, i.cur + 1⟩
  else if ¬ i.bytes + 1 < b.length then ⟨i.bytes, lenAt b i.bytes⟩
  else ⟨i.bytes + 1, 0⟩

/-- The loop of `hlt_bytes_cmp`. -/
def cmpLoop (b1 b2 : Bytes ω) : ℕ → Iter → Iter → Option ℤ
  | 0, _, _ => none
  | fuel + 1, p1, p2 =>
    if isEnd b1 p1 then some (if isEnd b2 p2 then 0 else 1)
    else if isEnd b2 p2 then some (-1)
    else do
      let c1 ← byteAt b1 p1
      let c2 ← byteAt b2 p2
      if c1 ≠ c2 then some (if int8 c1 > int8 c2 then -1 else 1)
      else cmpLoop b1 b2 fuel (incrOnce b1 p1) (incrOnce b2 p2)

/-- `hlt_bytes_cmp`. -/
def bytesCmp (fuel : ℕ) (b1 b2 : Bytes ω) : Option ℤ :=
  if isEmpty b1 then some (if isEmpty b2 then 0 else 1)
  else if isEmpty b2 then some (if isEmpty b1 then 0 else -1)
  else cmpLoop b1 b2 fuel (bytesBegin b1) (bytesBegin b2)

/-- `hlt_bytes_hash`, with the hash of embedded objects. -/
def hashLoop (objHash : ω → UInt64) : Bytes ω → UInt64 → UInt64
  | [], hash => hash
  | c :: cs, hash =>
    match c.body with
    | .object obj => hashLoop objHash cs (hash + objHash obj)
    | .data bytes _ _ =>
      if bytes.length ≠ 0 then
        hashLoop objHash cs (hashBytes bytes (BitVec.ofNat 16 bytes.length) hash)
      else hashLoop objHash cs hash

def bytesHash (objHash : ω → UInt64) (b : Bytes ω) : UInt64 :=
  hashLoop objHash b 0

/-- `hlt_bytes_sub_raw`: what it writes, and whether the pointer that it returns is not null. -/
def bytesSubRaw (dstLen : ℕ) (b : Bytes ω) (p1 : Option Iter) (p2 : Pos ω) :
    Option (Except Excpt (List UInt8 × Bool)) :=
  let p1 := p1.map (normalizeIter b)
  let p2 := p2.normalize b
  subRawInternal dstLen (iteratorBytesDiff b p1 p2) b p1 p2

/-- `hlt_bytes_to_raw`. -/
def bytesToRaw (dstLen : ℕ) (b : Bytes ω) : Option (Except Excpt (List UInt8 × Bool)) :=
  bytesSubRaw dstLen b (some (bytesBegin b)) ⟨none, some (bytesEnd b)⟩

/-- The objects that a program can obtain: those that a function has filled, and what becomes of
them. -/
inductive Obtained : Bytes ω → Prop
  | filled (bytes : List UInt8) (marks : Marks) (toFree : Bool) :
      Obtained [⟨false, 0, .data bytes marks toFree⟩]
  | apply {b b' : Bytes ω} {e : Option Excpt} (op : Op ω) :
      Obtained b → apply b op = some (b', e) → Obtained b'
  | freeze {b : Bytes ω} (on : Bool) : Obtained b → Obtained (freeze b on)
  | trim {b b' : Bytes ω} (i : Iter) : Obtained b → trim b i = some b' → Obtained b'
  | clone {b b' : Bytes ω} : Obtained b → clone b = some b' → Obtained b'

/-- All functions act on the bytes in front of the first embedded object, and no copy is longer. -/
structure Uniform (objHash : ω → UInt64) (b : Bytes ω) : Prop where
  len_eq : bytesLen b = (leadData b).length
  copy_eq : hltBytesCopy (some b) = some (.ok [bytesNew (leadData b)])
  upper_eq : hltBytesUpper (some b) = some (.ok [bytesNew ((leadData b).map toUpper)])
  lower_eq : hltBytesLower (some b) = some (.ok [bytesNew ((leadData b).map toLower)])
  cmp_eq : ∀ b', Obtained b' → ∀ fuel > (leadData b).length,
    bytesCmp fuel b b' = some (cmpLists (leadData b) (leadData b'))
  hash_eq : bytesHash objHash b = bytesHash objHash (lead b)
  toRaw_eq : ∀ dstLen, ∃ notNull,
    bytesToRaw dstLen b = some (.ok ((leadData b).take dstLen, notNull))
  iterate_eq : ∃ blocks, rawBlocks b = some (.ok blocks) ∧ blocks.flatten = leadData b
  copied_le : ∃ bytes, bytesCopyInto b = some bytes ∧ bytes.length ≤ bytesLen b
  converted_le : (bytesUpperInto b).length ≤ bytesLen b ∧ (bytesLowerInto b).length ≤ bytesLen b

/-! ## Objects that can be obtained -/

/-- What all of them have in common: where chunks can be empty, and that there is data at the end and
at the beginning. -/
structure Regular (b : Bytes ω) : Prop where
  dense : Dense b
  lastData : LastData b
  firstData : objectAt b 0 = false

section

variable {b b' : Bytes ω}

theorem Regular.of_shape (h : shape b' = shape b) (hb : Regular b) : Regular b' where
  dense := hb.dense.of_shape h
  lastData := shape_lastData h hb.lastData
  firstData := by
    rw [objectAt_shape h]
    exact hb.firstData

theorem Regular.lead_ne_nil (hb : Regular b) : lead b ≠ [] := by
  obtain ⟨c, cs, rfl⟩ := List.exists_cons_of_ne_nil hb.lastData.ne_nil
  have hc : c.isObject = false := hb.firstData
  rw [lead, List.takeWhile_cons, hc]
  exact List.cons_ne_nil c _

theorem Extends.firstData (h : Extends b b') (hne : b ≠ []) (hb : objectAt b 0 = false) :
    objectAt b' 0 = false := by
  obtain ⟨c, cs, rfl⟩ := List.exists_cons_of_ne_nil hne
  have hshape := h.shape_getElem? (show (c :: cs)[0]? = some c from rfl)
  rw [shape, List.getElem?_map] at hshape
  obtain ⟨c', hc', heq⟩ := Option.map_eq_some_iff.mp hshape
  rw [objectAt, hc', Option.any_some, (Prod.mk.inj heq).1]
  exact hb

theorem trim_firstData {i : Iter} (hb : objectAt b 0 = false) (h : trim b i = some b') :
    objectAt b' 0 = false := by
  rw [trim] at h
  split at h
  · cases h
    exact hb
  · cases b with
    | nil => cases h
    | cons c cs =>
      obtain ⟨frozen, offset, content⟩ := c
      cases content with
      | object _ => cases h
      | data bytes marks toFree =>
        rw [trimTo] at h
        split at h
        · cases h
          rfl
        · split at h
          · cases h
            rfl
          · cases h

theorem obtained_regular (h : Obtained b) : Regular b := by
  induction h with
  | filled bytes marks toFree => exact ⟨dense_single _, lastData_concat [] rfl, rfl⟩
  | apply op _ happly ih =>
    exact ⟨apply_dense ih.dense happly, apply_lastData ih.lastData happly,
      (apply_extends happly).firstData ih.lastData.ne_nil ih.firstData⟩
  | freeze on _ ih =>
    apply ih.of_shape
    rw [shape, shape, freeze, List.map_map]
    rfl
  | trim i _ htrim ih =>
    exact ⟨trim_dense ih.dense htrim, trim_lastData ih.lastData htrim,
      trim_firstData ih.firstData htrim⟩
  | @clone b b' _ hclone ih =>
    obtain ⟨hyes, hno⟩ := clone_spec ih.lastData
    by_cases hok : LoopOk [] 0 b ∧ (isFrozen b = false ∨ b.length = 1)
    · obtain ⟨b'', hb'', hplains, _⟩ := hyes hok
      cases hclone.symm.trans hb''
      apply ih.of_shape
      rw [← plains_shape b', hplains, rebuilt_shape]
    · cases hclone.symm.trans (hno hok)

/-! ## Copies -/

theorem leadData_cons (c : Chunk ω) (cs : Bytes ω) :
    leadData (c :: cs) = if c.isObject then [] else c.bytes ++ leadData cs := by
  rw [leadData, lead, List.takeWhile_cons]
  cases c.isObject with
  | true => rfl
  | false => rfl

theorem convertLoop_eq (convert : UInt8 → UInt8) (b : Bytes ω) :
    convertLoop convert b = (leadData b).map convert := by
  induction b with
  | nil => rfl
  | cons c cs ih =>
    rw [convertLoop, leadData_cons]
    split
    · rfl
    · rw [ih, List.map_append]

theorem bytesCopyInto_data (h : ∀ c ∈ b, c.isObject = false) :
    bytesCopyInto b = some (leadData b) := by
  induction b with
  | nil => rfl
  | cons c cs ih =>
    have hc := h c List.mem_cons_self
    rw [bytesCopyInto, leadData_cons, hc, ih fun c hc => h c (List.mem_cons_of_mem _ hc)]
    rfl

theorem bytesCopyInto_object {c : Chunk ω} (hc : c ∈ b) (hobj : c.isObject = true) :
    bytesCopyInto b = none := by
  induction b with
  | nil => cases hc
  | cons d cs ih =>
    rw [bytesCopyInto]
    cases List.mem_cons.mp hc with
    | inl hfirst => rw [← hfirst, if_pos hobj]
    | inr hrest =>
      rw [ih hrest]
      split
      · rfl
      · rfl

theorem filled_outcome {len : ℕ} {bytes : List UInt8} (hlen : bytes.length = len) :
    ((destNew none len).bind fun d => (d.fill bytes).bind Dest.outcome) =
      some (.ok [(bytesNew bytes : Chunk ω)]) := by
  have hroom : bytes.length ≤
      (List.replicate (if len = 0 then 32 else len) (none : Option UInt8)).length := by
    rw [List.length_replicate]
    split <;> omega
  obtain ⟨r, hr, htake⟩ := memcpy_take hroom
  have hfill : (⟨List.replicate (if len = 0 then 32 else len) none, none, len⟩ : Dest).fill bytes =
      some ⟨r, none, len⟩ := Option.map_eq_some_iff.mpr ⟨r, hr, rfl⟩
  rw [destNew, Option.bind_some, hfill, Option.bind_some]
  apply outcome_written ⟨r, none, len⟩
  rw [← hlen]
  exact htake

theorem bytesCopy_data (h : ∀ c ∈ b, c.isObject = false) :
    hltBytesCopy (some b) = some (.ok [bytesNew (leadData b)]) := by
  have hcopy := bytesCopyInto_data h
  rw [← filled_outcome (leadData_length b)]
  unfold hltBytesCopy
  simp only [hcopy, Option.bind_eq_bind, Option.bind_some]

theorem bytesConvert_eq (convert : UInt8 → UInt8) (b : Bytes ω) :
    hltBytesConvert (convertLoop convert) (some b) =
      some (.ok [bytesNew ((leadData b).map convert)]) := by
  rw [← filled_outcome (show ((leadData b).map convert).length = bytesLen b by
    rw [List.length_map, leadData_length]), ← convertLoop_eq]
  rfl

/-! ## Comparing -/

/-- An iterator in front of some bytes that are left of the data before the first object. -/
inductive Stands (b : Bytes ω) (i : Iter) : List UInt8 → Prop
  | done (h : isEnd b i = true) : Stands b i []
  | at (hk : i.bytes < (lead b).length) (hcur : i.cur < lenAt b i.bytes) :
      Stands b i (((lead b)[i.bytes].bytes.drop i.cur) ++
        ((lead b).drop (i.bytes + 1)).flatMap Chunk.bytes)

theorem isEnd_inside {i : Iter} (hk : i.bytes < (lead b).length) (hcur : i.cur < lenAt b i.bytes) :
    isEnd b i = false := by
  rw [isEnd, decide_eq_false_iff_not, atObject, objectAt_lead hk]
  intro h
  cases h with
  | inl hlast => exact absurd hlast.2 (by omega)
  | inr hobj => cases hobj

theorem Stands.isEnd_eq {i : Iter} {l : List UInt8} (h : Stands b i l) :
    isEnd b i = decide (l = []) := by
  cases h with
  | done h => rw [h, decide_eq_true rfl]
  | «at» hk hcur =>
    rw [isEnd_inside hk hcur, decide_eq_false]
    intro hnil
    have hlen := congrArg List.length (List.append_eq_nil_iff.mp hnil).1
    rw [lenAt_lead hk, Chunk.len] at hcur
    rw [List.length_drop, List.length_nil] at hlen
    omega

theorem Stands.inside {i : Iter} {x : UInt8} {l : List UInt8} (h : Stands b i (x :: l)) :
    ∃ (hk : i.bytes < (lead b).length) (hcur : i.cur < (lead b)[i.bytes].bytes.length),
      x = (lead b)[i.bytes].bytes[i.cur] ∧
      l = (lead b)[i.bytes].bytes.drop (i.cur + 1) ++
        ((lead b).drop (i.bytes + 1)).flatMap Chunk.bytes := by
  generalize hl : x :: l = m at h
  cases h with
  | done h => cases hl
  | «at» hk hcur =>
    rw [lenAt_lead hk] at hcur
    rw [List.drop_eq_getElem_cons hcur, List.cons_append] at hl
    obtain ⟨hx, hrest⟩ := List.cons.inj hl
    exact ⟨hk, hcur, hx, hrest⟩

theorem Stands.byteAt_eq {i : Iter} {x : UInt8} {l : List UInt8} (h : Stands b i (x :: l)) :
    byteAt b i = some x := by
  obtain ⟨hk, hcur, hx, _⟩ := h.inside
  rw [byteAt, getElem?_lead hk, Option.bind_some, List.getElem?_eq_getElem hcur, hx]

theorem stands_chunk {k : ℕ} (hk : k < (lead b).length) (hlen : lenAt b k ≠ 0) :
    Stands b ⟨k, 0⟩ (((lead b).drop k).flatMap Chunk.bytes) := by
  have h : Stands b ⟨k, 0⟩ _ := Stands.at hk (Nat.pos_of_ne_zero hlen)
  rw [List.drop_eq_getElem_cons hk, List.flatMap_cons]
  exact h

theorem isEnd_last_chunk {k : ℕ} (hk : tailData b b.length k = k) : isEnd b ⟨k, lenAt b k⟩ = true := by
  rw [isEnd, decide_eq_true_iff]
  exact Or.inl ⟨hk.symm, le_rfl⟩

theorem Stands.incr {i : Iter} {x : UInt8} {l : List UInt8} (hb : Regular b)
    (h : Stands b i (x :: l)) : Stands b (incrOnce b i) l := by
  obtain ⟨hk, hcur, _, hl⟩ := h.inside
  have hcur' : i.cur < lenAt b i.bytes := by
    rw [lenAt_lead hk]
    exact hcur
  rw [incrOnce, isEnd_inside hk hcur', if_neg Bool.false_ne_true]
  split
  · rename_i hnext
    rw [hl]
    exact Stands.at (i := ⟨i.bytes, i.cur + 1⟩) hk hnext
  · rename_i hlast
    rw [lenAt_lead hk, Chunk.len] at hlast
    rw [List.drop_eq_nil_of_le (by omega), List.nil_append] at hl
    split
    · rename_i hend
      rw [hl, List.drop_eq_nil_of_le (by have := lead_length_le b; omega)]
      exact Stands.done (isEnd_last_chunk (tailData_end b.length i.bytes (by omega)))
    · rename_i hmore
      rw [not_not] at hmore
      rw [hl]
      by_cases hlead : i.bytes + 1 < (lead b).length
      · apply stands_chunk hlead
        have hdense := hb.dense i.bytes hmore
        rw [objectAt_lead hlead, objectAt_lead hk] at hdense
        simpa using hdense
      · have heq : i.bytes + 1 = (lead b).length := by omega
        rw [List.drop_eq_nil_of_le (by omega)]
        apply Stands.done
        rw [isEnd, decide_eq_true_iff]
        right
        rw [atObject, heq]
        apply objectAt_behind
        omega

theorem begin_stands (hb : Regular b) : Stands b (bytesBegin b) (leadData b) := by
  have hpos := List.length_pos_iff.mpr hb.lead_ne_nil
  by_cases hempty : isEmpty b
  · have hnil : leadData b = [] := by
      apply List.flatMap_eq_nil_iff.mpr
      intro c hc
      exact List.length_eq_zero_iff.mp (isEmpty_iff.mp hempty c hc)
    rw [hnil, bytesBegin, if_pos hempty, bytesEnd]
    apply Stands.done
    apply isEnd_last_chunk
    rw [tailData_lead b.length 0 hpos (by have := lead_length_le b; omega)]
    exact tailData_lead b.length _ (by omega) (by omega)
  · obtain ⟨j, hj, hbefore, hdata, hvisible⟩ := exists_first hempty
    rw [(bytesBegin_first hempty hj hbefore hdata).1, ← visible_flatten, hvisible,
      ← List.flatMap_def]
    exact stands_chunk hj hdata

theorem cmpLoop_eq {b1 b2 : Bytes ω} (hb1 : Regular b1) (hb2 : Regular b2) (fuel : ℕ) {p1 p2 : Iter}
    {l1 l2 : List UInt8} (h1 : Stands b1 p1 l1) (h2 : Stands b2 p2 l2) (hfuel : l1.length < fuel) :
    cmpLoop b1 b2 fuel p1 p2 = some (cmpLists l1 l2) := by
  induction fuel generalizing p1 p2 l1 l2 with
  | zero => omega
  | succ fuel ih =>
    rw [cmpLoop, h1.isEnd_eq, h2.isEnd_eq]
    cases l1 with
    | nil => cases l2 <;> rfl
    | cons x l1 =>
      cases l2 with
      | nil => rfl
      | cons y l2 =>
        rw [if_neg (by simp), if_neg (by simp), h1.byteAt_eq, h2.byteAt_eq]
        simp only [Option.bind_eq_bind, Option.bind_some, cmpLists]
        split
        · rfl
        · exact ih (h1.incr hb1) (h2.incr hb2) (Nat.lt_of_succ_lt_succ hfuel)

theorem bytesCmp_eq {b1 b2 : Bytes ω} (hb1 : Regular b1) (hb2 : Regular b2) {fuel : ℕ}
    (hfuel : (leadData b1).length < fuel) :
    bytesCmp fuel b1 b2 = some (cmpLists (leadData b1) (leadData b2)) := by
  have hempty : ∀ b : Bytes ω, isEmpty b = decide (leadData b = []) := by
    intro b
    rw [Bool.eq_iff_iff, decide_eq_true_iff, isEmpty_iff, leadData, List.flatMap_eq_nil_iff]
    apply forall₂_congr
    intro c _
    exact List.length_eq_zero_iff
  rw [bytesCmp, hempty b1, hempty b2,
    cmpLoop_eq hb1 hb2 fuel (begin_stands hb1) (begin_stands hb2) hfuel]
  cases leadData b1 with
  | nil => cases leadData b2 <;> rfl
  | cons x l => cases leadData b2 <;> rfl

/-! ## Copying out -/

theorem readChunk_lead {k n : ℕ} (hk : k < (lead b).length) (hn : n ≤ (lead b)[k].len) :
    readChunk b k 0 n = some ((lead b)[k].bytes.take n) := by
  have hobj : (lead b)[k].isObject = false := lead_data (List.getElem_mem hk)
  rw [readChunk, getElem?_lead hk, Option.bind_eq_bind, Option.bind_some, hobj,
    if_neg Bool.false_ne_true, if_pos (by omega), List.drop_zero]

theorem take_chunk (bytes rest : List UInt8) (room : ℕ) :
    bytes.take (min bytes.length room) ++
        rest.take (room - (bytes.take (min bytes.length room)).length) =
      (bytes ++ rest).take room := by
  rw [List.take_append, List.length_take, min_comm, ← List.take_take, List.take_length]
  congr 2
  omega

theorem subLoop_eq (same : Bool) (i2 : Iter) (fuel : ℕ) {k : ℕ} (room : ℕ)
    (hk : k ≤ (lead b).length) (hfuel : (lead b).length < k + fuel) :
    subLoop b same i2 true fuel k room =
      some (.ok ((((lead b).drop k).flatMap Chunk.bytes).take room)) := by
  induction fuel generalizing k room with
  | zero => omega
  | succ fuel ih =>
    rw [subLoop]
    by_cases hlead : k < (lead b).length
    · have hobj : (lead b)[k].isObject = false := lead_data (List.getElem_mem hlead)
      have hread := readChunk_lead (n := min (lead b)[k].len room) hlead (by omega)
      rw [List.drop_eq_getElem_cons hlead, List.flatMap_cons, ← take_chunk]
      simp only [getElem?_lead hlead, hobj, hread, ih _ hlead (by omega), Option.bind_eq_bind,
        Option.bind_some, Bool.false_eq_true, if_false, or_true, if_true]
      rfl
    · obtain rfl : k = (lead b).length := by omega
      rw [List.drop_eq_nil_of_le le_rfl, List.flatMap_nil, List.take_nil]
      cases hget : b[(lead b).length]? with
      | none => rfl
      | some c =>
        have hobj := objectAt_behind (List.getElem?_eq_some_iff.mp hget).1
        rw [objectAt, hget, Option.any_some] at hobj
        dsimp only
        rw [if_pos hobj]

theorem end_chunk {k : ℕ} (hk : k < (lead b).length)
    (h : k = (normalizeIter b (bytesEnd b)).bytes) :
    (normalizeIter b (bytesEnd b)).cur = (lead b)[k].len ∧ k + 1 = (lead b).length := by
  rw [normalizeIter_bytesEnd (List.length_pos_iff.mp (by omega))] at h ⊢
  by_cases hlt : (lead b).length < b.length
  · rw [if_pos hlt] at h
    exact absurd h hk.ne
  · rw [if_neg hlt] at h ⊢
    dsimp only at h ⊢
    rw [← h, lenAt_lead hk]
    exact ⟨rfl, by omega⟩

theorem subRawInternal_eq {k dstLen len : ℕ} (hk : k < (lead b).length)
    (hnotEnd : isEnd b ⟨k, 0⟩ = false) (hdst : dstLen ≠ 0) (hlen : len ≠ 0) :
    subRawInternal dstLen len b (some ⟨k, 0⟩) ⟨none, some (normalizeIter b (bytesEnd b))⟩ =
      some (.ok ((((lead b).drop k).flatMap Chunk.bytes).take dstLen, dstLen ≤ len)) := by
  have hle := lead_length_le b
  have hend := isEnd_end (b := b) (List.length_pos_iff.mp (by omega))
  have hchunk := end_chunk hk
  generalize normalizeIter b (bytesEnd b) = e at hend hchunk ⊢
  have hread (n : ℕ) : readChunk b k 0 (min (lead b)[k].len n) =
      some ((lead b)[k].bytes.take (min (lead b)[k].len n)) := readChunk_lead hk (by omega)
  rw [List.drop_eq_getElem_cons hk, List.flatMap_cons, ← take_chunk]
  simp only [subRawInternal, hdst, hlen, hnotEnd, if_false, Bool.false_eq_true, false_and,
    Option.isNone_none, true_or, decide_true, if_true, true_and, Option.getD_some, Nat.not_lt_zero,
    Nat.sub_zero, hend, lenAt_lead hk, hread, Option.bind_eq_bind, Option.bind_some,
    subLoop_eq true e (b.length + 1) _ hk (by omega)]
  split
  · rename_i hsame
    obtain ⟨hcur, hlast⟩ := hchunk hsame
    rw [hcur, hread, List.drop_eq_nil_of_le hlast.ge, List.flatMap_nil, List.take_nil,
      List.append_nil]
    rfl
  · rfl

theorem isEmpty_leadData (h : isEmpty b) : leadData b = [] := by
  apply List.flatMap_eq_nil_iff.mpr
  intro c hc
  exact List.length_eq_zero_iff.mp (isEmpty_iff.mp h c hc)

theorem bytesToRaw_eq (hb : Regular b) (dstLen : ℕ) :
    ∃ notNull, bytesToRaw dstLen b = some (.ok ((leadData b).take dstLen, notNull)) := by
  have hend := isEnd_end hb.lead_ne_nil
  by_cases hempty : isEmpty b
  · have hbegin : bytesBegin b = bytesEnd b := if_pos hempty
    have hdiff : iteratorBytesDiff b ((some (bytesBegin b)).map (normalizeIter b))
        ((⟨none, some (bytesEnd b)⟩ : Pos ω).normalize b) = 0 := by
      simp only [hbegin, Option.map_some, iteratorBytesDiff, hend, if_true]
    exists true
    rw [bytesToRaw, bytesSubRaw, hdiff, isEmpty_leadData hempty, List.take_nil, subRawInternal.eq_def]
    split
    · rfl
    · rfl
  · obtain ⟨k, hk, hbefore, hdata, hvisible⟩ := exists_first hempty
    obtain ⟨hbegin, hnorm, hnotEnd⟩ := bytesBegin_first hempty hk hbefore hdata
    have hlen : iteratorBytesDiff b (some ⟨k, 0⟩)
        ((⟨none, some (bytesEnd b)⟩ : Pos ω).normalize b) ≠ 0 := by
      have hobj : (lead b)[k].isObject = false := lead_data (List.getElem_mem hk)
      have hpos : bytesLen (b.drop k) ≠ 0 := by
        have hget := List.getElem?_eq_some_iff.mp (getElem?_lead hk)
        rw [List.drop_eq_getElem_cons hget.1, hget.2, bytesLen, hobj, if_neg Bool.false_ne_true]
        rw [lenAt_lead hk] at hdata
        omega
      simp only [iteratorBytesDiff, hnotEnd, Pos.normalize, Pos.object, Option.map_some,
        Option.getD_none, hend, Nat.zero_min, Nat.sub_zero, Bool.false_eq_true, if_false, if_true]
      exact hpos
    rw [bytesToRaw, bytesSubRaw, hbegin, Option.map_some, hnorm, ← visible_flatten, hvisible,
      ← List.flatMap_def]
    by_cases hdst : dstLen = 0
    · exists false
      rw [hdst, List.take_zero, subRawInternal.eq_def, if_pos rfl]
      rw [decide_eq_false hlen]
    · exact ⟨_, subRawInternal_eq hk hnotEnd hdst hlen⟩

/-! ## All of them -/

theorem lead_eq (h : ∀ c ∈ b, c.isObject = false) : lead b = b := by
  apply List.takeWhile_eq_self_iff.mpr
  intro c hc
  rw [h c hc]
  rfl

theorem uniform_of_data {objHash : ω → UInt64} (hb : Regular b) (h : ∀ c ∈ b, c.isObject = false) :
    Uniform objHash b where
  len_eq := (leadData_length b).symm
  copy_eq := bytesCopy_data h
  upper_eq := bytesConvert_eq toUpper b
  lower_eq := bytesConvert_eq toLower b
  cmp_eq := by
    intro b' hb' fuel hfuel
    exact bytesCmp_eq hb (obtained_regular hb') hfuel
  hash_eq := by rw [lead_eq h]
  toRaw_eq := bytesToRaw_eq hb
  iterate_eq := ⟨visible b, rawBlocks_eq hb.lead_ne_nil, visible_flatten b⟩
  copied_le := ⟨leadData b, bytesCopyInto_data h, (leadData_length b).le⟩
  converted_le := by
    rw [bytesUpperInto, bytesLowerInto, convertLoop_eq, convertLoop_eq, List.length_map,
      List.length_map, leadData_length]
    exact ⟨le_rfl, le_rfl⟩

end

/-- The functions agree on a bytes object if and only if no object is embedded. -/
theorem uniform_iff (objHash : ω → UInt64) (b : Bytes ω) (hb : Obtained b) :
    Uniform objHash b ↔ ∀ c ∈ b, c.isObject = false := by
  constructor
  · intro h c hc
    by_contra hobj
    obtain ⟨bytes, hcopy, _⟩ := h.copied_le
    rw [bytesCopyInto_object hc (by simpa using hobj)] at hcopy
    cases hcopy
  · exact uniform_of_data (obtained_regular hb)

theorem uniform_appended :
    Uniform (fun _ : Unit => 0) [bytesNew [97], ⟨false, 1, .data [98] .null true⟩] := by
  apply (uniform_iff _ _ _).mpr
  · decide
  · exact Obtained.apply (.appendRaw [98]) (Obtained.filled [97] .null false) rfl

/-- An object and then two bytes, appended to two others. -/
def mixed : Bytes Unit :=
  [bytesNew [97, 98], ⟨false, 2, .object ()⟩, ⟨false, 2, .data [] .null false⟩,
    ⟨false, 2, .data [99, 100] .null true⟩]

theorem mixed_not_uniform : Obtained mixed ∧ ¬ Uniform (fun _ => 0) mixed := by
  constructor
  · have hobj := Obtained.apply (.appendObject (some ())) (Obtained.filled [97, 98] .null false) rfl
    exact Obtained.apply (.appendRaw [99, 100]) hobj rfl
  · intro h
    obtain ⟨bytes, hcopy, _⟩ := h.copied_le
    cases hcopy

end Hilti.Embedded
