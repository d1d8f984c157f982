import Mathlib
import Hilti.Embedded.Extending

/-!
# Block by block

`hlt_bytes_iterate_raw` goes over the bytes in front of the first embedded object: its blocks are the
chunks from the first one on that is not empty.  Only the first chunk, and one right behind an object,
can be empty.
-/

namespace Hilti.Embedded

set_option autoImplicit false

variable {ω : Type}

/-! ## Blocks -/

/-- `hlt_bytes_block`.  `start` and `stop` are relative to the start of the chunk. -/
structure RawBlock where
  bytes : ℕ
  start : ℕ
  stop : ℕ
  next : Option ℕ
  deriving DecidableEq

def nextAt (b : Bytes ω) (k : ℕ) : Option ℕ :=
  if k + 1 < b.length then some (k + 1) else none

/-- There is another block behind this one. -/
def RawBlock.more (b : Bytes ω) (block : RawBlock) : Bool :=
  block.next.any fun n => !objectAt b n

def RawBlock.read (b : Bytes ω) (block : RawBlock) : List UInt8 :=
  (((b[block.bytes]?).elim [] Chunk.bytes).take block.stop).drop block.start

/-- `hlt_bytes_iterate_raw`: the block, and whether the cookie is not null.  The cookie of a call is
the block of the one before. -/
def iterateRaw (b : Bytes ω) (cookie : Option RawBlock) (p1 p2 : Iter) :
    Except Excpt (RawBlock × Bool) :=
  let p1 := normalizeIter b p1
  let p2 := normalizeIter b p2
  match cookie with
  | none =>
    if isEnd b p1 ∧ isEnd b p2 ∨ p1 = p2 then .ok (⟨p1.bytes, p1.cur, p1.cur, none⟩, false)
    else if isEnd b p1 ∧ ¬ isEnd b p2 then .error .valueError
    else
      let block := if p1.bytes ≠ p2.bytes
        then ⟨p1.bytes, p1.cur, lenAt b p1.bytes, nextAt b p1.bytes⟩
        else ⟨p1.bytes, p1.cur, p2.cur, none⟩
      .ok (block, block.more b)
  | some block =>
    match block.next with
    | none => .ok (block, false)
    | some n =>
      if objectAt b n then .ok (block, false)
      else
        let block := if n ≠ p2.bytes then ⟨n, 0, lenAt b n, nextAt b n⟩ else ⟨n, 0, p2.cur, none⟩
        .ok (block, block.more b)

/-- The blocks that a loop comes across until the cookie is null. -/
def rawLoop (b : Bytes ω) (p1 p2 : Iter) : ℕ → Option RawBlock →
    Option (Except Excpt (List (List UInt8)))
  | 0, _ => none
  | fuel + 1, cookie =>
    match iterateRaw b cookie p1 p2 with
    | .error e => some (.error e)
    | .ok (block, more) =>
      if more then (rawLoop b p1 p2 fuel (some block)).map fun rest =>
        rest.map fun blocks => block.read b :: blocks
      else some (.ok [block.read b])

/-- The blocks from the beginning to the end. -/
def rawBlocks (b : Bytes ω) : Option (Except Excpt (List (List UInt8))) :=
  rawLoop b (bytesBegin b) (bytesEnd b) (b.length + 1) none

/-! ## The data in front of the first object -/

/-- The chunks in front of the first object. -/
def lead (b : Bytes ω) : Bytes ω :=
  b.takeWhile fun c => !c.isObject

/-- The bytes that the length of a bytes object counts. -/
def leadData (b : Bytes ω) : List UInt8 :=
  (lead b).flatMap Chunk.bytes

theorem leadData_length (b : Bytes ω) : (leadData b).length = bytesLen b := by
  induction b with
  | nil => rfl
  | cons c cs ih =>
    rw [bytesLen, leadData, lead, List.takeWhile_cons]
    cases hc : c.isObject with
    | true => rfl
    | false =>
      rw [Bool.not_false, if_pos rfl, List.flatMap_cons, List.length_append, if_neg Bool.false_ne_true]
      congr 1

/-- The chunks from the first one on that is not empty, or else an empty block. -/
def visible (b : Bytes ω) : List (List UInt8) :=
  match ((lead b).map Chunk.bytes).dropWhile List.isEmpty with
  | [] => [[]]
  | blocks => blocks

theorem flatten_dropWhile (blocks : List (List UInt8)) :
    (blocks.dropWhile List.isEmpty).flatten = blocks.flatten := by
  induction blocks with
  | nil => rfl
  | cons block blocks ih =>
    cases block with
    | nil => exact ih
    | cons x xs => rfl

theorem visible_flatten (b : Bytes ω) : (visible b).flatten = leadData b := by
  have hdrop := flatten_dropWhile ((lead b).map Chunk.bytes)
  rw [leadData, List.flatMap_def, ← hdrop, visible]
  split
  · next h => rw [h]; rfl
  · next h => rfl

/-! ## Where the chunks are -/

section

variable {b : Bytes ω}

theorem lead_prefix (b : Bytes ω) : ∃ post, b = lead b ++ post ∧ ∀ c ∈ post.head?, c.isObject := by
  refine ⟨b.dropWhile fun c => !c.isObject, (List.takeWhile_append_dropWhile).symm, fun c hc => ?_⟩
  have hnot := List.head?_dropWhile_not (fun c : Chunk ω => !c.isObject) b
  rw [Option.mem_def.mp hc] at hnot
  simpa using hnot

theorem lead_data {c : Chunk ω} (hc : c ∈ lead b) : c.isObject = false := by
  simpa using List.mem_takeWhile_imp hc

theorem lead_length_le (b : Bytes ω) : (lead b).length ≤ b.length :=
  (List.takeWhile_prefix _).length_le

theorem getElem?_lead {k : ℕ} (hk : k < (lead b).length) : b[k]? = some (lead b)[k] := by
  obtain ⟨post, hb, -⟩ := lead_prefix b
  conv_lhs => rw [hb]
  rw [List.getElem?_append_left hk, List.getElem?_eq_getElem hk]

theorem objectAt_lead {k : ℕ} (hk : k < (lead b).length) : objectAt b k = false := by
  rw [objectAt, getElem?_lead hk]
  exact lead_data (List.getElem_mem hk)

theorem lenAt_lead {k : ℕ} (hk : k < (lead b).length) : lenAt b k = (lead b)[k].len := by
  rw [lenAt, getElem?_lead hk]
  rfl

theorem objectAt_behind (h : (lead b).length < b.length) : objectAt b (lead b).length = true := by
  obtain ⟨post, hb, hpost⟩ := lead_prefix b
  cases post with
  | nil =>
    have hlen := congrArg List.length hb
    rw [List.append_nil] at hlen
    omega
  | cons c cs =>
    have hget := congrArg (fun l : Bytes ω => l[(lead b).length]?) hb
    rw [List.getElem?_append_right (Nat.le_refl _), Nat.sub_self] at hget
    rw [objectAt, hget]
    exact hpost c rfl

theorem tailData_lead (fuel k : ℕ) (hk : k < (lead b).length) (hfuel : (lead b).length ≤ k + 1 + fuel) :
    tailData b fuel k = (lead b).length - 1 := by
  have hle := lead_length_le b
  induction fuel generalizing k with
  | zero =>
    rw [tailData]
    omega
  | succ fuel ih =>
    rw [tailData]
    by_cases hnext : k + 1 < (lead b).length
    · rw [if_pos ⟨by omega, by rw [objectAt_lead hnext]; exact Bool.false_ne_true⟩]
      exact ih (k + 1) hnext (by omega)
    · rw [if_neg]
      · omega
      · rintro ⟨hlt, hnot⟩
        have hk' : k + 1 = (lead b).length := by omega
        rw [hk'] at hnot hlt
        exact hnot (objectAt_behind hlt)

theorem normalizeIter_bytesEnd (hne : lead b ≠ []) :
    normalizeIter b (bytesEnd b) = if (lead b).length < b.length then ⟨(lead b).length, 0⟩
      else ⟨(lead b).length - 1, lenAt b ((lead b).length - 1)⟩ := by
  have hpos := List.length_pos_iff.mpr hne
  have hle := lead_length_le b
  have hlast : (lead b).length - 1 < (lead b).length := by omega
  have hend : bytesEnd b = ⟨(lead b).length - 1, lenAt b ((lead b).length - 1)⟩ := by
    rw [bytesEnd, tailData_lead b.length 0 hpos (by omega)]
  obtain ⟨n, hn⟩ : ∃ n, b.length = n + 1 := ⟨b.length - 1, by omega⟩
  have hloop : normalizeLoop b b.length (bytesEnd b) 0 =
      (if (lead b).length < b.length then ⟨(lead b).length, 0⟩
        else ⟨(lead b).length - 1, lenAt b ((lead b).length - 1)⟩, 0) := by
    rw [hend, hn, normalizeLoop]
    by_cases hlt : (lead b).length < n + 1
    · rw [if_pos, if_pos hlt, Nat.sub_self, Nat.sub_add_cancel hpos]
      · cases n with
        | zero => omega
        | succ n =>
          rw [normalizeLoop, if_neg]
          rintro ⟨-, -, hobj⟩
          exact hobj (objectAt_behind (by omega))
      · refine ⟨Nat.le_refl _, by dsimp only; omega, ?_⟩
        rw [atObject, objectAt_lead hlast]
        exact Bool.false_ne_true
    · rw [if_neg, if_neg hlt]
      rintro ⟨-, hnext, -⟩
      dsimp only at hnext
      omega
  rw [normalizeIter, hloop, if_neg]
  · rfl
  · rw [hend, atObject, objectAt_lead hlast]
    exact Bool.false_ne_true

theorem normalizeLoop_to (fuel k j : ℕ) (hkj : k ≤ j) (hj : j < (lead b).length)
    (hempty : ∀ i, k ≤ i → i < j → lenAt b i = 0) (hdata : lenAt b j ≠ 0) (hfuel : j ≤ k + fuel) :
    normalizeLoop b fuel ⟨k, 0⟩ 0 = (⟨j, 0⟩, 0) := by
  have hle := lead_length_le b
  induction fuel generalizing k with
  | zero =>
    obtain rfl : k = j := by omega
    rfl
  | succ fuel ih =>
    rw [normalizeLoop]
    by_cases heq : k = j
    · subst heq
      rw [if_neg]
      rintro ⟨hge, -⟩
      exact hdata (Nat.le_zero.mp hge)
    · rw [if_pos, Nat.zero_sub, Nat.zero_add]
      · exact ih (k + 1) (by omega) (fun i hi hij => hempty i (by omega) hij) (by omega)
      · refine ⟨(hempty k (Nat.le_refl k) (by omega)).le, by dsimp only; omega, ?_⟩
        rw [atObject, objectAt_lead (show k < (lead b).length by omega)]
        exact Bool.false_ne_true

theorem isEmpty_iff : isEmpty b ↔ ∀ c ∈ lead b, c.len = 0 := by
  induction b with
  | nil => exact iff_of_true rfl fun c hc => nomatch hc
  | cons c cs ih =>
    rw [isEmpty, lead, List.takeWhile_cons]
    cases hobj : c.isObject with
    | true => simp
    | false =>
      rw [Bool.not_false, if_pos rfl, if_neg Bool.false_ne_true, List.forall_mem_cons]
      by_cases hlen : c.len = 0
      · rw [if_neg (not_not.mpr hlen)]
        exact ih.trans (iff_and_self.mpr fun _ => hlen)
      · rw [if_pos hlen]
        exact iff_of_false Bool.false_ne_true fun h => hlen h.1

theorem isEnd_end (hne : lead b ≠ []) : isEnd b (normalizeIter b (bytesEnd b)) = true := by
  have hpos := List.length_pos_iff.mpr hne
  have hle := lead_length_le b
  rw [normalizeIter_bytesEnd hne, isEnd, atObject, decide_eq_true_iff]
  split
  · next hlt => exact .inr (objectAt_behind hlt)
  · next hlt => exact .inl ⟨(tailData_lead _ _ (by dsimp only; omega) (by dsimp only; omega)).symm,
      Nat.le_refl _⟩

/-! ## Going over the blocks -/

def blockAt (b : Bytes ω) (k : ℕ) : RawBlock :=
  if k ≠ (normalizeIter b (bytesEnd b)).bytes then ⟨k, 0, lenAt b k, nextAt b k⟩
  else ⟨k, 0, (normalizeIter b (bytesEnd b)).cur, none⟩

theorem blockAt_eq {k : ℕ} (hk : k < (lead b).length) :
    blockAt b k = ⟨k, 0, lenAt b k, nextAt b k⟩ := by
  have hle := lead_length_le b
  have hne : lead b ≠ [] := List.length_pos_iff.mp (by omega)
  rw [blockAt, normalizeIter_bytesEnd hne]
  by_cases hlt : (lead b).length < b.length
  · rw [if_pos hlt, if_pos hk.ne]
  · rw [if_neg hlt]
    by_cases hlast : k = (lead b).length - 1
    · rw [if_neg (not_not.mpr hlast), ← hlast, nextAt, if_neg (by omega)]
    · rw [if_pos hlast]

theorem blockAt_read {k : ℕ} (hk : k < (lead b).length) :
    (blockAt b k).read b = (lead b)[k].bytes := by
  rw [blockAt_eq hk, RawBlock.read, lenAt_lead hk, getElem?_lead hk]
  exact List.take_length

theorem blockAt_more {k : ℕ} (hk : k < (lead b).length) :
    (blockAt b k).more b = decide (k + 1 < (lead b).length) := by
  have hle := lead_length_le b
  rw [blockAt_eq hk, RawBlock.more, nextAt, Bool.eq_iff_iff, decide_eq_true_iff]
  by_cases hnext : k + 1 < (lead b).length
  · refine iff_of_true ?_ hnext
    rw [if_pos (by omega), Option.any_some, objectAt_lead hnext]
    rfl
  · refine iff_of_false ?_ hnext
    have heq : k + 1 = (lead b).length := by omega
    by_cases hlt : k + 1 < b.length
    · rw [if_pos hlt, Option.any_some, heq, objectAt_behind (heq ▸ hlt)]
      exact Bool.false_ne_true
    · rw [if_neg hlt]
      exact Bool.false_ne_true

theorem iterateRaw_next {k : ℕ} (hk : k + 1 < (lead b).length) (p1 : Iter) :
    iterateRaw b (some (blockAt b k)) p1 (bytesEnd b) =
      .ok (blockAt b (k + 1), (blockAt b (k + 1)).more b) := by
  have hle := lead_length_le b
  have hnext : (blockAt b k).next = some (k + 1) := by
    rw [blockAt_eq (by omega), nextAt, if_pos (by omega)]
  rw [iterateRaw, hnext]
  dsimp only
  rw [objectAt_lead hk, if_neg Bool.false_ne_true]
  rfl

theorem rawLoop_from (fuel k : ℕ) (cookie : Option RawBlock) (p1 : Iter) (hk : k < (lead b).length)
    (hfuel : (lead b).length ≤ k + fuel)
    (hstep : iterateRaw b cookie p1 (bytesEnd b) = .ok (blockAt b k, (blockAt b k).more b)) :
    rawLoop b p1 (bytesEnd b) fuel cookie =
      some (.ok (((lead b).drop k).map Chunk.bytes)) := by
  induction fuel generalizing k cookie with
  | zero => omega
  | succ fuel ih =>
    rw [rawLoop, hstep, List.drop_eq_getElem_cons hk, List.map_cons]
    dsimp only
    rw [blockAt_more hk, blockAt_read hk]
    by_cases hnext : k + 1 < (lead b).length
    · rw [if_pos (decide_eq_true hnext), ih (k + 1) _ hnext (by omega) (iterateRaw_next hnext p1)]
      rfl
    · rw [if_neg (by simpa using hnext), List.drop_eq_nil_of_le (by omega)]
      rfl

theorem visible_empty (h : isEmpty b) : visible b = [[]] := by
  have hall : ((lead b).map Chunk.bytes).dropWhile List.isEmpty = [] := by
    rw [List.dropWhile_eq_nil_iff]
    intro block hblock
    obtain ⟨c, hc, rfl⟩ := List.mem_map.mp hblock
    simpa [Chunk.len] using isEmpty_iff.mp h c hc
  rw [visible, hall]

theorem exists_first (h : ¬ isEmpty b) :
    ∃ j < (lead b).length, (∀ i < j, lenAt b i = 0) ∧ lenAt b j ≠ 0 ∧
      visible b = ((lead b).drop j).map Chunk.bytes := by
  set empty : Chunk ω → Bool := fun c => c.bytes.isEmpty with hemptyDef
  set j := ((lead b).takeWhile empty).length with hj
  have hsplit := List.takeWhile_append_dropWhile (p := empty) (l := lead b)
  have hdrop : (lead b).drop j = (lead b).dropWhile empty := by
    conv_lhs => rw [← hsplit]
    rw [hj, List.drop_left]
  have hrest : (lead b).dropWhile empty ≠ [] := by
    intro hnil
    rw [List.dropWhile_eq_nil_iff] at hnil
    refine h (isEmpty_iff.mpr fun c hc => ?_)
    rw [Chunk.len, List.isEmpty_iff.mp (hnil c hc), List.length_nil]
  have hlt : j < (lead b).length := by
    by_contra hge
    rw [← hdrop, List.drop_eq_nil_of_le (Nat.le_of_not_lt hge)] at hrest
    exact hrest rfl
  refine ⟨j, hlt, fun i hi => ?_, ?_, ?_⟩
  · have hget : (lead b)[i] = ((lead b).takeWhile empty)[i] :=
      ((List.takeWhile_prefix empty).getElem hi).symm
    have hempty : empty ((lead b).takeWhile empty)[i] = true :=
      List.mem_takeWhile_imp (List.getElem_mem hi)
    rw [lenAt_lead (by omega), hget, Chunk.len, List.isEmpty_iff.mp hempty, List.length_nil]
  · have hnot := List.head?_dropWhile_not empty (lead b)
    rw [← hdrop, List.drop_eq_getElem_cons hlt, List.head?_cons] at hnot
    rw [lenAt_lead hlt, Chunk.len]
    intro hzero
    rw [hemptyDef] at hnot
    simp [List.length_eq_zero_iff.mp hzero] at hnot
  · have hmap : ((lead b).map Chunk.bytes).dropWhile List.isEmpty =
        ((lead b).drop j).map Chunk.bytes := by
      rw [hdrop, List.dropWhile_map]
      rfl
    rw [visible, hmap, List.drop_eq_getElem_cons hlt]
    rfl

theorem bytesBegin_first (hempty : ¬ isEmpty b) {j : ℕ} (hj : j < (lead b).length)
    (hbefore : ∀ i < j, lenAt b i = 0) (hdata : lenAt b j ≠ 0) :
    bytesBegin b = ⟨j, 0⟩ ∧ normalizeIter b ⟨j, 0⟩ = ⟨j, 0⟩ ∧ isEnd b ⟨j, 0⟩ = false := by
  have hle := lead_length_le b
  have hobj : atObject b ⟨j, 0⟩ = false := objectAt_lead hj
  refine ⟨?_, ?_, ?_⟩
  · rw [bytesBegin, if_neg hempty, normalizeIter,
      normalizeLoop_to b.length 0 j (Nat.zero_le j) hj (fun i _ hi => hbefore i hi) hdata (by omega),
      if_neg]
    · rfl
    · rw [atObject, objectAt_lead (show 0 < (lead b).length by omega)]
      exact Bool.false_ne_true
  · rw [normalizeIter, hobj, if_neg Bool.false_ne_true, normalizeLoop_to b.length j j (Nat.le_refl j)
      hj (fun i hi hij => absurd hij (by omega)) hdata (by omega)]
    rfl
  · rw [isEnd, hobj, decide_eq_false_iff_not]
    rintro (⟨-, hge⟩ | hfalse)
    · exact hdata (Nat.le_zero.mp hge)
    · exact Bool.false_ne_true hfalse

theorem rawBlocks_eq (hne : lead b ≠ []) : rawBlocks b = some (.ok (visible b)) := by
  have hpos := List.length_pos_iff.mpr hne
  have hle := lead_length_le b
  have hend := isEnd_end hne
  by_cases hempty : isEmpty b
  · have hbegin : bytesBegin b = bytesEnd b := if_pos hempty
    have hstep : iterateRaw b none (bytesEnd b) (bytesEnd b) =
        .ok (⟨(normalizeIter b (bytesEnd b)).bytes, (normalizeIter b (bytesEnd b)).cur,
          (normalizeIter b (bytesEnd b)).cur, none⟩, false) := by
      rw [iterateRaw]
      dsimp only
      rw [if_pos (.inr rfl)]
    rw [rawBlocks, hbegin, rawLoop, hstep, visible_empty hempty]
    dsimp only
    rw [if_neg Bool.false_ne_true, RawBlock.read, List.drop_eq_nil_of_le (List.length_take_le _ _)]
  · obtain ⟨j, hj, hbefore, hdata, hvisible⟩ := exists_first hempty
    obtain ⟨hbegin, hnorm, hnotEnd⟩ := bytesBegin_first hempty hj hbefore hdata
    have hstep : iterateRaw b none ⟨j, 0⟩ (bytesEnd b) = .ok (blockAt b j, (blockAt b j).more b) := by
      have hdiff : ¬ (⟨j, 0⟩ : Iter) = normalizeIter b (bytesEnd b) := fun heq => by
        rw [← heq, hnotEnd] at hend
        cases hend
      rw [iterateRaw]
      dsimp only
      rw [hnorm, hnotEnd, if_neg, if_neg]
      · rfl
      · exact fun h => Bool.false_ne_true h.1
      · exact fun h => h.elim (fun h => Bool.false_ne_true h.1) hdiff
    rw [rawBlocks, hbegin, rawLoop_from (b.length + 1) j none _ hj (by omega) hstep, hvisible]

end

/-! ## Empty chunks -/

def Dense (b : Bytes ω) : Prop :=
  ∀ k, k + 1 < b.length → lenAt b (k + 1) ≠ 0 ∨ objectAt b (k + 1) ∨ objectAt b k

section

variable {b b' : Bytes ω} {c : Chunk ω}

theorem dense_single (c : Chunk ω) : Dense [c] := by
  intro k hk
  rw [List.length_singleton] at hk
  omega

theorem Dense.of_shape (h : shape b' = shape b) (hb : Dense b) : Dense b' := by
  intro k hk
  rw [length_shape h] at hk
  rw [lenAt_shape h, objectAt_shape h, objectAt_shape h]
  exact hb k hk

theorem lenAt_append_left {k : ℕ} (hk : k < b.length) (cs : Bytes ω) :
    lenAt (b ++ cs) k = lenAt b k := by
  rw [lenAt, lenAt, List.getElem?_append_left hk]

theorem objectAt_append_left {k : ℕ} (hk : k < b.length) (cs : Bytes ω) :
    objectAt (b ++ cs) k = objectAt b k := by
  rw [objectAt, objectAt, List.getElem?_append_left hk]

theorem Dense.concat (hb : Dense b)
    (hc : c.len ≠ 0 ∨ c.isObject ∨ objectAt b (b.length - 1)) : Dense (b ++ [c]) := by
  intro k hk
  rw [List.length_append, List.length_singleton] at hk
  by_cases hlast : k + 1 = b.length
  · have hget : (b ++ [c])[k + 1]? = some c := by
      rw [hlast]
      exact List.getElem?_concat_length
    have hlen : lenAt (b ++ [c]) (k + 1) = c.len := by
      rw [lenAt, hget]
      rfl
    have hobj : objectAt (b ++ [c]) (k + 1) = c.isObject := by
      rw [objectAt, hget]
      rfl
    rw [show b.length - 1 = k by omega] at hc
    rw [hlen, hobj, objectAt_append_left (show k < b.length by omega)]
    exact hc
  · have hlt : k + 1 < b.length := by omega
    rw [lenAt_append_left hlt, objectAt_append_left hlt,
      objectAt_append_left (show k < b.length by omega)]
    exact hb k hlt

theorem link_dense {tail : ℕ} (hb : Dense b)
    (hc : c.len ≠ 0 ∨ c.isObject ∨ objectAt b (b.length - 1)) (h : link b tail c = some b') :
    Dense b' := by
  obtain ⟨t, -, -, -, rfl⟩ := link_eq_some h
  exact hb.concat hc

theorem appendMarkAt_dense {m : ℤ} (hb : Dense b) (h : appendMarkAt b m = some b') : Dense b' := by
  rw [appendMarkAt_eq] at h
  obtain ⟨t, ht, h⟩ := Option.bind_eq_some_iff.mp h
  obtain ⟨b₁, hb₁, h⟩ := Option.bind_eq_some_iff.mp h
  obtain ⟨t₁, ht₁, h⟩ := Option.bind_eq_some_iff.mp h
  obtain ⟨marks, -, h⟩ := Option.bind_eq_some_iff.mp h
  cases h
  have hdense : Dense b₁ := by
    split at hb₁
    · next hobj =>
      refine link_dense hb (.inr (.inr ?_)) hb₁
      rw [objectAt, ← List.getLast?_eq_getElem?, ht]
      exact hobj
    · cases hb₁
      exact hb
  refine hdense.of_shape ?_
  obtain ⟨D, rfl⟩ := List.getLast?_eq_some_iff.mp ht₁
  rw [List.dropLast_concat, shape, shape, List.map_append, List.map_append, List.map_singleton,
    List.map_singleton, Chunk.setMarks_isObject, Chunk.setMarks_len]

theorem moveMarks_dense {len : ℕ} {ms l : List ℤ} (hb : Dense b)
    (h : moveMarks len ms b = some (b', l)) : Dense b' := by
  induction ms generalizing b l with
  | nil =>
    cases h
    exact hb
  | cons m ms ih =>
    rw [moveMarks] at h
    split at h
    · obtain ⟨b₁, hmark, h⟩ := Option.bind_eq_some_iff.mp h
      obtain ⟨⟨b₂, l₂⟩, hmove, h⟩ := Option.bind_eq_some_iff.mp h
      cases h
      exact ih (appendMarkAt_dense hb hmark) hmove
    · obtain ⟨⟨b₂, l₂⟩, hmove, h⟩ := Option.bind_eq_some_iff.mp h
      cases h
      exact ih hb hmove

theorem Extends.shape_getElem? (h : Extends b b') {k : ℕ} (hk : b[k]? = some c) :
    (shape b')[k]? = some (c.isObject, c.len) := by
  obtain ⟨new, heq, -⟩ := h
  obtain ⟨hlt, -⟩ := List.getElem?_eq_some_iff.mp hk
  have hbare := congrArg (fun l => l[k]?) heq
  rw [List.getElem?_append_left (by simpa using hlt), List.getElem?_map, List.getElem?_map,
    hk] at hbare
  obtain ⟨c', hc', hsame⟩ := Option.map_eq_some_iff.mp hbare
  have hobj := congrArg Chunk.isObject hsame
  have hlen := congrArg Chunk.len hsame
  rw [Chunk.bare, Chunk.bare, Chunk.setMarks_isObject, Chunk.setMarks_isObject] at hobj
  rw [Chunk.bare, Chunk.bare, Chunk.setMarks_len, Chunk.setMarks_len] at hlen
  rw [shape, List.getElem?_map, hc', Option.map_some, hobj, hlen]

theorem addChunk_dense {tail : ℕ} (hb : Dense b) (hfrozen : c.frozen = false)
    (hc : c.len ≠ 0 ∨ c.isObject ∨ objectAt b (b.length - 1)) (h : addChunk b tail c = some b') :
    Dense b' := by
  obtain ⟨t, ht, h⟩ := Option.bind_eq_some_iff.mp h
  obtain ⟨b₁, hlink, h⟩ := Option.bind_eq_some_iff.mp h
  have hb₁ := link_dense hb hc hlink
  split at h
  · cases h
    exact hb₁
  · obtain ⟨⟨b₂, l⟩, hmove, h⟩ := Option.bind_eq_some_iff.mp h
    cases h
    refine (moveMarks_dense hb₁ hmove).of_shape ?_
    have hextends := (link_extends hfrozen hlink).trans (moveMarks_extends hmove)
    rw [shape, List.map_set, Chunk.setMarks_isObject, Chunk.setMarks_len]
    obtain ⟨hlt, hget⟩ := List.getElem?_eq_some_iff.mp (hextends.shape_getElem? ht)
    rw [← hget]
    exact List.set_getElem_self hlt
  · cases h

theorem addChunk_at {tail : ℕ} (h : addChunk b tail c = some b') :
    (shape b')[b.length]? = some (c.isObject, c.len) ∧ tail + 1 = b.length := by
  obtain ⟨t, ht, h⟩ := Option.bind_eq_some_iff.mp h
  obtain ⟨b₁, hlink, h⟩ := Option.bind_eq_some_iff.mp h
  obtain ⟨d, -, hlast, -, rfl⟩ := link_eq_some hlink
  have hget : (b ++ [d.behind c])[b.length]? = some (d.behind c) := List.getElem?_concat_length
  refine ⟨?_, hlast⟩
  split at h
  · cases h
    exact Extends.shape_getElem? (c := d.behind c) (Extends.refl _) hget
  · obtain ⟨⟨b₂, l⟩, hmove, h⟩ := Option.bind_eq_some_iff.mp h
    cases h
    rw [shape, List.map_set, List.getElem?_set_ne (by omega)]
    exact Extends.shape_getElem? (c := d.behind c) (moveMarks_extends hmove) hget
  · cases h

theorem appendRawChunk_dense {raw : List UInt8} {e : Option Excpt} (hb : Dense b)
    (hfrozen : c.frozen = false) (hlen : c.len = raw.length)
    (h : appendRawChunk b raw c = some (b', e)) : Dense b' := by
  unfold appendRawChunk at h
  split at h
  · cases h
    exact hb
  · next hraw =>
    split at h
    · cases h
      exact hb
    · obtain ⟨b₁, hadd, h⟩ := Option.bind_eq_some_iff.mp h
      cases h
      exact addChunk_dense hb hfrozen (.inl (hlen ▸ hraw)) hadd

theorem appendLoop_length {other : Bytes ω} {data data' : List UInt8} {marks marks' : Marks}
    (h : appendLoop other data marks = some (data', marks')) :
    data'.length = data.length + bytesLen other := by
  induction other generalizing data marks with
  | nil =>
    cases h
    rfl
  | cons c cs ih =>
    rw [appendLoop] at h
    rw [bytesLen]
    split at h
    · next hobj =>
      cases h
      rw [if_pos hobj, Nat.add_zero]
    · next hobj =>
      obtain ⟨marks₁, -, h⟩ := Option.bind_eq_some_iff.mp h
      rw [ih h, List.length_append, if_neg hobj, Chunk.len, Nat.add_assoc]

theorem apply_dense {op : Op ω} {e : Option Excpt} (hb : Dense b)
    (h : apply b op = some (b', e)) : Dense b' := by
  cases op with
  | append other =>
    have h : append b other = some (b', e) := h
    unfold append at h
    split at h
    · cases h
      exact hb
    · split at h
      · cases h
        exact hb
      · split at h
        · cases h
          exact hb
        · next hother =>
          obtain ⟨⟨data, marks⟩, hloop, h⟩ := Option.bind_eq_some_iff.mp h
          obtain ⟨b₁, hadd, h⟩ := Option.bind_eq_some_iff.mp h
          cases h
          have hdata := appendLoop_length hloop
          rw [List.length_nil, Nat.zero_add] at hdata
          refine addChunk_dense hb rfl (.inl ?_) hadd
          rw [← hdata] at hother
          exact hother
  | appendRaw raw => exact appendRawChunk_dense (c := bytesNewReuse raw) hb rfl rfl h
  | appendRawCopy raw => exact appendRawChunk_dense (c := bytesNew raw) hb rfl rfl h
  | appendObject obj =>
    cases obj with
    | none =>
      cases h
      exact hb
    | some obj =>
      obtain ⟨b₁, hobj, h⟩ := Option.bind_eq_some_iff.mp h
      obtain ⟨b₂, hadd, h⟩ := Option.bind_eq_some_iff.mp h
      cases h
      have hb₁ := addChunk_dense (c := bytesNewObject obj) hb rfl (.inr (.inl rfl)) hobj
      refine addChunk_dense hb₁ rfl (.inr (.inr ?_)) hadd
      obtain ⟨-, hlast⟩ := addChunk_at (c := bytesNew []) hadd
      obtain ⟨hget, -⟩ := addChunk_at (c := bytesNewObject obj) hobj
      rw [show b₁.length - 1 = b.length by omega, objectAt]
      rw [shape, List.getElem?_map] at hget
      obtain ⟨c, hc, heq⟩ := Option.map_eq_some_iff.mp hget
      rw [hc]
      exact congrArg Prod.fst heq
  | appendMark =>
    obtain ⟨b₁, hmark, h⟩ := Option.bind_eq_some_iff.mp h
    cases h
    exact appendMarkAt_dense hb hmark

/-! ## Trimming -/

def Stopped (b : Bytes ω) (i : Iter) : Prop :=
  objectAt b i.bytes = false → lenAt b i.bytes ≤ i.cur → b.length ≤ i.bytes + 1

theorem incrByLoop_stopped (beyondEnd : Bool) (fuel : ℕ) (i : Iter) (n : ℕ)
    (hfuel : b.length ≤ i.bytes + fuel) : Stopped b (incrByLoop b beyondEnd fuel i n) := by
  induction fuel generalizing i n with
  | zero =>
    intro _ _
    rw [incrByLoop]
    omega
  | succ fuel ih =>
    rw [incrByLoop]
    split
    · next hin => exact fun _ hle => absurd hin (by dsimp only at hle; omega)
    · split
      · next hstop =>
        intro hobj _
        dsimp only at hobj ⊢
        rcases hstop with hlast | hat
        · omega
        · rw [atObject, hobj] at hat
          cases hat
      · exact ih _ _ (by dsimp only; omega)

theorem normalizeLoop_stopped (fuel : ℕ) (i : Iter) (incr : ℕ) (hfuel : b.length ≤ i.bytes + fuel) :
    Stopped b (normalizeLoop b fuel i incr).1 := by
  induction fuel generalizing i incr with
  | zero =>
    intro _ _
    rw [normalizeLoop]
    dsimp only
    omega
  | succ fuel ih =>
    rw [normalizeLoop]
    split
    · exact ih _ _ (by dsimp only; omega)
    · next hstop =>
      intro hobj hle
      dsimp only at hobj hle ⊢
      by_contra hlast
      refine hstop ⟨hle, by omega, ?_⟩
      rw [atObject, hobj]
      exact Bool.false_ne_true

theorem normalizeIter_stopped (b : Bytes ω) (i : Iter) : Stopped b (normalizeIter b i) := by
  rw [normalizeIter]
  split
  · next hat =>
    intro hobj
    rw [atObject, hobj] at hat
    cases hat
  · have hloop := normalizeLoop_stopped (b := b) b.length i 0 (by omega)
    dsimp only
    split
    · rw [incrBy]
      split
      · exact hloop
      · exact incrByLoop_stopped true (b.length + 1) _ _ (by omega)
    · exact hloop

theorem tailData_end (fuel k : ℕ) (hk : b.length ≤ k + 1) : tailData b fuel k = k := by
  cases fuel with
  | zero => rfl
  | succ fuel =>
    rw [tailData, if_neg]
    rintro ⟨hlt, -⟩
    omega

theorem Chunk.trimmed_len {c : Chunk ω} (hc : c.isObject = false) (cur : ℕ) :
    (c.trimmed cur).len = c.len - cur := by
  obtain ⟨frozen, offset, body⟩ := c
  cases body with
  | object obj => cases hc
  | data bytes marks toFree => exact List.length_drop

theorem trimTo_dense {i : Iter} (hb : Dense b)
    (hin : objectAt b i.bytes = false → i.cur < lenAt b i.bytes) (h : trimTo i b = some b') :
    Dense b' := by
  match b, hb, hin, h with
  | ⟨frozen, offset, .data bytes marks toFree⟩ :: cs, hb, hin, h =>
    rw [trimTo] at h
    split at h
    · cases h
      intro k hk
      have hdense := hb k hk
      cases k with
      | zero => exact hdense
      | succ k => exact hdense
    · next hzero =>
      obtain ⟨n, hn⟩ : ∃ n, i.bytes = n + 1 := ⟨i.bytes - 1, by omega⟩
      rw [hn, Nat.add_sub_cancel] at h
      split at h
      · next c cs' hdrop =>
        cases h
        have hget : ∀ j, cs[n + j]? = (c :: cs')[j]? := fun j => by
          rw [← hdrop, List.getElem?_drop]
        intro k hk
        cases k with
        | zero =>
          rw [hn] at hin
          by_cases hobj : c.isObject
          · exact .inr (.inl ((c.trimmed_isObject i.cur).trans hobj))
          · have hobj : c.isObject = false := by simpa using hobj
            have hcut : i.cur < c.len := by
              have hcell : cs[n]? = some c := hget 0
              have hlt := hin (by rw [objectAt, List.getElem?_cons_succ, hcell]; exact hobj)
              rw [lenAt, List.getElem?_cons_succ, hcell] at hlt
              exact hlt
            refine .inl ?_
            change (c.trimmed i.cur).len ≠ 0
            rw [Chunk.trimmed_len hobj]
            omega
        | succ k =>
          have hlen := congrArg List.length hdrop
          rw [List.length_drop, List.length_cons] at hlen
          rw [List.length_cons, List.length_cons] at hk
          have hdense := hb (n + 1 + k) (by rw [List.length_cons]; omega)
          have hcell : cs[n + 1 + k]? = cs'[k]? := by
            rw [show n + 1 + k = n + (k + 1) by omega, hget]
            rfl
          have hcell' : (c :: cs')[k]?.any Chunk.isObject =
              (c.trimmed i.cur :: cs')[k]?.any Chunk.isObject := by
            cases k with
            | zero => exact (c.trimmed_isObject i.cur).symm
            | succ k => rfl
          rw [lenAt, objectAt, objectAt, List.getElem?_cons_succ, hcell,
            show n + 1 + k = n + k + 1 by omega, List.getElem?_cons_succ, hget, hcell'] at hdense
          exact hdense
      · cases h
  | ⟨frozen, offset, .object obj⟩ :: cs, hb, hin, h => cases h
  | [], hb, hin, h => cases h

theorem trim_dense {i : Iter} (hb : Dense b) (h : trim b i = some b') : Dense b' := by
  rw [trim] at h
  split at h
  · cases h
    exact hb
  · next hend =>
    refine trimTo_dense hb (fun hobj => ?_) h
    by_contra hge
    have hlast := normalizeIter_stopped b i hobj (Nat.le_of_not_lt hge)
    refine hend ⟨?_, ?_⟩
    · rw [isEnd, decide_eq_true_iff]
      exact .inl ⟨(tailData_end _ _ hlast).symm, Nat.le_of_not_lt hge⟩
    · rw [atObject, hobj]
      exact Bool.false_ne_true

/-! ## Bytes objects there can be -/

theorem made_dense (h : Made b) : Dense b := by
  induction h with
  | new data => exact dense_single _
  | newReuse data => exact dense_single _
  | apply op _ happly ih => exact apply_dense ih happly
  | freeze on _ ih =>
    refine ih.of_shape ?_
    rw [shape, shape, freeze, List.map_map]
    rfl
  | trim i _ htrim ih => exact trim_dense ih htrim
  | @clone b b' hmade hclone ih =>
    obtain ⟨hyes, hno⟩ := clone_spec (made_lastData hmade)
    by_cases hok : LoopOk [] 0 b ∧ (isFrozen b = false ∨ b.length = 1)
    · obtain ⟨b'', hb'', hplains, -⟩ := hyes hok
      rw [hclone] at hb''
      cases hb''
      refine ih.of_shape ?_
      rw [← plains_shape b', hplains, rebuilt_shape]
    · rw [hno hok] at hclone
      cases hclone

theorem made_lead (h : Made b) : lead b ≠ [] := by
  have hdata := (made_coherent h).data
  obtain ⟨c, cs, rfl⟩ := List.exists_cons_of_ne_nil (made_lastData h).ne_nil
  rw [lead, List.takeWhile_cons, hdata c rfl]
  exact List.cons_ne_nil c _

theorem made_visible (h : Made b) : visible b = [[]] ∨ ∀ block ∈ visible b, block ≠ [] := by
  by_cases hempty : isEmpty b
  · exact .inl (visible_empty hempty)
  · obtain ⟨j, -, -, hdata, hvisible⟩ := exists_first hempty
    refine .inr fun block hblock => ?_
    rw [hvisible] at hblock
    obtain ⟨c, hc, rfl⟩ := List.mem_map.mp hblock
    obtain ⟨i, hi, rfl⟩ := List.mem_iff_getElem.mp hc
    rw [List.length_drop] at hi
    rw [List.getElem_drop]
    have hlt : j + i < (lead b).length := by omega
    have hlen : lenAt b (j + i) ≠ 0 := by
      cases i with
      | zero => exact hdata
      | succ i =>
        have hle := lead_length_le b
        have hdense := made_dense h (j + i) (by omega)
        rw [show j + i + 1 = j + (i + 1) by omega, objectAt_lead hlt,
          objectAt_lead (show j + i < (lead b).length by omega)] at hdense
        simpa using hdense
    rw [lenAt_lead hlt] at hlen
    exact fun hnil => hlen (by rw [Chunk.len, hnil, List.length_nil])

end

end Hilti.Embedded
