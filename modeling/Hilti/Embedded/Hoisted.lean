import Mathlib.Data.List.ReduceOption
import Hilti.Embedded.Copies
import Hilti.Embedded.Copying

/-!
# Hoisted bytes objects

The functions of `libhilti/bytes.c` that fill an object on the stack, which has 32 bytes of its own,
beside those that allocate one.  Memory that nothing has been written to is `none`.  A function has no
result where it writes outside of the memory it may write to, or where the object is made of memory
that nothing has been written to.

The object on the stack is cleared before its first use, as `_hlt_bytes_init_hoisted` assumes, and is
not one of the arguments.
-/

namespace Hilti.Embedded

set_option autoImplicit false

variable {ω : Type}

/-! ## Destinations -/

abbrev Cells := List (Option UInt8)

/-- A bytes object that is being filled: the memory behind its header, the memory that has been
allocated for it, if any, and the distance from `start` to `end`. -/
structure Dest where
  data : Cells
  toFree : Option Cells
  len : ℕ

/-- The memory from `start` on. -/
def Dest.area (d : Dest) : Cells :=
  d.toFree.getD d.data

/-- `__hlt_bytes_hoisted`. -/
structure Hoisted extends Dest where
  inline : data.length = 32

/-- `memcpy` into some memory. -/
def memcpy (area : Cells) (bytes : List UInt8) : Option Cells :=
  if bytes.length ≤ area.length then some (bytes.map some ++ area.drop bytes.length) else none

/-- What the loops write from `start` on. -/
def Dest.fill (d : Dest) (bytes : List UInt8) : Option Dest :=
  match d.toFree with
  | some area => (memcpy area bytes).map fun area => { d with toFree := some area }
  | none => (memcpy d.data bytes).map fun area => { d with data := area }

/-- The bytes object that is there in the end. -/
def Dest.chunk (d : Dest) : Option (Chunk ω) :=
  if none ∈ d.area.take d.len then none
  else some ⟨false, 0, .data (d.area.take d.len).reduceOption .null d.toFree.isSome⟩

/-- `_hlt_bytes_init`, with `_hlt_bytes_new`. -/
def destNew (data : Option (List UInt8)) (len : ℕ) : Option Dest :=
  let area := List.replicate (if len = 0 then 32 else len) none
  match data with
  | none => some ⟨area, none, len⟩
  | some bytes => (memcpy area bytes).map fun area => ⟨area, none, len⟩

/-- `_hlt_bytes_init_hoisted`. -/
def destInitHoisted (dst : Hoisted) (data : Option (List UInt8)) (len : ℕ) : Option Dest :=
  let toFree := if len ≤ 32 then none else some (List.replicate len (some 0))
  match data with
  | none => some ⟨dst.data, toFree, len⟩
  | some bytes => (memcpy dst.data bytes).map fun area => ⟨area, toFree, len⟩

/-! ## The functions -/

/-- What a function leaves: an object, or an exception.  Where an exception has been set, nothing is
said about the object on the stack. -/
abbrev Outcome (ω : Type) := Except Excpt (Bytes ω)

def Dest.outcome (d : Dest) : Option (Outcome ω) :=
  d.chunk.map fun c => .ok [c]

/-- The rest of a function on the stack, after which the exception has been set or not. -/
def Dest.hoistedOutcome (d : Dest) (e : Option Excpt) : Option (Outcome ω) :=
  match e with
  | some e => some (.error e)
  | none => d.outcome

/-- `hlt_bytes_len`, with the exception that it sets. -/
def lenOf (b : Option (Bytes ω)) : ℕ :=
  b.elim 0 bytesLen

def nullExcpt (b : Option (Bytes ω)) : Option Excpt :=
  if b.isNone then some .nullReference else none

/-- `hlt_bytes_new`. -/
def hltBytesNew : Option (Outcome ω) := do
  let d ← destNew none 0
  d.outcome

/-- `hlt_bytes_new_hoisted`. -/
def hltBytesNewHoisted (dst : Hoisted) : Option (Outcome ω) := do
  let d ← destInitHoisted dst none 0
  d.outcome

/-- `hlt_bytes_new_from_data_copy`. -/
def hltBytesNewFromDataCopy (data : List UInt8) : Option (Outcome ω) := do
  let d ← destNew (some data) data.length
  d.outcome

/-- `hlt_bytes_new_from_data_copy_hoisted`. -/
def hltBytesNewFromDataCopyHoisted (dst : Hoisted) (data : List UInt8) : Option (Outcome ω) := do
  let d ← destInitHoisted dst (some data) data.length
  d.outcome

/-- `hlt_bytes_concat`. -/
def hltBytesConcat (b1 b2 : Option (Bytes ω)) : Option (Outcome ω) :=
  match b1, b2 with
  | some b1, some b2 => do
    let d ← destNew none (bytesLen b1 + bytesLen b2)
    let d ← d.fill (bytesConcatInto b1 b2)
    d.outcome
  | _, _ => some (.error .nullReference)

/-- `hlt_bytes_concat_hoisted`. -/
def hltBytesConcatHoisted (dst : Hoisted) (b1 b2 : Option (Bytes ω)) : Option (Outcome ω) := do
  let d ← destInitHoisted dst none (lenOf b1 + lenOf b2)
  let d ← d.fill (bytesConcatInto (b1.getD []) (b2.getD []))
  d.hoistedOutcome (nullExcpt b1 <|> nullExcpt b2)

/-- `hlt_bytes_copy`. -/
def hltBytesCopy (b : Option (Bytes ω)) : Option (Outcome ω) :=
  match b with
  | some b => do
    let d ← destNew none (bytesLen b)
    let bytes ← bytesCopyInto b
    let d ← d.fill bytes
    d.outcome
  | none => some (.error .nullReference)

/-- `hlt_bytes_copy_hoisted`. -/
def hltBytesCopyHoisted (dst : Hoisted) (b : Option (Bytes ω)) : Option (Outcome ω) := do
  let d ← destInitHoisted dst none (lenOf b)
  let bytes ← bytesCopyInto (b.getD [])
  let d ← d.fill bytes
  d.hoistedOutcome (nullExcpt b)

/-- `hlt_bytes_upper` and `hlt_bytes_lower`. -/
def hltBytesConvert (into : Bytes ω → List UInt8) (b : Option (Bytes ω)) : Option (Outcome ω) :=
  match b with
  | some b => do
    let d ← destNew none (bytesLen b)
    let d ← d.fill (into b)
    d.outcome
  | none => some (.error .nullReference)

/-- `hlt_bytes_upper_hoisted` and `hlt_bytes_lower_hoisted`. -/
def hltBytesConvertHoisted (into : Bytes ω → List UInt8) (dst : Hoisted) (b : Option (Bytes ω)) :
    Option (Outcome ω) := do
  let d ← destInitHoisted dst none (lenOf b)
  let d ← d.fill (into (b.getD []))
  d.hoistedOutcome (nullExcpt b)

def hltBytesUpper : Option (Bytes ω) → Option (Outcome ω) :=
  hltBytesConvert bytesUpperInto

def hltBytesUpperHoisted : Hoisted → Option (Bytes ω) → Option (Outcome ω) :=
  hltBytesConvertHoisted bytesUpperInto

def hltBytesLower : Option (Bytes ω) → Option (Outcome ω) :=
  hltBytesConvert bytesLowerInto

def hltBytesLowerHoisted : Hoisted → Option (Bytes ω) → Option (Outcome ω) :=
  hltBytesConvertHoisted bytesLowerInto

def Pos.normalize (b : Bytes ω) (p : Pos ω) : Pos ω :=
  ⟨p.other, p.iter.map (normalizeIter (p.object b))⟩

/-- `hlt_bytes_sub`.  No object is returned where `__hlt_bytes_sub_raw_internal` returns null without
an exception. -/
def hltBytesSub (b : Bytes ω) (p1 : Option Iter) (p2 : Pos ω) : Option (Outcome ω) :=
  let p1 := p1.map (normalizeIter b)
  let p2 := p2.normalize b
  let len := iteratorBytesDiff b p1 p2
  do
    let d ← destNew none len
    if len = 0 then d.outcome
    else
      match ← subRawInternal len len b p1 p2 with
      | .error e => some (.error e)
      | .ok (bytes, notNull) =>
        let d ← d.fill bytes
        if notNull then d.outcome else none

/-- `hlt_bytes_sub_hoisted`. -/
def hltBytesSubHoisted (dst : Hoisted) (b : Bytes ω) (p1 : Option Iter) (p2 : Pos ω) :
    Option (Outcome ω) :=
  let p1 := p1.map (normalizeIter b)
  let p2 := p2.normalize b
  let len := iteratorBytesDiff b p1 p2
  do
    let d ← destInitHoisted dst none len
    if len = 0 then d.outcome
    else
      match ← subRawInternal len len b p1 p2 with
      | .error e => d.hoistedOutcome (some e)
      | .ok (bytes, _) =>
        let d ← d.fill bytes
        d.outcome

/-- `hlt_bytes_strip`. -/
def hltBytesStrip (b : Option (Bytes ω)) (side : Side) (pat : Option (Bytes ω)) :
    Option (Outcome ω) := do
  let (start, stop) ← stripCalcIters b side pat
  hltBytesSub (b.getD []) start ⟨none, stop⟩

/-- `hlt_bytes_strip_hoisted`. -/
def hltBytesStripHoisted (dst : Hoisted) (b : Option (Bytes ω)) (side : Side)
    (pat : Option (Bytes ω)) : Option (Outcome ω) := do
  let (start, stop) ← stripCalcIters b side pat
  hltBytesSubHoisted dst (b.getD []) start ⟨none, stop⟩

/-- `_hlt_bytes_join_into`, with the exception that has been set last.  The elements of the list are
given as what they are encoded to. -/
def bytesJoinInto (sep : Option (Bytes ω)) :
    List (Option (Bytes ω)) → Bool → Bytes ω → Option Excpt → Option (Bytes ω × Option Excpt)
  | [], _, dst, e => some (dst, e)
  | bo :: l, first, dst, e => do
    let (dst, e) ← if first then some (dst, e) else
      (append dst sep).map fun r => (r.1, r.2 <|> e)
    let (dst, e) ← (append dst bo).map fun r => (r.1, r.2 <|> e)
    bytesJoinInto sep l false dst e

def joined (dst : Option (Outcome ω)) (sep : Option (Bytes ω)) (l : List (Option (Bytes ω))) :
    Option (Outcome ω) := do
  match ← dst with
  | .error e => some (.error e)
  | .ok dst =>
    let (dst, e) ← bytesJoinInto sep l true dst none
    some (e.elim (.ok dst) .error)

/-- `hlt_bytes_join`. -/
def hltBytesJoin (sep : Option (Bytes ω)) (l : List (Option (Bytes ω))) : Option (Outcome ω) :=
  joined hltBytesNew sep l

/-- `hlt_bytes_join_hoisted`. -/
def hltBytesJoinHoisted (dst : Hoisted) (sep : Option (Bytes ω)) (l : List (Option (Bytes ω))) :
    Option (Outcome ω) :=
  joined (hltBytesNewHoisted dst) sep l

/-! ## One destination holds what the other one holds -/

/-- The second memory is at least as large, and has what has been written to the first one. -/
def Covers (a a' : Cells) : Prop :=
  a.length ≤ a'.length ∧ ∀ (i : ℕ) (x : UInt8), a[i]? = some (some x) → a'[i]? = some (some x)

theorem covers_replicate {n : ℕ} {a : Cells} (hn : n ≤ a.length) :
    Covers (List.replicate n none) a := by
  refine ⟨by rw [List.length_replicate]; exact hn, ?_⟩
  intro i x h
  rw [List.getElem?_replicate] at h
  split at h
  · cases h
  · cases h

theorem memcpy_length {a r : Cells} {bytes : List UInt8} (h : memcpy a bytes = some r) :
    r.length = a.length := by
  unfold memcpy at h
  split at h
  · cases h
    rw [List.length_append, List.length_map, List.length_drop]
    omega
  · cases h

theorem memcpy_covers {a a' r : Cells} {bytes : List UInt8} (hc : Covers a a')
    (h : memcpy a bytes = some r) : ∃ r', memcpy a' bytes = some r' ∧ Covers r r' := by
  have hlen := memcpy_length h
  unfold memcpy at h
  split at h
  · rename_i hroom
    have hroom' : bytes.length ≤ a'.length := hroom.trans hc.1
    have h' : memcpy a' bytes = some (bytes.map some ++ a'.drop bytes.length) := if_pos hroom'
    refine ⟨_, h', ?_, ?_⟩
    · rw [hlen, memcpy_length h']
      exact hc.1
    · cases h
      intro i x hi
      rw [List.getElem?_append] at hi ⊢
      split
      · rename_i hlt
        rw [if_pos hlt] at hi
        exact hi
      · rename_i hge
        rw [if_neg hge, List.getElem?_drop] at hi
        rw [List.getElem?_drop]
        exact hc.2 _ x hi
  · cases h

/-- The second object is to be as long as the first one. -/
structure Dest.CoveredBy (d d' : Dest) : Prop where
  len_eq : d'.len = d.len
  room : d.len ≤ d.area.length
  covers : Covers d.area d'.area

theorem Dest.fill_eq (d : Dest) (bytes : List UInt8) {r : Dest} (h : d.fill bytes = some r) :
    r.len = d.len ∧ memcpy d.area bytes = some r.area := by
  unfold Dest.fill at h
  unfold Dest.area
  split at h
  · rename_i area harea
    obtain ⟨a, ha, hr⟩ := Option.map_eq_some_iff.mp h
    rw [harea, ← hr]
    exact ⟨rfl, ha⟩
  · rename_i hnone
    obtain ⟨a, ha, hr⟩ := Option.map_eq_some_iff.mp h
    rw [hnone, ← hr]
    exact ⟨rfl, by rw [hnone]; exact ha⟩

theorem Dest.exists_fill (d : Dest) {bytes : List UInt8} (hroom : bytes.length ≤ d.area.length) :
    ∃ r, d.fill bytes = some r := by
  unfold Dest.fill
  unfold Dest.area at hroom
  cases htf : d.toFree with
  | some area =>
    rw [htf] at hroom
    have hwrite : memcpy area bytes = some _ := if_pos hroom
    exact ⟨_, Option.map_eq_some_iff.mpr ⟨_, hwrite, rfl⟩⟩
  | none =>
    rw [htf] at hroom
    have hwrite : memcpy d.data bytes = some _ := if_pos hroom
    exact ⟨_, Option.map_eq_some_iff.mpr ⟨_, hwrite, rfl⟩⟩

theorem Dest.CoveredBy.fill {d d' r : Dest} {bytes : List UInt8} (hc : d.CoveredBy d')
    (h : d.fill bytes = some r) : ∃ r', d'.fill bytes = some r' ∧ r.CoveredBy r' := by
  obtain ⟨hlen, harea⟩ := d.fill_eq bytes h
  obtain ⟨a', ha', hcovers⟩ := memcpy_covers hc.covers harea
  have hroom : bytes.length ≤ d'.area.length := by
    unfold memcpy at ha'
    split at ha'
    · assumption
    · cases ha'
  obtain ⟨r', hr'⟩ := d'.exists_fill hroom
  obtain ⟨hlen', harea'⟩ := d'.fill_eq bytes hr'
  have heq : r'.area = a' := Option.some.inj (harea'.symm.trans ha')
  refine ⟨r', hr', ?_, ?_, by rw [heq]; exact hcovers⟩
  · rw [hlen', hlen, hc.len_eq]
  · rw [hlen, memcpy_length harea]
    exact hc.room

/-! ## Equal objects -/

/-- A chunk, but for where its data is. -/
def Chunk.held (c : Chunk ω) : Chunk ω :=
  match c.body with
  | .data bytes marks _ => { c with body := .data bytes marks false }
  | .object _ => c

/-- What can be seen of two bytes objects is the same. -/
structure SameBytes (b b' : Bytes ω) : Prop where
  chunks : b'.map Chunk.held = b.map Chunk.held
  content_eq : content b' = content b
  len_eq : bytesLen b' = bytesLen b
  begin_eq : bytesBegin b' = bytesBegin b
  end_eq : bytesEnd b' = bytesEnd b

inductive SameOutcome : Outcome ω → Outcome ω → Prop
  | object {b b' : Bytes ω} (h : SameBytes b b') : SameOutcome (.ok b) (.ok b')
  | exception (e : Excpt) : SameOutcome (.error e) (.error e)

theorem SameOutcome.refl (o : Outcome ω) : SameOutcome o o := by
  cases o with
  | ok b => exact SameOutcome.object ⟨rfl, rfl, rfl, rfl, rfl⟩
  | error e => exact SameOutcome.exception e

theorem sameBytes_data (bytes : List UInt8) (marks : Marks) (toFree toFree' : Bool) :
    SameBytes (ω := ω) [⟨false, 0, .data bytes marks toFree⟩] [⟨false, 0, .data bytes marks toFree'⟩] where
  chunks := rfl
  content_eq := rfl
  len_eq := rfl
  begin_eq := bytesBegin_shape rfl
  end_eq := rfl

theorem Dest.CoveredBy.outcome {d d' : Dest} (hc : d.CoveredBy d') {r : Outcome ω}
    (h : d.outcome = some r) : ∃ r', d'.outcome = some r' ∧ SameOutcome r r' := by
  obtain ⟨c, hchunk, hr⟩ := Option.map_eq_some_iff.mp h
  unfold Dest.chunk at hchunk
  split at hchunk
  · cases hchunk
  · rename_i hdefined
    have htake : d'.area.take d'.len = d.area.take d.len := by
      apply List.ext_getElem?
      intro i
      rw [List.getElem?_take, List.getElem?_take, hc.len_eq]
      split
      · rename_i hlt
        have hget : i < d.area.length := lt_of_lt_of_le hlt hc.room
        cases hcell : d.area[i] with
        | none =>
          apply absurd _ hdefined
          apply List.mem_iff_getElem?.mpr ⟨i, ?_⟩
          rw [List.getElem?_take, if_pos hlt, List.getElem?_eq_getElem hget, hcell]
        | some x =>
          have hsome : d.area[i]? = some (some x) := by
            rw [List.getElem?_eq_getElem hget, hcell]
          rw [hsome]
          exact hc.covers.2 i x hsome
      · rfl
    have hchunk' : d'.chunk =
        some (⟨false, 0, .data (d.area.take d.len).reduceOption .null d'.toFree.isSome⟩ : Chunk ω) := by
      unfold Dest.chunk
      rw [htake, if_neg hdefined]
    refine ⟨_, by rw [Dest.outcome, hchunk']; rfl, ?_⟩
    cases hchunk
    rw [← hr]
    exact SameOutcome.object (sameBytes_data _ _ _ _)

/-! ## One function does what the other one does -/

/-- Where the function that allocates has a result, the one on the stack has the same. -/
def Follows (r r' : Option (Outcome ω)) : Prop :=
  ∀ o, r = some o → ∃ o', r' = some o' ∧ SameOutcome o o'

theorem init_covered (dst : Hoisted) (len : ℕ) : ∃ d d', destNew none len = some d ∧
    destInitHoisted dst none len = some d' ∧ d.CoveredBy d' := by
  refine ⟨_, _, rfl, rfl, rfl, ?_, ?_⟩
  · simp only [Dest.area, Option.getD_none, List.length_replicate]
    split <;> omega
  · apply covers_replicate
    have hinline := dst.inline
    unfold Dest.area
    by_cases hlen : len ≤ 32
    · simp only [if_pos hlen, Option.getD_none, hinline]
      split <;> omega
    · simp only [if_neg hlen, Option.getD_some, List.length_replicate]
      split <;> omega

theorem destNew_len {len : ℕ} {d : Dest} (h : destNew none len = some d) : d.len = len := by
  cases h
  rfl

theorem new_follows (dst : Hoisted) : Follows (ω := ω) hltBytesNew (hltBytesNewHoisted dst) := by
  intro o h
  obtain ⟨d, d', hd, hd', hc⟩ := init_covered dst 0
  rw [hltBytesNew, hd] at h
  rw [hltBytesNewHoisted, hd']
  exact hc.outcome h

theorem Dest.CoveredBy.filled {d d' : Dest} (hc : d.CoveredBy d') (bytes : List UInt8) :
    Follows (ω := ω) ((d.fill bytes).bind Dest.outcome) ((d'.fill bytes).bind Dest.outcome) := by
  intro o h
  obtain ⟨r, hr, h⟩ := Option.bind_eq_some_iff.mp h
  obtain ⟨r', hr', hc'⟩ := hc.fill hr
  obtain ⟨o', ho', hsame⟩ := hc'.outcome h
  exact ⟨o', Option.bind_eq_some_iff.mpr ⟨r', hr', ho'⟩, hsame⟩

theorem concatLoop_length (b : Bytes ω) : (concatLoop b).length = bytesLen b := by
  induction b with
  | nil => rfl
  | cons c cs ih =>
    rw [concatLoop, bytesLen]
    split
    · rfl
    · rw [List.length_append, ih, Chunk.len]

theorem filled_exception {d d' : Dest} (hc : d.CoveredBy d') {bytes : List UInt8}
    (hlen : bytes.length ≤ d.len) (e : Excpt) :
    (d'.fill bytes).bind (fun r => r.hoistedOutcome (some e)) = some (.error e : Outcome ω) := by
  obtain ⟨r, hr⟩ := d'.exists_fill ((hlen.trans hc.room).trans hc.covers.1)
  exact Option.bind_eq_some_iff.mpr ⟨r, hr, rfl⟩

theorem concat_follows (dst : Hoisted) (b1 b2 : Option (Bytes ω)) :
    Follows (hltBytesConcat b1 b2) (hltBytesConcatHoisted dst b1 b2) := by
  obtain ⟨d, d', hd, hd', hc⟩ := init_covered dst (lenOf b1 + lenOf b2)
  have hlen : (bytesConcatInto (b1.getD []) (b2.getD [])).length ≤ d.len := by
    rw [destNew_len hd, bytesConcatInto, List.length_append, concatLoop_length, concatLoop_length]
    cases b1 <;> cases b2 <;> exact le_rfl
  rw [hltBytesConcatHoisted, hd']
  cases b1 with
  | none =>
    intro o h
    cases h
    exact ⟨_, filled_exception hc hlen _, SameOutcome.exception _⟩
  | some b1 =>
    cases b2 with
    | none =>
      intro o h
      cases h
      exact ⟨_, filled_exception hc hlen _, SameOutcome.exception _⟩
    | some b2 =>
      change destNew none (bytesLen b1 + bytesLen b2) = some d at hd
      rw [hltBytesConcat, hd]
      exact hc.filled (bytesConcatInto b1 b2)

theorem copy_follows (dst : Hoisted) (b : Option (Bytes ω)) :
    Follows (hltBytesCopy b) (hltBytesCopyHoisted dst b) := by
  obtain ⟨d, d', hd, hd', hc⟩ := init_covered dst (lenOf b)
  rw [hltBytesCopyHoisted, hd']
  cases b with
  | none =>
    intro o h
    cases h
    exact ⟨_, filled_exception hc (Nat.zero_le _) _, SameOutcome.exception _⟩
  | some b =>
    change destNew none (bytesLen b) = some d at hd
    rw [hltBytesCopy, hd]
    intro o h
    change (bytesCopyInto b).bind (fun bytes => (d.fill bytes).bind Dest.outcome) = some o at h
    obtain ⟨bytes, hbytes, h⟩ := Option.bind_eq_some_iff.mp h
    obtain ⟨o', ho', hsame⟩ := hc.filled bytes o h
    refine ⟨o', ?_, hsame⟩
    change (bytesCopyInto b).bind (fun bytes => (d'.fill bytes).bind Dest.outcome) = some o'
    exact Option.bind_eq_some_iff.mpr ⟨bytes, hbytes, ho'⟩

theorem convert_follows {into : Bytes ω → List UInt8} (hinto : into [] = []) (dst : Hoisted)
    (b : Option (Bytes ω)) :
    Follows (hltBytesConvert into b) (hltBytesConvertHoisted into dst b) := by
  obtain ⟨d, d', hd, hd', hc⟩ := init_covered dst (lenOf b)
  rw [hltBytesConvertHoisted, hd']
  cases b with
  | none =>
    intro o h
    cases h
    exact ⟨_, filled_exception hc (by rw [Option.getD_none, hinto]; exact Nat.zero_le _) _,
      SameOutcome.exception _⟩
  | some b =>
    change destNew none (bytesLen b) = some d at hd
    rw [hltBytesConvert, hd]
    exact hc.filled (into b)

theorem sub_follows (dst : Hoisted) (b : Bytes ω) (p1 : Option Iter) (p2 : Pos ω) :
    Follows (hltBytesSub b p1 p2) (hltBytesSubHoisted dst b p1 p2) := by
  unfold hltBytesSub hltBytesSubHoisted
  dsimp only
  obtain ⟨d, d', hd, hd', hc⟩ :=
    init_covered dst (iteratorBytesDiff b (p1.map (normalizeIter b)) (p2.normalize b))
  rw [hd, hd']
  intro o h
  simp only [Option.bind_eq_bind, Option.bind_some] at h ⊢
  split at h
  · rename_i hzero
    rw [if_pos hzero]
    exact hc.outcome h
  · rename_i hzero
    rw [if_neg hzero]
    obtain ⟨r, hr, h⟩ := Option.bind_eq_some_iff.mp h
    rw [hr, Option.bind_some]
    cases r with
    | error e =>
      cases h
      exact ⟨_, rfl, SameOutcome.exception e⟩
    | ok written =>
      obtain ⟨bytes, notNull⟩ := written
      apply hc.filled bytes o
      cases notNull with
      | true => exact h
      | false =>
        obtain ⟨_, _, h⟩ := Option.bind_eq_some_iff.mp h
        cases h

theorem strip_follows (dst : Hoisted) (b : Option (Bytes ω)) (side : Side) (pat : Option (Bytes ω)) :
    Follows (hltBytesStrip b side pat) (hltBytesStripHoisted dst b side pat) := by
  intro o h
  obtain ⟨iters, hiters, h⟩ := Option.bind_eq_some_iff.mp h
  obtain ⟨o', ho', hsame⟩ := sub_follows dst (b.getD []) iters.1 ⟨none, iters.2⟩ o h
  exact ⟨o', Option.bind_eq_some_iff.mpr ⟨iters, hiters, ho'⟩, hsame⟩

theorem join_follows (dst : Hoisted) (sep : Option (Bytes ω)) (l : List (Option (Bytes ω))) :
    Follows (hltBytesJoin sep l) (hltBytesJoinHoisted dst sep l) := by
  have hnew : hltBytesNewHoisted (ω := ω) dst = hltBytesNew := rfl
  intro o h
  rw [hltBytesJoin] at h
  rw [hltBytesJoinHoisted, hnew]
  exact ⟨o, h, SameOutcome.refl o⟩

/-! ## All of them -/

/-- The functions of which there are two versions, with their arguments. -/
inductive Call (ω : Type) where
  | new
  | newFromDataCopy (data : List UInt8)
  | concat (b1 b2 : Option (Bytes ω))
  | copy (b : Option (Bytes ω))
  | sub (b : Bytes ω) (p1 : Option Iter) (p2 : Pos ω)
  | upper (b : Option (Bytes ω))
  | lower (b : Option (Bytes ω))
  | strip (b : Option (Bytes ω)) (side : Side) (pat : Option (Bytes ω))
  | join (sep : Option (Bytes ω)) (l : List (Option (Bytes ω)))

def Call.allocating : Call ω → Option (Outcome ω)
  | .new => hltBytesNew
  | .newFromDataCopy data => hltBytesNewFromDataCopy data
  | .concat b1 b2 => hltBytesConcat b1 b2
  | .copy b => hltBytesCopy b
  | .sub b p1 p2 => hltBytesSub b p1 p2
  | .upper b => hltBytesUpper b
  | .lower b => hltBytesLower b
  | .strip b side pat => hltBytesStrip b side pat
  | .join sep l => hltBytesJoin sep l

def Call.hoisted (dst : Hoisted) : Call ω → Option (Outcome ω)
  | .new => hltBytesNewHoisted dst
  | .newFromDataCopy data => hltBytesNewFromDataCopyHoisted dst data
  | .concat b1 b2 => hltBytesConcatHoisted dst b1 b2
  | .copy b => hltBytesCopyHoisted dst b
  | .sub b p1 p2 => hltBytesSubHoisted dst b p1 p2
  | .upper b => hltBytesUpperHoisted dst b
  | .lower b => hltBytesLowerHoisted dst b
  | .strip b side pat => hltBytesStripHoisted dst b side pat
  | .join sep l => hltBytesJoinHoisted dst sep l

/-- Data that is given to the function fits into the object's own memory. -/
def Call.Fits : Call ω → Prop
  | .newFromDataCopy data => data.length ≤ 32
  | _ => True

theorem outcome_written (d : Dest) {data : List UInt8} (h : d.area.take d.len = data.map some) :
    d.outcome = some (.ok [(⟨false, 0, .data data .null d.toFree.isSome⟩ : Chunk ω)]) := by
  have hnone : none ∉ data.map some := by
    intro hmem
    obtain ⟨x, _, hx⟩ := List.mem_map.mp hmem
    cases hx
  have hdata : (data.map some).reduceOption = data := by
    rw [List.reduceOption, List.filterMap_map]
    exact List.filterMap_some
  rw [Dest.outcome, Dest.chunk, h, if_neg hnone, hdata]
  rfl

theorem memcpy_take {area : Cells} {data : List UInt8} (h : data.length ≤ area.length) :
    ∃ r, memcpy area data = some r ∧ r.take data.length = data.map some := by
  refine ⟨_, if_pos h, ?_⟩
  apply List.take_left'
  rw [List.length_map]

theorem newFromDataCopy_eq (data : List UInt8) :
    hltBytesNewFromDataCopy (ω := ω) data = some (.ok [bytesNew data]) := by
  have hroom : data.length ≤
      (List.replicate (if data.length = 0 then 32 else data.length) (none : Option UInt8)).length := by
    rw [List.length_replicate]
    split <;> omega
  obtain ⟨r, hr, htake⟩ := memcpy_take hroom
  have hd : destNew (some data) data.length = some ⟨r, none, data.length⟩ :=
    Option.map_eq_some_iff.mpr ⟨r, hr, rfl⟩
  rw [hltBytesNewFromDataCopy, hd]
  exact outcome_written ⟨r, none, data.length⟩ htake

theorem newFromDataCopyHoisted_fits (dst : Hoisted) {data : List UInt8} (h : data.length ≤ 32) :
    hltBytesNewFromDataCopyHoisted (ω := ω) dst data = some (.ok [bytesNew data]) := by
  obtain ⟨r, hr, htake⟩ := memcpy_take (h.trans dst.inline.ge)
  have hd : destInitHoisted dst (some data) data.length = some ⟨r, none, data.length⟩ := by
    apply Option.map_eq_some_iff.mpr ⟨r, hr, ?_⟩
    rw [if_pos h]
  rw [hltBytesNewFromDataCopyHoisted, hd]
  exact outcome_written ⟨r, none, data.length⟩ htake

theorem newFromDataCopyHoisted_long (dst : Hoisted) {data : List UInt8} (h : 32 < data.length) :
    hltBytesNewFromDataCopyHoisted (ω := ω) dst data = none := by
  have hroom : memcpy dst.data data = none := by
    apply if_neg
    rw [dst.inline]
    exact not_le.mpr h
  rw [hltBytesNewFromDataCopyHoisted, destInitHoisted, hroom]
  rfl

/-- A function that fills an object on the stack does what the one that allocates does, exactly but
for data of more than 32 bytes that is copied. -/
theorem hoisted_follows_iff (dst : Hoisted) (call : Call ω) :
    Follows call.allocating (call.hoisted dst) ↔ call.Fits := by
  cases call with
  | newFromDataCopy data =>
    constructor
    · intro h
      by_contra hlong
      obtain ⟨o, ho, _⟩ := h _ (newFromDataCopy_eq data)
      have hnone := newFromDataCopyHoisted_long (ω := ω) dst (not_le.mp hlong)
      cases hnone.symm.trans ho
    · intro hfits o h
      cases (newFromDataCopy_eq data).symm.trans h
      exact ⟨_, newFromDataCopyHoisted_fits dst hfits, SameOutcome.refl _⟩
  | new => exact iff_of_true (new_follows dst) trivial
  | concat b1 b2 => exact iff_of_true (concat_follows dst b1 b2) trivial
  | copy b => exact iff_of_true (copy_follows dst b) trivial
  | sub b p1 p2 => exact iff_of_true (sub_follows dst b p1 p2) trivial
  | upper b => exact iff_of_true (convert_follows rfl dst b) trivial
  | lower b => exact iff_of_true (convert_follows rfl dst b) trivial
  | strip b side pat => exact iff_of_true (strip_follows dst b side pat) trivial
  | join sep l => exact iff_of_true (join_follows dst sep l) trivial

/-- With 33 bytes there is an object from the one function and none from the other one. -/
theorem hoisted_overrun : ¬ ∀ (dst : Hoisted) (call : Call Unit),
    Follows call.allocating (call.hoisted dst) := by
  intro h
  have hdata : hltBytesNewFromDataCopy (ω := Unit) (List.replicate 33 65) =
      some (.ok [bytesNew (List.replicate 33 65)]) := by decide
  have hnone : hltBytesNewFromDataCopyHoisted (ω := Unit)
      ⟨⟨List.replicate 32 none, none, 0⟩, rfl⟩ (List.replicate 33 65) = none := by decide
  obtain ⟨o, ho, _⟩ := h ⟨⟨List.replicate 32 none, none, 0⟩, rfl⟩
    (.newFromDataCopy (List.replicate 33 65)) _ hdata
  cases hnone.symm.trans ho

end Hilti.Embedded
