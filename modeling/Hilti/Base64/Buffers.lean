import Hilti.Base64.Coder
import Hilti.Embedded.Blocks

/-!
# Base64 of bytes objects

The model of `libspicy/base64.c`, which gives each block a buffer of twice its length.  A function
without a result is one that touches bytes outside its buffer, or that has no buffer because its
length is not an `int`.
-/

namespace Hilti.Base64

open Hilti.Embedded (Bytes Chunk Made rawBlocks visible lead leadData bytesNew appendRawCopy)

set_option autoImplicit false

variable {ω : Type}

/-! ## Functions -/

/-- `hlt_bytes_append_raw_copy`, after which no exception is looked for. -/
def addTo (result : Bytes ω) (out : Data) : Option (Bytes ω) :=
  (appendRawCopy result out).map Prod.fst

/-- A block in `spicy_base64_encode`. -/
def encodeOne (s : EncodeState) (result : Bytes ω) (block : Data) :
    Option (EncodeState × Bytes ω) :=
  if 2 ^ 30 ≤ block.length then none
  else
    let (out, s) := encodeBlock s block
    if 2 * block.length < out.length then none
    else (addTo result out).map fun result => (s, result)

/-- The end of the data in `spicy_base64_encode`, which uses the buffer of the last block. -/
def encodeEnd (s : EncodeState) (result : Bytes ω) (block : Data) : Option (Bytes ω) :=
  let out := encodeBlockend s
  if 2 * block.length < out.length then none
  else addTo result out.dropLast

/-- The loop of `spicy_base64_encode` over the blocks. -/
def encodeLoop : List Data → EncodeState → Bytes ω → Option (Bytes ω)
  | [], _, _ => none
  | block :: blocks, s, result => do
    let (s, result) ← encodeOne s result block
    match blocks with
    | [] => encodeEnd s result block
    | _ :: _ => encodeLoop blocks s result

/-- `spicy_base64_encode`. -/
def base64Encode (b : Bytes ω) : Option (Bytes ω) :=
  match rawBlocks b with
  | some (.ok blocks) => encodeLoop blocks initEncodeState [bytesNew []]
  | _ => none

/-- A block in `spicy_base64_decode`.  The place behind the last complete byte is touched as well. -/
def decodeOne (s : DecodeState) (result : Bytes ω) (block : Data) :
    Option (DecodeState × Bytes ω) :=
  if 2 ^ 30 ≤ block.length then none
  else do
    let (out, s) ← decodeBlock s block
    if 2 * block.length ≤ out.length then none
    else (addTo result out).map fun result => (s, result)

/-- The loop of `spicy_base64_decode` over the blocks. -/
def decodeLoop : List Data → DecodeState → Bytes ω → Option (Bytes ω)
  | [], _, result => some result
  | block :: blocks, s, result => do
    let (s, result) ← decodeOne s result block
    decodeLoop blocks s result

/-- `spicy_base64_decode`. -/
def base64Decode (b : Bytes ω) : Option (Bytes ω) :=
  match rawBlocks b with
  | some (.ok blocks) => decodeLoop blocks initDecodeState [bytesNew []]
  | _ => none

/-- The encoding stays inside its buffers, and decoding it gives the content back. -/
def RoundTrips (b : Bytes ω) : Prop :=
  ∃ code data, base64Encode b = some code ∧ base64Decode code = some data ∧
    leadData data = leadData b

/-! ## Blocks that fit -/

/-- A block behind `n` bytes: its characters can be counted, and it is not a single byte that
completes a line. -/
def BlockFits (n len : ℕ) : Prop :=
  chars (n + len) - chars n < 2 ^ 30 ∧ ¬ (len = 1 ∧ (n + 1) % 54 = 0)

/-- The last block, with `n` bytes up to its end. -/
def EndFits (n len : ℕ) : Prop :=
  2 ≤ len ∨ len = 1 ∧ n % 3 = 0

/-- Blocks behind `n` bytes. -/
def Fits : ℕ → List Data → Prop
  | _, [] => False
  | n, block :: blocks => BlockFits n block.length ∧
    match blocks with
    | [] => EndFits (n + block.length) block.length
    | _ :: _ => Fits (n + block.length) blocks

/-! ## Results -/

/-- An object that a function has put together from these pieces. -/
structure Plain (b : Bytes ω) (pieces : List Data) : Prop where
  data : b.map Chunk.bytes = [] :: pieces
  plain : ∀ c ∈ b, c.isObject = false ∧ c.frozen = false ∧ c.marks = .null
  full : ∀ piece ∈ pieces, piece ≠ []

def piece (out : Data) : List Data :=
  if out = [] then [] else [out]

theorem piece_flatten (out : Data) : (piece out).flatten = out := by
  rw [piece]
  split
  · next h => rw [h]; rfl
  · exact List.flatten_singleton

section

variable {b : Bytes ω} {pieces : List Data}

theorem plain_new : Plain (ω := ω) [bytesNew []] [] :=
  ⟨rfl, fun c hc => by cases List.mem_singleton.mp hc; exact ⟨rfl, rfl, rfl⟩, fun p hp => nomatch hp⟩

theorem addTo_plain (h : Plain b pieces) (out : Data) :
    ∃ b', addTo b out = some b' ∧ Plain b' (pieces ++ piece out) := by
  by_cases hnil : out = []
  · subst hnil
    exact ⟨b, rfl, by rw [piece, if_pos rfl, List.append_nil]; exact h⟩
  · obtain ⟨D, d, rfl⟩ : ∃ D d, b = D ++ [d] := by
      have hne : b ≠ [] := fun hb => by
        have hdata := h.data
        rw [hb] at hdata
        cases hdata
      exact ⟨_, _, (List.dropLast_append_getLast hne).symm⟩
    have hlen : (D ++ [d]).length - 1 = D.length := by
      rw [List.length_append, List.length_singleton, Nat.add_sub_cancel]
    obtain ⟨hobj, hd, hmarks⟩ := h.plain d (List.mem_append_right D List.mem_cons_self)
    have hfrozen : Embedded.isFrozen (D ++ [d]) = false := by
      obtain ⟨c, cs, hcs⟩ := List.exists_cons_of_ne_nil (List.append_ne_nil_of_right_ne_nil D
        (List.cons_ne_nil d []))
      rw [hcs, Embedded.isFrozen]
      exact (h.plain c (hcs ▸ List.mem_cons_self)).2.1
    have hadd : Embedded.addChunk (D ++ [d]) D.length (bytesNew out) =
        some (D ++ [d, d.behind (bytesNew out)]) := by
      rw [Embedded.addChunk, Embedded.getElem?_last, Option.bind_eq_bind, Option.bind_some,
        Embedded.link_last hd, Option.bind_eq_bind, Option.bind_some, hmarks]
    refine ⟨D ++ [d, d.behind (bytesNew out)], ?_, ?_, ?_, ?_⟩
    · rw [addTo, appendRawCopy, Embedded.appendRawChunk, if_neg (by simpa using hnil), hfrozen,
        if_neg Bool.false_ne_true, hlen, hadd]
      rfl
    · have hdata := h.data
      rw [List.map_append] at hdata
      rw [List.map_append, piece, if_neg hnil, ← List.cons_append, ← hdata, List.append_assoc]
      rfl
    · intro c hc
      rw [show D ++ [d, d.behind (bytesNew out)] = (D ++ [d]) ++ [d.behind (bytesNew out)] by
        simp] at hc
      rcases List.mem_append.mp hc with hc | hc
      · exact h.plain c hc
      · cases List.mem_singleton.mp hc
        exact ⟨rfl, rfl, rfl⟩
    · intro p hp
      rcases List.mem_append.mp hp with hp | hp
      · exact h.full p hp
      · rw [piece, if_neg hnil] at hp
        cases List.mem_singleton.mp hp
        exact hnil

theorem Plain.lead_eq (h : Plain b pieces) : lead b = b := by
  rw [lead, List.takeWhile_eq_self_iff]
  intro c hc
  rw [(h.plain c hc).1]
  rfl

theorem Plain.leadData_eq (h : Plain b pieces) : leadData b = pieces.flatten := by
  rw [leadData, h.lead_eq, List.flatMap_def, h.data]
  rfl

theorem Plain.rawBlocks_eq (h : Plain b pieces) :
    rawBlocks b = some (.ok (if pieces = [] then [[]] else pieces)) := by
  have hne : lead b ≠ [] := by
    rw [h.lead_eq]
    rintro rfl
    cases h.data
  rw [Embedded.rawBlocks_eq hne, visible, h.lead_eq, h.data]
  cases pieces with
  | nil => rfl
  | cons p ps =>
    have hp := h.full p List.mem_cons_self
    have hempty : p.isEmpty = false := by simpa using hp
    simp [hempty]

end

/-! ## Encoding -/

section

variable {e : EncodeState} {n : ℕ} {result : Bytes ω} {pieces : List Data}

theorem chars_mono (n len : ℕ) : len + chars n ≤ chars (n + len) := by
  rw [chars, chars]
  omega

theorem chars_le_iff (n len : ℕ) :
    chars (n + len) ≤ 2 * len + chars n ↔ ¬ (len = 1 ∧ (n + 1) % 54 = 0) := by
  rw [chars, chars]
  omega

theorem endChars_le_iff (n len : ℕ) : endChars n ≤ 2 * len ↔ EndFits n len := by
  rw [endChars, EndFits]
  split
  · omega
  · split <;> omega

theorem encodeOne_eq (hseen : Seen e n) (block : Data) :
    encodeOne e result block =
      if block.length < 2 ^ 30 ∧ ¬ (block.length = 1 ∧ (n + 1) % 54 = 0) then
        (addTo result (encodeBlock e block).1).map fun result => ((encodeBlock e block).2, result)
      else none := by
  obtain ⟨-, hlen⟩ := encodeBlock_seen hseen block
  have hfits := chars_le_iff n block.length
  rw [encodeOne]
  by_cases hbig : 2 ^ 30 ≤ block.length
  · rw [if_pos hbig, if_neg fun h => absurd h.1 (Nat.not_lt.mpr hbig)]
  · rw [if_neg hbig]
    dsimp only
    by_cases hover : 2 * block.length < (encodeBlock e block).1.length
    · rw [if_pos hover, if_neg fun h => absurd (hfits.mpr h.2) (by omega)]
    · rw [if_neg hover, if_pos ⟨Nat.not_le.mp hbig, hfits.mp (by omega)⟩]

theorem encodeEnd_eq (hseen : Seen e n) (block : Data) :
    encodeEnd e result block =
      if 2 * block.length < endChars n then none else addTo result (encodeBlockend e).dropLast := by
  rw [encodeEnd, encodeBlockend_length hseen]

theorem encodeBlock_append (e : EncodeState) (a b : Data) :
    (encodeBlock e (a ++ b)).1 = (encodeBlock e a).1 ++ (encodeBlock (encodeBlock e a).2 b).1 ∧
      (encodeBlock e (a ++ b)).2 = (encodeBlock (encodeBlock e a).2 b).2 := by
  induction a generalizing e with
  | nil => exact ⟨rfl, rfl⟩
  | cons x xs ih =>
    obtain ⟨hout, hstate⟩ := ih (encodeByte e x).2
    rw [List.cons_append, encodeBlock, encodeBlock]
    exact ⟨by rw [List.append_assoc, ← hout], hstate⟩

def encoded (e : EncodeState) (data : Data) : Data :=
  (encodeBlock e data).1 ++ (encodeBlockend (encodeBlock e data).2).dropLast

theorem encoded_append (e : EncodeState) (a b : Data) :
    encoded e (a ++ b) = (encodeBlock e a).1 ++ encoded (encodeBlock e a).2 b := by
  obtain ⟨hout, hstate⟩ := encodeBlock_append e a b
  rw [encoded, hout, hstate, List.append_assoc]
  rfl

theorem mem_piece {p out : Data} (h : p ∈ piece out) : p = out := by
  rw [piece] at h
  split at h
  · cases h
  · exact List.mem_singleton.mp h

theorem blockFits_iff (hseen : Seen e n) (block : Data) :
    BlockFits n block.length ↔ (∀ p ∈ piece (encodeBlock e block).1, p.length < 2 ^ 30) ∧
      ¬ (block.length = 1 ∧ (n + 1) % 54 = 0) := by
  obtain ⟨-, hlen⟩ := encodeBlock_seen hseen block
  have heq : chars (n + block.length) - chars n = (encodeBlock e block).1.length := by omega
  rw [BlockFits, heq]
  refine and_congr_left fun _ => ?_
  rw [piece]
  split
  · next h =>
    rw [h]
    exact iff_of_true (by decide) fun p hp => nomatch hp
  · exact (List.forall_mem_singleton (p := fun p : Data => p.length < 2 ^ 30)).symm

theorem encodeBlockend_small (e : EncodeState) : (encodeBlockend e).dropLast.length < 2 ^ 30 := by
  have hle : (encodeBlockend e).dropLast.length ≤ 3 := by
    rw [encodeBlockend]
    cases e.step <;> simp
  exact Nat.lt_of_le_of_lt hle (by decide)

theorem encodeLoop_spec (blocks : List Data) (hseen : Seen e n) (hplain : Plain result pieces)
    {code : Bytes ω} (h : encodeLoop blocks e result = some code) :
    ∃ outs, Plain code (pieces ++ outs) ∧ outs.flatten = encoded e blocks.flatten ∧
      ((∀ p ∈ outs, p.length < 2 ^ 30) → Fits n blocks) := by
  induction blocks generalizing e n result pieces with
  | nil => cases h
  | cons block blocks ih =>
    obtain ⟨⟨e₁, result₁⟩, hone, h⟩ := Option.bind_eq_some_iff.mp h
    obtain ⟨hseen₁, -⟩ := encodeBlock_seen hseen block
    have hfits := blockFits_iff hseen block
    rw [encodeOne_eq hseen] at hone
    split at hone
    · next hcond =>
      obtain ⟨result₂, hadd, heq⟩ := Option.map_eq_some_iff.mp hone
      obtain ⟨result₃, hadd', hplain₁⟩ := addTo_plain hplain (encodeBlock e block).1
      cases hadd.symm.trans hadd'
      cases heq
      cases blocks with
      | nil =>
        have hend : encodeEnd (encodeBlock e block).2 result₁ block = some code := h
        rw [encodeEnd_eq hseen₁] at hend
        split at hend
        · cases hend
        · next hroom =>
          obtain ⟨code', hadd₂, hplain₂⟩ :=
            addTo_plain hplain₁ (encodeBlockend (encodeBlock e block).2).dropLast
          cases hadd₂.symm.trans hend
          refine ⟨_, by rw [List.append_assoc] at hplain₂; exact hplain₂, ?_, fun hsmall => ?_⟩
          · rw [List.flatten_append, piece_flatten, piece_flatten, List.flatten_singleton, encoded]
          · rw [List.forall_mem_append] at hsmall
            exact ⟨hfits.mpr ⟨hsmall.1, hcond.2⟩, (endChars_le_iff _ _).mp (Nat.not_lt.mp hroom)⟩
      | cons block₂ blocks =>
        obtain ⟨outs, hplain₂, hflat, hrest⟩ := ih hseen₁ hplain₁ h
        refine ⟨piece (encodeBlock e block).1 ++ outs, ?_, ?_, fun hsmall => ?_⟩
        · rw [List.append_assoc] at hplain₂
          exact hplain₂
        · rw [List.flatten_append, piece_flatten, hflat, List.flatten_cons (l := block),
            encoded_append]
        · rw [List.forall_mem_append] at hsmall
          exact ⟨hfits.mpr ⟨hsmall.1, hcond.2⟩, hrest hsmall.2⟩
    · cases hone

theorem encodeLoop_of_fits (blocks : List Data) (hseen : Seen e n) (hplain : Plain result pieces)
    (h : Fits n blocks) :
    ∃ code outs, encodeLoop blocks e result = some code ∧ Plain code (pieces ++ outs) ∧
      ∀ p ∈ outs, p.length < 2 ^ 30 := by
  induction blocks generalizing e n result pieces with
  | nil => exact h.elim
  | cons block blocks ih =>
    obtain ⟨hblock, hrest⟩ := h
    obtain ⟨hseen₁, -⟩ := encodeBlock_seen hseen block
    obtain ⟨hsmall, hline⟩ := (blockFits_iff hseen block).mp hblock
    have hlen : block.length < 2 ^ 30 := by
      have hmono := chars_mono n block.length
      have hchars := hblock.1
      omega
    obtain ⟨result₁, hadd, hplain₁⟩ := addTo_plain hplain (encodeBlock e block).1
    have hone : encodeOne e result block = some ((encodeBlock e block).2, result₁) := by
      rw [encodeOne_eq hseen, if_pos ⟨hlen, hline⟩, hadd]
      rfl
    cases blocks with
    | nil =>
      have hroom := (endChars_le_iff (n + block.length) block.length).mpr hrest
      obtain ⟨code, hadd₂, hplain₂⟩ :=
        addTo_plain hplain₁ (encodeBlockend (encodeBlock e block).2).dropLast
      refine ⟨code, _, ?_, by rw [List.append_assoc] at hplain₂; exact hplain₂, ?_⟩
      · rw [encodeLoop, hone, Option.bind_eq_bind, Option.bind_some]
        dsimp only
        rw [encodeEnd_eq hseen₁, if_neg (Nat.not_lt.mpr hroom), hadd₂]
      · intro p hp
        rcases List.mem_append.mp hp with hp | hp
        · exact hsmall p hp
        · rw [mem_piece hp]
          exact encodeBlockend_small _
    | cons block₂ blocks =>
      obtain ⟨code, outs, hloop, hplain₂, hsmall₂⟩ := ih hseen₁ hplain₁ hrest
      refine ⟨code, piece (encodeBlock e block).1 ++ outs, ?_, ?_, ?_⟩
      · rw [encodeLoop, hone]
        exact hloop
      · rw [List.append_assoc] at hplain₂
        exact hplain₂
      · exact List.forall_mem_append.mpr ⟨hsmall, hsmall₂⟩

end

/-! ## Decoding -/

section

variable {d : DecodeState} {result : Bytes ω} {pieces : List Data}

theorem decodeLoop_small {blocks : List Data} {data : Bytes ω}
    (h : decodeLoop blocks d result = some data) : ∀ block ∈ blocks, block.length < 2 ^ 30 := by
  induction blocks generalizing d result with
  | nil => exact fun block hblock => nomatch hblock
  | cons block blocks ih =>
    obtain ⟨⟨d₁, result₁⟩, hone, h⟩ := Option.bind_eq_some_iff.mp h
    refine List.forall_mem_cons.mpr ⟨?_, ih h⟩
    rw [decodeOne] at hone
    split at hone
    · cases hone
    · next hbig => exact Nat.not_le.mp hbig

theorem decodeLoop_spec (blocks : List Data) {out : Data} {d' : DecodeState}
    (hplain : Plain result pieces) (hfull : ∀ block ∈ blocks, block ≠ [])
    (hsmall : ∀ block ∈ blocks, block.length < 2 ^ 30)
    (h : decodeBlock d blocks.flatten = some (out, d')) :
    ∃ data outs, decodeLoop blocks d result = some data ∧ Plain data (pieces ++ outs) ∧
      outs.flatten = out := by
  induction blocks generalizing d result pieces out with
  | nil =>
    cases h
    exact ⟨result, [], rfl, by rw [List.append_nil]; exact hplain, rfl⟩
  | cons block blocks ih =>
    obtain ⟨hne, hfull⟩ := List.forall_mem_cons.mp hfull
    obtain ⟨hlen, hsmall⟩ := List.forall_mem_cons.mp hsmall
    rw [List.flatten_cons, decodeBlock_append] at h
    obtain ⟨⟨out₁, d₁⟩, hblock, h⟩ := Option.bind_eq_some_iff.mp h
    obtain ⟨⟨out₂, d₂⟩, hrest, h⟩ := Option.map_eq_some_iff.mp h
    cases h
    obtain ⟨result₁, hadd, hplain₁⟩ := addTo_plain hplain out₁
    have hroom : ¬ 2 * block.length ≤ out₁.length := by
      have hle := decodeBlock_length hblock
      have hpos := List.length_pos_iff.mpr hne
      omega
    obtain ⟨data, outs, hloop, hplain₂, hflat⟩ := ih hplain₁ hfull hsmall hrest
    refine ⟨data, piece out₁ ++ outs, ?_, ?_, ?_⟩
    · rw [decodeLoop, decodeOne, if_neg (Nat.not_le.mpr hlen), hblock, Option.bind_eq_bind,
        Option.bind_eq_bind, Option.bind_some]
      dsimp only
      rw [if_neg hroom, hadd]
      exact hloop
    · rw [List.append_assoc] at hplain₂
      exact hplain₂
    · rw [List.flatten_append, piece_flatten, hflat]

end

/-! ## Round trips -/

theorem Fits.length_pos {n : ℕ} {blocks : List Data} (h : Fits n blocks) :
    0 < blocks.flatten.length := by
  induction blocks generalizing n with
  | nil => exact h.elim
  | cons block blocks ih =>
    rw [List.flatten_cons, List.length_append]
    cases blocks with
    | nil =>
      have hlen : 2 ≤ block.length ∨ block.length = 1 ∧ _ := h.2
      omega
    | cons block₂ blocks => exact Nat.add_pos_right _ (ih h.2)

theorem decodeBlock_encoded (data : Data) :
    ∃ d', decodeBlock initDecodeState (encoded initEncodeState data) = some (data, d') := by
  have hinit : Link initEncodeState initDecodeState [] := ⟨rfl, rfl⟩
  obtain ⟨out, d, pending, hblock, hlink, heq⟩ := encodeBlock_link hinit data
  obtain ⟨d', hend⟩ := encodeBlockend_link hlink
  refine ⟨d', ?_⟩
  rw [encoded, decodeBlock_append, hblock, Option.bind_some, hend, Option.map_some, ← heq,
    List.nil_append]

end Hilti.Base64
