import Mathlib
import Hilti.Embedded.Blocks

/-!
# Inflating

The model of `libspicy/filter_zlib.c`, with `inflate` of zlib as a parameter.  A function without a
result is one that follows the null pointer that closing leaves behind, or that runs out of fuel.
The bytes that come out are given by their content.

The filter closes when the end of the stream is reached, but it goes on with the blocks of the call
that are still there.
-/

namespace Hilti.Filters.Zlib

open Hilti.Embedded (Made rawBlocks visible leadData bytesNew)

set_option autoImplicit false

variable {σ ω : Type}

/-! ## Functions -/

/-- What `inflate` returns: `Z_OK`, `Z_BUF_ERROR`, `Z_STREAM_END`, or anything else. -/
inductive Status where
  | ok
  | bufError
  | streamEnd
  | other
  deriving DecidableEq

/-- What a call of `inflate` does: the state and the result, how many bytes it has taken from
`next_in`, and the bytes that it has put at `next_out`. -/
structure Inflated (σ : Type) where
  state : σ
  status : Status
  consumed : ℕ
  out : List UInt8

inductive Excpt where
  | filterError
  deriving DecidableEq

/-- The inner loop of `__spicy_filter_zlib_decode`, with the stream object and what has been decoded
afterwards. -/
def inflateLoop (inflate : σ → List UInt8 → ℕ → Inflated σ) :
    ℕ → σ → List UInt8 → Option (List UInt8) →
      Option (Except Excpt (Option σ × Option (List UInt8)))
  | 0, _, _, _ => none
  | fuel + 1, zip, nextIn, decoded =>
    let r := inflate zip nextIn 4096
    if r.status = .other then some (.error .filterError)
    else
      let decoded := if r.out = [] then decoded else some (decoded.getD [] ++ r.out)
      -- `__spicy_filter_zlib_close` leaves a null pointer.
      if r.status = .streamEnd then some (.ok (none, decoded))
      else if 4096 - r.out.length = 0 then
        inflateLoop inflate fuel r.state (nextIn.drop r.consumed) decoded
      else some (.ok (some r.state, decoded))

/-- The outer loop of `__spicy_filter_zlib_decode` over the blocks.  The length of a block is an
`int`. -/
def blockLoop (inflate : σ → List UInt8 → ℕ → Inflated σ) (fuel : ℕ) :
    List (List UInt8) → Option σ → Option (List UInt8) →
      Option (Except Excpt (Option σ × Option (List UInt8)))
  | [], zip, decoded => some (.ok (zip, decoded))
  | block :: blocks, zip, decoded =>
    let len := block.length % 2 ^ 32
    if len = 0 then blockLoop inflate fuel blocks zip decoded
    else
      match zip with
      | none => none
      | some zip =>
        match inflateLoop inflate fuel zip (block.take len) decoded with
        | none => none
        | some (.error e) => some (.error e)
        | some (.ok (zip, decoded)) => blockLoop inflate fuel blocks zip decoded

/-- `__spicy_filter_zlib_decode`. -/
def filterZlibDecode (inflate : σ → List UInt8 → ℕ → Inflated σ) (fuel : ℕ) (zip : Option σ)
    (data : Embedded.Bytes ω) : Option (Except Excpt (Option σ × List UInt8)) :=
  match zip with
  | none => some (.ok (none, []))
  | some zip =>
    match rawBlocks data with
    | some (.ok blocks) =>
      (blockLoop inflate fuel blocks (some zip) none).map fun r => r.map fun r => (r.1, r.2.getD [])
    | _ => none

/-- One call after the other, with all that comes out. -/
def decodeAll (inflate : σ → List UInt8 → ℕ → Inflated σ) (fuel : ℕ) :
    List (Embedded.Bytes ω) → Option σ → Option (Except Excpt (List UInt8))
  | [], _ => some (.ok [])
  | data :: calls, zip =>
    match filterZlibDecode inflate fuel zip data with
    | none => none
    | some (.error e) => some (.error e)
    | some (.ok (zip, out)) => (decodeAll inflate fuel calls zip).map fun r => r.map (out ++ ·)

/-! ## What inflate does -/

/-- A call for a stream `z` with the content `d`, when `i` bytes of the stream have been taken and
`j` bytes of the content have come out: `inflate` goes on with the stream, stops early only if it has
taken all of the input and has put out what there is in it, and reports the end exactly when the
stream has been taken and its content has come out. -/
structure Proper (At : σ → ℕ → ℕ → Prop) (z d : List UInt8) (i j : ℕ) (x : List UInt8) (n : ℕ)
    (r : Inflated σ) : Prop where
  consumed : r.consumed ≤ x.length ∧ i + r.consumed ≤ z.length
  out : r.out <+: d.drop j ∧ r.out.length ≤ n
  state : At r.state (i + r.consumed) (j + r.out.length)
  status : r.status ≠ .other
  finished : r.status = .streamEnd ↔ i + r.consumed = z.length ∧ j + r.out.length = d.length
  progress : r.out.length < n → r.status = .streamEnd ∨ r.consumed = x.length
  flushed : r.out.length < n → i + r.consumed = z.length → j + r.out.length = d.length

/-- `inflate` is correct for a stream, for any input buffers; `At` says which states belong to a
position. -/
structure Correct (inflate : σ → List UInt8 → ℕ → Inflated σ) (init : σ)
    (At : σ → ℕ → ℕ → Prop) (z d : List UInt8) : Prop where
  start : At init 0 0
  step : ∀ s i j, At s i j → i ≤ z.length → j ≤ d.length → ¬ (i = z.length ∧ j = d.length) →
    ∀ x, x <+: z.drop i ∨ z.drop i <+: x → ∀ n, 0 < n → Proper At z d i j x n (inflate s x n)

/-! ## What is expected -/

/-- The calls put out the content, and never use the stream object after closing. -/
def Inflates (inflate : σ → List UInt8 → ℕ → Inflated σ) (init : σ) (d : List UInt8)
    (calls : List (Embedded.Bytes ω)) : Prop :=
  ∃ fuel, decodeAll inflate fuel calls (some init) = some (.ok d)

/-- The block with the last one of `m` bytes is the last block. -/
def EndsLast : ℕ → List (List UInt8) → Prop
  | _, [] => True
  | m, block :: blocks =>
    if m ≤ block.length then blocks = [] else EndsLast (m - block.length) blocks

/-- The block with the last one of `m` bytes is the last block of its call. -/
def CallEndsLast : ℕ → List (Embedded.Bytes ω) → Prop
  | _, [] => True
  | m, data :: calls =>
    if m ≤ (leadData data).length then EndsLast m (visible data)
    else CallEndsLast (m - (leadData data).length) calls

/-! ## The inner loop -/

def slice (d : List UInt8) (j j' : ℕ) : List UInt8 :=
  (d.drop j).take (j' - j)

theorem slice_self (d : List UInt8) (j : ℕ) : slice d j j = [] := by
  rw [slice, Nat.sub_self, List.take_zero]

theorem slice_append (d : List UInt8) {i j k : ℕ} (hij : i ≤ j) (hjk : j ≤ k) :
    slice d i j ++ slice d j k = slice d i k := by
  rw [slice, slice, slice, show k - i = j - i + (k - j) by omega, List.take_add, List.drop_drop,
    Nat.add_sub_of_le hij]

theorem slice_of_prefix {d out : List UInt8} {j : ℕ} (h : out <+: d.drop j) :
    slice d j (j + out.length) = out := by
  rw [slice, Nat.add_sub_cancel_left, ← List.prefix_iff_eq_take.mp h]

/-- The stream object when `i` bytes have been taken and `j` bytes have come out: it is closed behind
the end of the stream. -/
def Reached (At : σ → ℕ → ℕ → Prop) (z d : List UInt8) (i j : ℕ) : Option σ → Prop
  | some s => i < z.length ∧ j ≤ d.length ∧ At s i j
  | none => z.length ≤ i ∧ j = d.length

section

variable {inflate : σ → List UInt8 → ℕ → Inflated σ} {init : σ} {At : σ → ℕ → ℕ → Prop}
  {z d : List UInt8}

def LoopEnds (At : σ → ℕ → ℕ → Prop) (z d : List UInt8) (i j : ℕ) (decoded : Option (List UInt8))
    (r : Except Excpt (Option σ × Option (List UInt8))) : Prop :=
  ∃ zip' decoded' j', r = .ok (zip', decoded') ∧ j ≤ j' ∧ Reached At z d i j' zip' ∧
    decoded'.getD [] = decoded.getD [] ++ slice d j j'

theorem getD_append (decoded : Option (List UInt8)) (out : List UInt8) :
    (if out = [] then decoded else some (decoded.getD [] ++ out)).getD [] =
      decoded.getD [] ++ out := by
  by_cases h : out = []
  · rw [if_pos h, h, List.append_nil]
  · rw [if_neg h, Option.getD_some]

/-- The loop ends with the output of the whole input, or at the end of the stream; enough fuel is one
round for each byte that is still to come out. -/
theorem inflateLoop_spec (hC : Correct inflate init At z d) (fuel : ℕ) {s : σ} {i j : ℕ}
    {x : List UInt8} (decoded : Option (List UInt8)) (hAt : At s i j) (hi : i ≤ z.length)
    (hj : j ≤ d.length) (hopen : ¬ (i = z.length ∧ j = d.length))
    (hx : x <+: z.drop i ∨ z.drop i <+: x) :
    (∀ r, inflateLoop inflate fuel s x decoded = some r →
      LoopEnds At z d (i + x.length) j decoded r) ∧
    (d.length - j < fuel → ∃ r, inflateLoop inflate fuel s x decoded = some r) := by
  induction fuel generalizing s i j x decoded with
  | zero => exact ⟨fun r hr => (nomatch hr), fun h => absurd h (Nat.not_lt_zero _)⟩
  | succ fuel ih =>
    have hp := hC.step s i j hAt hi hj hopen x hx 4096 (by omega)
    set r := inflate s x 4096 with hr
    have hout := hp.out.1.length_le
    rw [List.length_drop] at hout
    have hslice := slice_of_prefix hp.out.1
    have hcontent := getD_append decoded r.out
    set decoded' := if r.out = [] then decoded else some (decoded.getD [] ++ r.out) with hdecoded
    have hloop : inflateLoop inflate (fuel + 1) s x decoded =
        if r.status = .streamEnd then some (.ok (none, decoded'))
        else if 4096 - r.out.length = 0 then
          inflateLoop inflate fuel r.state (x.drop r.consumed) decoded'
        else some (.ok (some r.state, decoded')) := by
      rw [inflateLoop]
      dsimp only
      rw [← hr, if_neg hp.status, ← hdecoded]
    rw [hloop]
    obtain ⟨hcx, hcz⟩ := hp.consumed
    by_cases hend : r.status = .streamEnd
    · obtain ⟨hz, hd⟩ := hp.finished.mp hend
      rw [if_pos hend]
      refine ⟨fun r' hr' => ?_, fun _ => ⟨_, rfl⟩⟩
      cases hr'
      exact ⟨none, decoded', d.length, rfl, hj, ⟨by omega, rfl⟩, by rw [hcontent, ← hd, hslice]⟩
    · have hopen' : ¬ (i + r.consumed = z.length ∧ j + r.out.length = d.length) := fun h =>
        hend (hp.finished.mpr h)
      rw [if_neg hend]
      by_cases hfull : 4096 - r.out.length = 0
      · -- The output buffer is full: there may be more.
        have hx' : x.drop r.consumed <+: z.drop (i + r.consumed) ∨
            z.drop (i + r.consumed) <+: x.drop r.consumed := by
          rw [← List.drop_drop]
          exact hx.imp (fun h => h.drop r.consumed) fun h => h.drop r.consumed
        obtain ⟨hsound, htotal⟩ := ih decoded' hp.state hcz (by omega) hopen' hx'
        have hlen : i + r.consumed + (x.drop r.consumed).length = i + x.length := by
          rw [List.length_drop]
          omega
        rw [if_pos hfull]
        refine ⟨fun r' hr' => ?_, fun hfuel => htotal (by omega)⟩
        obtain ⟨zip', decoded'', j', rfl, hle, hreached, hdata⟩ := hsound r' hr'
        rw [hlen] at hreached
        refine ⟨zip', decoded'', j', rfl, by omega, hreached, ?_⟩
        rw [hdata, hcontent, List.append_assoc, ← slice_append d (Nat.le_add_right j _) hle, hslice]
      · rw [if_neg hfull]
        refine ⟨fun r' hr' => ?_, fun _ => ⟨_, rfl⟩⟩
        cases hr'
        have hshort : r.out.length < 4096 := by omega
        have hall : r.consumed = x.length := (hp.progress hshort).resolve_left hend
        have hlt : i + r.consumed < z.length := by
          refine Nat.lt_of_le_of_ne hcz fun heq => hopen' ⟨heq, hp.flushed hshort heq⟩
        refine ⟨some r.state, decoded', j + r.out.length, rfl, Nat.le_add_right j _,
          ⟨hall ▸ hlt, by omega, hall ▸ hp.state⟩, ?_⟩
        rw [hcontent, hslice]

/-! ## The blocks of a call -/

/-- Blocks whose length is an `unsigned int`, and of which none is empty. -/
def Short (blocks : List (List UInt8)) : Prop :=
  ∀ block ∈ blocks, block ≠ [] ∧ block.length < 2 ^ 32

theorem blockLoop_cons {block : List UInt8} (hne : block ≠ []) (hlt : block.length < 2 ^ 32)
    (fuel : ℕ) (blocks : List (List UInt8)) (zip : Option σ) (decoded : Option (List UInt8)) :
    blockLoop inflate fuel (block :: blocks) zip decoded =
      match zip with
      | none => none
      | some zip =>
        match inflateLoop inflate fuel zip block decoded with
        | none => none
        | some (.error e) => some (.error e)
        | some (.ok (zip, decoded)) => blockLoop inflate fuel blocks zip decoded := by
  have hmod : block.length % 2 ^ 32 = block.length := Nat.mod_eq_of_lt hlt
  have hpos : block.length ≠ 0 := fun h => hne (List.length_eq_zero_iff.mp h)
  rw [blockLoop.eq_def]
  dsimp only
  rw [hmod, if_neg hpos, List.take_length]

theorem rest_of_data {x more rest : List UInt8} {i : ℕ} (h : x ++ more = z.drop i ++ rest)
    (hlt : i + x.length < z.length) : more = z.drop (i + x.length) ++ rest := by
  have hdrop := congrArg (List.drop x.length) h
  rwa [List.drop_left, List.drop_append_of_le_length (by rw [List.length_drop]; omega),
    List.drop_drop] at hdrop

theorem prefix_of_data {x more rest : List UInt8} {i : ℕ} (h : x ++ more = z.drop i ++ rest) :
    x <+: z.drop i ∨ z.drop i <+: x :=
  List.prefix_or_prefix_of_prefix (List.prefix_append x more) (h ▸ List.prefix_append (z.drop i) rest)

theorem blockLoop_sound (hC : Correct inflate init At z d) {blocks : List (List UInt8)}
    (hshort : Short blocks) {s : σ} {i j fuel : ℕ} {more rest : List UInt8}
    {decoded : Option (List UInt8)} {r : Except Excpt (Option σ × Option (List UInt8))}
    (hreached : Reached At z d i j (some s))
    (hdata : blocks.flatten ++ more = z.drop i ++ rest)
    (hr : blockLoop inflate fuel blocks (some s) decoded = some r) :
    EndsLast (z.length - i) blocks ∧ LoopEnds At z d (i + blocks.flatten.length) j decoded r := by
  induction blocks generalizing s i j decoded with
  | nil =>
    cases hr
    refine ⟨trivial, some s, decoded, j, rfl, le_refl j, hreached, ?_⟩
    rw [slice_self, List.append_nil]
  | cons block blocks ih =>
    obtain ⟨hi, hj, hAt⟩ := hreached
    obtain ⟨hne, hlt⟩ := hshort block List.mem_cons_self
    have hshort' : Short blocks := fun b hb => hshort b (List.mem_cons_of_mem block hb)
    rw [List.flatten_cons, List.append_assoc] at hdata
    have hloop := (inflateLoop_spec hC fuel decoded hAt (Nat.le_of_lt hi) hj
      (fun h => by omega) (prefix_of_data hdata)).1
    rw [blockLoop_cons hne hlt] at hr
    rw [EndsLast, List.flatten_cons, List.length_append]
    cases hinner : inflateLoop inflate fuel s block decoded with
    | none =>
      simp only [hinner] at hr
      cases hr
    | some r' =>
      obtain ⟨zip', decoded', j', rfl, hle, hreached', hcontent⟩ := hloop r' hinner
      simp only [hinner] at hr
      cases zip' with
      | none =>
        have hend := hreached'.1
        rw [if_pos (by omega)]
        cases blocks with
        | nil =>
          cases hr
          exact ⟨rfl, none, decoded', j', rfl, hle, hreached', hcontent⟩
        | cons next blocks =>
          -- The next block finds the stream object closed.
          obtain ⟨hne', hlt'⟩ := hshort' next List.mem_cons_self
          rw [blockLoop_cons hne' hlt'] at hr
          cases hr
      | some s' =>
        have hlt' := hreached'.1
        obtain ⟨hends, zip'', decoded'', j'', rfl, hle', hreached'', hcontent'⟩ :=
          ih hshort' hreached' (rest_of_data hdata hlt') hr
        rw [if_neg (by omega), Nat.sub_sub]
        refine ⟨hends, zip'', decoded'', j'', rfl, by omega, ?_, ?_⟩
        · rwa [Nat.add_assoc] at hreached''
        · rw [hcontent', hcontent, List.append_assoc, slice_append d hle hle']

theorem blockLoop_total (hC : Correct inflate init At z d) {blocks : List (List UInt8)}
    (hshort : Short blocks) {s : σ} {i j fuel : ℕ} {more rest : List UInt8}
    (decoded : Option (List UInt8)) (hreached : Reached At z d i j (some s))
    (hdata : blocks.flatten ++ more = z.drop i ++ rest)
    (hends : EndsLast (z.length - i) blocks) (hfuel : d.length < fuel) :
    ∃ r, blockLoop inflate fuel blocks (some s) decoded = some r := by
  induction blocks generalizing s i j decoded with
  | nil => exact ⟨_, rfl⟩
  | cons block blocks ih =>
    obtain ⟨hi, hj, hAt⟩ := hreached
    obtain ⟨hne, hlt⟩ := hshort block List.mem_cons_self
    have hshort' : Short blocks := fun b hb => hshort b (List.mem_cons_of_mem block hb)
    rw [List.flatten_cons, List.append_assoc] at hdata
    obtain ⟨hsound, htotal⟩ := inflateLoop_spec hC fuel decoded hAt (Nat.le_of_lt hi) hj
      (fun h => by omega) (prefix_of_data hdata)
    obtain ⟨r, hr⟩ := htotal (by omega)
    obtain ⟨zip', decoded', j', rfl, hle, hreached', hcontent⟩ := hsound r hr
    rw [EndsLast] at hends
    rw [blockLoop_cons hne hlt]
    simp only [hr]
    cases zip' with
    | none =>
      have hend := hreached'.1
      rw [if_pos (by omega)] at hends
      rw [hends]
      exact ⟨_, rfl⟩
    | some s' =>
      have hlt' := hreached'.1
      rw [if_neg (by omega), Nat.sub_sub] at hends
      exact ih hshort' decoded' hreached' (rest_of_data hdata hlt') hends

theorem endsLast_of_lt {m : ℕ} {blocks : List (List UInt8)} (h : blocks.flatten.length < m) :
    EndsLast m blocks := by
  induction blocks generalizing m with
  | nil => trivial
  | cons block blocks ih =>
    rw [List.flatten_cons, List.length_append] at h
    rw [EndsLast, if_neg (by omega)]
    exact ih (by omega)

theorem data_ne_nil {i : ℕ} (hi : i < z.length) (rest : List UInt8) : [] ≠ z.drop i ++ rest := by
  intro h
  have hlen := congrArg List.length (List.append_eq_nil_iff.mp h.symm).1
  rw [List.length_drop, List.length_nil] at hlen
  omega

/-! ## Calls -/

/-- Objects that the functions on them have made, with blocks whose length is an `unsigned int`. -/
def Given (calls : List (Embedded.Bytes ω)) : Prop :=
  ∀ data ∈ calls, Made data ∧ ∀ block ∈ visible data, block.length < 2 ^ 32

theorem decodeAll_closed (fuel : ℕ) (calls : List (Embedded.Bytes ω)) :
    decodeAll inflate fuel calls none = some (.ok []) := by
  induction calls with
  | nil => rfl
  | cons data calls ih =>
    rw [decodeAll, filterZlibDecode]
    dsimp only
    rw [ih]
    rfl

theorem filterZlibDecode_made {data : Embedded.Bytes ω} (h : Made data) (fuel : ℕ) (s : σ) :
    filterZlibDecode inflate fuel (some s) data =
      (blockLoop inflate fuel (visible data) (some s) none).map fun r =>
        r.map fun r => (r.1, r.2.getD []) := by
  rw [filterZlibDecode, Hilti.Embedded.rawBlocks_eq (Hilti.Embedded.made_lead h)]

theorem decodeAll_cons {data : Embedded.Bytes ω} {fuel : ℕ} {zip zip' : Option σ} {out : List UInt8}
    (h : filterZlibDecode inflate fuel zip data = some (.ok (zip', out)))
    (calls : List (Embedded.Bytes ω)) :
    decodeAll inflate fuel (data :: calls) zip =
      (decodeAll inflate fuel calls zip').map fun r => r.map (out ++ ·) := by
  rw [decodeAll, h]

theorem decodeAll_cons_none {data : Embedded.Bytes ω} {fuel : ℕ} {zip : Option σ}
    (h : filterZlibDecode inflate fuel zip data = none) (calls : List (Embedded.Bytes ω)) :
    decodeAll inflate fuel (data :: calls) zip = none := by
  rw [decodeAll, h]

def CallEnds (At : σ → ℕ → ℕ → Prop) (z d : List UInt8) (i j : ℕ)
    (r : Except Excpt (Option σ × List UInt8)) : Prop :=
  ∃ zip' j', r = .ok (zip', slice d j j') ∧ j ≤ j' ∧ Reached At z d i j' zip'

theorem blockLoop_nothing (fuel : ℕ) (zip : Option σ) :
    blockLoop inflate fuel [[]] zip none = some (.ok (zip, none)) :=
  rfl

theorem call_sound (hC : Correct inflate init At z d) {data : Embedded.Bytes ω} (hmade : Made data)
    (hblocks : ∀ block ∈ visible data, block.length < 2 ^ 32) {s : σ} {i j fuel : ℕ}
    {more rest : List UInt8} {r : Except Excpt (Option σ × List UInt8)}
    (hreached : Reached At z d i j (some s))
    (hdata : leadData data ++ more = z.drop i ++ rest)
    (hr : filterZlibDecode inflate fuel (some s) data = some r) :
    EndsLast (z.length - i) (visible data) ∧ CallEnds At z d (i + (leadData data).length) j r := by
  have hflat := Hilti.Embedded.visible_flatten data
  rw [filterZlibDecode_made hmade] at hr
  obtain ⟨r', hr', rfl⟩ := Option.map_eq_some_iff.mp hr
  rcases Hilti.Embedded.made_visible hmade with hempty | hfull
  · have hlt := hreached.1
    rw [hempty] at hflat hr' ⊢
    rw [blockLoop_nothing] at hr'
    cases hr'
    refine ⟨?_, some s, j, ?_, le_refl j, ?_⟩
    · rw [EndsLast, if_neg (by rw [List.length_nil]; omega)]
      trivial
    · rw [slice_self]
      rfl
    · rw [← hflat]
      exact hreached
  · have hshort : Short (visible data) := fun b hb => ⟨hfull b hb, hblocks b hb⟩
    rw [← hflat] at hdata ⊢
    obtain ⟨hends, zip', decoded', j', rfl, hle, hreached', hcontent⟩ :=
      blockLoop_sound hC hshort hreached hdata hr'
    refine ⟨hends, zip', j', ?_, hle, hreached'⟩
    rw [Option.getD_none, List.nil_append] at hcontent
    rw [← hcontent]
    rfl

theorem call_total (hC : Correct inflate init At z d) {data : Embedded.Bytes ω} (hmade : Made data)
    (hblocks : ∀ block ∈ visible data, block.length < 2 ^ 32) {s : σ} {i j fuel : ℕ}
    {more rest : List UInt8} (hreached : Reached At z d i j (some s))
    (hdata : leadData data ++ more = z.drop i ++ rest)
    (hends : EndsLast (z.length - i) (visible data)) (hfuel : d.length < fuel) :
    ∃ r, filterZlibDecode inflate fuel (some s) data = some r := by
  rw [filterZlibDecode_made hmade]
  rcases Hilti.Embedded.made_visible hmade with hempty | hfull
  · rw [hempty]
    exact ⟨_, rfl⟩
  · have hshort : Short (visible data) := fun b hb => ⟨hfull b hb, hblocks b hb⟩
    rw [← Hilti.Embedded.visible_flatten data] at hdata
    obtain ⟨r, hr⟩ := blockLoop_total hC hshort none hreached hdata hends hfuel
    rw [hr]
    exact ⟨_, rfl⟩

theorem decodeAll_sound (hC : Correct inflate init At z d) {calls : List (Embedded.Bytes ω)}
    (hgiven : Given calls) {s : σ} {i j fuel : ℕ} {rest : List UInt8}
    {r : Except Excpt (List UInt8)} (hreached : Reached At z d i j (some s))
    (hdata : calls.flatMap leadData = z.drop i ++ rest)
    (hr : decodeAll inflate fuel calls (some s) = some r) :
    CallEndsLast (z.length - i) calls ∧ r = .ok (slice d j d.length) := by
  induction calls generalizing s i j r with
  | nil => exact absurd hdata (data_ne_nil hreached.1 rest)
  | cons data calls ih =>
    obtain ⟨hmade, hblocks⟩ := hgiven data List.mem_cons_self
    have hgiven' : Given calls := fun b hb => hgiven b (List.mem_cons_of_mem data hb)
    rw [List.flatMap_cons] at hdata
    cases hcall : filterZlibDecode inflate fuel (some s) data with
    | none =>
      rw [decodeAll_cons_none hcall] at hr
      cases hr
    | some r' =>
      obtain ⟨hends, zip', j', rfl, hle, hreached'⟩ :=
        call_sound hC hmade hblocks hreached hdata hcall
      rw [decodeAll_cons hcall] at hr
      obtain ⟨r'', hr'', rfl⟩ := Option.map_eq_some_iff.mp hr
      rw [CallEndsLast]
      cases zip' with
      | none =>
        obtain ⟨hend, rfl⟩ := hreached'
        rw [decodeAll_closed] at hr''
        cases hr''
        rw [if_pos (by omega), Except.map, List.append_nil]
        exact ⟨hends, rfl⟩
      | some s' =>
        have hlt := hreached'.1
        obtain ⟨hcalls, rfl⟩ := ih hgiven' hreached' (rest_of_data hdata hlt) hr''
        rw [if_neg (by omega), Nat.sub_sub, Except.map, slice_append d hle hreached'.2.1]
        exact ⟨hcalls, rfl⟩

theorem decodeAll_total (hC : Correct inflate init At z d) {calls : List (Embedded.Bytes ω)}
    (hgiven : Given calls) {s : σ} {i j fuel : ℕ} {rest : List UInt8}
    (hreached : Reached At z d i j (some s))
    (hdata : calls.flatMap leadData = z.drop i ++ rest)
    (hends : CallEndsLast (z.length - i) calls) (hfuel : d.length < fuel) :
    ∃ r, decodeAll inflate fuel calls (some s) = some r := by
  induction calls generalizing s i j with
  | nil => exact ⟨_, rfl⟩
  | cons data calls ih =>
    obtain ⟨hmade, hblocks⟩ := hgiven data List.mem_cons_self
    have hgiven' : Given calls := fun b hb => hgiven b (List.mem_cons_of_mem data hb)
    rw [List.flatMap_cons] at hdata
    rw [CallEndsLast] at hends
    have hfirst : EndsLast (z.length - i) (visible data) := by
      split_ifs at hends with hend
      · exact hends
      · refine endsLast_of_lt ?_
        rw [Hilti.Embedded.visible_flatten]
        omega
    obtain ⟨r, hcall⟩ := call_total hC hmade hblocks hreached hdata hfirst hfuel
    obtain ⟨_, zip', j', rfl, hle, hreached'⟩ := call_sound hC hmade hblocks hreached hdata hcall
    rw [decodeAll_cons hcall]
    cases zip' with
    | none =>
      rw [decodeAll_closed]
      exact ⟨_, rfl⟩
    | some s' =>
      have hlt := hreached'.1
      rw [if_neg (by omega), Nat.sub_sub] at hends
      obtain ⟨r', hr'⟩ := ih hgiven' hreached' (rest_of_data hdata hlt) hends
      rw [hr']
      exact ⟨_, rfl⟩

end

/-- A stream with anything behind it is decoded, however it is divided, if and only if it ends in the
last block of a call. -/
theorem inflates_iff (inflate : σ → List UInt8 → ℕ → Inflated σ) (init : σ)
    (At : σ → ℕ → ℕ → Prop) (z d rest : List UInt8) (calls : List (Embedded.Bytes ω))
    (hC : Correct inflate init At z d) (hz : z ≠ []) (hgiven : Given calls)
    (hdata : calls.flatMap leadData = z ++ rest) :
    Inflates inflate init d calls ↔ CallEndsLast z.length calls := by
  have hreached : Reached At z d 0 0 (some init) :=
    ⟨List.length_pos_iff.mpr hz, Nat.zero_le _, hC.start⟩
  have hall : slice d 0 d.length = d := by
    rw [slice, List.drop_zero, Nat.sub_zero, List.take_length]
  constructor
  · rintro ⟨fuel, hr⟩
    exact (decodeAll_sound hC hgiven hreached hdata hr).1
  · intro hends
    obtain ⟨r, hr⟩ := decodeAll_total hC hgiven hreached hdata hends (Nat.lt_succ_self _)
    obtain ⟨_, rfl⟩ := decodeAll_sound hC hgiven hreached hdata hr
    rw [hall] at hr
    exact ⟨d.length + 1, hr⟩

/-! ## A stream -/

/-- The stream of the text `a`. -/
def letterStream : List UInt8 :=
  [120, 156, 75, 4, 0, 0, 98, 0, 98]

/-- `inflate` for this stream, by the number of bytes that it has taken. -/
def letterInflate (taken : ℕ) (nextIn : List UInt8) (_availOut : ℕ) : Inflated ℕ :=
  let consumed := min nextIn.length (9 - taken)
  if taken + consumed = 9 then ⟨9, .streamEnd, consumed, [97]⟩
  else ⟨taken + consumed, if consumed = 0 then .bufError else .ok, consumed, []⟩

def letterAt (s i j : ℕ) : Prop :=
  s = i ∧ j = if i = 9 then 1 else 0

theorem letterInflate_correct : Correct letterInflate 0 letterAt letterStream [97] where
  start := ⟨rfl, rfl⟩
  step s i j hAt hi hj hopen x hx n hn := by
    obtain ⟨rfl, hj'⟩ := hAt
    have hlen : letterStream.length = 9 := rfl
    rw [hlen] at hi
    have hlt : s < 9 := by
      refine Nat.lt_of_le_of_ne hi fun h => hopen ⟨h, ?_⟩
      rw [hj', if_pos h]
      rfl
    rw [if_neg (by omega)] at hj'
    subst hj'
    unfold letterInflate
    by_cases hend : s + min x.length (9 - s) = 9
    · simp only [if_pos hend]
      refine ⟨⟨Nat.min_le_left _ _, by simp only [hlen]; omega⟩, ⟨List.prefix_refl _, hn⟩,
        ⟨hend.symm, ?_⟩, nofun, ⟨fun _ => ⟨hend, rfl⟩, fun _ => rfl⟩, fun _ => .inl rfl,
        fun _ _ => rfl⟩
      rw [if_pos hend]
      rfl
    · simp only [if_neg hend]
      have hall : min x.length (9 - s) = x.length := by omega
      refine ⟨⟨Nat.min_le_left _ _, by simp only [hlen]; omega⟩,
        ⟨List.nil_prefix, Nat.zero_le _⟩, ⟨rfl, ?_⟩, ?_, ⟨?_, fun h => absurd h.1 hend⟩,
        fun _ => .inr hall, fun _ h => absurd h hend⟩
      · rw [if_neg hend]
        rfl
      · split_ifs <;> exact nofun
      · split_ifs <;> exact nofun

/-- The stream in one block. -/
theorem inflates_iff_letter :
    Inflates letterInflate 0 [97] [([bytesNew letterStream] : Embedded.Bytes Unit)] ↔
      CallEndsLast 9 [([bytesNew letterStream] : Embedded.Bytes Unit)] := by
  refine inflates_iff letterInflate 0 letterAt letterStream [97] []
    [([bytesNew letterStream] : Embedded.Bytes Unit)] letterInflate_correct (by decide) ?_
    (by decide)
  intro data hdata
  obtain rfl := List.mem_singleton.mp hdata
  exact ⟨.new letterStream, by decide⟩

/-- The stream with a byte behind it, in two blocks of one call. -/
def letterAndMore : Embedded.Bytes Unit :=
  [bytesNew letterStream, ⟨false, 9, .data [0] .null false⟩]

theorem more_not_inflates : ¬ Inflates letterInflate 0 [97] [letterAndMore] := by
  rintro ⟨fuel, hr⟩
  have hmade : Made letterAndMore :=
    .apply (.appendRawCopy [0]) (.new letterStream) (by decide : _ = some (letterAndMore, none))
  have hgiven : Given [letterAndMore] := by
    intro data hdata
    obtain rfl := List.mem_singleton.mp hdata
    exact ⟨hmade, by decide⟩
  have hdata : [letterAndMore].flatMap leadData = letterStream.drop 0 ++ [0] := by decide
  have hends := (decodeAll_sound letterInflate_correct hgiven
    (show Reached letterAt letterStream [97] 0 0 (some 0) from ⟨by decide, by decide, rfl, rfl⟩)
    hdata hr).1
  have hblocks : visible letterAndMore = [letterStream, [0]] := by decide
  rw [CallEndsLast, if_pos (by decide), hblocks, EndsLast, if_pos (by decide)] at hends
  cases hends

end Hilti.Filters.Zlib
