import Hilti.Embedded.Blocks
import Hilti.File.Model

/-!
# What is written to a text file

`hlt_file_write_bytes` puts the data of a write together block by block, with unprintable bytes
escaped.  A function without a result is one whose behaviour C leaves undefined: lengths are `int`s.
Whether a byte is printable is up to the C library.
-/

namespace Hilti.File

open Hilti.Embedded

set_option autoImplicit false

/-- `Hilti_FileType`; any other value ends the program. -/
inductive FileType where
  | text
  | binary
  deriving DecidableEq

/-! ## Numbers -/

/-- The table `dig`. -/
def dig (d : ℕ) : UInt8 :=
  (if d < 10 then 48 + d else if d < 36 then 97 + (d - 10) else 65 + (d - 36)).toUInt8

/-- The first loop of `hlt_util_uitoa_n`. -/
def uitoaLoop (n base : ℕ) : ℕ → ℕ → List UInt8 → List UInt8
  | 0, _, buf => buf
  | fuel + 1, value, buf =>
    let buf := buf ++ [dig (value % base)]
    let value := value / base
    if value ≠ 0 ∧ buf.length < n - 1 then uitoaLoop n base fuel value buf else buf

/-- `hlt_util_uitoa_n`: what is written to the buffer, and the result. -/
def utilUitoaN (value n base : ℕ) (zerofill : Bool) : List UInt8 × ℕ :=
  let buf := uitoaLoop n base n value []
  let buf := if zerofill then buf ++ List.replicate (n - 1 - buf.length) 48 else buf
  (buf.reverse ++ [0], buf.length + 1)

/-- An `int8_t` as an `uint64_t`. -/
def signExtend (x : UInt8) : ℕ :=
  if x.toNat < 128 then x.toNat else 2 ^ 64 - 256 + x.toNat

/-! ## Writing -/

/-- A length as an `int`. -/
def toInt (n : ℕ) : ℤ :=
  (n : ℤ).bmod (2 ^ 32)

/-- `_add_to_cmd_data`. -/
def addToCmdData (cmd data : Data) : Option Data :=
  if 0 ≤ toInt data.length ∧ cmd.length + (toInt data.length).toNat < 2 ^ 31 then
    some (cmd ++ data.take (toInt data.length).toNat)
  else none

/-- What is added to a command for an unprintable byte: the array `buf`, and how much of it. -/
def escaped (x : UInt8) : Data :=
  let (digits, n) := utilUitoaN (signExtend x) 3 16 true
  ([92, 120] ++ digits).take (n + 2)

/-- Printable bytes are added as they are, if there are any. -/
def addRun (cmd run : Data) : Option Data :=
  if run ≠ [] then addToCmdData cmd run else some cmd

/-- The loop of `hlt_file_write_bytes` over a block of a text file, from `s` on. -/
def textLoop (isprint : UInt8 → Bool) : ℕ → Data → Data → Option Data
  | 0, _, _ => none
  | fuel + 1, s, cmd =>
    if s = [] then some cmd
    else do
      let cmd ← addRun cmd (s.takeWhile isprint)
      match s.dropWhile isprint with
      | [] => some cmd
      | x :: s => do
        let cmd ← addToCmdData cmd (escaped x)
        textLoop isprint fuel s cmd

/-- What a block adds to a command. -/
def writeBlock (isprint : UInt8 → Bool) (type : FileType) (block cmd : Data) : Option Data :=
  match type with
  | .text => textLoop isprint (block.length + 1) block cmd
  | .binary => addToCmdData cmd block

/-- The loop of `hlt_file_write_bytes` over the blocks. -/
def writeLoop (isprint : UInt8 → Bool) (type : FileType) : List Data → Data → Option Data
  | [], cmd => some cmd
  | block :: blocks, cmd =>
    if block = [] then some cmd
    else do
      let cmd ← writeBlock isprint type block cmd
      writeLoop isprint type blocks cmd

/-- A text file gets a newline behind the data. -/
def writeEnd (type : FileType) (cmd : Data) : Option Data :=
  match type with
  | .text => addToCmdData cmd [10]
  | .binary => some cmd

variable {ω : Type}

/-- The data of the command that `hlt_file_write_bytes` puts into the queue. -/
def fileWriteBytes (isprint : UInt8 → Bool) (type : FileType) (b : Bytes ω) : Option Data :=
  match rawBlocks b with
  | some (.ok blocks) => do
    let cmd ← writeLoop isprint type blocks []
    writeEnd type cmd
  | _ => none

/-! ## What is to be written -/

def hexDigit (d : ℕ) : UInt8 :=
  (Nat.digitChar d).toNat.toUInt8

/-- The four characters `\xHH`. -/
def escape (x : UInt8) : Data :=
  [92, 120, hexDigit (x.toNat / 16), hexDigit (x.toNat % 16)]

/-- The data with a piece of text for each byte. -/
def textOf (isprint : UInt8 → Bool) (piece : UInt8 → Data) (data : Data) : Data :=
  data.flatMap fun x => if isprint x then [x] else piece x

def lineEnd (type : FileType) : Data :=
  match type with
  | .text => [10]
  | .binary => []

def expected (isprint : UInt8 → Bool) (type : FileType) (data : Data) : Data :=
  match type with
  | .text => textOf isprint escape data ++ lineEnd .text
  | .binary => data ++ lineEnd .binary

/-! ## Escapes -/

theorem dig_eq_hexDigit : ∀ d < 16, dig d = hexDigit d := by
  decide

theorem uitoaLoop_two (value : ℕ) :
    uitoaLoop 3 16 3 value [] ++ List.replicate (3 - 1 - (uitoaLoop 3 16 3 value []).length) 48 =
      [dig (value % 16), dig (value / 16 % 16)] := by
  by_cases hzero : value / 16 = 0
  · simp [uitoaLoop, hzero, dig]
  · simp [uitoaLoop, hzero]

theorem escaped_eq (x : UInt8) : escaped x = escape x ++ [0] := by
  have hlt := x.toNat_lt
  have hlow : signExtend x % 16 = x.toNat % 16 := by
    rw [signExtend]
    split <;> omega
  have hhigh : signExtend x / 16 % 16 = x.toNat / 16 := by
    rw [signExtend]
    split <;> omega
  rw [escaped, utilUitoaN, if_pos rfl, uitoaLoop_two, hlow, hhigh, escape,
    dig_eq_hexDigit _ (Nat.mod_lt _ (by decide)), dig_eq_hexDigit _ (by omega)]
  rfl

/-! ## Texts -/

section

variable {isprint : UInt8 → Bool} {piece : UInt8 → Data}

theorem textOf_append (a b : Data) :
    textOf isprint piece (a ++ b) = textOf isprint piece a ++ textOf isprint piece b :=
  List.flatMap_append

theorem textOf_printable {data : Data} (h : ∀ x ∈ data, isprint x) :
    textOf isprint piece data = data := by
  induction data with
  | nil => rfl
  | cons x xs ih =>
    rw [textOf, List.flatMap_cons, if_pos (h x List.mem_cons_self)]
    exact congrArg (x :: ·) (ih fun y hy => h y (List.mem_cons_of_mem x hy))

theorem textOf_cons_unprintable {x : UInt8} (hx : ¬ isprint x) (data : Data) :
    textOf isprint piece (x :: data) = piece x ++ textOf isprint piece data := by
  rw [textOf, List.flatMap_cons, if_neg hx]
  rfl

theorem textOf_length_lt {data : Data} (h : ¬ ∀ x ∈ data, isprint x) :
    (textOf isprint escape data).length < (textOf isprint escaped data).length := by
  have hpiece : ∀ x, ((if isprint x then [x] else escape x) : Data).length ≤
      ((if isprint x then [x] else escaped x) : Data).length := fun x => by
    rw [escaped_eq]
    split <;> simp
  induction data with
  | nil => exact absurd (fun x hx => nomatch hx) h
  | cons x xs ih =>
    have hle : (textOf isprint escape xs).length ≤ (textOf isprint escaped xs).length := by
      by_cases hxs : ∀ y ∈ xs, isprint y
      · rw [textOf_printable hxs, textOf_printable hxs]
      · exact (ih hxs).le
    by_cases hx : isprint x
    · have hxs : ¬ ∀ y ∈ xs, isprint y := fun hxs => h (List.forall_mem_cons.mpr ⟨hx, hxs⟩)
      have hlt := ih hxs
      have hone := hpiece x
      rw [textOf, textOf, List.flatMap_cons, List.flatMap_cons, List.length_append,
        List.length_append]
      exact Nat.add_lt_add_of_le_of_lt hone hlt
    · rw [textOf_cons_unprintable hx, textOf_cons_unprintable hx, List.length_append,
        List.length_append, escaped_eq, List.length_append, List.length_singleton]
      omega

end

/-! ## Adding data -/

def put (cmd data : Data) : Option Data :=
  if cmd.length + data.length < 2 ^ 31 then some (cmd ++ data) else none

theorem put_nil {cmd : Data} (h : cmd.length < 2 ^ 31) : put cmd [] = some cmd := by
  rw [put, List.length_nil, Nat.add_zero cmd.length, if_pos h, List.append_nil]

theorem put_bind {cmd a b : Data} {f : Data → Option Data}
    (h : ∀ cmd' : Data, cmd'.length < 2 ^ 31 → f cmd' = put cmd' b) :
    (put cmd a).bind f = put cmd (a ++ b) := by
  rw [put, put, List.length_append]
  by_cases hfit : cmd.length + a.length < 2 ^ 31
  · have hcmd' : (cmd ++ a).length < 2 ^ 31 := by
      rw [List.length_append]
      exact hfit
    rw [if_pos hfit, Option.bind_some, h _ hcmd', put, List.length_append, Nat.add_assoc,
      List.append_assoc]
  · rw [if_neg hfit, if_neg (by omega)]
    rfl

theorem addToCmdData_eq (cmd : Data) {data : Data} (h : data.length < 2 ^ 31) :
    addToCmdData cmd data = put cmd data := by
  have hlen : toInt data.length = data.length := by
    apply Int.bmod_eq_of_le
    · omega
    · omega
  rw [addToCmdData, put, hlen, Int.toNat_natCast, List.take_length]
  by_cases hfit : cmd.length + data.length < 2 ^ 31
  · rw [if_pos hfit, if_pos ⟨Int.natCast_nonneg _, hfit⟩]
  · rw [if_neg hfit, if_neg fun h => hfit h.2]

theorem addRun_eq {cmd run : Data} (hcmd : cmd.length < 2 ^ 31) (h : run.length < 2 ^ 31) :
    addRun cmd run = put cmd run := by
  rw [addRun]
  split
  · exact addToCmdData_eq cmd h
  · next hempty => rw [not_not.mp hempty, put_nil hcmd]

theorem addToCmdData_lt {cmd data r : Data} (h : addToCmdData cmd data = some r) :
    r.length < 2 ^ 31 := by
  rw [addToCmdData] at h
  split at h
  · next hfit =>
    cases h
    have htake := List.length_take_le (toInt data.length).toNat data
    rw [List.length_append]
    exact Nat.lt_of_le_of_lt (Nat.add_le_add_left htake _) hfit.2
  · cases h

section

variable (isprint : UInt8 → Bool)

theorem textLoop_eq (fuel : ℕ) (s cmd : Data) (hfuel : s.length < fuel) (hs : s.length < 2 ^ 31)
    (hcmd : cmd.length < 2 ^ 31) :
    textLoop isprint fuel s cmd = put cmd (textOf isprint escaped s) := by
  induction fuel generalizing s cmd with
  | zero => omega
  | succ fuel ih =>
    rw [textLoop]
    by_cases hnil : s = []
    · rw [if_pos hnil, hnil]
      exact (put_nil hcmd).symm
    · have hsplit := List.takeWhile_append_dropWhile (p := isprint) (l := s)
      have hlen := congrArg List.length hsplit
      rw [List.length_append] at hlen
      have hrun : addRun cmd (s.takeWhile isprint) = put cmd (s.takeWhile isprint) :=
        addRun_eq hcmd (by omega)
      have htext : textOf isprint escaped (s.takeWhile isprint) = s.takeWhile isprint :=
        textOf_printable fun x hx => List.mem_takeWhile_imp hx
      rw [if_neg hnil]
      conv_rhs => rw [← hsplit, textOf_append, htext]
      rw [hrun]
      refine put_bind fun cmd' hcmd' => ?_
      cases hrest : s.dropWhile isprint with
      | nil => exact (put_nil hcmd').symm
      | cons x s' =>
        have hx : ¬ isprint x := by
          have hnot := List.head?_dropWhile_not isprint s
          rw [hrest] at hnot
          simpa using hnot
        have hpiece : (escaped x).length < 2 ^ 31 := by
          rw [escaped_eq]
          exact show 5 < 2 ^ 31 by decide
        rw [hrest, List.length_cons] at hlen
        rw [textOf_cons_unprintable hx]
        dsimp only
        rw [addToCmdData_eq cmd' hpiece]
        exact put_bind fun cmd'' hcmd'' => ih s' cmd'' (by omega) (by omega) hcmd''

theorem textLoop_lt {fuel : ℕ} {s cmd r : Data} (hcmd : cmd.length < 2 ^ 31)
    (h : textLoop isprint fuel s cmd = some r) : r.length < 2 ^ 31 := by
  induction fuel generalizing s cmd with
  | zero => cases h
  | succ fuel ih =>
    rw [textLoop] at h
    split at h
    · cases h
      exact hcmd
    · obtain ⟨cmd₁, hrun, h⟩ := Option.bind_eq_some_iff.mp h
      have hcmd₁ : cmd₁.length < 2 ^ 31 := by
        rw [addRun] at hrun
        split at hrun
        · exact addToCmdData_lt hrun
        · cases hrun
          exact hcmd
      split at h
      · cases h
        exact hcmd₁
      · obtain ⟨cmd₂, hadd, h⟩ := Option.bind_eq_some_iff.mp h
        exact ih (addToCmdData_lt hadd) h

def bodyOf (type : FileType) (data : Data) : Data :=
  match type with
  | .text => textOf isprint escaped data
  | .binary => data

theorem bodyOf_append (type : FileType) (a b : Data) :
    bodyOf isprint type (a ++ b) = bodyOf isprint type a ++ bodyOf isprint type b := by
  cases type with
  | text => exact textOf_append a b
  | binary => rfl

theorem writeLoop_eq (type : FileType) (blocks : List Data) (cmd : Data)
    (hblocks : ∀ block ∈ blocks, block ≠ []) (hlen : blocks.flatten.length < 2 ^ 31)
    (hcmd : cmd.length < 2 ^ 31) :
    writeLoop isprint type blocks cmd = put cmd (bodyOf isprint type blocks.flatten) := by
  induction blocks generalizing cmd with
  | nil =>
    rw [writeLoop]
    cases type <;> exact (put_nil hcmd).symm
  | cons block blocks ih =>
    obtain ⟨hblock, hblocks⟩ := List.forall_mem_cons.mp hblocks
    rw [List.flatten_cons, List.length_append] at hlen
    have hrest : ∀ cmd' : Data, cmd'.length < 2 ^ 31 → writeLoop isprint type blocks cmd' =
        put cmd' (bodyOf isprint type blocks.flatten) :=
      fun cmd' hcmd' => ih cmd' hblocks (by omega) hcmd'
    have hone : writeBlock isprint type block cmd = put cmd (bodyOf isprint type block) := by
      cases type with
      | text => exact textLoop_eq isprint _ _ _ (Nat.lt_succ_self _) (by omega) hcmd
      | binary => exact addToCmdData_eq cmd (by omega)
    rw [writeLoop, if_neg hblock, List.flatten_cons, bodyOf_append, hone]
    exact put_bind hrest

theorem writeLoop_lt {type : FileType} {blocks : List Data} {cmd r : Data}
    (hcmd : cmd.length < 2 ^ 31) (h : writeLoop isprint type blocks cmd = some r) :
    r.length < 2 ^ 31 := by
  induction blocks generalizing cmd with
  | nil =>
    cases h
    exact hcmd
  | cons block blocks ih =>
    rw [writeLoop] at h
    split at h
    · cases h
      exact hcmd
    · obtain ⟨cmd₁, hone, h⟩ := Option.bind_eq_some_iff.mp h
      refine ih ?_ h
      cases type with
      | text => exact textLoop_lt isprint hcmd hone
      | binary => exact addToCmdData_lt hone

end

/-! ## When the text is right -/

section

variable (isprint : UInt8 → Bool) (type : FileType) {b : Bytes ω}

theorem fileWriteBytes_eq (h : Made b) (hlen : (leadData b).length < 2 ^ 31) :
    fileWriteBytes isprint type b = put [] (bodyOf isprint type (leadData b) ++ lineEnd type) := by
  have hwrite : writeLoop isprint type (visible b) [] =
      put [] (bodyOf isprint type (leadData b)) := by
    rw [← visible_flatten] at hlen ⊢
    rcases made_visible h with hempty | hblocks
    · rw [hempty]
      cases type <;> rfl
    · exact writeLoop_eq isprint type _ [] hblocks hlen (by decide)
  rw [fileWriteBytes, rawBlocks_eq (made_lead h)]
  dsimp only
  rw [hwrite]
  refine put_bind fun cmd hcmd => ?_
  cases type with
  | text => exact addToCmdData_eq cmd (show 1 < 2 ^ 31 by decide)
  | binary => exact (put_nil hcmd).symm

theorem fileWriteBytes_lt {r : Data} (h : fileWriteBytes isprint type b = some r) :
    r.length < 2 ^ 31 := by
  unfold fileWriteBytes at h
  split at h
  · obtain ⟨cmd, hwrite, hend⟩ := Option.bind_eq_some_iff.mp h
    cases type with
    | text => exact addToCmdData_lt hend
    | binary =>
      cases hend
      exact writeLoop_lt isprint (by decide) hwrite
  · cases h

theorem length_le_expected (data : Data) : data.length ≤ (expected isprint type data).length := by
  cases type with
  | text =>
    have hle : data.length ≤ (textOf isprint escape data).length := by
      induction data with
      | nil => exact Nat.le_refl 0
      | cons x xs ih =>
        have hone : 1 ≤ ((if isprint x then [x] else escape x) : Data).length := by
          split <;> simp [escape]
        rw [textOf, List.flatMap_cons, List.length_append, List.length_cons]
        exact (Nat.add_comm xs.length 1).trans_le (Nat.add_le_add hone ih)
    rw [expected, List.length_append]
    exact Nat.le_add_right_of_le hle
  | binary =>
    rw [expected, List.length_append]
    exact Nat.le_add_right _ _

theorem bodyOf_eq_expected_iff (data : Data) :
    bodyOf isprint type data ++ lineEnd type = expected isprint type data ↔
      type = .binary ∨ ∀ x ∈ data, isprint x := by
  cases type with
  | text =>
    rw [expected, List.append_cancel_right_eq, bodyOf]
    constructor
    · intro heq
      by_contra hnot
      have hlt := textOf_length_lt fun hall => hnot (.inr hall)
      rw [heq] at hlt
      exact Nat.lt_irrefl _ hlt
    · rintro (hbinary | hall)
      · cases hbinary
      · rw [textOf_printable hall, textOf_printable hall]
  | binary => exact iff_of_true rfl (.inl rfl)

/-- The right data is put into the queue if and only if an `int` can count it and, for a text file,
every byte is printable. -/
theorem fileWriteBytes_expected_iff (h : Made b) :
    fileWriteBytes isprint type b = some (expected isprint type (leadData b)) ↔
      (expected isprint type (leadData b)).length < 2 ^ 31 ∧
        (type = .binary ∨ ∀ x ∈ leadData b, isprint x) := by
  have hle := length_le_expected isprint type (leadData b)
  constructor
  · intro heq
    have hlt := fileWriteBytes_lt isprint type heq
    rw [fileWriteBytes_eq isprint type h (Nat.lt_of_le_of_lt hle hlt), put] at heq
    split at heq
    · exact ⟨hlt, (bodyOf_eq_expected_iff isprint type _).mp (Option.some.inj heq)⟩
    · cases heq
  · rintro ⟨hlt, hplain⟩
    rw [fileWriteBytes_eq isprint type h (Nat.lt_of_le_of_lt hle hlt),
      (bodyOf_eq_expected_iff isprint type _).mpr hplain, put, if_pos]
    · rfl
    · rwa [List.length_nil, Nat.zero_add]

theorem fileWriteBytes_expected_iff_hello :
    fileWriteBytes (ω := Unit) (fun x => 32 ≤ x && x < 127) .text [bytesNew [104, 105]] =
        some (expected (fun x => 32 ≤ x && x < 127) .text [104, 105]) ↔
      (expected (fun x => 32 ≤ x && x < 127) .text [104, 105]).length < 2 ^ 31 ∧
        (FileType.text = .binary ∨ ∀ x ∈ ([104, 105] : Data), 32 ≤ x && x < 127) :=
  fileWriteBytes_expected_iff _ .text (.new [104, 105])

/-- A zero follows an escaped byte. -/
theorem fileWriteBytes_control :
    fileWriteBytes (ω := Unit) (fun x => 32 ≤ x && x < 127) .text [bytesNew [1]] ≠
      some (expected (fun x => 32 ≤ x && x < 127) .text [1]) := by
  decide

end

end Hilti.File
