import Mathlib.Data.Nat.Digits.Lemmas
import Hilti.Strings.Model

/-!
# Formatting

`libhilti/module/fmt.c`.  A value comes with its type's conversions, and with the pointer at its
start where it has enough bytes for one.  What `printf` makes of a double is a parameter.  A format
that is a null pointer, types behind the last one and values that are too short have no result.
-/

namespace Hilti.Strings.Fmt

set_option autoImplicit false

variable {α δ ε : Type}

/-! ## Arguments -/

/-- The exceptions of the function, and those that a conversion can raise. -/
inductive Excpt (ε : Type) where
  | wrongArguments
  | valueError
  | conversion (e : ε)

/-- `HLT_CONVERT_NONE` and `HLT_CONVERT_UNSIGNED`. -/
inductive Convert where
  | none
  | unsigned

/-- `hlt_type_info`. -/
structure TypeInfo (α δ ε : Type) where
  tag : List UInt8
  toInt64 : Option (α → Convert → Except ε (BitVec 64))
  toDouble : Option (α → Except ε δ)
  toString : Option (α → Except ε HltString)

structure Element (α δ ε : Type) where
  type : TypeInfo α δ ε
  value : α
  pointer : Option (BitVec 64)

/-- The format characters that `_do_fmt` knows: `d`, `u`, `x`, `f`, `p` and `s`. -/
inductive Directive where
  | signed
  | unsigned
  | hex
  | double
  | pointer
  | string
  deriving DecidableEq

def directive (c : UInt8) : Option Directive :=
  if c = 100 then some .signed
  else if c = 117 then some .unsigned
  else if c = 120 then some .hex
  else if c = 102 then some .double
  else if c = 112 then some .pointer
  else if c = 115 then some .string
  else none

/-! ## Numbers -/

def digit (n : ℕ) : UInt8 :=
  UInt8.ofNat (if n < 10 then 48 + n else 87 + n)

/-- What `printf` makes of a number. -/
def number (base n : ℕ) : List UInt8 :=
  if n = 0 then [48] else ((Nat.digits base n).map digit).reverse

def decimal (i : BitVec 64) : List UInt8 :=
  if i.toInt < 0 then 45 :: number 10 i.toInt.natAbs else number 10 i.toInt.natAbs

/-- A pointer of any library, `0x0` for the null pointer. -/
def address (p : BitVec 64) : List UInt8 :=
  48 :: 120 :: number 16 p.toNat

/-- `tmp_size`. -/
def tmpSize : ℕ := 32

/-- `snprintf` into `tmp`, up to the null byte. -/
def snprintf (text : List UInt8) : List UInt8 :=
  text.take (tmpSize - 1)

/-! ## The output -/

/-- `BufferSize`. -/
def bufferSize : ℕ := 128

/-- The `bpos` first characters of the buffer, and `dst`. -/
structure Output where
  buffer : List UInt8
  dst : HltString
  fits : buffer.length < bufferSize

/-- `hlt_string_concat`. -/
def stringConcat (s1 s2 : HltString) : HltString :=
  if (bytesOf s1).length = 0 then s2
  else if (bytesOf s2).length = 0 then s1
  else some (bytesOf s1 ++ bytesOf s2)

/-- `_add_char`. -/
def addChar (o : Output) (c : UInt8) : Output :=
  if h : o.buffer.length < bufferSize - 1 then
    ⟨o.buffer ++ [c], o.dst, by rw [List.length_append, List.length_singleton]; omega⟩
  else ⟨[c], stringConcat o.dst (some o.buffer), by rw [bufferSize, List.length_singleton]; omega⟩

/-- `_add_chars` and `_add_asciiz`. -/
def addChars (o : Output) (data : List UInt8) : Output :=
  data.foldl addChar o

/-! ## The function -/

/-- The cases of the integer formats. -/
def fmtInt (convert : Convert) (print : BitVec 64 → List UInt8) (e : Element α δ ε) :
    Except (Excpt ε) (List UInt8) :=
  match e.type.toInt64 with
  | none => .error .valueError
  | some toInt64 =>
    match toInt64 e.value convert with
    | .error x => .error (.conversion x)
    | .ok i => .ok (snprintf (print i))

/-- What the `switch` of `_do_fmt` adds for an argument. -/
def fmtArg (printDouble : δ → List UInt8) (d : Directive) (e : Element α δ ε) :
    Option (Except (Excpt ε) (List UInt8)) :=
  match d with
  | .signed => some (fmtInt .none decimal e)
  | .unsigned => some (fmtInt .unsigned (fun i => number 10 i.toNat) e)
  | .hex => some (fmtInt .unsigned (fun i => number 16 i.toNat) e)
  | .double =>
    match e.type.toDouble with
    | none => some (.error .valueError)
    | some toDouble =>
      match toDouble e.value with
      | .error x => some (.error (.conversion x))
      | .ok v => some (.ok (snprintf (printDouble v)))
  | .pointer => e.pointer.map fun p => .ok (if p ≠ 0 then snprintf (address p) else [48, 120, 48])
  | .string =>
    match e.type.toString with
    | none => some (.ok e.type.tag)
    | some toString =>
      match toString e.value with
      | .error x => some (.error (.conversion x))
      | .ok str => some (.ok (bytesOf str))

/-- `_do_fmt` for the format character `c`, where `k` is `type_param`.  Without an argument, the type
is one behind the last one; that of a pointer is not used. -/
def doFmt (printDouble : δ → List UInt8) (tuple : List (Element α δ ε)) (k : ℕ) (c : UInt8)
    (o : Output) : Option (Except (Excpt ε) Output) :=
  match directive c with
  | none => some (.error .wrongArguments)
  | some d =>
    match tuple[k]? with
    | some e => (fmtArg printDouble d e).map fun r => r.map (addChars o)
    | none => if d = .pointer then some (.ok (addChars o [48, 120, 48])) else none

/-- The loop of `hilti_fmt` over what is left of the format. -/
def fmtLoop (printDouble : δ → List UInt8) (tuple : List (Element α δ ε)) :
    List UInt8 → ℕ → Output → Option (Except (Excpt ε) Output)
  | [], _, o => some (.ok o)
  | c :: p, k, o =>
    if c = 37 then
      match p with
      | [] => some (.error .wrongArguments)
      | c :: p =>
        if c ≠ 37 then
          match doFmt printDouble tuple k c o with
          | none => none
          | some (.error x) => some (.error x)
          | some (.ok o) => fmtLoop printDouble tuple p (k + 1) o
        else fmtLoop printDouble tuple p k (addChar o c)
    else fmtLoop printDouble tuple p k (addChar o c)

/-- `hilti_fmt`. -/
def hiltiFmt (printDouble : δ → List UInt8) (fmt : HltString) (tuple : List (Element α δ ε)) :
    Option (Except (Excpt ε) HltString) :=
  match fmt with
  | none => none
  | some p =>
    match fmtLoop printDouble tuple p 0 ⟨[], none, Nat.succ_pos _⟩ with
    | none => none
    | some (.error x) => some (.error x)
    | some (.ok o) =>
      let result : HltString := some o.buffer
      some (.ok (if o.dst.isSome then stringConcat o.dst result else result))

/-! ## What formatting is -/

/-- A format is a list of characters and directives. -/
inductive Item where
  | char (c : UInt8)
  | directive (d : Directive)
  | malformed

def items : List UInt8 → List Item
  | [] => []
  | c :: p =>
    if c = 37 then
      match p with
      | [] => [.malformed]
      | c :: p =>
        if c = 37 then .char 37 :: items p
        else (directive c).elim .malformed .directive :: items p
    else .char c :: items p

/-- What a conversion gives. -/
def converted {β : Type} (r : Option (Except ε β)) : Option β :=
  r.bind Except.toOption

/-- What a directive makes of an argument whose type it fits. -/
def rendering (printDouble : δ → List UInt8) (d : Directive) (e : Element α δ ε) :
    Option (List UInt8) :=
  match d with
  | .signed => (converted (e.type.toInt64.map (· e.value .none))).map decimal
  | .unsigned => (converted (e.type.toInt64.map (· e.value .unsigned))).map fun i => number 10 i.toNat
  | .hex => (converted (e.type.toInt64.map (· e.value .unsigned))).map fun i => number 16 i.toNat
  | .double => (converted (e.type.toDouble.map (· e.value))).map printDouble
  | .pointer => e.pointer.map address
  | .string =>
    match e.type.toString with
    | none => some e.type.tag
    | some toString => (toString e.value).toOption.map bytesOf

/-- The format with its directives replaced, where each of them can be. -/
def substitute (printDouble : δ → List UInt8) :
    List Item → List (Element α δ ε) → Option (List UInt8)
  | [], _ => some []
  | .char c :: l, es => (substitute printDouble l es).map (c :: ·)
  | .malformed :: _, _ => none
  | .directive _ :: _, [] => none
  | .directive d :: l, e :: es => do
    let text ← rendering printDouble d e
    let rest ← substitute printDouble l es
    some (text ++ rest)

/-- It returns the format with its directives replaced, or else raises an exception. -/
def Substitutes (printDouble : δ → List UInt8) (fmt : HltString) (tuple : List (Element α δ ε)) :
    Prop :=
  match substitute printDouble (items (bytesOf fmt)) tuple with
  | some text => ∃ s, hiltiFmt printDouble fmt tuple = some (.ok s) ∧ bytesOf s = text
  | none => ∃ x, hiltiFmt printDouble fmt tuple = some (.error x)

/-! ## When it does that -/

/-- No more than pointers up to something malformed. -/
def Stops : List Item → Prop
  | [] => False
  | .char _ :: l => Stops l
  | .malformed :: _ => True
  | .directive d :: l => d = .pointer ∧ Stops l

/-- Up to the first directive that does not fit, no argument is missing or too short for a pointer;
but that of a pointer can be missing in front of something malformed. -/
def Provided (printDouble : δ → List UInt8) : List Item → List (Element α δ ε) → Prop
  | [], _ => True
  | .char _ :: l, es => Provided printDouble l es
  | .malformed :: _, _ => True
  | .directive d :: l, [] => d = .pointer ∧ Stops l
  | .directive d :: l, e :: es =>
    (d = .pointer → e.pointer.isSome) ∧ ((rendering printDouble d e).isSome → Provided printDouble l es)

/-- All doubles fit into `tmp`. -/
def ShortDoubles (printDouble : δ → List UInt8) : List Item → List (Element α δ ε) → Prop
  | [], _ => True
  | .char _ :: l, es => ShortDoubles printDouble l es
  | .malformed :: l, es => ShortDoubles printDouble l es
  | .directive _ :: _, [] => True
  | .directive d :: l, e :: es =>
    (d = .double → ∀ text ∈ rendering printDouble d e, text.length < tmpSize) ∧
      ShortDoubles printDouble l es

structure Meets (printDouble : δ → List UInt8) (fmt : HltString) (tuple : List (Element α δ ε)) :
    Prop where
  notNull : fmt.isSome
  provided : Provided printDouble (items (bytesOf fmt)) tuple
  short : (substitute printDouble (items (bytesOf fmt)) tuple).isSome →
    ShortDoubles printDouble (items (bytesOf fmt)) tuple

section

variable {printDouble : δ → List UInt8}

/-! ## Text that fits -/

theorem number_length {base n k : ℕ} (hbase : 1 < base) (hk : 0 < k) (hn : n < base ^ k) :
    (number base n).length ≤ k := by
  rw [number]
  split
  · exact hk
  · rw [List.length_reverse, List.length_map]
    exact (Nat.digits_length_le_iff hbase n).mpr hn

theorem decimal_length (i : BitVec 64) : (decimal i).length ≤ 20 := by
  have hlow := BitVec.le_toInt i
  have hhigh := BitVec.toInt_lt (x := i)
  have hnum : (number 10 i.toInt.natAbs).length ≤ 19 := by
    apply number_length (by omega) (by omega)
    omega
  rw [decimal]
  split
  · rw [List.length_cons]
    omega
  · omega

theorem address_length (p : BitVec 64) : (address p).length ≤ 18 := by
  have hnum : (number 16 p.toNat).length ≤ 16 := by
    apply number_length (by omega) (by omega)
    have := p.isLt
    omega
  rw [address, List.length_cons, List.length_cons]
  omega

theorem snprintf_fits {text : List UInt8} (h : text.length < tmpSize) : snprintf text = text :=
  List.take_of_length_le (Nat.le_sub_one_of_lt h)

theorem snprintf_eq_iff {text : List UInt8} : snprintf text = text ↔ text.length < tmpSize := by
  constructor
  · intro h
    have hlen := congrArg List.length h
    rw [snprintf, List.length_take, tmpSize] at hlen
    rw [tmpSize]
    omega
  · exact snprintf_fits

/-! ## Arguments -/

theorem fmtInt_eq (convert : Convert) {print : BitVec 64 → List UInt8}
    (hprint : ∀ i, (print i).length < tmpSize) (e : Element α δ ε) :
    (fmtInt convert print e).toOption =
      (converted (e.type.toInt64.map (· e.value convert))).map print := by
  rw [fmtInt]
  cases e.type.toInt64 with
  | none => rfl
  | some toInt64 =>
    dsimp only [Option.map_some, converted, Option.bind_some]
    cases toInt64 e.value convert with
    | error x => rfl
    | ok i => exact congrArg some (snprintf_fits (hprint i))

theorem fmtArg_eq (d : Directive) (e : Element α δ ε) (hpointer : d = .pointer → e.pointer.isSome) :
    ∃ r, fmtArg printDouble d e = some r ∧
      r.toOption = if d = .double then (rendering printDouble d e).map snprintf
        else rendering printDouble d e := by
  have h64 (base : ℕ) (hbase : 2 ^ 64 ≤ base ^ 20) (h1 : 1 < base) (i : BitVec 64) :
      (number base i.toNat).length < tmpSize := by
    have hnum := number_length h1 (k := 20) (by omega) (lt_of_lt_of_le i.isLt hbase)
    rw [tmpSize]
    omega
  cases d with
  | signed => exact ⟨_, rfl, fmtInt_eq _ (fun i => by have := decimal_length i; rw [tmpSize]; omega) e⟩
  | unsigned => exact ⟨_, rfl, fmtInt_eq _ (h64 10 (by norm_num) (by omega)) e⟩
  | hex => exact ⟨_, rfl, fmtInt_eq _ (h64 16 (by norm_num) (by omega)) e⟩
  | double =>
    rw [if_pos rfl, fmtArg, rendering]
    cases e.type.toDouble with
    | none => exact ⟨_, rfl, rfl⟩
    | some toDouble =>
      dsimp only [Option.map_some, converted, Option.bind_some]
      cases toDouble e.value with
      | error x => exact ⟨_, rfl, rfl⟩
      | ok v => exact ⟨_, rfl, rfl⟩
  | pointer =>
    obtain ⟨p, hp⟩ := Option.isSome_iff_exists.mp (hpointer rfl)
    rw [fmtArg, rendering, hp]
    refine ⟨_, rfl, congrArg some ?_⟩
    split
    · exact snprintf_fits (by have := address_length p; rw [tmpSize]; omega)
    · rename_i hnull
      rw [not_not.mp hnull]
      rfl
  | string =>
    rw [fmtArg, rendering]
    cases e.type.toString with
    | none => exact ⟨_, rfl, rfl⟩
    | some toString =>
      dsimp only
      cases toString e.value with
      | error x => exact ⟨_, rfl, rfl⟩
      | ok str => exact ⟨_, rfl, rfl⟩

/-! ## The output -/

theorem stringConcat_bytes (s1 s2 : HltString) :
    bytesOf (stringConcat s1 s2) = bytesOf s1 ++ bytesOf s2 := by
  rw [stringConcat]
  split
  · rename_i h
    rw [List.length_eq_zero_iff.mp h, List.nil_append]
  · split
    · rename_i h
      rw [List.length_eq_zero_iff.mp h, List.append_nil]
    · rfl

def Output.text (o : Output) : List UInt8 :=
  bytesOf o.dst ++ o.buffer

theorem addChar_text (o : Output) (c : UInt8) : (addChar o c).text = o.text ++ [c] := by
  rw [addChar]
  split
  · exact (List.append_assoc _ _ _).symm
  · rw [Output.text, stringConcat_bytes]
    rfl

theorem addChars_text (o : Output) (data : List UInt8) : (addChars o data).text = o.text ++ data := by
  induction data generalizing o with
  | nil => exact (List.append_nil _).symm
  | cons c data ih =>
    have hrest : addChars o (c :: data) = addChars (addChar o c) data := rfl
    rw [hrest, ih, addChar_text, List.append_assoc]
    rfl

/-! ## The loop over the items -/

def acted (printDouble : δ → List UInt8) :
    List Item → List (Element α δ ε) → Option (Option (List UInt8))
  | [], _ => some (some [])
  | .char c :: l, es => (acted printDouble l es).map (Option.map (c :: ·))
  | .malformed :: _, _ => some none
  | .directive d :: l, [] =>
    if d = .pointer then (acted printDouble l []).map (Option.map ([48, 120, 48] ++ ·)) else none
  | .directive d :: l, e :: es =>
    match fmtArg printDouble d e with
    | none => none
    | some (.error _) => some none
    | some (.ok text) => (acted printDouble l es).map (Option.map (text ++ ·))

/-- The result of the loop: it has added the text, or raised, or has none. -/
inductive Adds (o : Output) : Option (Option (List UInt8)) → Option (Except (Excpt ε) Output) → Prop
  | stuck : Adds o none none
  | raised (x : Excpt ε) : Adds o (some none) (some (.error x))
  | done {o' : Output} {text : List UInt8} (h : o'.text = o.text ++ text) :
      Adds o (some (some text)) (some (.ok o'))

theorem Adds.after {o o₁ : Output} {text : List UInt8} {t : Option (Option (List UInt8))}
    {r : Option (Except (Excpt ε) Output)} (h₁ : o₁.text = o.text ++ text) (h : Adds o₁ t r) :
    Adds o (t.map (Option.map (text ++ ·))) r := by
  cases h with
  | stuck => exact Adds.stuck
  | raised x => exact Adds.raised x
  | done h =>
    apply Adds.done
    rw [h, h₁, List.append_assoc]

theorem fmtLoop_adds (tuple : List (Element α δ ε)) (p : List UInt8) (k : ℕ) (o : Output) :
    Adds o (acted printDouble (items p) (tuple.drop k)) (fmtLoop printDouble tuple p k o) := by
  induction p using items.induct generalizing k o with
  | case1 => exact Adds.done (List.append_nil _).symm
  | case2 => exact Adds.raised _
  | case3 p ih => exact (ih k (addChar o 37)).after (addChar_text o 37)
  | case4 c p hc ih =>
    have hitems : items (37 :: c :: p) = (directive c).elim .malformed .directive :: items p := by
      rw [items, if_pos rfl]
      exact if_neg hc
    have hloop : fmtLoop printDouble tuple (37 :: c :: p) k o =
        match doFmt printDouble tuple k c o with
        | none => none
        | some (.error x) => some (.error x)
        | some (.ok o) => fmtLoop printDouble tuple p (k + 1) o := by
      rw [fmtLoop, if_pos rfl]
      exact if_pos hc
    rw [hitems, hloop, doFmt]
    cases directive c with
    | none => exact Adds.raised _
    | some d =>
      dsimp only [Option.elim_some]
      cases htuple : tuple[k]? with
      | none =>
        have hlen := List.getElem?_eq_none_iff.mp htuple
        have hih := ih (k + 1) (addChars o [48, 120, 48])
        rw [List.drop_eq_nil_of_le (Nat.le_succ_of_le hlen)] at hih
        rw [List.drop_eq_nil_of_le hlen, acted]
        by_cases hd : d = .pointer
        · rw [if_pos hd, if_pos hd]
          exact hih.after (addChars_text o _)
        · rw [if_neg hd, if_neg hd]
          exact Adds.stuck
      | some e =>
        obtain ⟨hk, rfl⟩ := List.getElem?_eq_some_iff.mp htuple
        rw [List.drop_eq_getElem_cons hk, acted]
        dsimp only
        cases fmtArg printDouble d tuple[k] with
        | none => exact Adds.stuck
        | some r =>
          cases r with
          | error x => exact Adds.raised x
          | ok text => exact (ih (k + 1) (addChars o text)).after (addChars_text o text)
  | case5 c p hc ih =>
    have hitems : items (c :: p) = .char c :: items p := by
      rw [items.eq_def]
      exact if_neg hc
    have hloop : fmtLoop printDouble tuple (c :: p) k o = fmtLoop printDouble tuple p k (addChar o c) := by
      rw [fmtLoop.eq_def]
      exact if_neg hc
    rw [hitems, hloop]
    exact (ih k (addChar o c)).after (addChar_text o c)

theorem hiltiFmt_acted (p : List UInt8) (tuple : List (Element α δ ε)) :
    match acted printDouble (items p) tuple with
    | none => hiltiFmt printDouble (some p) tuple = none
    | some none => ∃ x, hiltiFmt printDouble (some p) tuple = some (.error x)
    | some (some text) =>
      ∃ s, hiltiFmt printDouble (some p) tuple = some (.ok s) ∧ bytesOf s = text := by
  have h : Adds ⟨[], none, Nat.succ_pos _⟩ (acted printDouble (items p) (tuple.drop 0))
      (fmtLoop printDouble tuple p 0 ⟨[], none, Nat.succ_pos _⟩) := fmtLoop_adds tuple p 0 _
  rw [List.drop_zero] at h
  rw [hiltiFmt]
  generalize acted printDouble (items p) tuple = t at h ⊢
  generalize fmtLoop printDouble tuple p 0 _ = r at h ⊢
  cases h with
  | stuck => rfl
  | raised x => exact ⟨x, rfl⟩
  | @done o text h =>
    refine ⟨_, rfl, ?_⟩
    have htext : o.text = text := h
    rw [← htext, Output.text]
    cases o.dst with
    | none => rfl
    | some d => exact stringConcat_bytes (some d) (some o.buffer)

/-! ## What the items give -/

theorem map_raised {β : Type} (f : β → β) (t : Option (Option β)) :
    t.map (Option.map f) = some none ↔ t = some none := by
  cases t with
  | none => exact Iff.rfl
  | some t =>
    cases t with
    | none => exact Iff.rfl
    | some text => simp

theorem acted_stops (l : List Item) :
    acted printDouble l ([] : List (Element α δ ε)) = some none ↔ Stops l := by
  induction l with
  | nil => exact iff_of_false (by simp [acted]) (fun h => h)
  | cons item l ih =>
    cases item with
    | char c => exact (map_raised _ _).trans ih
    | malformed => exact iff_of_true rfl trivial
    | directive d =>
      rw [acted, Stops]
      by_cases hd : d = .pointer
      · rw [if_pos hd, and_iff_right hd]
        exact (map_raised _ _).trans ih
      · rw [if_neg hd]
        exact iff_of_false (by simp) (fun h => hd h.1)

theorem fmtArg_short {e : Element α δ ε} (h : e.pointer = none) :
    fmtArg printDouble .pointer e = none := by
  rw [fmtArg, h]
  rfl

theorem acted_directive (d : Directive) (l : List Item) (e : Element α δ ε)
    (es : List (Element α δ ε)) (hpointer : d = .pointer → e.pointer.isSome) :
    acted printDouble (.directive d :: l) (e :: es) =
      match rendering printDouble d e with
      | none => some none
      | some text => (acted printDouble l es).map
          (Option.map ((if d = .double then snprintf text else text) ++ ·)) := by
  obtain ⟨r, hr, heq⟩ : ∃ r, fmtArg printDouble d e = some r ∧
      r.toOption = if d = .double then (rendering printDouble d e).map snprintf
        else rendering printDouble d e := fmtArg_eq d e hpointer
  rw [acted, hr]
  cases hrendering : rendering printDouble d e with
  | none =>
    rw [hrendering, Option.map_none, ite_self] at heq
    cases r with
    | error x => rfl
    | ok text => cases heq
  | some text =>
    rw [hrendering, Option.map_some, ← apply_ite some] at heq
    cases r with
    | error x => cases heq
    | ok text' =>
      cases heq
      rfl

theorem substitute_directive {d : Directive} {l : List Item} {e : Element α δ ε}
    {es : List (Element α δ ε)} {text : List UInt8} :
    substitute printDouble (.directive d :: l) (e :: es) = some text ↔
      ∃ a rest, rendering printDouble d e = some a ∧ substitute printDouble l es = some rest ∧
        a ++ rest = text := by
  rw [substitute]
  simp only [Option.bind_eq_bind, Option.bind_eq_some_iff, Option.some.injEq]
  constructor
  · intro h
    obtain ⟨a, ha, rest, hrest, heq⟩ := h
    exact ⟨a, rest, ha, hrest, heq⟩
  · intro h
    obtain ⟨a, rest, ha, hrest, heq⟩ := h
    exact ⟨a, ha, rest, hrest, heq⟩

theorem pointer_of_rendering {d : Directive} {e : Element α δ ε} {text : List UInt8}
    (h : rendering printDouble d e = some text) (hd : d = .pointer) : e.pointer.isSome := by
  rw [hd, rendering] at h
  obtain ⟨p, hp, _⟩ := Option.map_eq_some_iff.mp h
  exact Option.isSome_iff_exists.mpr ⟨p, hp⟩

theorem acted_none (l : List Item) (es : List (Element α δ ε))
    (h : substitute printDouble l es = none) :
    acted printDouble l es = some none ↔ Provided printDouble l es := by
  induction l generalizing es with
  | nil => cases h
  | cons item l ih =>
    cases item with
    | char c => exact (map_raised _ _).trans (ih es (Option.map_eq_none_iff.mp h))
    | malformed => exact iff_of_true rfl trivial
    | directive d =>
      cases es with
      | nil => exact acted_stops (.directive d :: l)
      | cons e es =>
        rw [Provided]
        by_cases hpointer : d = .pointer → e.pointer.isSome
        · rw [and_iff_right hpointer, acted_directive d l e es hpointer]
          cases hrendering : rendering printDouble d e with
          | none => exact iff_of_true rfl (fun h => by cases h)
          | some text =>
            have hrest : substitute printDouble l es = none := by
              rw [Option.eq_none_iff_forall_ne_some] at h ⊢
              intro rest hrest
              exact h _ (substitute_directive.mpr ⟨text, rest, hrendering, hrest, rfl⟩)
            rw [imp_iff_right (show (some text).isSome from rfl)]
            exact (map_raised _ _).trans (ih es hrest)
        · have hd : d = .pointer := by
            by_contra hne
            exact hpointer (fun h => absurd h hne)
          have hnone : e.pointer = none := by
            rw [imp_iff_right hd, Option.not_isSome_iff_eq_none] at hpointer
            exact hpointer
          rw [acted, hd, fmtArg_short hnone]
          exact iff_of_false (by simp) (fun h => by simp [hnone] at h)

theorem provided_of_some {l : List Item} {es : List (Element α δ ε)} {text : List UInt8}
    (h : substitute printDouble l es = some text) : Provided printDouble l es := by
  induction l generalizing es text with
  | nil => trivial
  | cons item l ih =>
    cases item with
    | char c =>
      obtain ⟨rest, hrest, _⟩ := Option.map_eq_some_iff.mp h
      exact ih hrest
    | malformed => cases h
    | directive d =>
      cases es with
      | nil => cases h
      | cons e es =>
        obtain ⟨a, rest, ha, hrest, _⟩ := substitute_directive.mp h
        exact ⟨pointer_of_rendering ha, fun _ => ih hrest⟩

theorem append_eq_iff_of_le {x x' y y' : List UInt8} (hx : x'.length ≤ x.length)
    (hy : y'.length ≤ y.length) : x' ++ y' = x ++ y ↔ x' = x ∧ y' = y := by
  constructor
  · intro h
    have hlen := congrArg List.length h
    rw [List.length_append, List.length_append] at hlen
    exact List.append_inj h (by omega)
  · intro h
    rw [h.1, h.2]

theorem acted_some (l : List Item) (es : List (Element α δ ε)) {text : List UInt8}
    (h : substitute printDouble l es = some text) :
    ∃ text', acted printDouble l es = some (some text') ∧ text'.length ≤ text.length ∧
      (text' = text ↔ ShortDoubles printDouble l es) := by
  induction l generalizing es text with
  | nil =>
    cases h
    exact ⟨[], rfl, le_rfl, iff_of_true rfl trivial⟩
  | cons item l ih =>
    cases item with
    | char c =>
      obtain ⟨rest, hrest, rfl⟩ := Option.map_eq_some_iff.mp h
      obtain ⟨rest', hacted, hlen, hiff⟩ := ih es hrest
      refine ⟨c :: rest', ?_, Nat.succ_le_succ hlen, ?_⟩
      · rw [acted, hacted]
        rfl
      · rw [List.cons_inj_right, ShortDoubles]
        exact hiff
    | malformed => cases h
    | directive d =>
      cases es with
      | nil => cases h
      | cons e es =>
        obtain ⟨a, rest, ha, hrest, rfl⟩ := substitute_directive.mp h
        obtain ⟨rest', hacted, hlen, hiff⟩ := ih es hrest
        have hcut : (if d = .double then snprintf a else a).length ≤ a.length := by
          split
          · exact List.length_take_le' _ _
          · exact le_rfl
        refine ⟨(if d = .double then snprintf a else a) ++ rest', ?_, ?_, ?_⟩
        · rw [acted_directive d l e es (pointer_of_rendering ha), ha, hacted]
          rfl
        · rw [List.length_append, List.length_append]
          exact Nat.add_le_add hcut hlen
        · rw [append_eq_iff_of_le hcut hlen, hiff, ShortDoubles, ha]
          apply and_congr_left
          intro _
          simp only [Option.mem_some_iff, forall_eq']
          split
          · rename_i hd
            rw [snprintf_eq_iff, imp_iff_right hd]
          · rename_i hd
            exact iff_of_true rfl (fun h => absurd h hd)

end

/-! ## When formatting substitutes -/

/-- Formatting does what it is for exactly if the format is not a null pointer, no argument is missing
that is not one of a pointer in front of something malformed, and all doubles have less than 32
characters. -/
theorem substitutes_iff (printDouble : δ → List UInt8) (fmt : HltString)
    (tuple : List (Element α δ ε)) :
    Substitutes printDouble fmt tuple ↔ Meets printDouble fmt tuple := by
  cases fmt with
  | none =>
    constructor
    · intro h
      obtain ⟨s, hs, _⟩ : ∃ s, hiltiFmt printDouble none tuple = some (.ok s) ∧ bytesOf s = [] := h
      cases hs
    · intro h
      cases h.notNull
  | some p =>
    have hresult : match acted printDouble (items p) tuple with
        | none => hiltiFmt printDouble (some p) tuple = none
        | some none => ∃ x, hiltiFmt printDouble (some p) tuple = some (.error x)
        | some (some text) =>
          ∃ s, hiltiFmt printDouble (some p) tuple = some (.ok s) ∧ bytesOf s = text :=
      hiltiFmt_acted p tuple
    have hbytes : bytesOf (some p) = p := rfl
    rw [Substitutes, hbytes]
    cases hsub : substitute printDouble (items p) tuple with
    | none =>
      have hnone := acted_none _ _ hsub
      constructor
      · intro h
        obtain ⟨x, hx⟩ := h
        refine ⟨rfl, hnone.mp ?_, fun h => by rw [hbytes, hsub] at h; cases h⟩
        generalize acted printDouble (items p) tuple = t at hresult ⊢
        match t, hresult with
        | none, hresult => cases hx.symm.trans hresult
        | some none, _ => rfl
        | some (some text), hresult =>
          obtain ⟨s, hs, _⟩ := hresult
          cases hx.symm.trans hs
      · intro h
        rw [hnone.mpr h.provided] at hresult
        exact hresult
    | some text =>
      obtain ⟨text', hacted, _, hiff⟩ := acted_some _ _ hsub
      rw [hacted] at hresult
      obtain ⟨s, hs, htext'⟩ := hresult
      constructor
      · intro h
        obtain ⟨s', hs', htext⟩ := h
        cases hs.symm.trans hs'
        refine ⟨rfl, provided_of_some hsub, fun _ => hiff.mp (htext'.symm.trans htext)⟩
      · intro h
        refine ⟨s, hs, htext'.trans (hiff.mpr (h.short ?_))⟩
        rw [hbytes, hsub]
        rfl

/-- `%p` without an argument is formatted. -/
theorem pointer_without_argument : ¬ ∀ (fmt : HltString) (tuple : List (Element Unit Unit Unit)),
    Substitutes (fun _ => []) fmt tuple := by
  intro h
  obtain ⟨x, hx⟩ : ∃ x, hiltiFmt (fun _ => []) (some [37, 112])
    ([] : List (Element Unit Unit Unit)) = some (.error x) := h (some [37, 112]) []
  cases hx

end Hilti.Strings.Fmt
