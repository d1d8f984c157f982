import Hilti.Embedded.Model

/-!
# What the copying functions write

The loops of `libhilti/bytes.c` that fill a new bytes object or a buffer, from its start on without
gaps, with what they have written in the end.  They get the object that they read, and not the one
that they fill, which is another one.  The data pointers of an embedded object have not been
initialised, so a loop that reads them has no result; a null pointer is `none`.

Marks are left out here: the loops copy them to where none of the bytes depend on them.
-/

namespace Hilti.Embedded

set_option autoImplicit false

variable {ω : Type}

/-! ## Whole objects -/

/-- The loops of `_hlt_bytes_concat_into`, each over one of the objects. -/
def concatLoop : Bytes ω → List UInt8
  | [] => []
  | c :: cs => if c.isObject then [] else c.bytes ++ concatLoop cs

/-- `_hlt_bytes_concat_into`. -/
def bytesConcatInto (b1 b2 : Bytes ω) : List UInt8 :=
  concatLoop b1 ++ concatLoop b2

/-- `_hlt_bytes_copy_into`, which has no test for objects. -/
def bytesCopyInto : Bytes ω → Option (List UInt8)
  | [] => some []
  | c :: cs => if c.isObject then none else (bytesCopyInto cs).map (c.bytes ++ ·)

/-- `toupper`, in the C locale. -/
def toUpper (ch : UInt8) : UInt8 :=
  if 97 ≤ ch ∧ ch ≤ 122 then ch - 32 else ch

/-- `tolower`. -/
def toLower (ch : UInt8) : UInt8 :=
  if 65 ≤ ch ∧ ch ≤ 90 then ch + 32 else ch

/-- The loop of `_hlt_bytes_upper_into` and `_hlt_bytes_lower_into`. -/
def convertLoop (convert : UInt8 → UInt8) : Bytes ω → List UInt8
  | [] => []
  | c :: cs => if c.isObject then [] else c.bytes.map convert ++ convertLoop convert cs

/-- `_hlt_bytes_upper_into`. -/
def bytesUpperInto (b : Bytes ω) : List UInt8 :=
  convertLoop toUpper b

/-- `_hlt_bytes_lower_into`. -/
def bytesLowerInto (b : Bytes ω) : List UInt8 :=
  convertLoop toLower b

/-! ## Ranges -/

/-- An iterator, and the object it is into where that is another one than the first iterator's.  No
iterator is one without an object, as the generic end is. -/
structure Pos (ω : Type) where
  other : Option (Bytes ω)
  iter : Option Iter

/-- The object that an iterator is into. -/
def Pos.object (b : Bytes ω) (p : Pos ω) : Bytes ω :=
  p.other.getD b

/-- `__hlt_iterator_bytes_diff`. -/
def iteratorBytesDiff (b : Bytes ω) (p1 : Option Iter) (p2 : Pos ω) : ℕ :=
  match p1 with
  | none => 0
  | some i1 =>
    if isEnd b i1 then 0
    else
      match p2.iter with
      | none => bytesLen (b.drop i1.bytes) - min i1.cur (lenAt b i1.bytes)
      | some i2 =>
        if isEnd (p2.object b) i2 then bytesLen (b.drop i1.bytes) - min i1.cur (lenAt b i1.bytes)
        else iteratorBytesIndex (p2.object b) i2 - iteratorBytesIndex b i1

/-- `n` bytes of a chunk from `cur` on, which have to be there. -/
def readChunk (b : Bytes ω) (k cur n : ℕ) : Option (List UInt8) := do
  let c ← b[k]?
  if c.isObject then none
  else if cur + n ≤ c.len then some ((c.bytes.drop cur).take n) else none

/-- The loop of `__hlt_bytes_sub_raw_internal` over the chunks behind that of the first iterator, with
what follows it; `room` is what is left of the buffer. -/
def subLoop (b : Bytes ω) (same : Bool) (i2 : Iter) (p2IsEnd : Bool) :
    ℕ → ℕ → ℕ → Option (Except Excpt (List UInt8))
  | 0, _, _ => none
  | fuel + 1, k, room =>
    match b[k]? with
    | none => some (if p2IsEnd then .ok [] else .error .valueError)
    | some c =>
      if c.isObject then some (.ok [])
      else if ¬ (same ∧ k = i2.bytes) ∨ p2IsEnd then do
        let out ← readChunk b k 0 (min c.len room)
        let rest ← subLoop b same i2 p2IsEnd fuel (k + 1) (room - out.length)
        some (rest.map (out ++ ·))
      else (readChunk b k 0 (min i2.cur room)).map .ok

/-- `__hlt_bytes_sub_raw_internal` for a buffer of `bufferSize` bytes, with whether the pointer that
it returns is not null. -/
def subRawInternal (bufferSize len : ℕ) (b : Bytes ω) (p1 : Option Iter) (p2 : Pos ω) :
    Option (Except Excpt (List UInt8 × Bool)) :=
  if bufferSize = 0 then some (.ok ([], len = 0))
  else if len = 0 then some (.ok ([], true))
  else
    match p1 with
    | none => some (.error .valueError)
    | some i1 =>
      if isEnd b i1 ∧ ¬ atObject b i1 then some (.error .valueError)
      else
        let stop := tailData b b.length i1.bytes
        let same := p2.other.isNone ∨ p2.iter.isNone
        let b2 := if same then b else p2.object b
        let i2 := p2.iter.getD ⟨stop, lenAt b stop⟩
        if same ∧ i1.bytes = i2.bytes then
          -- the number of bytes is negative where the iterators are the wrong way round
          if i2.cur < i1.cur then none
          else do
            let out ← readChunk b i1.bytes i1.cur (min (i2.cur - i1.cur) bufferSize)
            some (.ok (out, bufferSize ≤ len))
        else do
          let out ← readChunk b i1.bytes i1.cur (min (lenAt b i1.bytes - i1.cur) bufferSize)
          let rest ← subLoop b same i2 (isEnd b2 i2) (b.length + 1) (i1.bytes + 1)
            (bufferSize - out.length)
          some (rest.map fun rest => (out ++ rest, bufferSize ≤ len))

/-! ## Stripping -/

/-- `Hilti::Side`. -/
inductive Side where
  | left
  | right
  | both
  deriving DecidableEq

/-- `isspace`. -/
def isSpace (ch : UInt8) : Bool :=
  ch = 32 || (9 ≤ ch && ch ≤ 13)

/-- The loop of `strip_it`. -/
def stripItLoop (ch : UInt8) : Bytes ω → Bool
  | [] => false
  | c :: cs => if c.isObject then false else if ch ∈ c.bytes then true else stripItLoop ch cs

/-- `strip_it`. -/
def stripIt (pat : Option (Bytes ω)) (ch : UInt8) : Bool :=
  match pat with
  | none => isSpace ch
  | some pat => stripItLoop ch pat

/-- The first loop of `_hlt_bytes_strip_calc_iters`, at chunk `k`.  The `p` of an iterator at an
object or without a chunk does not matter. -/
def leftLoop (pat : Option (Bytes ω)) : Bytes ω → ℕ → Option Iter
  | [], _ => none
  | c :: cs, k =>
    if c.isObject then some ⟨k, 0⟩
    else
      match c.bytes.findIdx? fun ch => !stripIt pat ch with
      | some p => some ⟨k, p⟩
      | none => leftLoop pat cs (k + 1)

/-- The second loop, which goes back to the first chunk. -/
def rightLoop (pat : Option (Bytes ω)) (b : Bytes ω) : ℕ → Option Iter
  | 0 => none
  | k + 1 =>
    if objectAt b k then some ⟨k, 0⟩
    else
      match ((b[k]?).elim [] Chunk.bytes).reverse.findIdx? fun ch => !stripIt pat ch with
      | some p => some ⟨k, lenAt b k - p⟩
      | none => rightLoop pat b k

/-- `_hlt_bytes_strip_calc_iters`. -/
def stripCalcIters (b : Option (Bytes ω)) (side : Side) (pat : Option (Bytes ω)) :
    Option (Option Iter × Option Iter) := do
  let start ←
    if side = .left ∨ side = .both then some (leftLoop pat (b.getD []) 0)
    else b.map fun _ => some ⟨0, 0⟩
  let stop :=
    if side = .right ∨ side = .both then
      b.bind fun b => rightLoop pat b (tailData b b.length 0 + 1)
    else none
  some (start, stop)

end Hilti.Embedded
