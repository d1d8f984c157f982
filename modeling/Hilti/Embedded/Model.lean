import Mathlib.Data.Int.Notation
import Mathlib.Algebra.Order.Group.Unbundled.Int
import Mathlib.Data.List.TakeWhile

/-!
# Bytes with embedded objects and marks

The part of `libhilti/bytes.c` that deals with objects inside a bytes object, with marks, with
freezing and with cloning.  A bytes object is the list of its chunks, and a chunk is given by its
place in it.  A function without a result is one that fails an assertion or reads memory that
has been freed.

Left out are reference counts, blocking, the types of embedded objects, and the space that is
reserved for more bytes.
-/

namespace Hilti.Embedded

set_option autoImplicit false

variable {ω : Type}

/-! ## Chunks -/

/-- `marks` of a chunk: an array of offsets up to a first -1, where -2 is a deleted one. -/
inductive Marks where
  | null
  | array (l : List ℤ)
  | freed
  deriving DecidableEq

/-- What a chunk has beyond its header.  `toFree` is whether its data has been allocated. -/
inductive Body (ω : Type) where
  | data (bytes : List UInt8) (marks : Marks) (toFree : Bool)
  | object (obj : ω)
  deriving DecidableEq

/-- `__hlt_bytes` and `__hlt_bytes_object`. -/
structure Chunk (ω : Type) where
  frozen : Bool
  offset : ℕ
  body : Body ω
  deriving DecidableEq

abbrev Bytes (ω : Type) := List (Chunk ω)

inductive Excpt where
  | nullReference
  | valueError
  deriving DecidableEq

/-- `_hlt_bytes_new`. -/
def bytesNew (data : List UInt8) : Chunk ω :=
  ⟨false, 0, .data data .null false⟩

/-- `_hlt_bytes_new_reuse`. -/
def bytesNewReuse (data : List UInt8) : Chunk ω :=
  ⟨false, 0, .data data .null true⟩

/-- `_hlt_bytes_new_object`. -/
def bytesNewObject (obj : ω) : Chunk ω :=
  ⟨false, 0, .object obj⟩

/-- `__get_object` finds one. -/
def Chunk.isObject (c : Chunk ω) : Bool :=
  match c.body with
  | .data .. => false
  | .object _ => true

def Chunk.bytes (c : Chunk ω) : List UInt8 :=
  match c.body with
  | .data bytes _ _ => bytes
  | .object _ => []

/-- `end - start`, and 0 for an object. -/
def Chunk.len (c : Chunk ω) : ℕ :=
  c.bytes.length

def Chunk.marks (c : Chunk ω) : Marks :=
  match c.body with
  | .data _ marks _ => marks
  | .object _ => .null

def Chunk.setMarks (c : Chunk ω) (marks : Marks) : Chunk ω :=
  match c.body with
  | .data bytes _ toFree => { c with body := .data bytes marks toFree }
  | .object _ => c

/-- `__is_frozen`. -/
def isFrozen (b : Bytes ω) : Bool :=
  b.head?.any Chunk.frozen

/-! ## Marks -/

/-- What a loop over an array of marks comes across. -/
def entries (l : List ℤ) : List ℤ :=
  l.takeWhile (· ≠ -1)

/-- The marks that `__hlt_bytes_reserve_space_for_more_marks` keeps. -/
def kept (l : List ℤ) : List ℤ :=
  l.takeWhile (0 ≤ ·)

def Marks.add (marks : Marks) (l : List ℤ) : Option Marks :=
  match marks with
  | .null => some (.array l)
  | .array m => some (.array (kept m ++ l))
  | .freed => none

/-- The conversion of a distance to `int8_t`. -/
def toInt8 (n : ℕ) : ℤ :=
  (n : ℤ).bmod 256

/-- `__hlt_bytes_copy_marks` for a whole chunk. -/
def copyMarks (dst src : Marks) (adjoffset : ℤ) : Option Marks :=
  match src with
  | .null => some dst
  | .array l => dst.add (((entries l).filter (0 ≤ ·)).map (· + adjoffset))
  | .freed => none

/-! ## Linking chunks -/

/-- The assertions and the link of `__add_chunk`. -/
def link (b : Bytes ω) (tail : ℕ) (c : Chunk ω) : Option (Bytes ω) := do
  let t ← b[tail]?
  if tail + 1 = b.length ∧ t.frozen = false then some (b ++ [{ c with offset := t.offset + t.len }])
  else none

/-- `__hlt_bytes_append_mark`, where no mark is given as -1.  An object at the end gets a
chunk behind it; it has no marks, so that `__add_chunk` does no more than link. -/
def appendMarkAt (b : Bytes ω) (mark : ℤ) : Option (Bytes ω) := do
  let t ← b.getLast?
  let b ← if t.isObject then link b (b.length - 1) (bytesNew []) else some b
  let t ← b.getLast?
  let marks ← t.marks.add [if mark ≥ 0 then mark else t.len]
  some (b.dropLast ++ [t.setMarks marks])

/-- The loop of `__add_chunk` over the marks of a chunk of length `len`, with what becomes of
them. -/
def moveMarks (len : ℕ) : List ℤ → Bytes ω → Option (Bytes ω × List ℤ)
  | [], b => some (b, [])
  | m :: ms, b =>
    if m ≥ len then do
      let b ← appendMarkAt b (m - len)
      let (b, ms) ← moveMarks len ms b
      some (b, -2 :: ms)
    else do
      let (b, ms) ← moveMarks len ms b
      some (b, m :: ms)

/-- `__add_chunk`. -/
def addChunk (b : Bytes ω) (tail : ℕ) (c : Chunk ω) : Option (Bytes ω) := do
  let t ← b[tail]?
  let b ← link b tail c
  match t.marks with
  | .null => some b
  | .array l => do
    let (b, l) ← moveMarks t.len (entries l) b
    some (b.set tail (t.setMarks (.array l)))
  | .freed => none

/-! ## Appending -/

/-- `__hlt_bytes_append_raw`. -/
def appendRawChunk (b : Bytes ω) (raw : List UInt8) (c : Chunk ω) :
    Option (Bytes ω × Option Excpt) :=
  if raw.length = 0 then some (b, none)
  else if isFrozen b then some (b, some .valueError)
  else do
    let b ← addChunk b (b.length - 1) c
    some (b, none)

/-- `hlt_bytes_append_raw`. -/
def appendRaw (b : Bytes ω) (raw : List UInt8) : Option (Bytes ω × Option Excpt) :=
  appendRawChunk b raw (bytesNewReuse raw)

/-- `hlt_bytes_append_raw_copy`. -/
def appendRawCopy (b : Bytes ω) (raw : List UInt8) : Option (Bytes ω × Option Excpt) :=
  appendRawChunk b raw (bytesNew raw)

/-- `__hlt_bytes_len`. -/
def bytesLen : Bytes ω → ℕ
  | [] => 0
  | c :: cs => if c.isObject then 0 else c.len + bytesLen cs

/-- The loop of `__hlt_bytes_append`, with what it has copied so far. -/
def appendLoop : Bytes ω → List UInt8 → Marks → Option (List UInt8 × Marks)
  | [], data, marks => some (data, marks)
  | c :: cs, data, marks =>
    if c.isObject then some (data, marks)
    else do
      let marks ← copyMarks marks c.marks (toInt8 data.length)
      appendLoop cs (data ++ c.bytes) marks

/-- `hlt_bytes_append`. -/
def append (b : Bytes ω) (other : Option (Bytes ω)) : Option (Bytes ω × Option Excpt) :=
  if isFrozen b then some (b, some .valueError)
  else
    match other with
    | none => some (b, some .nullReference)
    | some other =>
      if bytesLen other = 0 then some (b, none)
      else do
        let (data, marks) ← appendLoop other [] .null
        let b ← addChunk b (b.length - 1) ⟨false, 0, .data data marks false⟩
        some (b, none)

/-- `hlt_bytes_append_object`. -/
def appendObject (b : Bytes ω) (obj : Option ω) : Option (Bytes ω × Option Excpt) :=
  match obj with
  | none => some (b, some .nullReference)
  | some obj => do
    let c₁ := b.length
    let b ← addChunk b (b.length - 1) (bytesNewObject obj)
    let b ← addChunk b c₁ (bytesNew [])
    some (b, none)

/-- `hlt_bytes_append_mark`. -/
def appendMark (b : Bytes ω) : Option (Bytes ω × Option Excpt) := do
  let b ← appendMarkAt b (-1)
  some (b, none)

/-- The append functions with their arguments. -/
inductive Op (ω : Type) where
  | append (other : Option (Bytes ω))
  | appendRaw (raw : List UInt8)
  | appendRawCopy (raw : List UInt8)
  | appendObject (obj : Option ω)
  | appendMark

def apply (b : Bytes ω) : Op ω → Option (Bytes ω × Option Excpt)
  | .append other => append b other
  | .appendRaw raw => appendRaw b raw
  | .appendRawCopy raw => appendRawCopy b raw
  | .appendObject obj => appendObject b obj
  | .appendMark => appendMark b

/-- `hlt_bytes_freeze`. -/
def freeze (b : Bytes ω) (on : Bool) : Bytes ω :=
  b.map fun c => { c with frozen := on }

/-! ## Iterators -/

/-- `hlt_iterator_bytes`, into a bytes object that is given.  `cur` is relative to `start`. -/
structure Iter where
  bytes : ℕ
  cur : ℕ
  deriving DecidableEq

def lenAt (b : Bytes ω) (k : ℕ) : ℕ :=
  (b[k]?).elim 0 Chunk.len

def objectAt (b : Bytes ω) (k : ℕ) : Bool :=
  (b[k]?).any Chunk.isObject

/-- `__at_object`. -/
def atObject (b : Bytes ω) (i : Iter) : Bool :=
  objectAt b i.bytes

/-- `__tail` of the chunk `k`, not considering objects. -/
def tailData (b : Bytes ω) : ℕ → ℕ → ℕ
  | 0, k => k
  | fuel + 1, k => if k + 1 < b.length ∧ ¬ objectAt b (k + 1) then tailData b fuel (k + 1) else k

/-- `__at_mark`.  No iterator is left behind at the chunk of which marks have been freed. -/
def atMark (b : Bytes ω) (i : Iter) : Bool :=
  match (b[i.bytes]?).map Chunk.marks with
  | some (.array l) => (entries l).contains (i.cur : ℤ)
  | _ => false

/-- `__is_end`. -/
def isEnd (b : Bytes ω) (i : Iter) : Bool :=
  (i.bytes = tailData b b.length i.bytes ∧ i.cur ≥ lenAt b i.bytes) ∨ atObject b i

/-- `__is_empty`, not considering objects. -/
def isEmpty : Bytes ω → Bool
  | [] => true
  | c :: cs => if c.isObject then true else if c.len ≠ 0 then false else isEmpty cs

/-- The loop of `__hlt_iterator_bytes_incr_by`. -/
def incrByLoop (b : Bytes ω) (beyondEnd : Bool) : ℕ → Iter → ℕ → Iter
  | 0, i, _ => i
  | fuel + 1, i, n =>
    if i.cur + n < lenAt b i.bytes then ⟨i.bytes, i.cur + n⟩
    else if ¬ i.bytes + 1 < b.length ∨ atObject b i then
      ⟨i.bytes, if beyondEnd then lenAt b i.bytes + n else lenAt b i.bytes⟩
    else incrByLoop b beyondEnd fuel ⟨i.bytes + 1, 0⟩ (n - (lenAt b i.bytes - i.cur))

/-- `__hlt_iterator_bytes_incr_by`. -/
def incrBy (b : Bytes ω) (i : Iter) (n : ℕ) (beyondEnd : Bool) : Iter :=
  if isEnd b i ∨ n = 0 then i else incrByLoop b beyondEnd (b.length + 1) i n

/-- The loop of `__normalize_iter`. -/
def normalizeLoop (b : Bytes ω) : ℕ → Iter → ℕ → Iter × ℕ
  | 0, i, incr => (i, incr)
  | fuel + 1, i, incr =>
    if i.cur ≥ lenAt b i.bytes ∧ i.bytes + 1 < b.length ∧ ¬ atObject b i then
      normalizeLoop b fuel ⟨i.bytes + 1, 0⟩ (incr + (i.cur - lenAt b i.bytes))
    else (i, incr)

/-- `__normalize_iter`. -/
def normalizeIter (b : Bytes ω) (i : Iter) : Iter :=
  if atObject b i then i
  else
    let (i, incr) := normalizeLoop b b.length i 0
    if incr ≠ 0 then incrBy b i incr true else i

/-- `hlt_bytes_end`. -/
def bytesEnd (b : Bytes ω) : Iter :=
  let k := tailData b b.length 0
  ⟨k, lenAt b k⟩

/-- `hlt_bytes_begin`. -/
def bytesBegin (b : Bytes ω) : Iter :=
  if isEmpty b then bytesEnd b else normalizeIter b ⟨0, 0⟩

/-- `hlt_iterator_bytes_eq`. -/
def iteratorBytesEq (b : Bytes ω) (i j : Iter) : Bool :=
  let i := normalizeIter b i
  let j := normalizeIter b j
  (isEnd b i ∧ isEnd b j) ∨ i = j

/-- `hlt_iterator_bytes_deref`. -/
def iteratorBytesDeref (b : Bytes ω) (i : Iter) : Except Excpt UInt8 :=
  let i := normalizeIter b i
  if isEnd b i then .error .valueError
  else .ok (((b[i.bytes]?).bind fun c => c.bytes[i.cur]?).getD 0)

/-- `hlt_iterator_bytes_incr`. -/
def iteratorBytesIncr (b : Bytes ω) (i : Iter) : Iter :=
  let i := normalizeIter b i
  if isEnd b i then i
  else if i.cur + 1 < lenAt b i.bytes then ⟨i.bytes, i.cur + 1⟩
  else if ¬ i.bytes + 1 < b.length then ⟨i.bytes, lenAt b i.bytes⟩
  else ⟨i.bytes + 1, 0⟩

/-- `hlt_iterator_bytes_index`. -/
def iteratorBytesIndex (b : Bytes ω) (i : Iter) : ℕ :=
  let i := normalizeIter b i
  let offset := (b[i.bytes]?).elim 0 Chunk.offset
  if atObject b i then offset else offset + min i.cur (lenAt b i.bytes)

/-- `hlt_bytes_at_object`. -/
def bytesAtObject (b : Bytes ω) (i : Iter) : Bool :=
  atObject b (normalizeIter b i)

/-- `hlt_bytes_at_mark`. -/
def bytesAtMark (b : Bytes ω) (i : Iter) : Bool :=
  atMark b (normalizeIter b i)

/-- `hlt_bytes_retrieve_object`. -/
def bytesRetrieveObject (b : Bytes ω) (i : Iter) : Except Excpt ω :=
  match (b[(normalizeIter b i).bytes]?).map Chunk.body with
  | some (.object obj) => .ok obj
  | _ => .error .valueError

/-- `hlt_bytes_skip_object`. -/
def bytesSkipObject (b : Bytes ω) (i : Iter) : Option (Except Excpt Iter) :=
  let i := normalizeIter b i
  if ¬ atObject b i then some (.error .valueError)
  else if i.bytes + 1 < b.length then some (.ok ⟨i.bytes + 1, 0⟩)
  else none

/-! ## Trimming and cloning -/

/-- The chunk up to which a bytes object is trimmed. -/
def Chunk.trimmed (c : Chunk ω) (cur : ℕ) : Chunk ω :=
  match c.body with
  | .data bytes marks toFree =>
    { c with offset := c.offset + cur, body := .data (bytes.drop cur) marks toFree }
  | .object _ => c

def Marks.free (marks : Marks) : Marks :=
  match marks with
  | .null => .null
  | _ => .freed

/-- `hlt_bytes_trim` for a position that is not the end.  The first chunk, which stays, is none
of an object. -/
def trimTo (i : Iter) : Bytes ω → Option (Bytes ω)
  | ⟨frozen, offset, .data bytes marks toFree⟩ :: cs =>
    if i.bytes = 0 then
      some (⟨frozen, offset + i.cur, .data (bytes.drop i.cur) marks toFree⟩ :: cs)
    else
      match cs.drop (i.bytes - 1) with
      | c :: cs => some (⟨frozen, offset + bytes.length,
          .data [] (if toFree then marks.free else marks) false⟩ :: c.trimmed i.cur :: cs)
      | [] => none
  | _ => none

/-- `hlt_bytes_trim`. -/
def trim (b : Bytes ω) (i : Iter) : Option (Bytes ω) :=
  let i := normalizeIter b i
  if isEnd b i ∧ ¬ atObject b i then some b else trimTo i b

/-- A copy of a chunk in `hlt_bytes_clone_init`. -/
def cloneChunk (c : Chunk ω) : Option (Chunk ω) :=
  match c.body with
  | .object obj => some (bytesNewObject obj)
  | .data bytes marks _ => do
    let marks ← copyMarks .null marks 0
    some ⟨false, 0, .data bytes marks false⟩

/-- The loop of `hlt_bytes_clone_init` after the first chunk.  `tail` is the chunk `dst`. -/
def cloneLoop : Bytes ω → Bytes ω → ℕ → Option (Bytes ω)
  | [], dst, _ => some dst
  | c :: cs, dst, tail => do
    let n := dst.length
    let c ← cloneChunk c
    let dst ← addChunk dst tail c
    cloneLoop cs dst n

/-- `hlt_bytes_clone_alloc` and `hlt_bytes_clone_init`. -/
def clone (b : Bytes ω) : Option (Bytes ω) :=
  match b with
  | [] => none
  | c :: cs => do
    let dst ← cloneChunk c
    cloneLoop cs [{ dst with frozen := c.frozen, offset := c.offset }] 0

end Hilti.Embedded
