import Mathlib.Data.Int.Notation
import Hilti.Bytes.Ranges
import Hilti.Bytes.Compare

/-!
# Strings

The model of parts of `libhilti/string.c`, with `utf8proc_iterate` of `libhilti/utf8proc.c`.  A
string is a null pointer or an object with some bytes.  A function without a result is one that
reads outside of a string, overflows an `int`, fails an assertion, or does not end; loops that
may not end get some fuel.

The conversion from UTF-16 and UTF-32 is a parameter.  Left out are reference counts and
messages of exceptions.
-/

namespace Hilti.Strings

open Hilti.Bytes

set_option autoImplicit false

/-! ## Decoding a code point -/

/-- `utf8proc_utf8class`. -/
def utf8class (b : UInt8) : ℕ :=
  if b.toNat < 0x80 then 1
  else if b.toNat < 0xC0 then 0
  else if b.toNat < 0xE0 then 2
  else if b.toNat < 0xF0 then 3
  else if b.toNat < 0xF8 then 4
  else 0

/-- `UTF8PROC_ERROR_INVALIDUTF8`. -/
def errorInvalidUtf8 : ℤ := -3

/-- The loop that looks for continuation bytes at `str[i]` and behind, `n` of them. -/
def continuationLoop (str : List UInt8) : ℕ → ℕ → Option Bool
  | 0, _ => some true
  | n + 1, i => do
    let b ← str[i]?
    if b.toNat / 0x40 ≠ 2 then some false else continuationLoop str n (i + 1)

/-- The code point of the first `length` bytes, or -1.  `b & 0x3F` is `b % 0x40`, and likewise
for the other masks. -/
def codePoint (str : List UInt8) (length : ℕ) : Option ℤ := do
  let b0 ← str[0]?
  match length with
  | 1 => some b0.toNat
  | 2 => do
    let b1 ← str[1]?
    let uc : ℕ := b0.toNat % 0x20 * 2 ^ 6 + b1.toNat % 0x40
    some (if uc < 0x80 then -1 else uc)
  | 3 => do
    let b1 ← str[1]?
    let b2 ← str[2]?
    let uc : ℕ := b0.toNat % 0x10 * 2 ^ 12 + b1.toNat % 0x40 * 2 ^ 6 + b2.toNat % 0x40
    some (if uc < 0x800 ∨ 0xD800 ≤ uc ∧ uc < 0xE000 ∨ 0xFDD0 ≤ uc ∧ uc < 0xFDF0 then -1 else uc)
  | _ => do
    let b1 ← str[1]?
    let b2 ← str[2]?
    let b3 ← str[3]?
    let uc : ℕ := b0.toNat % 0x08 * 2 ^ 18 + b1.toNat % 0x40 * 2 ^ 12 + b2.toNat % 0x40 * 2 ^ 6 +
      b3.toNat % 0x40
    some (if uc < 0x10000 ∨ 0x110000 ≤ uc then -1 else uc)

/-- `utf8proc_iterate`: its result, and what it stores in `dst`.  The bytes that there are from
`str` on can be fewer than `strlen`. -/
def utf8procIterate (str : List UInt8) (strlen : ℤ) : Option (ℤ × ℤ) :=
  if strlen = 0 then some (0, -1)
  else do
    let b0 ← str[0]?
    let length := utf8class b0
    if length = 0 then some (errorInvalidUtf8, -1)
    else if 0 ≤ strlen ∧ length > strlen then some (errorInvalidUtf8, -1)
    else if ! (← continuationLoop str (length - 1) 1) then some (errorInvalidUtf8, -1)
    else do
      let uc ← codePoint str length
      if uc < 0 ∨ uc % 0x10000 ≥ 0xFFFE then some (errorInvalidUtf8, -1)
      else some (length, uc)

/-! ## Strings -/

/-- `hlt_string`. -/
abbrev HltString := Option (List UInt8)

inductive Excpt where
  | valueError
  | conversionError
  deriving DecidableEq

/-- The bytes of a string, of which a null pointer has none. -/
def bytesOf (s : HltString) : List UInt8 :=
  s.getD []

/-! ## Comparing -/

/-- `hlt_string_hash`. -/
def stringHash (s : HltString) : UInt64 :=
  match s with
  | some bytes => hashBytes bytes (BitVec.ofNat 16 bytes.length) 0
  | none => 0

/-- `hlt_string_equal`. -/
def stringEqual (s1 s2 : HltString) : Bool :=
  match s1, s2 with
  | some b1, some b2 => if b1.length ≠ b2.length then false else b1 = b2
  | none, none => true
  | _, _ => false

/-- The conversion to `int8_t`. -/
def toInt8 (x : ℤ) : ℤ :=
  x.bmod (2 ^ 8)

/-- The loop of `hlt_string_cmp` for strings of `len1` and `len2` bytes, of which those from `p1`
and `p2` on are left.  There are no more rounds than the strings have bytes. -/
def cmpLoop (len1 len2 : ℕ) : ℕ → ℕ → List UInt8 → List UInt8 → Option (Except Excpt ℤ)
  | 0, _, _, _ => none
  | fuel + 1, i, p1, p2 => do
    let (n1, cp1) ← utf8procIterate p1 (len1 - i)
    if n1 < 0 then some (.error .valueError)
    else do
      let (n2, cp2) ← utf8procIterate p2 (len2 - i)
      if n2 < 0 then some (.error .valueError)
      else if cp1 ≠ cp2 then some (.ok (toInt8 (cp1 - cp2)))
      else if i = len1 ∨ i = len2 then
        some (.ok (if i = len1 ∧ i = len2 then 0 else if i = len1 then -1 else 1))
      else cmpLoop len1 len2 fuel (i + 1) (p1.drop n1.toNat) (p2.drop n2.toNat)

/-- `hlt_string_cmp`. -/
def stringCmp (s1 s2 : HltString) : Option (Except Excpt ℤ) :=
  let len1 := (bytesOf s1).length
  let len2 := (bytesOf s2).length
  if len1 = 0 ∧ len2 = 0 then some (.ok 0)
  else if len1 = 0 then some (.ok (-1))
  else if len2 = 0 then some (.ok 1)
  else cmpLoop len1 len2 (len1 + 1) 0 (bytesOf s1) (bytesOf s2)

/-! ## Searching -/

/-- The conversion to `int`. -/
def toInt (x : ℤ) : ℤ :=
  x.bmod (2 ^ 32)

/-- Whether `memcmp` of `len` bytes finds the same at `p` in `s` as in `pattern`.  It may read all
the bytes. -/
def sameAt (s pattern : List UInt8) (p : ℤ) (len : ℕ) : Option Bool :=
  if 0 ≤ p ∧ p.toNat + len ≤ s.length ∧ len ≤ pattern.length then
    some ((s.drop p.toNat).take len = pattern.take len)
  else none

/-- The loop of `hlt_string_find`.  `p` is relative to the beginning of the string. -/
def findLoop (s pattern : List UInt8) : ℕ → ℤ → ℤ → Option (Except Excpt ℤ)
  | 0, _, _ => none
  | fuel + 1, p, pos =>
    if p < s.length then do
      if ← sameAt s pattern p pattern.length then some (.ok pos)
      else do
        let (n, _) ← utf8procIterate (s.drop p.toNat) (s.length - p)
        if pos + 1 < 2 ^ 31 then findLoop s pattern fuel (p + n) (pos + 1) else none
    else some (.ok (-1))

/-- `hlt_string_find`. -/
def stringFind (fuel : ℕ) (s pattern : HltString) : Option (Except Excpt ℤ) :=
  let slen := toInt (bytesOf s).length
  let patlen := toInt (bytesOf pattern).length
  if slen = 0 ∧ patlen = 0 then some (.ok 0)
  else if slen = 0 then some (.ok (-1))
  else if patlen = 0 then some (.ok 0)
  else findLoop (bytesOf s) (bytesOf pattern) fuel 0 0

/-! ## Encoding and decoding -/

/-- What `get_charset` returns. -/
inductive Charset where
  | error
  | utf8
  | utf16le
  | utf16be
  | utf32le
  | utf32be
  | ascii
  deriving DecidableEq

def bufferSize : ℕ := 128

/-- The loop of `hlt_string_encode` for ASCII.  `data` is the buffer, with the bytes that have
been written to it, and `p` what is left of the string. -/
def encodeLoop (iterate : List UInt8 → ℤ → Option (ℤ × ℤ)) (dst : ℕ) :
    ℕ → Heap → Option (List UInt8) → List UInt8 → Option (Except Excpt Heap)
  | _, H, _, [] => some (.ok H)
  | 0, _, _, _ :: _ => none
  | fuel + 1, H, data, p => do
    let (n, uc) ← iterate p p.length
    if n < 0 then some (.error .valueError)
    else do
      let c := if uc < 128 then UInt8.ofNat uc.toNat else 63
      let data := data.getD [] ++ [c]
      let p := p.drop n.toNat
      if data.length = bufferSize ∨ p = [] then do
        let H ← bytesAppendRaw H dst data
        encodeLoop iterate dst fuel H none p
      else encodeLoop iterate dst fuel H (some data) p

/-- `hlt_string_encode`. -/
def stringEncode (iterate : List UInt8 → ℤ → Option (ℤ × ℤ)) (H : Heap) (s : HltString)
    (charset : Charset) : Option (Except Excpt (Heap × ℕ)) :=
  if charset = .error then some (.error .valueError)
  else
    let (H, dst) := bytesNew H []
    match s with
    | none => some (.ok (H, dst))
    | some bytes =>
      match charset with
      | .utf8 => do
        let H ← bytesAppendRaw H dst bytes
        some (.ok (H, dst))
      | .ascii => do
        let r ← encodeLoop iterate dst bytes.length H none bytes
        some (r.map fun H => (H, dst))
      | _ => some (.error .conversionError)

/-- The byte that `hlt_string_decode` makes of one in ASCII. -/
def sevenBit (c : UInt8) : UInt8 :=
  if c.toNat % 0x80 = c.toNat then c else 63

/-- The bytes of an object, as `hlt_bytes_sub_raw` writes them to a buffer of their length. -/
def rawBytes (H : Heap) (b : ℕ) : Option (List UInt8) := do
  let start ← bytesBegin H b
  let stop ← bytesEnd H b
  let len ← bytesDiff H start stop
  match ← bytesSubRaw H len.toNat start stop with
  | .ok (raw, true) => some raw
  | _ => none

/-- `hlt_string_decode`.  `convert` is the conversion from the other encodings. -/
def stringDecode (convert : Charset → List UInt8 → Option (List UInt8)) (fuel : ℕ) (H : Heap)
    (b : ℕ) (charset : Charset) : Option (Except Excpt HltString) :=
  if charset = .error then some (.error .valueError)
  else do
    if ← isEmpty H b then some (.ok none)
    else
      match charset with
      | .utf8 => do
        let raw ← rawBytes H b
        let len ← bytesLen H b
        if len.toNat ≤ raw.length then some (.ok (some (raw.take len.toNat))) else none
      | .ascii => do
        let len ← bytesLen H b
        let stop ← bytesEnd H b
        let start ← bytesBegin H b
        let read ← readLoop H stop fuel start
        if read.length = len.toNat then some (.ok (some (read.map sevenBit))) else none
      | _ => do
        let raw ← rawBytes H b
        match convert charset raw with
        | some bytes => some (.ok (some bytes))
        | none => some (.error .conversionError)

end Hilti.Strings
