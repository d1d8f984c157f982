import Hilti.Profiling.Model
import Hilti.Bytes.Binary
import Hilti.Strings.Utf8

/-!
# Profile files (`libhilti/profiler.c`)

The file that `write_header` and `write_record` produce on a little-endian host, and how
`hlt_profiler_file_open` and `hlt_profiler_file_read` read it.  An open file is what is left of its
contents.  Reads that fail for another reason than the end of the file are left out.

The length of a tag goes through an `int8_t`: above 127 it is negative, which `write` refuses and
which is no size for an array in the reader.
-/

namespace Hilti.Profiling

open Hilti.Bytes (memoryOf fromMemory flip64 flip64_fromMemory fromMemory_cons memoryOf_fromMemory)
open Hilti.Strings (toInt8 utf8procIterate)

set_option autoImplicit false

/-! ## Integers in a file -/

/-- `hlt_hton64`, and `hlt_ntoh64`. -/
def hton64 (v : UInt64) : UInt64 :=
  ⟨flip64 v.toBitVec⟩

/-- The bytes of a `uint64_t`. -/
def memory (v : UInt64) : List UInt8 :=
  memoryOf 8 v.toNat

/-- The `uint64_t` whose bytes have been read. -/
def value (bytes : List UInt8) : UInt64 :=
  UInt64.ofNat (fromMemory bytes)

/-! ## Writing -/

/-- `_safe_write`.  A negative length is too large for `write`. -/
def safeWrite (file data : List UInt8) (len : ℤ) : List UInt8 × Option Excpt :=
  if len < 0 then (file, some .ioError) else (file ++ data.take len.toNat, none)

/-- `write_tag`. -/
def writeTag (str file : List UInt8) : List UInt8 × Option Excpt :=
  let len := UInt8.ofNat str.length
  safeWrite (file ++ [len]) str (toInt8 len.toNat)

/-- `MAGIC`, of which `sizeof(MAGIC) - 1` bytes are written. -/
def magic : List UInt8 := [72, 76, 84, 80, 82, 79, 70]

/-- `HLT_PROFILER_VERSION`. -/
def version : UInt64 := 1

/-- `write_header`. -/
def writeHeader (secs : UInt64) : List UInt8 :=
  magic ++ memory (hton64 version) ++ memory (hton64 secs)

/-- A packed `hlt_profiler_record` in the order of the file. -/
def packRecord (r : Record) : List UInt8 :=
  [r.ctime, r.cwall, r.time, r.wall, r.updates, r.cycles, r.misses, r.alloced, r.heap,
    r.user].flatMap (fun v => memory (hton64 v)) ++ [r.type]

/-- `write_record`, from the values on. -/
def writeRecord (e : Entry) (file : List UInt8) : List UInt8 × Option Excpt :=
  let tagged := writeTag e.tag file
  (tagged.1 ++ packRecord e.record, tagged.2)

/-- The file with a header and some records. -/
def writeFile (secs : UInt64) (entries : List Entry) : List UInt8 :=
  entries.foldl (fun file e => (writeRecord e file).1) (writeHeader secs)

/-! ## Reading -/

/-- `_safe_read`: its result, the data, and what is left. -/
def safeRead (fd : List UInt8) (len : ℕ) : ℤ × List UInt8 × List UInt8 :=
  if len ≤ fd.length then (1, fd.take len, fd.drop len) else (0, fd, [])

/-- `isprint`, for the characters below 128. -/
def isprint (uc : ℤ) : Bool :=
  0x20 ≤ uc ∧ uc < 0x7F

/-- The character that `read_tag` stores. -/
def shownChar (uc : ℤ) : UInt8 :=
  if uc < 128 ∧ isprint uc then UInt8.ofNat uc.toNat else 63

/-- The loop of `read_tag`, or `none` inside when a character cannot be decoded.  Each round takes a
byte at least. -/
def tagLoop : ℕ → List UInt8 → Option (Option (List UInt8))
  | _, [] => some (some [])
  | 0, _ :: _ => none
  | fuel + 1, b :: p => do
    let (n, uc) ← utf8procIterate (b :: p) (b :: p).length
    if n < 0 then some none
    else do
      let tag ← tagLoop fuel ((b :: p).drop n.toNat)
      some (tag.map (shownChar uc :: ·))

/-- `read_tag`: its result, the tag, and what is left.  There is no array of a negative size. -/
def readTag (fd : List UInt8) : Option (ℤ × List UInt8 × List UInt8) :=
  let (ret, len, fd) := safeRead fd 1
  if ret ≤ 0 then some (ret, [], fd)
  else if toInt8 (len.headD 0).toNat < 0 then none
  else
    let (ret, buffer, fd) := safeRead fd (toInt8 (len.headD 0).toNat).toNat
    if ret ≤ 0 then some (-1, [], fd)
    else (tagLoop buffer.length buffer).map fun tag =>
      match tag with
      | none => (0, [], fd)
      | some tag => (1, tag, fd)

/-- `read_header`: its result, the time, and what is left. -/
def readHeader (fd : List UInt8) : ℤ × Option UInt64 × List UInt8 :=
  let (ret, buffer, fd) := safeRead fd magic.length
  if ret ≤ 0 then (-1, none, fd)
  else if buffer ≠ magic then (-1, none, fd)
  else
    let (ret, buffer, fd) := safeRead fd 8
    if ret ≤ 0 then (-1, none, fd)
    else if hton64 (value buffer) ≠ version then (-1, none, fd)
    else
      let (ret, secs, fd) := safeRead fd 8
      if ret ≤ 0 then (-1, none, fd)
      else (1, some (hton64 (value secs)), fd)

/-- The record with the bytes `rec`, each number back in host order. -/
def unpackRecord (buffer : List UInt8) : Record :=
  let field := fun i => hton64 (value ((buffer.drop (8 * i)).take 8))
  { ctime := field 0, cwall := field 1, time := field 2, wall := field 3, updates := field 4,
    cycles := field 5, misses := field 6, alloced := field 7, heap := field 8, user := field 9,
    type := buffer.getD 80 0 }

/-- `sizeof(hlt_profiler_record)`. -/
def recordSize : ℕ := 81

/-- `read_record`: its result, the tag with the record, and what is left. -/
def readRecord (fd : List UInt8) : Option (ℤ × Option Entry × List UInt8) :=
  (readTag fd).map fun (ret, tag, fd) =>
    if ret ≤ 0 then (ret, none, fd)
    else
      let (ret, buffer, fd) := safeRead fd recordSize
      if ret ≤ 0 then (-1, none, fd) else (1, some ⟨tag, unpackRecord buffer⟩, fd)

/-- `hlt_profiler_file_open` for a file with some contents that `open` gives the number `fd`. -/
def fileOpen (fd : ℕ) (contents : List UInt8) : ℤ × Option UInt64 × List UInt8 :=
  let (ret, t, rest) := readHeader contents
  if ret = 0 then (-1, none, rest) else (fd, t, rest)

/-- `hlt_profiler_file_read`. -/
def fileRead (fd : List UInt8) : Option (ℤ × Option Entry × List UInt8) :=
  readRecord fd

/-! ## Reading back -/

/-- The length check of `hlt_profiler_start`, for tags of ASCII characters. -/
structure Checked (tag : List UInt8) : Prop where
  short : tag.length ≤ maxTagLength - 1
  ascii : ∀ b ∈ tag, b.toNat < 128

/-- Reading returns these entries, one by one, and then the end of the file. -/
def ReadsExactly : List UInt8 → List Entry → Prop
  | fd, [] => (fileRead fd).map Prod.fst = some 0
  | fd, e :: entries => ∃ rest, fileRead fd = some (1, some e, rest) ∧ ReadsExactly rest entries

/-- A file with these entries can be opened, and returns its time and the entries. -/
def ReadsBack (fd : ℕ) (secs : UInt64) (entries : List Entry) : Prop :=
  0 ≤ (fileOpen fd (writeFile secs entries)).1 ∧
  (fileOpen fd (writeFile secs entries)).2.1 = some secs ∧
  ReadsExactly (fileOpen fd (writeFile secs entries)).2.2 entries

def ValidHeader (contents : List UInt8) : Prop :=
  ∃ secs, writeHeader secs <+: contents

/-- A file that does not begin with a valid header cannot be opened. -/
def RejectsInvalid (fd : ℕ) (contents : List UInt8) : Prop :=
  ¬ ValidHeader contents → (fileOpen fd contents).1 < 0

/-- What tags have to be: short enough for an `int8_t`, and printable. -/
def Readable (tag : List UInt8) : Prop :=
  tag.length < 128 ∧ ∀ b ∈ tag, isprint b.toNat

/-! ## Integers -/

theorem fromMemory_memoryOf (n v : ℕ) : fromMemory (memoryOf n v) = v % 256 ^ n := by
  induction n generalizing v with
  | zero => rw [pow_zero, Nat.mod_one]; rfl
  | succ n ih =>
    have hsplit : v % (256 * 256 ^ n) = v % 256 + 256 * (v / 256 % 256 ^ n) := Nat.mod_mul
    rw [memoryOf, fromMemory_cons, ih, UInt8.toNat_ofNat', pow_succ' 256 n, hsplit]

theorem length_memoryOf (n v : ℕ) : (memoryOf n v).length = n := by
  induction n generalizing v with
  | zero => rfl
  | succ n ih => rw [memoryOf, List.length_cons, ih]

theorem flip64_flip64 (v : BitVec 64) : flip64 (flip64 v) = v := by
  have hv : v = BitVec.ofNat 64 (fromMemory (memoryOf 8 v.toNat)) := by
    apply BitVec.eq_of_toNat_eq
    rw [fromMemory_memoryOf, BitVec.toNat_ofNat]
    have := v.isLt
    omega
  have hlen := length_memoryOf 8 v.toNat
  have hflip := flip64_fromMemory (memoryOf 8 v.toNat) (Nat.le_of_eq hlen)
  have hback := flip64_fromMemory (memoryOf 8 v.toNat).reverse (by rw [List.length_reverse, hlen])
  rw [hlen, Nat.sub_self, List.replicate_zero, List.nil_append] at hflip
  rw [List.length_reverse, hlen, Nat.sub_self, List.replicate_zero, List.nil_append,
    List.reverse_reverse] at hback
  calc flip64 (flip64 v) = flip64 (flip64 (BitVec.ofNat 64 (fromMemory (memoryOf 8 v.toNat)))) := by
        rw [← hv]
    _ = v := by rw [hflip, hback, ← hv]

theorem hton64_hton64 (v : UInt64) : hton64 (hton64 v) = v := by
  apply UInt64.toBitVec_inj.mp
  exact flip64_flip64 v.toBitVec

theorem length_memory (v : UInt64) : (memory v).length = 8 :=
  length_memoryOf 8 v.toNat

theorem value_memory (v : UInt64) : value (memory v) = v := by
  apply UInt64.toNat_inj.mp
  rw [value, memory, fromMemory_memoryOf, UInt64.toNat_ofNat']
  have := v.toNat_lt
  omega

/-! ## Writing and reading the parts -/

theorem safeRead_append {a : List UInt8} {len : ℕ} (h : a.length = len) (rest : List UInt8) :
    safeRead (a ++ rest) len = (1, a, rest) := by
  subst h
  rw [safeRead, if_pos (by rw [List.length_append]; omega), List.take_left, List.drop_left]

theorem readHeader_writeHeader (secs : UInt64) (rest : List UInt8) :
    readHeader (writeHeader secs ++ rest) = (1, some secs, rest) := by
  rw [readHeader, writeHeader, List.append_assoc, List.append_assoc, safeRead_append rfl]
  dsimp only
  rw [if_neg (by decide), if_neg (by decide), safeRead_append (length_memory _)]
  dsimp only
  rw [value_memory, hton64_hton64, if_neg (by decide), if_neg (by decide),
    safeRead_append (length_memory _)]
  dsimp only
  rw [value_memory, hton64_hton64, if_neg (by decide)]

theorem readHeader_ret (contents : List UInt8) :
    (readHeader contents).1 = -1 ∨ (readHeader contents).1 = 1 := by
  rw [readHeader]
  dsimp only
  split
  · exact .inl rfl
  · split
    · exact .inl rfl
    · split
      · exact .inl rfl
      · split
        · exact .inl rfl
        · split
          · exact .inl rfl
          · exact .inr rfl

theorem fileOpen_ret (fd : ℕ) (contents : List UInt8) : (fileOpen fd contents).1 = fd := by
  have hret : (readHeader contents).1 ≠ 0 := by
    rcases readHeader_ret contents with h | h <;> rw [h] <;> decide
  rw [fileOpen]
  dsimp only
  rw [if_neg hret]

theorem rejectsInvalid_iff (fd : ℕ) (contents : List UInt8) :
    RejectsInvalid fd contents ↔ ValidHeader contents := by
  rw [RejectsInvalid, fileOpen_ret]
  constructor
  · intro h
    by_contra hinvalid
    have := h hinvalid
    omega
  · intro h hinvalid
    exact absurd h hinvalid

theorem length_numbers (vs : List UInt64) :
    (vs.flatMap fun v => memory (hton64 v)).length = 8 * vs.length := by
  induction vs with
  | nil => rfl
  | cons v vs ih =>
    rw [List.flatMap_cons, List.length_append, length_memory, ih, List.length_cons]
    omega

theorem field_numbers (tail : List UInt8) {v : UInt64} : ∀ (vs : List UInt64) (i : ℕ),
    vs[i]? = some v →
      hton64 (value ((((vs.flatMap fun v => memory (hton64 v)) ++ tail).drop (8 * i)).take 8)) = v
  | w :: vs, 0, h => by
    obtain rfl := Option.some.inj h
    rw [List.flatMap_cons, List.append_assoc, Nat.mul_zero, List.drop_zero,
      ← length_memory (hton64 w), List.take_left, value_memory, hton64_hton64]
  | w :: vs, i + 1, h => by
    have hskip : 8 * (i + 1) = (memory (hton64 w)).length + 8 * i := by
      rw [length_memory]
      omega
    rw [List.getElem?_cons_succ] at h
    rw [List.flatMap_cons, List.append_assoc, hskip, List.drop_length_add_append,
      field_numbers tail vs i h]

theorem unpackRecord_packRecord (r : Record) : unpackRecord (packRecord r) = r := by
  have hfield := fun v i => field_numbers [r.type] (v := v) [r.ctime, r.cwall, r.time, r.wall,
    r.updates, r.cycles, r.misses, r.alloced, r.heap, r.user] i
  have hlen : ([r.ctime, r.cwall, r.time, r.wall, r.updates, r.cycles, r.misses, r.alloced, r.heap,
      r.user].flatMap fun v => memory (hton64 v)).length = 80 := length_numbers _
  have htype : (packRecord r).getD 80 0 = r.type := by
    rw [packRecord, List.getD_eq_getElem?_getD, List.getElem?_append_right (Nat.le_of_eq hlen),
      hlen]
    rfl
  rw [unpackRecord, htype, packRecord]
  dsimp only
  rw [hfield _ 0 rfl, hfield _ 1 rfl, hfield _ 2 rfl, hfield _ 3 rfl, hfield _ 4 rfl,
    hfield _ 5 rfl, hfield _ 6 rfl, hfield _ 7 rfl, hfield _ 8 rfl, hfield _ 9 rfl]

theorem length_packRecord (r : Record) : (packRecord r).length = recordSize := by
  rw [packRecord, List.length_append, length_numbers]
  rfl

/-! ## Tags -/

theorem utf8procIterate_ascii {b : UInt8} (h : b.toNat < 128) (rest : List UInt8) {n : ℤ}
    (hn : 0 < n) : utf8procIterate (b :: rest) n = some (1, (b.toNat : ℤ)) := by
  have hclass : Strings.utf8class b = 1 := if_pos h
  have hcode : Strings.codePoint (b :: rest) 1 = some (b.toNat : ℤ) := rfl
  have hiter := Strings.iterate_of rfl hclass Nat.one_pos (.inr hn) rfl hcode
  rw [hiter, if_neg (by omega)]
  rfl

def shown (tag : List UInt8) : List UInt8 :=
  tag.map fun b => shownChar b.toNat

theorem tagLoop_ascii : ∀ {fuel : ℕ} {p : List UInt8}, p.length ≤ fuel →
    (∀ b ∈ p, b.toNat < 128) → tagLoop fuel p = some (some (shown p))
  | fuel, [], _, _ => by
    cases fuel <;> rfl
  | fuel + 1, b :: p, hfuel, hascii => by
    have hfirst := hascii b List.mem_cons_self
    have hrest := tagLoop_ascii (Nat.le_of_succ_le_succ hfuel)
      fun c hc => hascii c (List.mem_cons_of_mem b hc)
    have hpos : (0 : ℤ) < (b :: p).length := by
      rw [List.length_cons]
      omega
    rw [tagLoop, utf8procIterate_ascii hfirst p hpos]
    show (tagLoop fuel p).bind _ = _
    rw [hrest]
    rfl

theorem shownChar_eq_iff {b : UInt8} (h : b.toNat < 128) :
    shownChar b.toNat = b ↔ isprint b.toNat := by
  by_cases hprint : isprint b.toNat
  · have hlt : (b.toNat : ℤ) < 128 := by omega
    rw [shownChar, if_pos ⟨hlt, hprint⟩, Int.toNat_natCast, UInt8.ofNat_toNat]
    exact iff_of_true rfl hprint
  · rw [shownChar, if_neg (fun h => hprint h.2)]
    refine iff_of_false (fun hb => hprint ?_) hprint
    rw [← hb]
    rfl

theorem shown_eq_iff {tag : List UInt8} (hascii : ∀ b ∈ tag, b.toNat < 128) :
    shown tag = tag ↔ ∀ b ∈ tag, isprint b.toNat := by
  have hmap : shown tag = tag ↔ ∀ b ∈ tag, shownChar b.toNat = b := by
    rw [shown]
    nth_rewrite 2 [← List.map_id tag]
    exact List.map_inj_left
  rw [hmap]
  constructor
  · intro h b hb
    exact (shownChar_eq_iff (hascii b hb)).mp (h b hb)
  · intro h b hb
    exact (shownChar_eq_iff (hascii b hb)).mpr (h b hb)

/-! ## Records -/

theorem toInt8_small {n : ℕ} (h : n < 128) : toInt8 n = n := by
  rw [toInt8, Int.bmod_eq_of_le] <;> omega

theorem toInt8_large {n : ℕ} (h : 128 ≤ n) (h' : n < 2 ^ 8) : toInt8 n < 0 := by
  rw [toInt8, Int.bmod_def]
  omega

theorem Checked.lt {tag : List UInt8} (h : Checked tag) : tag.length < 2 ^ 8 :=
  Nat.lt_of_le_of_lt h.short (by decide)

theorem tagLength {tag : List UInt8} (h : Checked tag) :
    (UInt8.ofNat tag.length).toNat = tag.length := by
  rw [UInt8.toNat_ofNat', Nat.mod_eq_of_lt h.lt]

theorem writeTag_short {tag : List UInt8} (h : Checked tag) (hlen : tag.length < 128)
    (file : List UInt8) :
    writeTag tag file = (file ++ (UInt8.ofNat tag.length :: tag), none) := by
  rw [writeTag, tagLength h, toInt8_small hlen, safeWrite, if_neg (by omega), Int.toNat_natCast,
    List.take_length, List.append_assoc]
  rfl

theorem writeTag_long {tag : List UInt8} (h : Checked tag) (hlen : 128 ≤ tag.length)
    (file : List UInt8) :
    writeTag tag file = (file ++ [UInt8.ofNat tag.length], some .ioError) := by
  rw [writeTag, tagLength h, safeWrite, if_pos (toInt8_large hlen h.lt)]

def entryBytes (e : Entry) : List UInt8 :=
  if e.tag.length < 128 then UInt8.ofNat e.tag.length :: e.tag ++ packRecord e.record
  else UInt8.ofNat e.tag.length :: packRecord e.record

theorem writeRecord_eq {e : Entry} (h : Checked e.tag) (file : List UInt8) :
    (writeRecord e file).1 = file ++ entryBytes e := by
  rw [writeRecord, entryBytes]
  by_cases hlen : e.tag.length < 128
  · rw [if_pos hlen, writeTag_short h hlen, List.append_assoc]
  · rw [if_neg hlen, writeTag_long h (Nat.not_lt.mp hlen), List.append_assoc,
      List.singleton_append]

theorem writeFile_eq (secs : UInt64) {entries : List Entry} (h : ∀ e ∈ entries, Checked e.tag) :
    writeFile secs entries = writeHeader secs ++ entries.flatMap entryBytes := by
  have hfold : ∀ (entries : List Entry) (file : List UInt8), (∀ e ∈ entries, Checked e.tag) →
      entries.foldl (fun file e => (writeRecord e file).1) file =
        file ++ entries.flatMap entryBytes := by
    intro entries
    induction entries with
    | nil =>
      intro file _
      exact (List.append_nil file).symm
    | cons e entries ih =>
      intro file h
      rw [List.foldl_cons, writeRecord_eq (h e List.mem_cons_self),
        ih _ fun d hd => h d (List.mem_cons_of_mem e hd), List.append_assoc]
      rfl
  exact hfold entries (writeHeader secs) h

theorem safeRead_one (b : UInt8) (rest : List UInt8) : safeRead (b :: rest) 1 = (1, [b], rest) :=
  if_pos (Nat.le_add_left 1 rest.length)

theorem readTag_short {tag : List UInt8} (h : Checked tag) (hlen : tag.length < 128)
    (rest : List UInt8) :
    readTag (UInt8.ofNat tag.length :: (tag ++ rest)) = some (1, shown tag, rest) := by
  rw [readTag, safeRead_one]
  dsimp only
  rw [List.headD_cons, tagLength h, toInt8_small hlen, if_neg (by decide), if_neg (by omega),
    Int.toNat_natCast, safeRead_append rfl]
  dsimp only
  rw [if_neg (by decide), tagLoop_ascii (Nat.le_refl _) h.ascii]
  rfl

theorem fileRead_short {e : Entry} (h : Checked e.tag) (hlen : e.tag.length < 128)
    (rest : List UInt8) :
    fileRead (entryBytes e ++ rest) = some (1, some ⟨shown e.tag, e.record⟩, rest) := by
  rw [fileRead, readRecord, entryBytes, if_pos hlen, List.append_assoc, List.cons_append,
    readTag_short h hlen, Option.map_some]
  dsimp only
  rw [if_neg (by decide), safeRead_append (length_packRecord e.record)]
  dsimp only
  rw [if_neg (by decide), unpackRecord_packRecord]

theorem fileRead_long {e : Entry} (h : Checked e.tag) (hlen : 128 ≤ e.tag.length)
    (rest : List UInt8) : fileRead (entryBytes e ++ rest) = none := by
  rw [fileRead, readRecord, entryBytes, if_neg (Nat.not_lt.mpr hlen), List.cons_append, readTag,
    safeRead_one]
  dsimp only
  rw [List.headD_cons, tagLength h, if_neg (by decide), if_pos (toInt8_large hlen h.lt)]
  rfl

theorem fileRead_nil : (fileRead []).map Prod.fst = some 0 := rfl

theorem readsExactly_iff : ∀ {entries : List Entry}, (∀ e ∈ entries, Checked e.tag) →
    (ReadsExactly (entries.flatMap entryBytes) entries ↔ ∀ e ∈ entries, Readable e.tag)
  | [], _ => iff_of_true fileRead_nil (List.forall_mem_nil _)
  | e :: entries, h => by
    have he := h e List.mem_cons_self
    have ih := readsExactly_iff fun d hd => h d (List.mem_cons_of_mem e hd)
    rw [List.forall_mem_cons, List.flatMap_cons, ReadsExactly]
    by_cases hlen : e.tag.length < 128
    · rw [fileRead_short he hlen, ← ih, Readable, ← shown_eq_iff he.ascii]
      constructor
      · rintro ⟨rest, hread, hrest⟩
        obtain ⟨hentry, rfl⟩ := Prod.mk.inj (Prod.mk.inj (Option.some.inj hread)).2
        exact ⟨⟨hlen, congrArg Entry.tag (Option.some.inj hentry)⟩, hrest⟩
      · intro hall
        exact ⟨_, by rw [hall.1.2], hall.2⟩
    · rw [fileRead_long he (Nat.not_lt.mp hlen)]
      refine iff_of_false ?_ fun hall => hlen hall.1.1
      rintro ⟨rest, hread, -⟩
      cases hread

theorem fileOpen_writeFile (fd : ℕ) (secs : UInt64) {entries : List Entry}
    (h : ∀ e ∈ entries, Checked e.tag) :
    fileOpen fd (writeFile secs entries) = (↑fd, some secs, entries.flatMap entryBytes) := by
  rw [fileOpen, writeFile_eq secs h, readHeader_writeHeader]
  exact if_neg (by decide)

theorem readsBack_iff (fd : ℕ) (secs : UInt64) {entries : List Entry}
    (h : ∀ e ∈ entries, Checked e.tag) :
    ReadsBack fd secs entries ↔ ∀ e ∈ entries, Readable e.tag := by
  rw [ReadsBack, fileOpen_writeFile fd secs h, ← readsExactly_iff h]
  constructor
  · intro hback
    exact hback.2.2
  · intro hreads
    exact ⟨Int.natCast_nonneg fd, rfl, hreads⟩

/-- **A profile file is read back, and a file without a valid header rejected, exactly if all tags
are short and printable and the file does have a valid header.** -/
theorem profileFile_iff (fd : ℕ) (secs : UInt64) (entries : List Entry)
    (h : ∀ e ∈ entries, Checked e.tag) (contents : List UInt8) :
    ReadsBack fd secs entries ∧ RejectsInvalid fd contents ↔
      (∀ e ∈ entries, Readable e.tag) ∧ ValidHeader contents :=
  and_congr (readsBack_iff fd secs h) (rejectsInvalid_iff fd contents)

/-- A record with a tag of `n` letters. -/
def letters (n : ℕ) : Entry :=
  ⟨List.replicate n 97, ⟨0, 0, 0, 0, 0, 0, 0, 0, 0, 0, hltProfilerStart⟩⟩

theorem checked_letters {n : ℕ} (h : n ≤ maxTagLength - 1) : Checked (letters n).tag := by
  refine ⟨?_, fun b hb => ?_⟩
  · rw [letters, List.length_replicate]
    exact h
  · rw [List.eq_of_mem_replicate hb]
    decide

theorem profileFile_iff_letter :
    ReadsBack 3 0 [letters 1] ∧ RejectsInvalid 3 [] ↔
      (∀ e ∈ [letters 1], Readable e.tag) ∧ ValidHeader [] := by
  refine profileFile_iff 3 0 [letters 1] (fun e he => ?_) []
  rw [List.mem_singleton.mp he]
  exact checked_letters (by decide)

/-- A tag of 128 letters is not read back, and an empty file can be opened. -/
theorem longTag_not_readsBack : ¬ ReadsBack 3 0 [letters 128] ∧ ¬ RejectsInvalid 3 [] := by
  constructor
  · rw [readsBack_iff]
    · intro h
      have hlen := (h (letters 128) List.mem_cons_self).1
      rw [letters, List.length_replicate] at hlen
      exact absurd hlen (by decide)
    · intro e he
      rw [List.mem_singleton.mp he]
      exact checked_letters (by decide)
  · rw [rejectsInvalid_iff]
    rintro ⟨secs, hheader⟩
    have hnil := List.prefix_nil.mp hheader
    cases hnil

end Hilti.Profiling
