import Hilti.Bytes.Future
import Hilti.Strings.Order

/-!
# Encoding and decoding strings

`hlt_string_encode` copies the bytes of a string for UTF-8; for ASCII it decodes its characters
one by one, and appends them in pieces of the size of a buffer.  `hlt_string_decode` copies the
bytes of an object, or walks over them with an iterator.  So what comes back is the text, or the
text with a question mark for each character that is not ASCII, whatever the chunks of the object
in between are.
-/

namespace Hilti.Strings

open Hilti.Bytes

set_option autoImplicit false

/-! ## What is expected -/

/-- The object at `b` consists of some chunks with these bytes. -/
def HoldsBytes (H : Heap) (b : ℕ) (data : List UInt8) : Prop :=
  ∃ e r, e.1 = b ∧ Layout H (e :: r) ∧ content (e :: r) = data

/-- The character that ASCII has for another one. -/
def replaced (c : Char) : Char :=
  if c.toNat < 128 then c else '?'

/-- The string that is made for a text: the empty one is a null pointer. -/
def textString (cs : List Char) : HltString :=
  if cs = [] then none else some (encode cs)

/-- `iterate` decodes each of the characters, whatever follows. -/
def DecodesAll (iterate : List UInt8 → ℤ → Option (ℤ × ℤ)) (cs : List Char) : Prop :=
  ∀ c ∈ cs, ∀ rest, iterate (String.utf8EncodeChar c ++ rest)
    (String.utf8EncodeChar c ++ rest).length = some (↑c.utf8Size, (c.toNat : ℤ))

/-- The string is encoded to an object, and from every object with the same bytes the text `cs`
is decoded. -/
def RoundTrip (iterate : List UInt8 → ℤ → Option (ℤ × ℤ))
    (convert : Charset → List UInt8 → Option (List UInt8)) (H : Heap) (s : HltString)
    (charset : Charset) (cs : List Char) : Prop :=
  ∃ H' b data, stringEncode iterate H s charset = some (.ok (H', b)) ∧ HoldsBytes H' b data ∧
    ∀ G b', HoldsBytes G b' data →
      stringDecode convert (data.length + 1) G b' charset = some (.ok (textString cs))

/-! ## Objects with some bytes -/

section

variable {H : Heap} {b : ℕ} {data : List UInt8}

theorem bytesNew_holds (H : Heap) : HoldsBytes (bytesNew H []).1 (bytesNew H []).2 [] := by
  refine ⟨(H.fresh, ⟨none, 0, [], 0⟩), [], rfl, ⟨?_, ?_, ?_, ?_, ?_, ?_⟩, rfl⟩
  · exact ⟨by simp [bytesNew, Heap.write], rfl, trivial⟩
  · exact List.nodup_singleton _
  · intro e he
    rw [List.mem_singleton.mp he]
    exact Nat.lt_succ_self _
  · exact Nat.succ_le_succ (Nat.zero_le _)
  · intro e he
    rw [List.mem_singleton.mp he]
    exact Nat.le_refl _
  · refine ⟨0, fun l e r heq hne => absurd ?_ hne⟩
    cases l with
    | nil =>
      obtain ⟨rfl, rfl⟩ := List.cons.inj heq
      rfl
    | cons x l =>
      have hlen := congrArg List.length heq
      simp at hlen

theorem bytesAppendRaw_holds (h : HoldsBytes H b data) (raw : List UInt8) :
    ∃ H', bytesAppendRaw H b raw = some H' ∧ HoldsBytes H' b (data ++ raw) := by
  obtain ⟨e, r, rfl, hlayout, rfl⟩ := h
  obtain ⟨H', hrun⟩ := bytesAppendRaw_total hlayout rfl raw
  obtain ⟨e', r', haddr, hlayout', hcontent, -⟩ := bytesAppendRaw_layout hlayout rfl hrun
  exact ⟨H', hrun, e', r', haddr, hlayout', hcontent⟩

theorem isEmpty_holds (h : HoldsBytes H b data) : isEmpty H b = some (decide (data = [])) := by
  obtain ⟨e, r, rfl, hlayout, rfl⟩ := h
  obtain ⟨hfollow, hstarts, -, hfuel⟩ := hlayout.cell (show e :: r = [] ++ (e.1, e.2) :: r from rfl)
  exact isEmptyLoop_cells hfollow hstarts hfuel

theorem bytesLen_holds (h : HoldsBytes H b data) : bytesLen H b = some (data.length : ℤ) := by
  obtain ⟨e, r, rfl, hlayout, rfl⟩ := h
  exact bytesLen_cell hlayout (show e :: r = [] ++ (e.1, e.2) :: r from rfl)

theorem rawBytes_holds (h : HoldsBytes H b data) : rawBytes H b = some data := by
  obtain ⟨e, r, rfl, hlayout, rfl⟩ := h
  obtain ⟨start, hbegin, hstart⟩ := bytesBegin_at hlayout rfl
  obtain ⟨stop, _, _, _, hend, hstop, -⟩ := bytesEnd_at hlayout rfl
  have hdiff := bytesDiff_at hlayout hstart ⟨_, _, _, _, hstop⟩
  rw [Nat.min_self, Nat.sub_zero] at hdiff
  have hall : range (e :: r) 0 (content (e :: r)).length = content (e :: r) := by simp [range]
  have hright := bytesSubRaw_right hlayout hstart ⟨_, _, _, _, hstop⟩ (Nat.zero_le _)
    (content (e :: r)).length
  rw [hall] at hright
  obtain ⟨written, returned, hrun, -, hreturned, hwritten⟩ := hright.mpr (.inl rfl)
  obtain rfl := hreturned.mpr (Nat.le_refl _)
  obtain rfl := hwritten (Nat.le_refl _)
  simp only [rawBytes, hbegin, hend, hdiff, Option.bind_eq_bind, Option.bind_some,
    Int.toNat_natCast, hrun]

theorem read_holds (h : HoldsBytes H b data) : ∃ start stop, bytesBegin H b = some start ∧
    bytesEnd H b = some stop ∧ readLoop H stop (data.length + 1) start = some data := by
  obtain ⟨e, r, rfl, hlayout, rfl⟩ := h
  obtain ⟨start, hbegin, hstart⟩ := bytesBegin_at hlayout rfl
  obtain ⟨stop, _, _, _, hend, hstop, -⟩ := bytesEnd_at hlayout rfl
  have hread := readLoop_at hlayout ⟨_, _, _, _, hstop⟩ (content (e :: r)).length start 0 hstart
    (Nat.zero_le _) (by omega)
  rw [List.drop_zero, Nat.sub_zero, List.take_length] at hread
  exact ⟨start, stop, hbegin, hend, hread⟩

end

/-! ## Encoding -/

/-- The byte that is written for a character. -/
def asciiByte (c : Char) : UInt8 :=
  if (c.toNat : ℤ) < 128 then UInt8.ofNat (c.toNat : ℤ).toNat else 63

theorem asciiByte_of_lt {c : Char} (h : c.toNat < 128) : asciiByte c = UInt8.ofNat c.toNat := by
  unfold asciiByte
  rw [if_pos (by omega), Int.toNat_natCast]

theorem asciiByte_of_ge {c : Char} (h : ¬ c.toNat < 128) : asciiByte c = 63 := by
  unfold asciiByte
  rw [if_neg (by omega)]

theorem asciiByte_lt (c : Char) : (asciiByte c).toNat < 128 := by
  by_cases h : c.toNat < 128
  · rw [asciiByte_of_lt h, toNat_ofNat (by omega)]
    exact h
  · rw [asciiByte_of_ge h]
    decide

theorem utf8EncodeChar_replaced (c : Char) :
    String.utf8EncodeChar (replaced c) = [asciiByte c] := by
  by_cases h : c.toNat < 128
  · have hc : replaced c = c := if_pos h
    rw [hc, asciiByte_of_lt h, utf8EncodeChar_eq, if_pos (by omega)]
  · have hc : replaced c = '?' := if_neg h
    rw [hc, asciiByte_of_ge h]
    decide

theorem encode_replaced (cs : List Char) : encode (cs.map replaced) = cs.map asciiByte := by
  induction cs with
  | nil => rfl
  | cons c cs ih =>
    rw [List.map_cons, encode_cons, utf8EncodeChar_replaced, ih, List.map_cons]
    rfl

section

variable {iterate : List UInt8 → ℤ → Option (ℤ × ℤ)} {H : Heap} {dst : ℕ}

theorem encodeLoop_holds {cs : List Char} (hiter : DecodesAll iterate cs) {written : List UInt8}
    (h : HoldsBytes H dst written) (data : Option (List UInt8)) (hdata : cs = [] → data = none)
    {fuel : ℕ} (hfuel : cs.length ≤ fuel) :
    ∃ H', encodeLoop iterate dst fuel H data (encode cs) = some (.ok H') ∧
      HoldsBytes H' dst (written ++ data.getD [] ++ cs.map asciiByte) := by
  induction cs generalizing H written data fuel with
  | nil =>
    obtain rfl := hdata rfl
    refine ⟨H, by cases fuel <;> rfl, ?_⟩
    simpa using h
  | cons c cs ih =>
    obtain ⟨fuel, rfl⟩ : ∃ n, fuel = n + 1 := ⟨fuel - 1, by simp at hfuel; omega⟩
    have hlen : cs.length ≤ fuel := by simpa using hfuel
    have hrest : DecodesAll iterate cs := fun d hd => hiter d (List.mem_cons_of_mem c hd)
    have hcons : encode (c :: cs) ≠ [] := by
      rw [ne_eq, encode_eq_nil]
      exact List.cons_ne_nil c cs
    obtain ⟨b, bytes, hbytes⟩ := List.exists_cons_of_ne_nil hcons
    have hone := hiter c List.mem_cons_self (encode cs)
    have hdrop : (encode (c :: cs)).drop (c.utf8Size : ℤ).toNat = encode cs := drop_char c cs
    rw [← encode_cons, hbytes] at hone
    rw [hbytes] at hdrop ⊢
    have hsize : ¬ (c.utf8Size : ℤ) < 0 := by omega
    have hbyte : (if (c.toNat : ℤ) < 128 then UInt8.ofNat (c.toNat : ℤ).toNat else 63) =
        asciiByte c := rfl
    rw [encodeLoop, hone]
    · simp only [Option.bind_eq_bind, Option.bind_some, hsize, if_false, hdrop, hbyte]
      split
      · obtain ⟨H₁, hrun, h₁⟩ := bytesAppendRaw_holds h (data.getD [] ++ [asciiByte c])
        obtain ⟨H', hloop, h'⟩ := ih hrest h₁ none (fun _ => rfl) hlen
        refine ⟨H', by rw [hrun, Option.bind_some, hloop], ?_⟩
        simpa using h'
      · rename_i hnot
        obtain ⟨H', hloop, h'⟩ := ih hrest h (some (data.getD [] ++ [asciiByte c]))
          (fun hnil => absurd (.inr (encode_eq_nil.mpr hnil)) hnot) hlen
        refine ⟨H', hloop, ?_⟩
        simpa using h'
    · exact fun h => nomatch h

theorem stringEncode_utf8 (H : Heap) (s : Text) :
    ∃ H' b, stringEncode iterate H s.str .utf8 = some (.ok (H', b)) ∧
      HoldsBytes H' b (encode s.chars) := by
  have hnew := bytesNew_holds H
  unfold Text.str
  cases hnull : s.null with
  | true =>
    rw [s.null_empty hnull]
    exact ⟨_, _, rfl, hnew⟩
  | false =>
    obtain ⟨H', hrun, h'⟩ := bytesAppendRaw_holds hnew (encode s.chars)
    refine ⟨H', (bytesNew H []).2, ?_, h'⟩
    simp [stringEncode, hrun]

theorem stringEncode_ascii (H : Heap) (s : Text) (hiter : DecodesAll iterate s.chars) :
    ∃ H' b, stringEncode iterate H s.str .ascii = some (.ok (H', b)) ∧
      HoldsBytes H' b (encode (s.chars.map replaced)) := by
  have hnew := bytesNew_holds H
  unfold Text.str
  cases hnull : s.null with
  | true =>
    rw [s.null_empty hnull]
    exact ⟨_, _, rfl, hnew⟩
  | false =>
    obtain ⟨H', hrun, h'⟩ := encodeLoop_holds hiter hnew none (fun _ => rfl)
      (length_le_encode s.chars)
    refine ⟨H', (bytesNew H []).2, ?_, ?_⟩
    · simp [stringEncode, hrun, Except.map]
    · rw [encode_replaced]
      simpa using h'

end

/-! ## Decoding -/

section

variable {convert : Charset → List UInt8 → Option (List UInt8)} {H : Heap} {b : ℕ}

theorem stringDecode_utf8 {cs : List Char} (h : HoldsBytes H b (encode cs)) (fuel : ℕ) :
    stringDecode convert fuel H b .utf8 = some (.ok (textString cs)) := by
  rw [stringDecode, if_neg (by decide), isEmpty_holds h, textString]
  by_cases hnil : cs = []
  · simp [hnil]
  · simp [hnil, encode_eq_nil, rawBytes_holds h, bytesLen_holds h]

theorem sevenBit_asciiByte (c : Char) : sevenBit (asciiByte c) = asciiByte c := by
  unfold sevenBit
  rw [if_pos (Nat.mod_eq_of_lt (asciiByte_lt c))]

theorem stringDecode_ascii {cs : List Char} (h : HoldsBytes H b (encode (cs.map replaced))) :
    stringDecode convert ((encode (cs.map replaced)).length + 1) H b .ascii =
      some (.ok (textString (cs.map replaced))) := by
  obtain ⟨start, stop, hbegin, hend, hread⟩ := read_holds h
  have hsame : (encode (cs.map replaced)).map sevenBit = encode (cs.map replaced) := by
    rw [encode_replaced, List.map_map]
    apply List.map_congr_left
    intro c hc
    rw [Function.comp_apply, sevenBit_asciiByte]
  rw [stringDecode, if_neg (by decide), isEmpty_holds h, textString]
  by_cases hnil : cs.map replaced = []
  · simp [hnil]
  · have hne := mt encode_eq_nil.mp hnil
    simp only [hnil, hne, decide_false, Option.bind_eq_bind, Option.bind_some,
      bytesLen_holds h, hbegin, hend, hread, Int.toNat_natCast, hsame]
    simp

end

/-! ## Both -/

/-- Encoding and decoding gives the text back for UTF-8; for ASCII, with a question mark for each
character that is not ASCII. -/
theorem encode_decode (iterate : List UInt8 → ℤ → Option (ℤ × ℤ))
    (convert : Charset → List UInt8 → Option (List UInt8)) (H : Heap) (s : Text)
    (hiter : DecodesAll iterate s.chars) :
    RoundTrip iterate convert H s.str .utf8 s.chars ∧
      RoundTrip iterate convert H s.str .ascii (s.chars.map replaced) := by
  constructor
  · obtain ⟨H', b, hrun, h'⟩ := stringEncode_utf8 H s
    exact ⟨H', b, _, hrun, h', fun G b' hG => stringDecode_utf8 hG _⟩
  · obtain ⟨H', b, hrun, h'⟩ := stringEncode_ascii H s hiter
    exact ⟨H', b, _, hrun, h', fun G b' hG => stringDecode_ascii hG⟩

theorem utf8procIterate_decodes {cs : List Char} (h : ∀ c ∈ cs, ¬ Noncharacter c) :
    DecodesAll utf8procIterate cs := by
  intro c hc rest
  have hlen : (c.utf8Size : ℤ) ≤ (String.utf8EncodeChar c ++ rest).length := by
    rw [List.length_append, String.length_utf8EncodeChar]
    omega
  rw [iterate_char c rest (.inr hlen), if_neg (h c hc)]

/-- The text `aé`, which is `a?` in ASCII. -/
theorem encode_decode_sample :
    RoundTrip utf8procIterate (fun _ _ => none) ⟨fun _ => none, 0⟩ (some [97, 0xC3, 0xA9]) .utf8
        ['a', 'é'] ∧
      RoundTrip utf8procIterate (fun _ _ => none) ⟨fun _ => none, 0⟩ (some [97, 0xC3, 0xA9])
        .ascii ['a', '?'] :=
  encode_decode utf8procIterate (fun _ _ => none) ⟨fun _ => none, 0⟩ ⟨false, ['a', 'é'], by simp⟩
    (utf8procIterate_decodes (List.forall_mem_cons.mpr
      ⟨by decide, List.forall_mem_singleton.mpr (by decide)⟩))

end Hilti.Strings
