import Hilti.Embedded.Extending
import Hilti.Embedded.Walking
import Hilti.Lib.Machine

/-!
# Appending

What walking over an object finds after an append is what it found before, and then what has been
appended.  An object must not be appended behind a mark, though: the mark needs a chunk behind the
object, and the second chunk of the object is then linked to one that is no longer the last.
-/

namespace Hilti.Embedded

set_option autoImplicit false

variable {ω : Type}

/-! ## What is appended -/

/-- Cells behind others, where a mark behind those is in front of the first one. -/
def Sequence.append (s t : Sequence ω) : Sequence ω :=
  match t.cells with
  | [] => ⟨s.cells, s.mark || t.mark⟩
  | x :: xs => ⟨s.cells ++ (s.mark || x.1, x.2) :: xs, t.mark⟩

/-- What an append is about. -/
def Op.appended : Op ω → Sequence ω
  | .append none => ⟨[], false⟩
  | .append (some other) => sequence other
  | .appendRaw raw => ⟨dataCells raw [], false⟩
  | .appendRawCopy raw => ⟨dataCells raw [], false⟩
  | .appendObject none => ⟨[], false⟩
  | .appendObject (some obj) => ⟨[(false, .inr obj)], false⟩
  | .appendMark => ⟨[], true⟩

/-- No byte and no object are lost, and no mark: each is behind a byte of its chunk, or behind the
last one, and the distance to the chunk, if there is a mark in it, fits into an `int8_t`. -/
def Copied : ℕ → Bytes ω → Prop
  | _, [] => True
  | n, c :: cs => c.marks ≠ .freed ∧ (c.marks.live ≠ [] → n < 128) ∧
      (∀ m ∈ c.marks.live, m < c.len ∨ cs = [] ∧ m = c.len) ∧ Copied (n + c.len) cs

instance Copied.decidable : (n : ℕ) → (b : Bytes ω) → Decidable (Copied n b)
  | _, [] => isTrue trivial
  | n, c :: cs =>
    have := Copied.decidable (n + c.len) cs
    have : Decidable (c.marks ≠ .freed) := inferInstance
    have : Decidable (∀ m ∈ c.marks.live, m < c.len ∨ cs = [] ∧ m = c.len) :=
      have : Decidable (cs = []) := decidable_of_iff (cs.isEmpty) List.isEmpty_iff
      inferInstance
    inferInstanceAs (Decidable (_ ∧ _ ∧ _ ∧ _))

/-- The calls that go well: an object goes to where there is no mark, and what is copied has no
object, and marks only where there is something to copy. -/
def StepOk (b : Bytes ω) : Op ω → Prop
  | .append (some other) => (∀ c ∈ other, c.isObject = false) ∧
      (bytesLen other = 0 → endMark other = false) ∧ (bytesLen other ≠ 0 → Copied 0 other)
  | .appendObject (some _) => endMark b = false
  | _ => True

instance StepOk.decidable (b : Bytes ω) : (op : Op ω) → Decidable (StepOk b op)
  | .append none => isTrue trivial
  | .append (some _) => inferInstanceAs (Decidable (_ ∧ (_ → _) ∧ (_ → _)))
  | .appendRaw _ => isTrue trivial
  | .appendRawCopy _ => isTrue trivial
  | .appendObject none => isTrue trivial
  | .appendObject (some _) => inferInstanceAs (Decidable (_ = _))
  | .appendMark => isTrue trivial

/-- The marks of a chunk are in front of one of its bytes, or at its end. -/
def Chunk.Within (c : Chunk ω) : Prop :=
  c.marks ≠ .freed ∧ ∀ m ∈ c.marks.entries, 0 ≤ m ∧ m ≤ c.len

/-- So are those of the last chunk. -/
def TailWithin (b : Bytes ω) : Prop :=
  ∀ c ∈ b.getLast?, c.Within

/-! ## Marks that move -/

section

variable {c d e : Chunk ω} {D : Bytes ω}

theorem mem_overflow_within (hc : c.Within) {m : ℤ} (hm : m ∈ overflow c.len c.marks.entries) :
    m = 0 ∧ c.marks.entries.contains (c.len : ℤ) := by
  obtain ⟨n, hn, rfl⟩ := List.mem_map.mp hm
  obtain ⟨hn, hle⟩ := List.mem_filter.mp hn
  have hle := of_decide_eq_true hle
  have heq : n = c.len := le_antisymm (hc.2 n hn).2 hle
  rw [← heq]
  exact ⟨Int.sub_self n, List.contains_iff_mem.mpr hn⟩

theorem overflow_contains_zero (hc : c.Within) :
    (overflow c.len c.marks.entries).contains 0 = c.marks.entries.contains (c.len : ℤ) := by
  rw [Bool.eq_iff_iff]
  constructor
  · exact fun h => (mem_overflow_within hc (List.contains_iff_mem.mp h)).2
  · intro h
    refine List.contains_iff_mem.mpr (List.mem_map.mpr ⟨c.len, ?_, Int.sub_self _⟩)
    exact List.mem_filter.mpr ⟨List.contains_iff_mem.mp h, decide_eq_true le_rfl⟩

theorem overflow_contains_pos (hc : c.Within) {p : ℕ} (hp : 0 < p) :
    (overflow c.len c.marks.entries).contains (p : ℤ) = false := by
  rw [Bool.eq_false_iff]
  intro h
  have hzero := (mem_overflow_within hc (List.contains_iff_mem.mp h)).1
  omega

theorem overflow_of_endMark (hc : c.Within) (h : c.marks.entries.contains (c.len : ℤ) = false) :
    overflow c.len c.marks.entries = [] := by
  refine List.eq_nil_iff_forall_not_mem.mpr fun m hm => ?_
  rw [(mem_overflow_within hc hm).2] at h
  cases h

theorem dataCells_congr {bytes : List UInt8} {l l' : List ℤ}
    (h : ∀ p < bytes.length, l.contains (p : ℤ) = l'.contains (p : ℤ)) :
    dataCells (ω := ω) bytes l = dataCells bytes l' := by
  refine List.map_congr_left fun x hx => ?_
  have hlt := List.snd_lt_of_mem_zipIdx hx
  rw [h x.2 (by simpa using hlt)]

theorem contains_remaining {len p : ℕ} (hp : p < len) (l : List ℤ) :
    (remaining len l).contains (p : ℤ) = l.contains (p : ℤ) := by
  induction l with
  | nil => rfl
  | cons m l ih =>
    have hhead : ((p : ℤ) == if m ≥ (len : ℤ) then -2 else m) = ((p : ℤ) == m) := by
      rw [Bool.eq_iff_iff, beq_iff_eq, beq_iff_eq]
      split <;> omega
    have hcons : remaining len (m :: l) =
        (if m ≥ (len : ℤ) then -2 else m) :: remaining len l := rfl
    rw [hcons, List.contains_cons, List.contains_cons, ih, hhead]

theorem moved_cells (hc : c.Within) : c.moved.cells = c.cells := by
  obtain ⟨frozen, offset, body⟩ := c
  cases body with
  | object obj => rfl
  | data bytes marks toFree =>
    cases marks with
    | null => rfl
    | freed => exact absurd rfl hc.1
    | array l =>
      have hwithin : ∀ m ∈ entries l, 0 ≤ m ∧ m ≤ (bytes.length : ℤ) := hc.2
      have hentries : entries (remaining bytes.length (entries l)) =
          remaining bytes.length (entries l) := by
        refine List.takeWhile_eq_self_iff.mpr fun m hm => decide_eq_true ?_
        obtain ⟨n, hn, rfl⟩ := List.mem_map.mp hm
        have hnonneg := (hwithin n hn).1
        split <;> omega
      change dataCells bytes (entries (remaining bytes.length (entries l))) =
        dataCells bytes (entries l)
      rw [hentries]
      exact dataCells_congr fun p hp => contains_remaining hp _

/-! ## Sequences -/

theorem sequence_concat (D : Bytes ω) (d : Chunk ω) : sequence (D ++ [d]) =
    ⟨D.flatMap Chunk.cells ++ d.cells, d.marks.entries.contains (d.len : ℤ)⟩ := by
  rw [sequence, endMark_last rfl, List.flatMap_append, List.flatMap_singleton]

theorem Chunk.cells_data (hc : c.isObject = false) :
    c.cells = dataCells c.bytes c.marks.entries := by
  obtain ⟨frozen, offset, body⟩ := c
  cases body with
  | object obj => cases hc
  | data bytes marks toFree => rfl

theorem sequence_single (hc : c.isObject = false) : sequence [c] =
    ⟨dataCells c.bytes c.marks.entries, c.marks.entries.contains (c.len : ℤ)⟩ := by
  rw [← Chunk.cells_data hc]
  exact sequence_concat [] c

theorem append_nil (s : Sequence ω) : s.append ⟨[], false⟩ = s := by
  rw [Sequence.append, Bool.or_false]

theorem dataCells_cons (x : UInt8) (xs : List UInt8) (l : List ℤ) :
    dataCells (ω := ω) (x :: xs) l =
      (l.contains 0, .inl x) :: (xs.zipIdx 1).map fun y => (l.contains (y.2 : ℤ), .inl y.1) := by
  simp [dataCells, List.zipIdx_cons]

theorem append_data {s : Sequence ω} {bytes : List UInt8} {l l' : List ℤ} {mark : Bool}
    (hbytes : bytes ≠ []) (hzero : l'.contains 0 = (s.mark || l.contains 0))
    (hpos : ∀ p : ℕ, 0 < p → l'.contains (p : ℤ) = l.contains (p : ℤ)) :
    s.append ⟨dataCells bytes l, mark⟩ = ⟨s.cells ++ dataCells bytes l', mark⟩ := by
  obtain ⟨x, xs, rfl⟩ := List.exists_cons_of_ne_nil hbytes
  have htail : ((xs.zipIdx 1).map fun y => (l'.contains (y.2 : ℤ), Sum.inl y.1)) =
      ((xs.zipIdx 1).map fun y => (l.contains (y.2 : ℤ), (Sum.inl y.1 : UInt8 ⊕ ω))) := by
    refine List.map_congr_left fun y hy => ?_
    rw [hpos y.2 (List.le_snd_of_mem_zipIdx hy)]
  rw [dataCells_cons, dataCells_cons, htail, hzero]
  rfl

/-! ## `__add_chunk` once more -/

theorem tailWithin_concat (D : Bytes ω) : TailWithin (D ++ [c]) ↔ c.Within := by
  rw [TailWithin, List.getLast?_concat]
  simp

theorem addChunk_sequence (hd : d.frozen = false) (hdw : d.Within) (hc : c.isObject = false)
    (hbytes : c.bytes ≠ []) (hcw : c.Within) :
    ∃ b', addChunk (D ++ [d]) D.length c = some b' ∧ TailWithin b' ∧
      sequence b' = (sequence (D ++ [d])).append (sequence [c]) := by
  have hpos : 0 < c.len := List.length_pos_iff.mpr hbytes
  have hbehind : (d.behind c).isObject = false := hc
  have hnonneg : ∀ m ∈ overflow d.len d.marks.entries, 0 ≤ m := fun m hm =>
    (mem_overflow_within hdw hm).1.ge
  have hentries : ((d.behind c).receive (overflow d.len d.marks.entries)).marks.entries =
      c.marks.entries ++ overflow d.len d.marks.entries := by
    rw [Chunk.receive, Chunk.setMarks_marks _ _ hbehind]
    exact Marks.entries_receive (fun m hm => (hcw.2 m hm).1) hnonneg
  have halive : ((d.behind c).receive (overflow d.len d.marks.entries)).marks ≠ .freed := by
    rw [Chunk.receive, Chunk.setMarks_marks _ _ hbehind]
    exact Marks.receive_alive hcw.1 _
  have hlen : ((d.behind c).receive (overflow d.len d.marks.entries)).len = c.len :=
    Chunk.setMarks_len _ _
  refine ⟨_, addChunk_data hd hdw.1 hc hcw.1, ?_, ?_⟩
  · rw [show ∀ x y : Chunk ω, D ++ [x, y] = (D ++ [x]) ++ [y] by simp, tailWithin_concat]
    refine ⟨halive, fun m hm => ?_⟩
    rw [hlen]
    rw [hentries] at hm
    rcases List.mem_append.mp hm with hm | hm
    · exact hcw.2 m hm
    · rw [(mem_overflow_within hdw hm).1]
      omega
  · rw [show ∀ x y : Chunk ω, D ++ [x, y] = (D ++ [x]) ++ [y] by simp, sequence_concat,
      sequence_concat, hentries, hlen, List.flatMap_append, List.flatMap_singleton,
      moved_cells hdw, sequence_single hc, List.contains_append, overflow_contains_pos hdw hpos,
      Bool.or_false]
    have hobj : ((d.behind c).receive (overflow d.len d.marks.entries)).isObject = false :=
      (Chunk.setMarks_isObject _ _).trans hc
    have hsame : ((d.behind c).receive (overflow d.len d.marks.entries)).bytes = c.bytes :=
      Chunk.setMarks_bytes _ _
    rw [Chunk.cells_data hobj, hsame, hentries]
    refine (append_data (s := ⟨D.flatMap Chunk.cells ++ d.cells,
      d.marks.entries.contains (d.len : ℤ)⟩) hbytes ?_ fun p hp => ?_).symm
    · rw [List.contains_append, overflow_contains_zero hdw, Bool.or_comm]
    · rw [List.contains_append, overflow_contains_pos hdw hp, Bool.or_false]

theorem addChunk_object (hd : d.frozen = false) (hdw : d.Within)
    (hmark : d.marks.entries.contains (d.len : ℤ) = false) (obj : ω) :
    ∃ b', appendObject (D ++ [d]) (some obj) = some (b', none) ∧ TailWithin b' ∧
      sequence b' = (sequence (D ++ [d])).append ⟨[(false, .inr obj)], false⟩ := by
  have hlen : (D ++ [d]).length - 1 = D.length := by
    rw [List.length_append, List.length_singleton, Nat.add_sub_cancel]
  have hlength : (D ++ [d]).length = (D ++ [d.moved]).length := by
    rw [List.length_append, List.length_append, List.length_singleton, List.length_singleton]
  have hsplit : D ++ [d.moved, d.behind (bytesNewObject obj)] =
      (D ++ [d.moved]) ++ [d.behind (bytesNewObject obj)] := by
    rw [List.append_assoc]
    rfl
  have hobject := addChunk_inside hd hdw.1 (overflow_of_endMark hdw hmark) (bytesNewObject obj)
    (D := D)
  have hbehind : addChunk ((D ++ [d.moved]) ++ [d.behind (bytesNewObject obj)])
      (D ++ [d.moved]).length (bytesNew []) = some _ :=
    addChunk_inside (d := d.behind (bytesNewObject obj)) rfl (fun h => nomatch h) rfl _
  refine ⟨((D ++ [d.moved]) ++ [d.behind (bytesNewObject obj)]) ++
    [(d.behind (bytesNewObject obj)).behind (bytesNew [])], ?_, ?_, ?_⟩
  · rw [appendObject, hlen, hobject, Option.bind_eq_bind, Option.bind_some, hsplit, hlength, hbehind,
      Option.bind_some]
    exact congrArg (fun b => some (b, none)) (List.append_assoc _ [_] [_]).symm
  · rw [tailWithin_concat]
    exact ⟨(fun h => nomatch h), fun m hm => by cases hm⟩
  · rw [sequence_concat, sequence_concat, List.flatMap_append, List.flatMap_append,
      List.flatMap_singleton, List.flatMap_singleton, moved_cells hdw]
    rw [Sequence.append, hmark]
    exact congrArg₂ Sequence.mk (List.append_assoc _ _ _) rfl

theorem appendMarkAt_end (hd : d.isObject = false) (hdw : d.Within) :
    appendMarkAt (D ++ [d]) (-1) = some (D ++ [d.receive [(d.len : ℤ)]]) := by
  rw [appendMarkAt, List.getLast?_concat, Option.bind_eq_bind, Option.bind_some, hd]
  simp only [Bool.false_eq_true, if_false, List.getLast?_concat, Option.bind_eq_bind,
    Option.bind_some, if_neg (show ¬ (-1 : ℤ) ≥ 0 by decide),
    Marks.add_alive hdw.1 (List.cons_ne_nil _ []), List.dropLast_concat]
  rfl

theorem appendMark_sequence (hd : d.isObject = false) (hdw : d.Within) :
    ∃ b', appendMark (D ++ [d]) = some (b', none) ∧ TailWithin b' ∧
      sequence b' = (sequence (D ++ [d])).append ⟨[], true⟩ := by
  have hentries : (d.receive [(d.len : ℤ)]).marks.entries = d.marks.entries ++ [(d.len : ℤ)] := by
    rw [Chunk.receive, Chunk.setMarks_marks _ _ hd]
    refine Marks.entries_receive (fun m hm => (hdw.2 m hm).1) fun m hm => ?_
    rw [List.mem_singleton.mp hm]
    exact Int.natCast_nonneg _
  have hlen : (d.receive [(d.len : ℤ)]).len = d.len := Chunk.setMarks_len _ _
  refine ⟨D ++ [d.receive [(d.len : ℤ)]], ?_, ?_, ?_⟩
  · rw [appendMark, appendMarkAt_end hd hdw]
    rfl
  · rw [tailWithin_concat]
    refine ⟨?_, fun m hm => ?_⟩
    · rw [Chunk.receive, Chunk.setMarks_marks _ _ hd]
      exact Marks.receive_alive hdw.1 _
    · rw [hentries] at hm
      rw [hlen]
      rcases List.mem_append.mp hm with hm | hm
      · exact hdw.2 m hm
      · rw [List.mem_singleton.mp hm]
        exact ⟨Int.natCast_nonneg _, le_rfl⟩
  · have hobj : (d.receive [(d.len : ℤ)]).isObject = false :=
      (Chunk.setMarks_isObject _ _).trans hd
    have hcells : (d.receive [(d.len : ℤ)]).cells = d.cells := by
      rw [Chunk.cells_data hobj, Chunk.cells_data hd, hentries, Chunk.receive,
        Chunk.setMarks_bytes]
      refine dataCells_congr fun p hp => ?_
      have hne : (p : ℤ) ≠ d.len := by
        have hp : p < d.len := hp
        omega
      rw [List.contains_append, List.contains_cons, beq_false_of_ne hne]
      simp
    rw [sequence_concat, sequence_concat, hentries, hlen, hcells, List.contains_append]
    simp [Sequence.append]

end

/-! ## Copying another object -/

/-- The marks of an object, counted from offset `n` on. -/
def marksFrom : ℕ → Bytes ω → List ℤ
  | _, [] => []
  | n, c :: cs => c.marks.live.map (· + (n : ℤ)) ++ marksFrom (n + c.len) cs

section

variable {c : Chunk ω} {other : Bytes ω}

theorem Marks.live_nonneg {marks : Marks} {m : ℤ} (hm : m ∈ marks.live) : 0 ≤ m :=
  of_decide_eq_true (List.mem_filter.mp hm).2

theorem Marks.live_contains (marks : Marks) (p : ℕ) :
    marks.live.contains (p : ℤ) = marks.entries.contains (p : ℤ) := by
  rw [Bool.eq_iff_iff, List.contains_iff_mem, List.contains_iff_mem, Marks.live, List.mem_filter]
  simp

theorem Marks.add_entries {marks : Marks} {l : List ℤ} (halive : marks ≠ .freed)
    (hmarks : ∀ m ∈ marks.entries, 0 ≤ m) (hl : ∀ m ∈ l, 0 ≤ m) :
    ∃ marks', marks.add l = some marks' ∧ marks' ≠ .freed ∧
      marks'.entries = marks.entries ++ l := by
  cases marks with
  | freed => exact absurd rfl halive
  | null => exact ⟨.array l, rfl, (fun h => nomatch h), entries_of_nonneg hl⟩
  | array k =>
    have hkept : Embedded.kept k = Embedded.entries k := Marks.kept_eq_entries hmarks
    refine ⟨.array (Embedded.kept k ++ l), rfl, (fun h => nomatch h), ?_⟩
    rw [hkept]
    exact entries_of_nonneg fun m hm => (List.mem_append.mp hm).elim (hmarks m) (hl m)

theorem toInt8_small {n : ℕ} (h : n < 128) : toInt8 n = n := by
  refine Int.bmod_eq_of_le ?_ ?_ <;> omega

theorem copyMarks_entries {dst src : Marks} {adj : ℤ} (hdst : dst ≠ .freed)
    (hnonneg : ∀ m ∈ dst.entries, 0 ≤ m) (hsrc : src ≠ .freed)
    (hadj : ∀ m ∈ src.live.map (· + adj), 0 ≤ m) :
    ∃ marks, copyMarks dst src adj = some marks ∧ marks ≠ .freed ∧
      marks.entries = dst.entries ++ src.live.map (· + adj) := by
  cases src with
  | freed => exact absurd rfl hsrc
  | null => exact ⟨dst, rfl, hdst, (List.append_nil _).symm⟩
  | array l => exact Marks.add_entries hdst hnonneg hadj

theorem live_distance {marks : Marks} {n : ℕ} (h : marks.live ≠ [] → n < 128) :
    marks.live.map (· + toInt8 n) = marks.live.map (· + (n : ℤ)) := by
  by_cases hnil : marks.live = []
  · rw [hnil, List.map_nil, List.map_nil]
  · rw [toInt8_small (h hnil)]

theorem live_add_nonneg {marks : Marks} {n : ℕ} {m : ℤ}
    (hm : m ∈ marks.live.map (· + (n : ℤ))) : (n : ℤ) ≤ m := by
  obtain ⟨k, hk, rfl⟩ := List.mem_map.mp hm
  have hk := Marks.live_nonneg hk
  omega

theorem marksFrom_nonneg (n : ℕ) {m : ℤ} (hm : m ∈ marksFrom n other) : (n : ℤ) ≤ m := by
  induction other generalizing n with
  | nil => cases hm
  | cons c cs ih =>
    rcases List.mem_append.mp hm with hm | hm
    · exact live_add_nonneg hm
    · have hle := ih (n + c.len) hm
      omega

theorem appendLoop_spec (data : List UInt8) {marks : Marks} (hdata : ∀ c ∈ other, c.isObject = false)
    (hother : Copied data.length other) (hmarks : marks ≠ .freed)
    (hnonneg : ∀ m ∈ marks.entries, 0 ≤ m) :
    ∃ marks', appendLoop other data marks = some (data ++ other.flatMap Chunk.bytes, marks') ∧
      marks' ≠ .freed ∧ marks'.entries = marks.entries ++ marksFrom data.length other := by
  induction other generalizing data marks with
  | nil =>
    refine ⟨marks, ?_, hmarks, (List.append_nil _).symm⟩
    rw [List.flatMap_nil, List.append_nil]
    rfl
  | cons c cs ih =>
    obtain ⟨halive, hsmall, -, hrest⟩ := hother
    obtain ⟨hc, hcs⟩ := List.forall_mem_cons.mp hdata
    have hdistance := live_distance hsmall
    have hadded : ∀ m ∈ c.marks.live.map (· + (data.length : ℤ)), 0 ≤ m := fun m hm =>
      (Int.natCast_nonneg _).trans (live_add_nonneg hm)
    obtain ⟨marks₁, hcopy, hmarks₁, hentries₁⟩ :=
      copyMarks_entries hmarks hnonneg halive (by rwa [hdistance])
    rw [hdistance] at hentries₁
    have hnonneg₁ : ∀ m ∈ marks₁.entries, 0 ≤ m := by
      intro m hm
      rw [hentries₁] at hm
      exact (List.mem_append.mp hm).elim (hnonneg m) (hadded m)
    have hlength : (data ++ c.bytes).length = data.length + c.len := List.length_append
    rw [← hlength] at hrest
    obtain ⟨marks₂, hloop, hmarks₂, hentries₂⟩ := ih _ hcs hrest hmarks₁ hnonneg₁
    refine ⟨marks₂, ?_, hmarks₂, ?_⟩
    · rw [appendLoop, hc, if_neg Bool.false_ne_true, hcopy, Option.bind_eq_bind, Option.bind_some,
        hloop, List.flatMap_cons, List.append_assoc]
    · rw [hentries₂, hentries₁, List.append_assoc, hlength]
      rfl

theorem contains_shift (l : List ℤ) (n j : ℕ) :
    (l.map (· + (n : ℤ))).contains ((n + j : ℕ) : ℤ) = l.contains (j : ℤ) := by
  rw [Bool.eq_iff_iff, List.contains_iff_mem, List.contains_iff_mem, List.mem_map]
  constructor
  · rintro ⟨m, hm, heq⟩
    rwa [show (j : ℤ) = m by omega]
  · exact fun h => ⟨j, h, by omega⟩

theorem marksFrom_below {n p : ℕ} (hp : p < n) :
    (marksFrom n other).contains (p : ℤ) = false := by
  rw [Bool.eq_false_iff]
  intro h
  have hle := marksFrom_nonneg n (List.contains_iff_mem.mp h)
  omega

theorem live_beyond {cs : Bytes ω} {n p : ℕ}
    (hplace : ∀ m ∈ c.marks.live, m < c.len ∨ cs = [] ∧ m = c.len) (hcs : cs ≠ [])
    (hp : n + c.len ≤ p) : (c.marks.live.map (· + (n : ℤ))).contains (p : ℤ) = false := by
  rw [Bool.eq_false_iff]
  intro h
  obtain ⟨m, hm, heq⟩ := List.mem_map.mp (List.contains_iff_mem.mp h)
  rcases hplace m hm with hlt | ⟨hnil, -⟩
  · omega
  · exact hcs hnil

theorem marksFrom_cells {n : ℕ} {l : List ℤ} (hdata : ∀ c ∈ other, c.isObject = false)
    (hother : Copied n other)
    (hl : ∀ p, n ≤ p → p < n + (other.flatMap Chunk.bytes).length →
      l.contains (p : ℤ) = (marksFrom n other).contains (p : ℤ)) :
    ((other.flatMap Chunk.bytes).zipIdx n).map (fun x => (l.contains (x.2 : ℤ), Sum.inl x.1)) =
      other.flatMap Chunk.cells := by
  induction other generalizing n with
  | nil => rfl
  | cons c cs ih =>
    obtain ⟨-, -, hplace, hrest⟩ := hother
    obtain ⟨hc, hcs⟩ := List.forall_mem_cons.mp hdata
    rw [List.flatMap_cons, List.length_append] at hl
    rw [List.flatMap_cons, List.flatMap_cons, List.zipIdx_append, List.map_append,
      Chunk.cells_data hc]
    have hlen : c.len = c.bytes.length := rfl
    refine congrArg₂ (· ++ ·) ?_ ?_
    · refine List.ext_getElem (by simp [dataCells]) fun j hj _ => ?_
      have hj : j < c.bytes.length := by simpa using hj
      have hflag : l.contains ((n + j : ℕ) : ℤ) = c.marks.entries.contains (j : ℤ) := by
        rw [hl (n + j) (by omega) (by omega), marksFrom, List.contains_append, contains_shift,
          marksFrom_below (by omega), Bool.or_false, Marks.live_contains]
      simp only [dataCells, List.getElem_map, List.getElem_zipIdx, Nat.zero_add, hflag]
    · refine ih hcs hrest fun p hle hlt => ?_
      have hne : cs ≠ [] := by
        rintro rfl
        rw [List.flatMap_nil, List.length_nil] at hlt
        omega
      rw [hl p (by omega) (by omega), marksFrom, List.contains_append,
        live_beyond hplace hne hle, Bool.false_or]
      rfl

theorem marksFrom_endMark {n : ℕ} (hdata : ∀ c ∈ other, c.isObject = false)
    (hother : Copied n other) (hne : other ≠ []) :
    (marksFrom n other).contains ((n + (other.flatMap Chunk.bytes).length : ℕ) : ℤ) =
      endMark other := by
  induction other generalizing n with
  | nil => exact absurd rfl hne
  | cons c cs ih =>
    obtain ⟨-, -, hplace, hrest⟩ := hother
    rw [marksFrom, List.contains_append, List.flatMap_cons, List.length_append]
    by_cases hcs : cs = []
    · subst hcs
      rw [List.flatMap_nil, List.length_nil, Nat.add_zero, contains_shift, Marks.live_contains,
        marksFrom, List.contains_nil, Bool.or_false]
      rfl
    · have hlast : endMark (c :: cs) = endMark cs := by
        rw [endMark, endMark, List.getLast?_cons_of_ne_nil hcs]
      have hle : n + c.len ≤ n + (c.bytes.length + (cs.flatMap Chunk.bytes).length) :=
        Nat.add_le_add_left (Nat.le_add_right _ _) n
      rw [hlast, live_beyond hplace hcs hle, Bool.false_or, ← Nat.add_assoc]
      exact ih (List.forall_mem_cons.mp hdata).2 hrest hcs

theorem marksFrom_le {n : ℕ} (hother : Copied n other) {m : ℤ} (hm : m ∈ marksFrom n other) :
    m ≤ n + (other.flatMap Chunk.bytes).length := by
  induction other generalizing n with
  | nil => cases hm
  | cons c cs ih =>
    obtain ⟨-, -, hplace, hrest⟩ := hother
    have hlen : c.len = c.bytes.length := rfl
    rw [List.flatMap_cons, List.length_append]
    rcases List.mem_append.mp hm with hm | hm
    · obtain ⟨k, hk, rfl⟩ := List.mem_map.mp hm
      rcases hplace k hk with hlt | ⟨-, heq⟩ <;> omega
    · have hle := ih hrest hm
      omega

theorem bytesLen_data (hdata : ∀ c ∈ other, c.isObject = false) :
    bytesLen other = (other.flatMap Chunk.bytes).length := by
  induction other with
  | nil => rfl
  | cons c cs ih =>
    obtain ⟨hc, hcs⟩ := List.forall_mem_cons.mp hdata
    rw [bytesLen, hc, if_neg Bool.false_ne_true, ih hcs, List.flatMap_cons, List.length_append]
    rfl

theorem copied_chunk (hdata : ∀ c ∈ other, c.isObject = false) (hlen : bytesLen other ≠ 0)
    (hother : Copied 0 other) :
    ∃ c : Chunk ω, appendLoop other [] .null = some (c.bytes, c.marks) ∧
      c = ⟨false, 0, .data c.bytes c.marks false⟩ ∧ c.bytes ≠ [] ∧ c.Within ∧
      sequence [c] = sequence other := by
  have hne : other ≠ [] := by
    rintro rfl
    exact hlen rfl
  rw [bytesLen_data hdata] at hlen
  obtain ⟨marks, hloop, halive, hentries⟩ :=
    appendLoop_spec [] hdata hother (fun h : Marks.null = .freed => nomatch h)
      (fun m hm => by cases hm)
  have hentries : marks.entries = marksFrom 0 other := hentries
  refine ⟨⟨false, 0, .data (other.flatMap Chunk.bytes) marks false⟩, hloop, rfl, ?_, ⟨halive, ?_⟩,
    ?_⟩
  · exact fun hnil => hlen (by rw [show other.flatMap Chunk.bytes = [] from hnil]; rfl)
  · intro m hm
    have hm : m ∈ marksFrom 0 other := hentries ▸ hm
    have hle := marksFrom_le hother hm
    exact ⟨marksFrom_nonneg 0 hm, hle.trans_eq (Int.zero_add _)⟩
  · have hcells := marksFrom_cells (l := marksFrom 0 other) hdata hother fun p _ _ => rfl
    have hmark := marksFrom_endMark hdata hother hne
    rw [Nat.zero_add] at hmark
    refine (sequence_single rfl).trans ?_
    change (⟨dataCells (other.flatMap Chunk.bytes) marks.entries,
      marks.entries.contains ((other.flatMap Chunk.bytes).length : ℤ)⟩ : Sequence ω) = _
    rw [hentries, hmark, sequence, ← hcells]
    rfl

end

end Hilti.Embedded
