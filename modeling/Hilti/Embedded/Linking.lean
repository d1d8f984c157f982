import Hilti.Embedded.Model

/-!
# Linking chunks

`__add_chunk` goes through behind the last chunk of an object that is not frozen.  Marks at or
beyond the end of that chunk move to the new one, or, where the new one is an object, to yet
another one behind it.
-/

namespace Hilti.Embedded

set_option autoImplicit false

variable {ω : Type}

/-! ## Marks -/

def Marks.kept : Marks → List ℤ
  | .array l => Embedded.kept l
  | _ => []

/-- The marks that a loop over an array comes across. -/
def Marks.entries : Marks → List ℤ
  | .array l => Embedded.entries l
  | _ => []

def Marks.receive (marks : Marks) (l : List ℤ) : Marks :=
  if l = [] then marks else .array (marks.kept ++ l)

/-- The marks of a chunk of length `len` that move to the next one. -/
def overflow (len : ℕ) (l : List ℤ) : List ℤ :=
  (l.filter fun m => (len : ℤ) ≤ m).map fun m => m - len

/-- The marks of a chunk of length `len` when some have moved. -/
def remaining (len : ℕ) (l : List ℤ) : List ℤ :=
  l.map fun m => if m ≥ (len : ℤ) then -2 else m

theorem overflow_cons_pos {len : ℕ} {m : ℤ} (hm : m ≥ len) (l : List ℤ) :
    overflow len (m :: l) = (m - len) :: overflow len l := by
  simp [overflow, hm]

theorem overflow_cons_neg {len : ℕ} {m : ℤ} (hm : ¬ m ≥ len) (l : List ℤ) :
    overflow len (m :: l) = overflow len l := by
  simp [overflow, hm]

theorem overflow_nonneg {len : ℕ} {l : List ℤ} {m : ℤ} (h : m ∈ overflow len l) : 0 ≤ m := by
  obtain ⟨n, hn, rfl⟩ := List.mem_map.mp h
  have hle := of_decide_eq_true (List.mem_filter.mp hn).2
  omega

theorem kept_of_nonneg {l : List ℤ} (h : ∀ m ∈ l, 0 ≤ m) : kept l = l :=
  List.takeWhile_eq_self_iff.mpr fun m hm => decide_eq_true (h m hm)

theorem kept_nonneg {l : List ℤ} {m : ℤ} (h : m ∈ kept l) : 0 ≤ m :=
  of_decide_eq_true (List.mem_takeWhile_imp (p := fun n : ℤ => decide (0 ≤ n)) h)

theorem entries_of_nonneg {l : List ℤ} (h : ∀ m ∈ l, 0 ≤ m) : entries l = l :=
  List.takeWhile_eq_self_iff.mpr fun m hm => decide_eq_true (by have := h m hm; omega)

theorem Marks.kept_receive (marks : Marks) {l : List ℤ} (h : ∀ m ∈ l, 0 ≤ m) :
    (marks.receive l).kept = marks.kept ++ l := by
  rw [Marks.receive]
  split
  · rename_i hl
    rw [hl, List.append_nil]
  · refine kept_of_nonneg fun m hm => ?_
    rcases List.mem_append.mp hm with hm | hm
    · cases marks with
      | array l => exact kept_nonneg hm
      | null => cases hm
      | freed => cases hm
    · exact h m hm

theorem Marks.receive_cons (marks : Marks) {m : ℤ} (hm : 0 ≤ m) (l : List ℤ) :
    (marks.receive [m]).receive l = marks.receive (m :: l) := by
  have hkept : (marks.receive [m]).kept = marks.kept ++ [m] :=
    marks.kept_receive fun n hn => by rwa [List.mem_singleton.mp hn]
  by_cases hl : l = []
  · rw [hl]
    rfl
  · rw [Marks.receive, if_neg hl, hkept, List.append_assoc]
    rfl

theorem Marks.receive_alive {marks : Marks} (h : marks ≠ .freed) (l : List ℤ) :
    marks.receive l ≠ .freed := by
  rw [Marks.receive]
  split
  · exact h
  · exact fun h => nomatch h

theorem Marks.add_alive {marks : Marks} (h : marks ≠ .freed) {l : List ℤ} (hl : l ≠ []) :
    marks.add l = some (marks.receive l) := by
  rw [Marks.receive, if_neg hl]
  cases marks with
  | null => rfl
  | array m => rfl
  | freed => exact absurd rfl h

/-! ## Chunks -/

section

variable (c : Chunk ω) (marks : Marks)

@[simp] theorem Chunk.setMarks_frozen : (c.setMarks marks).frozen = c.frozen := by
  rw [Chunk.setMarks]
  split <;> rfl

@[simp] theorem Chunk.setMarks_offset : (c.setMarks marks).offset = c.offset := by
  rw [Chunk.setMarks]
  split <;> rfl

@[simp] theorem Chunk.setMarks_isObject : (c.setMarks marks).isObject = c.isObject := by
  obtain ⟨frozen, offset, body⟩ := c
  cases body <;> rfl

@[simp] theorem Chunk.setMarks_bytes : (c.setMarks marks).bytes = c.bytes := by
  obtain ⟨frozen, offset, body⟩ := c
  cases body <;> rfl

@[simp] theorem Chunk.setMarks_len : (c.setMarks marks).len = c.len := by
  rw [Chunk.len, Chunk.len, Chunk.setMarks_bytes]

theorem Chunk.setMarks_marks (h : c.isObject = false) : (c.setMarks marks).marks = marks := by
  obtain ⟨frozen, offset, body⟩ := c
  cases body with
  | data bytes marks' toFree => rfl
  | object obj => cases h

theorem Chunk.setMarks_setMarks (marks' : Marks) :
    (c.setMarks marks).setMarks marks' = c.setMarks marks' := by
  obtain ⟨frozen, offset, body⟩ := c
  cases body <;> rfl

theorem Chunk.setMarks_self : c.setMarks c.marks = c := by
  obtain ⟨frozen, offset, body⟩ := c
  cases body <;> rfl

end

def Chunk.receive (c : Chunk ω) (l : List ℤ) : Chunk ω :=
  c.setMarks (c.marks.receive l)

def Chunk.moved (c : Chunk ω) : Chunk ω :=
  match c.marks with
  | .array l => c.setMarks (.array (remaining c.len (entries l)))
  | _ => c

def Chunk.behind (t c : Chunk ω) : Chunk ω :=
  { c with offset := t.offset + t.len }

/-! ## `__add_chunk` -/

section

variable {b D : Bytes ω} {d c e : Chunk ω}

theorem getElem?_last (D : Bytes ω) (d : Chunk ω) : (D ++ [d])[D.length]? = some d :=
  List.getElem?_concat_length

theorem link_last (hd : d.frozen = false) (c : Chunk ω) :
    link (D ++ [d]) D.length c = some (D ++ [d, d.behind c]) := by
  rw [link, getElem?_last, Option.bind_eq_bind, Option.bind_some,
    if_pos ⟨by rw [List.length_append]; rfl, hd⟩, List.append_assoc]
  rfl

theorem link_frozen (hd : d.frozen = true) (c : Chunk ω) :
    link (D ++ [d]) D.length c = none := by
  rw [link, getElem?_last, Option.bind_eq_bind, Option.bind_some,
    if_neg fun h => by rw [hd] at h; cases h.2]

theorem link_eq_some {tail : ℕ} {b' : Bytes ω} (h : link b tail c = some b') :
    ∃ t, b[tail]? = some t ∧ tail + 1 = b.length ∧ t.frozen = false ∧ b' = b ++ [t.behind c] := by
  obtain ⟨t, ht, h⟩ := Option.bind_eq_some_iff.mp h
  split at h
  · rename_i hlast
    cases h
    exact ⟨t, ht, hlast.1, hlast.2, rfl⟩
  · cases h

theorem appendMarkAt_eq (b : Bytes ω) (m : ℤ) : appendMarkAt b m =
    (b.getLast?).bind fun t =>
      (if t.isObject then link b (b.length - 1) (bytesNew []) else some b).bind fun b =>
        (b.getLast?).bind fun t =>
          (t.marks.add [if m ≥ 0 then m else t.len]).bind fun marks =>
            some (b.dropLast ++ [t.setMarks marks]) := by
  rw [appendMarkAt, Option.bind_eq_bind]
  congr 1
  funext t
  dsimp only
  split <;> rfl

theorem appendMarkAt_data (he : e.isObject = false) (hmarks : e.marks ≠ .freed) {m : ℤ}
    (hm : 0 ≤ m) : appendMarkAt (D ++ [e]) m = some (D ++ [e.receive [m]]) := by
  rw [appendMarkAt, List.getLast?_concat, Option.bind_eq_bind, Option.bind_some, he]
  simp only [Bool.false_eq_true, if_false, List.getLast?_concat, Option.bind_eq_bind,
    Option.bind_some, if_pos (show m ≥ 0 from hm), Marks.add_alive hmarks (List.cons_ne_nil m []),
    List.dropLast_concat]
  rfl

theorem moveMarks_data (len : ℕ) (ms : List ℤ) (he : e.isObject = false)
    (hmarks : e.marks ≠ .freed) :
    moveMarks len ms (D ++ [e]) =
      some (D ++ [e.receive (overflow len ms)], remaining len ms) := by
  induction ms generalizing e with
  | nil =>
    rw [moveMarks, Chunk.receive, show overflow len [] = [] from rfl,
      show e.marks.receive [] = e.marks from if_pos rfl, Chunk.setMarks_self]
    rfl
  | cons m ms ih =>
    rw [moveMarks]
    by_cases hm : m ≥ len
    · have hnonneg : 0 ≤ m - len := by omega
      have hobj : (e.receive [m - len]).isObject = false := by
        rw [Chunk.receive, Chunk.setMarks_isObject, he]
      have halive : (e.receive [m - len]).marks ≠ .freed := by
        rw [Chunk.receive, Chunk.setMarks_marks _ _ he]
        exact Marks.receive_alive hmarks _
      have hreceive : (e.receive [m - len]).receive (overflow len ms) =
          e.receive (overflow len (m :: ms)) := by
        rw [Chunk.receive, Chunk.receive, Chunk.receive, Chunk.setMarks_marks _ _ he,
          Chunk.setMarks_setMarks, Marks.receive_cons _ hnonneg]
        rw [overflow_cons_pos hm]
      rw [if_pos hm, appendMarkAt_data he hmarks hnonneg, Option.bind_eq_bind, Option.bind_some,
        ih hobj halive, Option.bind_eq_bind, Option.bind_some, hreceive]
      simp only [remaining, List.map_cons, if_pos hm]
    · rw [if_neg hm, ih he hmarks, Option.bind_eq_bind, Option.bind_some, overflow_cons_neg hm]
      simp only [remaining, List.map_cons, if_neg hm]

theorem set_before_last (D : Bytes ω) (d d' e : Chunk ω) :
    (D ++ [d, e]).set D.length d' = D ++ [d', e] := by
  rw [List.set_append_right _ _ le_rfl, Nat.sub_self]
  rfl

theorem addChunk_data (hd : d.frozen = false) (hmarks : d.marks ≠ .freed)
    (hc : c.isObject = false) (hcmarks : c.marks ≠ .freed) :
    addChunk (D ++ [d]) D.length c =
      some (D ++ [d.moved, (d.behind c).receive (overflow d.len d.marks.entries)]) := by
  rw [addChunk, getElem?_last, Option.bind_eq_bind, Option.bind_some, link_last hd,
    Option.bind_eq_bind, Option.bind_some, Chunk.moved]
  cases hl : d.marks with
  | freed => exact absurd hl hmarks
  | null =>
    dsimp only
    rw [show Marks.null.entries = [] from rfl, show overflow d.len [] = [] from rfl,
      Chunk.receive, show (d.behind c).marks.receive [] = (d.behind c).marks from if_pos rfl,
      Chunk.setMarks_self]
  | array l =>
    dsimp only
    rw [show D ++ [d, d.behind c] = (D ++ [d]) ++ [d.behind c] by rw [List.append_assoc]; rfl,
      moveMarks_data (e := d.behind c) d.len (entries l) hc hcmarks, Option.bind_eq_bind, Option.bind_some,
      List.append_assoc]
    exact congrArg some (set_before_last D d _ _)

theorem moveMarks_inside {len : ℕ} {ms : List ℤ} (h : overflow len ms = []) (b : Bytes ω) :
    moveMarks len ms b = some (b, remaining len ms) := by
  induction ms with
  | nil => rfl
  | cons m ms ih =>
    by_cases hm : m ≥ len
    · rw [overflow_cons_pos hm] at h
      cases h
    · rw [overflow_cons_neg hm] at h
      rw [moveMarks, if_neg hm, ih h, Option.bind_eq_bind, Option.bind_some]
      simp only [remaining, List.map_cons, if_neg hm]

theorem moveMarks_object {len : ℕ} {ms : List ℤ} (h : overflow len ms ≠ []) (he : e.isObject)
    (hfrozen : e.frozen = false) :
    moveMarks len ms (D ++ [e]) =
      some (D ++ [e, (e.behind (bytesNew [])).receive (overflow len ms)], remaining len ms) := by
  induction ms with
  | nil => exact absurd rfl h
  | cons m ms ih =>
    by_cases hm : m ≥ len
    · have hnonneg : 0 ≤ m - len := by omega
      have hmark : appendMarkAt (D ++ [e]) (m - len) =
          some ((D ++ [e]) ++ [(e.behind (bytesNew [])).receive [m - len]]) := by
        have hlen : (D ++ [e]).length - 1 = D.length := by
          rw [List.length_append, List.length_singleton, Nat.add_sub_cancel]
        rw [appendMarkAt, List.getLast?_concat, Option.bind_eq_bind, Option.bind_some, he]
        simp only [if_true, hlen, link_last hfrozen, Option.bind_eq_bind, Option.bind_some]
        rw [show D ++ [e, e.behind (bytesNew [])] = (D ++ [e]) ++ [e.behind (bytesNew [])] by
          rw [List.append_assoc]; rfl]
        simp only [List.getLast?_concat, Option.bind_some, if_pos (show m - (len : ℤ) ≥ 0 from hnonneg),
          List.dropLast_concat]
        rfl
      have hreceive : ((e.behind (bytesNew [])).receive [m - len]).receive (overflow len ms) =
          (e.behind (bytesNew [])).receive (overflow len (m :: ms)) := by
        rw [overflow_cons_pos hm]
        exact congrArg (e.behind (bytesNew [])).setMarks (Marks.receive_cons .null hnonneg _)
      rw [moveMarks, if_pos hm, hmark, Option.bind_eq_bind, Option.bind_some,
        moveMarks_data (e := (e.behind (bytesNew [])).receive [m - len]) len ms rfl
          (fun h => nomatch h), Option.bind_eq_bind, Option.bind_some, hreceive, List.append_assoc]
      simp only [remaining, List.map_cons, if_pos hm]
      rfl
    · rw [overflow_cons_neg hm] at h
      rw [moveMarks, if_neg hm, ih h, Option.bind_eq_bind, Option.bind_some, overflow_cons_neg hm]
      simp only [remaining, List.map_cons, if_neg hm]

theorem addChunk_inside (hd : d.frozen = false) (hmarks : d.marks ≠ .freed)
    (h : overflow d.len d.marks.entries = []) (c : Chunk ω) :
    addChunk (D ++ [d]) D.length c = some (D ++ [d.moved, d.behind c]) := by
  rw [addChunk, getElem?_last, Option.bind_eq_bind, Option.bind_some, link_last hd,
    Option.bind_eq_bind, Option.bind_some, Chunk.moved]
  cases hl : d.marks with
  | freed => exact absurd hl hmarks
  | null => rfl
  | array l =>
    have h : overflow d.len (entries l) = [] := by rwa [hl] at h
    dsimp only
    rw [moveMarks_inside h, Option.bind_eq_bind, Option.bind_some]
    exact congrArg some (set_before_last D d _ _)

theorem addChunk_overflow (hd : d.frozen = false) (hmarks : d.marks ≠ .freed)
    (h : overflow d.len d.marks.entries ≠ []) (hc : c.isObject) (hcfrozen : c.frozen = false) :
    addChunk (D ++ [d]) D.length c =
      some (D ++ [d.moved, d.behind c,
        ((d.behind c).behind (bytesNew [])).receive (overflow d.len d.marks.entries)]) := by
  rw [addChunk, getElem?_last, Option.bind_eq_bind, Option.bind_some, link_last hd,
    Option.bind_eq_bind, Option.bind_some, Chunk.moved]
  cases hl : d.marks with
  | freed => exact absurd hl hmarks
  | null =>
    rw [hl] at h
    exact absurd rfl h
  | array l =>
    have h : overflow d.len (entries l) ≠ [] := by rwa [hl] at h
    dsimp only
    rw [show D ++ [d, d.behind c] = (D ++ [d]) ++ [d.behind c] by rw [List.append_assoc]; rfl,
      moveMarks_object (e := d.behind c) h hc hcfrozen, Option.bind_eq_bind, Option.bind_some,
      List.append_assoc]
    rw [show ∀ x : Chunk ω, D ++ ([d] ++ [d.behind c, x]) = (D ++ [d, d.behind c]) ++ [x] from
      fun x => by simp, List.set_append_left _ _ (by simp), set_before_last, List.append_assoc]
    rfl

theorem addChunk_frozen (hd : d.frozen = true) (c : Chunk ω) :
    addChunk (D ++ [d]) D.length c = none := by
  rw [addChunk, getElem?_last, Option.bind_eq_bind, Option.bind_some, link_frozen hd]
  rfl

theorem addChunk_not_last {tail : ℕ} (h : tail + 1 ≠ b.length) (c : Chunk ω) :
    addChunk b tail c = none := by
  have hlink : link b tail c = none := by
    rw [link, Option.bind_eq_bind, Option.bind_eq_none_iff]
    intro t _
    exact if_neg fun hlast => h hlast.1
  rw [addChunk, hlink, Option.bind_eq_bind, Option.bind_eq_none_iff]
  intro t _
  rfl

end

end Hilti.Embedded
