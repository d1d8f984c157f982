import Hilti.Embedded.Copies

/-!
# Walking over bytes, objects and marks

A program that goes from the beginning to the end, and asks at each position for a mark, an
object or a byte, comes across everything that is in the chunks, in order.
-/

namespace Hilti.Embedded

set_option autoImplicit false

variable {ω : Type}

/-! ## What there is in the chunks -/

/-- A byte or an object, with whether there is a mark in front of it. -/
abbrev Cell (ω : Type) := Bool × (UInt8 ⊕ ω)

def dataCells (bytes : List UInt8) (marks : List ℤ) : List (Cell ω) :=
  bytes.zipIdx.map fun x => (marks.contains (x.2 : ℤ), .inl x.1)

def Chunk.cells (c : Chunk ω) : List (Cell ω) :=
  match c.body with
  | .data bytes marks _ => dataCells bytes marks.entries
  | .object obj => [(false, .inr obj)]

/-- Cells, with whether there is a mark behind the last one. -/
structure Sequence (ω : Type) where
  cells : List (Cell ω)
  mark : Bool

/-- There is a mark at the end of the last chunk. -/
def endMark (b : Bytes ω) : Bool :=
  b.getLast?.any fun c => c.marks.entries.contains (c.len : ℤ)

def sequence (b : Bytes ω) : Sequence ω :=
  ⟨b.flatMap Chunk.cells, endMark b⟩

/-! ## Walking -/

inductive Item (ω : Type) where
  | byte (x : UInt8)
  | object (obj : ω)
  | mark
  deriving DecidableEq

/-- A program that collects what it finds from a position on. -/
def walkLoop (b : Bytes ω) : ℕ → Iter → Option (List (Item ω))
  | 0, _ => none
  | fuel + 1, i =>
    let here := if bytesAtMark b i then [.mark] else []
    if bytesAtObject b i then
      match bytesRetrieveObject b i, bytesSkipObject b i with
      | .ok obj, some (.ok i) => (walkLoop b fuel i).map fun items => here ++ .object obj :: items
      | _, _ => none
    else if iteratorBytesEq b i (bytesEnd b) then some here
    else
      match iteratorBytesDeref b i with
      | .ok x => (walkLoop b fuel (iteratorBytesIncr b i)).map fun items => here ++ .byte x :: items
      | .error _ => none

def walk (b : Bytes ω) : Option (List (Item ω)) :=
  walkLoop b ((b.flatMap Chunk.cells).length + 1) (bytesBegin b)

def markItems (m : Bool) : List (Item ω) :=
  if m then [.mark] else []

def Cell.items (x : Cell ω) : List (Item ω) :=
  markItems x.1 ++ [x.2.elim .byte .object]

/-- What is to be found. -/
def Sequence.items (s : Sequence ω) : List (Item ω) :=
  s.cells.flatMap Cell.items ++ markItems s.mark

/-! ## Positions -/

section

variable {b pre post : Bytes ω} {c : Chunk ω} {p : ℕ}

theorem getElem?_middle (pre post : Bytes ω) (c : Chunk ω) :
    (pre ++ c :: post)[pre.length]? = some c := by
  rw [List.getElem?_append_right le_rfl, Nat.sub_self]
  rfl

theorem lenAt_middle (hb : b = pre ++ c :: post) : lenAt b pre.length = c.len := by
  rw [lenAt, hb, getElem?_middle]
  rfl

theorem objectAt_middle (hb : b = pre ++ c :: post) : objectAt b pre.length = c.isObject := by
  rw [objectAt, hb, getElem?_middle]
  rfl

theorem length_middle (hb : b = pre ++ c :: post) :
    b.length = pre.length + 1 + post.length := by
  rw [hb, List.length_append, List.length_cons]
  omega

theorem split_next {d : Chunk ω} (hb : b = pre ++ c :: d :: post) :
    b = (pre ++ [c]) ++ d :: post := by
  rw [hb, List.append_assoc]
  rfl

theorem Chunk.cells_length_data (hc : c.isObject = false) : c.cells.length = c.len := by
  obtain ⟨frozen, offset, body⟩ := c
  cases body with
  | object obj => cases hc
  | data bytes marks toFree =>
    change (dataCells bytes marks.entries).length = bytes.length
    rw [dataCells, List.length_map, List.length_zipIdx]

theorem Chunk.cells_drop_len (hc : c.isObject = false) : c.cells.drop c.len = [] := by
  rw [← Chunk.cells_length_data hc]
  exact List.drop_length

def restOf (c : Chunk ω) (post : Bytes ω) (p : ℕ) : List (Cell ω) :=
  c.cells.drop p ++ post.flatMap Chunk.cells

def Settled (c : Chunk ω) (post : Bytes ω) (p : ℕ) : Prop :=
  c.isObject ∨ p < c.len ∨ post = []

theorem normalizeLoop_run (fuel : ℕ) (hb : b = pre ++ c :: post) (hp : p ≤ c.len)
    (hfuel : post.length ≤ fuel) :
    ∃ pre' c' post' p', b = pre' ++ c' :: post' ∧ p' ≤ c'.len ∧ Settled c' post' p' ∧
      normalizeLoop b fuel ⟨pre.length, p⟩ 0 = (⟨pre'.length, p'⟩, 0) ∧
      restOf c' post' p' = restOf c post p := by
  induction fuel generalizing pre c post p with
  | zero =>
    have hpost : post = [] := List.eq_nil_of_length_eq_zero (by omega)
    exact ⟨pre, c, post, p, hb, hp, .inr (.inr hpost), rfl, rfl⟩
  | succ fuel ih =>
    have hlen := length_middle hb
    have hstop : Settled c post p → ∃ pre' c' post' p', b = pre' ++ c' :: post' ∧ p' ≤ c'.len ∧
        Settled c' post' p' ∧
        normalizeLoop b (fuel + 1) ⟨pre.length, p⟩ 0 = (⟨pre'.length, p'⟩, 0) ∧
        restOf c' post' p' = restOf c post p := by
      intro hsettled
      refine ⟨pre, c, post, p, hb, hp, hsettled, ?_, rfl⟩
      rw [normalizeLoop, if_neg]
      rw [lenAt_middle hb, atObject, objectAt_middle hb]
      rintro ⟨hge, hnext, hobj⟩
      rcases hsettled with h | h | h
      · exact hobj h
      · exact absurd hge (not_le.mpr h)
      · rw [h, List.length_nil, Nat.add_zero] at hlen
        exact absurd hlen.symm hnext.ne
    by_cases hsettled : Settled c post p
    · exact hstop hsettled
    · have hobj : c.isObject = false := by
        by_contra hobj
        exact hsettled (.inl (by simpa using hobj))
      have hge : p = c.len := by
        have hnot : ¬ p < c.len := fun h => hsettled (.inr (.inl h))
        omega
      obtain ⟨d, post, rfl⟩ : ∃ d post', post = d :: post' :=
        List.exists_cons_of_ne_nil fun h => hsettled (.inr (.inr h))
      have hb' := split_next hb
      have hlength : (pre ++ [c]).length = pre.length + 1 := by
        rw [List.length_append, List.length_singleton]
      rw [List.length_cons] at hlen hfuel
      obtain ⟨pre', c', post', p', hsplit, hp', hsettled', hloop, hrest⟩ :=
        ih hb' (Nat.zero_le _) (by omega)
      refine ⟨pre', c', post', p', hsplit, hp', hsettled', ?_, ?_⟩
      · rw [normalizeLoop, if_pos, lenAt_middle hb, hge, Nat.sub_self, ← hlength]
        · exact hloop
        · rw [lenAt_middle hb, atObject, objectAt_middle hb, hobj]
          have hnext : pre.length + 1 < b.length := by omega
          exact ⟨hge.ge, hnext, Bool.false_ne_true⟩
      · rw [hrest, restOf, restOf, hge, Chunk.cells_drop_len hobj]
        rfl

theorem normalizeIter_run (hb : b = pre ++ c :: post) (hp : p ≤ c.len) :
    ∃ pre' c' post' p', b = pre' ++ c' :: post' ∧ p' ≤ c'.len ∧ Settled c' post' p' ∧
      normalizeIter b ⟨pre.length, p⟩ = ⟨pre'.length, p'⟩ ∧
      restOf c' post' p' = restOf c post p := by
  rw [normalizeIter, atObject, objectAt_middle hb]
  by_cases hobj : c.isObject
  · exact ⟨pre, c, post, p, hb, hp, .inl hobj, if_pos hobj, rfl⟩
  · have hlen := length_middle hb
    obtain ⟨pre', c', post', p', hsplit, hp', hsettled, hloop, hrest⟩ :=
      normalizeLoop_run b.length hb hp (by omega)
    refine ⟨pre', c', post', p', hsplit, hp', hsettled, ?_, hrest⟩
    rw [if_neg hobj, hloop]
    rfl

/-! ## What is at a position -/

theorem atMark_middle (hb : b = pre ++ c :: post) (p : ℕ) :
    atMark b ⟨pre.length, p⟩ = c.marks.entries.contains (p : ℤ) := by
  rw [atMark, hb, getElem?_middle]
  cases h : c.marks <;> simp [h, Marks.entries]

variable (post) in
theorem restOf_byte (hc : c.isObject = false) (hp : p < c.len) :
    ∃ x, c.bytes[p]? = some x ∧
      restOf c post p = (c.marks.entries.contains (p : ℤ), .inl x) :: restOf c post (p + 1) := by
  obtain ⟨frozen, offset, body⟩ := c
  cases body with
  | object obj => cases hc
  | data bytes marks toFree =>
    have hp : p < bytes.length := hp
    refine ⟨bytes[p], List.getElem?_eq_getElem hp, ?_⟩
    have hcells : p < (dataCells (ω := ω) bytes marks.entries).length := by
      rw [dataCells, List.length_map, List.length_zipIdx]
      exact hp
    rw [restOf, restOf, Chunk.cells, List.drop_eq_getElem_cons hcells, List.cons_append]
    simp [dataCells, Chunk.marks]

theorem restOf_object {obj : ω} (hc : c.body = .object obj) :
    restOf c post 0 = (false, .inr obj) :: post.flatMap Chunk.cells := by
  rw [restOf, Chunk.cells, hc]
  rfl

theorem restOf_end (hc : c.isObject = false) : restOf c post c.len = post.flatMap Chunk.cells := by
  rw [restOf, Chunk.cells_drop_len hc, List.nil_append]

theorem tailData_last (fuel : ℕ) (hb : b = pre ++ [c]) : tailData b fuel pre.length = pre.length := by
  have hlen := length_middle hb
  cases fuel with
  | zero => rfl
  | succ fuel =>
    rw [tailData, if_neg]
    rintro ⟨hnext, -⟩
    rw [hlen] at hnext
    exact absurd hnext (by simp)

theorem isEnd_object (hb : b = pre ++ c :: post) (hc : c.isObject) : isEnd b ⟨pre.length, p⟩ := by
  rw [isEnd, atObject, objectAt_middle hb, hc]
  simp

theorem isEnd_byte (hb : b = pre ++ c :: post) (hc : c.isObject = false) (hp : p < c.len) :
    isEnd b ⟨pre.length, p⟩ = false := by
  rw [isEnd, atObject, objectAt_middle hb, lenAt_middle hb, hc]
  simp [not_le.mpr hp]

theorem isEnd_last (hb : b = pre ++ [c]) : isEnd b ⟨pre.length, c.len⟩ := by
  rw [isEnd, tailData_last _ hb, lenAt_middle hb]
  simp

theorem tailData_run (fuel : ℕ) (hb : b = pre ++ c :: post) (hc : c.isObject = false)
    (hfuel : post.length ≤ fuel) :
    ∃ pre' c' post', b = pre' ++ c' :: post' ∧ c'.isObject = false ∧
      tailData b fuel pre.length = pre'.length ∧ (∀ o ∈ post'.head?, o.isObject) ∧
      (isEmpty (c :: post) → c'.len = 0 ∧ restOf c' post' 0 = restOf c post 0) := by
  induction fuel generalizing pre c post with
  | zero =>
    have hpost : post = [] := List.eq_nil_of_length_eq_zero (by omega)
    subst hpost
    refine ⟨pre, c, [], hb, hc, rfl, (fun o ho => by cases ho), fun hempty => ⟨?_, rfl⟩⟩
    by_contra hlen
    rw [isEmpty, hc, if_neg Bool.false_ne_true, if_pos hlen] at hempty
    cases hempty
  | succ fuel ih =>
    have hempty : isEmpty (c :: post) → c.len = 0 ∧ isEmpty post := by
      intro hempty
      rw [isEmpty, hc, if_neg Bool.false_ne_true] at hempty
      split at hempty
      · cases hempty
      · rename_i hlen
        exact ⟨not_not.mp hlen, hempty⟩
    cases post with
    | nil =>
      exact ⟨pre, c, [], hb, hc, tailData_last _ hb, (fun o ho => by cases ho),
        fun h => ⟨(hempty h).1, rfl⟩⟩
    | cons d post =>
      have hlen := length_middle hb
      have hb' := split_next hb
      have hlength : (pre ++ [c]).length = pre.length + 1 := by
        rw [List.length_append, List.length_singleton]
      have hnext : objectAt b (pre.length + 1) = d.isObject := by
        rw [← hlength, objectAt_middle hb']
      rw [List.length_cons] at hlen hfuel
      by_cases hd : d.isObject
      · refine ⟨pre, c, d :: post, hb, hc, ?_, ?_, fun h => ⟨(hempty h).1, rfl⟩⟩
        · rw [tailData, hnext, hd, if_neg]
          simp
        · intro o ho
          cases ho
          exact hd
      · have hd : d.isObject = false := by simpa using hd
        obtain ⟨pre', c', post', hsplit, hc', htail, hhead, hrest⟩ := ih hb' hd (by omega)
        refine ⟨pre', c', post', hsplit, hc', ?_, hhead, fun h => ?_⟩
        · rw [tailData, hnext, hd, if_pos ⟨by omega, Bool.false_ne_true⟩, ← hlength]
          exact htail
        · obtain ⟨hlen', heq⟩ := hrest (hempty h).2
          refine ⟨hlen', ?_⟩
          have hzero : restOf c (d :: post) 0 = restOf c (d :: post) c.len := by
            rw [(hempty h).1]
          rw [heq, hzero, restOf_end hc]
          rfl

theorem isEnd_bytesEnd (hb : b = c :: post) (hc : c.isObject = false) :
    isEnd b (normalizeIter b (bytesEnd b)) := by
  have hlen : b.length = post.length + 1 := by rw [hb, List.length_cons]
  have hb : b = [] ++ c :: post := hb
  obtain ⟨pre', c', post', hsplit, hc', htail, hhead, -⟩ :=
    tailData_run b.length hb hc (by omega)
  have hend : bytesEnd b = ⟨pre'.length, c'.len⟩ := by
    have htail : tailData b b.length 0 = pre'.length := htail
    rw [bytesEnd, htail, lenAt_middle hsplit]
  obtain ⟨pre₂, c₂, post₂, p₂, hsplit₂, hp₂, hsettled, hnorm, hrest⟩ :=
    normalizeIter_run hsplit le_rfl
  rw [hend, hnorm]
  rw [restOf_end hc'] at hrest
  by_cases hc₂ : c₂.isObject
  · exact isEnd_object hsplit₂ hc₂
  · have hc₂ : c₂.isObject = false := by simpa using hc₂
    by_cases hlt : p₂ < c₂.len
    · -- what is left begins with an object, or there is nothing left
      obtain ⟨x, -, hcons⟩ := restOf_byte post₂ hc₂ hlt
      rw [hcons] at hrest
      cases post' with
      | nil => cases hrest
      | cons o post' =>
        have ho : o.isObject := hhead o rfl
        obtain ⟨frozen, offset, body⟩ := o
        cases body with
        | data bytes marks toFree => cases ho
        | object obj =>
          rw [List.flatMap_cons] at hrest
          injection hrest with hfirst
          have hsnd := congrArg Prod.snd hfirst
          cases hsnd
    · have hlast : post₂ = [] := by
        rcases hsettled with h | h | h
        · rw [hc₂] at h
          cases h
        · exact absurd h hlt
        · exact h
      subst hlast
      rw [show p₂ = c₂.len by omega]
      exact isEnd_last hsplit₂

/-! ## Going on from a position -/

section

variable {i : Iter}

theorem bytesAtMark_run (hb : b = pre ++ c :: post) (hnorm : normalizeIter b i = ⟨pre.length, p⟩) :
    bytesAtMark b i = c.marks.entries.contains (p : ℤ) := by
  rw [bytesAtMark, hnorm, atMark_middle hb]

theorem bytesAtObject_run (hb : b = pre ++ c :: post)
    (hnorm : normalizeIter b i = ⟨pre.length, p⟩) : bytesAtObject b i = c.isObject := by
  rw [bytesAtObject, hnorm, atObject, objectAt_middle hb]

theorem bytesRetrieveObject_run {obj : ω} (hb : b = pre ++ c :: post)
    (hnorm : normalizeIter b i = ⟨pre.length, p⟩) (hc : c.body = .object obj) :
    bytesRetrieveObject b i = .ok obj := by
  have hget : b[pre.length]? = some c := by rw [hb, getElem?_middle]
  rw [bytesRetrieveObject, hnorm, hget, Option.map_some, hc]

theorem bytesSkipObject_run {d : Chunk ω} (hb : b = pre ++ c :: d :: post)
    (hnorm : normalizeIter b i = ⟨pre.length, p⟩) (hc : c.isObject) :
    bytesSkipObject b i = some (.ok ⟨(pre ++ [c]).length, 0⟩) := by
  have hlen := length_middle hb
  rw [List.length_cons] at hlen
  rw [bytesSkipObject, hnorm]
  dsimp only
  rw [atObject, objectAt_middle hb, hc, if_neg (not_not.mpr rfl), if_pos (by omega),
    List.length_append, List.length_singleton]

theorem iteratorBytesEq_run (hend : isEnd b (normalizeIter b (bytesEnd b)))
    (hnorm : normalizeIter b i = ⟨pre.length, p⟩) :
    iteratorBytesEq b i (bytesEnd b) = isEnd b ⟨pre.length, p⟩ := by
  rw [iteratorBytesEq, hnorm, hend]
  cases hi : isEnd b ⟨pre.length, p⟩ with
  | true => simp
  | false =>
    have hne : (⟨pre.length, p⟩ : Iter) ≠ normalizeIter b (bytesEnd b) := by
      intro heq
      rw [← heq, hi] at hend
      cases hend
    simp [hne]

theorem iteratorBytesDeref_run {x : UInt8} (hb : b = pre ++ c :: post)
    (hnorm : normalizeIter b i = ⟨pre.length, p⟩) (hc : c.isObject = false)
    (hx : c.bytes[p]? = some x) (hp : p < c.len) : iteratorBytesDeref b i = .ok x := by
  have hget : b[pre.length]? = some c := by rw [hb, getElem?_middle]
  rw [iteratorBytesDeref, hnorm]
  dsimp only
  rw [isEnd_byte hb hc hp, if_neg Bool.false_ne_true, hget, Option.bind_some, hx]
  rfl

theorem iteratorBytesIncr_run (hb : b = pre ++ c :: post)
    (hnorm : normalizeIter b i = ⟨pre.length, p⟩) (hc : c.isObject = false) (hp : p < c.len) :
    ∃ pre' c' post' p', b = pre' ++ c' :: post' ∧ p' ≤ c'.len ∧
      iteratorBytesIncr b i = ⟨pre'.length, p'⟩ ∧ restOf c' post' p' = restOf c post (p + 1) := by
  have hlen := length_middle hb
  rw [iteratorBytesIncr, hnorm]
  dsimp only
  rw [isEnd_byte hb hc hp, if_neg Bool.false_ne_true, lenAt_middle hb]
  by_cases hlt : p + 1 < c.len
  · exact ⟨pre, c, post, p + 1, hb, hlt.le, if_pos hlt, rfl⟩
  · have hp : p + 1 = c.len := by omega
    rw [if_neg hlt]
    cases post with
    | nil =>
      refine ⟨pre, c, [], c.len, hb, le_rfl, if_pos ?_, by rw [hp]⟩
      rw [hlen]
      simp
    | cons d post =>
      rw [List.length_cons] at hlen
      refine ⟨pre ++ [c], d, post, 0, split_next hb, Nat.zero_le _, ?_, ?_⟩
      · rw [if_neg (not_not.mpr (by omega)), List.length_append, List.length_singleton]
      · rw [hp, restOf_end hc]
        rfl

end

theorem lastData_split (hlast : LastData b) (hb : b = pre ++ [c]) : c.isObject = false := by
  obtain ⟨c', hget, hc'⟩ := hlast
  have hlen := length_middle hb
  rw [List.length_nil, Nat.add_zero] at hlen
  rw [hlen, Nat.add_sub_cancel, hb, getElem?_middle] at hget
  cases hget
  exact hc'

theorem endMark_last (hb : b = pre ++ [c]) : endMark b = c.marks.entries.contains (c.len : ℤ) := by
  rw [endMark, hb, List.getLast?_concat]
  rfl

theorem walkLoop_run (fuel : ℕ) {i : Iter} (hlast : LastData b)
    (hend : isEnd b (normalizeIter b (bytesEnd b))) (hb : b = pre ++ c :: post) (hp : p ≤ c.len)
    (hi : i = ⟨pre.length, p⟩) (hfuel : (restOf c post p).length < fuel) :
    walkLoop b fuel i = some (Sequence.items ⟨restOf c post p, endMark b⟩) := by
  induction fuel generalizing pre c post p i with
  | zero => omega
  | succ fuel ih =>
    obtain ⟨pre', c', post', p', hb', hp', hsettled, hnorm, hrest⟩ := normalizeIter_run hb hp
    rw [← hi] at hnorm
    rw [← hrest] at hfuel ⊢
    rw [walkLoop, bytesAtMark_run hb' hnorm, bytesAtObject_run hb' hnorm, iteratorBytesEq_run hend hnorm]
    by_cases hobj : c'.isObject
    · -- at an object there is no mark, and there is a chunk behind it
      obtain ⟨obj, hbody⟩ : ∃ obj, c'.body = .object obj := by
        obtain ⟨frozen, offset, body⟩ := c'
        cases body with
        | data bytes marks toFree => cases hobj
        | object obj => exact ⟨obj, rfl⟩
      have hzero : p' = 0 := by
        rw [Chunk.len_object hobj] at hp'
        omega
      subst hzero
      obtain ⟨d, post', rfl⟩ : ∃ d post₂, post' = d :: post₂ := by
        cases post' with
        | nil =>
          rw [lastData_split hlast hb'] at hobj
          cases hobj
        | cons d post₂ => exact ⟨d, post₂, rfl⟩
      have hcells : restOf c' (d :: post') 0 = (false, .inr obj) :: restOf d post' 0 := by
        rw [restOf_object hbody]
        rfl
      rw [hcells, List.length_cons] at hfuel
      rw [hobj, if_pos rfl, bytesRetrieveObject_run hb' hnorm hbody, bytesSkipObject_run hb' hnorm hobj,
        Chunk.marks_object hobj, hcells]
      dsimp only
      rw [ih (split_next hb') (Nat.zero_le _) rfl (by omega)]
      rfl
    · have hobj : c'.isObject = false := by simpa using hobj
      rw [hobj, if_neg Bool.false_ne_true]
      by_cases hlt : p' < c'.len
      · obtain ⟨x, hx, hcells⟩ := restOf_byte post' hobj hlt
        obtain ⟨pre₂, c₂, post₂, p₂, hb₂, hp₂, hincr, hrest₂⟩ :=
          iteratorBytesIncr_run hb' hnorm hobj hlt
        rw [hcells, List.length_cons, ← hrest₂] at hfuel
        rw [isEnd_byte hb' hobj hlt, if_neg Bool.false_ne_true,
          iteratorBytesDeref_run hb' hnorm hobj hx hlt, hcells, ← hrest₂]
        dsimp only
        rw [ih hb₂ hp₂ hincr (by omega), Option.map_some]
        simp [Sequence.items, Cell.items, markItems]
      · have hnil : post' = [] := by
          rcases hsettled with h | h | h
          · rw [hobj] at h
            cases h
          · exact absurd h hlt
          · exact h
        subst hnil
        rw [show p' = c'.len by omega, isEnd_last hb', if_pos rfl, restOf_end hobj, endMark_last hb']
        rfl

theorem walk_eq (hlast : LastData b) (hhead : ∀ c ∈ b.head?, c.isObject = false) :
    walk b = some (sequence b).items := by
  obtain ⟨c, post, rfl⟩ : ∃ c post, b = c :: post := by
    cases b with
    | nil => exact absurd rfl hlast.ne_nil
    | cons c post => exact ⟨c, post, rfl⟩
  have hc : c.isObject = false := hhead c rfl
  have hb : c :: post = [] ++ c :: post := rfl
  have hend : isEnd (c :: post) (normalizeIter (c :: post) (bytesEnd (c :: post))) :=
    isEnd_bytesEnd rfl hc
  have hstart : ∃ pre' c' post' p', c :: post = pre' ++ c' :: post' ∧ p' ≤ c'.len ∧
      bytesBegin (c :: post) = ⟨pre'.length, p'⟩ ∧ restOf c' post' p' = restOf c post 0 := by
    rw [bytesBegin]
    by_cases hempty : isEmpty (c :: post)
    · obtain ⟨pre', c', post', hsplit, -, htail, -, hrest⟩ :=
        tailData_run (c :: post).length hb hc (Nat.le_succ _)
      have htail : tailData (c :: post) (c :: post).length 0 = pre'.length := htail
      refine ⟨pre', c', post', 0, hsplit, Nat.zero_le _, ?_, (hrest hempty).2⟩
      rw [if_pos hempty, bytesEnd, htail, lenAt_middle hsplit, (hrest hempty).1]
    · obtain ⟨pre', c', post', p', hsplit, hp', -, hnorm, hrest⟩ :=
        normalizeIter_run hb (Nat.zero_le _)
      exact ⟨pre', c', post', p', hsplit, hp', (if_neg hempty).trans hnorm, hrest⟩
  obtain ⟨pre', c', post', p', hsplit, hp', hbegin, hrest⟩ := hstart
  have hall : restOf c' post' p' = (c :: post).flatMap Chunk.cells := hrest
  rw [walk, walkLoop_run _ hlast hend hsplit hp' hbegin (by rw [hall]; omega), hall]
  rfl

end

end Hilti.Embedded
