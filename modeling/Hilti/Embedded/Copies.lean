import Mathlib
import Hilti.Embedded.Cloning

/-!
# Copies of bytes objects

What a program can see of a bytes object, and when a copy has all of it.  The first chunk keeps
the frozen flag while the others are linked to it, and offsets are counted on from the first
one, which after trimming need not be where the next chunk begins.
-/

namespace Hilti.Embedded

set_option autoImplicit false

variable {ω : Type}

/-! ## What can be seen -/

/-- Bytes and objects, in order. -/
def content (b : Bytes ω) : List (UInt8 ⊕ ω) :=
  b.flatMap fun c =>
    match c.body with
    | .data bytes _ _ => bytes.map .inl
    | .object obj => [.inr obj]

/-- Embedded objects with their indexes, which are the offsets of their chunks. -/
def objects (b : Bytes ω) : List (ℕ × ω) :=
  b.filterMap fun c =>
    match c.body with
    | .data .. => none
    | .object obj => some (c.offset, obj)

def beginIndex (b : Bytes ω) : ℕ :=
  iteratorBytesIndex b (bytesBegin b)

def shape (b : Bytes ω) : List (Bool × ℕ) :=
  b.map fun c => (c.isObject, c.len)

section

variable {b b' : Bytes ω}

theorem lenAt_shape (h : shape b' = shape b) (k : ℕ) : lenAt b' k = lenAt b k := by
  have hk := congrArg (fun l => (l[k]?).elim 0 Prod.snd) h
  rw [shape, shape, List.getElem?_map, List.getElem?_map, Option.elim_map, Option.elim_map] at hk
  exact hk

theorem objectAt_shape (h : shape b' = shape b) (k : ℕ) : objectAt b' k = objectAt b k := by
  have hk := congrArg (fun l => (l[k]?).any Prod.fst) h
  simpa [shape, objectAt, Option.any_map] using hk

theorem length_shape (h : shape b' = shape b) : b'.length = b.length := by
  have hlen := congrArg List.length h
  rwa [shape, shape, List.length_map, List.length_map] at hlen

theorem isEmpty_shape (h : shape b' = shape b) : isEmpty b' = isEmpty b := by
  induction b generalizing b' with
  | nil =>
    rw [List.map_eq_nil_iff.mp h]
  | cons c b ih =>
    obtain ⟨c', b', rfl⟩ : ∃ c' b'', b' = c' :: b'' :=
      List.exists_cons_of_ne_nil fun hnil => by rw [hnil] at h; cases h
    obtain ⟨hc, hb⟩ := List.cons.inj h
    rw [isEmpty, isEmpty, ih hb, (Prod.mk.inj hc).1, (Prod.mk.inj hc).2]

theorem tailData_shape (h : shape b' = shape b) (fuel k : ℕ) :
    tailData b' fuel k = tailData b fuel k := by
  induction fuel generalizing k with
  | zero => rfl
  | succ fuel ih => rw [tailData, tailData, length_shape h, objectAt_shape h, ih]

theorem isEnd_shape (h : shape b' = shape b) (i : Iter) : isEnd b' i = isEnd b i := by
  rw [isEnd, isEnd, length_shape h, tailData_shape h, lenAt_shape h, atObject, atObject,
    objectAt_shape h]

theorem incrByLoop_shape (h : shape b' = shape b) (beyondEnd : Bool) (fuel : ℕ) (i : Iter)
    (n : ℕ) : incrByLoop b' beyondEnd fuel i n = incrByLoop b beyondEnd fuel i n := by
  induction fuel generalizing i n with
  | zero => rfl
  | succ fuel ih =>
    rw [incrByLoop, incrByLoop, lenAt_shape h, length_shape h, atObject, atObject,
      objectAt_shape h, ih]

theorem normalizeLoop_shape (h : shape b' = shape b) (fuel : ℕ) (i : Iter) (incr : ℕ) :
    normalizeLoop b' fuel i incr = normalizeLoop b fuel i incr := by
  induction fuel generalizing i incr with
  | zero => rfl
  | succ fuel ih =>
    rw [normalizeLoop, normalizeLoop, lenAt_shape h, length_shape h, atObject, atObject,
      objectAt_shape h, ih]

theorem normalizeIter_shape (h : shape b' = shape b) (i : Iter) :
    normalizeIter b' i = normalizeIter b i := by
  rw [normalizeIter, normalizeIter, atObject, atObject, objectAt_shape h, normalizeLoop_shape h,
    length_shape h]
  simp only [incrBy, isEnd_shape h, incrByLoop_shape h, length_shape h]

theorem bytesBegin_shape (h : shape b' = shape b) : bytesBegin b' = bytesBegin b := by
  rw [bytesBegin, bytesBegin, isEmpty_shape h, normalizeIter_shape h]
  simp only [bytesEnd, length_shape h, tailData_shape h, lenAt_shape h]

end

/-! ## Copied chunks -/

/-- The bytes before chunk `k`. -/
def before (b : Bytes ω) (k : ℕ) : ℕ :=
  ((b.take k).map Chunk.len).sum

@[simp] theorem Chunk.plain_isObject (c : Chunk ω) (n : ℕ) :
    (c.plain n).isObject = c.isObject := by
  obtain ⟨frozen, offset, body⟩ := c
  cases body <;> rfl

@[simp] theorem Chunk.plain_len (c : Chunk ω) (n : ℕ) : (c.plain n).len = c.len := by
  obtain ⟨frozen, offset, body⟩ := c
  cases body <;> rfl

@[simp] theorem Chunk.plain_offset (c : Chunk ω) (n : ℕ) : (c.plain n).offset = n := by
  obtain ⟨frozen, offset, body⟩ := c
  cases body <;> rfl

theorem rebuilt_getElem? (b : Bytes ω) (n k : ℕ) :
    (rebuilt n b)[k]? = (b[k]?).map fun c => c.plain (n + before b k) := by
  induction b generalizing n k with
  | nil => rfl
  | cons c b ih =>
    cases k with
    | zero => simp [rebuilt, before]
    | succ k =>
      rw [rebuilt, List.getElem?_cons_succ, List.getElem?_cons_succ, ih]
      simp [before, Nat.add_assoc]

theorem rebuilt_shape (b : Bytes ω) (n : ℕ) : shape (rebuilt n b) = shape b := by
  induction b generalizing n with
  | nil => rfl
  | cons c b ih =>
    have ih := ih (n + c.len)
    simp only [shape, rebuilt, List.map_cons, Chunk.plain_isObject, Chunk.plain_len] at ih ⊢
    rw [ih]

theorem rebuilt_content (b : Bytes ω) (n : ℕ) : content (rebuilt n b) = content b := by
  induction b generalizing n with
  | nil => rfl
  | cons c b ih =>
    have ih := ih (n + c.len)
    obtain ⟨frozen, offset, body⟩ := c
    simp only [content, rebuilt, List.flatMap_cons] at ih ⊢
    rw [ih]
    cases body <;> rfl

theorem rebuilt_objects_iff (b : Bytes ω) (n : ℕ) : objects (rebuilt n b) = objects b ↔
    ∀ (k : ℕ) (c : Chunk ω), b[k]? = some c → c.isObject → c.offset = n + before b k := by
  induction b generalizing n with
  | nil => exact ⟨fun _ k c hc => (by cases hc), fun _ => rfl⟩
  | cons c b ih =>
    have hsplit : (∀ (k : ℕ) (c' : Chunk ω), (c :: b)[k]? = some c' → c'.isObject →
        c'.offset = n + before (c :: b) k) ↔
        (c.isObject → c.offset = n) ∧ ∀ (k : ℕ) (c' : Chunk ω), b[k]? = some c' → c'.isObject →
          c'.offset = n + c.len + before b k := by
      have hbefore : ∀ k, n + before (c :: b) (k + 1) = n + c.len + before b k := by
        intro k
        simp [before, Nat.add_assoc]
      constructor
      · intro h
        refine ⟨h 0 c rfl, fun k c' hc' hobj => ?_⟩
        rw [← hbefore]
        exact h (k + 1) c' hc' hobj
      · rintro ⟨hfirst, hrest⟩ k c' hc' hobj
        cases k with
        | zero =>
          cases hc'
          exact hfirst hobj
        | succ k =>
          rw [hbefore]
          exact hrest k c' hc' hobj
    rw [hsplit, ← ih]
    obtain ⟨frozen, offset, body⟩ := c
    cases body with
    | data bytes marks toFree =>
      refine ⟨fun h => ⟨fun hobj => (by cases hobj), h⟩, fun h => h.2⟩
    | object obj =>
      constructor
      · intro h
        obtain ⟨hfirst, hrest⟩ := List.cons.inj h
        exact ⟨fun _ => (Prod.mk.inj hfirst).1.symm, hrest⟩
      · rintro ⟨hfirst, hrest⟩
        have hoffset : offset = n := hfirst rfl
        subst hoffset
        exact congrArg (List.cons (offset, obj)) hrest

theorem plains_shape (b : Bytes ω) : shape (plains b) = shape b := by
  simp [shape, plains]

theorem plains_content (b : Bytes ω) : content (plains b) = content b := by
  rw [content, content, plains, List.flatMap_map]
  congr 1
  funext c
  obtain ⟨frozen, offset, body⟩ := c
  cases body <;> rfl

theorem plains_objects (b : Bytes ω) : objects (plains b) = objects b := by
  rw [objects, objects, plains, List.filterMap_map]
  congr 1
  funext c
  obtain ⟨frozen, offset, body⟩ := c
  cases body <;> rfl

/-! ## Bytes objects there can be -/

/-- What the functions make of new objects.  The object that is appended may be any. -/
inductive Made : Bytes ω → Prop
  | new (data : List UInt8) : Made [bytesNew data]
  | newReuse (data : List UInt8) : Made [bytesNewReuse data]
  | apply {b b' : Bytes ω} {e : Option Excpt} (op : Op ω) :
      Made b → apply b op = some (b', e) → Made b'
  | freeze {b : Bytes ω} (on : Bool) : Made b → Made (freeze b on)
  | trim {b b' : Bytes ω} (i : Iter) : Made b → trim b i = some b' → Made b'
  | clone {b b' : Bytes ω} : Made b → clone b = some b' → Made b'

def LastData (b : Bytes ω) : Prop :=
  ∃ c, b[b.length - 1]? = some c ∧ c.isObject = false

section

variable {b b' : Bytes ω}

theorem lastData_concat (b : Bytes ω) {c : Chunk ω} (hc : c.isObject = false) :
    LastData (b ++ [c]) := by
  refine ⟨c, ?_, hc⟩
  rw [List.length_append, List.length_singleton, Nat.add_sub_cancel]
  exact List.getElem?_concat_length

theorem appendMarkAt_lastData {m : ℤ} (h : appendMarkAt b m = some b') :
    LastData b' ∧ b.length ≤ b'.length := by
  rw [appendMarkAt_eq] at h
  obtain ⟨t, ht, h⟩ := Option.bind_eq_some_iff.mp h
  obtain ⟨b₁, hb₁, h⟩ := Option.bind_eq_some_iff.mp h
  obtain ⟨t₁, ht₁, h⟩ := Option.bind_eq_some_iff.mp h
  obtain ⟨marks, -, h⟩ := Option.bind_eq_some_iff.mp h
  cases h
  have hlast : t₁.isObject = false ∧ b.length ≤ b₁.length := by
    split at hb₁
    · obtain ⟨d, -, -, -, rfl⟩ := link_eq_some hb₁
      rw [List.getLast?_concat] at ht₁
      cases ht₁
      exact ⟨rfl, by simp⟩
    · rename_i hobj
      cases hb₁
      rw [ht] at ht₁
      cases ht₁
      exact ⟨by simpa using hobj, le_rfl⟩
  refine ⟨lastData_concat _ ((Chunk.setMarks_isObject _ _).trans hlast.1), ?_⟩
  have hpos : b₁.length ≠ 0 := by
    intro hzero
    rw [List.eq_nil_of_length_eq_zero hzero] at ht₁
    cases ht₁
  rw [List.length_append, List.length_dropLast, List.length_singleton]
  omega

theorem moveMarks_lastData {len : ℕ} {ms l : List ℤ} (hb : LastData b)
    (h : moveMarks len ms b = some (b', l)) : LastData b' ∧ b.length ≤ b'.length := by
  induction ms generalizing b l with
  | nil =>
    cases h
    exact ⟨hb, le_rfl⟩
  | cons m ms ih =>
    rw [moveMarks] at h
    split at h
    · obtain ⟨b₁, hmark, h⟩ := Option.bind_eq_some_iff.mp h
      obtain ⟨⟨b₂, l₂⟩, hmove, h⟩ := Option.bind_eq_some_iff.mp h
      cases h
      obtain ⟨hb₁, hle₁⟩ := appendMarkAt_lastData hmark
      obtain ⟨hb₂, hle₂⟩ := ih hb₁ hmove
      exact ⟨hb₂, hle₁.trans hle₂⟩
    · obtain ⟨⟨b₂, l₂⟩, hmove, h⟩ := Option.bind_eq_some_iff.mp h
      cases h
      exact ih hb hmove

theorem addChunk_lastData {tail : ℕ} {c : Chunk ω} (hc : c.isObject = false)
    (h : addChunk b tail c = some b') : LastData b' := by
  obtain ⟨t, -, h⟩ := Option.bind_eq_some_iff.mp h
  obtain ⟨b₁, hlink, h⟩ := Option.bind_eq_some_iff.mp h
  obtain ⟨d, -, hlast, -, rfl⟩ := link_eq_some hlink
  have hb₁ : LastData (b ++ [d.behind c]) := lastData_concat b hc
  split at h
  · cases h
    exact hb₁
  · obtain ⟨⟨b₂, l⟩, hmove, h⟩ := Option.bind_eq_some_iff.mp h
    cases h
    obtain ⟨⟨x, hx, hxdata⟩, hle⟩ := moveMarks_lastData hb₁ hmove
    rw [List.length_append, List.length_singleton] at hle
    refine ⟨x, ?_, hxdata⟩
    rw [List.length_set, List.getElem?_set_ne (by omega)]
    exact hx
  · cases h

theorem appendRawChunk_lastData {raw : List UInt8} {c : Chunk ω} {e : Option Excpt}
    (hb : LastData b) (hc : c.isObject = false) (h : appendRawChunk b raw c = some (b', e)) :
    LastData b' := by
  unfold appendRawChunk at h
  split at h
  · cases h
    exact hb
  · split at h
    · cases h
      exact hb
    · obtain ⟨b₁, hadd, h⟩ := Option.bind_eq_some_iff.mp h
      cases h
      exact addChunk_lastData hc hadd

theorem apply_lastData {op : Op ω} {e : Option Excpt} (hb : LastData b)
    (h : apply b op = some (b', e)) : LastData b' := by
  cases op with
  | append other =>
    have h : append b other = some (b', e) := h
    unfold append at h
    split at h
    · cases h
      exact hb
    · split at h
      · cases h
        exact hb
      · split at h
        · cases h
          exact hb
        · obtain ⟨⟨data, marks⟩, -, h⟩ := Option.bind_eq_some_iff.mp h
          obtain ⟨b₁, hadd, h⟩ := Option.bind_eq_some_iff.mp h
          cases h
          exact addChunk_lastData rfl hadd
  | appendRaw raw => exact appendRawChunk_lastData (c := bytesNewReuse raw) hb rfl h
  | appendRawCopy raw => exact appendRawChunk_lastData (c := bytesNew raw) hb rfl h
  | appendObject obj =>
    cases obj with
    | none =>
      cases h
      exact hb
    | some obj =>
      obtain ⟨b₁, -, h⟩ := Option.bind_eq_some_iff.mp h
      obtain ⟨b₂, hadd, h⟩ := Option.bind_eq_some_iff.mp h
      cases h
      exact addChunk_lastData rfl hadd
  | appendMark =>
    obtain ⟨b₁, hmark, h⟩ := Option.bind_eq_some_iff.mp h
    cases h
    exact (appendMarkAt_lastData hmark).1

theorem shape_lastData (h : shape b' = shape b) (hb : LastData b) : LastData b' := by
  obtain ⟨c, hc, hdata⟩ := hb
  have hk := congrArg (fun l => l[b.length - 1]?) h
  simp only [shape, List.getElem?_map, hc, Option.map_some] at hk
  obtain ⟨c', hc', heq⟩ := Option.map_eq_some_iff.mp hk
  refine ⟨c', by rw [length_shape h]; exact hc', ?_⟩
  rw [(Prod.mk.inj heq).1, hdata]

theorem Chunk.trimmed_isObject (c : Chunk ω) (cur : ℕ) :
    (c.trimmed cur).isObject = c.isObject := by
  obtain ⟨frozen, offset, body⟩ := c
  cases body <;> rfl

theorem lastData_cons {c : Chunk ω} (hb : b ≠ []) : LastData (c :: b) ↔ LastData b := by
  have hpos := List.length_pos_iff.mpr hb
  have hlen : (c :: b).length - 1 = b.length - 1 + 1 := by
    rw [List.length_cons]
    omega
  rw [LastData, LastData, hlen, List.getElem?_cons_succ]

theorem lastData_of_suffix {D : Bytes ω} (hb : b ≠ []) (h : LastData (D ++ b)) : LastData b := by
  induction D with
  | nil => exact h
  | cons c D ih => exact ih ((lastData_cons (List.append_ne_nil_of_right_ne_nil D hb)).mp h)

theorem lastData_head {c c' : Chunk ω} (hc : c'.isObject = c.isObject) (h : LastData (c :: b)) :
    LastData (c' :: b) := by
  cases b with
  | nil =>
    obtain ⟨x, hx, hdata⟩ := h
    cases hx
    exact ⟨c', rfl, hc.trans hdata⟩
  | cons d b =>
    have hne : d :: b ≠ [] := List.cons_ne_nil d b
    exact (lastData_cons hne).mpr ((lastData_cons hne).mp h)

theorem trimTo_lastData {i : Iter} (hb : LastData b) (h : trimTo i b = some b') :
    LastData b' := by
  match b, hb, h with
  | ⟨frozen, offset, .data bytes marks toFree⟩ :: cs, hb, h =>
    rw [trimTo] at h
    split at h
    · cases h
      exact lastData_head (c := ⟨frozen, offset, .data bytes marks toFree⟩) rfl hb
    · split at h
      · rename_i c cs' hdrop
        cases h
        have hne : cs.drop (i.bytes - 1) ≠ [] := by
          rw [hdrop]
          exact List.cons_ne_nil c cs'
        have hcs : cs ≠ [] := by
          rintro rfl
          rw [List.drop_nil] at hne
          exact hne rfl
        have hsuffix : LastData (c :: cs') := by
          rw [← hdrop]
          refine lastData_of_suffix (D := cs.take (i.bytes - 1)) hne ?_
          rw [List.take_append_drop]
          exact (lastData_cons hcs).mp hb
        exact (lastData_cons (List.cons_ne_nil _ _)).mpr
          (lastData_head (c.trimmed_isObject _) hsuffix)
      · cases h
  | ⟨frozen, offset, .object obj⟩ :: cs, hb, h => cases h
  | [], hb, h => cases h

theorem trim_lastData {i : Iter} (hb : LastData b) (h : trim b i = some b') : LastData b' := by
  rw [trim] at h
  split at h
  · cases h
    exact hb
  · exact trimTo_lastData hb h

end

/-! ## When a copy is one -/

section

variable {b : Bytes ω}

theorem LastData.ne_nil (h : LastData b) : b ≠ [] := by
  rintro rfl
  obtain ⟨c, hc, -⟩ := h
  cases hc

theorem cloneChunk_first {c : Chunk ω} (hc : c.marks ≠ .freed) :
    ∃ c', cloneChunk c = some c' ∧ (∀ n, c'.plain n = c.plain n) ∧ c'.len = c.len ∧
      c'.marks ≠ .freed ∧ c'.marks.entries = c.marks.live := by
  cases hobj : c.isObject with
  | false =>
    obtain ⟨c', heq, -, -, hplain, hlen, halive, hentries⟩ := cloneChunk_data hobj hc
    exact ⟨c', heq, hplain, hlen, halive, hentries⟩
  | true =>
    obtain ⟨c', heq, -, -, hplain, hlen, hmarks⟩ := cloneChunk_object hobj
    refine ⟨c', heq, hplain, hlen.trans (Chunk.len_object hobj).symm, ?_, ?_⟩
    · rw [hmarks]
      exact fun h => nomatch h
    · rw [hmarks, Chunk.marks_object hobj]
      rfl

theorem loopOk_first (c : Chunk ω) (cs : Bytes ω) :
    LoopOk [] 0 (c :: cs) ↔ c.marks ≠ .freed ∧ LoopOk c.marks.live c.len cs := by
  cases hobj : c.isObject with
  | false =>
    rw [loopOk_data hobj, show overflow 0 [] = [] from rfl, List.append_nil]
  | true =>
    have hmarks := Chunk.marks_object hobj
    rw [loopOk_object hobj, Chunk.len_object hobj, hmarks]
    exact ⟨fun h => ⟨(fun h => nomatch h), h.2⟩, fun h => ⟨rfl, h.2⟩⟩

theorem loopOk_nil {c : Chunk ω} : LoopOk [] 0 [c] ↔ c.marks ≠ .freed := by
  rw [loopOk_first]
  refine ⟨fun h => h.1, fun h => ⟨h, ⟨fun c hc => (by cases hc), fun h => (by cases h), trivial⟩⟩⟩

theorem clone_spec (hb : LastData b) :
    (LoopOk [] 0 b ∧ (isFrozen b = false ∨ b.length = 1) →
      ∃ b', clone b = some b' ∧ plains b' = rebuilt ((b.head?).elim 0 Chunk.offset) b ∧
        isFrozen b' = isFrozen b) ∧
    (¬ (LoopOk [] 0 b ∧ (isFrozen b = false ∨ b.length = 1)) → clone b = none) := by
  match b, hb with
  | [], hb => exact absurd rfl hb.ne_nil
  | c :: cs, hb =>
    rw [loopOk_first]
    by_cases hfreed : c.marks = .freed
    · refine ⟨fun h => absurd hfreed h.1.1, fun _ => ?_⟩
      rw [clone, cloneChunk_freed hfreed]
      rfl
    · obtain ⟨c', heq, hplain, hlen, halive, hentries⟩ := cloneChunk_first hfreed
      set d : Chunk ω := { c' with frozen := c.frozen, offset := c.offset } with hd
      have hdplain : ∀ n, d.plain n = c.plain n := hplain
      have hdlen : d.len = c.len := hlen
      have hclone : clone (c :: cs) = cloneLoop cs ([] ++ [d]) ([] : Bytes ω).length := by
        rw [clone, heq]
        rfl
      cases hfrozen : c.frozen with
      | false =>
        have hlast : ∀ x, cs.getLast? = some x → x.isObject = false := by
          intro x hx
          have hcs : cs ≠ [] := by
            rintro rfl
            cases hx
          obtain ⟨y, hy, hdata⟩ := (lastData_cons hcs).mp hb
          rw [List.getLast?_eq_getElem?, hy] at hx
          cases hx
          exact hdata
        have hnonneg : ∀ m ∈ d.marks.entries, 0 ≤ m := by
          intro m hm
          have hm : m ∈ c.marks.live := hentries ▸ hm
          exact of_decide_eq_true (List.mem_filter.mp hm).2
        obtain ⟨hyes, hno⟩ := cloneLoop_spec (D := []) (d := d) cs hfrozen halive hnonneg hlast
        rw [show d.marks.entries = c.marks.live from hentries, hdlen] at hyes hno
        rw [hclone]
        refine ⟨fun h => ?_, fun h => hno fun hok => h ⟨⟨hfreed, hok⟩, .inl hfrozen⟩⟩
        obtain ⟨b', hb', hplains, hfrozen'⟩ := hyes h.1.2
        refine ⟨b', hb', ?_, hfrozen'⟩
        rw [hplains, hdplain]
        rfl
      | true =>
        cases cs with
        | nil =>
          rw [hclone]
          refine ⟨fun _ => ⟨[d], rfl, ?_, rfl⟩, fun h => absurd ⟨?_, .inr rfl⟩ h⟩
          · exact congrArg (fun x => [x]) (hdplain c.offset)
          · exact (loopOk_first c []).mp (loopOk_nil.mpr hfreed)
        | cons c₂ cs =>
          refine ⟨fun h => ?_, fun _ => ?_⟩
          · rcases h.2 with h | h
            · have hfirst : c.frozen = false := h
              rw [hfrozen] at hfirst
              cases hfirst
            · rw [List.length_cons, List.length_cons] at h
              omega
          · rw [hclone, cloneLoop, Option.bind_eq_bind, Option.bind_eq_none_iff]
            intro c₃ _
            rw [addChunk_frozen (D := []) (d := d) hfrozen]
            rfl

theorem loopOk_iff : LoopOk [] 0 b ↔ (∀ c ∈ b, c.marks ≠ .freed) ∧ MarksInside b :=
  ⟨fun h => ⟨h.alive, h.inside⟩, fun h => ⟨h.1, fun _ m hm => (by cases hm), h.2⟩⟩

/-- No assertion fails, and the copy is as the original. -/
structure CloneOk (b : Bytes ω) : Prop where
  unfrozen : isFrozen b = false ∨ b.length = 1
  alive : ∀ c ∈ b, c.marks ≠ .freed
  inside : MarksInside b
  offsets : ∀ (k : ℕ) (c : Chunk ω), b[k]? = some c →
    c.isObject ∨ k = (normalizeIter b (bytesBegin b)).bytes →
    c.offset = (b.head?).elim 0 Chunk.offset + before b k

theorem made_lastData (h : Made b) : LastData b := by
  induction h with
  | new data => exact lastData_concat [] rfl
  | newReuse data => exact lastData_concat [] rfl
  | apply op _ happly ih => exact apply_lastData ih happly
  | freeze on _ ih =>
    refine shape_lastData ?_ ih
    rw [shape, shape, freeze, List.map_map]
    rfl
  | trim i _ htrim ih => exact trim_lastData ih htrim
  | @clone b b' _ hclone ih =>
    obtain ⟨hyes, hno⟩ := clone_spec ih
    by_cases hok : LoopOk [] 0 b ∧ (isFrozen b = false ∨ b.length = 1)
    · obtain ⟨b'', hb'', hplains, -⟩ := hyes hok
      rw [hclone] at hb''
      cases hb''
      refine shape_lastData ?_ ih
      rw [← plains_shape b', hplains, rebuilt_shape]
    · rw [hno hok] at hclone
      cases hclone

theorem beginIndex_eq (b : Bytes ω) : beginIndex b =
    (b[(normalizeIter b (bytesBegin b)).bytes]?).elim 0 Chunk.offset +
      (if atObject b (normalizeIter b (bytesBegin b)) then 0
        else min (normalizeIter b (bytesBegin b)).cur
          (lenAt b (normalizeIter b (bytesBegin b)).bytes)) := by
  rw [beginIndex, iteratorBytesIndex]
  split <;> rfl

/-- Exactly then cloning preserves what can be seen of a bytes object. -/
theorem clone_exact_iff (hmade : Made b) :
    (∃ b', clone b = some b' ∧ content b' = content b ∧ objects b' = objects b ∧
      beginIndex b' = beginIndex b ∧ isFrozen b' = isFrozen b) ↔ CloneOk b := by
  have hlast := made_lastData hmade
  obtain ⟨hyes, hno⟩ := clone_spec hlast
  set n := (b.head?).elim 0 Chunk.offset with hn
  -- what is the same in any case, and what is a matter of offsets
  have hsame : ∀ b', plains b' = rebuilt n b → content b' = content b ∧
      (objects b' = objects b ↔
        ∀ (k : ℕ) (c : Chunk ω), b[k]? = some c → c.isObject → c.offset = n + before b k) ∧
      (beginIndex b' = beginIndex b ↔ ∀ c, b[(normalizeIter b (bytesBegin b)).bytes]? = some c →
        c.offset = n + before b (normalizeIter b (bytesBegin b)).bytes) := by
    intro b' hplains
    have hshape : shape b' = shape b := by rw [← plains_shape b', hplains, rebuilt_shape]
    refine ⟨?_, ?_, ?_⟩
    · rw [← plains_content b', hplains, rebuilt_content]
    · rw [← plains_objects b', hplains, rebuilt_objects_iff]
    · have hpos : normalizeIter b' (bytesBegin b') = normalizeIter b (bytesBegin b) := by
        rw [bytesBegin_shape hshape, normalizeIter_shape hshape]
      rw [beginIndex_eq, beginIndex_eq, hpos, atObject, atObject, objectAt_shape hshape,
        lenAt_shape hshape, Nat.add_right_cancel_iff]
      set k := (normalizeIter b (bytesBegin b)).bytes with hk
      have hoffset : (b'[k]?).elim 0 Chunk.offset = (b[k]?).elim 0 fun _ => n + before b k := by
        have hget := congrArg (fun l => (l[k]?).elim 0 Chunk.offset) hplains
        rw [rebuilt_getElem?, plains, List.getElem?_map, Option.elim_map, Option.elim_map] at hget
        simpa [Function.comp_def] using hget
      rw [hoffset]
      cases b[k]? with
      | none => exact ⟨fun _ c hc => (by cases hc), fun _ => rfl⟩
      | some c => exact ⟨fun h c' hc' => (by cases hc'; exact h.symm), fun h => (h c rfl).symm⟩
  constructor
  · rintro ⟨b', hb', -, hobjects, hbegin, -⟩
    by_cases hok : LoopOk [] 0 b ∧ (isFrozen b = false ∨ b.length = 1)
    · obtain ⟨b'', hb'', hplains, -⟩ := hyes hok
      rw [hb'] at hb''
      cases hb''
      obtain ⟨-, hobj, hbeg⟩ := hsame b' hplains
      obtain ⟨halive, hinside⟩ := loopOk_iff.mp hok.1
      refine ⟨hok.2, halive, hinside, fun k c hc hcase => ?_⟩
      rcases hcase with hcobj | rfl
      · exact hobj.mp hobjects k c hc hcobj
      · exact hbeg.mp hbegin c hc
    · rw [hno hok] at hb'
      cases hb'
  · intro hok
    obtain ⟨b', hb', hplains, hfrozen⟩ := hyes ⟨loopOk_iff.mpr ⟨hok.alive, hok.inside⟩, hok.unfrozen⟩
    obtain ⟨hcontent, hobj, hbeg⟩ := hsame b' hplains
    exact ⟨b', hb', hcontent, hobj.mpr fun k c hc hcobj => hok.offsets k c hc (.inl hcobj),
      hbeg.mpr fun c hc => hok.offsets _ c hc (.inr rfl), hfrozen⟩

end

/-- Bytes with an object, trimmed inside the first chunk. -/
theorem clone_exact_object :
    ∃ b : Bytes ℕ, Made b ∧ objects b = [(3, 7)] ∧ beginIndex b = 1 ∧
      ∃ b', clone b = some b' ∧ content b' = content b ∧ objects b' = objects b ∧
        beginIndex b' = beginIndex b ∧ isFrozen b' = isFrozen b := by
  have h₁ : Made (ω := ℕ) [bytesNew [97, 98, 99]] := .new _
  obtain ⟨b₂, h₂⟩ : ∃ b₂, apply [bytesNew [97, 98, 99]] (.appendObject (some 7)) =
      some (b₂, none) := ⟨_, rfl⟩
  obtain ⟨b₃, h₃⟩ : ∃ b₃, trim b₂ ⟨0, 1⟩ = some b₃ := by
    cases h₂
    exact ⟨_, rfl⟩
  have hmade := (h₁.apply _ h₂).trim _ h₃
  cases h₂
  cases h₃
  refine ⟨_, hmade, rfl, rfl, (clone_exact_iff hmade).mpr
    ⟨by decide, by decide, by decide, fun k c hc _ => ?_⟩⟩
  rcases k with _ | _ | _ | k
  · cases hc
    rfl
  · cases hc
    rfl
  · cases hc
    rfl
  · cases hc

/-- Two chunks that are frozen, and two of which the first one is trimmed away with a part of
the second one. -/
theorem clone_not_exact :
    (∃ b : Bytes ℕ, Made b ∧ content b = [.inl 97, .inl 98] ∧ clone b = none) ∧
      ∃ b b' : Bytes ℕ, Made b ∧ clone b = some b' ∧ beginIndex b = 2 ∧ beginIndex b' = 1 := by
  have h₁ : Made (ω := ℕ) [bytesNew [97]] := .new _
  constructor
  · obtain ⟨b₂, h₂⟩ : ∃ b₂, apply (ω := ℕ) [bytesNew [97]] (.appendRawCopy [98]) =
        some (b₂, none) := ⟨_, rfl⟩
    have hmade := (h₁.apply _ h₂).freeze true
    cases h₂
    exact ⟨_, hmade, rfl, rfl⟩
  · obtain ⟨b₂, h₂⟩ : ∃ b₂, apply (ω := ℕ) [bytesNew [97]] (.appendRawCopy [98, 99]) =
        some (b₂, none) := ⟨_, rfl⟩
    obtain ⟨b₃, h₃⟩ : ∃ b₃, trim b₂ ⟨1, 1⟩ = some b₃ := by
      cases h₂
      exact ⟨_, rfl⟩
    have hmade := (h₁.apply _ h₂).trim _ h₃
    cases h₂
    cases h₃
    exact ⟨_, _, hmade, rfl, rfl, rfl⟩

end Hilti.Embedded
