import Hilti.Embedded.Copies

/-!
# No chunk is lost

Whatever is appended, the chunks of an object stay up to their marks, and the new ones are not
frozen.  So the first chunk is never one of an object, and an object that is not frozen has no
frozen chunk.
-/

namespace Hilti.Embedded

set_option autoImplicit false

variable {ω : Type}

/-- A chunk without its marks. -/
def Chunk.bare (c : Chunk ω) : Chunk ω :=
  c.setMarks .null

theorem Chunk.bare_setMarks (c : Chunk ω) (marks : Marks) : (c.setMarks marks).bare = c.bare :=
  c.setMarks_setMarks marks .null

theorem Chunk.bare_frozen (c : Chunk ω) : c.bare.frozen = c.frozen :=
  c.setMarks_frozen .null

theorem Chunk.bare_isObject (c : Chunk ω) : c.bare.isObject = c.isObject :=
  c.setMarks_isObject .null

/-- The chunks of `b` are the first ones of `b'`, and the others are not frozen. -/
def Extends (b b' : Bytes ω) : Prop :=
  ∃ new : Bytes ω, b'.map Chunk.bare = b.map Chunk.bare ++ new ∧ ∀ c ∈ new, c.frozen = false

theorem Extends.refl (b : Bytes ω) : Extends b b :=
  ⟨[], (List.append_nil _).symm, fun c hc => by cases hc⟩

section

variable {b b' b₁ b₂ : Bytes ω} {c : Chunk ω}

theorem Extends.trans (h : Extends b b₁) (h₁ : Extends b₁ b₂) : Extends b b₂ := by
  obtain ⟨new, heq, hnew⟩ := h
  obtain ⟨new₁, heq₁, hnew₁⟩ := h₁
  refine ⟨new ++ new₁, by rw [heq₁, heq, List.append_assoc], fun c hc => ?_⟩
  exact (List.mem_append.mp hc).elim (hnew c) (hnew₁ c)

theorem link_extends {tail : ℕ} (hc : c.frozen = false) (h : link b tail c = some b') :
    Extends b b' := by
  obtain ⟨t, -, -, -, rfl⟩ := link_eq_some h
  refine ⟨[(t.behind c).bare], by rw [List.map_append]; rfl, fun d hd => ?_⟩
  rw [List.mem_singleton.mp hd, Chunk.bare_frozen]
  exact hc

theorem map_bare_last {t : Chunk ω} (marks : Marks) (ht : b.getLast? = some t) :
    (b.dropLast ++ [t.setMarks marks]).map Chunk.bare = b.map Chunk.bare := by
  obtain ⟨D, rfl⟩ := List.getLast?_eq_some_iff.mp ht
  rw [List.dropLast_concat, List.map_append, List.map_append, List.map_singleton,
    Chunk.bare_setMarks]
  rfl

theorem appendMarkAt_extends {m : ℤ} (h : appendMarkAt b m = some b') : Extends b b' := by
  rw [appendMarkAt_eq] at h
  obtain ⟨t, -, h⟩ := Option.bind_eq_some_iff.mp h
  obtain ⟨b₁, hb₁, h⟩ := Option.bind_eq_some_iff.mp h
  obtain ⟨t₁, ht₁, h⟩ := Option.bind_eq_some_iff.mp h
  obtain ⟨marks, -, h⟩ := Option.bind_eq_some_iff.mp h
  cases h
  have hlink : Extends b b₁ := by
    split at hb₁
    · exact link_extends rfl hb₁
    · cases hb₁
      exact Extends.refl b
  obtain ⟨new, heq, hnew⟩ := hlink
  exact ⟨new, (map_bare_last marks ht₁).trans heq, hnew⟩

theorem moveMarks_extends {len : ℕ} {ms l : List ℤ} (h : moveMarks len ms b = some (b', l)) :
    Extends b b' := by
  induction ms generalizing b l with
  | nil =>
    cases h
    exact Extends.refl _
  | cons m ms ih =>
    rw [moveMarks] at h
    split at h
    · obtain ⟨b₁, hmark, h⟩ := Option.bind_eq_some_iff.mp h
      obtain ⟨⟨b₂, l₂⟩, hmove, h⟩ := Option.bind_eq_some_iff.mp h
      cases h
      exact (appendMarkAt_extends hmark).trans (ih hmove)
    · obtain ⟨⟨b₂, l₂⟩, hmove, h⟩ := Option.bind_eq_some_iff.mp h
      cases h
      exact ih hmove

theorem addChunk_extends {tail : ℕ} (hc : c.frozen = false) (h : addChunk b tail c = some b') :
    Extends b b' := by
  obtain ⟨t, ht, h⟩ := Option.bind_eq_some_iff.mp h
  obtain ⟨b₁, hlink, h⟩ := Option.bind_eq_some_iff.mp h
  have hb₁ := link_extends hc hlink
  split at h
  · cases h
    exact hb₁
  · rename_i marks hmarks
    obtain ⟨⟨b₂, l⟩, hmove, h⟩ := Option.bind_eq_some_iff.mp h
    cases h
    obtain ⟨new, heq, hnew⟩ := hb₁.trans (moveMarks_extends hmove)
    refine ⟨new, ?_, hnew⟩
    have hget : (b.map Chunk.bare ++ new)[tail]? = some t.bare := by
      obtain ⟨hlt, -⟩ := List.getElem?_eq_some_iff.mp ht
      rw [List.getElem?_append_left (by rw [List.length_map]; exact hlt), List.getElem?_map, ht]
      rfl
    obtain ⟨hlt, hget⟩ := List.getElem?_eq_some_iff.mp hget
    rw [List.map_set, heq, Chunk.bare_setMarks, ← hget]
    exact List.set_getElem_self hlt
  · cases h

theorem cloneChunk_kind {c' : Chunk ω} (h : cloneChunk c = some c') :
    c'.frozen = false ∧ c'.isObject = c.isObject := by
  obtain ⟨frozen, offset, body⟩ := c
  cases body with
  | object obj =>
    cases h
    exact ⟨rfl, rfl⟩
  | data bytes marks toFree =>
    obtain ⟨marks', -, h⟩ := Option.bind_eq_some_iff.mp h
    cases h
    exact ⟨rfl, rfl⟩

theorem appendRawChunk_extends {raw : List UInt8} {e : Option Excpt} (hc : c.frozen = false)
    (h : appendRawChunk b raw c = some (b', e)) : Extends b b' := by
  unfold appendRawChunk at h
  split at h
  · cases h
    exact Extends.refl _
  · split at h
    · cases h
      exact Extends.refl _
    · obtain ⟨b₁, hadd, h⟩ := Option.bind_eq_some_iff.mp h
      cases h
      exact addChunk_extends hc hadd

theorem apply_extends {op : Op ω} {e : Option Excpt} (h : apply b op = some (b', e)) :
    Extends b b' := by
  cases op with
  | append other =>
    have h : append b other = some (b', e) := h
    unfold append at h
    split at h
    · cases h
      exact Extends.refl _
    · split at h
      · cases h
        exact Extends.refl _
      · split at h
        · cases h
          exact Extends.refl _
        · obtain ⟨⟨data, marks⟩, -, h⟩ := Option.bind_eq_some_iff.mp h
          obtain ⟨b₁, hadd, h⟩ := Option.bind_eq_some_iff.mp h
          cases h
          exact addChunk_extends rfl hadd
  | appendRaw raw => exact appendRawChunk_extends rfl h
  | appendRawCopy raw => exact appendRawChunk_extends rfl h
  | appendObject obj =>
    cases obj with
    | none =>
      cases h
      exact Extends.refl _
    | some obj =>
      obtain ⟨b₁, hobj, h⟩ := Option.bind_eq_some_iff.mp h
      obtain ⟨b₂, hadd, h⟩ := Option.bind_eq_some_iff.mp h
      cases h
      exact (addChunk_extends rfl hobj).trans (addChunk_extends rfl hadd)
  | appendMark =>
    obtain ⟨b₁, hmark, h⟩ := Option.bind_eq_some_iff.mp h
    cases h
    exact appendMarkAt_extends hmark

theorem cloneLoop_extends {cs dst : Bytes ω} {tail : ℕ} (h : cloneLoop cs dst tail = some b') :
    Extends dst b' := by
  induction cs generalizing dst tail with
  | nil =>
    cases h
    exact Extends.refl _
  | cons c cs ih =>
    obtain ⟨c', hc', h⟩ := Option.bind_eq_some_iff.mp h
    obtain ⟨dst', hadd, h⟩ := Option.bind_eq_some_iff.mp h
    have hfrozen : c'.frozen = false := (cloneChunk_kind hc').1
    exact (addChunk_extends hfrozen hadd).trans (ih h)

end

/-! ## The first chunk -/

/-- The first chunk holds data, and it is frozen if there is one that is. -/
structure Coherent (b : Bytes ω) : Prop where
  data : ∀ c ∈ b.head?, c.isObject = false
  unfrozen : isFrozen b = false → ∀ c ∈ b, c.frozen = false

theorem coherent_cons {c : Chunk ω} {cs : Bytes ω} : Coherent (c :: cs) ↔
    c.isObject = false ∧ (c.frozen = false → ∀ d ∈ cs, d.frozen = false) := by
  have hfrozen : isFrozen (c :: cs) = c.frozen := rfl
  constructor
  · intro h
    refine ⟨h.data c rfl, fun hc d hd => h.unfrozen (hfrozen.trans hc) d ?_⟩
    exact List.mem_cons_of_mem c hd
  · rintro ⟨hdata, hunfrozen⟩
    refine ⟨fun d hd => ?_, fun hb => List.forall_mem_cons.mpr ⟨?_, hunfrozen ?_⟩⟩
    · cases hd
      exact hdata
    · exact hfrozen.symm.trans hb
    · exact hfrozen.symm.trans hb

theorem Extends.coherent {b b' : Bytes ω} (h : Extends b b') (hne : b ≠ []) (hb : Coherent b) :
    Coherent b' := by
  obtain ⟨new, heq, hnew⟩ := h
  obtain ⟨c, cs, rfl⟩ := List.exists_cons_of_ne_nil hne
  rw [List.map_cons, List.cons_append, List.map_eq_cons_iff] at heq
  obtain ⟨c', cs', rfl, hc', hcs'⟩ := heq
  obtain ⟨hdata, hunfrozen⟩ := coherent_cons.mp hb
  refine coherent_cons.mpr ⟨?_, fun hfrozen d hd => ?_⟩
  · rw [← Chunk.bare_isObject, hc', Chunk.bare_isObject, hdata]
  · have hc : c.frozen = false := by
      rw [← Chunk.bare_frozen, ← hc', Chunk.bare_frozen, hfrozen]
    have hd : d.bare ∈ cs.map Chunk.bare ++ new := hcs' ▸ List.mem_map_of_mem hd
    rw [← Chunk.bare_frozen]
    rcases List.mem_append.mp hd with hd | hd
    · obtain ⟨d', hd', heq⟩ := List.mem_map.mp hd
      rw [← heq, Chunk.bare_frozen]
      exact hunfrozen hc d' hd'
    · exact hnew _ hd

theorem Chunk.trimmed_frozen (c : Chunk ω) (cur : ℕ) : (c.trimmed cur).frozen = c.frozen := by
  obtain ⟨frozen, offset, body⟩ := c
  cases body <;> rfl

theorem trimTo_coherent {b b' : Bytes ω} {i : Iter} (hb : Coherent b)
    (h : trimTo i b = some b') : Coherent b' := by
  match b, hb, h with
  | ⟨frozen, offset, .data bytes marks toFree⟩ :: cs, hb, h =>
    have hunfrozen := (coherent_cons.mp hb).2
    rw [trimTo] at h
    split at h
    · cases h
      exact coherent_cons.mpr ⟨rfl, hunfrozen⟩
    · split at h
      · rename_i c cs' hdrop
        cases h
        have hmem : ∀ d ∈ c :: cs', d ∈ cs := fun d hd => by
          rw [← hdrop] at hd
          exact List.mem_of_mem_drop hd
        refine coherent_cons.mpr ⟨rfl, fun hfrozen => List.forall_mem_cons.mpr ⟨?_, fun d hd => ?_⟩⟩
        · rw [Chunk.trimmed_frozen]
          exact hunfrozen hfrozen c (hmem c List.mem_cons_self)
        · exact hunfrozen hfrozen d (hmem d (List.mem_cons_of_mem c hd))
      · cases h
  | ⟨frozen, offset, .object obj⟩ :: cs, hb, h => cases h
  | [], hb, h => cases h

theorem made_coherent {b : Bytes ω} (h : Made b) : Coherent b := by
  induction h with
  | new data => exact coherent_cons.mpr ⟨rfl, fun _ d hd => by cases hd⟩
  | newReuse data => exact coherent_cons.mpr ⟨rfl, fun _ d hd => by cases hd⟩
  | apply op hmade happly ih =>
    exact (apply_extends happly).coherent (made_lastData hmade).ne_nil ih
  | @freeze b on hmade ih =>
    obtain ⟨c, cs, rfl⟩ := List.exists_cons_of_ne_nil (made_lastData hmade).ne_nil
    refine coherent_cons.mpr ⟨(coherent_cons.mp ih).1, fun hfrozen d hd => ?_⟩
    obtain ⟨d', -, rfl⟩ := List.mem_map.mp hd
    exact hfrozen
  | trim i _ htrim ih =>
    rw [trim] at htrim
    split at htrim
    · cases htrim
      exact ih
    · exact trimTo_coherent ih htrim
  | @clone b b' hmade hclone ih =>
    obtain ⟨c, cs, rfl⟩ := List.exists_cons_of_ne_nil (made_lastData hmade).ne_nil
    obtain ⟨c', hc', hloop⟩ := Option.bind_eq_some_iff.mp hclone
    refine (cloneLoop_extends hloop).coherent (List.cons_ne_nil _ _) (coherent_cons.mpr ⟨?_, ?_⟩)
    · exact (cloneChunk_kind hc').2.trans (coherent_cons.mp ih).1
    · exact fun _ d hd => by cases hd

end Hilti.Embedded
