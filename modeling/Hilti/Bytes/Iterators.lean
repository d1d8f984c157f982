import Hilti.Bytes.Chain

/-!
# Iterators

An iterator points to a position among all bytes written to its object.  As long as
the position has not been trimmed, normalising the iterator finds the chunk that
holds the byte there, or the end of the last chunk.
-/

namespace Hilti.Bytes

open Hilti.Lib

set_option autoImplicit false

/-- The iterator points to position `k` of the object. -/
def Points (x : Shape) (i : Iter) (k : ℕ) : Prop :=
  ∃ a d p, i.bytes = some a ∧ x.At a d p ∧ i.cur ≤ d.length ∧ k = p + i.cur

/-- The iterator points to position `k`, which has not been trimmed, in the chunk that
holds the byte there, or to the end of the last chunk. -/
structure Normal (H : Heap) (x : Shape) (i : Iter) (k : ℕ) (a : ℕ) (c : Chunk) (p : ℕ)
    (cs : Chunks) : Prop where
  spot : Spot H x a c p cs
  bytes_eq : i.bytes = some a
  pos_eq : k = p + i.cur
  le_pos : x.trimmed ≤ k
  cur : i.cur < c.data.length ∨ (cs = [] ∧ i.cur = c.data.length)

section

variable {H : Heap} {x : Shape} {i : Iter} {k a p : ℕ} {c : Chunk} {cs : Chunks}

theorem Normal.points (h : Normal H x i k a c p cs) : Points x i k :=
  ⟨a, c.data, p, h.bytes_eq, h.spot.at_self, h.cur.elim le_of_lt fun h => h.2.le, h.pos_eq⟩

theorem Normal.pos_lt_iff (h : Normal H x i k a c p cs) :
    k < x.written.length ↔ i.cur < c.data.length := by
  have hlen := h.spot.written_length
  have hpos := h.pos_eq
  rcases h.cur with hcur | ⟨rfl, hcur⟩
  · omega
  · simp only [bytesOf, List.map_nil, List.flatten_nil, List.length_nil] at hlen
    omega

theorem Normal.pos_le (h : Normal H x i k a c p cs) : k ≤ x.written.length := by
  have hlen := h.spot.written_length
  have hpos := h.pos_eq
  rcases h.cur with hcur | ⟨rfl, hcur⟩ <;> omega

theorem normalizeLoop_stop (hc : H.chunk a = some c) {cur : ℕ}
    (h : cur < c.data.length ∨ c.next = none) (fuel incr : ℕ) :
    normalizeLoop H (fuel + 1) a cur incr = some (⟨some a, cur⟩, incr) := by
  rw [normalizeLoop, hc]
  cases hnext : c.next with
  | none => simp [hnext]
  | some b =>
    have hlt : cur < c.data.length := h.resolve_right (by simp [hnext])
    simp [hnext, hlt]

theorem Normal.normalize (h : Normal H x i k a c p cs) (hrep : Rep H x) :
    normalizeIter H i = some i := by
  obtain ⟨fuel, hfuel⟩ : ∃ n, H.fresh = n + 1 := by
    have := h.spot.length_lt hrep
    exact ⟨H.fresh - 1, by omega⟩
  have hstop : i.cur < c.data.length ∨ c.next = none :=
    h.cur.imp id fun hc => by rw [h.spot.next_eq, hc.1]; rfl
  rw [normalizeIter, h.bytes_eq, hfuel]
  simp only [normalizeLoop_stop h.spot.chunk_eq hstop, Option.bind_eq_bind, Option.bind_some]
  rw [if_neg (by simp), ← h.bytes_eq]

theorem normalizeIter_spec (hrep : Rep H x) (hi : Points x i k) (hle : x.trimmed ≤ k) :
    ∃ i' a c p cs, normalizeIter H i = some i' ∧ Normal H x i' k a c p cs := by
  obtain ⟨a, d, p, hbytes, hat, hcur, hpos⟩ := hi
  obtain ⟨c, cs, rfl, hspot⟩ := hrep.spot hat (by omega)
  have hlen := hspot.length_lt hrep
  by_cases hnormal : i.cur < c.data.length ∨ (cs = [] ∧ i.cur = c.data.length)
  · have h : Normal H x i k a c p cs := ⟨hspot, hbytes, hpos, hle, hnormal⟩
    exact ⟨i, a, c, p, cs, h.normalize hrep, h⟩
  · obtain ⟨hge, hne⟩ := not_or.mp hnormal
    have hend : i.cur = c.data.length := by omega
    obtain ⟨e, l, rfl⟩ := List.exists_cons_of_ne_nil fun hnil => hne ⟨hnil, hend⟩
    have hnext := hspot.next
    have hpos' : 0 < e.2.length := List.length_pos_iff.mpr (hspot.ne_nil e (by simp))
    have h : Normal H x ⟨some e.1, 0⟩ k e.1 _ _ l :=
      ⟨hnext, rfl, by simpa [hend] using hpos, hle, .inl hpos'⟩
    obtain ⟨fuel, hfuel⟩ : ∃ n, H.fresh = n + 2 := by
      simp only [List.length_cons] at hlen
      exact ⟨H.fresh - 2, by omega⟩
    have hmove : normalizeLoop H (fuel + 2) a i.cur 0 = normalizeLoop H (fuel + 1) e.1 0 0 := by
      rw [normalizeLoop, hspot.chunk_eq]
      simp [hspot.next_eq, hend, hnext.chunk_eq]
    refine ⟨⟨some e.1, 0⟩, e.1, _, _, l, ?_, h⟩
    rw [normalizeIter, hbytes, hfuel]
    simp only [hmove, normalizeLoop_stop hnext.chunk_eq (.inl hpos'), Option.bind_eq_bind,
      Option.bind_some]
    rw [if_neg (by simp)]

/-! ## The functions on iterators -/

theorem Spot.tail_eq (h : Spot H x a c p cs) (hrep : Rep H x) : tail H a = some (lastOf a cs) :=
  tailLoop_spec h.chunk_eq h.next_eq h.follow (h.length_lt hrep)

theorem Normal.isEnd_eq (h : Normal H x i k a c p cs) (hrep : Rep H x) :
    isEnd H i = some (decide (k = x.written.length)) := by
  have hiff := h.pos_lt_iff
  have hle := h.pos_le
  have hlast : a = lastOf a cs ↔ cs = [] := by
    refine ⟨fun heq => ?_, fun heq => by rw [heq]; rfl⟩
    by_contra hne
    exact h.spot.not_mem_rest hrep (heq ▸ lastOf_mem a hne)
  simp only [isEnd, h.bytes_eq, h.spot.chunk_eq, h.spot.tail_eq hrep, Option.bind_eq_bind,
    Option.bind_some, Option.some.injEq, decide_eq_decide]
  rw [hlast]
  constructor
  · rintro ⟨-, hcur⟩
    omega
  · intro hk
    rcases h.cur with hcur | ⟨hnil, hcur⟩
    · omega
    · exact ⟨hnil, hcur.ge⟩

theorem iteratorIndex_spec (hrep : Rep H x) (hi : Points x i k) (hle : x.trimmed ≤ k) :
    iteratorIndex H i = some (k : ℤ) := by
  obtain ⟨i', a, c, p, cs, hnorm, h⟩ := normalizeIter_spec hrep hi hle
  have hcur : i'.cur ≤ c.data.length := h.cur.elim le_of_lt fun h => h.2.le
  simp only [iteratorIndex, hnorm, h.bytes_eq, h.spot.chunk_eq, Option.bind_eq_bind,
    Option.bind_some, Option.some.injEq, h.spot.offset_eq, h.pos_eq]
  omega

theorem iteratorDeref_spec (hrep : Rep H x) (hi : Points x i k) (hle : x.trimmed ≤ k) {b : UInt8}
    (hb : x.written[k]? = some b) : iteratorDeref H i = some (.ok b) := by
  obtain ⟨i', a, c, p, cs, hnorm, h⟩ := normalizeIter_spec hrep hi hle
  have hk : k < x.written.length := (List.getElem?_eq_some_iff.mp hb).1
  have hbyte := h.spot.getElem? (h.pos_lt_iff.mp hk)
  rw [← h.pos_eq, hb] at hbyte
  simp [iteratorDeref, hnorm, h.isEnd_eq hrep, hk.ne, h.bytes_eq, h.spot.chunk_eq, hbyte]

theorem iteratorDeref_end (hrep : Rep H x) (hi : Points x i k) (hle : x.trimmed ≤ k)
    (hk : x.written[k]? = none) : iteratorDeref H i = some (.error .valueError) := by
  obtain ⟨i', a, c, p, cs, hnorm, h⟩ := normalizeIter_spec hrep hi hle
  have hend : k = x.written.length := le_antisymm h.pos_le (List.getElem?_eq_none_iff.mp hk)
  simp [iteratorDeref, hnorm, h.isEnd_eq hrep, hend]

theorem iteratorIncr_spec (hrep : Rep H x) (hi : Points x i k) (hle : x.trimmed ≤ k) :
    ∃ i', iteratorIncr H i = some i' ∧ Points x i' (min (k + 1) x.written.length) := by
  obtain ⟨i', a, c, p, cs, hnorm, h⟩ := normalizeIter_spec hrep hi hle
  have hend := h.isEnd_eq hrep
  have hlen := h.spot.written_length
  by_cases hk : k < x.written.length
  · have hcur := h.pos_lt_iff.mp hk
    have hpos := h.pos_eq
    by_cases hsame : i'.cur + 1 < c.data.length
    · refine ⟨⟨some a, i'.cur + 1⟩, ?_, a, c.data, p, rfl, h.spot.at_self, hsame.le, ?_⟩
      · simp [iteratorIncr, hnorm, hend, hk.ne, h.bytes_eq, h.spot.chunk_eq, hsame]
      · simp only
        omega
    · cases cs with
      | nil =>
        refine ⟨⟨some a, c.data.length⟩, ?_, a, c.data, p, rfl, h.spot.at_self, le_rfl, ?_⟩
        · simp [iteratorIncr, hnorm, hend, hk.ne, h.bytes_eq, h.spot.chunk_eq, hsame, h.spot.next_eq]
        · simp only [bytesOf, List.map_nil, List.flatten_nil, List.length_nil] at hlen ⊢
          omega
      | cons e l =>
        have hnext := h.spot.next
        refine ⟨⟨some e.1, 0⟩, ?_, e.1, e.2, p + c.data.length, rfl, hnext.at_self, by simp, ?_⟩
        · simp [iteratorIncr, hnorm, hend, hk.ne, h.bytes_eq, h.spot.chunk_eq, hsame,
            h.spot.next_eq, hnext.chunk_eq]
        · simp only
          omega
  · have hk' : k = x.written.length := le_antisymm h.pos_le (not_lt.mp hk)
    refine ⟨i', by simp [iteratorIncr, hnorm, hend, hk'], ?_⟩
    rw [hk', min_eq_right (Nat.le_succ _), ← hk']
    exact h.points

theorem iteratorEq_end (hrep : Rep H x) (hi : Points x i k) (hle : x.trimmed ≤ k) {stop : Iter}
    (hstop : Points x stop x.written.length) :
    iteratorEq H i stop = some (decide (k = x.written.length)) := by
  have hle' : x.trimmed ≤ x.written.length := by
    rcases hrep.trimmed_lt with h | h <;> omega
  obtain ⟨i', a, c, p, cs, hnorm, h⟩ := normalizeIter_spec hrep hi hle
  obtain ⟨stop', a', c', p', cs', hnorm', h'⟩ := normalizeIter_spec hrep hstop hle'
  have hend := h.isEnd_eq hrep
  have hend' := h'.isEnd_eq hrep
  by_cases hk : k = x.written.length
  · simp [iteratorEq, hnorm, hnorm', hend, hend', hk]
  · have hne : i' ≠ stop' := by
      rintro rfl
      simp [hend, hk] at hend'
    simp [iteratorEq, hnorm, hnorm', hend, hend', hk, hne]

theorem Spot.trichotomy (h : Spot H x a c p cs) {a' p' : ℕ} {d : List UInt8} (hat : x.At a' d p') :
    (a' = a ∧ d = c.data ∧ p' = p) ∨
      (∃ m r, cs = m ++ (a', d) :: r ∧ p' = p + c.data.length + (bytesOf m).length) ∨
      p' + d.length ≤ p := by
  rcases h.place with ⟨rfl, hd, rfl, heq⟩ | ⟨l, heq, rfl⟩
  · rcases hat with ⟨rfl, rfl, rfl⟩ | ⟨l₁, l₂, heq', rfl⟩
    · exact .inl ⟨rfl, hd.symm, rfl⟩
    · exact .inr (.inl ⟨l₁, l₂, heq.symm.trans heq', by rw [hd, Nat.zero_add]⟩)
  · rcases hat with ⟨rfl, rfl, rfl⟩ | ⟨l₁, l₂, heq', rfl⟩
    · exact .inr (.inr (by omega))
    · rw [heq] at heq'
      rcases List.append_eq_append_iff.mp heq' with ⟨m, hm, hm'⟩ | ⟨m, hm, hm'⟩
      · cases m with
        | nil =>
          obtain ⟨he, -⟩ := List.cons.inj hm'
          obtain ⟨rfl, rfl⟩ := Prod.mk.inj he
          exact .inl ⟨rfl, rfl, by rw [hm, List.append_nil]⟩
        | cons e m =>
          obtain ⟨rfl, hcs⟩ := List.cons.inj hm'
          refine .inr (.inl ⟨m, l₂, hcs, ?_⟩)
          rw [hm, bytesOf_append, bytesOf_cons, List.length_append, List.length_append]
          simp only
          omega
      · cases m with
        | nil =>
          obtain ⟨he, -⟩ := List.cons.inj hm'
          obtain ⟨rfl, rfl⟩ := Prod.mk.inj he
          exact .inl ⟨rfl, rfl, by rw [hm, List.append_nil]⟩
        | cons e m =>
          obtain ⟨rfl, -⟩ := List.cons.inj hm'
          refine .inr (.inr ?_)
          rw [hm, bytesOf_append, bytesOf_cons, List.length_append, List.length_append]
          simp only
          omega

end

end Hilti.Bytes
