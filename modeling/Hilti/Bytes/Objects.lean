import Hilti.Bytes.Iterators

/-!
# Operations on one object

What the operations do to the chunks of an object, and what they read from them.
-/

namespace Hilti.Bytes

open Hilti.Lib

set_option autoImplicit false

section

variable {H : Heap} {x : Shape} {i : Iter} {k a p : ℕ} {c : Chunk} {cs : Chunks}

/-! ## Reading from a chunk on -/

theorem Spot.copy_eq (h : Spot H x a c p cs) {fuel : ℕ} (hf : cs.length < fuel) :
    copyLoop H fuel (some a) = some (c.data.drop c.start ++ bytesOf cs) := by
  obtain ⟨fuel, rfl⟩ : ∃ n, fuel = n + 1 := ⟨fuel - 1, by omega⟩
  have hrest := copyLoop_spec h.follow (show cs.length ≤ fuel by omega)
  simp [copyLoop, h.chunk_eq, h.next_eq, hrest]

theorem Spot.len_eq (h : Spot H x a c p cs) {fuel : ℕ} (hf : cs.length < fuel) :
    lenLoop H fuel (some a) = some ((c.data.length - c.start : ℤ) + (bytesOf cs).length) := by
  obtain ⟨fuel, rfl⟩ : ∃ n, fuel = n + 1 := ⟨fuel - 1, by omega⟩
  have hrest := lenLoop_spec h.follow (show cs.length ≤ fuel by omega)
  simp [lenLoop, h.chunk_eq, h.next_eq, hrest]

theorem Spot.content_eq (h : Spot H x a c p cs) (hle : p ≤ x.trimmed) :
    x.written.drop x.trimmed = c.data.drop (x.trimmed - p) ++ bytesOf cs := by
  obtain ⟨pre, hwritten, hpre⟩ := h.written_eq
  have htrim := h.trimmed_le
  rw [hwritten, List.drop_append, List.drop_of_length_le (by omega), List.nil_append,
    List.drop_append_of_le_length (by omega), hpre]

theorem Rep.entry (h : Rep H x) :
    (∃ c, Spot H x x.first c 0 x.rest ∧ c.start = x.trimmed) ∨
      ∃ c e c' p l, H.chunk x.first = some c ∧ c.next = some e ∧ c.start = c.data.length ∧
        Spot H x e c' p l ∧ p ≤ x.trimmed ∧ x.trimmed < p + c'.data.length ∧
        l.length + 1 < H.fresh := by
  rcases Nat.lt_or_ge x.data.length x.trimmed with hlt | hge
  · right
    cases hlive : liveFrom x.trimmed x.data.length x.rest with
    | nil =>
      have hrest := h.live_eq_nil hlive
      rcases h.trimmed_lt with htrim | htrim
      · simp only [Shape.written, hrest, bytesOf, List.map_nil, List.flatten_nil,
          List.append_nil] at htrim
        omega
      · omega
    | cons e l =>
      obtain ⟨dead, heq, hdead, hhead⟩ := liveFrom_split x.trimmed x.data.length x.rest
      rw [hlive] at heq
      have hlt' := hhead e l hlive
      have hle : x.data.length + (bytesOf dead).length ≤ x.trimmed := by
        cases dead with
        | nil =>
          simp only [bytesOf, List.map_nil, List.flatten_nil, List.length_nil]
          omega
        | cons e' dead => exact hdead (by simp)
      obtain ⟨c', hdata, hspot⟩ := h.spot_rest (show x.rest = dead ++ (e.1, e.2) :: l from heq)
        hlt'.le
      have hsize := h.size_lt
      rw [heq, List.length_append, List.length_cons] at hsize
      refine ⟨_, e.1, c', _, l, h.first_eq, by rw [hlive]; rfl, min_eq_right hlt.le, hspot, hle, ?_,
        by omega⟩
      rw [hdata]
      exact hlt'
  · obtain ⟨c, -, hstart, hspot⟩ := h.spot_first hge
    exact .inl ⟨c, hspot, hstart⟩

theorem Rep.copy_eq (h : Rep H x) :
    copyLoop H H.fresh (some x.first) = some (x.written.drop x.trimmed) := by
  rcases h.entry with ⟨c, hspot, hstart⟩ | ⟨c, e, c', p, l, hc, hnext, hstart, hspot, hp, hlt, hl⟩
  · rw [hspot.copy_eq (hspot.length_lt h), hspot.content_eq (Nat.zero_le _), hstart, Nat.sub_zero]
  · obtain ⟨fuel, hfuel⟩ : ∃ n, H.fresh = n + 1 := ⟨H.fresh - 1, by omega⟩
    have hrest := hspot.copy_eq (show l.length < fuel by omega)
    rw [hspot.content_eq hp, ← hspot.start_eq hlt]
    simp [hfuel, copyLoop, hc, hnext, hstart, hrest]

theorem Rep.len_eq (h : Rep H x) :
    bytesLen H x.first = some ((x.written.drop x.trimmed).length : ℤ) := by
  unfold bytesLen
  rcases h.entry with ⟨c, hspot, hstart⟩ | ⟨c, e, c', p, l, hc, hnext, hstart, hspot, hp, hlt, hl⟩
  · have hle := hspot.start_le
    rw [hspot.len_eq (hspot.length_lt h), hspot.content_eq (Nat.zero_le _), List.length_append,
      List.length_drop, Option.some.injEq]
    omega
  · obtain ⟨fuel, hfuel⟩ : ∃ n, H.fresh = n + 1 := ⟨H.fresh - 1, by omega⟩
    have hrest := hspot.len_eq (show l.length < fuel by omega)
    have hle := hspot.start_le
    have hs := hspot.start_eq hlt
    rw [hspot.content_eq hp, List.length_append, List.length_drop]
    simp only [hfuel, lenLoop, hc, hnext, hstart, hrest, Option.bind_eq_bind, Option.bind_some,
      Option.some.injEq]
    omega

theorem lastOf_append (b : ℕ) (m l : Chunks) (e : ℕ × List UInt8) :
    lastOf b (m ++ e :: l) = lastOf e.1 l := by
  induction m generalizing b with
  | nil => rfl
  | cons e' m ih => exact ih e'.1

theorem Spot.lastOf_eq (h : Spot H x a c p cs) : lastOf a cs = lastOf x.first x.rest := by
  rcases h.place with ⟨rfl, -, -, rfl⟩ | ⟨l, heq, -⟩
  · rfl
  · rw [heq, lastOf_append]

theorem Rep.tail_eq (h : Rep H x) : tail H x.first = some (lastOf x.first x.rest) := by
  rcases h.entry with ⟨c, hspot, hstart⟩ | ⟨c, e, c', p, l, hc, hnext, hstart, hspot, hp, hlt, hl⟩
  · exact hspot.tail_eq h
  · obtain ⟨fuel, hfuel⟩ : ∃ n, H.fresh = n + 1 := ⟨H.fresh - 1, by omega⟩
    have hrest := tailLoop_spec hspot.chunk_eq hspot.next_eq hspot.follow
      (show l.length < fuel by omega)
    simp [tail, hfuel, tailLoop, hc, hnext, hrest, hspot.lastOf_eq]

theorem Rep.trimmed_le (h : Rep H x) : x.trimmed ≤ x.written.length := by
  rcases h.trimmed_lt with h | h <;> omega

theorem Rep.last (h : Rep H x) : ∃ c p, Spot H x (lastOf x.first x.rest) c p [] := by
  have hle := h.trimmed_le
  rcases List.eq_nil_or_concat x.rest with hnil | ⟨l, ⟨z, d⟩, heq⟩
  · have hle' : x.trimmed ≤ x.data.length := by
      simpa [Shape.written, hnil, bytesOf] using hle
    obtain ⟨c, -, -, hspot⟩ := h.spot_first hle'
    rw [hnil] at hspot
    exact ⟨c, 0, by rw [hnil]; exact hspot⟩
  · rw [List.concat_eq_append] at heq
    obtain ⟨c, -, hspot⟩ := h.spot_rest heq (by
      rw [Shape.written, heq, List.length_append, bytesOf_concat_length] at hle
      simp only at hle
      omega)
    exact ⟨c, _, by rw [heq, lastOf_append]; exact hspot⟩

/-! ## Begin and end -/

theorem bytesEnd_normal (h : Rep H x) :
    ∃ i a c p cs, bytesEnd H x.first = some i ∧ Normal H x i x.written.length a c p cs := by
  obtain ⟨c, p, hspot⟩ := h.last
  refine ⟨⟨some (lastOf x.first x.rest), c.data.length⟩, _, c, p, [], ?_, ⟨hspot, rfl, ?_,
    h.trimmed_le, .inr ⟨rfl, rfl⟩⟩⟩
  · simp [bytesEnd, h.tail_eq, hspot.chunk_eq]
  · rw [hspot.written_length]
    simp [bytesOf]

theorem bytesEnd_spec (h : Rep H x) :
    ∃ i, bytesEnd H x.first = some i ∧ Points x i x.written.length := by
  obtain ⟨i, a, c, p, cs, hi, hnormal⟩ := bytesEnd_normal h
  exact ⟨i, hi, hnormal.points⟩

theorem isEmptyLoop_of_lt {a : ℕ} {c : Chunk} (hc : H.chunk a = some c)
    (hlt : c.start < c.data.length) (fuel : ℕ) : isEmptyLoop H (fuel + 1) (some a) = some false := by
  simp [isEmptyLoop, hc, hlt.ne]

theorem Rep.isEmpty_eq (h : Rep H x) :
    isEmpty H x.first = some (decide (x.written.drop x.trimmed = [])) := by
  unfold isEmpty
  rcases h.entry with ⟨c, hspot, hstart⟩ | ⟨c, e, c', p, l, hc, hnext, hstart, hspot, hp, hlt, hl⟩
  · have hlen := hspot.length_lt h
    rw [hspot.content_eq (Nat.zero_le _), ← hstart, Nat.sub_zero]
    rcases hspot.start_le.lt_or_eq with hlt | heq
    · obtain ⟨fuel, hfuel⟩ : ∃ n, H.fresh = n + 1 := ⟨H.fresh - 1, by omega⟩
      have hne : c.data.drop c.start ≠ [] := by simp [hlt]
      rw [hfuel, isEmptyLoop_of_lt hspot.chunk_eq hlt]
      simp [hne]
    · rw [heq, List.drop_length, List.nil_append]
      cases hrest : x.rest with
      | nil =>
        obtain ⟨fuel, hfuel⟩ : ∃ n, H.fresh = n + 1 := ⟨H.fresh - 1, by omega⟩
        simp [hfuel, isEmptyLoop, hspot.chunk_eq, heq, hspot.next_eq, hrest, bytesOf]
      | cons e l =>
        rw [hrest] at hspot hlen
        simp only [List.length_cons] at hlen
        obtain ⟨fuel, hfuel⟩ : ∃ n, H.fresh = n + 2 := ⟨H.fresh - 2, by omega⟩
        have hne : e.2 ≠ [] := hspot.ne_nil e (by simp)
        have hrest' := isEmptyLoop_of_lt hspot.next.chunk_eq (List.length_pos_iff.mpr hne) fuel
        simp [hfuel, isEmptyLoop, hspot.chunk_eq, heq, hspot.next_eq, bytesOf_cons, hne] at hrest' ⊢
        exact hrest'
  · -- the first chunk has been emptied
    obtain ⟨fuel, hfuel⟩ : ∃ n, H.fresh = n + 2 := ⟨H.fresh - 2, by omega⟩
    have hs := hspot.start_eq hlt
    have hne : x.written.drop x.trimmed ≠ [] := by
      rw [hspot.content_eq hp]
      simp only [ne_eq, List.append_eq_nil_iff, List.drop_eq_nil_iff, not_and]
      intro hle
      omega
    rw [hfuel, isEmptyLoop, hc]
    simp only [Option.bind_eq_bind, Option.bind_some, hstart, ne_eq, not_true_eq_false, if_false,
      hnext, isEmptyLoop_of_lt hspot.chunk_eq (show c'.start < c'.data.length by omega) fuel]
    simp [hne]

theorem bytesBegin_normal (h : Rep H x) :
    ∃ i a c p cs, bytesBegin H x.first = some i ∧ Normal H x i x.trimmed a c p cs := by
  have hempty := h.isEmpty_eq
  by_cases hnil : x.written.drop x.trimmed = []
  · obtain ⟨i, a, c, p, cs, hi, hnormal⟩ := bytesEnd_normal h
    have htrim : x.trimmed = x.written.length :=
      le_antisymm h.trimmed_le (List.drop_eq_nil_iff.mp hnil)
    refine ⟨i, a, c, p, cs, by simp [bytesBegin, hempty, hnil, hi], ?_⟩
    rw [htrim]
    exact hnormal
  rcases h.entry with ⟨c, hspot, hstart⟩ | ⟨c, e, c', p, l, hc, hnext, hstart, hspot, hp, hlt, hl⟩
  · have hpoints : Points x ⟨some x.first, c.start⟩ x.trimmed :=
      ⟨x.first, c.data, 0, rfl, hspot.at_self, hspot.start_le, by simp [hstart]⟩
    obtain ⟨i, a, c', p, cs, hnorm, hnormal⟩ := normalizeIter_spec h hpoints le_rfl
    exact ⟨i, a, c', p, cs, by simp [bytesBegin, hempty, hnil, hspot.chunk_eq, hnorm], hnormal⟩
  · -- the first chunk has been emptied
    obtain ⟨fuel, hfuel⟩ : ∃ n, H.fresh = n + 2 := ⟨H.fresh - 2, by omega⟩
    have hs := hspot.start_eq hlt
    have hlt' : c'.start < c'.data.length := by omega
    have hnorm : normalizeIter H ⟨some x.first, c.start⟩ = some ⟨some e, c'.start⟩ := by
      have hmove : normalizeLoop H (fuel + 2) x.first c.start 0 =
          normalizeLoop H (fuel + 1) e c'.start 0 := by
        rw [normalizeLoop, hc]
        simp [hnext, hstart, hspot.chunk_eq]
      rw [normalizeIter, hfuel]
      simp only [hmove, normalizeLoop_stop hspot.chunk_eq (.inl hlt'), Option.bind_eq_bind,
        Option.bind_some]
      rw [if_neg (by simp)]
    refine ⟨⟨some e, c'.start⟩, e, c', p, l, by simp [bytesBegin, hempty, hnil, hc, hnorm],
      ⟨hspot, rfl, ?_, le_rfl, .inl hlt'⟩⟩
    simp only
    omega

theorem bytesBegin_spec (h : Rep H x) :
    ∃ i, bytesBegin H x.first = some i ∧ Points x i x.trimmed := by
  obtain ⟨i, a, c, p, cs, hi, hnormal⟩ := bytesBegin_normal h
  exact ⟨i, hi, hnormal.points⟩

/-! ## Reading byte by byte -/

theorem readLoop_spec (h : Rep H x) {stop : Iter} (hstop : Points x stop x.written.length)
    (fuel : ℕ) : ∀ (i : Iter) (k : ℕ), Points x i k → x.trimmed ≤ k → k ≤ x.written.length →
      x.written.length - k < fuel → readLoop H stop fuel i = some (x.written.drop k) := by
  induction fuel with
  | zero => intro i k _ _ _ hf; omega
  | succ fuel ih =>
    intro i k hi hle hk hf
    have heq := iteratorEq_end h hi hle hstop
    rcases hk.lt_or_eq with hlt | rfl
    · have hbyte := List.getElem?_eq_getElem hlt
      have hderef := iteratorDeref_spec h hi hle hbyte
      obtain ⟨i', hincr, hi'⟩ := iteratorIncr_spec h hi hle
      rw [min_eq_left (by omega)] at hi'
      have hrest := ih i' (k + 1) hi' (by omega) (by omega) (by omega)
      simp only [readLoop, heq, hlt.ne, decide_false, hderef, hincr, hrest, Option.bind_eq_bind,
        Option.bind_some, Bool.false_eq_true, if_false]
      rw [List.drop_eq_getElem_cons hlt]
    · simp [readLoop, heq]

theorem readBytes_spec (h : Rep H x) {fuel : ℕ} (hf : (x.written.drop x.trimmed).length < fuel) :
    readBytes H fuel x.first = some (x.written.drop x.trimmed) := by
  obtain ⟨i, hbegin, hi⟩ := bytesBegin_spec h
  obtain ⟨stop, hend, hstop⟩ := bytesEnd_spec h
  have hread := readLoop_spec h hstop fuel i x.trimmed hi le_rfl h.trimmed_le
    (by simpa using hf)
  simp [readBytes, hbegin, hend, hread]

/-! ## Slices -/

theorem iteratorDiff_spec (hrep : Rep H x) {i' : Iter} {k' a' p' : ℕ} {c' : Chunk} {cs' : Chunks}
    (h : Normal H x i k a c p cs) (h' : Normal H x i' k' a' c' p' cs') :
    iteratorDiff H i i' = some ((k' - k : ℕ) : ℤ) := by
  have hend := h.isEnd_eq hrep
  have hend' := h'.isEnd_eq hrep
  have hle := h.pos_le
  have hle' := h'.pos_le
  by_cases hk : k = x.written.length
  · simp only [iteratorDiff, hend, hk, decide_true, Option.bind_eq_bind, Option.bind_some, if_true,
      Option.some.injEq]
    omega
  · by_cases hk' : k' = x.written.length
    · have hlen := h.spot.len_eq (h.spot.length_lt hrep)
      have hcur := h.pos_lt_iff.mp (by omega)
      have hwritten := h.spot.written_length
      have hstart := h.spot.start_le
      have hpos := h.pos_eq
      simp only [iteratorDiff, hend, hend', hk, hk', decide_true, decide_false, Option.bind_eq_bind,
        Option.bind_some, Bool.false_eq_true, if_false, if_true, h.bytes_eq, h.spot.chunk_eq,
        bytesLen, hlen, Option.some.injEq]
      omega
    · have hi := iteratorIndex_spec hrep h.points h.le_pos
      have hi' := iteratorIndex_spec hrep h'.points h'.le_pos
      simp only [iteratorDiff, hend, hend', hk, hk', decide_false, Option.bind_eq_bind,
        Option.bind_some, Bool.false_eq_true, if_false, hi, hi', Option.some.injEq]
      omega

theorem subLoop_end {q : ℕ} (i' : Iter) (h : Follow H (untrimmed q cs)) {fuel room : ℕ}
    (hf : cs.length ≤ fuel) (hroom : (bytesOf cs).length ≤ room) :
    subLoop H i' true fuel (addrOf cs) room = some (.ok (bytesOf cs)) := by
  induction cs generalizing q fuel room with
  | nil => cases fuel <;> rfl
  | cons e l ih =>
    obtain ⟨fuel, rfl⟩ : ∃ n, fuel = n + 1 := ⟨fuel - 1, by simp at hf; omega⟩
    rw [bytesOf_cons, List.length_append] at hroom
    have hrest := ih h.2.2 (show l.length ≤ fuel by simpa using hf)
      (show (bytesOf l).length ≤ room - e.2.length by omega)
    have htake : e.2.take room = e.2 := List.take_of_length_le (by omega)
    have hmin : min room e.2.length = e.2.length := min_eq_right (by omega)
    rw [addrOf_cons, subLoop, h.1]
    simp [htake, hmin, hrest, bytesOf_cons, Except.map]

theorem subLoop_chunk {q a' cur : ℕ} {d : List UInt8} {m r : Chunks}
    (h : Follow H (untrimmed q (m ++ (a', d) :: r))) (hm : a' ∉ m.map Prod.fst) {fuel room : ℕ}
    (hf : m.length < fuel) (hroom : (bytesOf m).length + cur ≤ room) :
    subLoop H ⟨some a', cur⟩ false fuel (addrOf (m ++ (a', d) :: r)) room =
      some (.ok (bytesOf m ++ d.take cur)) := by
  induction m generalizing q fuel room with
  | nil =>
    obtain ⟨fuel, rfl⟩ : ∃ n, fuel = n + 1 := ⟨fuel - 1, by simp at hf; omega⟩
    have htake : (d.take cur).take room = d.take cur := by
      refine List.take_of_length_le ?_
      simp only [List.length_take]
      omega
    rw [List.nil_append, addrOf_cons, subLoop, h.1]
    simp [htake, bytesOf]
  | cons e m ih =>
    obtain ⟨fuel, rfl⟩ : ∃ n, fuel = n + 1 := ⟨fuel - 1, by simp at hf; omega⟩
    rw [bytesOf_cons, List.length_append] at hroom
    have hne : e.1 ≠ a' := fun heq => hm (by simp [heq])
    have hrest := ih h.2.2 (fun hmem => hm (by simp [hmem])) (show m.length < fuel by simpa using hf)
      (show (bytesOf m).length + cur ≤ room - e.2.length by omega)
    have htake : e.2.take room = e.2 := List.take_of_length_le (by omega)
    have hmin : min room e.2.length = e.2.length := min_eq_right (by omega)
    rw [List.cons_append, addrOf_cons, subLoop, h.1]
    simp [hne, htake, hmin, hrest, bytesOf_cons, Except.map]

theorem Spot.drop_eq (h : Spot H x a c p cs) {cur : ℕ} (hcur : cur ≤ c.data.length) :
    x.written.drop (p + cur) = c.data.drop cur ++ bytesOf cs := by
  obtain ⟨pre, hwritten, hpre⟩ := h.written_eq
  rw [hwritten, List.drop_append, List.drop_of_length_le (by omega), List.nil_append,
    List.drop_append_of_le_length (by omega), hpre]
  congr 2
  omega

theorem Spot.nodup_rest (h : Spot H x a c p cs) (hrep : Rep H x) : (cs.map Prod.fst).Nodup := by
  have hnodup := hrep.nodup
  obtain ⟨l, heq, -⟩ := h.rest_eq
  rw [Shape.addrs, heq, List.map_append, List.nodup_cons, List.nodup_append] at hnodup
  exact hnodup.2.2.1

theorem Spot.sub_eq (h : Spot H x a c p cs) {m r : Chunks} {a' cur cur' : ℕ} {d : List UInt8}
    (hcs : cs = m ++ (a', d) :: r) (hcur : cur ≤ c.data.length) (hcur' : cur' ≤ d.length) :
    c.data.drop cur ++ (bytesOf m ++ d.take cur') = (x.written.drop (p + cur)).take
      (c.data.length - cur + (bytesOf m).length + cur') := by
  have hsplit : x.written.drop (p + cur) =
      (c.data.drop cur ++ (bytesOf m ++ d.take cur')) ++ (d.drop cur' ++ bytesOf r) := by
    rw [h.drop_eq hcur, hcs, bytesOf_append, bytesOf_cons]
    simp only [List.append_assoc]
    rw [← List.append_assoc (d.take cur'), List.take_append_drop]
  rw [hsplit, List.take_left']
  simp only [List.length_append, List.length_drop, List.length_take]
  omega

theorem subRawInternal_spec (hrep : Rep H x) {i' : Iter} {k' a' p' : ℕ} {c' : Chunk} {cs' : Chunks}
    (h : Normal H x i k a c p cs) (h' : Normal H x i' k' a' c' p' cs') (hlt : k < k') :
    subRawInternal H (k' - k) i i' = some (.ok ((x.written.drop k).take (k' - k))) := by
  have hend := h.isEnd_eq hrep
  have hend' := h'.isEnd_eq hrep
  have hle' := h'.pos_le
  have hk : k ≠ x.written.length := by omega
  have hcur := h.pos_lt_iff.mp (by omega)
  have hcur' : i'.cur ≤ c'.data.length := h'.cur.elim le_of_lt fun h => h.2.le
  have hpos := h.pos_eq
  have hpos' := h'.pos_eq
  have hdrop : x.written.drop k = c.data.drop i.cur ++ bytesOf cs := by
    rw [hpos, h.spot.drop_eq hcur.le]
  have hstep : subRawInternal H (k' - k) i i' =
      if a = a' then some (.ok (((c.data.take i'.cur).drop i.cur).take (k' - k)))
      else (subLoop H i' (decide (k' = x.written.length)) H.fresh (addrOf cs)
        (k' - k - ((c.data.drop i.cur).take (k' - k)).length)).bind fun rest =>
          some (rest.map fun rest => (c.data.drop i.cur).take (k' - k) ++ rest) := by
    simp only [subRawInternal, hend, hk, decide_false, Option.bind_eq_bind, Option.bind_some,
      Bool.false_eq_true, if_false, h.bytes_eq, h'.bytes_eq, h.spot.chunk_eq, h.spot.next_eq, hend',
      Option.some.injEq]
  rw [hstep]
  rcases h.spot.trichotomy h'.spot.at_self with ⟨rfl, hd, rfl⟩ | ⟨m, r, hcs, hp'⟩ | hbefore
  · -- both positions lie in one chunk
    rw [if_pos rfl, hdrop, List.drop_take, List.take_take, List.take_append_of_le_length]
    · congr 3
      omega
    · rw [List.length_drop]
      rw [hd] at hcur'
      omega
  · have hne : a ≠ a' := by
      rintro rfl
      exact h.spot.not_mem_rest hrep (by simp [hcs])
    have hout : (c.data.drop i.cur).take (k' - k) = c.data.drop i.cur := by
      refine List.take_of_length_le ?_
      rw [List.length_drop]
      omega
    have hsize := h.spot.length_lt hrep
    rw [if_neg hne, hout, List.length_drop]
    by_cases hk' : k' = x.written.length
    · have hwritten := h.spot.written_length
      have hloop := subLoop_end i' h.spot.follow hsize.le
        (show (bytesOf cs).length ≤ k' - k - (c.data.length - i.cur) by omega)
      have hall : (x.written.drop k).take (k' - k) = x.written.drop k := by
        refine List.take_of_length_le ?_
        rw [List.length_drop]
        omega
      simp only [hk', decide_true] at hloop ⊢
      rw [hloop, ← hk', hall, hdrop]
      rfl
    · have hnodup := h.spot.nodup_rest hrep
      have hfollow := h.spot.follow
      rw [hcs, List.map_append, List.nodup_append] at hnodup
      rw [hcs] at hfollow hsize
      have hm : a' ∉ m.map Prod.fst := fun hmem => hnodup.2.2 a' hmem a' (by simp) rfl
      have hloop := subLoop_chunk hfollow hm
        (show m.length < H.fresh by rw [List.length_append] at hsize; omega)
        (show (bytesOf m).length + i'.cur ≤ k' - k - (c.data.length - i.cur) by omega)
      have hi' : i' = ⟨some a', i'.cur⟩ := by rw [← h'.bytes_eq]
      rw [← hi', ← hcs] at hloop
      simp only [hk', decide_false]
      rw [hloop, Option.bind_some]
      have hsub := h.spot.sub_eq hcs hcur.le hcur'
      rw [show c.data.length - i.cur + (bytesOf m).length + i'.cur = k' - k by omega, ← hpos] at hsub
      rw [← hsub]
      rfl
  · omega

theorem bytesSub_spec (hrep : Rep H x) {i' : Iter} {k' : ℕ} (hi : Points x i k)
    (hi' : Points x i' k') (hle : x.trimmed ≤ k) (hle' : x.trimmed ≤ k') :
    bytesSub H i i' = some (.ok (bytesNew H ((x.written.drop k).take (k' - k)))) := by
  obtain ⟨n, a, c, p, cs, hnorm, h⟩ := normalizeIter_spec hrep hi hle
  obtain ⟨n', a', c', p', cs', hnorm', h'⟩ := normalizeIter_spec hrep hi' hle'
  have hdiff := iteratorDiff_spec hrep h h'
  have hpos := h'.pos_le
  rcases Nat.lt_or_ge k k' with hlt | hge
  · have hraw := subRawInternal_spec hrep h h' hlt
    have hlen : ((x.written.drop k).take (k' - k)).length = k' - k := by
      rw [List.length_take, List.length_drop]
      omega
    have hne : ((k' - k : ℕ) : ℤ) ≠ 0 := by omega
    simp only [bytesSub, hnorm, hnorm', hdiff, Option.bind_eq_bind, Option.bind_some, if_neg hne,
      Int.toNat_natCast, hraw, hlen, if_true]
  · have hzero : k' - k = 0 := by omega
    simp [bytesSub, hnorm, hnorm', hdiff, hzero]

/-! ## Trimming -/

theorem Linked.retrim {t t' p : ℕ} {cs : Chunks} (h : Linked H t p cs) (hle : t ≤ p)
    (hle' : t' ≤ p) : Linked H t' p cs := by
  induction cs generalizing p with
  | nil => trivial
  | cons e cs ih =>
    obtain ⟨⟨start, hstart, hchunk, htrim⟩, hne, hrest⟩ := h
    have hpos := List.length_pos_iff.mpr hne
    refine ⟨⟨start, hstart, hchunk, fun _ => ?_⟩, hne, ih hrest (by omega) (by omega)⟩
    rw [htrim (by omega)]
    omega

theorem Linked.trim {H' : Heap} {t q k a : ℕ} {d : List UInt8} {l cs : Chunks}
    (h : Linked H t q (l ++ (a, d) :: cs)) (hframe : ∀ b, b ∈ (l ++ cs).map Prod.fst →
      H'.chunk b = H.chunk b) (htk : t ≤ k) (hlo : q + (bytesOf l).length ≤ k)
    (hhi : k < q + (bytesOf l).length + d.length)
    (hchunk : H'.chunk a = some ⟨addrOf cs, k, d, k - (q + (bytesOf l).length)⟩) :
    Linked H' k q (l ++ (a, d) :: cs) := by
  induction l generalizing q with
  | nil =>
    simp only [bytesOf, List.map_nil, List.flatten_nil, List.length_nil, Nat.add_zero] at hlo hhi hchunk
    obtain ⟨-, hne, hrest⟩ := h
    refine ⟨⟨k - q, show k - q ≤ d.length by omega, ?_, fun _ => rfl⟩, hne, ?_⟩
    · rw [hchunk]
      simp only [Option.some.injEq, Chunk.mk.injEq, and_true, true_and]
      omega
    · exact (hrest.frame fun b hb => hframe b hb).retrim (by simp only; omega) (by simp only; omega)
  | cons e l ih =>
    rw [bytesOf_cons, List.length_append] at hlo hhi hchunk
    obtain ⟨⟨start, hstart, hchunk', htrim⟩, hne, hrest⟩ := h
    refine ⟨⟨start, hstart, ?_, fun hlt => ?_⟩, hne, ?_⟩
    · rw [hframe e.1 (by simp), hchunk']
    · omega
    · refine ih hrest (fun b hb => hframe b (by simp at hb ⊢; tauto)) (by omega) (by omega) ?_
      rw [hchunk, Nat.add_assoc]

theorem liveFrom_append {t q : ℕ} {l cs : Chunks} {e : ℕ × List UInt8}
    (hlo : q + (bytesOf l).length ≤ t) (hhi : t < q + (bytesOf l).length + e.2.length) :
    liveFrom t q (l ++ e :: cs) = e :: cs := by
  induction l generalizing q with
  | nil =>
    simp only [bytesOf, List.map_nil, List.flatten_nil, List.length_nil, Nat.add_zero] at hhi
    rw [List.nil_append, liveFrom, if_neg (by omega)]
  | cons e' l ih =>
    rw [bytesOf_cons, List.length_append] at hlo hhi
    rw [List.cons_append, liveFrom, if_pos (by omega), ih (by omega) (by omega)]

theorem predLoop_spec {q : ℕ} (hc : H.chunk a = some c) (hnext : c.next = addrOf cs)
    (h : Follow H (untrimmed q cs)) {b : ℕ} (hb : b ∈ cs.map Prod.fst) {fuel : ℕ}
    (hf : cs.length ≤ fuel) : ∃ b', predLoop H b fuel (some a) = some (some b') := by
  induction cs generalizing a c q fuel with
  | nil => simp at hb
  | cons e cs ih =>
    obtain ⟨fuel, rfl⟩ : ∃ n, fuel = n + 1 := ⟨fuel - 1, by simp at hf; omega⟩
    by_cases heq : e.1 = b
    · exact ⟨a, by simp [predLoop, hc, hnext, heq]⟩
    · have hb' : b ∈ cs.map Prod.fst := by
        rcases List.mem_cons.mp hb with hb | hb
        · exact absurd hb.symm heq
        · exact hb
      obtain ⟨b', hrest⟩ := ih h.1 rfl h.2.2 hb' (show cs.length ≤ fuel by simpa using hf)
      exact ⟨b', by simp [predLoop, hc, hnext, heq, hrest]⟩

theorem Rep.pred_eq (hrep : Rep H x) (h : Normal H x i k a c p cs) (hk : k < x.written.length)
    (hne : a ≠ x.first) : ∃ b, pred H x.first a = some (some b) := by
  have hcur := h.pos_lt_iff.mp hk
  have hpos := h.pos_eq
  have htrim := h.le_pos
  rcases hrep.entry with ⟨c₀, hspot, -⟩ | ⟨c₀, e, c', p', l, hc, hnext, -, hspot, hp, hlt, hl⟩
  · refine predLoop_spec hspot.chunk_eq hspot.next_eq hspot.follow ?_ (hspot.length_lt hrep).le
    rcases hspot.trichotomy h.spot.at_self with ⟨rfl, -, -⟩ | ⟨m, r, hcs, -⟩ | hbefore
    · exact absurd rfl hne
    · simp [hcs]
    · omega
  · obtain ⟨fuel, hfuel⟩ : ∃ n, H.fresh = n + 1 := ⟨H.fresh - 1, by omega⟩
    rcases hspot.trichotomy h.spot.at_self with ⟨rfl, -, -⟩ | ⟨m, r, hcs, -⟩ | hbefore
    · exact ⟨x.first, by simp [pred, hfuel, predLoop, hc, hnext]⟩
    · have hmem : a ∈ l.map Prod.fst := by simp [hcs]
      have hae : a ≠ e := by
        rintro rfl
        exact hspot.not_mem_rest hrep hmem
      obtain ⟨b, hrest⟩ := predLoop_spec hspot.chunk_eq hspot.next_eq hspot.follow hmem
        (show l.length ≤ fuel by omega)
      exact ⟨b, by simp [pred, hfuel, predLoop, hc, hnext, hae.symm, hrest]⟩
    · omega

theorem bytesTrim_spec (hrep : Rep H x) (hi : Points x i k) (hle : x.trimmed ≤ k)
    (hk : k < x.written.length) :
    ∃ H', bytesTrim H x.first i = some (.ok H') ∧ Rep H' { x with trimmed := k } ∧
      H'.fresh = H.fresh ∧ ∀ b, b ∉ x.addrs → H'.chunk b = H.chunk b := by
  obtain ⟨n, a, c, p, cs, hnorm, h⟩ := normalizeIter_spec hrep hi hle
  have hend := h.isEnd_eq hrep
  have hcur := h.pos_lt_iff.mp hk
  have hpos := h.pos_eq
  have hnodup := hrep.nodup
  rw [Shape.addrs, List.nodup_cons] at hnodup
  by_cases ha : a = x.first
  · -- within the first chunk
    subst ha
    obtain ⟨hdata, rfl, hrest⟩ : c.data = x.data ∧ p = 0 ∧ x.rest = cs := by
      rcases h.spot.place with ⟨-, hd, hp, hrest⟩ | ⟨l, heq, -⟩
      · exact ⟨hd, hp, hrest⟩
      · exact absurd (by simp [heq]) hnodup.1
    have hlen : c.data.length = x.data.length := by rw [hdata]
    refine ⟨H.write x.first { c with offset := c.offset + (n.cur - c.start : ℤ), start := n.cur },
      ?_, ⟨?_, ?_, .inl hk, hrep.size_lt, hrep.nodup⟩, rfl, fun b hb => ?_⟩
    · simp [bytesTrim, hnorm, hend, hk.ne, h.bytes_eq, h.spot.chunk_eq]
    · have hlive := hrep.linked.live_eq (show k ≤ x.data.length by omega)
      have hmin : min k x.data.length = k := min_eq_left (by omega)
      have hoffset := h.spot.offset_eq
      simp only [Heap.write, Function.update_self, hlive, hmin, Option.some.injEq, Chunk.mk.injEq]
      refine ⟨by rw [h.spot.next_eq, hrest], ?_, hdata, by omega⟩
      omega
    · refine (hrep.linked.retrim ?_ ?_).frame fun b hb => ?_
      · omega
      · change k ≤ _
        omega
      · refine Function.update_of_ne ?_ _ _
        rintro rfl
        exact hnodup.1 hb
    · refine Function.update_of_ne ?_ _ _
      rintro rfl
      exact hb (by simp [Shape.addrs])
  · -- in a later chunk: the first one is emptied and linked to it
    obtain ⟨l, heq, hp⟩ : ∃ l, x.rest = l ++ (a, c.data) :: cs ∧
        p = x.data.length + (bytesOf l).length := h.spot.place.resolve_left fun hc => ha hc.1
    obtain ⟨b, hpred⟩ := hrep.pred_eq h hk ha
    have hmem : a ∈ x.rest.map Prod.fst := by simp [heq]
    have hane : x.first ≠ a := fun hc => ha hc.symm
    set t := min x.trimmed x.data.length with ht
    set c₀ : Chunk := ⟨some a, (t : ℤ) + (x.data.length - t : ℤ), x.data, x.data.length⟩ with hc₀
    set c₁ : Chunk := { c with offset := c.offset + (n.cur - c.start : ℤ), start := n.cur } with hc₁
    have hfirst := hrep.first_eq
    refine ⟨(H.write x.first c₀).write a c₁, ?_, ⟨?_, ?_, .inl hk, hrep.size_lt, hrep.nodup⟩, rfl,
      fun b hb => ?_⟩
    · simp only [bytesTrim, hnorm, hend, hk.ne, decide_false, h.bytes_eq, Option.bind_eq_bind,
        Option.bind_some, Bool.false_eq_true, if_false, if_neg ha, hpred, hfirst, h.spot.chunk_eq, hc₀,
        hc₁, ht]
    · have hlive : liveFrom k x.data.length x.rest = (a, c.data) :: cs := by
        rw [heq]
        exact liveFrom_append (by omega) (by simp only; omega)
      have hmin : min k x.data.length = x.data.length := min_eq_right (by omega)
      simp only [Heap.write, Function.update_of_ne hane, Function.update_self, hlive, hmin, addrOf_cons,
        hc₀, Option.some.injEq, Chunk.mk.injEq, and_true, true_and]
      omega
    · have hl := hrep.linked
      have hnodup' := hnodup.2
      rw [heq] at hl
      rw [heq, List.map_append, List.map_cons, List.nodup_append, List.nodup_cons] at hnodup'
      have hother : ∀ b ∈ (l ++ cs).map Prod.fst, b ≠ a ∧ b ≠ x.first := by
        intro b hb
        rw [List.map_append, List.mem_append] at hb
        refine ⟨?_, ?_⟩
        · rintro rfl
          rcases hb with hb | hb
          · exact hnodup'.2.2 b hb b (by simp) rfl
          · exact hnodup'.2.1.1 hb
        · rintro rfl
          refine hnodup.1 ?_
          rw [heq, List.map_append, List.map_cons, List.mem_append, List.mem_cons]
          tauto
      have hoffset := h.spot.offset_eq
      rw [heq]
      change Linked _ k x.data.length _
      refine hl.trim (fun b hb => ?_) hle (by omega) (by omega) ?_
      · obtain ⟨h1, h2⟩ := hother b hb
        simp only [Heap.write, Function.update_of_ne h1, Function.update_of_ne h2]
      · simp only [Heap.write, Function.update_self, hc₁, Option.some.injEq, Chunk.mk.injEq,
          h.spot.next_eq, true_and]
        omega
    · have h1 : b ≠ a := by
        rintro rfl
        exact hb (List.mem_cons_of_mem _ hmem)
      have h2 : b ≠ x.first := by
        rintro rfl
        exact hb (by simp [Shape.addrs])
      simp only [Heap.write, Function.update_of_ne h1, Function.update_of_ne h2]

/-! ## Appending -/

theorem Linked.concat {H' : Heap} {t q a : ℕ} {d dz : List UInt8} {z : ℕ} {l : Chunks}
    (h : Linked H t q (l ++ [(z, dz)])) (hle : t ≤ q + (bytesOf (l ++ [(z, dz)])).length)
    (hd : d ≠ []) (hframe : ∀ b ∈ l.map Prod.fst, H'.chunk b = H.chunk b)
    (hz : ∀ c, H.chunk z = some c → H'.chunk z = some { c with next := some a })
    (ha : H'.chunk a = some ⟨none, (q + (bytesOf (l ++ [(z, dz)])).length : ℕ), d, 0⟩) :
    Linked H' t q (l ++ [(z, dz), (a, d)]) := by
  induction l generalizing q with
  | nil =>
    obtain ⟨⟨start, hstart, hchunk, htrim⟩, hne, -⟩ := h
    simp only [List.nil_append, bytesOf, List.map_cons, List.map_nil, List.flatten_cons,
      List.flatten_nil, List.append_nil] at hle ha
    refine ⟨⟨start, hstart, hz _ hchunk, htrim⟩, hne, ⟨0, by simp, ?_, fun _ => ?_⟩, hd, trivial⟩
    · simpa using ha
    · simp only
      omega
  | cons e l ih =>
    obtain ⟨⟨start, hstart, hchunk, htrim⟩, hne, hrest⟩ := h
    rw [List.cons_append, bytesOf_cons, List.length_append, ← Nat.add_assoc] at hle ha
    refine ⟨⟨start, hstart, ?_, htrim⟩, hne, ih hrest hle (fun b hb => hframe b (by simp [hb])) ha⟩
    rw [hframe e.1 (by simp), hchunk]
    cases l <;> rfl

theorem addrOf_liveFrom_append {t q : ℕ} {l m : Chunks} (hne : liveFrom t q l ≠ []) :
    addrOf (liveFrom t q (l ++ m)) = addrOf (liveFrom t q l) := by
  induction l generalizing q with
  | nil => exact absurd rfl hne
  | cons e l ih =>
    rw [List.cons_append]
    unfold liveFrom at hne ⊢
    by_cases hle : q + e.2.length ≤ t
    · rw [if_pos hle] at hne ⊢
      rw [if_pos hle]
      exact ih hne
    · rw [if_neg hle, if_neg hle]
      rfl

theorem addChunk_spec (hrep : Rep H x) {d : List UInt8} (hd : d ≠ [])
    (hold : ∀ a ∈ x.addrs, a < H.fresh) :
    ∃ H', (tail (bytesNew H d).1 x.first).bind (fun t => addChunk (bytesNew H d).1 t H.fresh) =
        some H' ∧ Rep H' { x with rest := x.rest ++ [(H.fresh, d)] } ∧
      H'.fresh = H.fresh + 1 ∧ ∀ b < H.fresh, b ∉ x.addrs → H'.chunk b = H.chunk b := by
  set H₁ := (bytesNew H d).1 with hH₁
  have hne : ∀ a ∈ x.addrs, a ≠ H.fresh := fun a ha heq => by
    have := hold a ha
    omega
  have hrep₁ : Rep H₁ x := hrep.frame
    (fun a ha => Function.update_of_ne (hne a ha) _ _) (Nat.le_succ _)
  have hnew : H₁.chunk H.fresh = some ⟨none, 0, d, 0⟩ := Function.update_self ..
  obtain ⟨c, p, hspot⟩ := hrep₁.last
  have hlen : x.written.length = p + c.data.length := by
    rw [hspot.written_length]
    simp [bytesOf]
  set z := lastOf x.first x.rest with hz
  have hzmem : z ∈ x.addrs := by
    by_cases hnil : x.rest = []
    · simp [hz, hnil, lastOf, Shape.addrs]
    · exact List.mem_cons_of_mem _ (lastOf_mem _ hnil)
  have hzne : z ≠ H.fresh := hne z hzmem
  set c' : Chunk := ⟨none, c.offset + (c.data.length - c.start : ℤ), d, 0⟩ with hc'
  set H' := (H₁.write z { c with next := some H.fresh }).write H.fresh c' with hH'
  have hz' : H'.chunk z = some { c with next := some H.fresh } := by
    simp only [hH', Heap.write, Function.update_of_ne hzne, Function.update_self]
  have hfresh' : H'.chunk H.fresh = some ⟨none, (x.written.length : ℕ), d, 0⟩ := by
    have := hspot.offset_eq
    simp only [hH', Heap.write, Function.update_self, hc', Option.some.injEq, Chunk.mk.injEq, hlen,
      true_and, and_true]
    omega
  have hother : ∀ b, b ≠ z → b ≠ H.fresh → H'.chunk b = H₁.chunk b := by
    intro b h1 h2
    simp only [hH', Heap.write, Function.update_of_ne h2, Function.update_of_ne h1]
  have hwritten : Shape.written { x with rest := x.rest ++ [(H.fresh, d)] } = x.written ++ d := by
    simp [Shape.written, bytesOf]
  have hsize := hrep.size_lt
  refine ⟨H', ?_, ⟨?_, ?_, ?_, ?_, ?_⟩, rfl, fun b hb hb' => ?_⟩
  · rw [hrep₁.tail_eq, Option.bind_some]
    simp only [addChunk, ← hz, hspot.chunk_eq, hnew, Option.bind_eq_bind, Option.bind_some, hH', hc']
  · -- the first chunk
    have hfirst := hrep₁.first_eq
    by_cases hnil : x.rest = []
    · have hzf : z = x.first := by simp [hz, hnil, lastOf]
      have hle : x.trimmed ≤ x.data.length := by
        simpa [Shape.written, hnil, bytesOf] using hrep.trimmed_le
      have hpos := List.length_pos_iff.mpr hd
      have hlive : liveFrom x.trimmed x.data.length (x.rest ++ [(H.fresh, d)]) = [(H.fresh, d)] := by
        rw [hnil, List.nil_append, liveFrom, if_neg (by simp only; omega)]
      obtain rfl := Option.some.inj ((hzf ▸ hspot.chunk_eq).symm.trans hfirst)
      rw [hzf] at hz'
      simp only [hz', hlive, addrOf_cons]
    · have hzf : x.first ≠ z := by
        intro heq
        have hnodup := hrep.nodup
        rw [Shape.addrs, List.nodup_cons] at hnodup
        exact hnodup.1 (heq ▸ lastOf_mem _ hnil)
      have hlive : liveFrom x.trimmed x.data.length x.rest ≠ [] :=
        fun h => hnil (hrep.live_eq_nil h)
      simp only
      rw [hother _ hzf (hne x.first (by simp [Shape.addrs])), hfirst, addrOf_liveFrom_append hlive]
  · -- the chunks after it
    have hle := hrep.trimmed_le
    simp only
    rcases List.eq_nil_or_concat x.rest with hnil | ⟨l, ⟨y, dy⟩, heq⟩
    · rw [hnil, List.nil_append]
      simp only [Shape.written, hnil, bytesOf, List.map_nil, List.flatten_nil, List.append_nil]
        at hle hfresh'
      refine ⟨⟨0, by simp, ?_, fun _ => ?_⟩, hd, trivial⟩
      · simpa using hfresh'
      · omega
    · rw [List.concat_eq_append] at heq
      have hzy : z = y := by rw [hz, heq, lastOf_append]; rfl
      have hnodup := hrep.nodup
      rw [Shape.addrs, heq, List.nodup_cons, List.map_append, List.nodup_append] at hnodup
      have hl := hrep₁.linked
      rw [Shape.written, heq, List.length_append] at hle hfresh'
      rw [heq] at hl
      rw [heq, List.append_assoc]
      refine hl.concat hle hd (fun b hb => ?_) (fun c₀ hc₀ => ?_) hfresh'
      · refine hother b ?_ (hne b (by simp [Shape.addrs, heq, hb]))
        rintro rfl
        exact hnodup.2.2.2 z hb y (by simp) hzy
      · rw [← hzy] at hc₀ ⊢
        obtain rfl := Option.some.inj (hspot.chunk_eq.symm.trans hc₀)
        exact hz'
  · left
    rw [hwritten, List.length_append]
    have := List.length_pos_iff.mpr hd
    have := hrep.trimmed_le
    simp only
    omega
  · change (x.rest ++ [(H.fresh, d)]).length < H.fresh + 1
    rw [List.length_append, List.length_singleton]
    omega
  · have heq : Shape.addrs { x with rest := x.rest ++ [(H.fresh, d)] } = x.addrs ++ [H.fresh] := by
      simp [Shape.addrs]
    rw [heq, List.nodup_append]
    refine ⟨hrep.nodup, by simp, fun a ha b hb => ?_⟩
    rw [List.mem_singleton.mp hb]
    exact hne a ha
  · rw [hother b (fun h => hb' (h ▸ hzmem)) hb.ne]
    exact Function.update_of_ne hb.ne _ _

end

end Hilti.Bytes
