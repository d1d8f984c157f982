import Hilti.Lib.Machine
import Hilti.Bytes.Ranges

/-!
# Positions that data is still missing for

An iterator may designate a position beyond the end of an object.  Data that is appended
leaves the iterator as it is; normalising it finds the chunk of its position as soon as the
object reaches that far.
-/

namespace Hilti.Bytes

open Hilti.Lib

set_option autoImplicit false

/-! ## The functions -/

/-- The loop of `hlt_bytes_offset` from the chunk `b` on: the position, or the number of bytes
that are missing. -/
def offsetLoop (H : Heap) : ℕ → Option ℕ → ℕ → Option (Iter ⊕ ℕ)
  | _, none, p => some (.inr p)
  | 0, some _, _ => none
  | fuel + 1, some b, p => do
    let c ← H.chunk b
    if p ≥ c.data.length - c.start then offsetLoop H fuel c.next (p - (c.data.length - c.start))
    else some (.inl ⟨some b, c.start + p⟩)

/-- `hlt_bytes_offset`. -/
def bytesOffset (H : Heap) (b : ℕ) (p : ℤ) : Option Iter :=
  if p = 0 then bytesBegin H b
  else do
    let p ← if p < 0 then (bytesLen H b).map fun len => p + len else some p
    if p < 0 then bytesEnd H b
    else
      match ← offsetLoop H H.fresh (some b) p.toNat with
      | .inl i => some i
      | .inr missing => do
        let t ← tail H b
        let c ← H.chunk t
        some ⟨some t, c.data.length + missing⟩

/-- `hlt_iterator_bytes_incr_by`, by a number that is not negative. -/
def iteratorIncrBy (H : Heap) (old : Iter) (n : ℕ) : Option Iter := do
  let i ← normalizeIter H old
  incrBy H i n false

/-! ## Growing objects -/

/-- What may happen to an object and an iterator into it. -/
inductive Growth where
  | append (other : ℕ)
  | appendRaw (raw : List UInt8)
  | normalize
  deriving DecidableEq

def grow (b : ℕ) : Heap × Iter → Growth → Option (Heap × Iter)
  | (H, i), .append other => do
    let H ← bytesAppend H b other
    some (H, i)
  | (H, i), .appendRaw raw => do
    let H ← bytesAppendRaw H b raw
    some (H, i)
  | (H, i), .normalize => do
    let i ← normalizeIter H i
    some (H, i)

def growing (b : ℕ) (start : Heap × Iter) : Machine (Heap × Iter) Growth where
  start := start
  next := grow b

/-- Chunks have been appended after that of the iterator, but too few for its position. -/
def Short (H : Heap) (i : Iter) : Prop :=
  ∃ a c len, i.bytes = some a ∧ H.chunk a = some c ∧ c.data.length < i.cur ∧ c.next ≠ none ∧
    bytesLen H a = some len ∧ len ≤ ((i.cur - c.start : ℕ) : ℤ)

/-- If the object has a byte with number `k`, the iterator dereferences to it and is `k` bytes from
its begin. -/
def IndexedBy (b k : ℕ) (t : Heap × Iter) : Prop :=
  ∃ data, copyLoop t.1 t.1.fresh (some b) = some data ∧
    ∀ x, data[k]? = some x → iteratorDeref t.1 t.2 = some (.ok x) ∧
      ∃ s, bytesBegin t.1 b = some s ∧ bytesDiff t.1 s t.2 = some (k : ℤ)

/-- The iterator keeps its index, unless it is normalised while it is short of data. -/
def KeepsIndex (b k : ℕ) (start : Heap × Iter) : Prop :=
  ∀ ops t, (growing b start).run start ops = some t →
    (growing b start).Along (fun s op => op = .normalize → ¬ Short s.1 s.2) start ops →
    IndexedBy b k t

/-! ## One more chunk -/

section

variable {H H' : Heap} {cs l r : Cells} {i : Iter} {a b k : ℕ} {c : Chunk}

theorem copyLoop_cells {r : Cells} (h : Follow H r) {fuel : ℕ} (hf : r.length ≤ fuel) :
    copyLoop H fuel (firstAddr r) = some (content r) := by
  induction r generalizing fuel with
  | nil => cases fuel <;> rfl
  | cons e r ih =>
    obtain ⟨fuel, rfl⟩ : ∃ n, fuel = n + 1 := ⟨fuel - 1, by simp at hf; omega⟩
    have hrest := ih h.2.2 (show r.length ≤ fuel by simpa using hf)
    rw [show firstAddr (e :: r) = some e.1 from rfl, copyLoop, h.1]
    simp only [Option.bind_eq_bind, Option.bind_some]
    rw [show e.2.next = firstAddr r from h.2.1, hrest, content_cons]
    rfl

theorem Follow.extend {f : ℕ} {g : Chunk} (h : Follow H (l ++ [(a, c)]))
    (hframe : ∀ x ∈ l.map Prod.fst, H'.chunk x = H.chunk x)
    (ha : H'.chunk a = some { c with next := some f }) (hf : H'.chunk f = some g)
    (hg : g.next = none) : Follow H' (l ++ [(a, { c with next := some f }), (f, g)]) := by
  induction l with
  | nil => exact ⟨ha, rfl, hf, hg, trivial⟩
  | cons e l ih =>
    refine ⟨?_, ?_, ih h.2.2 fun x hx => hframe x (List.mem_cons_of_mem _ hx)⟩
    · rw [hframe e.1 (by simp)]
      exact h.1
    · have hnext := h.2.1
      cases l <;> exact hnext

theorem Layout.frame (h : Layout H cs) (hframe : ∀ a < H.fresh, H'.chunk a = H.chunk a)
    (hfresh : H.fresh ≤ H'.fresh) : Layout H' cs where
  follow := by
    have hchunks : ∀ cs : Cells, (∀ e ∈ cs, e.1 < H.fresh) → Follow H cs → Follow H' cs := by
      intro cs
      induction cs with
      | nil => exact fun _ _ => trivial
      | cons e cs ih =>
        intro hold hfollow
        refine ⟨?_, hfollow.2.1, ih (fun e' he' => hold e' (List.mem_cons_of_mem _ he')) hfollow.2.2⟩
        rw [hframe e.1 (hold e (by simp))]
        exact hfollow.1
    exact hchunks cs h.old h.follow
  nodup := h.nodup
  old e he := (h.old e he).trans_le hfresh
  size_le := h.size_le.trans hfresh
  start_le := h.start_le
  offset_eq := h.offset_eq

theorem extend_offset {f : ℕ} {g : Chunk} (hcs : cs = l ++ [(a, c)])
    (hoffset : ∃ base : ℤ, ∀ l e r, cs = l ++ e :: r → content (l ++ [e]) ≠ [] →
      e.2.offset = base + (content l).length)
    (hstart : c.start ≤ c.data.length)
    (hg : g.offset = c.offset + (c.data.length - c.start : ℤ)) :
    ∃ base : ℤ, ∀ l₁ e₁ r₁, l ++ [(a, { c with next := some f }), (f, g)] = l₁ ++ e₁ :: r₁ →
      content (l₁ ++ [e₁]) ≠ [] → e₁.2.offset = base + (content l₁).length := by
  obtain ⟨base, hbase⟩ := hoffset
  have hsame : content (l ++ [(a, { c with next := some f })]) = content cs := by
    rw [hcs, content_append, content_append]
    rfl
  refine ⟨if content cs = [] then g.offset else base, fun l₁ e₁ r₁ hsplit hne => ?_⟩
  rw [show l ++ [(a, { c with next := some f }), (f, g)] =
    (l ++ [(a, { c with next := some f })]) ++ [(f, g)] by simp] at hsplit
  rcases List.eq_nil_or_concat r₁ with rfl | ⟨r₂, x, rfl⟩
  · obtain ⟨rfl, heq⟩ := List.append_inj' hsplit rfl
    obtain rfl := (List.cons.inj heq).1
    rw [hsame]
    by_cases hnil : content cs = []
    · simp [hnil]
    · rw [if_neg hnil]
      have hlast := hbase l (a, c) [] hcs (by rwa [← hcs])
      have hlen := content_split (r := []) hcs
      simp only at hlast ⊢
      rw [hg, hlast, hlen]
      simp only [content, List.flatMap_nil, List.length_nil]
      omega
  · rw [List.concat_eq_append, ← List.cons_append, ← List.append_assoc] at hsplit
    obtain ⟨hrest, -⟩ := List.append_inj' hsplit rfl
    have hcne : content cs ≠ [] := by
      intro hnil
      rw [← hsame, hrest, content_append, List.append_eq_nil_iff] at hnil
      refine hne ?_
      rw [content_append, hnil.1, List.nil_append]
      have := hnil.2
      rw [content_cons, List.append_eq_nil_iff] at this
      simp [content, this.1]
    rw [if_neg hcne]
    rcases List.eq_nil_or_concat r₂ with rfl | ⟨r₃, y, rfl⟩
    · obtain ⟨rfl, heq⟩ := List.append_inj' hrest rfl
      obtain rfl := (List.cons.inj heq).1
      exact hbase l (a, c) [] hcs (by rwa [← hcs])
    · rw [List.concat_eq_append, ← List.cons_append, ← List.append_assoc] at hrest
      obtain ⟨hl, -⟩ := List.append_inj' hrest rfl
      exact hbase l₁ e₁ (r₃ ++ [(a, c)]) (by rw [hcs, hl]; simp) hne

theorem Layout.addChunk {e : ℕ × Chunk} (h : Layout H cs) (heq : cs = e :: r) (data : List UInt8)
    {t : ℕ} (ht : tail (bytesNew H data).1 e.1 = some t)
    (hadd : addChunk (bytesNew H data).1 t (bytesNew H data).2 = some H') :
    ∃ e' r', e'.1 = e.1 ∧ Layout H' (e' :: r') ∧
      content (e' :: r') = content cs ++ data ∧
      ∀ i k, Designates cs i k → Designates (e' :: r') i k := by
  obtain ⟨l, a, c, hlast⟩ : ∃ l a c, cs = l ++ (a, c) :: [] :=
    ⟨cs.dropLast, _, _, (List.dropLast_append_getLast (by rw [heq]; simp)).symm⟩
  have hframe : ∀ x < H.fresh, (bytesNew H data).1.chunk x = H.chunk x := by
    intro x hx
    simp [bytesNew, Heap.write, hx.ne]
  have h₁ : Layout (bytesNew H data).1 cs := h.frame hframe (Nat.le_succ _)
  rw [h₁.tail_eq (l := []) (show cs = [] ++ (e.1, e.2) :: r from heq), Option.some.injEq,
    lastAddr_eq (heq.symm.trans hlast)] at ht
  subst ht
  have hold : a < H.fresh := h.old (a, c) (by rw [hlast]; simp)
  have hcell : (bytesNew H data).1.chunk a = some c := (h₁.cell hlast).1.1
  have hnext : c.next = none := (h₁.cell hlast).1.2.1
  have hle : c.start ≤ c.data.length := h.start_le (a, c) (by rw [hlast]; simp)
  have hnew : (bytesNew H data).1.chunk (bytesNew H data).2 = some ⟨none, 0, data, 0⟩ := by
    simp [bytesNew, Heap.write]
  simp only [Bytes.addChunk, hcell, hnew, Option.bind_eq_bind, Option.bind_some,
    Option.some.injEq] at hadd
  set g : Chunk := ⟨none, c.offset + (c.data.length - c.start : ℤ), data, 0⟩ with hg
  have hfresh : H'.fresh = H.fresh + 1 := by
    rw [← hadd]
    rfl
  have hchunk : ∀ x, H'.chunk x = if x = H.fresh then some g
      else if x = a then some { c with next := some H.fresh } else H.chunk x := by
    intro x
    rw [← hadd]
    simp only [bytesNew, Heap.write, Function.update_apply]
    split
    · rfl
    · rfl
  have hcontent : content (l ++ [(a, { c with next := some H.fresh }), (H.fresh, g)]) =
      content cs ++ data := by
    rw [hlast, content_append, content_append, content_cons, content_cons, content_cons]
    simp [content, hg]
  obtain ⟨e', r', hcs'⟩ := List.exists_cons_of_ne_nil
    (show l ++ [(a, { c with next := some H.fresh }), (H.fresh, g)] ≠ [] by simp)
  have haddrs : (l ++ [(a, { c with next := some H.fresh }), (H.fresh, g)]).map Prod.fst =
      cs.map Prod.fst ++ [H.fresh] := by
    rw [hlast]
    simp
  have hmem : ∀ x ∈ cs.map Prod.fst, x < H.fresh := by
    intro x hx
    obtain ⟨e₁, he₁, rfl⟩ := List.mem_map.mp hx
    exact h.old e₁ he₁
  refine ⟨e', r', ?_⟩
  rw [← hcs']
  refine ⟨?_, ⟨?_, ?_, ?_, ?_, ?_, ?_⟩, hcontent, ?_⟩
  · have hfirst : (e :: r : Cells).head?.map Prod.fst = (e' :: r' : Cells).head?.map Prod.fst := by
      rw [← heq, ← hcs', hlast]
      cases l <;> rfl
    exact (Option.some.inj hfirst).symm
  · refine Follow.extend (hlast ▸ h.follow) (fun x hx => ?_) ?_ ?_ rfl
    · have hxl : x ∈ cs.map Prod.fst := by
        rw [hlast, List.map_append]
        exact List.mem_append_left _ hx
      have hxa : x ≠ a := by
        have hnodup := h.nodup
        rw [hlast, List.map_append, List.nodup_append] at hnodup
        exact hnodup.2.2 x hx a (by simp)
      rw [hchunk, if_neg (hmem x hxl).ne, if_neg hxa]
    · rw [hchunk, if_neg hold.ne, if_pos rfl]
    · rw [hchunk, if_pos rfl]
  · rw [haddrs, List.nodup_append]
    refine ⟨h.nodup, by simp, fun x hx y hy => ?_⟩
    rw [List.mem_singleton.mp hy]
    exact (hmem x hx).ne
  · intro e₁ he₁
    have hfst := List.mem_map_of_mem (f := Prod.fst) he₁
    rw [haddrs, List.mem_append] at hfst
    rw [hfresh]
    rcases hfst with hfst | hfst
    · exact (hmem _ hfst).trans (Nat.lt_succ_self _)
    · rw [List.mem_singleton.mp hfst]
      exact Nat.lt_succ_self _
  · have hlen := congrArg List.length haddrs
    have hsize := h.size_le
    simp only [List.length_map, List.length_append, List.length_singleton] at hlen ⊢
    omega
  · intro e₁ he₁
    rcases List.mem_append.mp he₁ with hl | hl
    · exact h.start_le e₁ (by rw [hlast]; exact List.mem_append_left _ hl)
    · rcases List.mem_cons.mp hl with rfl | hl
      · exact hle
      · rw [List.mem_singleton.mp hl]
        exact Nat.zero_le _
  · exact extend_offset hlast h.offset_eq hle rfl
  · rintro i k ⟨l₁, b, d, r₁, hsplit, hbytes, hstart, hpos⟩
    rw [hlast] at hsplit
    rcases List.eq_nil_or_concat r₁ with rfl | ⟨r₂, x, rfl⟩
    · obtain ⟨rfl, hlast'⟩ := List.append_inj' hsplit rfl
      obtain ⟨rfl, rfl⟩ := Prod.mk.inj (List.cons.inj hlast').1
      exact ⟨l, a, _, [(H.fresh, g)], rfl, hbytes, hstart, hpos⟩
    · rw [List.concat_eq_append, ← List.cons_append, ← List.append_assoc] at hsplit
      obtain ⟨rfl, -⟩ := List.append_inj' hsplit rfl
      exact ⟨l₁, b, d, r₂ ++ [(a, { c with next := some H.fresh }), (H.fresh, g)], by simp, hbytes,
        hstart, hpos⟩

theorem bytesAppendRaw_layout {e : ℕ × Chunk} (h : Layout H cs) (heq : cs = e :: r)
    {raw : List UInt8} (hrun : bytesAppendRaw H e.1 raw = some H') :
    ∃ e' r', e'.1 = e.1 ∧ Layout H' (e' :: r') ∧ content (e' :: r') = content cs ++ raw ∧
      ∀ i k, Designates cs i k → Designates (e' :: r') i k := by
  unfold bytesAppendRaw at hrun
  split at hrun
  · rename_i hnil
    cases hrun
    exact ⟨e, r, rfl, heq ▸ h, by rw [List.length_eq_zero_iff.mp hnil, heq, List.append_nil],
      fun i k hi => heq ▸ hi⟩
  · obtain ⟨t, ht, hadd⟩ := Option.bind_eq_some_iff.mp hrun
    exact h.addChunk heq raw ht hadd

theorem bytesAppendRaw_total {e : ℕ × Chunk} (h : Layout H cs) (heq : cs = e :: r)
    (raw : List UInt8) : ∃ H', bytesAppendRaw H e.1 raw = some H' := by
  unfold bytesAppendRaw
  split
  · exact ⟨H, rfl⟩
  · have hframe : ∀ x < H.fresh, (bytesNew H raw).1.chunk x = H.chunk x := by
      intro x hx
      simp [bytesNew, Heap.write, hx.ne]
    have h₁ : Layout (bytesNew H raw).1 cs := h.frame hframe (Nat.le_succ _)
    obtain ⟨l, a, c, hlast⟩ : ∃ l a c, cs = l ++ (a, c) :: [] :=
      ⟨cs.dropLast, _, _, (List.dropLast_append_getLast (by rw [heq]; simp)).symm⟩
    have htail := h₁.tail_eq (l := []) (show cs = [] ++ (e.1, e.2) :: r from heq)
    rw [lastAddr_eq (heq.symm.trans hlast)] at htail
    have hcell : (bytesNew H raw).1.chunk a = some c := (h₁.cell hlast).1.1
    have hnew : (bytesNew H raw).1.chunk (bytesNew H raw).2 = some ⟨none, 0, raw, 0⟩ := by
      simp [bytesNew, Heap.write]
    simp only [htail, Bytes.addChunk, hcell, hnew, Option.bind_eq_bind, Option.bind_some]
    exact ⟨_, rfl⟩

theorem bytesAppend_layout {e : ℕ × Chunk} (h : Layout H cs) (heq : cs = e :: r) {other : ℕ}
    (hrun : bytesAppend H e.1 other = some H') :
    ∃ e' r' data, e'.1 = e.1 ∧ Layout H' (e' :: r') ∧ content (e' :: r') = content cs ++ data ∧
      ∀ i k, Designates cs i k → Designates (e' :: r') i k := by
  obtain ⟨len, -, hrun⟩ := Option.bind_eq_some_iff.mp hrun
  split at hrun
  · cases hrun
    exact ⟨e, r, [], rfl, heq ▸ h, by rw [heq, List.append_nil], fun i k hi => heq ▸ hi⟩
  · obtain ⟨data, -, hrun⟩ := Option.bind_eq_some_iff.mp hrun
    obtain ⟨t, ht, hadd⟩ := Option.bind_eq_some_iff.mp hrun
    obtain ⟨e', r', hres⟩ := h.addChunk heq data ht hadd
    exact ⟨e', r', data, hres⟩

/-! ## The iterator keeps its index -/

def Kept (b k : ℕ) (t : Heap × Iter) : Prop :=
  ∃ e r, e.1 = b ∧ Layout t.1 (e :: r) ∧ Designates (e :: r) t.2 k

theorem normalizeIter_kept (h : Layout H cs) (hi : Stands cs i k l a c r) (hshort : ¬ Short H i) :
    ∃ i', normalizeIter H i = some i' ∧ Designates cs i' k := by
  obtain ⟨hfollow, -⟩ := h.cell hi.split
  by_cases hnil : r = []
  · exact ⟨i, hi.normalize h (.inr hnil), l, a, c, r, hi⟩
  · obtain ⟨i', k', l', a', c', r', hi', hnorm, -, hin, -, hle⟩ := normalizeIter_stands h hi
    have hpos := hi.pos_eq
    have hlen := content_split hi.split
    have hkk : k' = k := by
      by_cases hcur : i.cur ≤ c.data.length
      · exact (hle hcur).1
      · refine hin ?_
        by_contra hge
        refine hshort ⟨a, c, _, hi.bytes_eq, hfollow.1, by omega, ?_, bytesLen_cell h hi.split, ?_⟩
        · obtain ⟨f, r₁, rfl⟩ := List.exists_cons_of_ne_nil hnil
          rw [show c.next = some f.1 from hfollow.2.1]
          simp
        · rw [content_cons]
          simp only [List.length_append, List.length_drop]
          omega
    exact ⟨i', hnorm, l', a', c', r', hkk ▸ hi'⟩

theorem grow_kept {s t : Heap × Iter} {op : Growth} (hs : Kept b k s)
    (hop : op = .normalize → ¬ Short s.1 s.2) (hrun : grow b s op = some t) : Kept b k t := by
  obtain ⟨H, i⟩ := s
  obtain ⟨e, r, rfl, h, hi⟩ := hs
  cases op with
  | append other =>
    obtain ⟨H', hH', ht⟩ := Option.bind_eq_some_iff.mp hrun
    cases ht
    obtain ⟨e', r', data, he, h', -, hkeep⟩ := bytesAppend_layout h rfl hH'
    exact ⟨e', r', he, h', hkeep i k hi⟩
  | appendRaw raw =>
    obtain ⟨H', hH', ht⟩ := Option.bind_eq_some_iff.mp hrun
    cases ht
    obtain ⟨e', r', he, h', -, hkeep⟩ := bytesAppendRaw_layout h rfl hH'
    exact ⟨e', r', he, h', hkeep i k hi⟩
  | normalize =>
    obtain ⟨i', hi', ht⟩ := Option.bind_eq_some_iff.mp hrun
    cases ht
    obtain ⟨_, _, _, _, hi⟩ := hi
    obtain ⟨i₁, hnorm, hkept⟩ := normalizeIter_kept h hi (hop rfl)
    obtain rfl : i₁ = i' := Option.some.inj (hnorm.symm.trans hi')
    exact ⟨e, r, rfl, h, hkept⟩

theorem Kept.indexed {t : Heap × Iter} (h : Kept b k t) : IndexedBy b k t := by
  obtain ⟨e, r, rfl, h, hi⟩ := h
  refine ⟨content (e :: r), copyLoop_cells h.follow h.size_le, fun x hx => ⟨?_, ?_⟩⟩
  · rw [iteratorDeref_at h hi, hx]
  · have hk : k < (content (e :: r)).length := (List.getElem?_eq_some_iff.mp hx).1
    obtain ⟨s, hbegin, hs⟩ := bytesBegin_at h rfl
    refine ⟨s, hbegin, ?_⟩
    rw [bytesDiff_at h hs hi, min_eq_left hk.le, Nat.sub_zero]

theorem Kept.keepsIndex {start : Heap × Iter} (h : Kept b k start) : KeepsIndex b k start := by
  intro ops t hrun halong
  have hkept : Kept b k t :=
    Machine.run_keeps (P := Kept b k) (C := fun s op => op = .normalize → ¬ Short s.1 s.2)
      (fun _ _ _ hs hop hstep => grow_kept hs hop hstep) hrun h halong
  exact hkept.indexed

/-! ## Where the iterators come from -/

theorem offsetLoop_cells {r : Cells} (h : Follow H r) (hstart : ∀ e ∈ r, e.2.start ≤ e.2.data.length)
    {fuel : ℕ} (hf : r.length ≤ fuel) (p : ℕ) :
    (∃ m a' c' r' i, r = m ++ (a', c') :: r' ∧ i.bytes = some a' ∧ c'.start ≤ i.cur ∧
      p = (content m).length + (i.cur - c'.start) ∧
      offsetLoop H fuel (firstAddr r) p = some (.inl i)) ∨
    ((content r).length ≤ p ∧
      offsetLoop H fuel (firstAddr r) p = some (.inr (p - (content r).length))) := by
  induction r generalizing fuel p with
  | nil => exact .inr ⟨Nat.zero_le _, by cases fuel <;> rfl⟩
  | cons e r ih =>
    obtain ⟨fuel, rfl⟩ : ∃ n, fuel = n + 1 := ⟨fuel - 1, by simp at hf; omega⟩
    have hle := hstart e (by simp)
    have hlen : (content (e :: r)).length = e.2.data.length - e.2.start + (content r).length := by
      rw [content_cons, List.length_append, List.length_drop]
    by_cases hover : p ≥ e.2.data.length - e.2.start
    · have hrun : offsetLoop H (fuel + 1) (firstAddr (e :: r)) p =
          offsetLoop H fuel (firstAddr r) (p - (e.2.data.length - e.2.start)) := by
        rw [show firstAddr (e :: r) = some e.1 from rfl, offsetLoop, h.1]
        simp only [Option.bind_eq_bind, Option.bind_some, if_pos hover]
        rw [show e.2.next = firstAddr r from h.2.1]
      rcases ih h.2.2 (fun e' he' => hstart e' (List.mem_cons_of_mem _ he'))
        (show r.length ≤ fuel by simpa using hf) (p - (e.2.data.length - e.2.start)) with
        ⟨m, a', c', r', i, heq, hbytes, hcur, hpos, hloop⟩ | ⟨hshort, hloop⟩
      · refine .inl ⟨e :: m, a', c', r', i, by rw [heq]; rfl, hbytes, hcur, ?_, hrun.trans hloop⟩
        rw [content_cons, List.length_append, List.length_drop]
        omega
      · refine .inr ⟨by omega, ?_⟩
        rw [hrun, hloop, hlen]
        congr 2
        omega
    · refine .inl ⟨[], e.1, e.2, r, ⟨some e.1, e.2.start + p⟩, rfl, rfl, by simp, ?_, ?_⟩
      · simp [content]
      · rw [show firstAddr (e :: r) = some e.1 from rfl, offsetLoop, h.1]
        simp only [Option.bind_eq_bind, Option.bind_some, if_neg hover]

theorem bytesOffset_designates {e : ℕ × Chunk} (h : Layout H cs) (heq : cs = e :: r) (p : ℕ) :
    ∃ i, bytesOffset H e.1 p = some i ∧ Designates cs i p := by
  by_cases hzero : p = 0
  · obtain ⟨i, hbegin, hi⟩ := bytesBegin_at h heq
    exact ⟨i, by simp [bytesOffset, hzero, hbegin], hzero ▸ hi⟩
  · have hnot : ¬ (p : ℤ) < 0 := by omega
    have hloop := offsetLoop_cells (heq ▸ h.follow : Follow H (e :: r))
      (fun e' he' => h.start_le e' (heq ▸ he')) (heq ▸ h.size_le) p
    rcases hloop with ⟨m, a', c', r', i, hsplit, hbytes, hcur, hpos, hloop⟩ | ⟨hshort, hloop⟩
    · refine ⟨i, ?_, m, a', c', r', heq.trans hsplit, hbytes, hcur, hpos⟩
      rw [show firstAddr (e :: r) = some e.1 from rfl] at hloop
      simp only [bytesOffset, Nat.cast_eq_zero, hzero, if_false, hnot, Option.bind_eq_bind,
        Option.bind_some, Int.toNat_natCast, hloop]
    · obtain ⟨_, l', a', c', hend, hi, hcur⟩ := bytesEnd_at h heq
      rw [show firstAddr (e :: r) = some e.1 from rfl] at hloop
      obtain ⟨t, htail, hrest⟩ := Option.bind_eq_some_iff.mp hend
      obtain ⟨d, hd, hiter⟩ := Option.bind_eq_some_iff.mp hrest
      cases hiter
      obtain rfl : t = a' := Option.some.inj hi.bytes_eq
      obtain rfl : d = c' := Option.some.inj (hd.symm.trans (h.cell hi.split).1.1)
      have hpos := hi.pos_eq
      have hstart := hi.start_le
      refine ⟨⟨some t, d.data.length + (p - (content (e :: r)).length)⟩, ?_, l', t, d, [], hi.split,
        rfl, ?_, ?_⟩
      · simp only [bytesOffset, Nat.cast_eq_zero, hzero, if_false, hnot, Option.bind_eq_bind,
          Option.bind_some, Int.toNat_natCast, hloop, htail, hd]
      · simp only at hstart ⊢
        omega
      · rw [← heq] at hshort ⊢
        simp only at hpos hstart ⊢
        omega

theorem iteratorIncrBy_designates (h : Layout H cs) (hi : Designates cs i k)
    (hbeyond : ¬ Beyond H i) (n : ℕ) :
    ∃ i', iteratorIncrBy H i n = some i' ∧
      Designates cs i' (min (k + n) (content cs).length) := by
  obtain ⟨_, _, _, _, hi⟩ := hi
  obtain ⟨i', k', l', a', c', r', hi', hnorm, hs, hin, hout, -⟩ := normalizeIter_stands h hi
  rw [beyond_iff hnorm hi' h, not_lt] at hbeyond
  obtain ⟨hfollow, hstarts, -, hfuel⟩ := h.cell hi'.split
  have hpos := hi'.pos_eq
  have hstart := hi'.start_le
  have hlen := content_split hi'.split
  by_cases hk : (content cs).length ≤ k
  · have hk' : k' = (content cs).length := by
      have hge := hout hk
      omega
    refine ⟨i', ?_, l', a', c', r', ?_⟩
    · simp only [iteratorIncrBy, hnorm, incrBy, hi'.isEnd_iff h hs, hk', le_refl, decide_true,
        Option.bind_eq_bind, Option.bind_some, if_true]
    · rw [min_eq_right (by omega), ← hk']
      exact hi'
  · obtain rfl := hin (not_le.mp hk)
    by_cases hzero : n = 0
    · refine ⟨i', ?_, l', a', c', r', ?_⟩
      · simp only [iteratorIncrBy, hnorm, incrBy, hi'.isEnd_iff h hs, hk, decide_false,
          Option.bind_eq_bind, Option.bind_some, Bool.false_eq_true, if_false, hzero, if_true]
      · rw [hzero, Nat.add_zero, min_eq_left (not_le.mp hk).le]
        exact hi'
    · obtain ⟨m, a₁, c₁, r₁, cur, heq, hloop, hcur, hres⟩ :=
        incrByLoop_cells hfollow hstarts hfuel hstart hbeyond false n
      have hsplit : cs = (l' ++ m) ++ (a₁, c₁) :: r₁ := by
        rw [hi'.split, heq, List.append_assoc]
      have hlen₁ := content_split hsplit
      have hcell : (content ((a', c') :: r')).length =
          c'.data.length - c'.start + (content r').length := by
        rw [content_cons, List.length_append, List.length_drop]
      rw [content_append, List.length_append] at hlen₁
      refine ⟨⟨some a₁, cur⟩, ?_, l' ++ m, a₁, c₁, r₁, hsplit, rfl, hcur, ?_⟩
      · simp only [iteratorIncrBy, hnorm, incrBy, hi'.isEnd_iff h hs, hk, decide_false,
          Option.bind_eq_bind, Option.bind_some, Bool.false_eq_true, if_false, hzero,
          hi'.bytes_eq, hloop]
      · rw [content_append, List.length_append]
        simp only
        rcases hres with ⟨hlt, hplace⟩ | ⟨hnil, hsize, -, hend⟩
        · omega
        · have hnone : (content r₁).length = 0 := by rw [hnil]; rfl
          have hend := hend rfl
          omega

/-- The index of the iterator is the offset, or for an iterator that is not beyond the end its
index plus the increment, up to the end. -/
theorem future_iterators {e : ℕ × Chunk} (h : Layout H cs) (heq : cs = e :: r) :
    (∀ p : ℕ, ∃ i, bytesOffset H e.1 p = some i ∧ KeepsIndex e.1 p (H, i)) ∧
    ∀ (i : Iter) (k n : ℕ), Designates cs i k → ¬ Beyond H i →
      ∃ i', iteratorIncrBy H i n = some i' ∧
        KeepsIndex e.1 (min (k + n) (content cs).length) (H, i') := by
  subst heq
  refine ⟨fun p => ?_, fun i k n hi hbeyond => ?_⟩
  · obtain ⟨i, hoffset, hi⟩ := bytesOffset_designates h rfl p
    exact ⟨i, hoffset, Kept.keepsIndex ⟨e, r, rfl, h, hi⟩⟩
  · obtain ⟨i', hincr, hi'⟩ := iteratorIncrBy_designates h hi hbeyond n
    exact ⟨i', hincr, Kept.keepsIndex ⟨e, r, rfl, h, hi'⟩⟩

end

theorem future_iterators_sample :
    (∀ p : ℕ, ∃ i, bytesOffset sampleHeap 0 p = some i ∧ KeepsIndex 0 p (sampleHeap, i)) ∧
    ∀ (i : Iter) (k n : ℕ), Designates sampleCells i k → ¬ Beyond sampleHeap i →
      ∃ i', iteratorIncrBy sampleHeap i n = some i' ∧
        KeepsIndex 0 (min (k + n) (content sampleCells).length) (sampleHeap, i') :=
  future_iterators sample_layout rfl

/-- Four bytes from the first of three: the iterator stops at the end, and is the one of the next
byte when there is more data.  An offset of five changes when the iterator is normalised with four
bytes there. -/
theorem future_index_lost :
    (∃ i t, iteratorIncrBy sampleHeap ⟨some 0, 0⟩ 4 = some i ∧
      (growing 0 (sampleHeap, i)).run (sampleHeap, i) [.appendRaw [4, 5]] = some t ∧
      ¬ IndexedBy 0 (0 + 4) t) ∧
    ∃ i t, bytesOffset sampleHeap 0 5 = some i ∧
      (growing 0 (sampleHeap, i)).run (sampleHeap, i)
        [.appendRaw [4], .normalize, .appendRaw [5, 6, 7]] = some t ∧
      ¬ IndexedBy 0 5 t := by
  refine ⟨⟨⟨some 1, 2⟩, _, rfl, rfl, ?_⟩, ⟨some 1, 4⟩, _, rfl, rfl, ?_⟩
  · rintro ⟨data, hdata, hindex⟩
    have hread : data = [1, 2, 3, 4, 5] := Option.some.inj (hdata.symm.trans rfl)
    subst hread
    obtain ⟨hderef, -⟩ := hindex 5 rfl
    cases Option.some.inj hderef
  · rintro ⟨data, hdata, hindex⟩
    have hread : data = [1, 2, 3, 4, 5, 6, 7] := Option.some.inj (hdata.symm.trans rfl)
    subst hread
    obtain ⟨hderef, -⟩ := hindex 6 rfl
    cases Option.some.inj hderef

end Hilti.Bytes
