import Mathlib
import Hilti.Bytes.Ranges

/-!
# Stripping

`hlt_bytes_strip` looks for the first byte to keep from the left and for the last one from
the right, chunk by chunk, and returns what is between the two.  A search that comes to
nothing ends with an iterator that has no chunk.
-/

namespace Hilti.Bytes

open Hilti.Lib

set_option autoImplicit false

/-! ## The functions -/

/-- `Hilti::Side`. -/
inductive Side where
  | left
  | right
  | both
  deriving DecidableEq

/-- `isspace`. -/
def isSpace (ch : UInt8) : Bool :=
  ch = 32 || (9 ≤ ch && ch ≤ 13)

def stripItLoop (H : Heap) (ch : UInt8) : ℕ → Option ℕ → Option Bool
  | _, none => some false
  | 0, some _ => none
  | fuel + 1, some b => do
    let c ← H.chunk b
    if ch ∈ c.data.drop c.start then some true else stripItLoop H ch fuel c.next

/-- `strip_it`. -/
def stripIt (H : Heap) (pat : Option ℕ) (ch : UInt8) : Option Bool :=
  match pat with
  | none => some (isSpace ch)
  | some _ => stripItLoop H ch H.fresh pat

/-- The search in the bytes of a chunk, which start at `p`, for one to keep. -/
def keepLoop (H : Heap) (pat : Option ℕ) : List UInt8 → ℕ → Option (Option ℕ)
  | [], _ => some none
  | ch :: l, p => do
    let strip ← stripIt H pat ch
    if strip then keepLoop H pat l (p + 1) else some (some p)

/-- The search from the end `p` of the bytes of a chunk, which are given in reverse, for the
end of those to keep. -/
def keepBackLoop (H : Heap) (pat : Option ℕ) : List UInt8 → ℕ → Option (Option ℕ)
  | [], _ => some none
  | ch :: l, p => do
    let strip ← stripIt H pat ch
    if strip then keepBackLoop H pat l (p - 1) else some (some p)

/-- The first loop of `_hlt_bytes_strip_calc_iters`, with the `p` it leaves behind. -/
def leftLoop (H : Heap) (pat : Option ℕ) : ℕ → Option ℕ → ℕ → Option Iter
  | _, none, p => some ⟨none, p⟩
  | 0, some _, _ => none
  | fuel + 1, some b, _ => do
    let c ← H.chunk b
    match ← keepLoop H pat (c.data.drop c.start) c.start with
    | some p => some ⟨some b, p⟩
    | none => leftLoop H pat fuel c.next c.data.length

/-- The second loop.  The `p` of an iterator without a chunk does not matter. -/
def rightLoop (H : Heap) (pat : Option ℕ) (b : ℕ) : ℕ → Option ℕ → Option Iter
  | _, none => some ⟨none, 0⟩
  | 0, some _ => none
  | fuel + 1, some a => do
    let c ← H.chunk a
    match ← keepBackLoop H pat (c.data.drop c.start).reverse c.data.length with
    | some p => some ⟨some a, p⟩
    | none => do
      let a' ← pred H b a
      rightLoop H pat b fuel a'

/-- `_hlt_bytes_strip_calc_iters`. -/
def stripCalcIters (H : Heap) (b : ℕ) (side : Side) (pat : Option ℕ) : Option (Iter × Iter) := do
  let start ←
    if side = .left ∨ side = .both then leftLoop H pat H.fresh (some b) 0
    else do
      let c ← H.chunk b
      some ⟨some b, c.start⟩
  let stop ←
    if side = .right ∨ side = .both then do
      let t ← tail H b
      rightLoop H pat b H.fresh (some t)
    else some ⟨none, 0⟩
  some (start, stop)

/-- `hlt_bytes_strip`. -/
def bytesStrip (H : Heap) (b : ℕ) (side : Side) (pat : Option ℕ) :
    Option (Except Error (Heap × ℕ)) := do
  let (start, stop) ← stripCalcIters H b side pat
  bytesSub H start stop

/-- The content without the longest prefix, the longest suffix or both, of bytes to strip. -/
def stripped (strip : UInt8 → Bool) : Side → List UInt8 → List UInt8
  | .left, l => l.dropWhile strip
  | .right, l => l.rdropWhile strip
  | .both, l => (l.dropWhile strip).rdropWhile strip

/-! ## The search in one chunk -/

section

variable {H : Heap} {cs l r : Cells} {i : Iter} {a k : ℕ} {c : Chunk} {pat : Option ℕ}
  {strip : UInt8 → Bool}

theorem stripItLoop_cells (ch : UInt8) {r : Cells} (h : Follow H r) {fuel : ℕ}
    (hf : r.length ≤ fuel) :
    stripItLoop H ch fuel (firstAddr r) = some (decide (ch ∈ content r)) := by
  induction r generalizing fuel with
  | nil => cases fuel <;> rfl
  | cons e r ih =>
    obtain ⟨fuel, rfl⟩ : ∃ n, fuel = n + 1 := ⟨fuel - 1, by simp at hf; omega⟩
    have hrest := ih h.2.2 (by simpa using hf)
    rw [show firstAddr (e :: r) = some e.1 from rfl, stripItLoop, h.1, content_cons]
    simp only [Option.bind_eq_bind, Option.bind_some]
    by_cases hmem : ch ∈ e.2.data.drop e.2.start
    · rw [if_pos hmem, decide_eq_true (List.mem_append_left _ hmem)]
    · rw [if_neg hmem, show e.2.next = firstAddr r from h.2.1, hrest]
      simp only [List.mem_append, hmem, false_or]

theorem keepLoop_spec (hstrip : ∀ ch, stripIt H pat ch = some (strip ch)) (l : List UInt8)
    (p : ℕ) : keepLoop H pat l p =
      some (if ∀ ch ∈ l, strip ch then none else some (p + (l.takeWhile strip).length)) := by
  induction l generalizing p with
  | nil => simp [keepLoop]
  | cons ch l ih =>
    rw [keepLoop, hstrip, Option.bind_eq_bind, Option.bind_some]
    by_cases hch : strip ch
    · rw [if_pos hch, ih]
      simp only [List.forall_mem_cons, hch, true_and, List.takeWhile_cons_of_pos hch,
        List.length_cons]
      congr 3
      omega
    · rw [if_neg hch]
      simp [hch]

theorem keepBackLoop_spec (hstrip : ∀ ch, stripIt H pat ch = some (strip ch)) (l : List UInt8)
    (q : ℕ) : keepBackLoop H pat l.reverse (q + l.length) =
      some (if ∀ ch ∈ l, strip ch then none else some (q + (l.rdropWhile strip).length)) := by
  induction l using List.reverseRecOn with
  | nil => simp [keepBackLoop]
  | append_singleton l ch ih =>
    rw [List.reverse_append, List.reverse_singleton, List.singleton_append, keepBackLoop, hstrip,
      Option.bind_eq_bind, Option.bind_some]
    by_cases hch : strip ch
    · have hlen : q + (l ++ [ch]).length - 1 = q + l.length := by simp
      rw [if_pos hch, hlen, ih, List.rdropWhile_concat_pos _ _ _ hch]
      simp [hch, or_imp, forall_and]
    · rw [if_neg hch, List.rdropWhile_concat_neg _ _ _ hch, if_neg]
      intro hall
      exact hch (hall ch (by simp))

theorem takeWhile_append_of_exists {l m : List UInt8} (h : ¬ ∀ ch ∈ l, strip ch) :
    (l ++ m).takeWhile strip = l.takeWhile strip := by
  rw [List.takeWhile_append, if_neg]
  intro hlen
  have heq : l.takeWhile strip = l := (List.takeWhile_prefix strip).eq_of_length hlen
  exact h (List.takeWhile_eq_self_iff.mp heq)

theorem rdropWhile_append_of_exists {l m : List UInt8} (h : ¬ ∀ ch ∈ m, strip ch) :
    (l ++ m).rdropWhile strip = l ++ m.rdropWhile strip := by
  have hne : ¬ (m.reverse.dropWhile strip).isEmpty := by
    rw [List.isEmpty_iff, List.dropWhile_eq_nil_iff]
    intro hall
    exact h fun ch hch => hall ch (List.mem_reverse.mpr hch)
  rw [List.rdropWhile, List.rdropWhile, List.reverse_append, List.dropWhile_append, if_neg hne,
    List.reverse_append, List.reverse_reverse]

theorem rdropWhile_append_of_forall {l m : List UInt8} (h : ∀ ch ∈ m, strip ch) :
    (l ++ m).rdropWhile strip = l.rdropWhile strip := by
  rw [List.rdropWhile, List.rdropWhile, List.reverse_append,
    List.dropWhile_append_of_pos fun ch hch => h ch (List.mem_reverse.mp hch)]

/-! ## The search over the chunks -/

theorem leftLoop_cells (h : Layout H cs) (hstrip : ∀ ch, stripIt H pat ch = some (strip ch)) :
    ∀ (l r : Cells) (p : ℕ), cs = l ++ r → ∀ fuel, r.length ≤ fuel →
      ((∀ ch ∈ content r, strip ch) → ∃ p', leftLoop H pat fuel (firstAddr r) p = some ⟨none, p'⟩) ∧
      ((¬ ∀ ch ∈ content r, strip ch) → ∃ i, leftLoop H pat fuel (firstAddr r) p = some i ∧
        Designates cs i ((content l).length + ((content r).takeWhile strip).length)) := by
  intro l r
  induction r generalizing l with
  | nil =>
    intro p heq fuel _
    refine ⟨fun _ => ⟨p, by cases fuel <;> rfl⟩, fun hne => absurd ?_ hne⟩
    intro ch hch
    cases hch
  | cons e r ih =>
    intro p heq fuel hf
    obtain ⟨fuel, rfl⟩ : ∃ n, fuel = n + 1 := ⟨fuel - 1, by simp at hf; omega⟩
    obtain ⟨hfollow, hstarts, -, -⟩ := h.cell (show cs = l ++ (e.1, e.2) :: r from heq)
    have hrun : leftLoop H pat (fuel + 1) (firstAddr (e :: r)) p =
        if ∀ ch ∈ e.2.data.drop e.2.start, strip ch then
          leftLoop H pat fuel (firstAddr r) e.2.data.length
        else some ⟨some e.1, e.2.start + ((e.2.data.drop e.2.start).takeWhile strip).length⟩ := by
      rw [show firstAddr (e :: r) = some e.1 from rfl, leftLoop, hfollow.1]
      simp only [Option.bind_eq_bind, Option.bind_some, keepLoop_spec hstrip]
      rw [show e.2.next = firstAddr r from hfollow.2.1]
      by_cases hchunk : ∀ ch ∈ e.2.data.drop e.2.start, strip ch
      · simp only [if_pos hchunk]
      · simp only [if_neg hchunk]
    have hsplit : cs = (l ++ [e]) ++ r := by simp [heq]
    obtain ⟨hall, hsome⟩ := ih (l ++ [e]) e.2.data.length hsplit fuel (by simpa using hf)
    rw [hrun, content_cons]
    by_cases hchunk : ∀ ch ∈ e.2.data.drop e.2.start, strip ch
    · rw [if_pos hchunk]
      refine ⟨fun hcontent => hall fun ch hch => hcontent ch (List.mem_append_right _ hch),
        fun hne => ?_⟩
      obtain ⟨i, hi, hdes⟩ := hsome fun hrest => hne fun ch hch =>
        (List.mem_append.mp hch).elim (hchunk ch) (hrest ch)
      refine ⟨i, hi, ?_⟩
      have hone : content [e] = e.2.data.drop e.2.start := by simp [content]
      rw [List.takeWhile_append_of_pos hchunk, List.length_append, ← Nat.add_assoc]
      rwa [content_append, List.length_append, hone] at hdes
    · rw [if_neg hchunk]
      refine ⟨fun hcontent => absurd (fun ch hch => hcontent ch (List.mem_append_left _ hch)) hchunk,
        fun _ => ⟨_, rfl, l, e.1, e.2, r, heq, rfl, Nat.le_add_right _ _, ?_⟩⟩
      rw [takeWhile_append_of_exists hchunk, Nat.add_sub_cancel_left]

theorem firstAddr_mem {r : Cells} {p : ℕ} (h : firstAddr r = some p) : p ∈ r.map Prod.fst := by
  cases r with
  | nil => cases h
  | cons e r =>
    cases h
    exact List.mem_cons_self

theorem predLoop_none {p : ℕ} : ∀ (r : Cells), Follow H r → p ∉ r.tail.map Prod.fst →
    ∀ fuel, r.length ≤ fuel → predLoop H p fuel (firstAddr r) = some none
  | [], _, _, fuel, _ => by cases fuel <;> rfl
  | e :: r, h, hnot, fuel, hf => by
    obtain ⟨fuel, rfl⟩ : ∃ n, fuel = n + 1 := ⟨fuel - 1, by simp at hf; omega⟩
    have hnext : e.2.next = firstAddr r := h.2.1
    have hne : ¬ firstAddr r = some p := fun heq => hnot (firstAddr_mem heq)
    have hrest := predLoop_none r h.2.2
      (fun hmem => hnot (List.map_subset _ (List.tail_subset r) hmem)) fuel (by simpa using hf)
    rw [show firstAddr (e :: r) = some e.1 from rfl, predLoop, h.1]
    simp only [Option.bind_eq_bind, Option.bind_some, hnext, if_neg hne, hrest]

theorem predLoop_before {e f : ℕ × Chunk} {r : Cells} : ∀ (m : Cells),
    Follow H (m ++ e :: f :: r) → f.1 ∉ (m ++ [e]).map Prod.fst → ∀ fuel, m.length < fuel →
      predLoop H f.1 fuel (firstAddr (m ++ e :: f :: r)) = some (some e.1)
  | [], h, _, fuel, hf => by
    obtain ⟨fuel, rfl⟩ : ∃ n, fuel = n + 1 := ⟨fuel - 1, by simp at hf; omega⟩
    have hnext : e.2.next = some f.1 := h.2.1
    rw [List.nil_append, show firstAddr (e :: f :: r) = some e.1 from rfl, predLoop, h.1]
    simp only [Option.bind_eq_bind, Option.bind_some, hnext, if_true]
  | g :: m, h, hnot, fuel, hf => by
    obtain ⟨fuel, rfl⟩ : ∃ n, fuel = n + 1 := ⟨fuel - 1, by simp at hf; omega⟩
    have hnext : g.2.next = firstAddr (m ++ e :: f :: r) := h.2.1
    have hnot' : f.1 ∉ (m ++ [e]).map Prod.fst := fun hmem => hnot (List.mem_cons_of_mem _ hmem)
    have hne : ¬ firstAddr (m ++ e :: f :: r) = some f.1 := by
      intro heq
      cases m with
      | nil =>
        refine hnot' ?_
        simpa [firstAddr, eq_comm] using heq
      | cons g' m =>
        refine hnot' ?_
        have hg : g'.1 = f.1 := Option.some.inj heq
        rw [← hg]
        exact List.mem_cons_self
    have hrest := predLoop_before m h.2.2 hnot' fuel (by simpa using hf)
    rw [List.cons_append, show firstAddr (g :: (m ++ e :: f :: r)) = some g.1 from rfl, predLoop,
      h.1]
    simp only [Option.bind_eq_bind, Option.bind_some, hnext, if_neg hne, hrest]

theorem Layout.pred_eq {e : ℕ × Chunk} (h : Layout H cs) (hfirst : cs.head? = some e)
    {f : ℕ × Chunk} (heq : cs = l ++ f :: r) :
    pred H e.1 f.1 = some (l.getLast?.map Prod.fst) := by
  have haddr : some e.1 = firstAddr cs := by rw [firstAddr, hfirst]; rfl
  have hnodup := h.nodup
  have hsize := h.size_le
  rw [pred, haddr]
  induction l using List.reverseRecOn with
  | nil =>
    rw [heq, List.nil_append] at hnodup
    refine predLoop_none cs h.follow ?_ _ hsize
    rw [heq, List.nil_append, List.tail_cons]
    exact (List.nodup_cons.mp hnodup).1
  | append_singleton l g _ =>
    have hsplit : cs = l ++ g :: f :: r := by simp [heq]
    have hnot : f.1 ∉ (l ++ [g]).map Prod.fst := by
      rw [heq, List.map_append, List.nodup_append] at hnodup
      intro hmem
      exact hnodup.2.2 f.1 hmem f.1 (by simp) rfl
    rw [hsplit, List.length_append, List.length_cons] at hsize
    rw [hsplit, predLoop_before l (hsplit ▸ h.follow) hnot _ (by omega)]
    simp

theorem rightLoop_cells {e : ℕ × Chunk} (h : Layout H cs) (hfirst : cs.head? = some e)
    (hstrip : ∀ ch, stripIt H pat ch = some (strip ch)) (q : Cells) :
    ∀ r, cs = q ++ r → ∀ fuel, q.length ≤ fuel →
      ((∀ ch ∈ content q, strip ch) →
        rightLoop H pat e.1 fuel (q.getLast?.map Prod.fst) = some ⟨none, 0⟩) ∧
      ((¬ ∀ ch ∈ content q, strip ch) → ∃ i,
        rightLoop H pat e.1 fuel (q.getLast?.map Prod.fst) = some i ∧
          Designates cs i ((content q).rdropWhile strip).length) := by
  induction q using List.reverseRecOn with
  | nil =>
    intro r heq fuel _
    refine ⟨fun _ => by cases fuel <;> rfl, fun hne => absurd ?_ hne⟩
    intro ch hch
    cases hch
  | append_singleton l f ih =>
    intro r heq fuel hf
    obtain ⟨fuel, rfl⟩ : ∃ n, fuel = n + 1 := ⟨fuel - 1, by simp at hf; omega⟩
    have hsplit : cs = l ++ (f.1, f.2) :: r := by simp [heq]
    obtain ⟨hfollow, hstarts, -, -⟩ := h.cell hsplit
    have hstart : f.2.start ≤ f.2.data.length := hstarts (f.1, f.2) (by simp)
    have hlen : f.2.data.length = f.2.start + (f.2.data.drop f.2.start).length := by
      rw [List.length_drop]
      omega
    have hback := keepBackLoop_spec hstrip (f.2.data.drop f.2.start) f.2.start
    rw [← hlen] at hback
    have hrun : rightLoop H pat e.1 (fuel + 1) ((l ++ [f]).getLast?.map Prod.fst) =
        if ∀ ch ∈ f.2.data.drop f.2.start, strip ch then
          rightLoop H pat e.1 fuel (l.getLast?.map Prod.fst)
        else some ⟨some f.1, f.2.start + ((f.2.data.drop f.2.start).rdropWhile strip).length⟩ := by
      rw [List.getLast?_concat, Option.map_some, rightLoop, hfollow.1]
      simp only [Option.bind_eq_bind, Option.bind_some, hback, h.pred_eq hfirst hsplit]
      by_cases hchunk : ∀ ch ∈ f.2.data.drop f.2.start, strip ch
      · simp only [if_pos hchunk]
      · simp only [if_neg hchunk]
    have hcontent : content (l ++ [f]) = content l ++ f.2.data.drop f.2.start := by
      simp [content]
    obtain ⟨hall, hsome⟩ := ih (f :: r) hsplit fuel (by simpa using hf)
    rw [hrun, hcontent]
    by_cases hchunk : ∀ ch ∈ f.2.data.drop f.2.start, strip ch
    · rw [if_pos hchunk]
      refine ⟨fun hq => hall fun ch hch => hq ch (List.mem_append_left _ hch), fun hne => ?_⟩
      obtain ⟨i, hi, hdes⟩ := hsome fun hl => hne fun ch hch =>
        (List.mem_append.mp hch).elim (hl ch) (hchunk ch)
      refine ⟨i, hi, ?_⟩
      rwa [rdropWhile_append_of_forall hchunk]
    · rw [if_neg hchunk]
      refine ⟨fun hq => absurd (fun ch hch => hq ch (List.mem_append_right _ hch)) hchunk,
        fun _ => ⟨_, rfl, l, f.1, f.2, r, hsplit, rfl, Nat.le_add_right _ _, ?_⟩⟩
      rw [rdropWhile_append_of_exists hchunk, Nat.add_sub_cancel_left, List.length_append]

/-! ## What is between -/

theorem bytesEnd_cell (h : Layout H cs) (heq : cs = l ++ (a, c) :: r) :
    ∃ i l' a' c', bytesEnd H a = some i ∧ Stands cs i (content cs).length l' a' c' [] := by
  obtain ⟨t, a', c', hlast⟩ : ∃ t a' c', (a, c) :: r = t ++ [(a', c')] :=
    ⟨((a, c) :: r).dropLast, _, _, (List.dropLast_append_getLast (by simp)).symm⟩
  have hcs : cs = (l ++ t) ++ (a', c') :: [] := by rw [heq, hlast, List.append_assoc]
  have haddr : lastAddr a r = a' := lastAddr_eq hlast
  have hcell := h.cell hcs
  have hle : c'.start ≤ c'.data.length := hcell.2.1 (a', c') (by simp)
  refine ⟨⟨some a', c'.data.length⟩, l ++ t, a', c', ?_, ⟨hcs, rfl, hle, ?_⟩⟩
  · simp only [bytesEnd, h.tail_eq heq, haddr, hcell.1.1, Option.bind_eq_bind, Option.bind_some]
  · have hlen := content_split hcs
    have hnone : (content ([] : Cells)).length = 0 := rfl
    simp only
    omega

theorem bytesSub_genericEnd (h : Layout H cs) (hi : Designates cs i k)
    (hk : k ≤ (content cs).length) (p : ℕ) :
    bytesSub H i ⟨none, p⟩ = some (.ok (bytesNew H ((content cs).drop k))) := by
  obtain ⟨l, a, c, r, hstands⟩ := hi
  obtain ⟨i', k', l', a', c', r', hi', hnorm, -⟩ := normalizeIter_stands h hstands
  obtain ⟨stop, l'', a'', c'', hstop, hj⟩ := bytesEnd_cell h hi'.split
  have hsettled : hj.Settled := .inr rfl
  have hend : isEnd H stop = some true := by
    rw [hj.isEnd_iff h hsettled, decide_eq_true le_rfl]
  have hend' : isEnd H ⟨none, p⟩ = some true := rfl
  have hnorm' : normalizeIter H ⟨none, p⟩ = some ⟨none, p⟩ := rfl
  obtain ⟨b, hb⟩ : ∃ b, stop.bytes = some b := ⟨_, hj.bytes_eq⟩
  have hsame : bytesSub H i ⟨none, p⟩ = bytesSub H i stop := by
    have hdiff : iteratorDiff H i' ⟨none, p⟩ = iteratorDiff H i' stop := by
      simp only [iteratorDiff, hend, hend', Option.bind_eq_bind, Option.bind_some, if_true]
    have hraw (len : ℕ) : subRawInternal H len i' ⟨none, p⟩ = subRawInternal H len i' stop := by
      simp only [subRawInternal, hi'.bytes_eq, hstop, hb, Option.bind_eq_bind, Option.bind_some]
    simp only [bytesSub, hnorm, hnorm', hj.normalize h hsettled, hdiff, hraw, Option.bind_eq_bind,
      Option.bind_some]
  rw [hsame, bytesSub_range h ⟨_, _, _, _, hstands⟩ ⟨_, _, _, _, hj⟩ hk, range,
    List.take_of_length_le (by rw [List.length_drop])]

theorem bytesSub_fromEnd {j j' : Iter} (hj : normalizeIter H j = some j') (p : ℕ) :
    bytesSub H ⟨none, p⟩ j = some (.ok (bytesNew H [])) := by
  have hend : isEnd H ⟨none, p⟩ = some true := rfl
  have hnorm : normalizeIter H ⟨none, p⟩ = some ⟨none, p⟩ := rfl
  simp only [bytesSub, hnorm, hj, iteratorDiff, hend, Option.bind_eq_bind, Option.bind_some, if_true]

theorem take_rdropWhile (l : List UInt8) :
    l.take (l.rdropWhile strip).length = l.rdropWhile strip := by
  have hprefix : l.rdropWhile strip <+: l := List.rdropWhile_prefix strip l
  exact (List.prefix_iff_eq_take.mp hprefix).symm

theorem drop_takeWhile_length (l : List UInt8) :
    l.drop (l.takeWhile strip).length = l.dropWhile strip := by
  conv_lhs => arg 2; rw [← List.takeWhile_append_dropWhile (p := strip) (l := l)]
  exact List.drop_left

theorem take_drop_stripped {l : List UInt8} (h : ¬ ∀ ch ∈ l, strip ch) :
    (l.takeWhile strip).length ≤ (l.rdropWhile strip).length ∧
      (l.drop (l.takeWhile strip).length).take
        ((l.rdropWhile strip).length - (l.takeWhile strip).length) =
        (l.dropWhile strip).rdropWhile strip := by
  have hrest : ¬ ∀ ch ∈ l.dropWhile strip, strip ch := by
    intro hall
    refine h fun ch hch => ?_
    rw [← List.takeWhile_append_dropWhile (p := strip) (l := l)] at hch
    exact (List.mem_append.mp hch).elim List.mem_takeWhile_imp (hall ch)
  have hright : l.rdropWhile strip = l.takeWhile strip ++ (l.dropWhile strip).rdropWhile strip := by
    rw [← rdropWhile_append_of_exists hrest, List.takeWhile_append_dropWhile]
  refine ⟨?_, ?_⟩
  · rw [hright, List.length_append]
    exact Nat.le_add_right _ _
  · rw [drop_takeWhile_length, hright, List.length_append, Nat.add_sub_cancel_left, take_rdropWhile]

theorem bytesStrip_cells {e : ℕ × Chunk} (h : Layout H (e :: r))
    (hstrip : ∀ ch, stripIt H pat ch = some (strip ch)) (side : Side) :
    bytesStrip H e.1 side pat = some (.ok (bytesNew H
      (if side = .right ∧ ∀ ch ∈ content (e :: r), strip ch then content (e :: r)
        else stripped strip side (content (e :: r))))) := by
  have hsize := h.size_le
  have hcell := h.cell (show e :: r = [] ++ (e.1, e.2) :: r from rfl)
  have hchunk : H.chunk e.1 = some e.2 := hcell.1.1
  have hbegin : Designates (e :: r) ⟨some e.1, e.2.start⟩ 0 :=
    ⟨[], e.1, e.2, r, rfl, rfl, le_rfl, by simp [content]⟩
  have htail : tail H e.1 = ((e :: r).getLast?.map Prod.fst) := by
    rw [h.tail_eq (show e :: r = [] ++ (e.1, e.2) :: r from rfl)]
    have hlast := List.dropLast_append_getLast (show e :: r ≠ [] by simp)
    rw [List.getLast?_eq_some_getLast (by simp), Option.map_some,
      lastAddr_eq (a := ((e :: r).getLast (by simp)).1) hlast.symm]
  obtain ⟨hleftAll, hleftSome⟩ := leftLoop_cells h hstrip [] (e :: r) 0 rfl H.fresh hsize
  obtain ⟨hrightAll, hrightSome⟩ :=
    rightLoop_cells h rfl hstrip (e :: r) [] (by simp) H.fresh hsize
  rw [show firstAddr (e :: r) = some e.1 from rfl] at hleftAll hleftSome
  rw [← htail] at hrightAll hrightSome
  obtain ⟨t, ht⟩ : ∃ t, tail H e.1 = some t := ⟨_, h.tail_eq (l := []) (a := e.1) (c := e.2) rfl⟩
  rw [ht] at hrightAll hrightSome
  have hfromEnd (p q : ℕ) : bytesSub H ⟨none, p⟩ ⟨none, q⟩ = some (.ok (bytesNew H [])) :=
    bytesSub_fromEnd rfl p
  by_cases hall : ∀ ch ∈ content (e :: r), strip ch
  · have hdropNil : (content (e :: r)).dropWhile strip = [] := List.dropWhile_eq_nil_iff.mpr hall
    obtain ⟨p, hp⟩ := hleftAll hall
    have hq := hrightAll hall
    cases side with
    | left =>
      simp only [bytesStrip, stripCalcIters, hp, true_or, reduceCtorEq, or_self, if_true, if_false,
        Option.bind_eq_bind, Option.bind_some, hfromEnd, false_and, stripped, hdropNil]
    | right =>
      simp only [bytesStrip, stripCalcIters, hchunk, ht, hq, reduceCtorEq, or_self, true_or, if_true,
        if_false, Option.bind_eq_bind, Option.bind_some, true_and, if_pos hall]
      exact bytesSub_genericEnd h hbegin (Nat.zero_le _) 0
    | both =>
      simp only [bytesStrip, stripCalcIters, hp, ht, hq, reduceCtorEq, or_true, if_true, if_false,
        Option.bind_eq_bind, Option.bind_some, hfromEnd, false_and, stripped, hdropNil,
        List.rdropWhile_nil]
  · obtain ⟨i, hi, hdes⟩ := hleftSome hall
    obtain ⟨j, hj, hdes'⟩ := hrightSome hall
    have hzero : (content ([] : Cells)).length = 0 := rfl
    rw [hzero, Nat.zero_add] at hdes
    obtain ⟨hle, hboth⟩ := take_drop_stripped hall
    cases side with
    | left =>
      have htake : ((content (e :: r)).takeWhile strip).length ≤ (content (e :: r)).length :=
        (List.takeWhile_prefix strip).length_le
      have hdrop : (content (e :: r)).drop ((content (e :: r)).takeWhile strip).length =
          (content (e :: r)).dropWhile strip := drop_takeWhile_length _
      simp only [bytesStrip, stripCalcIters, hi, true_or, reduceCtorEq, or_self, if_true, if_false,
        Option.bind_eq_bind, Option.bind_some, false_and, stripped]
      rw [bytesSub_genericEnd h hdes htake, hdrop]
    | right =>
      simp only [bytesStrip, stripCalcIters, hchunk, ht, hj, reduceCtorEq, or_self, true_or, if_true,
        if_false, Option.bind_eq_bind, Option.bind_some, true_and, if_neg hall, stripped]
      rw [bytesSub_range h hbegin hdes' (Nat.zero_le _), range, List.drop_zero, Nat.sub_zero,
        take_rdropWhile]
    | both =>
      simp only [bytesStrip, stripCalcIters, hi, ht, hj, reduceCtorEq, or_true, if_true, if_false,
        Option.bind_eq_bind, Option.bind_some, false_and, stripped]
      rw [bytesSub_range h hdes hdes' hle, range, hboth]

end

/-! ## Any object of a program -/

/-- The bytes that a pattern, or white-space, asks to strip. -/
def strippable (pat : Option (List UInt8)) (ch : UInt8) : Bool :=
  match pat with
  | none => isSpace ch
  | some l => decide (ch ∈ l)

/-- In any run, for any object in any chunks, any side and any pattern, exactly the two ends are
stripped, except that from the right alone an object of bytes to strip is left as it is. -/
theorem strip_exact_iff (ops : List Op) (A : Spec)
    (hrun : Spec.machine.run Spec.machine.start ops = some A) (b : ℕ) (o : Obj)
    (ho : A.objs[b]? = some o) (side : Side) (pat : Option (ℕ × Obj))
    (hpat : ∀ q ∈ pat, A.objs[q.1]? = some q.2) :
    ∃ s a l, machine.run machine.start ops = some s ∧ s.objs[b]? = some a ∧
      bytesStrip s.heap a side (pat.bind fun q => s.objs[q.1]?) =
        some (.ok (bytesNew s.heap l)) ∧
      (l = stripped (strippable (pat.map fun q => q.2.content)) side o.content ↔
        ¬ (side = .right ∧ o.content ≠ [] ∧
          ∀ ch ∈ o.content, strippable (pat.map fun q => q.2.content) ch)) := by
  obtain ⟨s, hs, hlaid⟩ := run_layout ops A hrun
  obtain ⟨e, r, hfirst, h, hcontent⟩ := hlaid b o ho
  have hstrip : ∀ ch, stripIt s.heap (pat.bind fun q => s.objs[q.1]?) ch =
      some (strippable (pat.map fun q => q.2.content) ch) := by
    intro ch
    cases pat with
    | none => rfl
    | some q =>
      obtain ⟨e', r', hfirst', h', hcontent'⟩ := hlaid q.1 q.2 (hpat q rfl)
      rw [Option.bind_some, hfirst', Option.map_some]
      simp only [stripIt, strippable]
      rw [← hcontent']
      exact stripItLoop_cells ch h'.follow h'.size_le
  have hresult := bytesStrip_cells h hstrip side
  rw [hcontent] at hresult
  refine ⟨s, e.1, _, hs, hfirst, hresult, ?_⟩
  by_cases hkept : side = .right ∧ ∀ ch ∈ o.content,
      strippable (pat.map fun q => q.2.content) ch
  · have hnil : o.content.rdropWhile (strippable (pat.map fun q => q.2.content)) = [] :=
      List.rdropWhile_eq_nil_iff.mpr hkept.2
    obtain ⟨hside, hall⟩ := hkept
    rw [if_pos ⟨hside, hall⟩, hside, stripped, hnil]
    constructor
    · intro hempty hne
      exact hne.2.1 hempty
    · intro hne
      by_contra hcontra
      exact hne ⟨rfl, hcontra, hall⟩
  · rw [if_neg hkept, iff_true_left rfl]
    intro hne
    exact hkept ⟨hne.1, hne.2.2⟩

/-- White-space on both sides of `a`, in two chunks. -/
theorem strip_exact_both : ∃ s a, machine.run machine.start
    [.newFromData [32, 97], .appendRaw 0 [9]] = some s ∧ s.objs[0]? = some a ∧
    bytesStrip s.heap a .both none = some (.ok (bytesNew s.heap [97])) := by
  obtain ⟨s, a, l, hs, ha, hstrip, hiff⟩ := strip_exact_iff
    [.newFromData [32, 97], .appendRaw 0 [9]] _ rfl 0 _ rfl .both none (by simp)
  have hl := hiff.mpr (by simp)
  rw [hl] at hstrip
  exact ⟨s, a, hs, ha, hstrip⟩

/-- Stripping a space from the right leaves it there. -/
theorem strip_right_space : ∃ s, machine.run machine.start [.newFromData [32]] = some s ∧
    bytesStrip s.heap 0 .right none = some (.ok (bytesNew s.heap [32])) ∧
    stripped (strippable none) .right [32] = [] := by
  obtain ⟨s, hs⟩ : ∃ s, machine.run machine.start [.newFromData [32]] = some s := ⟨_, rfl⟩
  refine ⟨s, hs, ?_, by decide⟩
  cases hs
  rfl

end Hilti.Bytes
