import Mathlib.Tactic
import Hilti.Lib.Search
import Hilti.Bytes.Refinement

/-!
# Searching bytes

The model of `hlt_bytes_find_bytes` and `hlt_bytes_find_bytes_at_iter`, and what they
find.  Both look for the first byte of the needle with `__hlt_bytes_find_byte_from`,
which reports a byte of the chunk it starts in only; so they find what lies in a later
chunk only if the chunks before it end with that byte.
-/

namespace Hilti.Bytes

open Hilti.Lib

set_option autoImplicit false

/-! ## The functions -/

/-- `__hlt_iterator_bytes_incr`. -/
def incrOnce (H : Heap) (p : Iter) : Option Iter := do
  let e ← isEnd H p
  if e then some p
  else do
    let b ← p.bytes
    let c ← H.chunk b
    if p.cur + 1 < c.data.length then some ⟨some b, p.cur + 1⟩
    else
      match c.next with
      | none => some ⟨some b, c.data.length⟩
      | some b' => do
        let c' ← H.chunk b'
        some ⟨some b', c'.start⟩

/-- The byte that `cur` of an iterator points to. -/
def byteAt (H : Heap) (p : Iter) : Option UInt8 := do
  let b ← p.bytes
  let c ← H.chunk b
  c.data[p.cur]?

/-- The loop of `__hlt_bytes_find_byte_from` over the chunks from `b` on: the chunk and the
place of the byte in it. -/
def laterLoop (H : Heap) (chr : UInt8) : ℕ → Option ℕ → Option (Option (ℕ × ℕ))
  | _, none => some none
  | 0, some _ => none
  | fuel + 1, some b => do
    let c ← H.chunk b
    match (c.data.drop c.start).idxOf? chr with
    | some k => some (some (b, c.start + k))
    | none => laterLoop H chr fuel c.next

/-- `__hlt_bytes_find_byte_from`.  What the loop finds is in a variable of its own, which
hides the one that is looked at after it. -/
def findByteFrom (H : Heap) (i : Iter) (chr : UInt8) : Option Iter := do
  let b ← i.bytes
  let c ← H.chunk b
  match (c.data.drop i.cur).idxOf? chr with
  | some k => some ⟨some b, i.cur + k⟩
  | none => do
    let _ ← laterLoop H chr H.fresh c.next
    bytesEnd H b

def matchLoop (H : Heap) : ℕ → Iter → Iter → Option ℤ
  | 0, _, _ => none
  | fuel + 1, c1, c2 => do
    let b1 ← byteAt H c1
    let b2 ← byteAt H c2
    if b1 ≠ b2 then some 0
    else do
      let c1 ← incrOnce H c1
      let c2 ← incrOnce H c2
      let e2 ← isEnd H c2
      if e2 then some 1
      else do
        let e1 ← isEnd H c1
        if e1 then some (-1) else matchLoop H fuel c1 c2

/-- `__hlt_bytes_match_at`. -/
def matchAt (H : Heap) (fuel : ℕ) (p : Iter) (b : ℕ) : Option ℤ := do
  let e ← isEnd H p
  let empty ← isEmpty H b
  if e then some (if empty then 1 else 0)
  else if empty then some 0
  else do
    let c2 ← bytesBegin H b
    matchLoop H fuel p c2

/-- `hlt_bytes_match_at`. -/
def bytesMatchAt (H : Heap) (fuel : ℕ) (p : Iter) (b : ℕ) : Option Bool := do
  let p ← normalizeIter H p
  let rc ← matchAt H fuel p b
  some (decide (0 < rc))

def findBytesLoop (H : Heap) (b other : ℕ) (chr : UInt8) : ℕ → Iter → Option Iter
  | 0, _ => none
  | fuel + 1, i => do
    let p ← findByteFrom H i chr
    let e ← isEnd H p
    if e then bytesEnd H b
    else do
      let found ← bytesMatchAt H (fuel + 1) p other
      if found then some p
      else do
        let i ← incrOnce H i
        let e ← isEnd H i
        if e then bytesEnd H b else findBytesLoop H b other chr fuel i

/-- `hlt_bytes_find_bytes`. -/
def findBytes (H : Heap) (fuel : ℕ) (b other : ℕ) : Option Iter := do
  let empty ← isEmpty H other
  if empty then bytesBegin H b
  else do
    let first ← bytesBegin H other
    let chr ← byteAt H first
    let i ← bytesBegin H b
    findBytesLoop H b other chr fuel i

def findAtIterLoop (H : Heap) (needle : ℕ) (chr : UInt8) : ℕ → Iter → Option (Iter × Bool)
  | 0, _ => none
  | fuel + 1, i => do
    let i ← findByteFrom H i chr
    let e ← isEnd H i
    if e then some (i, false)
    else do
      let rc ← matchAt H (fuel + 1) i needle
      if 0 < rc then some (i, true)
      else if rc = -1 then some (i, false)
      else do
        let i ← incrOnce H i
        let e ← isEnd H i
        if e then some (i, false) else findAtIterLoop H needle chr fuel i

/-- `hlt_bytes_find_bytes_at_iter`: the iterator and whether there was success. -/
def findBytesAtIter (H : Heap) (fuel : ℕ) (i : Iter) (needle : ℕ) : Option (Iter × Bool) := do
  let empty ← isEmpty H needle
  if empty then some (i, true)
  else do
    let nbegin ← bytesBegin H needle
    let chr ← byteAt H nbegin
    let i ← normalizeIter H i
    findAtIterLoop H needle chr fuel i

/-! ## Moving on -/

/-- The chunks from place `cur` of the first one on. -/
def partsFrom (c : Chunk) (cur : ℕ) (cs : Chunks) : List (List UInt8) :=
  trimParts (c.data.drop cur) (cs.map Prod.snd)

section

variable {H : Heap} {x y : Shape} {i : Iter} {k a p : ℕ} {c : Chunk} {cs : Chunks}

theorem Normal.incrOnce_spec (h : Normal H x i k a c p cs) (hrep : Rep H x)
    (hk : k < x.written.length) :
    ∃ i' a' c' p' cs', incrOnce H i = some i' ∧ Normal H x i' (k + 1) a' c' p' cs' ∧
      partsFrom c' i'.cur cs' = partsFrom c (i.cur + 1) cs := by
  have hend := h.isEnd_eq hrep
  have hcur := h.pos_lt_iff.mp hk
  have hpos := h.pos_eq
  have hle := h.le_pos
  by_cases hsame : i.cur + 1 < c.data.length
  · refine ⟨⟨some a, i.cur + 1⟩, a, c, p, cs, ?_, ⟨h.spot, rfl, by simp only; omega, by omega,
      .inl hsame⟩, rfl⟩
    simp [incrOnce, hend, hk.ne, h.bytes_eq, h.spot.chunk_eq, hsame]
  · have hdrop : c.data.drop (i.cur + 1) = [] := List.drop_eq_nil_iff.mpr (by omega)
    cases cs with
    | nil =>
      refine ⟨⟨some a, c.data.length⟩, a, c, p, [], ?_, ⟨h.spot, rfl, by simp only; omega,
        by omega, .inr ⟨rfl, rfl⟩⟩, ?_⟩
      · simp [incrOnce, hend, hk.ne, h.bytes_eq, h.spot.chunk_eq, hsame, h.spot.next_eq]
      · rw [partsFrom, partsFrom, hdrop, List.drop_length]
    | cons e l =>
      have hnext := h.spot.next
      have hne : e.2 ≠ [] := h.spot.ne_nil e (by simp)
      refine ⟨⟨some e.1, 0⟩, e.1, _, p + c.data.length, l, ?_, ⟨hnext, rfl, by simp only; omega,
        by omega, .inl (List.length_pos_iff.mpr hne)⟩, ?_⟩
      · simp [incrOnce, hend, hk.ne, h.bytes_eq, h.spot.chunk_eq, hsame, h.spot.next_eq,
          hnext.chunk_eq]
      · simp [partsFrom, hdrop, trimParts, hne]

theorem Normal.byteAt_eq (h : Normal H x i k a c p cs) (hk : k < x.written.length) :
    byteAt H i = some x.written[k] := by
  have hbyte := h.spot.getElem? (h.pos_lt_iff.mp hk)
  rw [← h.pos_eq, List.getElem?_eq_getElem hk] at hbyte
  simp [byteAt, h.bytes_eq, h.spot.chunk_eq, hbyte]

theorem Normal.parts_flatten (h : Normal H x i k a c p cs) :
    (partsFrom c i.cur cs).flatten = x.written.drop k := by
  have hcur : i.cur ≤ c.data.length := h.cur.elim le_of_lt fun h => h.2.le
  rw [partsFrom, flatten_trimParts, h.pos_eq, h.spot.drop_eq hcur]
  rfl

theorem Normal.parts_eq (h : Normal H x i k a c p cs) (hk : k < x.written.length) :
    partsFrom c i.cur cs = c.data.drop i.cur :: cs.map Prod.snd := by
  have hcur := h.pos_lt_iff.mp hk
  rw [partsFrom, trimParts, if_neg (by simp [hcur])]

/-! ## Finding a byte -/

theorem laterLoop_spec (chr : UInt8) {q : ℕ} (h : Follow H (untrimmed q cs)) {fuel : ℕ}
    (hf : cs.length ≤ fuel) : ∃ o, laterLoop H chr fuel (addrOf cs) = some o := by
  induction cs generalizing q fuel with
  | nil => exact ⟨none, by cases fuel <;> rfl⟩
  | cons e l ih =>
    obtain ⟨fuel, rfl⟩ : ∃ n, fuel = n + 1 := ⟨fuel - 1, by simp at hf; omega⟩
    obtain ⟨o, ho⟩ := ih h.2.2 (show l.length ≤ fuel by simpa using hf)
    cases hfind : e.2.idxOf? chr with
    | some k => exact ⟨some (e.1, k), by simp [laterLoop, h.1, hfind]⟩
    | none => exact ⟨o, by simp [laterLoop, h.1, hfind, ho]⟩

theorem Spot.bytesEnd_eq (h : Spot H x a c p cs) (hrep : Rep H x) :
    bytesEnd H a = bytesEnd H x.first := by
  rw [bytesEnd, bytesEnd, h.tail_eq hrep, hrep.tail_eq, h.lastOf_eq]

theorem Normal.bytesEnd_eq (h : Normal H x i k a c p cs) (hrep : Rep H x)
    (hk : k = x.written.length) : bytesEnd H x.first = some i := by
  have hcur : ¬ i.cur < c.data.length := fun hlt => (h.pos_lt_iff.mpr hlt).ne hk
  obtain ⟨rfl, hcur⟩ := h.cur.resolve_left hcur
  have hi : i = ⟨some a, c.data.length⟩ := by
    rw [← h.bytes_eq, ← hcur]
  rw [← h.spot.bytesEnd_eq hrep, bytesEnd, h.spot.tail_eq hrep, hi]
  simp [lastOf, h.spot.chunk_eq]

theorem Normal.findByteFrom_spec (h : Normal H x i k a c p cs) (hrep : Rep H x) (chr : UInt8) :
    (∃ n, findByteFrom H i chr = some ⟨some a, i.cur + n⟩ ∧
        (c.data.drop i.cur)[n]? = some chr ∧ (∀ j < n, (c.data.drop i.cur)[j]? ≠ some chr) ∧
        Normal H x ⟨some a, i.cur + n⟩ (k + n) a c p cs ∧ k + n < x.written.length) ∨
      (chr ∉ c.data.drop i.cur ∧ findByteFrom H i chr = bytesEnd H x.first) := by
  have hlen := h.spot.written_length
  have hpos := h.pos_eq
  have hle := h.le_pos
  cases hfind : (c.data.drop i.cur).idxOf? chr with
  | some n =>
    obtain ⟨hn, hget, hbefore⟩ := List.idxOf?_eq_some_iff.mp hfind
    have hn' := hn
    rw [List.length_drop] at hn'
    refine .inl ⟨n, ?_, ?_, fun j hj heq => ?_, ⟨h.spot, rfl, by simp only; omega, by omega,
      .inl (show i.cur + n < c.data.length by omega)⟩, by omega⟩
    · simp [findByteFrom, h.bytes_eq, h.spot.chunk_eq, hfind]
    · rw [List.getElem?_eq_getElem hn, hget]
    · rw [List.getElem?_eq_getElem (by omega), Option.some.injEq] at heq
      exact hbefore j hj heq
  | none =>
    refine .inr ⟨List.idxOf?_eq_none_iff.mp hfind, ?_⟩
    obtain ⟨o, ho⟩ := laterLoop_spec chr h.spot.follow (h.spot.length_lt hrep).le
    simp [findByteFrom, h.bytes_eq, h.spot.chunk_eq, hfind, h.spot.next_eq, ho,
      h.spot.bytesEnd_eq hrep]

/-! ## Comparing -/

/-- What comparing with a needle comes to: it is there, or it may still be there when more
follows, or it is not. -/
def verdict (needle l : List UInt8) : ℤ :=
  if needle <+: l then 1 else if l <+: needle then -1 else 0

theorem verdict_cons {b1 b2 : UInt8} {needle l : List UInt8} (hne : b1 ≠ b2) :
    verdict (b2 :: needle) (b1 :: l) = 0 := by
  rw [verdict, if_neg (by simp [hne.symm]), if_neg (by simp [hne])]

theorem verdict_cons_self (b : UInt8) (needle l : List UInt8) :
    verdict (b :: needle) (b :: l) = verdict needle l := by
  simp only [verdict, List.cons_prefix_cons, true_and]

theorem matchLoop_spec (hx : Rep H x) (hy : Rep H y) (fuel : ℕ) :
    ∀ {c1 c2 : Iter} {k m a a' p p' : ℕ} {c c' : Chunk} {cs cs' : Chunks},
      Normal H x c1 k a c p cs → Normal H y c2 m a' c' p' cs' → k < x.written.length →
      m < y.written.length → y.written.length - m < fuel →
      matchLoop H fuel c1 c2 = some (verdict (y.written.drop m) (x.written.drop k)) := by
  induction fuel with
  | zero =>
    intro c1 c2 k m a a' p p' c c' cs cs' _ _ _ _ hf
    omega
  | succ fuel ih =>
    intro c1 c2 k m a a' p p' c c' cs cs' h1 h2 hk hm hf
    rw [List.drop_eq_getElem_cons hk, List.drop_eq_getElem_cons hm, matchLoop, h1.byteAt_eq hk,
      h2.byteAt_eq hm]
    simp only [Option.bind_eq_bind, Option.bind_some]
    by_cases hne : x.written[k] = y.written[m]
    · obtain ⟨c1', _, _, _, _, hincr1, h1', -⟩ := h1.incrOnce_spec hx hk
      obtain ⟨c2', _, _, _, _, hincr2, h2', -⟩ := h2.incrOnce_spec hy hm
      rw [if_neg (by simp [hne]), hincr1, hincr2, hne, verdict_cons_self]
      simp only [Option.bind_some, h1'.isEnd_eq hx, h2'.isEnd_eq hy, decide_eq_true_eq]
      by_cases hend2 : m + 1 = y.written.length
      · rw [if_pos hend2, List.drop_of_length_le hend2.ge, verdict, if_pos List.nil_prefix]
      · rw [if_neg hend2]
        have hne2 : y.written.drop (m + 1) ≠ [] := by simp; omega
        by_cases hend1 : k + 1 = x.written.length
        · rw [if_pos hend1, List.drop_of_length_le hend1.ge, verdict,
            if_neg (by simpa using hne2), if_pos List.nil_prefix]
        · rw [if_neg hend1]
          have := h1'.pos_le
          have := h2'.pos_le
          exact ih h1' h2' (by omega) (by omega) (by omega)
    · rw [if_pos hne, verdict_cons hne]

theorem matchAt_spec (hx : Rep H x) (hy : Rep H y) (h : Normal H x i k a c p cs)
    (hk : k < x.written.length) (hne : y.written.drop y.trimmed ≠ []) (fuel : ℕ)
    (hf : (y.written.drop y.trimmed).length < fuel) :
    matchAt H fuel i y.first =
      some (verdict (y.written.drop y.trimmed) (x.written.drop k)) := by
  obtain ⟨c2, a', c', p', cs', hbegin, h2⟩ := bytesBegin_normal hy
  have hlt : y.trimmed < y.written.length := by
    by_contra hge
    exact hne (List.drop_eq_nil_iff.mpr (by omega))
  rw [List.length_drop] at hf
  have hloop := matchLoop_spec hx hy fuel h h2 hk hlt hf
  simp [matchAt, h.isEnd_eq hx, hk.ne, hy.isEmpty_eq, hne, hbegin, hloop]

/-! ## The first occurrence -/

section

variable {needle : List UInt8} {chr : UInt8}

theorem occurrence_head (hchr : needle.head? = some chr) (l : List UInt8) (h : needle <+: l) :
    l.head? = some chr := by
  obtain ⟨b, needle, rfl⟩ := List.exists_cons_of_ne_nil (l := needle) (by rintro rfl; simp at hchr)
  obtain ⟨t, rfl⟩ := h
  simpa using hchr

theorem verdict_pos {l : List UInt8} : 0 < verdict needle l ↔ needle <+: l := by
  unfold verdict
  split_ifs <;> simp_all

theorem no_hit_before {hit : List UInt8 → Prop} (hstart : ∀ l, hit l → l.head? = some chr)
    {part : List UInt8} (parts : List (List UInt8)) {n : ℕ} (hn : part[n]? = some chr)
    (hbefore : ∀ j < n, part[j]? ≠ some chr) :
    ∀ j < n, ¬ hit ((part :: parts).flatten.drop j) := by
  intro j hj hhit
  have hlt := (List.getElem?_eq_some_iff.mp hn).1
  have hhead := hstart _ hhit
  rw [List.flatten_cons, List.head?_drop, List.getElem?_append_left (by omega)] at hhead
  exact hbefore j hj hhead

theorem last_of_mem {part : List UInt8} {n m : ℕ} (hn : part[n]? = some chr) (hm : m ≤ n + 1) :
    part.drop m ≠ [] ∨ part.getLast? = some chr := by
  have hlt := (List.getElem?_eq_some_iff.mp hn).1
  by_cases hnil : part.drop m = []
  · have hlen := List.drop_eq_nil_iff.mp hnil
    have hlast : part.length - 1 = n := by omega
    exact .inr (by rw [List.getLast?_eq_getElem?, hlast, hn])
  · exact .inl hnil

theorem findBytesLoop_spec (hx : Rep H x) (hy : Rep H y)
    (hneedle : y.written.drop y.trimmed = needle) (hchr : needle.head? = some chr) (fuel : ℕ) :
    ∀ {i : Iter} {k a p : ℕ} {c : Chunk} {cs : Chunks}, Normal H x i k a c p cs →
      x.written.length - k + needle.length < fuel →
      ∃ i' r a' c' p' cs', findBytesLoop H x.first y.first chr fuel i = some i' ∧
        Normal H x i' (k + r) a' c' p' cs' ∧
        Outcome (fun l => needle <+: l) chr (partsFrom c i.cur cs) r := by
  have hstart := occurrence_head hchr
  have hne : y.written.drop y.trimmed ≠ [] := by
    rw [hneedle]
    rintro rfl
    simp at hchr
  obtain ⟨stop, a₁, c₁, p₁, cs₁, hstop, hstopn⟩ := bytesEnd_normal hx
  induction fuel with
  | zero =>
    intro i k a p c cs _ hf
    omega
  | succ fuel ih =>
    intro i k a p c cs h hf
    have hle := h.pos_le
    have hflat := h.parts_flatten
    rw [findBytesLoop]
    rcases h.findByteFrom_spec hx chr with ⟨n, hfind, hn, hbefore, hn', hlt⟩ | ⟨hmem, hfind⟩
    · have hk : k < x.written.length := by omega
      have hparts := h.parts_eq hk
      have hno := no_hit_before hstart (cs.map Prod.snd) hn hbefore
      have hdrop : (partsFrom c i.cur cs).flatten.drop n = x.written.drop (k + n) := by
        rw [hflat, List.drop_drop]
      have hmatch := matchAt_spec hx hy hn' hlt hne (fuel + 1) (by rw [hneedle]; omega)
      rw [hfind]
      simp only [Option.bind_eq_bind, Option.bind_some, hn'.isEnd_eq hx, hlt.ne, decide_false,
        Bool.false_eq_true, if_false, bytesMatchAt, hn'.normalize hx, hmatch, verdict_pos, hneedle,
        decide_eq_true_eq]
      by_cases hfound : needle <+: x.written.drop (k + n)
      · rw [if_pos hfound]
        refine ⟨_, n, a, c, p, cs, rfl, hn', ?_⟩
        rw [hparts]
        refine Outcome.found (List.getElem?_eq_some_iff.mp hn).1 ⟨?_, hno⟩
        rwa [← hparts, hdrop]
      · rw [if_neg hfound]
        obtain ⟨i₁, a', c', p', cs', hincr, h₁, hparts₁⟩ := h.incrOnce_spec hx hk
        have hpos₁ := h₁.pos_le
        have htail : partsFrom c (i.cur + 1) cs =
            trimParts ((c.data.drop i.cur).drop 1) (cs.map Prod.snd) := by
          rw [partsFrom, List.drop_drop]
        have hno₁ : ∀ j < 1, ¬ needle <+: (c.data.drop i.cur :: cs.map Prod.snd).flatten.drop j := by
          intro j hj
          obtain rfl : j = 0 := by omega
          rcases Nat.eq_zero_or_pos n with rfl | hpos
          · rwa [← hparts, hdrop]
          · exact hno 0 hpos
        have hskip : ∀ r, Outcome (fun l => needle <+: l) chr (partsFrom c (i.cur + 1) cs) r →
            Outcome (fun l => needle <+: l) chr (partsFrom c i.cur cs) (r + 1) := by
          intro r hr
          rw [hparts]
          rw [htail] at hr
          have := (List.getElem?_eq_some_iff.mp hn).1
          exact Outcome.skip (by omega) (last_of_mem hn (by omega)) hno₁ hr
        simp only [hincr, Option.bind_some, h₁.isEnd_eq hx, decide_eq_true_eq]
        by_cases hend : k + 1 = x.written.length
        · rw [if_pos hend, hstop]
          refine ⟨stop, 0 + 1, a₁, c₁, p₁, cs₁, rfl, by rwa [Nat.zero_add, hend], hskip 0 ?_⟩
          refine Outcome.nil hstart ?_
          rw [← hparts₁, h₁.parts_flatten, List.drop_of_length_le hend.ge]
        · rw [if_neg hend]
          obtain ⟨i', r, a'', c'', p'', cs'', hrun, hi', hout⟩ := ih h₁ (by omega)
          rw [hparts₁] at hout
          refine ⟨i', r + 1, a'', c'', p'', cs'', hrun, ?_, hskip r hout⟩
          rwa [show k + (r + 1) = k + 1 + r by omega]
    · rw [hfind, hstop]
      simp only [Option.bind_eq_bind, Option.bind_some, hstopn.isEnd_eq hx, decide_true, if_true]
      refine ⟨stop, x.written.length - k, a₁, c₁, p₁, cs₁, rfl, by rwa [Nat.add_sub_cancel' hle], ?_⟩
      have hlen : x.written.length - k = (partsFrom c i.cur cs).flatten.length := by
        rw [hflat, List.length_drop]
      by_cases hk : k < x.written.length
      · rw [hlen, h.parts_eq hk]
        exact Outcome.stop hstart hmem
      · rw [show x.written.length - k = 0 by omega]
        refine Outcome.nil hstart ?_
        rw [hflat, List.drop_of_length_le (by omega)]

/-! ## Candidates -/

/-- The needle is there, or it may still be there when more follows. -/
def Candidate (needle l : List UInt8) : Prop :=
  l ≠ [] ∧ (needle <+: l ∨ l <+: needle)

theorem candidate_head (hchr : needle.head? = some chr) (l : List UInt8) (h : Candidate needle l) :
    l.head? = some chr := by
  obtain ⟨hne, h | h⟩ := h
  · exact occurrence_head hchr l h
  · obtain ⟨b, l, rfl⟩ := List.exists_cons_of_ne_nil hne
    obtain ⟨t, rfl⟩ := h
    simpa using hchr

theorem verdict_eq_zero {l : List UInt8} (hne : l ≠ []) :
    verdict needle l = 0 ↔ ¬ Candidate needle l := by
  unfold verdict Candidate
  split_ifs <;> simp_all

theorem findAtIterLoop_spec (hx : Rep H x) (hy : Rep H y)
    (hneedle : y.written.drop y.trimmed = needle) (hchr : needle.head? = some chr) (fuel : ℕ) :
    ∀ {i : Iter} {k a p : ℕ} {c : Chunk} {cs : Chunks}, Normal H x i k a c p cs →
      x.written.length - k + needle.length < fuel →
      ∃ i' r a' c' p' cs', findAtIterLoop H y.first chr fuel i =
          some (i', decide (needle <+: x.written.drop (k + r))) ∧
        Normal H x i' (k + r) a' c' p' cs' ∧
        Outcome (Candidate needle) chr (partsFrom c i.cur cs) r := by
  have hstart := candidate_head hchr
  have hne : y.written.drop y.trimmed ≠ [] := by
    rw [hneedle]
    rintro rfl
    simp at hchr
  have hend : ¬ needle <+: x.written.drop x.written.length := by
    rw [List.drop_length, List.prefix_nil, ← hneedle]
    exact hne
  obtain ⟨stop, a₁, c₁, p₁, cs₁, hstop, hstopn⟩ := bytesEnd_normal hx
  induction fuel with
  | zero =>
    intro i k a p c cs _ hf
    omega
  | succ fuel ih =>
    intro i k a p c cs h hf
    have hle := h.pos_le
    have hflat := h.parts_flatten
    rw [findAtIterLoop]
    rcases h.findByteFrom_spec hx chr with ⟨n, hfind, hn, hbefore, hn', hlt⟩ | ⟨hmem, hfind⟩
    · have hk : k < x.written.length := by omega
      have hparts := h.parts_eq hk
      have hno := no_hit_before hstart (cs.map Prod.snd) hn hbefore
      have hnlt := (List.getElem?_eq_some_iff.mp hn).1
      have hdrop : (partsFrom c i.cur cs).flatten.drop n = x.written.drop (k + n) := by
        rw [hflat, List.drop_drop]
      have hrest : x.written.drop (k + n) ≠ [] := by simp; omega
      have hmatch := matchAt_spec hx hy hn' hlt hne (fuel + 1) (by rw [hneedle]; omega)
      rw [hfind]
      simp only [Option.bind_eq_bind, Option.bind_some, hn'.isEnd_eq hx, hlt.ne, decide_false,
        Bool.false_eq_true, if_false, hmatch, verdict_pos, hneedle]
      by_cases hcand : Candidate needle (x.written.drop (k + n))
      · have hout : Outcome (Candidate needle) chr (partsFrom c i.cur cs) n := by
          rw [hparts]
          refine Outcome.found hnlt ⟨?_, hno⟩
          rwa [← hparts, hdrop]
        refine ⟨⟨some a, i.cur + n⟩, n, a, c, p, cs, ?_, hn', hout⟩
        by_cases hfound : needle <+: x.written.drop (k + n)
        · simp [hfound]
        · have hpre := hcand.2.resolve_left hfound
          have hv : verdict needle (x.written.drop (k + n)) = -1 := by
            rw [verdict, if_neg hfound, if_pos hpre]
          simp [hfound, hv]
      · have hfound : ¬ needle <+: x.written.drop (k + n) := fun hpre => hcand ⟨hrest, .inl hpre⟩
        rw [if_neg hfound, (verdict_eq_zero hrest).mpr hcand, if_neg (by omega)]
        obtain ⟨i₁, a', c', p', cs', hincr, h₁, hparts₁⟩ := hn'.incrOnce_spec hx hlt
        have hpos₁ := h₁.pos_le
        have htail : partsFrom c (i.cur + n + 1) cs =
            trimParts ((c.data.drop i.cur).drop (n + 1)) (cs.map Prod.snd) := by
          rw [partsFrom, List.drop_drop, Nat.add_assoc]
        have hno₁ : ∀ j < n + 1,
            ¬ Candidate needle ((c.data.drop i.cur :: cs.map Prod.snd).flatten.drop j) := by
          intro j hj
          rcases Nat.lt_succ_iff_lt_or_eq.mp hj with hj | rfl
          · exact hno j hj
          · rwa [← hparts, hdrop]
        have hskip : ∀ r, Outcome (Candidate needle) chr (partsFrom c (i.cur + n + 1) cs) r →
            Outcome (Candidate needle) chr (partsFrom c i.cur cs) (r + (n + 1)) := by
          intro r hr
          rw [hparts]
          rw [htail] at hr
          exact Outcome.skip (by omega) (last_of_mem hn le_rfl) hno₁ hr
        simp only [hincr, Option.bind_some, h₁.isEnd_eq hx, decide_eq_true_eq]
        by_cases hlast : k + n + 1 = x.written.length
        · rw [if_pos hlast]
          refine ⟨i₁, 0 + (n + 1), a', c', p', cs', ?_, ?_, hskip 0 (Outcome.nil hstart ?_)⟩
          · rw [show k + (0 + (n + 1)) = x.written.length by omega]
            simp only [hend, decide_false]
          · rwa [show k + (0 + (n + 1)) = k + n + 1 by omega]
          · rw [← hparts₁, h₁.parts_flatten, List.drop_of_length_le hlast.ge]
        · rw [if_neg hlast]
          obtain ⟨i', r, a'', c'', p'', cs'', hrun, hi', hout⟩ := ih h₁ (by omega)
          rw [hparts₁] at hout
          have hsum : k + (r + (n + 1)) = k + n + 1 + r := by omega
          exact ⟨i', r + (n + 1), a'', c'', p'', cs'', by rw [hrun, hsum], by rwa [hsum],
            hskip r hout⟩
    · rw [hfind, hstop]
      simp only [Option.bind_eq_bind, Option.bind_some, hstopn.isEnd_eq hx, decide_true, if_true]
      have hsum : k + (x.written.length - k) = x.written.length := Nat.add_sub_cancel' hle
      refine ⟨stop, x.written.length - k, a₁, c₁, p₁, cs₁, ?_, by rwa [hsum], ?_⟩
      · rw [hsum]
        simp only [hend, decide_false]
      · have hlen : x.written.length - k = (partsFrom c i.cur cs).flatten.length := by
          rw [hflat, List.length_drop]
        by_cases hk : k < x.written.length
        · rw [hlen, h.parts_eq hk]
          exact Outcome.stop hstart hmem
        · rw [show x.written.length - k = 0 by omega]
          refine Outcome.nil hstart ?_
          rw [hflat, List.drop_of_length_le (by omega)]

end

/-! ## Chunks on the heap -/

def partsLoop (H : Heap) : ℕ → Option ℕ → Option (List (List UInt8))
  | _, none => some []
  | 0, some _ => none
  | fuel + 1, some b => do
    let c ← H.chunk b
    let rest ← partsLoop H fuel c.next
    some (c.data.drop c.start :: rest)

/-- The bytes from an iterator on as they lie in the chunks. -/
def iterParts (H : Heap) (i : Iter) : Option (List (List UInt8)) := do
  let i ← normalizeIter H i
  let b ← i.bytes
  let c ← H.chunk b
  let rest ← partsLoop H H.fresh c.next
  some (trimParts (c.data.drop i.cur) rest)

theorem partsLoop_spec {q : ℕ} (h : Follow H (untrimmed q cs)) {fuel : ℕ} (hf : cs.length ≤ fuel) :
    partsLoop H fuel (addrOf cs) = some (cs.map Prod.snd) := by
  induction cs generalizing q fuel with
  | nil => cases fuel <;> rfl
  | cons e l ih =>
    obtain ⟨fuel, rfl⟩ : ∃ n, fuel = n + 1 := ⟨fuel - 1, by simp at hf; omega⟩
    have hrest := ih h.2.2 (show l.length ≤ fuel by simpa using hf)
    simp [partsLoop, h.1, hrest]

theorem Normal.iterParts_eq (h : Normal H x i k a c p cs) (hrep : Rep H x) :
    iterParts H i = some (partsFrom c i.cur cs) := by
  have hrest := partsLoop_spec h.spot.follow (h.spot.length_lt hrep).le
  simp [iterParts, h.normalize hrep, h.bytes_eq, h.spot.chunk_eq, h.spot.next_eq, hrest, partsFrom]

end

/-! ## Any two objects of a program -/

/-- The chunks that hold the content of an object. -/
def objParts (H : Heap) (b : ℕ) : Option (List (List UInt8)) :=
  (bytesBegin H b).bind (iterParts H)

/-- The iterator points to the first occurrence of the needle in the object, or to its end
if there is none. -/
def PointsToFirst (H : Heap) (b : ℕ) (i : Iter) (o n : Obj) : Prop :=
  (∃ k, FirstAt (fun l => n.content <+: l) o.content k ∧
      iteratorIndex H i = some ((o.trimmed + k : ℕ) : ℤ)) ∨
    ((∀ k, ¬ n.content <+: o.content.drop k) ∧ bytesEnd H b = some i)

theorem findBytes_spec {H : Heap} {x y : Shape} (hx : Rep H x) (hy : Rep H y) :
    ∃ parts, objParts H x.first = some parts ∧ parts.flatten = x.obj.content ∧
      ∀ fuel, x.obj.content.length + y.obj.content.length < fuel →
        ∃ i, findBytes H fuel x.first y.first = some i ∧
          (PointsToFirst H x.first i x.obj y.obj ↔
            ∀ chr k, y.obj.content.head? = some chr →
              FirstAt (fun l => y.obj.content <+: l) x.obj.content k → Reaches chr parts k) := by
  obtain ⟨i, a, c, p, cs, hbegin, h⟩ := bytesBegin_normal hx
  obtain ⟨stop, a₁, c₁, p₁, cs₁, hstop, hstopn⟩ := bytesEnd_normal hx
  have hflat : (partsFrom c i.cur cs).flatten = x.obj.content := h.parts_flatten
  refine ⟨partsFrom c i.cur cs, by rw [objParts, hbegin]; exact h.iterParts_eq hx, hflat,
    fun fuel hf => ?_⟩
  have hempty : isEmpty H y.first = some (decide (y.obj.content = [])) := hy.isEmpty_eq
  by_cases hnil : y.obj.content = []
  · refine ⟨i, by simp [findBytes, hempty, hnil, hbegin], ?_⟩
    refine ⟨fun _ chr k hchr => by simp [hnil] at hchr, fun _ => .inl ⟨0, ⟨?_, by simp⟩, ?_⟩⟩
    · rw [hnil]
      exact List.nil_prefix
    · exact iteratorIndex_spec hx h.points le_rfl
  · obtain ⟨chr, rest, hcons⟩ := List.exists_cons_of_ne_nil hnil
    obtain ⟨first, a', c', p', cs', hfirst, h'⟩ := bytesBegin_normal hy
    have hlt : y.trimmed < y.written.length := by
      by_contra hge
      exact hnil (List.drop_eq_nil_iff.mpr (not_lt.mp hge))
    have hchr : y.obj.content.head? = some chr := by rw [hcons]; rfl
    have hbyte : byteAt H first = some chr := by
      rw [h'.byteAt_eq hlt, ← List.getElem?_eq_getElem hlt, ← List.head?_drop]
      exact hchr
    have hlen : x.written.length - x.trimmed = x.obj.content.length := (List.length_drop ..).symm
    obtain ⟨i', r, a'', c'', p'', cs'', hrun, hi', hout⟩ :=
      findBytesLoop_spec hx hy rfl hchr fuel h (by rw [hlen]; exact hf)
    refine ⟨i', by simp [findBytes, hempty, hnil, hfirst, hbyte, hbegin, hrun], ?_⟩
    have hindex := iteratorIndex_spec hx hi'.points (Nat.le_add_right _ _)
    unfold Outcome at hout
    rw [hflat] at hout
    -- an occurrence starts before the end
    have hinside : ∀ k, y.obj.content <+: x.obj.content.drop k → k < x.obj.content.length := by
      intro k hpre
      by_contra hge
      rw [List.drop_of_length_le (not_lt.mp hge), List.prefix_nil] at hpre
      exact hnil hpre
    constructor
    · intro hprop chr' k hchr' hk
      rw [hchr, Option.some.injEq] at hchr'
      subst hchr'
      obtain ⟨hr, hreach⟩ | ⟨hnone, hr⟩ := hout
      · rwa [hk.unique hr]
      · obtain ⟨k', hk', hindex'⟩ | ⟨hno, -⟩ := hprop
        · have hsame : ((x.trimmed + r : ℕ) : ℤ) = ((x.trimmed + k' : ℕ) : ℤ) :=
            Option.some.inj (hindex.symm.trans hindex')
          have := hinside k' hk'.1
          omega
        · exact absurd hk.1 (hno k)
    · intro hall
      obtain ⟨hr, -⟩ | ⟨hnone, hr⟩ := hout
      · exact .inl ⟨r, hr, hindex⟩
      · refine .inr ⟨fun k hk => ?_, ?_⟩
        · obtain ⟨j, hj⟩ := exists_firstAt hk
          exact hnone j hj (hall chr j hchr hj)
        · refine hi'.bytesEnd_eq hx ?_
          have := hx.trimmed_le
          omega

/-- In any run, searching one object for another one gives the first occurrence exactly if
every chunk before the one it starts in ends with the first byte of the needle. -/
theorem findBytes_pointsToFirst (ops : List Op) (A : Spec)
    (hrun : Spec.machine.run Spec.machine.start ops = some A) (b other : ℕ) (o n : Obj)
    (ho : A.objs[b]? = some o) (hn : A.objs[other]? = some n) :
    ∃ s hay needle parts, machine.run machine.start ops = some s ∧ s.objs[b]? = some hay ∧
      s.objs[other]? = some needle ∧ objParts s.heap hay = some parts ∧
      parts.flatten = o.content ∧
      ∀ fuel, o.content.length + n.content.length < fuel →
        ∃ i, findBytes s.heap fuel hay needle = some i ∧
          (PointsToFirst s.heap hay i o n ↔ ∀ chr k, n.content.head? = some chr →
            FirstAt (fun l => n.content <+: l) o.content k → Reaches chr parts k) := by
  obtain ⟨s, hs, hprog⟩ := start_sim.run ops hrun
  obtain ⟨xs, hsim⟩ := hprog.sim
  obtain ⟨x, -, rfl, hfirst, hx⟩ := hsim.object ho
  obtain ⟨y, -, rfl, hfirst', hy⟩ := hsim.object hn
  obtain ⟨parts, hparts, hflat, hfind⟩ := findBytes_spec hx hy
  exact ⟨s, x.first, y.first, parts, hs, hfirst, hfirst', hparts, hflat, hfind⟩

/-- An object `abcd` of two chunks, and needles to look for in it. -/
def needleOps : List Op :=
  [.newFromData [97, 98], .appendRaw 0 [99, 100], .newFromData [98, 99], .newFromData [99, 100]]

/-- The needle `bc` lies across the two chunks and is found. -/
theorem findBytes_across :
    ∃ s i, machine.run machine.start needleOps = some s ∧ findBytes s.heap 7 0 2 = some i ∧
      PointsToFirst s.heap 0 i ⟨[97, 98, 99, 100], 0⟩ ⟨[98, 99], 0⟩ := by
  obtain ⟨s, hay, needle, parts, hs, hhay, hneedle, hparts, -, hfind⟩ :=
    findBytes_pointsToFirst needleOps _ rfl 0 1 _ _ rfl rfl
  have hs' : machine.run machine.start needleOps = some s := hs
  obtain ⟨i, hi, hiff⟩ := hfind 7 (by decide)
  cases hs
  cases hhay
  cases hneedle
  cases hparts
  refine ⟨_, i, hs', hi, hiff.mpr fun chr k hchr hk => ?_⟩
  have hfirst : FirstAt (fun l => ([98, 99] : List UInt8) <+: l) [97, 98, 99, 100] 1 :=
    ⟨by decide, by decide⟩
  rw [hk.unique hfirst]
  cases hchr
  decide

/-- The needle `cd` lies in the second chunk and is not found. -/
theorem findBytes_misses :
    ((machine.run machine.start needleOps).bind fun s =>
      (findBytes s.heap 7 0 3).bind (iteratorIndex s.heap)) = some 4 ∧
      FirstAt (fun l => ([99, 100] : List UInt8) <+: l) [97, 98, 99, 100] 2 :=
  ⟨by decide, by decide, by decide⟩

end Hilti.Bytes
