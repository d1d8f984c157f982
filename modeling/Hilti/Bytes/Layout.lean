import Mathlib.Tactic
import Hilti.Bytes.Search

/-!
# Objects of any chunking

`Layout` says that the chunks of an object are linked on the heap, whatever their sizes are: any
of them may be empty.  The iterators into them designate positions among the bytes of the
object, those beyond the end positions that data may still be appended for.
-/

namespace Hilti.Bytes

open Hilti.Lib

set_option autoImplicit false

/-- The chunks of an object, with their addresses. -/
abbrev Cells := List (ℕ × Chunk)

/-- The bytes of the object. -/
def content (cs : Cells) : List UInt8 :=
  cs.flatMap fun e => e.2.data.drop e.2.start

structure Layout (H : Heap) (cs : Cells) : Prop where
  follow : Follow H cs
  nodup : (cs.map Prod.fst).Nodup
  old : ∀ e ∈ cs, e.1 < H.fresh
  size_le : cs.length ≤ H.fresh
  start_le : ∀ e ∈ cs, e.2.start ≤ e.2.data.length
  offset_eq : ∃ base : ℤ, ∀ l e r, cs = l ++ e :: r → content (l ++ [e]) ≠ [] →
    e.2.offset = base + (content l).length

/-- The iterator is in the chunk `c` at `a`, between the chunks `l` and `r`, and designates
position `k`. -/
structure Stands (cs : Cells) (i : Iter) (k : ℕ) (l : Cells) (a : ℕ) (c : Chunk) (r : Cells) :
    Prop where
  split : cs = l ++ (a, c) :: r
  bytes_eq : i.bytes = some a
  start_le : c.start ≤ i.cur
  pos_eq : k = (content l).length + (i.cur - c.start)

/-- The iterator designates position `k` of the object, which may be beyond its end. -/
def Designates (cs : Cells) (i : Iter) (k : ℕ) : Prop :=
  ∃ l a c r, Stands cs i k l a c r

/-! ## Cells -/

theorem content_append (l r : Cells) : content (l ++ r) = content l ++ content r := by
  simp [content]

theorem content_cons (e : ℕ × Chunk) (r : Cells) :
    content (e :: r) = e.2.data.drop e.2.start ++ content r := by
  simp [content]

theorem content_split {cs l r : Cells} {a : ℕ} {c : Chunk} (h : cs = l ++ (a, c) :: r) :
    (content cs).length = (content l).length + (c.data.length - c.start) + (content r).length := by
  rw [h, content_append, content_cons]
  simp only [List.length_append, List.length_drop]
  omega

theorem Follow.suffix {H : Heap} {l r : Cells} (h : Follow H (l ++ r)) : Follow H r := by
  induction l with
  | nil => exact h
  | cons e l ih => exact ih h.2.2

def firstAddr (cs : Cells) : Option ℕ :=
  cs.head?.map Prod.fst

def lastAddr : ℕ → Cells → ℕ
  | a, [] => a
  | _, e :: r => lastAddr e.1 r

theorem lastAddr_mem {r : Cells} (a : ℕ) (hne : r ≠ []) : lastAddr a r ∈ r.map Prod.fst := by
  induction r generalizing a with
  | nil => exact absurd rfl hne
  | cons e r ih =>
    cases r with
    | nil => simp [lastAddr]
    | cons e' r => exact List.mem_cons_of_mem _ (ih e.1 (by simp))

theorem lastAddr_eq {l r : Cells} {a b : ℕ} {c d : Chunk} (h : (b, d) :: r = l ++ [(a, c)]) :
    lastAddr b r = a := by
  induction l generalizing b d r with
  | nil =>
    obtain ⟨hbd, rfl⟩ := List.cons.inj h
    exact (Prod.mk.inj hbd).1
  | cons e l ih =>
    obtain ⟨-, hr⟩ := List.cons.inj h
    obtain ⟨f, r, rfl⟩ := List.exists_cons_of_ne_nil (show r ≠ [] by rw [hr]; simp)
    exact ih (b := f.1) (d := f.2) hr

/-! ## The loops over chunks -/

section

variable {H : Heap}

theorem tailLoop_cells {a : ℕ} {c : Chunk} {r : Cells} (h : Follow H ((a, c) :: r)) {fuel : ℕ}
    (hf : r.length < fuel) : tailLoop H fuel a = some (lastAddr a r) := by
  induction r generalizing a c fuel with
  | nil =>
    obtain ⟨fuel, rfl⟩ : ∃ n, fuel = n + 1 := ⟨fuel - 1, by simp at hf; omega⟩
    simp [tailLoop, h.1, show c.next = none from h.2.1, lastAddr]
  | cons e r ih =>
    obtain ⟨fuel, rfl⟩ : ∃ n, fuel = n + 1 := ⟨fuel - 1, by simp at hf; omega⟩
    have hrest := ih h.2.2 (show r.length < fuel by simpa using hf)
    simp [tailLoop, h.1, show c.next = some e.1 from h.2.1, lastAddr, hrest]

theorem lenLoop_cells {r : Cells} (h : Follow H r) (hstart : ∀ e ∈ r, e.2.start ≤ e.2.data.length)
    {fuel : ℕ} (hf : r.length ≤ fuel) :
    lenLoop H fuel (firstAddr r) = some ((content r).length : ℤ) := by
  induction r generalizing fuel with
  | nil => cases fuel <;> rfl
  | cons e r ih =>
    obtain ⟨fuel, rfl⟩ : ∃ n, fuel = n + 1 := ⟨fuel - 1, by simp at hf; omega⟩
    have hrest := ih h.2.2 (fun e' he' => hstart e' (List.mem_cons_of_mem _ he'))
      (show r.length ≤ fuel by simpa using hf)
    have hle := hstart e (by simp)
    rw [show firstAddr (e :: r) = some e.1 from rfl, lenLoop, h.1]
    simp only [Option.bind_eq_bind, Option.bind_some]
    rw [show e.2.next = firstAddr r from h.2.1, hrest, content_cons]
    simp only [Option.bind_some, Option.some.injEq, List.length_append, List.length_drop]
    omega

theorem isEmptyLoop_cells {r : Cells} (h : Follow H r)
    (hstart : ∀ e ∈ r, e.2.start ≤ e.2.data.length) {fuel : ℕ} (hf : r.length ≤ fuel) :
    isEmptyLoop H fuel (firstAddr r) = some (decide (content r = [])) := by
  induction r generalizing fuel with
  | nil => cases fuel <;> rfl
  | cons e r ih =>
    obtain ⟨fuel, rfl⟩ : ∃ n, fuel = n + 1 := ⟨fuel - 1, by simp at hf; omega⟩
    have hrest := ih h.2.2 (fun e' he' => hstart e' (List.mem_cons_of_mem _ he'))
      (show r.length ≤ fuel by simpa using hf)
    have hle := hstart e (by simp)
    rw [show firstAddr (e :: r) = some e.1 from rfl, isEmptyLoop, h.1]
    simp only [Option.bind_eq_bind, Option.bind_some]
    by_cases hempty : e.2.start = e.2.data.length
    · rw [if_neg (by simpa using hempty), show e.2.next = firstAddr r from h.2.1, hrest, content_cons,
        hempty, List.drop_length, List.nil_append]
    · rw [if_pos hempty, content_cons]
      simp only [Option.some.injEq, Bool.false_eq, decide_eq_false_iff_not, List.append_eq_nil_iff,
        List.drop_eq_nil_iff, not_and_or]
      exact .inl (by omega)

theorem normalizeLoop_cells {a : ℕ} {c : Chunk} {r : Cells} (h : Follow H ((a, c) :: r))
    (hstart : ∀ e ∈ (a, c) :: r, e.2.start ≤ e.2.data.length) {fuel : ℕ} (hf : r.length < fuel)
    (incr : ℕ) : ∃ m a' c' r', (a, c) :: r = m ++ (a', c') :: r' ∧ content m = [] ∧
      (c'.start < c'.data.length ∨ r' = []) ∧
      normalizeLoop H fuel a c.start incr = some (⟨some a', c'.start⟩, incr) := by
  induction r generalizing a c fuel with
  | nil =>
    obtain ⟨fuel, rfl⟩ : ∃ n, fuel = n + 1 := ⟨fuel - 1, by simp at hf; omega⟩
    exact ⟨[], a, c, [], rfl, rfl, .inr rfl, normalizeLoop_stop h.1 (.inr h.2.1) fuel incr⟩
  | cons e r ih =>
    obtain ⟨fuel, rfl⟩ : ∃ n, fuel = n + 1 := ⟨fuel - 1, by simp at hf; omega⟩
    by_cases hlt : c.start < c.data.length
    · exact ⟨[], a, c, e :: r, rfl, rfl, .inl hlt, normalizeLoop_stop h.1 (.inl hlt) fuel incr⟩
    · have hle : c.start ≤ c.data.length := hstart (a, c) (by simp)
      obtain ⟨m, a', c', r', heq, hm, hsettled, hloop⟩ :=
        ih h.2.2 (fun e' he' => hstart e' (List.mem_cons_of_mem _ he'))
          (show r.length < fuel by simpa using hf)
      refine ⟨(a, c) :: m, a', c', r', by rw [heq]; rfl, ?_, hsettled, ?_⟩
      · rw [content_cons, hm, List.append_nil]
        exact List.drop_eq_nil_of_le (not_lt.mp hlt)
      · rw [normalizeLoop, h.1]
        simp only [Option.bind_eq_bind, Option.bind_some, show c.next = some e.1 from h.2.1,
          ge_iff_le, not_lt.mp hlt, if_true, h.2.2.1]
        rw [show c.start - c.data.length = 0 by omega]
        exact hloop

theorem incrByLoop_cells {a : ℕ} {c : Chunk} {r : Cells} (h : Follow H ((a, c) :: r))
    (hstart : ∀ e ∈ (a, c) :: r, e.2.start ≤ e.2.data.length) {fuel cur : ℕ} (hf : r.length < fuel)
    (hcur : c.start ≤ cur) (hcur' : cur ≤ c.data.length) (beyond : Bool) (n : ℕ) :
    ∃ m a' c' r' cur', (a, c) :: r = m ++ (a', c') :: r' ∧
      incrByLoop H beyond fuel a cur n = some ⟨some a', cur'⟩ ∧ c'.start ≤ cur' ∧
      ((cur' < c'.data.length ∧
          (content m).length + (cur' - c'.start) = cur - c.start + n) ∨
        (r' = [] ∧ (content ((a, c) :: r)).length ≤ cur - c.start + n ∧ c'.data.length ≤ cur' ∧
          (beyond = false → cur' = c'.data.length))) := by
  induction r generalizing a c fuel cur n with
  | nil =>
    obtain ⟨fuel, rfl⟩ : ∃ n, fuel = n + 1 := ⟨fuel - 1, by simp at hf; omega⟩
    have hlen : (content [(a, c)]).length = c.data.length - c.start := by simp [content]
    by_cases hin : cur + n < c.data.length
    · refine ⟨[], a, c, [], cur + n, rfl, by simp [incrByLoop, h.1, hin], by omega, .inl ⟨hin, ?_⟩⟩
      simp only [content, List.flatMap_nil, List.length_nil]
      omega
    · refine ⟨[], a, c, [], if beyond then c.data.length + n else c.data.length, rfl, ?_, ?_,
        .inr ⟨rfl, by omega, ?_, fun hb => by simp [hb]⟩⟩
      · simp [incrByLoop, h.1, hin, show c.next = none from h.2.1]
      · split <;> omega
      · split <;> omega
  | cons e r ih =>
    obtain ⟨fuel, rfl⟩ : ∃ n, fuel = n + 1 := ⟨fuel - 1, by simp at hf; omega⟩
    by_cases hin : cur + n < c.data.length
    · refine ⟨[], a, c, e :: r, cur + n, rfl, by simp [incrByLoop, h.1, hin], by omega,
        .inl ⟨hin, ?_⟩⟩
      simp only [content, List.flatMap_nil, List.length_nil]
      omega
    · have hstart' : ∀ e' ∈ e :: r, e'.2.start ≤ e'.2.data.length :=
        fun e' he' => hstart e' (List.mem_cons_of_mem _ he')
      obtain ⟨m, a', c', r', cur', heq, hloop, hle, hres⟩ :=
        ih h.2.2 hstart' (show r.length < fuel by simpa using hf) le_rfl (hstart' e (by simp))
          (n - (c.data.length - cur))
      refine ⟨(a, c) :: m, a', c', r', cur', by rw [heq]; rfl, ?_, hle, ?_⟩
      · rw [incrByLoop, h.1]
        simp only [Option.bind_eq_bind, Option.bind_some, hin, if_false,
          show c.next = some e.1 from h.2.1, h.2.2.1]
        exact hloop
      · have hlen : ∀ l : Cells, (content ((a, c) :: l)).length =
            c.data.length - c.start + (content l).length := by
          intro l
          simp [content_cons]
        rcases hres with ⟨hlt, hpos⟩ | ⟨hnil, hsize, hend, hb⟩
        · refine .inl ⟨hlt, ?_⟩
          rw [hlen]
          omega
        · refine .inr ⟨hnil, ?_, hend, hb⟩
          rw [hlen]
          have heq' : ((e.1, e.2) :: r : Cells) = e :: r := rfl
          rw [heq'] at hsize
          omega

end

/-! ## Iterators -/

section

variable {H : Heap} {cs l r : Cells} {i j : Iter} {a k m : ℕ} {c : Chunk}

theorem Layout.cell (h : Layout H cs) (heq : cs = l ++ (a, c) :: r) :
    Follow H ((a, c) :: r) ∧ (∀ e ∈ (a, c) :: r, e.2.start ≤ e.2.data.length) ∧
      a ∉ r.map Prod.fst ∧ r.length < H.fresh := by
  subst heq
  refine ⟨h.follow.suffix, fun e he => h.start_le e (List.mem_append_right _ he), ?_, ?_⟩
  · have hnodup := h.nodup
    rw [List.map_append, List.nodup_append] at hnodup
    exact (List.nodup_cons.mp hnodup.2.1).1
  · have hsize := h.size_le
    simp only [List.length_append, List.length_cons] at hsize
    omega

theorem Layout.tail_eq (h : Layout H cs) (heq : cs = l ++ (a, c) :: r) :
    tail H a = some (lastAddr a r) :=
  tailLoop_cells (h.cell heq).1 (h.cell heq).2.2.2

theorem Stands.isEnd_eq (hi : Stands cs i k l a c r) (h : Layout H cs) :
    isEnd H i = some (decide (r = [] ∧ c.data.length ≤ i.cur)) := by
  obtain ⟨hfollow, -, hnot, -⟩ := h.cell hi.split
  have hlast : a = lastAddr a r ↔ r = [] := by
    refine ⟨fun heq => ?_, fun heq => by rw [heq]; rfl⟩
    by_contra hne
    exact hnot (heq ▸ lastAddr_mem a hne)
  simp only [isEnd, hi.bytes_eq, hfollow.1, h.tail_eq hi.split, Option.bind_eq_bind,
    Option.bind_some, ← hlast, ge_iff_le]

def Stands.Settled (_ : Stands cs i k l a c r) : Prop :=
  i.cur < c.data.length ∨ r = []

theorem Stands.lt_iff (hi : Stands cs i k l a c r) (h : Layout H cs) (hs : hi.Settled) :
    k < (content cs).length ↔ i.cur < c.data.length := by
  have hlen := content_split hi.split
  have hpos := hi.pos_eq
  have hstart := hi.start_le
  have hle := (h.cell hi.split).2.1 (a, c) (by simp)
  simp only at hle
  rcases hs with hlt | hnil
  · omega
  · have hnone : (content r).length = 0 := by rw [hnil]; rfl
    omega

theorem Stands.isEnd_iff (hi : Stands cs i k l a c r) (h : Layout H cs) (hs : hi.Settled) :
    isEnd H i = some (decide ((content cs).length ≤ k)) := by
  have hiff := hi.lt_iff h hs
  rw [hi.isEnd_eq h, Option.some.injEq, decide_eq_decide]
  constructor
  · rintro ⟨-, hle⟩
    omega
  · intro hle
    refine ⟨hs.resolve_left fun hlt => ?_, by omega⟩
    omega

theorem Stands.normalize (hi : Stands cs i k l a c r) (h : Layout H cs) (hs : hi.Settled) :
    normalizeIter H i = some i := by
  obtain ⟨hfollow, -, -, hfuel⟩ := h.cell hi.split
  obtain ⟨fuel, hfresh⟩ : ∃ n, H.fresh = n + 1 := ⟨H.fresh - 1, by omega⟩
  have hstop : i.cur < c.data.length ∨ c.next = none :=
    hs.imp id fun hnil => by rw [hfollow.2.1, hnil]; rfl
  rw [normalizeIter, hi.bytes_eq, hfresh]
  simp only [normalizeLoop_stop hfollow.1 hstop, Option.bind_eq_bind, Option.bind_some]
  rw [if_neg (by simp), ← hi.bytes_eq]

/-- Normalising an iterator moves it to the chunk that holds the byte at its position, or to the
end; one that has been beyond the end stays there. -/
theorem normalizeIter_stands (h : Layout H cs) (hi : Stands cs i k l a c r) :
    ∃ i' k' l' a' c' r', ∃ hi' : Stands cs i' k' l' a' c' r', normalizeIter H i = some i' ∧
      hi'.Settled ∧ (k < (content cs).length → k' = k) ∧
      ((content cs).length ≤ k → (content cs).length ≤ k') ∧
      (i.cur ≤ c.data.length → k' = k ∧ i'.cur ≤ c'.data.length) := by
  obtain ⟨hfollow, hstarts, -, hfuel⟩ := h.cell hi.split
  have hle : c.start ≤ c.data.length := hstarts (a, c) (by simp)
  have hpos := hi.pos_eq
  have hstart := hi.start_le
  obtain ⟨fuel, hfresh⟩ : ∃ n, H.fresh = n + 1 := ⟨H.fresh - 1, by omega⟩
  by_cases hsettled : i.cur < c.data.length ∨ r = []
  · exact ⟨i, k, l, a, c, r, hi, hi.normalize h hsettled, hsettled, fun _ => rfl, id,
      fun hin => ⟨rfl, hin⟩⟩
  · obtain ⟨hge, hne⟩ := not_or.mp hsettled
    obtain ⟨e, r₁, rfl⟩ := List.exists_cons_of_ne_nil hne
    obtain ⟨m, a₁, c₁, r', heq, hm, hsettled₁, hloop⟩ :=
      normalizeLoop_cells hfollow.2.2 (fun e' he' => hstarts e' (List.mem_cons_of_mem _ he'))
        (show r₁.length < fuel by simp only [List.length_cons] at hfuel; omega)
        (i.cur - c.data.length)
    have hsplit : cs = (l ++ (a, c) :: m) ++ (a₁, c₁) :: r' := by
      rw [hi.split, List.append_assoc, List.cons_append, ← heq]
    have hsize : (content (l ++ (a, c) :: m)).length =
        (content l).length + (c.data.length - c.start) := by
      rw [content_append, content_cons, hm, List.append_nil, List.length_append, List.length_drop]
    have hlen := content_split hsplit
    have hle₁ := (h.cell hsplit).2.1 (a₁, c₁) (by simp)
    simp only at hle₁
    have hnorm : normalizeIter H i = if i.cur - c.data.length ≠ 0
        then incrBy H ⟨some a₁, c₁.start⟩ (i.cur - c.data.length) true
        else some ⟨some a₁, c₁.start⟩ := by
      rw [normalizeIter, hi.bytes_eq, hfresh]
      simp only
      rw [normalizeLoop, hfollow.1]
      simp only [Option.bind_eq_bind, Option.bind_some, show c.next = some e.1 from hfollow.2.1,
        ge_iff_le, not_lt.mp hge, if_true, hfollow.2.2.1, Nat.zero_add, hloop]
    have hplain : Stands cs ⟨some a₁, c₁.start⟩
        ((content l).length + (c.data.length - c.start)) (l ++ (a, c) :: m) a₁ c₁ r' :=
      ⟨hsplit, rfl, le_rfl, by rw [hsize]; simp⟩
    by_cases hzero : i.cur = c.data.length
    · refine ⟨_, _, _, _, _, _, hplain, by rw [hnorm, if_neg (by omega)], hsettled₁, fun _ => ?_,
        fun _ => ?_, fun _ => ⟨?_, hle₁⟩⟩ <;> omega
    · rw [if_pos (by omega)] at hnorm
      by_cases hend : r' = [] ∧ c₁.data.length ≤ c₁.start
      · have hnil : (content r').length = 0 := by rw [hend.1]; rfl
        refine ⟨_, _, _, _, _, _, hplain, ?_, hsettled₁, fun _ => ?_, fun _ => ?_, fun _ => ?_⟩
        · rw [hnorm, incrBy, hplain.isEnd_eq h]
          simp only [hend, and_self, decide_true, Option.bind_eq_bind, Option.bind_some, if_true]
        · omega
        · omega
        · omega
      · obtain ⟨hfollow₁, hstarts₁, -, hfuel₁⟩ := h.cell hsplit
        obtain ⟨m₂, a₂, c₂, r₂, cur₂, heq₂, hloop₂, hcur₂, hres⟩ :=
          incrByLoop_cells hfollow₁ hstarts₁ hfuel₁ le_rfl hle₁ true (i.cur - c.data.length)
        have hsplit₂ : cs = (l ++ (a, c) :: m ++ m₂) ++ (a₂, c₂) :: r₂ := by
          rw [hsplit, heq₂, List.append_assoc _ m₂]
        have hstands : Stands cs ⟨some a₂, cur₂⟩
            ((content (l ++ (a, c) :: m ++ m₂)).length + (cur₂ - c₂.start))
            (l ++ (a, c) :: m ++ m₂) a₂ c₂ r₂ := ⟨hsplit₂, rfl, hcur₂, rfl⟩
        have hsize₂ : (content (l ++ (a, c) :: m ++ m₂)).length =
            (content l).length + (c.data.length - c.start) + (content m₂).length := by
          rw [content_append, List.length_append, hsize]
        have hrun : normalizeIter H i = some ⟨some a₂, cur₂⟩ := by
          rw [hnorm, incrBy, hplain.isEnd_eq h]
          simp only [hend, decide_false, Option.bind_eq_bind, Option.bind_some, Bool.false_eq_true,
            if_false, show ¬ i.cur - c.data.length = 0 by omega]
          exact hloop₂
        have htotal : (content ((a₁, c₁) :: r')).length =
            c₁.data.length - c₁.start + (content r').length := by
          simp [content_cons]
        rcases hres with ⟨hlt, hplace⟩ | ⟨hnil, hshort, hover, -⟩
        · refine ⟨_, _, _, _, _, _, hstands, hrun, .inl hlt, fun _ => ?_, fun _ => ?_, fun _ => ?_⟩
          · omega
          · omega
          · omega
        · refine ⟨_, _, _, _, _, _, hstands, hrun, .inr hnil, fun _ => ?_, fun _ => ?_, fun _ => ?_⟩
          · omega
          · have hlen₂ := content_split hsplit₂
            have hnone : (content r₂).length = 0 := by rw [hnil]; rfl
            omega
          · omega

/-! ## The functions on iterators -/

/-- `hlt_iterator_bytes_diff`. -/
def bytesDiff (H : Heap) (pos1 pos2 : Iter) : Option ℤ := do
  let p1 ← normalizeIter H pos1
  let p2 ← normalizeIter H pos2
  iteratorDiff H p1 p2

theorem Stands.getElem? (hi : Stands cs i k l a c r) (hlt : i.cur < c.data.length) :
    c.data[i.cur]? = (content cs)[k]? := by
  have hstart := hi.start_le
  rw [hi.split, content_append, content_cons, hi.pos_eq, List.getElem?_append_right (by omega),
    Nat.add_sub_cancel_left, List.getElem?_append_left (by simp only [List.length_drop]; omega),
    List.getElem?_drop, Nat.add_sub_cancel' hstart]

theorem Layout.split_unique (h : Layout H cs) {l' r' : Cells} {c' : Chunk}
    (heq : cs = l ++ (a, c) :: r) (heq' : cs = l' ++ (a, c') :: r') : l' = l ∧ c' = c ∧ r' = r := by
  have hnodup := h.nodup
  rw [heq, List.map_append, List.nodup_append, List.map_cons, List.nodup_cons] at hnodup
  obtain ⟨-, ⟨hnotr, -⟩, hdisj⟩ := hnodup
  rw [heq] at heq'
  rcases List.append_eq_append_iff.mp heq' with ⟨t, hl, ht⟩ | ⟨t, hl, ht⟩
  · cases t with
    | nil =>
      obtain ⟨hac, hr⟩ := List.cons.inj ht
      exact ⟨by simpa using hl, (Prod.mk.inj hac).2.symm, hr.symm⟩
    | cons e t =>
      obtain ⟨-, hr⟩ := List.cons.inj ht
      exact absurd (by simp [hr]) hnotr
  · cases t with
    | nil =>
      obtain ⟨hac, hr⟩ := List.cons.inj ht
      exact ⟨by simpa using hl.symm, (Prod.mk.inj hac).2, hr⟩
    | cons e t =>
      obtain ⟨hac, -⟩ := List.cons.inj ht
      exact absurd rfl (hdisj a (by rw [hl, ← hac]; simp) a (by simp))

theorem Designates.unique (hi : Designates cs i k) (hj : Designates cs i m) (h : Layout H cs) :
    k = m := by
  obtain ⟨l, a, c, r, hi⟩ := hi
  obtain ⟨l', a', c', r', hj⟩ := hj
  obtain rfl : a = a' := Option.some.inj (hi.bytes_eq.symm.trans hj.bytes_eq)
  obtain ⟨rfl, rfl, rfl⟩ := h.split_unique hi.split hj.split
  rw [hi.pos_eq, hj.pos_eq]

theorem Stands.cases (hi : Stands cs i k l a c r) {l' r' : Cells} {a' : ℕ} {c' : Chunk}
    (hj : Stands cs j m l' a' c' r') : (l' = l ∧ a' = a ∧ c' = c ∧ r' = r) ∨
      (∃ t, r = t ++ (a', c') :: r' ∧ l' = l ++ (a, c) :: t) ∨
      ∃ t, r' = t ++ (a, c) :: r ∧ l = l' ++ (a', c') :: t := by
  have heq := hi.split.symm.trans hj.split
  rcases List.append_eq_append_iff.mp heq with ⟨t, hl, ht⟩ | ⟨t, hl, ht⟩
  · cases t with
    | nil =>
      obtain ⟨hac, hr⟩ := List.cons.inj ht
      exact .inl ⟨by simpa using hl, (Prod.mk.inj hac).1.symm, (Prod.mk.inj hac).2.symm, hr.symm⟩
    | cons e t =>
      obtain ⟨rfl, hr⟩ := List.cons.inj ht
      exact .inr (.inl ⟨t, hr, hl⟩)
  · cases t with
    | nil =>
      obtain ⟨hac, hr⟩ := List.cons.inj ht
      exact .inl ⟨by simpa using hl.symm, (Prod.mk.inj hac).1, (Prod.mk.inj hac).2, hr⟩
    | cons e t =>
      obtain ⟨rfl, hr⟩ := List.cons.inj ht
      exact .inr (.inr ⟨t, hr, hl⟩)

theorem Stands.eq_iff (hi : Stands cs i k l a c r) (h : Layout H cs) {l' r' : Cells} {a' : ℕ}
    {c' : Chunk} (hj : Stands cs j m l' a' c' r') (hlt : i.cur < c.data.length)
    (hlt' : j.cur < c'.data.length) : i = j ↔ k = m := by
  constructor
  · rintro rfl
    exact Designates.unique ⟨_, _, _, _, hi⟩ ⟨_, _, _, _, hj⟩ h
  · intro hkm
    have hpos := hi.pos_eq
    have hpos' := hj.pos_eq
    have hstart := hi.start_le
    have hstart' := hj.start_le
    rcases hi.cases hj with ⟨rfl, rfl, rfl, rfl⟩ | ⟨t, -, hl⟩ | ⟨t, -, hl⟩
    · have hbytes := hi.bytes_eq.trans hj.bytes_eq.symm
      have hcur : i.cur = j.cur := by omega
      cases i
      cases j
      simp_all
    · have hsize : (content l').length =
          (content l).length + (c.data.length - c.start) + (content t).length := by
        rw [hl, content_append, content_cons]
        simp only [List.length_append, List.length_drop]
        omega
      omega
    · have hsize : (content l).length =
          (content l').length + (c'.data.length - c'.start) + (content t).length := by
        rw [hl, content_append, content_cons]
        simp only [List.length_append, List.length_drop]
        omega
      omega

theorem iteratorDeref_at (h : Layout H cs) (hi : Designates cs i k) :
    iteratorDeref H i = some (match (content cs)[k]? with
      | some b => .ok b
      | none => .error .valueError) := by
  obtain ⟨l, a, c, r, hi⟩ := hi
  obtain ⟨i', k', l', a', c', r', hi', hnorm, hs, hin, hout, -⟩ := normalizeIter_stands h hi
  have hend := hi'.isEnd_iff h hs
  have hfollow := (h.cell hi'.split).1
  by_cases hk : k < (content cs).length
  · obtain rfl := hin hk
    have hbyte := hi'.getElem? ((hi'.lt_iff h hs).mp hk)
    rw [List.getElem?_eq_getElem hk] at hbyte ⊢
    simp [iteratorDeref, hnorm, hend, not_le.mpr hk, hi'.bytes_eq, hfollow.1, hbyte]
  · have hk' := hout (not_lt.mp hk)
    rw [List.getElem?_eq_none (not_lt.mp hk)]
    simp [iteratorDeref, hnorm, hend, hk']

theorem iteratorEq_at (h : Layout H cs) (hi : Designates cs i k) (hj : Designates cs j m) :
    iteratorEq H i j =
      some (decide (min k (content cs).length = min m (content cs).length)) := by
  obtain ⟨l₁, a₁, c₁, r₁, hi⟩ := hi
  obtain ⟨l₂, a₂, c₂, r₂, hj⟩ := hj
  obtain ⟨i', k', _, _, _, _, hi', hnorm, hs, hin, hout, -⟩ := normalizeIter_stands h hi
  obtain ⟨j', m', _, _, _, _, hj', hnorm', hs', hin', hout', -⟩ := normalizeIter_stands h hj
  have hend := hi'.isEnd_iff h hs
  have hend' := hj'.isEnd_iff h hs'
  simp only [iteratorEq, hnorm, hnorm', hend, hend', Option.bind_eq_bind, Option.bind_some,
    Option.some.injEq, decide_eq_decide, decide_eq_true_eq]
  by_cases hk : k < (content cs).length
  · have hk' : ¬ (content cs).length ≤ k' := by rw [hin hk]; omega
    by_cases hm : m < (content cs).length
    · have hm' : ¬ (content cs).length ≤ m' := by rw [hin' hm]; omega
      rw [hi'.eq_iff h hj' ((hi'.lt_iff h hs).mp (by omega)) ((hj'.lt_iff h hs').mp (by omega)),
        hin hk, hin' hm]
      constructor
      · rintro (⟨hle, -⟩ | hkm) <;> omega
      · exact fun heq => .inr (by omega)
    · constructor
      · rintro (⟨hle, -⟩ | rfl)
        · exact absurd hle hk'
        · have := Designates.unique ⟨_, _, _, _, hi'⟩ ⟨_, _, _, _, hj'⟩ h
          have := hout' (not_lt.mp hm)
          omega
      · intro heq
        omega
  · have hk' := hout (not_lt.mp hk)
    by_cases hm : m < (content cs).length
    · have hm' : ¬ (content cs).length ≤ m' := by rw [hin' hm]; omega
      constructor
      · rintro (⟨-, hle⟩ | rfl)
        · exact absurd hle hm'
        · have := Designates.unique ⟨_, _, _, _, hi'⟩ ⟨_, _, _, _, hj'⟩ h
          omega
      · intro heq
        omega
    · have hm' := hout' (not_lt.mp hm)
      constructor
      · intro _
        omega
      · exact fun _ => .inl ⟨hk', hm'⟩

theorem iteratorIndex_at (h : Layout H cs) : ∃ base : ℤ, ∀ i k, Designates cs i k →
    k < (content cs).length → iteratorIndex H i = some (base + k) := by
  obtain ⟨base, hbase⟩ := h.offset_eq
  refine ⟨base, fun i k hi hk => ?_⟩
  obtain ⟨l, a, c, r, hi⟩ := hi
  obtain ⟨i', k', l', a', c', r', hi', hnorm, hs, hin, -⟩ := normalizeIter_stands h hi
  obtain rfl := hin hk
  have hcur := (hi'.lt_iff h hs).mp hk
  have hstart := hi'.start_le
  have hpos := hi'.pos_eq
  have hoffset := hbase l' (a', c') r' hi'.split (by
    refine List.ne_nil_of_length_pos ?_
    rw [content_append, content_cons]
    simp only [List.length_append, List.length_drop]
    omega)
  simp only [iteratorIndex, hnorm, hi'.bytes_eq, (h.cell hi'.split).1.1, Option.bind_eq_bind,
    Option.bind_some, Option.some.injEq]
  simp only at hoffset
  rw [hoffset]
  omega

theorem bytesLen_cell (h : Layout H cs) (heq : cs = l ++ (a, c) :: r) :
    bytesLen H a = some ((content ((a, c) :: r)).length : ℤ) := by
  obtain ⟨hfollow, hstarts, -, hfuel⟩ := h.cell heq
  exact lenLoop_cells hfollow hstarts hfuel

theorem iteratorDiff_at (h : Layout H cs) (hi : Stands cs i k l a c r) (hs : hi.Settled)
    {l' r' : Cells} {a' : ℕ} {c' : Chunk} (hj : Stands cs j m l' a' c' r') (hs' : hj.Settled) :
    iteratorDiff H i j = some ((min m (content cs).length - k : ℕ) : ℤ) := by
  have hend := hi.isEnd_iff h hs
  have hend' := hj.isEnd_iff h hs'
  have hlen := content_split hi.split
  have hpos := hi.pos_eq
  have hstart := hi.start_le
  by_cases hk : (content cs).length ≤ k
  · simp only [iteratorDiff, hend, hk, decide_true, Option.bind_eq_bind, Option.bind_some, if_true,
      Option.some.injEq]
    omega
  · have hcur := (hi.lt_iff h hs).mp (not_le.mp hk)
    by_cases hm : (content cs).length ≤ m
    · simp only [iteratorDiff, hend, hend', hk, hm, decide_false, decide_true, Option.bind_eq_bind,
        Option.bind_some, if_true, Bool.false_eq_true, if_false, hi.bytes_eq,
        (h.cell hi.split).1.1, bytesLen_cell h hi.split, Option.some.injEq, content_cons,
        List.length_append, List.length_drop]
      omega
    · obtain ⟨base, hindex⟩ := iteratorIndex_at h
      rw [iteratorDiff, hend, hend', hindex i k ⟨_, _, _, _, hi⟩ (not_le.mp hk),
        hindex j m ⟨_, _, _, _, hj⟩ (not_le.mp hm)]
      simp only [hk, hm, decide_false, Option.bind_eq_bind, Option.bind_some, Bool.false_eq_true,
        if_false, Option.some.injEq]
      omega

theorem bytesDiff_at (h : Layout H cs) (hi : Designates cs i k) (hj : Designates cs j m) :
    bytesDiff H i j = some ((min m (content cs).length - k : ℕ) : ℤ) := by
  obtain ⟨l₁, a₁, c₁, r₁, hi⟩ := hi
  obtain ⟨l₂, a₂, c₂, r₂, hj⟩ := hj
  obtain ⟨i', k', _, _, _, _, hi', hnorm, hs, hin, hout, -⟩ := normalizeIter_stands h hi
  obtain ⟨j', m', _, _, _, _, hj', hnorm', hs', hin', hout', -⟩ := normalizeIter_stands h hj
  simp only [bytesDiff, hnorm, hnorm', Option.bind_eq_bind, Option.bind_some,
    iteratorDiff_at h hi' hs hj' hs', Option.some.injEq, Nat.cast_inj]
  omega

theorem incrOnce_at (h : Layout H cs) (hi : Stands cs i k l a c r) (hs : hi.Settled)
    (hk : k < (content cs).length) :
    ∃ i' l' a' c' r', incrOnce H i = some i' ∧ Stands cs i' (k + 1) l' a' c' r' ∧
      i'.cur ≤ c'.data.length := by
  obtain ⟨hfollow, hstarts, -, -⟩ := h.cell hi.split
  have hend := hi.isEnd_iff h hs
  have hcur := (hi.lt_iff h hs).mp hk
  have hpos := hi.pos_eq
  have hstart := hi.start_le
  by_cases hsame : i.cur + 1 < c.data.length
  · refine ⟨⟨some a, i.cur + 1⟩, l, a, c, r, ?_,
      ⟨hi.split, rfl, by simp only; omega, by simp only; omega⟩, hsame.le⟩
    simp only [incrOnce, hend, not_le.mpr hk, decide_false, Option.bind_eq_bind, Option.bind_some,
      Bool.false_eq_true, if_false, hi.bytes_eq, hfollow.1, hsame, if_true]
  · cases r with
    | nil =>
      have hnext : c.next = none := hfollow.2.1
      refine ⟨⟨some a, c.data.length⟩, l, a, c, [], ?_, ⟨hi.split, rfl, ?_, ?_⟩, le_rfl⟩
      · simp only [incrOnce, hend, not_le.mpr hk, decide_false, Option.bind_eq_bind,
          Option.bind_some, Bool.false_eq_true, if_false, hi.bytes_eq, hfollow.1, hsame, hnext]
      · simp only
        omega
      · simp only
        omega
    | cons e r =>
      have hnext : c.next = some e.1 := hfollow.2.1
      have hsplit : cs = (l ++ [(a, c)]) ++ (e.1, e.2) :: r := by
        rw [hi.split, List.append_assoc]
        rfl
      refine ⟨⟨some e.1, e.2.start⟩, l ++ [(a, c)], e.1, e.2, r, ?_, ⟨hsplit, rfl, le_rfl, ?_⟩,
        hstarts e (by simp)⟩
      · simp only [incrOnce, hend, not_le.mpr hk, decide_false, Option.bind_eq_bind,
          Option.bind_some, Bool.false_eq_true, if_false, hi.bytes_eq, hfollow.1, hsame, hnext,
          hfollow.2.2.1]
      · rw [content_append, content_cons]
        simp only [content, List.flatMap_nil, List.append_nil, List.length_append, List.length_drop]
        simp only [content] at hpos
        omega

theorem iteratorIncr_at (h : Layout H cs) (hi : Designates cs i k) (hk : k < (content cs).length) :
    ∃ i' l' a' c' r', iteratorIncr H i = some i' ∧ Stands cs i' (k + 1) l' a' c' r' ∧
      i'.cur ≤ c'.data.length := by
  obtain ⟨l, a, c, r, hi⟩ := hi
  obtain ⟨i', k', _, _, _, _, hi', hnorm, hs, hin, -⟩ := normalizeIter_stands h hi
  obtain rfl := hin hk
  rw [show iteratorIncr H i = (normalizeIter H i).bind (incrOnce H) from rfl, hnorm]
  exact incrOnce_at h hi' hs hk

theorem readLoop_at (h : Layout H cs) (hj : Designates cs j m) (n : ℕ) : ∀ i k, Designates cs i k →
    k ≤ m → min m (content cs).length - k = n →
    readLoop H j (n + 1) i = some (((content cs).drop k).take (m - k)) := by
  induction n with
  | zero =>
    intro i k hi hkm hn
    have heq : min k (content cs).length = min m (content cs).length := by omega
    rw [readLoop, iteratorEq_at h hi hj]
    simp only [heq, decide_true, Option.bind_eq_bind, Option.bind_some, if_true, Option.some.injEq]
    rcases Nat.eq_or_lt_of_le hkm with rfl | hlt
    · simp
    · rw [List.drop_eq_nil_of_le (by omega), List.take_nil]
  | succ n ih =>
    intro i k hi hkm hn
    have hk : k < (content cs).length := by omega
    obtain ⟨i', l', a', c', r', hincr, hi', -⟩ := iteratorIncr_at h hi hk
    have hne : ¬ min k (content cs).length = min m (content cs).length := by omega
    have hrest := ih i' (k + 1) ⟨_, _, _, _, hi'⟩ (by omega) (by omega)
    rw [readLoop, iteratorEq_at h hi hj, iteratorDeref_at h hi, List.getElem?_eq_getElem hk]
    simp only [hne, decide_false, Option.bind_eq_bind, Option.bind_some, Bool.false_eq_true,
      if_false, hincr, hrest, Option.some.injEq]
    rw [List.drop_eq_getElem_cons hk, show m - k = m - (k + 1) + 1 by omega, List.take_succ_cons]

theorem bytesEnd_at (h : Layout H cs) {e : ℕ × Chunk} (heq : cs = e :: r) :
    ∃ i l' a' c', bytesEnd H e.1 = some i ∧ Stands cs i (content cs).length l' a' c' [] ∧
      i.cur = c'.data.length := by
  obtain ⟨l', a', c', hlast⟩ : ∃ l' a' c', cs = l' ++ (a', c') :: [] :=
    ⟨cs.dropLast, _, _, (List.dropLast_append_getLast (by rw [heq]; simp)).symm⟩
  have htail := h.tail_eq (l := []) (show cs = [] ++ (e.1, e.2) :: r from heq)
  have haddr : lastAddr e.1 r = a' := lastAddr_eq (heq.symm.trans hlast)
  have hcell := h.cell hlast
  have hle := hcell.2.1 (a', c') (by simp)
  refine ⟨⟨some a', c'.data.length⟩, l', a', c', ?_, ⟨hlast, rfl, hle, ?_⟩, rfl⟩
  · simp only [bytesEnd, htail, haddr, hcell.1.1, Option.bind_eq_bind, Option.bind_some]
  · have hlen := content_split hlast
    have hnone : (content ([] : Cells)).length = 0 := rfl
    simp only
    omega

theorem bytesBegin_at (h : Layout H cs) {e : ℕ × Chunk} (heq : cs = e :: r) :
    ∃ i, bytesBegin H e.1 = some i ∧ Designates cs i 0 := by
  have hsplit : cs = [] ++ (e.1, e.2) :: r := heq
  obtain ⟨hfollow, hstarts, -, hfuel⟩ := h.cell hsplit
  have hempty : isEmpty H e.1 = some (decide (content cs = [])) := by
    rw [heq]
    exact isEmptyLoop_cells hfollow hstarts hfuel
  by_cases hnil : content cs = []
  · obtain ⟨i, l', a', c', hend, hi, -⟩ := bytesEnd_at h heq
    refine ⟨i, ?_, l', a', c', [], ?_⟩
    · simp only [bytesBegin, hempty, hnil, decide_true, Option.bind_eq_bind, Option.bind_some,
        if_true, hend]
    · rwa [hnil] at hi
  · have hi : Stands cs ⟨some e.1, e.2.start⟩ 0 [] e.1 e.2 r :=
      ⟨hsplit, rfl, le_rfl, by simp [content]⟩
    obtain ⟨i', k', _, _, _, _, hi', hnorm, -, hin, -⟩ := normalizeIter_stands h hi
    obtain rfl := hin (List.length_pos_iff.mpr hnil)
    refine ⟨i', ?_, _, _, _, _, hi'⟩
    simp only [bytesBegin, hempty, hnil, decide_false, Option.bind_eq_bind, Option.bind_some,
      Bool.false_eq_true, if_false, hfollow.1, hnorm]

end

/-! ## Objects that operations have built -/

section

variable {H : Heap} {x : Shape} {a p : ℕ} {c : Chunk} {cs : Chunks}

theorem content_untrimmed (p : ℕ) (cs : Chunks) : content (untrimmed p cs) = bytesOf cs := by
  induction cs generalizing p with
  | nil => rfl
  | cons e cs ih =>
    rw [untrimmed, content_cons, bytesOf_cons, ih]
    rfl

theorem untrimmed_addrs (p : ℕ) (cs : Chunks) :
    (untrimmed p cs).map Prod.fst = cs.map Prod.fst := by
  induction cs generalizing p with
  | nil => rfl
  | cons e cs ih => rw [untrimmed, List.map_cons, List.map_cons, ih]

theorem untrimmed_start (p : ℕ) (cs : Chunks) :
    ∀ e ∈ untrimmed p cs, e.2.start ≤ e.2.data.length := by
  induction cs generalizing p with
  | nil => simp [untrimmed]
  | cons e cs ih =>
    intro e' he'
    rcases List.mem_cons.mp he' with rfl | he'
    · simp
    · exact ih _ e' he'

theorem untrimmed_offset {p : ℕ} {cs : Chunks} {l : Cells} {e : ℕ × Chunk} {r : Cells}
    (h : untrimmed p cs = l ++ e :: r) : e.2.offset = p + ((content l).length : ℤ) := by
  induction cs generalizing p l with
  | nil => exact absurd h (by simp [untrimmed])
  | cons e' cs ih =>
    rw [untrimmed] at h
    cases l with
    | nil =>
      obtain ⟨rfl, -⟩ := List.cons.inj h
      simp [content]
    | cons f l =>
      obtain ⟨rfl, hrest⟩ := List.cons.inj h
      rw [ih hrest, content_cons]
      simp only [List.drop_zero, List.length_append]
      omega

theorem Spot.cells (h : Spot H x a c p cs) :
    Follow H ((a, c) :: untrimmed (p + c.data.length) cs) ∧
      content ((a, c) :: untrimmed (p + c.data.length) cs) = x.written.drop (p + c.start) ∧
      ∀ l e r, (a, c) :: untrimmed (p + c.data.length) cs = l ++ e :: r →
        e.2.offset = (p + c.start : ℕ) + ((content l).length : ℤ) := by
  refine ⟨⟨h.chunk_eq, h.next_eq.trans (untrimmed_head _ _).symm, h.follow⟩, ?_, ?_⟩
  · obtain ⟨pre, hwritten, hpre⟩ := h.written_eq
    have hstart := h.start_le
    rw [content_cons, content_untrimmed, hwritten, ← hpre, List.drop_length_add_append,
      List.drop_append_of_le_length hstart]
  · intro l e r heq
    have hstart := h.start_le
    cases l with
    | nil =>
      obtain ⟨rfl, -⟩ := List.cons.inj heq
      rw [h.offset_eq]
      simp [content]
    | cons f l =>
      obtain ⟨rfl, hrest⟩ := List.cons.inj heq
      rw [untrimmed_offset hrest, content_cons]
      simp only [List.length_append, List.length_drop]
      omega

theorem Rep.layout (hrep : Rep H x) (hold : ∀ a ∈ x.addrs, a < H.fresh) :
    ∃ e r, Layout H (e :: r) ∧ e.1 = x.first ∧ content (e :: r) = x.written.drop x.trimmed := by
  have hnodup := hrep.nodup
  rw [Shape.addrs, List.nodup_cons] at hnodup
  have hsize := hrep.size_lt
  by_cases hle : x.trimmed ≤ x.data.length
  · obtain ⟨c, hdata, hstart, hspot⟩ := hrep.spot_first hle
    obtain ⟨hfollow, hcontent, hoffset⟩ := hspot.cells
    have haddrs : ((x.first, c) :: untrimmed (0 + c.data.length) x.rest).map Prod.fst = x.addrs := by
      rw [List.map_cons, untrimmed_addrs]
      rfl
    refine ⟨(x.first, c), _, ⟨hfollow, ?_, fun e he => ?_, ?_, ?_, _,
      fun l e r heq _ => hoffset l e r heq⟩, rfl, ?_⟩
    · rw [haddrs]
      exact hrep.nodup
    · exact hold e.1 (haddrs ▸ List.mem_map_of_mem he)
    · rw [List.length_cons, untrimmed_length]
      omega
    · exact List.forall_mem_cons.mpr ⟨hspot.start_le, untrimmed_start _ _⟩
    · rw [hcontent, Nat.zero_add, hstart]
  · obtain ⟨dead, heq, hdead, hlive⟩ := liveFrom_split x.trimmed x.data.length x.rest
    obtain ⟨e, l, hel⟩ : ∃ e l, liveFrom x.trimmed x.data.length x.rest = e :: l := by
      refine List.exists_cons_of_ne_nil fun hnil => ?_
      have hrest := hrep.live_eq_nil hnil
      have htrim := hrep.trimmed_lt
      rw [Shape.written, hrest] at htrim
      simp only [bytesOf, List.map_nil, List.flatten_nil, List.append_nil] at htrim
      omega
    rw [hel] at heq
    have hlt := hlive e l hel
    obtain ⟨c, hdata, hspot⟩ := hrep.spot_rest (show x.rest = dead ++ (e.1, e.2) :: l from heq)
      (by omega)
    have hstart := hspot.start_eq (by rw [hdata]; exact hlt)
    have hplace : x.data.length + (bytesOf dead).length + c.start = x.trimmed := by
      cases dead with
      | nil =>
        simp only [bytesOf, List.map_nil, List.flatten_nil, List.length_nil] at hstart ⊢
        omega
      | cons e' dead =>
        have := hdead (by simp)
        omega
    obtain ⟨hfollow, hcontent, hoffset⟩ := hspot.cells
    have hfirst := hrep.first_eq
    rw [hel, min_eq_right (by omega)] at hfirst
    have hfree : (⟨some e.1, (x.data.length : ℤ), x.data, x.data.length⟩ : Chunk).data.drop
        x.data.length = [] := List.drop_length
    refine ⟨(x.first, ⟨some e.1, (x.data.length : ℤ), x.data, x.data.length⟩), _,
      ⟨⟨hfirst, rfl, hfollow⟩, ?_, fun e' he' => hold e'.1 ?_, ?_, ?_, (x.trimmed : ℤ), ?_⟩, rfl, ?_⟩
    · have haddrs := hnodup
      rw [heq, List.map_append, List.map_cons] at haddrs
      rw [List.map_cons, List.map_cons, untrimmed_addrs, List.nodup_cons]
      refine ⟨fun hmem => haddrs.1 (List.mem_append_right _ hmem), ?_⟩
      exact (List.nodup_append.mp haddrs.2).2.1
    · have hmem := List.mem_map_of_mem (f := Prod.fst) he'
      rw [List.map_cons, List.map_cons, untrimmed_addrs] at hmem
      rw [Shape.addrs, heq, List.map_append]
      rcases List.mem_cons.mp hmem with hfst | hrest
      · rw [hfst]
        exact List.mem_cons_self
      · exact List.mem_cons_of_mem _ (List.mem_append_right _ hrest)
    · rw [List.length_cons, List.length_cons, untrimmed_length]
      rw [heq, List.length_append, List.length_cons] at hsize
      omega
    · refine List.forall_mem_cons.mpr ⟨le_rfl, List.forall_mem_cons.mpr ⟨hspot.start_le, ?_⟩⟩
      exact untrimmed_start _ _
    · intro l₁ e₁ r₁ hsplit hne
      cases l₁ with
      | nil =>
        obtain ⟨rfl, -⟩ := List.cons.inj hsplit
        exact absurd (by simp [content]) hne
      | cons f l₁ =>
        obtain ⟨rfl, hrest⟩ := List.cons.inj hsplit
        rw [hoffset l₁ e₁ r₁ hrest, content_cons, hplace]
        simp
    · rw [content_cons, hcontent, hplace]
      simp

end

theorem run_layout (ops : List Op) (A : Spec)
    (hrun : Spec.machine.run Spec.machine.start ops = some A) :
    ∃ s, machine.run machine.start ops = some s ∧ ∀ (n : ℕ) (o : Obj), A.objs[n]? = some o →
      ∃ e r, s.objs[n]? = some e.1 ∧ Layout s.heap (e :: r) ∧ content (e :: r) = o.content := by
  obtain ⟨s, hs, hprog⟩ := start_sim.run ops hrun
  obtain ⟨xs, hsim⟩ := hprog.sim
  refine ⟨s, hs, fun n o ho => ?_⟩
  obtain ⟨x, hx, rfl, hfirst, hrep⟩ := hsim.object ho
  obtain ⟨e, r, hlayout, he, hcontent⟩ := hrep.layout (hsim.world.old n x hx)
  exact ⟨e, r, he ▸ hfirst, hlayout, hcontent⟩

/-! ## An object of two chunks -/

def sampleCells : Cells :=
  [(0, ⟨some 1, 0, [1], 0⟩), (1, ⟨none, 1, [2, 3], 0⟩)]

def sampleHeap : Heap where
  chunk a := (sampleCells.find? fun e => e.1 = a).map Prod.snd
  fresh := 2

theorem sample_layout : Layout sampleHeap sampleCells where
  follow := ⟨rfl, rfl, rfl, rfl, trivial⟩
  nodup := by decide
  old := by decide
  size_le := by decide
  start_le := by decide
  offset_eq := by
    refine ⟨0, fun l e r heq _ => ?_⟩
    match l with
    | [] =>
      obtain ⟨rfl, -⟩ := List.cons.inj heq
      rfl
    | [f] =>
      obtain ⟨rfl, hrest⟩ := List.cons.inj heq
      obtain ⟨rfl, -⟩ := List.cons.inj hrest
      rfl
    | f :: g :: l =>
      obtain ⟨-, hrest⟩ := List.cons.inj heq
      obtain ⟨-, hrest⟩ := List.cons.inj hrest
      cases l <;> cases hrest

end Hilti.Bytes
