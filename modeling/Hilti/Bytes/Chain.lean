import Mathlib.Tactic
import Hilti.Bytes.Model

/-!
# The chunks of a bytes object

Every chunk that an object has ever had keeps its place among the bytes written to
the object: the difference of its offset and its start does not change.  `Rep` says
how the chunks lie on the heap when a number of bytes has been trimmed, and the
iterators into them are related to positions among all bytes written.
-/

namespace Hilti.Bytes

open Hilti.Lib

set_option autoImplicit false

/-! ## Representation -/

abbrev Chunks := List (ℕ × List UInt8)

def bytesOf (cs : Chunks) : List UInt8 :=
  (cs.map Prod.snd).flatten

def addrOf : Chunks → Option ℕ
  | [] => none
  | e :: _ => some e.1

@[simp] theorem addrOf_nil : addrOf [] = none := rfl

@[simp] theorem addrOf_cons (e : ℕ × List UInt8) (cs : Chunks) : addrOf (e :: cs) = some e.1 := rfl

/-- The chunks `cs` are linked to each other, and the first one starts at position `p`;
those that reach beyond the trimmed position `t` start where it lies. -/
def Linked (H : Heap) (t : ℕ) : ℕ → Chunks → Prop
  | _, [] => True
  | p, e :: cs =>
    (∃ start ≤ e.2.length, H.chunk e.1 = some ⟨addrOf cs, p + start, e.2, start⟩ ∧
      (t < p + e.2.length → start = t - p)) ∧
    e.2 ≠ [] ∧ Linked H t (p + e.2.length) cs

/-- The chunks that reach beyond position `t`. -/
def liveFrom (t : ℕ) : ℕ → Chunks → Chunks
  | _, [] => []
  | p, e :: cs => if p + e.2.length ≤ t then liveFrom t (p + e.2.length) cs else e :: cs

/-- An object: its first chunk, the other chunks it has ever had, and the number of
bytes trimmed. -/
structure Shape where
  first : ℕ
  data : List UInt8
  rest : Chunks
  trimmed : ℕ

namespace Shape

def written (x : Shape) : List UInt8 :=
  x.data ++ bytesOf x.rest

def addrs (x : Shape) : List ℕ :=
  x.first :: x.rest.map Prod.fst

/-- The chunk `a` of the object has the data `d`, which starts at position `p`. -/
def At (x : Shape) (a : ℕ) (d : List UInt8) (p : ℕ) : Prop :=
  (a = x.first ∧ d = x.data ∧ p = 0) ∨
    ∃ l₁ l₂, x.rest = l₁ ++ (a, d) :: l₂ ∧ p = x.data.length + (bytesOf l₁).length

end Shape

structure Rep (H : Heap) (x : Shape) : Prop where
  first_eq : H.chunk x.first = some ⟨addrOf (liveFrom x.trimmed x.data.length x.rest),
    (min x.trimmed x.data.length : ℕ), x.data, min x.trimmed x.data.length⟩
  linked : Linked H x.trimmed x.data.length x.rest
  trimmed_lt : x.trimmed < x.written.length ∨ x.trimmed = 0
  size_lt : x.rest.length < H.fresh
  nodup : x.addrs.Nodup

/-! ## Lists of chunks -/

theorem bytesOf_cons (e : ℕ × List UInt8) (cs : Chunks) : bytesOf (e :: cs) = e.2 ++ bytesOf cs := by
  simp [bytesOf]

theorem bytesOf_append (l₁ l₂ : Chunks) : bytesOf (l₁ ++ l₂) = bytesOf l₁ ++ bytesOf l₂ := by
  simp [bytesOf]

theorem bytesOf_concat_length (l : Chunks) (e : ℕ × List UInt8) :
    (bytesOf (l ++ [e])).length = (bytesOf l).length + e.2.length := by
  simp [bytesOf]

theorem Linked.suffix {H : Heap} {t p : ℕ} {l₁ l₂ : Chunks} (h : Linked H t p (l₁ ++ l₂)) :
    Linked H t (p + (bytesOf l₁).length) l₂ := by
  induction l₁ generalizing p with
  | nil => simpa [bytesOf] using h
  | cons e l₁ ih =>
    have hrest := ih h.2.2
    rwa [bytesOf_cons, List.length_append, ← Nat.add_assoc]

theorem Linked.frame {H H' : Heap} {t p : ℕ} {cs : Chunks} (h : Linked H t p cs)
    (heq : ∀ a ∈ cs.map Prod.fst, H'.chunk a = H.chunk a) : Linked H' t p cs := by
  induction cs generalizing p with
  | nil => trivial
  | cons e cs ih =>
    obtain ⟨⟨start, hle, hchunk, hstart⟩, hne, hrest⟩ := h
    refine ⟨⟨start, hle, ?_, hstart⟩, hne, ih hrest fun a ha => heq a (by simp [ha])⟩
    rw [heq e.1 (by simp), hchunk]

theorem liveFrom_split (t p : ℕ) (cs : Chunks) :
    ∃ dead, cs = dead ++ liveFrom t p cs ∧
      (dead ≠ [] → p + (bytesOf dead).length ≤ t) ∧
      ∀ e l, liveFrom t p cs = e :: l → t < p + (bytesOf dead).length + e.2.length := by
  induction cs generalizing p with
  | nil => exact ⟨[], rfl, by simp, by simp [liveFrom]⟩
  | cons e cs ih =>
    unfold liveFrom
    split
    · rename_i hle
      obtain ⟨dead, heq, hdead, hlive⟩ := ih (p + e.2.length)
      refine ⟨e :: dead, by rw [List.cons_append, ← heq], fun _ => ?_, fun e' l hel => ?_⟩
      · rw [bytesOf_cons, List.length_append]
        cases dead with
        | nil => simpa [bytesOf] using hle
        | cons e' dead =>
          have := hdead (by simp)
          omega
      · have := hlive e' l hel
        rw [bytesOf_cons, List.length_append]
        omega
    · rename_i hlt
      refine ⟨[], rfl, by simp, fun e' l hel => ?_⟩
      obtain ⟨rfl, -⟩ := List.cons.inj hel
      simpa [bytesOf] using hlt

/-! ## One object -/

section

variable {H : Heap} {x : Shape}

theorem Rep.frame {H' : Heap} (h : Rep H x) (heq : ∀ a ∈ x.addrs, H'.chunk a = H.chunk a)
    (hfresh : H.fresh ≤ H'.fresh) : Rep H' x where
  first_eq := by rw [heq x.first (by simp [Shape.addrs]), h.first_eq]
  linked := h.linked.frame fun a ha => heq a (by simp [Shape.addrs, ha])
  trimmed_lt := h.trimmed_lt
  size_lt := h.size_lt.trans_le hfresh
  nodup := h.nodup

theorem Rep.chunk_rest (h : Rep H x) {l₁ l₂ : Chunks} {a : ℕ} {d : List UInt8}
    (heq : x.rest = l₁ ++ (a, d) :: l₂) :
    d ≠ [] ∧ ∃ start ≤ d.length,
      H.chunk a = some ⟨addrOf l₂, (x.data.length + (bytesOf l₁).length : ℕ) + start, d, start⟩ ∧
      (x.trimmed < x.data.length + (bytesOf l₁).length + d.length →
        start = x.trimmed - (x.data.length + (bytesOf l₁).length)) := by
  have hl := h.linked
  rw [heq] at hl
  obtain ⟨hchunk, hne, -⟩ := hl.suffix
  exact ⟨hne, hchunk⟩

theorem Rep.live_eq_nil (h : Rep H x) (hnil : liveFrom x.trimmed x.data.length x.rest = []) :
    x.rest = [] := by
  obtain ⟨dead, heq, hdead, -⟩ := liveFrom_split x.trimmed x.data.length x.rest
  rw [hnil, List.append_nil] at heq
  by_contra hne
  rw [heq] at hne
  have hle := hdead hne
  rcases h.trimmed_lt with hlt | hzero
  · rw [Shape.written, heq, List.length_append] at hlt
    omega
  · cases hrest : dead with
    | nil => exact hne hrest
    | cons e l =>
      have hchunk := h.chunk_rest (show x.rest = [] ++ (e.1, e.2) :: l by rw [heq, hrest]; rfl)
      have hpos := List.length_pos_iff.mpr hchunk.1
      rw [hrest, bytesOf_cons, List.length_append] at hle
      omega

theorem Linked.live_eq {t t' p : ℕ} {cs : Chunks} (h : Linked H t' p cs) (hle : t ≤ p) :
    liveFrom t p cs = cs := by
  cases cs with
  | nil => rfl
  | cons e l =>
    have hpos := List.length_pos_iff.mpr h.2.1
    rw [liveFrom, if_neg (by omega)]

/-! ## Following the links -/

/-- The cells are linked to each other, and the last one to nothing. -/
def Follow (H : Heap) : List (ℕ × Chunk) → Prop
  | [] => True
  | e :: l => H.chunk e.1 = some e.2 ∧ e.2.next = (l.head?.map Prod.fst) ∧ Follow H l

def untrimmed : ℕ → Chunks → List (ℕ × Chunk)
  | _, [] => []
  | p, e :: cs => (e.1, ⟨addrOf cs, p, e.2, 0⟩) :: untrimmed (p + e.2.length) cs

theorem untrimmed_head (p : ℕ) (cs : Chunks) :
    (untrimmed p cs).head?.map Prod.fst = addrOf cs := by
  cases cs <;> rfl

theorem untrimmed_length (p : ℕ) (cs : Chunks) : (untrimmed p cs).length = cs.length := by
  induction cs generalizing p with
  | nil => rfl
  | cons e cs ih => simp [untrimmed, ih]

theorem Linked.follow {t p : ℕ} {cs : Chunks} (h : Linked H t p cs) (hle : t ≤ p) :
    Follow H (untrimmed p cs) := by
  induction cs generalizing p with
  | nil => trivial
  | cons e cs ih =>
    obtain ⟨⟨start, -, hchunk, hstart⟩, hne, hrest⟩ := h
    have hpos := List.length_pos_iff.mpr hne
    obtain rfl : start = 0 := by
      rw [hstart (by omega)]
      omega
    refine ⟨?_, (untrimmed_head _ _).symm, ih hrest (by omega)⟩
    simpa using hchunk

/-- A chunk of the object whose end has not been trimmed, and the chunks `cs` that
follow it. -/
structure Spot (H : Heap) (x : Shape) (a : ℕ) (c : Chunk) (p : ℕ) (cs : Chunks) : Prop where
  place : (a = x.first ∧ c.data = x.data ∧ p = 0 ∧ x.rest = cs) ∨
    ∃ l, x.rest = l ++ (a, c.data) :: cs ∧ p = x.data.length + (bytesOf l).length
  chunk_eq : H.chunk a = some c
  offset_eq : c.offset = p + c.start
  start_le : c.start ≤ c.data.length
  start_eq : x.trimmed < p + c.data.length → c.start = x.trimmed - p
  next_eq : c.next = addrOf cs
  trimmed_le : x.trimmed ≤ p + c.data.length
  follow : Follow H (untrimmed (p + c.data.length) cs)
  ne_nil : ∀ e ∈ cs, e.2 ≠ []

theorem Rep.spot_first (h : Rep H x) (hle : x.trimmed ≤ x.data.length) :
    ∃ c, c.data = x.data ∧ c.start = x.trimmed ∧ Spot H x x.first c 0 x.rest := by
  have hlive := h.linked.live_eq hle
  refine ⟨_, rfl, min_eq_left hle, ⟨.inl ⟨rfl, rfl, rfl, rfl⟩, h.first_eq, by simp, by simp,
    fun _ => ?_, ?_, ?_, ?_, ?_⟩⟩
  · simp only [Nat.sub_zero]
    omega
  · simp only [hlive]
  · simpa using hle
  · simp only [Nat.zero_add]
    exact h.linked.follow hle
  · intro e he
    obtain ⟨l₁, l₂, heq⟩ := List.append_of_mem he
    exact (h.chunk_rest (show x.rest = l₁ ++ (e.1, e.2) :: l₂ from heq)).1

theorem Rep.spot_rest (h : Rep H x) {l₁ l₂ : Chunks} {a : ℕ} {d : List UInt8}
    (heq : x.rest = l₁ ++ (a, d) :: l₂)
    (hle : x.trimmed ≤ x.data.length + (bytesOf l₁).length + d.length) :
    ∃ c, c.data = d ∧ Spot H x a c (x.data.length + (bytesOf l₁).length) l₂ := by
  obtain ⟨-, start, hstart, hchunk, htrim⟩ := h.chunk_rest heq
  have hl := h.linked
  rw [heq] at hl
  have hl₂ := hl.suffix.2.2
  refine ⟨_, rfl, ⟨.inr ⟨l₁, heq, rfl⟩, hchunk, rfl, hstart, htrim, rfl, hle, hl₂.follow hle, ?_⟩⟩
  intro e he
  obtain ⟨k₁, k₂, hk⟩ := List.append_of_mem he
  refine (h.chunk_rest (show x.rest = (l₁ ++ (a, d) :: k₁) ++ (e.1, e.2) :: k₂ from ?_)).1
  rw [heq, hk]
  simp

theorem Rep.spot (h : Rep H x) {a : ℕ} {d : List UInt8} {p : ℕ} (hat : x.At a d p)
    (hle : x.trimmed ≤ p + d.length) : ∃ c cs, c.data = d ∧ Spot H x a c p cs := by
  rcases hat with ⟨rfl, rfl, rfl⟩ | ⟨l₁, l₂, heq, rfl⟩
  · obtain ⟨c, hdata, -, hspot⟩ := h.spot_first (by omega)
    exact ⟨c, x.rest, hdata, hspot⟩
  · obtain ⟨c, hdata, hspot⟩ := h.spot_rest heq hle
    exact ⟨c, l₂, hdata, hspot⟩

namespace Spot

variable {a : ℕ} {c : Chunk} {p : ℕ} {cs : Chunks}

theorem at_self (h : Spot H x a c p cs) : x.At a c.data p := by
  rcases h.place with ⟨ha, hd, hp, -⟩ | ⟨l, heq, hp⟩
  · exact .inl ⟨ha, hd, hp⟩
  · exact .inr ⟨l, cs, heq, hp⟩

theorem rest_eq (h : Spot H x a c p cs) :
    ∃ l, x.rest = l ++ cs ∧ p + c.data.length = x.data.length + (bytesOf l).length := by
  rcases h.place with ⟨-, hd, rfl, heq⟩ | ⟨l, heq, rfl⟩
  · exact ⟨[], heq, by simp [bytesOf, hd]⟩
  · refine ⟨l ++ [(a, c.data)], by simp [heq], ?_⟩
    rw [bytesOf_concat_length]
    simp only
    omega

theorem written_eq (h : Spot H x a c p cs) :
    ∃ pre, x.written = pre ++ (c.data ++ bytesOf cs) ∧ pre.length = p := by
  rcases h.place with ⟨-, hd, rfl, heq⟩ | ⟨l, heq, rfl⟩
  · exact ⟨[], by simp [Shape.written, hd, heq], rfl⟩
  · exact ⟨x.data ++ bytesOf l, by simp [Shape.written, heq, bytesOf_append, bytesOf_cons], by simp⟩

theorem next {e : ℕ × List UInt8} (h : Spot H x a c p (e :: cs)) :
    Spot H x e.1 ⟨addrOf cs, (p + c.data.length : ℕ), e.2, 0⟩ (p + c.data.length) cs := by
  obtain ⟨l, heq, hlen⟩ := h.rest_eq
  have hle := h.trimmed_le
  refine ⟨.inr ⟨l, heq, hlen⟩, h.follow.1, by simp, by simp, fun _ => ?_, rfl, ?_,
    h.follow.2.2, fun e' he' => h.ne_nil e' (by simp [he'])⟩
  · simp only
    omega
  · simp only
    omega

theorem written_length (h : Spot H x a c p cs) :
    x.written.length = p + c.data.length + (bytesOf cs).length := by
  obtain ⟨pre, hwritten, hpre⟩ := h.written_eq
  rw [hwritten]
  simp only [List.length_append]
  omega

theorem length_lt (h : Spot H x a c p cs) (hrep : Rep H x) : cs.length < H.fresh := by
  obtain ⟨l, heq, -⟩ := h.rest_eq
  have := hrep.size_lt
  rw [heq, List.length_append] at this
  omega

theorem not_mem_rest (h : Spot H x a c p cs) (hrep : Rep H x) : a ∉ cs.map Prod.fst := by
  have hnodup := hrep.nodup
  rcases h.place with ⟨rfl, -, -, heq⟩ | ⟨l, heq, -⟩
  · rw [Shape.addrs, heq, List.nodup_cons] at hnodup
    exact hnodup.1
  · rw [Shape.addrs, heq, List.map_append, List.nodup_cons, List.nodup_append, List.map_cons,
      List.nodup_cons] at hnodup
    exact hnodup.2.2.1.1

theorem getElem? (h : Spot H x a c p cs) {k : ℕ} (hk : k < c.data.length) :
    c.data[k]? = x.written[p + k]? := by
  obtain ⟨pre, hwritten, hpre⟩ := h.written_eq
  rw [hwritten, ← hpre, List.getElem?_append_right (by omega), Nat.add_sub_cancel_left,
    List.getElem?_append_left hk]

end Spot

/-! ## The loops over chunks -/

def lastOf : ℕ → Chunks → ℕ
  | a, [] => a
  | _, e :: cs => lastOf e.1 cs

theorem tailLoop_spec {a p : ℕ} {c : Chunk} {cs : Chunks} (hc : H.chunk a = some c)
    (hnext : c.next = addrOf cs) (h : Follow H (untrimmed p cs)) {fuel : ℕ}
    (hf : cs.length < fuel) : tailLoop H fuel a = some (lastOf a cs) := by
  induction cs generalizing a c p fuel with
  | nil =>
    obtain ⟨fuel, rfl⟩ : ∃ n, fuel = n + 1 := ⟨fuel - 1, by simp at hf; omega⟩
    simp [tailLoop, hc, hnext, lastOf]
  | cons e cs ih =>
    obtain ⟨fuel, rfl⟩ : ∃ n, fuel = n + 1 := ⟨fuel - 1, by simp at hf; omega⟩
    have hrest := ih h.1 rfl h.2.2 (show cs.length < fuel by simpa using hf)
    simp [tailLoop, hc, hnext, lastOf, hrest]

theorem copyLoop_spec {p : ℕ} {cs : Chunks} (h : Follow H (untrimmed p cs)) {fuel : ℕ}
    (hf : cs.length ≤ fuel) : copyLoop H fuel (addrOf cs) = some (bytesOf cs) := by
  induction cs generalizing p fuel with
  | nil => cases fuel <;> rfl
  | cons e cs ih =>
    obtain ⟨fuel, rfl⟩ : ∃ n, fuel = n + 1 := ⟨fuel - 1, by simp at hf; omega⟩
    have hrest := ih h.2.2 (show cs.length ≤ fuel by simpa using hf)
    simp [copyLoop, h.1, hrest, bytesOf_cons]

theorem lenLoop_spec {p : ℕ} {cs : Chunks} (h : Follow H (untrimmed p cs)) {fuel : ℕ}
    (hf : cs.length ≤ fuel) :
    lenLoop H fuel (addrOf cs) = some ((bytesOf cs).length : ℤ) := by
  induction cs generalizing p fuel with
  | nil => cases fuel <;> rfl
  | cons e cs ih =>
    obtain ⟨fuel, rfl⟩ : ∃ n, fuel = n + 1 := ⟨fuel - 1, by simp at hf; omega⟩
    have hrest := ih h.2.2 (show cs.length ≤ fuel by simpa using hf)
    simp [lenLoop, h.1, hrest, bytesOf_cons]

theorem lastOf_mem {cs : Chunks} (a : ℕ) (hne : cs ≠ []) : lastOf a cs ∈ cs.map Prod.fst := by
  induction cs generalizing a with
  | nil => exact absurd rfl hne
  | cons e cs ih =>
    cases cs with
    | nil => simp [lastOf]
    | cons e' cs => exact List.mem_cons_of_mem _ (ih e.1 (by simp))

end

end Hilti.Bytes
