import Mathlib.Tactic
import Hilti.Sink.Model

/-!
# The buffer of a sink

The chunks of a sink as a list of blocks in the order of their positions, and the
insertion of a new block into such a list.  `addAndCheck` on the linked list of
chunks computes the same list.
-/

namespace Hilti.Sink

open Hilti.Lib Hilti.Lib.LinkedList

set_option autoImplicit false

/-! ## Arithmetic -/

theorem uint64_of_lt {n : ℕ} (h : n < 2 ^ 64) : uint64 n = n :=
  Nat.mod_eq_of_lt h

theorem sub64_of_le {a b : ℕ} (h : b ≤ a) (ha : a < 2 ^ 64) : sub64 a b = a - b := by
  unfold sub64
  omega

theorem int64_of_lt {n : ℕ} (h : n < 2 ^ 63) : int64 n = n :=
  if_pos h

theorem int64_of_le {n : ℕ} (h : 2 ^ 63 ≤ n) : int64 n = (n : ℤ) - 2 ^ 64 :=
  if_neg (by omega)

theorem addInt64_int64 {a n : ℕ} (h : a + n < 2 ^ 64) : addInt64 a (int64 n) = a + n := by
  unfold addInt64 int64
  split <;> omega

/-! ## Blocks -/

/-- A block of at least one position that fits 64 bits. -/
def Block.Ok (b : Block) : Prop :=
  b.rseq < b.rupper ∧ b.rupper < 2 ^ 64

/-- Blocks in the order of their positions, none of which overlap. -/
structure Ordered (l : List Block) : Prop where
  ok : ∀ b ∈ l, b.Ok
  sorted : l.Pairwise fun a b => a.rupper ≤ b.rseq

/-- The part of the new data that comes before the block `b`. -/
def prefixBlock (b : Block) (r : ℕ) (d : Option (List UInt8)) : List Block :=
  match d with
  | some d => if r < b.rseq then [⟨r, b.rseq, some (d.take (b.rseq - r))⟩] else []
  | none => []

/-- Whether the insertion goes on behind an overlapping block that ends at `p`, when
the overlap starts at `r`; the lengths are compared as `int64_t`. -/
def GoesOn (r p u : ℕ) : Prop :=
  p < u ∧ (u - r < 2 ^ 63 ∨ 2 ^ 63 ≤ p - r)

instance (r p u : ℕ) : Decidable (GoesOn r p u) :=
  inferInstanceAs (Decidable (_ ∧ _))

/-- Inserts the positions from `r` to `u` that no block covers yet. -/
def insertBlock : List Block → ℕ → ℕ → Option (List UInt8) → List Block
  | [], r, u, d => [⟨r, u, d⟩]
  | b :: bs, r, u, d =>
    if b.rupper ≤ r then b :: insertBlock bs r u d
    else if u ≤ b.rseq then ⟨r, u, d⟩ :: b :: bs
    else prefixBlock b r d ++ b ::
      if GoesOn (max r b.rseq) b.rupper u then
        insertBlock bs b.rupper u (some ((d.getD []).drop (b.rupper - r)))
      else bs

theorem insertBlock_append {l₁ l₂ : List Block} {r u : ℕ} {d : Option (List UInt8)}
    (h : ∀ b ∈ l₁, b.rupper ≤ r) :
    insertBlock (l₁ ++ l₂) r u d = l₁ ++ insertBlock l₂ r u d := by
  induction l₁ with
  | nil => rfl
  | cons b l₁ ih =>
    rw [List.cons_append, insertBlock, if_pos (h b (by simp)),
      ih fun b' hb' => h b' (by simp [hb'])]
    rfl

/-- The data of a new block of positions `r` to `u`, or none of it. -/
def DataOk (r u : ℕ) : Option (List UInt8) → Prop
  | none => True
  | some d => d = [] ∨ (d.length = u - r ∧ u - r < 2 ^ 63)

/-- No overlapping block has `2 ^ 63` or more positions from where the overlap starts
while the new positions from there on are fewer. -/
def LengthsFit (l : List Block) (r u : ℕ) : Prop :=
  ∀ b ∈ l, r < b.rupper → b.rseq < u →
    ¬ (u - max r b.rseq < 2 ^ 63 ∧ 2 ^ 63 ≤ b.rupper - max r b.rseq)

/-- A gap does not start in front of a block that it overlaps. -/
def NoOverhang (l : List Block) (r u : ℕ) : Option (List UInt8) → Prop
  | some _ => True
  | none => (∃ b ∈ l, b.rseq ≤ r ∧ r < b.rupper) ∨ ∀ b ∈ l, r < b.rseq → u ≤ b.rseq

instance (l : List Block) (r u : ℕ) : Decidable (LengthsFit l r u) :=
  inferInstanceAs (Decidable (∀ b ∈ l, _))

instance (l : List Block) (r u : ℕ) : (d : Option (List UInt8)) → Decidable (NoOverhang l r u d)
  | some _ => isTrue trivial
  | none => inferInstanceAs (Decidable ((∃ b ∈ l, _) ∨ ∀ b ∈ l, _))

theorem Ordered.nil : Ordered [] :=
  ⟨by simp, List.Pairwise.nil⟩

theorem Ordered.cons {b : Block} {l : List Block} (hb : b.Ok) (hl : Ordered l)
    (h : ∀ b' ∈ l, b.rupper ≤ b'.rseq) : Ordered (b :: l) where
  ok b' hb' := by
    rcases List.mem_cons.mp hb' with rfl | hb'
    · exact hb
    · exact hl.ok b' hb'
  sorted := List.pairwise_cons.mpr ⟨h, hl.sorted⟩

theorem Ordered.tail {b : Block} {l : List Block} (h : Ordered (b :: l)) : Ordered l :=
  ⟨fun b' hb' => h.ok b' (by simp [hb']), (List.pairwise_cons.mp h.sorted).2⟩

theorem Ordered.head_le {b : Block} {l : List Block} (h : Ordered (b :: l)) :
    ∀ b' ∈ l, b.rupper ≤ b'.rseq :=
  (List.pairwise_cons.mp h.sorted).1

theorem Ordered.suffix {l₁ l₂ : List Block} (h : Ordered (l₁ ++ l₂)) : Ordered l₂ :=
  ⟨fun b hb => h.ok b (by simp [hb]), (List.pairwise_append.mp h.sorted).2.1⟩

theorem Ordered.append_le {l₁ l₂ : List Block} (h : Ordered (l₁ ++ l₂)) :
    ∀ b ∈ l₁, ∀ b' ∈ l₂, b.rupper ≤ b'.rseq :=
  (List.pairwise_append.mp h.sorted).2.2

theorem insertBlock_mem {l : List Block} {r u : ℕ} {d : Option (List UInt8)} {b : Block}
    (hl : Ordered l) (hb : b ∈ insertBlock l r u d) : b ∈ l ∨ r ≤ b.rseq := by
  induction l generalizing r d with
  | nil =>
    obtain rfl : b = ⟨r, u, d⟩ := by simpa [insertBlock] using hb
    exact .inr le_rfl
  | cons c l ih =>
    have hc := hl.ok c (by simp)
    unfold insertBlock at hb
    split at hb
    · rcases List.mem_cons.mp hb with rfl | hb
      · exact .inl (by simp)
      · exact (ih hl.tail hb).imp (fun h => by simp [h]) id
    · rename_i hcr
      split at hb
      · rcases List.mem_cons.mp hb with rfl | hb
        · exact .inr le_rfl
        · exact .inl hb
      · rcases List.mem_append.mp hb with hb | hb
        · right
          unfold prefixBlock at hb
          split at hb
          · split at hb
            · obtain rfl : b = _ := List.mem_singleton.mp hb
              exact le_rfl
            · simp at hb
          · simp at hb
        · rcases List.mem_cons.mp hb with rfl | hb
          · exact .inl (by simp)
          · split at hb
            · exact (ih hl.tail hb).imp (fun h => by simp [h]) fun h => by omega
            · exact .inl (by simp [hb])

theorem prefixBlock_ordered {b : Block} {r : ℕ} (d : Option (List UInt8)) (hb : b.Ok)
    {l : List Block} (hl : Ordered (b :: l)) : Ordered (prefixBlock b r d ++ b :: l) := by
  unfold prefixBlock
  split
  · split
    · rename_i hr
      refine hl.cons ⟨hr, ?_⟩ fun b' hb' => ?_
      · have := hb.1
        have := hb.2
        change b.rseq < 2 ^ 64
        omega
      · rcases List.mem_cons.mp hb' with rfl | hb'
        · exact le_rfl
        · have := hl.head_le b' hb'
          have := hb.1
          change b.rseq ≤ b'.rseq
          omega
    · exact hl
  · exact hl

theorem insertBlock_ordered {l : List Block} {r u : ℕ} {d : Option (List UInt8)}
    (hl : Ordered l) (hr : r < u) (hu : u < 2 ^ 64) : Ordered (insertBlock l r u d) := by
  induction l generalizing r d with
  | nil => exact Ordered.nil.cons ⟨hr, hu⟩ (by simp)
  | cons b l ih =>
    have hb := hl.ok b (by simp)
    unfold insertBlock
    split
    · rename_i hle
      refine (ih hl.tail hr).cons hb fun b' hb' => ?_
      rcases insertBlock_mem hl.tail hb' with h | h
      · exact hl.head_le b' h
      · omega
    · split
      · rename_i hle
        refine hl.cons ⟨hr, hu⟩ fun b' hb' => ?_
        rcases List.mem_cons.mp hb' with rfl | hb'
        · exact hle
        · have := hl.head_le b' hb'
          have := hb.1
          change u ≤ b'.rseq
          omega
      · refine prefixBlock_ordered d hb ?_
        split
        · rename_i hgo
          refine (ih hl.tail hgo.1).cons hb fun b' hb' => ?_
          rcases insertBlock_mem hl.tail hb' with h | h
          · exact hl.head_le b' h
          · exact h
        · exact hl

theorem insertBlock_length (l : List Block) (r u : ℕ) (d : Option (List UInt8)) :
    (insertBlock l r u d).length ≤ 2 * l.length + 1 := by
  have hpre : ∀ (b : Block) r d, (prefixBlock b r d).length ≤ 1 := by
    intro b r d
    unfold prefixBlock
    split
    · split <;> simp
    · simp
  induction l generalizing r d with
  | nil => simp [insertBlock]
  | cons b l ih =>
    unfold insertBlock
    split
    · have := ih r d
      simp only [List.length_cons]
      omega
    · split
      · simp only [List.length_cons]
        omega
      · have := hpre b r d
        split
        · have := ih b.rupper (some ((d.getD []).drop (b.rupper - r)))
          simp only [List.length_append, List.length_cons]
          omega
        · simp only [List.length_append, List.length_cons]
          omega

/-! ## Insertion into the linked list -/

/-- The blocks of the chunks. -/
abbrev vals (l : List (ℕ × Block)) : List Block :=
  l.map Prod.snd

/-- What was handed to the parsers. -/
def deliveries (log : List Event) : List (ℕ × List UInt8) :=
  log.filterMap fun e => match e with
    | .deliver p d => some (p, d)
    | _ => none

theorem deliveries_append (l l' : List Event) :
    deliveries (l ++ l') = deliveries l ++ deliveries l' :=
  List.filterMap_append

/-- Only chunks, reports to hooks and the pending exception differ. -/
structure Frame (s s' : SpicySink) : Prop where
  head_eq : s'.head = s.head
  filter_eq : s'.filter = s.filter
  autoTrim_eq : s'.autoTrim = s.autoTrim
  initialSeq_eq : s'.initialSeq = s.initialSeq
  curRseq_eq : s'.curRseq = s.curRseq
  lastReassemRseq_eq : s'.lastReassemRseq = s.lastReassemRseq
  deliveries_eq : deliveries s'.log = deliveries s.log

theorem Frame.refl (s : SpicySink) : Frame s s :=
  ⟨rfl, rfl, rfl, rfl, rfl, rfl, rfl⟩

theorem Frame.trans {s s' s'' : SpicySink} (h : Frame s s') (h' : Frame s' s'') : Frame s s'' where
  head_eq := h'.head_eq.trans h.head_eq
  filter_eq := h'.filter_eq.trans h.filter_eq
  autoTrim_eq := h'.autoTrim_eq.trans h.autoTrim_eq
  initialSeq_eq := h'.initialSeq_eq.trans h.initialSeq_eq
  curRseq_eq := h'.curRseq_eq.trans h.curRseq_eq
  lastReassemRseq_eq := h'.lastReassemRseq_eq.trans h.lastReassemRseq_eq
  deliveries_eq := h'.deliveries_eq.trans h.deliveries_eq

/-- No hook raises an exception. -/
def Env.Silent (env : Env) : Prop :=
  ∀ p e, env.raises p e = false

section

variable {env : Env} {s : SpicySink}

theorem report_frame (e : Event) (he : deliveries [e] = []) (s : SpicySink) :
    Frame s (report env e s) :=
  ⟨rfl, rfl, rfl, rfl, rfl, rfl, by simp [report, deliveries_append, he]⟩

theorem report_excpt (henv : env.Silent) (e : Event) (s : SpicySink) :
    (report env e s).excpt = s.excpt := by
  simp [report, henv _ e]

theorem newChunk_spec {l₁ l₂ : List (ℕ × Block)} (h : s.chunks.Represents (l₁ ++ l₂))
    (b : Block) : ∃ chunks, newChunk (lastAddr none l₁) b s =
        some ({ s with chunks := chunks }, s.chunks.fresh) ∧
      chunks.Represents (l₁ ++ (s.chunks.fresh, b) :: l₂) := by
  obtain ⟨halloc, hcell, hnew⟩ := h.alloc b
  obtain ⟨chunks, hins, hrep, -⟩ := halloc.insertAfter hcell hnew (Nat.lt_succ_self _)
  exact ⟨chunks, by simp [newChunk, hins], hrep⟩

theorem findChunk_spec (r : ℕ) (suf : List (ℕ × Block)) :
    ∀ (pre : List (ℕ × Block)) (a : ℕ) (v : Block) (fuel : ℕ),
      s.chunks.Represents (pre ++ (a, v) :: suf) → suf.length < fuel →
      ∃ l₁ a' v' l₂, findChunk s r fuel a = some a' ∧ (a, v) :: suf = l₁ ++ (a', v') :: l₂ ∧
        (∀ e ∈ l₁, e.2.rupper ≤ r) ∧ (v'.rupper ≤ r → l₂ = []) := by
  induction suf with
  | nil =>
    intro pre a v fuel h hf
    obtain ⟨fuel, rfl⟩ : ∃ n, fuel = n + 1 := ⟨fuel - 1, by simp at hf; omega⟩
    exact ⟨[], a, v, [], by simp [findChunk, h.heap_eq, headAddr], rfl, by simp, fun _ => rfl⟩
  | cons e suf ih =>
    intro pre a v fuel h hf
    obtain ⟨n, w⟩ := e
    obtain ⟨fuel, rfl⟩ : ∃ n, fuel = n + 1 := ⟨fuel - 1, by simp at hf; omega⟩
    by_cases hle : v.rupper ≤ r
    · have h' : s.chunks.Represents ((pre ++ [(a, v)]) ++ (n, w) :: suf) := by simpa using h
      obtain ⟨l₁, a', v', l₂, hfind, heq, hl₁, hlast⟩ :=
        ih (pre ++ [(a, v)]) n w fuel h' (by simpa using hf)
      refine ⟨(a, v) :: l₁, a', v', l₂, ?_, by simp [heq], ?_, hlast⟩
      · simp [findChunk, h.heap_eq, headAddr, hle, hfind]
      · intro e he
        rcases List.mem_cons.mp he with rfl | he
        · exact hle
        · exact hl₁ e he
    · exact ⟨[], a, v, (n, w) :: suf, by simp [findChunk, h.heap_eq, headAddr, hle], rfl,
        by simp, fun h => absurd h hle⟩

theorem bytesDrop_int64 {d : List UInt8} {n : ℕ} (h : d = [] ∨ n < 2 ^ 63) :
    bytesDrop (int64 n) d = some (d.drop n) := by
  rcases h with rfl | h
  · simp [bytesDrop]
  · rw [int64_of_lt h, bytesDrop, if_neg (by simp)]
    simp

theorem bytesTake_int64 {d : List UInt8} {n : ℕ} (h : d = [] ∨ n < 2 ^ 63) :
    bytesTake (int64 n) d = d.take n := by
  rcases h with rfl | h
  · simp [bytesTake]
  · rw [int64_of_lt h, bytesTake]
    simp

/-- The length of the overlap that `__add_and_check` computes for a chunk that ends at
`p` and a new block that ends at `u`, when both have positions from `r` on. -/
def overlapLen (r p u : ℕ) : ℤ :=
  if int64 (sub64 u r) < int64 (sub64 p r) then int64 (sub64 u r) else int64 (sub64 p r)

theorem overlapLen_lt_iff {r p u : ℕ} (hp : r < p) (hp' : p < 2 ^ 64) (hu : r < u)
    (hu' : u < 2 ^ 64) (hfit : ¬ (u - r < 2 ^ 63 ∧ 2 ^ 63 ≤ p - r)) :
    (overlapLen r p u < int64 (sub64 u r) ↔ GoesOn r p u) ∧
      (GoesOn r p u → overlapLen r p u = int64 (p - r)) := by
  unfold overlapLen GoesOn
  rw [sub64_of_le hu.le hu', sub64_of_le hp.le hp']
  unfold int64
  constructor
  · split <;> split <;> split <;> omega
  · rintro ⟨h1, h2⟩
    split <;> split <;> split <;> omega

theorem splitPrefix_spec {l₁ l₂ : List (ℕ × Block)} {a : ℕ} {v : Block}
    (nx : Option ℕ) (h : s.chunks.Represents (l₁ ++ (a, v) :: l₂)) (hv : v.Ok) {r u : ℕ}
    {d : Option (List UInt8)} (hd : DataOk r u d) (hu : v.rseq < u) :
    ∃ s' newB new, splitPrefix a ⟨nx, lastAddr none l₁, v⟩ r d s =
        some (s', newB, max r v.rseq, d.map fun d => d.drop (v.rseq - r)) ∧
      s'.chunks.Represents (l₁ ++ (new ++ (a, v) :: l₂)) ∧ vals new = prefixBlock v r d ∧
      Frame s s' ∧ s'.trimRseq = s.trimRseq ∧ s'.excpt = s.excpt ∧
      ((v.rseq ≤ r ∧ newB = some a ∧ new = []) ∨ (r < v.rseq ∧ d = none) ∨
        (r < v.rseq ∧ ∃ c w, newB = some c ∧ new = [(c, w)] ∧ w.rseq = r ∧ c ≠ a)) := by
  have hlt : v.rseq < 2 ^ 64 := hv.1.trans hv.2
  by_cases hr : r < v.rseq
  · have hmax : max r v.rseq = v.rseq := max_eq_right hr.le
    have hsub : sub64 v.rseq r = v.rseq - r := sub64_of_le hr.le hlt
    have hadd : addInt64 r (int64 (v.rseq - r)) = v.rseq := by
      rw [addInt64_int64 (by omega)]
      omega
    cases d with
    | none =>
      exact ⟨s, none, [], by simp [splitPrefix, hr, hsub, hadd, hmax], by simpa using h, rfl,
        .refl s, rfl, rfl, .inr (.inl ⟨hr, rfl⟩)⟩
    | some d =>
      have hd' : d = [] ∨ v.rseq - r < 2 ^ 63 := hd.imp id fun hlen => by omega
      obtain ⟨chunks, hnew, hrep⟩ := newChunk_spec h ⟨r, v.rseq, some (d.take (v.rseq - r))⟩
      refine ⟨{ s with chunks := chunks }, some s.chunks.fresh, 
          [(s.chunks.fresh, ⟨r, v.rseq, some (d.take (v.rseq - r))⟩)],
        ?_, hrep, by simp [prefixBlock, hr], ⟨rfl, rfl, rfl, rfl, rfl, rfl, rfl⟩, rfl, rfl,
        .inr (.inr ⟨hr, _, _, rfl, rfl, rfl, ?_⟩)⟩
      · simp [splitPrefix, hr, hsub, hadd, hmax, bytesTake_int64 hd', bytesDrop_int64 hd', hnew]
      · have := h.old a (by simp)
        omega
  · have hmax : max r v.rseq = r := max_eq_left (by omega)
    have hzero : v.rseq - r = 0 := by omega
    refine ⟨s, some a, [], ?_, by simpa using h, ?_, .refl s, rfl, rfl,
      .inl ⟨by omega, rfl, rfl⟩⟩
    · cases d <;> simp [splitPrefix, hr, hmax, hzero]
    · cases d <;> simp [prefixBlock, hr]

theorem lastAddr_append_cons (l₁ l₂ : List (ℕ × Block)) (a : ℕ) (v : Block) :
    lastAddr none (l₁ ++ (l₂ ++ [(a, v)])) = some a := by
  rw [lastAddr_append, lastAddr_append]
  rfl

theorem Ordered.rupper_le {l : List Block} {v : Block} (h : Ordered (l ++ [v])) {r : ℕ}
    (hr : v.rupper ≤ r) : ∀ b ∈ l ++ [v], b.rupper ≤ r := by
  intro b hb
  rcases List.mem_append.mp hb with hb | hb
  · have hle := h.append_le b hb v (by simp)
    have hv := h.ok v (by simp)
    have := hv.1
    omega
  · obtain rfl := List.mem_singleton.mp hb
    exact hr

/-- Some block has the position `p`. -/
def Covered (l : List Block) (p : ℕ) : Prop :=
  ∃ b ∈ l, b.rseq ≤ p ∧ p < b.rupper

/-- The chunk that the insertion of the positions `r` to `u` returns starts at `p`: it is
the first of them that is not covered yet, or the block that covers the last ones
starts there.  When lengths are compared as `int64_t` it may be another block. -/
def Arrives (l : List Block) (r u p : ℕ) : Prop :=
  (r ≤ p ∧ p < u ∧ ¬ Covered l p ∧ ∀ q < p, r ≤ q → Covered l q) ∨
    ∃ w ∈ l, w.rseq = p ∧ p < u ∧ r < w.rupper ∧
      ((u ≤ w.rupper ∧ ∀ q < u, r ≤ q → Covered l q) ∨ 2 ^ 63 ≤ u - r)

instance (l : List Block) (p : ℕ) : Decidable (Covered l p) :=
  inferInstanceAs (Decidable (∃ b ∈ l, _))

instance (l : List Block) (r u p : ℕ) : Decidable (Arrives l r u p) :=
  inferInstanceAs (Decidable (_ ∨ ∃ w ∈ l, _))

theorem Covered.append_left {l₁ l₂ : List Block} {p : ℕ} (h : Covered l₂ p) :
    Covered (l₁ ++ l₂) p := by
  obtain ⟨b, hb, hp⟩ := h
  exact ⟨b, List.mem_append_right l₁ hb, hp⟩

theorem not_covered_append {l₁ l₂ : List Block} {p : ℕ} (h₁ : ∀ b ∈ l₁, b.rupper ≤ p)
    (h₂ : ¬ Covered l₂ p) : ¬ Covered (l₁ ++ l₂) p := by
  rintro ⟨b, hb, hbp, hpb⟩
  rcases List.mem_append.mp hb with hb | hb
  · have := h₁ b hb
    omega
  · exact h₂ ⟨b, hb, hbp, hpb⟩

theorem arrives_of_uncovered {l : List Block} {r u : ℕ} (hr : r < u) (h : ¬ Covered l r) :
    Arrives l r u r :=
  .inl ⟨le_rfl, hr, h, fun q hq hrq => by omega⟩

theorem Arrives.behind {l₁ l₂ : List Block} {x : Block} {r u p : ℕ}
    (h : Arrives (x :: l₂) x.rupper u p) (hl₁ : ∀ b ∈ l₁, b.rupper ≤ r) (hx : x.rseq ≤ r)
    (hr : r < x.rupper) : Arrives (l₁ ++ x :: l₂) r u p := by
  have hcov : ∀ {n}, (∀ q < n, x.rupper ≤ q → Covered (x :: l₂) q) →
      ∀ q < n, r ≤ q → Covered (l₁ ++ x :: l₂) q := by
    intro n hn q hq hrq
    by_cases hqx : q < x.rupper
    · exact Covered.append_left ⟨x, by simp, by omega, hqx⟩
    · exact (hn q hq (by omega)).append_left
  rcases h with ⟨hp, hpu, hnot, hall⟩ | ⟨w, hw, hwp, hpu, hxw, hend⟩
  · exact .inl ⟨by omega, hpu, not_covered_append (fun b hb => by have := hl₁ b hb; omega) hnot,
      hcov hall⟩
  · refine .inr ⟨w, List.mem_append_right l₁ hw, hwp, hpu, by omega, ?_⟩
    rcases hend with ⟨hu, hall⟩ | hlong
    · exact .inl ⟨hu, hcov hall⟩
    · exact .inr (by omega)

theorem arrives_inside {l₁ l₂ : List Block} {x : Block} {r u : ℕ} (hx : x.rseq ≤ r)
    (hr : r < x.rupper) (hu : x.rseq < u) (hend : ¬ GoesOn r x.rupper u) :
    Arrives (l₁ ++ x :: l₂) r u x.rseq := by
  refine .inr ⟨x, by simp, rfl, hu, hr, ?_⟩
  by_cases hle : u ≤ x.rupper
  · exact .inl ⟨hle, fun q hq hrq => Covered.append_left ⟨x, by simp, by omega, by omega⟩⟩
  · unfold GoesOn at hend
    exact .inr (by omega)

/-- The result of the insertion, with the chunk it returns. -/
structure Inserted (env : Env) (s s' : SpicySink) (pre suf : List (ℕ × Block)) (r u : ℕ)
    (d : Option (List UInt8)) (c : Option ℕ) (suf' : List (ℕ × Block)) : Prop where
  represents : s'.chunks.Represents (pre ++ suf')
  vals_eq : vals suf' = insertBlock (vals suf) r u d
  frame : Frame s s'
  trimRseq_eq : s'.trimRseq = s.trimRseq
  excpt_eq : env.Silent → d ≠ none → s'.excpt = s.excpt
  returns : NoOverhang (vals suf) r u d → ∃ l₁ c' w l₂, c = some c' ∧
    suf' = l₁ ++ (c', w) :: l₂ ∧ Arrives (vals suf) r u w.rseq ∧
      ((∀ b ∈ vals suf, r < b.rseq) → l₁ = [] ∧ w.rseq = r)

variable (env) in
theorem inserted_newChunk {pre l₁ l₂ : List (ℕ × Block)}
    (h : s.chunks.Represents (pre ++ (l₁ ++ l₂))) (hord : Ordered (vals (l₁ ++ l₂))) {r u : ℕ}
    (hr : r < u) (hl₁ : ∀ b ∈ vals l₁, b.rupper ≤ r) (hl₂ : ∀ b ∈ vals l₂, u ≤ b.rseq)
    (d : Option (List UInt8)) :
    ∃ s' c, newChunk (lastAddr none (pre ++ l₁)) ⟨r, u, d⟩ s = some (s', c) ∧
      ∃ suf', Inserted env s s' pre (l₁ ++ l₂) r u d (some c) suf' := by
  rw [← List.append_assoc] at h
  obtain ⟨chunks, hnew, hrep⟩ := newChunk_spec h ⟨r, u, d⟩
  refine ⟨_, _, hnew, l₁ ++ (s.chunks.fresh, ⟨r, u, d⟩) :: l₂, ⟨?_, ?_,
    ⟨rfl, rfl, rfl, rfl, rfl, rfl, rfl⟩, rfl, fun _ _ => rfl, fun _ => ?_⟩⟩
  · simpa using hrep
  · rw [vals, vals, List.map_append, List.map_append, insertBlock_append hl₁]
    cases l₂ with
    | nil => rfl
    | cons e l₂ =>
      have hle := hl₂ e.2 (by simp)
      have he := hord.ok e.2 (by simp)
      have := he.1
      simp only [List.map_cons]
      rw [insertBlock, if_neg (by omega), if_pos hle]
  · have hnot : ¬ Covered (vals (l₁ ++ l₂)) r := by
      rw [show vals (l₁ ++ l₂) = vals l₁ ++ vals l₂ by simp [vals]]
      refine not_covered_append hl₁ ?_
      rintro ⟨b, hb, hbr, -⟩
      have := hl₂ b hb
      omega
    refine ⟨l₁, s.chunks.fresh, ⟨r, u, d⟩, l₂, rfl, rfl, arrives_of_uncovered hr hnot,
      fun hall => ⟨?_, rfl⟩⟩
    cases l₁ with
    | nil => rfl
    | cons e l₁ =>
      have h1 := hl₁ e.2 (by simp)
      have h2 := hall e.2 (by simp)
      have := (hord.ok e.2 (by simp)).1
      omega

/-- The chunks that reach beyond `r`. -/
def reaching (l : List (ℕ × Block)) (r : ℕ) : ℕ :=
  ((vals l).filter fun b => r < b.rupper).length

theorem reaching_lt (l₁ l₂ : List (ℕ × Block)) (a : ℕ) {v : Block} {r : ℕ} (h : r < v.rupper) :
    reaching ((a, v) :: l₂) v.rupper < reaching (l₁ ++ (a, v) :: l₂) r := by
  have hsub : ((vals l₂).filter fun b => v.rupper < b.rupper).length ≤
      ((vals l₂).filter fun b => r < b.rupper).length := by
    refine List.Sublist.length_le (List.monotone_filter_right _ fun b hb => ?_)
    have : v.rupper < b.rupper := by simpa using hb
    simpa using h.trans this
  unfold reaching
  simp only [vals, List.map_cons, List.map_append, List.filter_append, List.length_append] at *
  rw [List.filter_cons_of_neg (by simp), List.filter_cons_of_pos (by simpa using h),
    List.length_cons]
  omega

theorem remainder_spec {r p q u : ℕ} {d : Option (List UInt8)} (hd : DataOk r u d)
    (hq : max r q < p) (hp : p < u) (s : SpicySink) :
    ∃ s', remainder (int64 (p - max r q)) (d.map fun d => d.drop (q - r)) s =
        some (s', (d.getD []).drop (p - r)) ∧
      s'.chunks = s.chunks ∧ Frame s s' ∧ s'.trimRseq = s.trimRseq ∧
      (d ≠ none → s'.excpt = s.excpt) ∧ DataOk p u (some ((d.getD []).drop (p - r))) := by
  cases d with
  | none =>
    exact ⟨{ s with excpt := true }, by simp [remainder], rfl, ⟨rfl, rfl, rfl, rfl, rfl, rfl, rfl⟩,
      rfl, fun h => absurd rfl h, .inl (by simp)⟩
  | some d =>
    have hlen : d.drop (q - r) = [] ∨ p - max r q < 2 ^ 63 :=
      hd.imp (fun h => by simp [h]) fun h => by omega
    have hsum : q - r + (p - max r q) = p - r := by omega
    refine ⟨s, ?_, rfl, .refl s, rfl, fun _ => rfl, hd.imp (fun h => by simp [h]) fun h => ?_⟩
    · simp [remainder, bytesDrop_int64 hlen, List.drop_drop, hsum]
    · simp only [Option.getD_some, List.length_drop]
      omega

theorem LengthsFit.tail {l₁ l₂ : List Block} {x : Block} {r u : ℕ}
    (h : LengthsFit (l₁ ++ x :: l₂) r u) (hord : Ordered (x :: l₂)) (hx : r < x.rupper) :
    LengthsFit (x :: l₂) x.rupper u := by
  intro c hc hcr hcu
  rcases List.mem_cons.mp hc with rfl | hc'
  · omega
  · have hle := hord.head_le c hc'
    have hfit := h c (by simp [hc']) (hx.trans hcr) hcu
    rwa [max_eq_right hle, ← max_eq_right (hx.le.trans hle)]

theorem NoOverhang.data_ne_none {l₁ l₂ : List Block} {x : Block} {r u : ℕ}
    {d : Option (List UInt8)} (h : NoOverhang (l₁ ++ x :: l₂) r u d)
    (hl₁ : ∀ c ∈ l₁, c.rupper ≤ r) (hord : Ordered (x :: l₂)) (hr : r < x.rseq)
    (hu : x.rseq < u) : d ≠ none := by
  rintro rfl
  rcases h with ⟨c, hc, hcr, hrc⟩ | hall
  · rcases List.mem_append.mp hc with hc | hc
    · have := hl₁ c hc
      omega
    · rcases List.mem_cons.mp hc with rfl | hc
      · omega
      · have h1 := hord.head_le c hc
        have h2 := (hord.ok x (by simp)).1
        omega
  · have := hall x (by simp) hr
    omega

variable (env) in
theorem addAndCheck_overlap {fuel a r u f z b : ℕ} {nx pv : Option ℕ} {w : Block}
    {cell : Cell Block} {d : Option (List UInt8)} (hfirst : s.chunks.first = some f)
    (hlast : s.chunks.last = some z) (hz : s.chunks.heap z = some ⟨nx, pv, w⟩)
    (hr : r ≠ w.rupper) (hfind : findChunk s r fuel a = some b)
    (hb : s.chunks.heap b = some cell) (hx : ¬ cell.val.rupper ≤ r) (hu : ¬ u ≤ cell.val.rseq) :
    addAndCheck env (fuel + 1) a r u d s =
      (splitPrefix b cell r d s).bind fun (s₁, newB, r', d') =>
        let len := overlapLen r' cell.val.rupper u
        let s₂ := reportOverlap env
          (cell.val.data.map fun e => bytesTake len (e.drop (r' - cell.val.rseq)))
          (d'.map (bytesTake len)) r' s₁
        if len < int64 (sub64 u r') then
          (remainder len d' s₂).bind fun (s₃, rest) =>
            (addAndCheck env fuel b (addInt64 r' len) u (some rest) s₃).bind fun (s₄, c) =>
              some (s₄, if newB = some b then c else newB)
        else some (s₂, newB) := by
  simp only [addAndCheck, hfirst, hlast, hz, Option.bind_eq_bind, Option.bind_some, if_neg hr,
    hfind, hb, if_neg hx, if_neg hu]
  rfl

variable (env) in
theorem addAndCheck_spec (fuel : ℕ) : ∀ (pre suf : List (ℕ × Block)) (a : ℕ) (v : Block)
    (r u : ℕ) (d : Option (List UInt8)) (s : SpicySink),
    s.chunks.Represents (pre ++ (a, v) :: suf) → Ordered (vals ((a, v) :: suf)) →
    r < u → u < 2 ^ 64 → DataOk r u d → LengthsFit (vals ((a, v) :: suf)) r u →
    suf.length + 1 + reaching ((a, v) :: suf) r < fuel →
    ∃ s' c suf', addAndCheck env fuel a r u d s = some (s', c) ∧
      Inserted env s s' pre ((a, v) :: suf) r u d c suf' := by
  induction fuel with
  | zero => intro pre suf a v r u d s _ _ _ _ _ _ hf; omega
  | succ fuel ih =>
    intro pre suf a v r u d s hrep hord hr hu hd hfit hf
    obtain ⟨l, ⟨z, w⟩, hlast⟩ : ∃ l e, (a, v) :: suf = l ++ [e] :=
      ⟨_, _, (List.dropLast_append_getLast (List.cons_ne_nil _ _)).symm⟩
    have hlastAddr : s.chunks.last = some z := by
      rw [hrep.last_eq, hlast, lastAddr_append_cons]
    have hfirst : ∃ f, s.chunks.first = some f := by
      rw [hrep.first_eq, headAddr_append]
      cases pre with
      | nil => exact ⟨a, rfl⟩
      | cons e pre => exact ⟨e.1, rfl⟩
    obtain ⟨f, hfirst⟩ := hfirst
    have hlastCell : ∃ nx pv, s.chunks.heap z = some ⟨nx, pv, w⟩ := by
      rw [hlast] at hrep
      have hrep' : s.chunks.Represents ((pre ++ l) ++ (z, w) :: []) := by simpa using hrep
      exact ⟨_, _, hrep'.heap_eq⟩
    obtain ⟨nx, pv, hlastCell⟩ := hlastCell
    by_cases happend : r = w.rupper
    · -- the new block is appended at the end
      have hrep' : s.chunks.Represents (pre ++ ((l ++ [(z, w)]) ++ [])) := by
        rw [← hlast]
        simpa using hrep
      have hord' : Ordered (vals ((l ++ [(z, w)]) ++ [])) := by
        rw [← hlast]
        simpa using hord
      have hle : ∀ b ∈ vals (l ++ [(z, w)]), b.rupper ≤ r := by
        rw [hlast] at hord
        have hord'' : Ordered (vals l ++ [w]) := by simpa [vals] using hord
        simpa [vals] using hord''.rupper_le (happend ▸ le_rfl)
      obtain ⟨s', c, hnew, suf', hins⟩ :=
        inserted_newChunk env hrep' hord' hr hle (by simp) d
      rw [lastAddr_append_cons] at hnew
      refine ⟨s', some c, suf', ?_, ?_⟩
      · simp only [addAndCheck, hfirst, hlastAddr, hlastCell, Option.bind_eq_bind, Option.bind_some,
          if_pos happend, hnew]
      · rw [List.append_nil, ← hlast] at hins
        exact hins
    obtain ⟨l₁, b, x, l₂, hfind, heq, hl₁, hend⟩ :=
      findChunk_spec (s := s) r suf pre a v fuel hrep (by omega)
    have hrep₁ : s.chunks.Represents ((pre ++ l₁) ++ (b, x) :: l₂) := by
      rw [List.append_assoc, ← heq]
      exact hrep
    have hcell := hrep₁.heap_eq
    have hl₁' : ∀ c ∈ vals l₁, c.rupper ≤ r := by
      intro c hc
      obtain ⟨e, he, rfl⟩ := List.mem_map.mp hc
      exact hl₁ e he
    rw [heq] at hord hfit hf ⊢
    by_cases hx : x.rupper ≤ r
    · -- all chunks come before the new block
      obtain rfl := hend hx
      have hle : ∀ c ∈ vals (l₁ ++ [(b, x)]), c.rupper ≤ r := by
        intro c hc
        simp only [vals, List.map_append, List.map_cons, List.map_nil, List.mem_append,
          List.mem_singleton] at hc
        rcases hc with hc | rfl
        · exact hl₁' c hc
        · exact hx
      have hrep' : s.chunks.Represents (pre ++ ((l₁ ++ [(b, x)]) ++ [])) := by
        simpa using hrep₁
      have hord' : Ordered (vals ((l₁ ++ [(b, x)]) ++ [])) := by simpa using hord
      obtain ⟨s', c, hnew, suf', hins⟩ :=
        inserted_newChunk env hrep' hord' hr hle (by simp) d
      rw [lastAddr_append_cons] at hnew
      refine ⟨s', some c, suf', ?_, by simpa using hins⟩
      simp only [addAndCheck, hfirst, hlastAddr, hlastCell, Option.bind_eq_bind, Option.bind_some,
        if_neg happend, hfind, hcell, if_pos hx, hnew]
    by_cases hu' : u ≤ x.rseq
    · -- the new block comes before the chunk that was found
      have hsuf : Ordered (vals ((b, x) :: l₂)) := by
        have : Ordered (vals l₁ ++ vals ((b, x) :: l₂)) := by simpa [vals] using hord
        exact this.suffix
      have hle₂ : ∀ c ∈ vals ((b, x) :: l₂), u ≤ c.rseq := by
        intro c hc
        rcases List.mem_cons.mp hc with rfl | hc
        · exact hu'
        · have h1 := hsuf.head_le c hc
          have h2 := (hsuf.ok x (by simp)).1
          exact hu'.trans (h2.le.trans h1)
      have hrep' : s.chunks.Represents (pre ++ (l₁ ++ (b, x) :: l₂)) := by simpa using hrep₁
      obtain ⟨s', c, hnew, suf', hins⟩ := inserted_newChunk env hrep' hord hr hl₁' hle₂ d
      refine ⟨s', some c, suf', ?_, hins⟩
      simp only [addAndCheck, hfirst, hlastAddr, hlastCell, Option.bind_eq_bind, Option.bind_some,
        if_neg happend, hfind, hcell, if_neg hx, if_pos hu', hnew]
    -- the new block overlaps the chunk that was found
    have hxr : r < x.rupper := by omega
    have hxu : x.rseq < u := by omega
    have hvals : vals (l₁ ++ (b, x) :: l₂) = vals l₁ ++ x :: vals l₂ := by simp [vals]
    have hsuf : Ordered (x :: vals l₂) := by
      rw [hvals] at hord
      exact hord.suffix
    have hxok := hsuf.ok x (by simp)
    obtain ⟨s₁, newB, new, hsplit, hrep₂, hnew, hframe₁, htrim₁, hexc₁, hnewB⟩ :=
      splitPrefix_spec (headAddr l₂ none) hrep₁ hxok hd hxu
    have hmr : max r x.rseq < u := by omega
    have hmx : max r x.rseq < x.rupper := max_lt hxr hxok.1
    obtain ⟨hiff, hlen⟩ :=
      overlapLen_lt_iff hmx hxok.2 hmr hu (hfit x (by simp) hxr hxu)
    have hstep := addAndCheck_overlap env (d := d) hfirst hlastAddr hlastCell happend hfind
      hcell hx hu'
    rw [hsplit, Option.bind_some] at hstep
    have hins : insertBlock (vals (l₁ ++ (b, x) :: l₂)) r u d = vals l₁ ++ (prefixBlock x r d ++
        x :: if GoesOn (max r x.rseq) x.rupper u then
          insertBlock (vals l₂) x.rupper u (some ((d.getD []).drop (x.rupper - r)))
          else vals l₂) := by
      rw [hvals, insertBlock_append hl₁', insertBlock, if_neg hx, if_neg hu']
    -- the chunk returned when there is one in front of the overlap
    have hfront : ∀ suf'', NoOverhang (vals (l₁ ++ (b, x) :: l₂)) r u d → newB ≠ some b →
        ∃ k₁ c' w' k₂, newB = some c' ∧ l₁ ++ (new ++ suf'') = k₁ ++ (c', w') :: k₂ ∧
          Arrives (vals (l₁ ++ (b, x) :: l₂)) r u w'.rseq ∧
          ((∀ c ∈ vals (l₁ ++ (b, x) :: l₂), r < c.rseq) → k₁ = [] ∧ w'.rseq = r) := by
      intro suf'' hno hne
      rcases hnewB with ⟨-, rfl, -⟩ | ⟨hrx, rfl⟩ | ⟨hrx, c', w', rfl, rfl, hw', -⟩
      · exact absurd rfl hne
      · rw [hvals] at hno
        exact absurd rfl (hno.data_ne_none hl₁' hsuf hrx hxu)
      · have hnot : ¬ Covered (vals (l₁ ++ (b, x) :: l₂)) r := by
          rw [hvals]
          refine not_covered_append hl₁' ?_
          rintro ⟨c, hc, hcr, -⟩
          rcases List.mem_cons.mp hc with rfl | hc
          · omega
          · have := hsuf.head_le c hc
            omega
        refine ⟨l₁, c', w', suf'', rfl, rfl, ?_, fun hall => ⟨?_, hw'⟩⟩
        · rw [hw']
          exact arrives_of_uncovered hr hnot
        cases l₁ with
        | nil => rfl
        | cons e l₁ =>
          have h1 := hl₁' e.2 (by simp)
          have h2 := hall e.2 (by simp)
          have := (hord.ok e.2 (by simp)).1
          omega
    have hinside : newB = some b → x.rseq ≤ r := by
      intro hnb
      rcases hnewB with ⟨hle, -, -⟩ | ⟨hrx, rfl⟩ | ⟨-, c', w', hc', -, -, hcb⟩
      · exact hle
      · have := hnb ▸ hsplit
        simp [splitPrefix, hrx] at this
      · rw [hc'] at hnb
        exact absurd (by simpa using hnb) hcb
    have hnotall : newB = some b → ¬ ∀ c ∈ vals (l₁ ++ (b, x) :: l₂), r < c.rseq := by
      intro hnb hall
      exact absurd (hall x (by simp)) (not_lt.mpr (hinside hnb))
    set s₂ := reportOverlap env (x.data.map fun e => bytesTake (overlapLen (max r x.rseq) x.rupper u)
      (e.drop (max r x.rseq - x.rseq))) ((d.map fun e => e.drop (x.rseq - r)).map
      (bytesTake (overlapLen (max r x.rseq) x.rupper u))) (max r x.rseq) s₁ with hs₂
    have hrframe : Frame s₁ s₂ := report_frame _ rfl s₁
    have hrexc : env.Silent → s₂.excpt = s₁.excpt := fun henv => report_excpt henv _ s₁
    have hch₂ : s₂.chunks = s₁.chunks := rfl
    have htrim₂ : s₂.trimRseq = s₁.trimRseq := rfl
    by_cases hgo : GoesOn (max r x.rseq) x.rupper u
    · rw [if_pos hgo] at hins
      obtain ⟨s₃, hrem, hch₃, hframe₃, htrim₃, hexc₃, hdok⟩ := remainder_spec hd hmx hgo.1 s₂
      have hadd : addInt64 (max r x.rseq) (int64 (x.rupper - max r x.rseq)) = x.rupper := by
        rw [addInt64_int64 (by have := hxok.2; omega)]
        omega
      have hrep₃ : s₃.chunks.Represents ((pre ++ l₁ ++ new) ++ (b, x) :: l₂) := by
        rw [hch₃, hch₂]
        simpa using hrep₂
      have hlt := reaching_lt l₁ l₂ b hxr
      have hlen₂ : suf.length + 1 = l₁.length + (l₂.length + 1) := by
        simpa using congrArg List.length heq
      rw [hvals] at hfit
      obtain ⟨s₄, c, suf'', hrec, hinserted⟩ := ih (pre ++ l₁ ++ new) l₂ b x x.rupper u _ s₃ hrep₃
        hsuf hgo.1 hu hdok (hfit.tail hsuf hxr) (by omega)
      refine ⟨s₄, if newB = some b then c else newB, l₁ ++ (new ++ suf''), ?_, ⟨?_, ?_, ?_, ?_, ?_,
        ?_⟩⟩
      · rw [hstep]
        dsimp only
        rw [if_pos (hiff.mpr hgo), ← hs₂]
        simp only [hlen hgo, hrem, hadd, hrec, Option.bind_some]
      · simpa using hinserted.represents
      · have hrest : insertBlock (vals ((b, x) :: l₂)) x.rupper u
            (some ((d.getD []).drop (x.rupper - r))) = x :: insertBlock (vals l₂) x.rupper u
            (some ((d.getD []).drop (x.rupper - r))) := by
          simp [vals, insertBlock]
        rw [hins, ← hrest, ← hinserted.vals_eq, ← hnew]
        simp [vals]
      · exact ((hframe₁.trans hrframe).trans hframe₃).trans hinserted.frame
      · rw [hinserted.trimRseq_eq, htrim₃, htrim₂, htrim₁]
      · intro henv hne
        rw [hinserted.excpt_eq henv (by simp), hexc₃ hne, hrexc henv, hexc₁]
      · intro hno
        by_cases hnb : newB = some b
        · obtain ⟨k₁, c', w', k₂, rfl, rfl, harrives, -⟩ := hinserted.returns trivial
          refine ⟨l₁ ++ (new ++ k₁), c', w', k₂, by simp [hnb], by simp, ?_,
            fun hall => absurd hall (hnotall hnb)⟩
          rw [hvals]
          exact Arrives.behind harrives hl₁' (hinside hnb) hxr
        · rw [if_neg hnb]
          exact hfront suf'' hno hnb
    · rw [if_neg hgo] at hins
      refine ⟨s₂, newB, l₁ ++ (new ++ (b, x) :: l₂), ?_, ⟨?_, ?_, hframe₁.trans hrframe,
        htrim₂.trans htrim₁, ?_, ?_⟩⟩
      · rw [hstep]
        simp only [if_neg (fun h => hgo (hiff.mp h)), ← hs₂]
      · rw [hch₂]
        simpa using hrep₂
      · rw [hins, ← hnew]
        simp [vals]
      · exact fun henv _ => (hrexc henv).trans hexc₁
      · intro hno
        by_cases hnb : newB = some b
        · refine ⟨l₁ ++ new, b, x, l₂, hnb, by simp, ?_, fun hall => absurd hall (hnotall hnb)⟩
          rw [max_eq_left (hinside hnb)] at hgo
          rw [hvals]
          exact arrives_inside (hinside hnb) hxr hxu hgo
        · exact hfront _ hno hnb

end

end Hilti.Sink
