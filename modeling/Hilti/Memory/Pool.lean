import Hilti.Lib.Machine
import Mathlib.Data.Int.Notation
import Mathlib.Algebra.Order.Group.Unbundled.Int
import Mathlib.Tactic.Common

/-! # Memory pools (`libhilti/memory_.c`)

A pool hands out memory from the end of what is used of its last block. When a request does not fit
there, a new block is allocated, but one of the smaller of the requested size and the size of the
first block. The count of a `calloc` is not used at all. -/

namespace Hilti.MemoryPool
open Hilti.Lib
set_option autoImplicit false

/-- `__hlt_memory_pool_block`, with `end` and `cur` relative to `data`. -/
structure Block where
  size : ℕ
  cur : ℕ

/-- `hlt_memory_pool`: the blocks in front of the last one, and that. -/
structure Pool where
  full : List Block
  last : Block

namespace Pool

def first (p : Pool) : Block := p.full.headD p.last

def blocks (p : Pool) : List Block := p.full ++ [p.last]

end Pool

/-- What is left of a block, as a `size_t`. -/
def Block.avail (b : Block) : ℕ := (((b.size : ℤ) - b.cur) % 2 ^ 64).toNat

/-- `hlt_memory_pool_init`. -/
def hltMemoryPoolInit (size : ℕ) : Pool := ⟨[], ⟨size, 0⟩⟩

/-- The new block of `hlt_memory_pool_calloc`. -/
def Pool.grow (p : Pool) (n : ℕ) : Pool :=
  let dsize := p.first.size
  ⟨p.blocks, ⟨if n < dsize then n else dsize, 0⟩⟩

/-- `hlt_memory_pool_calloc`, with the block and the offset of what it returns. -/
def hltMemoryPoolCalloc (p : Pool) (_count n : ℕ) : Pool × ℕ × ℕ :=
  let p := if n > p.last.avail then p.grow n else p
  (⟨p.full, { p.last with cur := p.last.cur + n }⟩, p.full.length, p.last.cur)

/-- `hlt_memory_pool_malloc`. -/
def hltMemoryPoolMalloc (p : Pool) (n : ℕ) : Pool × ℕ × ℕ :=
  hltMemoryPoolCalloc p 1 n

/-! ## Regions -/

/-- Memory that has been handed out, with the size that was requested. -/
structure Region where
  block : ℕ
  off : ℕ
  size : ℕ
  deriving DecidableEq

def Region.Inside (r : Region) (p : Pool) : Prop :=
  ∃ b ∈ p.blocks[r.block]?, r.off + r.size ≤ b.size

/-- The regions have a byte in common. -/
def Region.Overlaps (r r' : Region) : Prop :=
  r.block = r'.block ∧
    ∃ k, (r.off ≤ k ∧ k < r.off + r.size) ∧ (r'.off ≤ k ∧ k < r'.off + r'.size)

inductive Request
  | malloc (n : ℕ)
  | calloc (count n : ℕ)
  deriving DecidableEq

/-- What a request is for, and what the cursor is advanced by. -/
def Request.size : Request → ℕ
  | .malloc n => n
  | .calloc count n => n * count

def Request.step : Request → ℕ
  | .malloc n => n
  | .calloc _ n => n

def perform (p : Pool) : Request → Pool × ℕ × ℕ
  | .malloc n => hltMemoryPoolMalloc p n
  | .calloc count n => hltMemoryPoolCalloc p count n

/-- A pool with all regions that have been handed out. -/
def next (s : Pool × List Region) (q : Request) : Option (Pool × List Region) :=
  let (p, block, off) := perform s.1 q
  some (p, s.2 ++ [⟨block, off, q.size⟩])

def poolMachine (size : ℕ) : Machine (Pool × List Region) Request where
  start := (hltMemoryPoolInit size, [])
  next := next

/-- All regions lie inside their blocks, and no two overlap. -/
def Safe (s : Pool × List Region) : Prop :=
  (∀ r ∈ s.2, r.Inside s.1) ∧ s.2.Pairwise fun r r' => ¬ r.Overlaps r'

/-- A request for no more than one element, of a size that fits into the last block or into one of
the size of the first. -/
def Fits (s : Pool × List Region) (q : Request) : Prop :=
  q.size ≤ q.step ∧ (q.step ≤ s.1.last.avail ∨ q.step ≤ s.1.first.size)

instance (s : Pool × List Region) (q : Request) : Decidable (Fits s q) :=
  inferInstanceAs (Decidable (_ ∧ (_ ∨ _)))

/-! ## The cursors -/

/-- No cursor is beyond the end of its block, and no region beyond the cursor. -/
structure Bounded (s : Pool × List Region) : Prop where
  cursor : ∀ b ∈ s.1.blocks, b.cur ≤ b.size
  region : ∀ r ∈ s.2, ∃ b ∈ s.1.blocks[r.block]?, r.off + r.size ≤ b.cur
  disjoint : s.2.Pairwise fun r r' => ¬ r.Overlaps r'

theorem Bounded.safe {s : Pool × List Region} (h : Bounded s) : Safe s := by
  refine ⟨fun r hr => ?_, h.disjoint⟩
  obtain ⟨b, hb, hle⟩ := h.region r hr
  exact ⟨b, hb, hle.trans (h.cursor b (List.mem_of_getElem? hb))⟩

theorem bounded_init (size : ℕ) : Bounded (hltMemoryPoolInit size, []) where
  cursor b hb := by
    rw [List.mem_singleton.mp hb]
    exact Nat.zero_le _
  region r hr := by
    cases hr
  disjoint := List.Pairwise.nil

theorem avail_le {b : Block} (h : b.cur ≤ b.size) : b.avail ≤ b.size - b.cur := by
  unfold Block.avail
  omega

def Pool.serving (p : Pool) (n : ℕ) : Pool :=
  if n > p.last.avail then p.grow n else p

theorem perform_eq (p : Pool) (q : Request) : perform p q =
    (⟨(p.serving q.step).full,
      { (p.serving q.step).last with cur := (p.serving q.step).last.cur + q.step }⟩,
      (p.serving q.step).full.length, (p.serving q.step).last.cur) := by
  cases q <;> rfl

theorem getElem?_blocks_last (p : Pool) : p.blocks[p.full.length]? = some p.last :=
  List.getElem?_concat_length

theorem Bounded.serving {s : Pool × List Region} (h : Bounded s) (n : ℕ) :
    Bounded (s.1.serving n, s.2) := by
  unfold Pool.serving
  split
  · refine ⟨fun b hb => ?_, fun r hr => ?_, h.disjoint⟩
    · rcases List.mem_append.mp hb with hb | hb
      · exact h.cursor b hb
      · rw [List.mem_singleton.mp hb]
        exact Nat.zero_le _
    · obtain ⟨b, hb, hle⟩ := h.region r hr
      refine ⟨b, ?_, hle⟩
      obtain ⟨hlt, -⟩ := List.getElem?_eq_some_iff.mp hb
      exact (List.getElem?_append_left hlt).trans hb
  · exact h

theorem serving_fits {s : Pool × List Region} (h : Bounded s) {q : Request} (hq : Fits s q) :
    (s.1.serving q.step).last.cur + q.step ≤ (s.1.serving q.step).last.size := by
  have hlast := h.cursor s.1.last (List.mem_append_right _ (List.mem_singleton_self _))
  have havail := avail_le hlast
  unfold Pool.serving
  split
  · rename_i hgt
    have hle : q.step ≤ s.1.first.size := hq.2.resolve_left (not_le.mpr hgt)
    simp only [Pool.grow]
    split <;> omega
  · omega

theorem next_bounded (s : Pool × List Region) (q : Request) (h : Bounded s) (hq : Fits s q) :
    ∃ t, next s q = some t ∧ Bounded t := by
  have hserving := h.serving q.step
  have hfits := serving_fits h hq
  rw [next, perform_eq]
  refine ⟨_, rfl, ?_⟩
  generalize s.1.serving q.step = p at hserving hfits
  have hregion : ∀ r ∈ s.2, ∃ b ∈ (p.full ++ [{ p.last with cur := p.last.cur + q.step }])[r.block]?,
      r.off + r.size ≤ b.cur ∧ (r.block = p.full.length → r.off + r.size ≤ p.last.cur) := by
    intro r hr
    obtain ⟨b, hb, hle⟩ := hserving.region r hr
    by_cases hlast : r.block = p.full.length
    · rw [hlast, getElem?_blocks_last] at hb
      cases hb
      refine ⟨{ p.last with cur := p.last.cur + q.step }, ?_, Nat.le_add_right_of_le hle, fun _ => hle⟩
      rw [hlast]
      exact List.getElem?_concat_length
    · have hlt : r.block < p.blocks.length := (List.getElem?_eq_some_iff.mp hb).1
      have hlt : r.block < p.full.length := by
        have hlength : p.blocks.length = p.full.length + 1 := List.length_append
        omega
      rw [Pool.blocks, List.getElem?_append_left hlt] at hb
      refine ⟨b, ?_, hle, fun heq => absurd heq hlast⟩
      exact (List.getElem?_append_left hlt).trans hb
  refine ⟨fun b hb => ?_, fun r hr => ?_, ?_⟩
  · rcases List.mem_append.mp hb with hb | hb
    · exact hserving.cursor b (List.mem_append_left _ hb)
    · rw [List.mem_singleton.mp hb]
      exact hfits
  · rcases List.mem_append.mp hr with hr | hr
    · obtain ⟨b, hb, hle, -⟩ := hregion r hr
      exact ⟨b, hb, hle⟩
    · rw [List.mem_singleton.mp hr]
      exact ⟨_, List.getElem?_concat_length, Nat.add_le_add_left hq.1 _⟩
  · refine List.pairwise_append.mpr ⟨h.disjoint, List.pairwise_singleton _ _, fun r hr r' hr' => ?_⟩
    rw [List.mem_singleton.mp hr']
    rintro ⟨hblock, k, ⟨-, hlt⟩, hle, -⟩
    obtain ⟨-, -, -, hbefore⟩ := hregion r hr
    have hend := hbefore hblock
    dsimp only at hle
    omega

/-- As long as every request fits, all that is handed out lies inside the blocks and is disjoint. -/
theorem requests_safe (size : ℕ) {qs : List Request}
    (hqs : (poolMachine size).Along Fits (poolMachine size).start qs) :
    ∃ s, (poolMachine size).run (poolMachine size).start qs = some s ∧ Safe s := by
  obtain ⟨s, hrun, hbounded⟩ :=
    Machine.run_invariant next_bounded qs (poolMachine size).start (bounded_init size) hqs
  exact ⟨s, hrun, hbounded.safe⟩

/-- Requests that fill the first block and need another one. -/
theorem requests_safe_two_blocks :
    ∃ s, (poolMachine 8).run (poolMachine 8).start
      [.malloc 3, .calloc 1 4, .malloc 8, .calloc 0 5, .malloc 2] = some s ∧ Safe s :=
  requests_safe 8 (by decide)

/-- A request that is larger than the first block, and two for several elements. -/
theorem requests_not_safe :
    (∃ s, (poolMachine 8).run (poolMachine 8).start [.malloc 16] = some s ∧ ¬ Safe s) ∧
    ∃ s, (poolMachine 64).run (poolMachine 64).start [.calloc 4 8, .calloc 4 8] = some s ∧ ¬ Safe s := by
  refine ⟨⟨_, rfl, fun h => ?_⟩, _, rfl, fun h => ?_⟩
  · obtain ⟨b, hb, hle⟩ := h.1 ⟨1, 0, 16⟩ (by decide)
    cases hb
    exact absurd hle (by decide)
  · have hdisjoint := (List.pairwise_cons.mp h.2).1 ⟨0, 8, 32⟩ (by decide)
    exact hdisjoint ⟨rfl, 8, by decide, by decide⟩

end Hilti.MemoryPool
