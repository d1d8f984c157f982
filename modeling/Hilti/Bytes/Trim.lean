import Hilti.Bytes.Refinement

/-!
# Trimming

`hlt_bytes_trim` is to remove the bytes in front of an iterator.  It moves the start of the
first chunk or leaves out whole chunks, and keeps the offsets, so that the iterators that are
not trimmed keep their indexes.  At the end of the data it does nothing.
-/

namespace Hilti.Bytes

open Hilti.Lib

set_option autoImplicit false

/-- The object of the iterator without the bytes in front of it. -/
def Spec.trimAt (A : Spec) (q : Pos) (o : Obj) : Spec :=
  { A with objs := A.objs.set q.obj { o with trimmed := q.pos } }

/-- The content is what it was from the iterator on, and in whatever follows the iterators from
there on have their indexes and, where there is a byte, dereference to it. -/
structure TrimExact (s : State) (H' : Heap) (A : Spec) (a : ℕ) (q : Pos) (o : Obj) : Prop where
  content : ∀ fuel, o.written.length - q.pos < fuel →
    readBytes H' fuel a = some (o.written.drop q.pos)
  iterators : ∀ (more : List Op) (A' : Spec),
    Spec.machine.run (A.trimAt q o) more = some A' →
    ∃ s', machine.run { s with heap := H' } more = some s' ∧
      ∀ (m : ℕ) (q' : Pos) (o' : Obj), A.iters[m]? = some q' → q'.obj = q.obj →
        q.pos ≤ q'.pos → A'.live q' = some o' →
        o.written <+: o'.written ∧ ∃ i', s.iters[m]? = some i' ∧ StandsAt s'.heap i' o' q'.pos

section

variable {s : State} {A : Spec} {H' : Heap} {a n : ℕ} {q : Pos} {o : Obj}

theorem trimExact_of_sim {xs : List Shape} (hsim : Sim xs { s with heap := H' } (A.trimAt q o))
    (ho : A.objs[q.obj]? = some o) (hfirst : s.objs[q.obj]? = some a) :
    TrimExact s H' A a q o where
  content := by
    intro fuel hf
    have hset : (A.trimAt q o).objs[q.obj]? = some { o with trimmed := q.pos } :=
      List.getElem?_set_self (List.getElem?_eq_some_iff.mp ho).1
    obtain ⟨b, hb, hshows⟩ := hsim.agrees.objects q.obj _ hset
    rw [show ({ s with heap := H' } : State).objs = s.objs from rfl, hfirst] at hb
    cases hb
    exact hshows.1 fuel (by rw [Obj.content, List.length_drop]; exact hf)
  iterators := by
    intro more A' hrun
    obtain ⟨s', hs', hprog⟩ := hsim.run more hrun
    obtain ⟨xs', hsim'⟩ := hprog.sim
    refine ⟨s', hs', fun m q' o' hq' hobj hle hlive => ?_⟩
    have hset : (A.trimAt q o).objs[q.obj]? = some { o with trimmed := q.pos } :=
      List.getElem?_set_self (List.getElem?_eq_some_iff.mp ho).1
    obtain ⟨o₁, ho₁, hwritten, -⟩ := hprog.grows.objs q.obj _ hset
    have ho' := (Spec.live_eq_some.mp hlive).1
    rw [hobj, ho₁] at ho'
    cases ho'
    obtain ⟨i', hi', hstands⟩ := hsim'.agrees.iterators m q' _
      (getElem?_extends hprog.grows.iters hq') hlive
    have hlen := hsim.placed.length_eq
    have hm : m < s.iters.length := by
      rw [show s.iters.length = (A.trimAt q o).iters.length from hlen]
      exact (List.getElem?_eq_some_iff.mp hq').1
    have hs : s.iters[m]? = some s.iters[m] := List.getElem?_eq_getElem hm
    rw [getElem?_extends hprog.iters hs] at hi'
    cases hi'
    exact ⟨hwritten, _, hs, hstands⟩

theorem bytesTrim_end {H : Heap} {x : Shape} {i : Iter} (hrep : Rep H x)
    (hi : Points x i x.written.length) : bytesTrim H x.first i = some (.ok H) := by
  obtain ⟨i', a, c, p, cs, hnorm, h⟩ := normalizeIter_spec hrep hi hrep.trimmed_le
  simp only [bytesTrim, hnorm, h.isEnd_eq hrep, decide_true, Option.bind_eq_bind, Option.bind_some,
    if_true]

/-- In any run and for any iterator whose position has not been trimmed, trimming is exact unless
the iterator is at the end of an object that has content. -/
theorem trim_exact_iff (ops : List Op) (A : Spec)
    (hrun : Spec.machine.run Spec.machine.start ops = some A) (n : ℕ) (q : Pos) (o : Obj)
    (hq : A.iters[n]? = some q) (hlive : A.live q = some o) :
    ∃ s a i H', machine.run machine.start ops = some s ∧ s.objs[q.obj]? = some a ∧
      s.iters[n]? = some i ∧ bytesTrim s.heap a i = some (.ok H') ∧
      (TrimExact s H' A a q o ↔ q.pos < o.written.length ∨ o.content = []) := by
  obtain ⟨s, hs, hprog⟩ := start_sim.run ops hrun
  obtain ⟨xs, hsim⟩ := hprog.sim
  obtain ⟨i, x, hi, hx, rfl, hfirst, hrep, hpoints, hle⟩ := hsim.iterator hq hlive
  have ho := (Spec.live_eq_some.mp hlive).1
  by_cases hlt : q.pos < x.obj.written.length
  · obtain ⟨H', htrim, hrep', hfresh, hframe⟩ := bytesTrim_spec hrep hpoints hle hlt
    refine ⟨s, x.first, i, H', hs, hfirst, hi, htrim, iff_of_true ?_ (.inl hlt)⟩
    have hsim' : Sim (xs.set q.obj { x with trimmed := q.pos }) { s with heap := H' }
        (A.trimAt q x.obj) := by
      refine hsim.update hx (hsim.world.update hx hrep' hfresh.ge (fun a ha => .inl ha) ?_) rfl
        fun i k hi => hi.retrim _
      exact fun b _ hb => hframe b hb
    exact trimExact_of_sim hsim' ho hfirst
  · obtain ⟨_, _, _, _, _, -, hnormal⟩ := normalizeIter_spec hrep hpoints hle
    have hpos : q.pos = x.written.length := le_antisymm hnormal.pos_le (not_lt.mp hlt)
    have htrim : bytesTrim s.heap x.first i = some (.ok s.heap) :=
      bytesTrim_end hrep (hpos ▸ hpoints)
    refine ⟨s, x.first, i, s.heap, hs, hfirst, hi, htrim, ?_⟩
    constructor
    · intro h
      right
      have hread := h.content (x.obj.content.length + 1)
        (by rw [show x.obj.written.length = x.written.length from rfl]; omega)
      rw [hrep.shows.1 _ (Nat.lt_succ_self _), List.drop_of_length_le (not_lt.mp hlt)] at hread
      exact Option.some.inj hread
    · rintro (h | h)
      · exact absurd h hlt
      · have htrimmed : x.trimmed = q.pos :=
          le_antisymm hle (hpos ▸ List.drop_eq_nil_iff.mp h)
        have hobj : ({ x.obj with trimmed := q.pos } : Obj) = x.obj :=
          congrArg (Obj.mk x.written) htrimmed.symm
        have hset : A.objs.set q.obj x.obj = A.objs := by
          obtain ⟨hn, heq⟩ := List.getElem?_eq_some_iff.mp ho
          rw [← heq, List.set_getElem_self]
        have hsame : A.trimAt q x.obj = A := by
          rw [Spec.trimAt, hobj, hset]
        exact trimExact_of_sim (hsame.symm ▸ hsim) ho hfirst

end

/-- Trimming to the second of two chunks. -/
theorem trim_exact_chunk : ∃ s a i H', machine.run machine.start
      [.newFromData [1], .appendRaw 0 [2, 3], .bytesBegin 0, .incr 0, .incr 1] = some s ∧
    s.objs[0]? = some a ∧ s.iters[1]? = some i ∧ bytesTrim s.heap a i = some (.ok H') ∧
    TrimExact s H' ⟨[⟨[1, 2, 3], 0⟩], [⟨0, 0⟩, ⟨0, 1⟩, ⟨0, 2⟩]⟩ a ⟨0, 1⟩ ⟨[1, 2, 3], 0⟩ := by
  obtain ⟨s, a, i, H', hs, ha, hi, htrim, hiff⟩ := trim_exact_iff
    [.newFromData [1], .appendRaw 0 [2, 3], .bytesBegin 0, .incr 0, .incr 1] _ rfl 1 ⟨0, 1⟩
    ⟨[1, 2, 3], 0⟩ rfl rfl
  exact ⟨s, a, i, H', hs, ha, hi, htrim, hiff.mpr (.inl (by decide))⟩

/-- Trimming to the end leaves everything there. -/
theorem trim_end_keeps : ∃ s, machine.run machine.start [.newFromData [1], .bytesEnd 0] = some s ∧
    bytesTrim s.heap 0 ⟨some 0, 1⟩ = some (.ok s.heap) ∧ s.iters = [⟨some 0, 1⟩] ∧
    readBytes s.heap 2 0 = some [1] ∧
    ¬ TrimExact s s.heap ⟨[⟨[1], 0⟩], [⟨0, 1⟩]⟩ 0 ⟨0, 1⟩ ⟨[1], 0⟩ := by
  obtain ⟨s, hs⟩ : ∃ s, machine.run machine.start [.newFromData [1], .bytesEnd 0] = some s :=
    ⟨_, rfl⟩
  have hs' := hs
  cases hs
  have hread : readBytes (bytesNew ⟨fun _ => none, 0⟩ [1]).1 2 0 = some [1] := by decide
  refine ⟨_, hs', rfl, rfl, hread, fun h => ?_⟩
  have hcontent := h.content 2 (by decide)
  have hkept : some [(1 : UInt8)] = some (List.drop 1 [1]) := hread.symm.trans hcontent
  cases hkept

end Hilti.Bytes
