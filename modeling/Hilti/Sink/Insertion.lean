import Hilti.Sink.Positions

/-!
# What the insertion of a block covers

`__new_block` cuts off what lies before the trim point and puts the rest into the list of
chunks.  Afterwards every position of the new block should lie in one chunk, and the insertion
should return a chunk of the list.  What happens where the block meets chunks that are already
there is decided at the first chunk that it overlaps.
-/

namespace Hilti.Sink

open Hilti.Lib Hilti.Lib.LinkedList

set_option autoImplicit false

/-- The environment with hooks that raise no exception. -/
def Env.quiet (env : Env) : Env :=
  { env with raises := fun _ _ => false }

/-- The part of `__new_block` that adds a block to the chunks. -/
def insertion (env : Env) (fuel : ℕ) (data : Option (List UInt8)) (r len : ℕ) (s : SpicySink) :
    Option (SpicySink × Option ℕ) :=
  (cutOff s data r).bind fun (r', data) => enqueue env fuel r' len (uint64 (r + len)) data s

/-- The insertion returns a chunk of the list, and every position of the new block that is not
below the trim point lies in exactly one chunk; unless hooks raise an exception there is none,
as there is when bytes of a gap are asked for. -/
def CoversNew (env : Env) (fuel : ℕ) (s : SpicySink) (data : Option (List UInt8)) (r len : ℕ) :
    Prop :=
  (∃ s' c l w, insertion env fuel data r len s = some (s', some c) ∧
    s'.chunks.Represents l ∧ (c, w) ∈ l ∧
    ∀ p, max r s.trimRseq ≤ p → p < r + len →
      ∃! e, e ∈ l ∧ e.2.rseq ≤ p ∧ p < e.2.rupper) ∧
  ∃ t c, insertion env.quiet fuel data r len s = some (t, c) ∧ t.excpt = false

section

variable {l : List Block} {r u p : ℕ}

theorem insertBlock_covers (hl : Ordered l) (d : List UInt8) (hlen : u - r < 2 ^ 63) (hr : r ≤ p)
    (hu : p < u) : Covered (insertBlock l r u (some d)) p := by
  by_cases hold : Covered l p
  · obtain ⟨b, hb, hp⟩ := hold
    exact ⟨b, mem_insertBlock hb, hp⟩
  · have hno : NoOverhang l r u (some d) := trivial
    exact (insertBlock_of_filled hl hno hlen (.inr ⟨hr, hu, hold, .inl (by simp)⟩)).covered

theorem insertBlock_not_overlaps (h : ¬ Overlaps l r u) (d : Option (List UInt8)) :
    ∀ p, r ≤ p → p < u → Covered (insertBlock l r u d) p :=
  fun _ hrp hpu => ⟨⟨r, u, d⟩, insertBlock_of_not_overlaps h, hrp, hpu⟩

theorem covers_unique {l : List (ℕ × Block)} (hl : Ordered (vals l)) (hp : Covered (vals l) p) :
    ∃! e, e ∈ l ∧ e.2.rseq ≤ p ∧ p < e.2.rupper := by
  induction l with
  | nil => simp [Covered] at hp
  | cons x l ih =>
    have hle : ∀ b ∈ vals l, x.2.rupper ≤ b.rseq := hl.head_le
    rcases covered_cons.mp hp with ⟨hxp, hpx⟩ | hp
    · refine ⟨x, ⟨by simp, hxp, hpx⟩, ?_⟩
      rintro e ⟨he, hep, -⟩
      rcases List.mem_cons.mp he with rfl | he
      · rfl
      · have := hle e.2 (List.mem_map_of_mem he)
        omega
    · obtain ⟨e, ⟨he, hep, hpe⟩, huniq⟩ := ih hl.tail hp
      refine ⟨e, ⟨by simp [he], hep, hpe⟩, ?_⟩
      rintro e' ⟨he', hep', hpe'⟩
      rcases List.mem_cons.mp he' with rfl | hmem
      · have := hle e.2 (List.mem_map_of_mem he)
        omega
      · exact huniq e' ⟨hmem, hep', hpe'⟩

theorem covered_of_unique {l : List (ℕ × Block)}
    (h : ∃! e, e ∈ l ∧ e.2.rseq ≤ p ∧ p < e.2.rupper) : Covered (vals l) p := by
  obtain ⟨e, ⟨he, hp⟩, -⟩ := h
  exact ⟨e.2, List.mem_map_of_mem he, hp⟩

end

section

variable {env : Env} {s s' : SpicySink}

theorem addAndCheck_meets {fuel r u : ℕ} {pre suf : List (ℕ × Block)} {a : ℕ} {v : Block}
    (d : Option (List UInt8)) (hrep : s.chunks.Represents (pre ++ (a, v) :: suf))
    (hord : Ordered (vals ((a, v) :: suf))) (hover : Overlaps (vals ((a, v) :: suf)) r u)
    (hf : suf.length < fuel) :
    ∃ l₁ b x l₂, (a, v) :: suf = l₁ ++ (b, x) :: l₂ ∧ (∀ c ∈ vals l₁, c.rupper ≤ r) ∧
      r < x.rupper ∧ x.rseq < u ∧
      ∀ env, addAndCheck env (fuel + 1) a r u d s =
        (splitPrefix b ⟨headAddr l₂ none, lastAddr none (pre ++ l₁), x⟩ r d s).bind
          fun (s₁, newB, r', d') =>
          let len := overlapLen r' x.rupper u
          let s₂ := reportOverlap env
            (x.data.map fun e => bytesTake len (e.drop (r' - x.rseq)))
            (d'.map (bytesTake len)) r' s₁
          if len < int64 (sub64 u r') then
            (remainder len d' s₂).bind fun (s₃, rest) =>
              (addAndCheck env fuel b (addInt64 r' len) u (some rest) s₃).bind fun (s₄, c) =>
                some (s₄, if newB = some b then c else newB)
          else some (s₂, newB) := by
  obtain ⟨l, ⟨z, w⟩, hlast⟩ : ∃ l e, (a, v) :: suf = l ++ [e] :=
    ⟨_, _, (List.dropLast_append_getLast (List.cons_ne_nil _ _)).symm⟩
  have hlastAddr : s.chunks.last = some z := by
    rw [hrep.last_eq, hlast, lastAddr_append_cons]
  have hfirst : ∃ f, s.chunks.first = some f := by
    rw [hrep.first_eq, headAddr_append]
    cases pre with
    | nil => exact ⟨a, rfl⟩
    | cons e pre => exact ⟨e.1, rfl⟩
  obtain ⟨f, hfirst⟩ := hfirst
  have hlastCell : ∃ nx pv, s.chunks.heap z = some ⟨nx, pv, w⟩ := by
    rw [hlast] at hrep
    have hrep' : s.chunks.Represents ((pre ++ l) ++ (z, w) :: []) := by simpa using hrep
    exact ⟨_, _, hrep'.heap_eq⟩
  obtain ⟨nx, pv, hlastCell⟩ := hlastCell
  obtain ⟨y, hy, hyu, hry⟩ := hover
  have happend : r ≠ w.rupper := by
    rintro rfl
    rw [hlast] at hord hy
    have hord' : Ordered (vals l ++ [w]) := by simpa [vals] using hord
    have hy' : y ∈ vals l ++ [w] := by simpa [vals] using hy
    have := hord'.rupper_le le_rfl y hy'
    omega
  obtain ⟨l₁, b, x, l₂, hfind, heq, hl₁, hend⟩ :=
    findChunk_spec (s := s) r suf pre a v fuel hrep hf
  have hrep₁ : s.chunks.Represents ((pre ++ l₁) ++ (b, x) :: l₂) := by
    rw [List.append_assoc, ← heq]
    exact hrep
  have hl₁' : ∀ c ∈ vals l₁, c.rupper ≤ r := by
    intro c hc
    obtain ⟨e, he, rfl⟩ := List.mem_map.mp hc
    exact hl₁ e he
  rw [heq] at hord hy
  have hvals : vals (l₁ ++ (b, x) :: l₂) = vals l₁ ++ x :: vals l₂ := by simp [vals]
  rw [hvals] at hord hy
  -- the overlapping block is the chunk that was found, or comes behind it
  have hyx : y = x ∨ x.rupper ≤ y.rseq := by
    rcases List.mem_append.mp hy with hy | hy
    · have := hl₁' y hy
      omega
    · rcases List.mem_cons.mp hy with rfl | hy
      · exact .inl rfl
      · exact .inr (hord.suffix.head_le y hy)
  have hxok := hord.ok x (by simp)
  have hx : ¬ x.rupper ≤ r := by
    intro hx
    obtain rfl := hend hx
    rcases hyx with rfl | hyx
    · omega
    · rcases List.mem_append.mp hy with hy | hy
      · have := hl₁' y hy
        omega
      · have : y = x := by simpa using hy
        subst this
        omega
  have hu : ¬ u ≤ x.rseq := by
    have := hxok.1
    rcases hyx with rfl | hyx
    · omega
    · omega
  refine ⟨l₁, b, x, l₂, heq, hl₁', not_le.mp hx, not_le.mp hu, fun env => ?_⟩
  exact addAndCheck_overlap env hfirst hlastAddr hlastCell happend hfind hrep₁.heap_eq hx hu

/-! ## Lengths that do not fit -/

theorem LengthsFit.cons_of {x : Block} {l : List Block} {r u : ℕ} (h : LengthsFit l x.rupper u)
    (hord : Ordered (x :: l)) (hr : r < x.rupper)
    (hx : ¬ (u - max r x.rseq < 2 ^ 63 ∧ 2 ^ 63 ≤ x.rupper - max r x.rseq)) :
    LengthsFit (x :: l) r u := by
  intro c hc hcr hcu
  rcases List.mem_cons.mp hc with rfl | hmem
  · exact hx
  · have hle := hord.head_le c hmem
    have hcok := (hord.ok c hc).1
    have hfit := h c hmem (by omega) hcu
    rw [max_eq_right hle] at hfit
    rwa [max_eq_right (hr.le.trans hle)]

variable (env) in
theorem addAndCheck_lengths (fuel : ℕ) : ∀ (pre suf : List (ℕ × Block)) (a : ℕ) (v : Block)
    (r u : ℕ) (d : List UInt8) (s : SpicySink),
    s.chunks.Represents (pre ++ (a, v) :: suf) → Ordered (vals ((a, v) :: suf)) →
    r < u → u < 2 ^ 64 → d.length = u - r → u - r < 2 ^ 63 →
    ¬ LengthsFit (vals ((a, v) :: suf)) r u →
    suf.length + reaching ((a, v) :: suf) r < fuel →
    addAndCheck env (fuel + 1) a r u (some d) s = none := by
  induction fuel with
  | zero => intro pre suf a v r u d s _ _ _ _ _ _ _ hf; omega
  | succ fuel ih =>
    intro pre suf a v r u d s hrep hord hr hu hlen hlt hnot hf
    have hover : Overlaps (vals ((a, v) :: suf)) r u := by
      by_contra hno
      refine hnot fun b hb hbr hbu => absurd ⟨b, hb, hbu, hbr⟩ hno
    obtain ⟨l₁, b, x, l₂, heq, hl₁, hxr, hxu, hadd⟩ :=
      addAndCheck_meets (some d) hrep hord hover (show suf.length < fuel + 1 by omega)
    have hrep₁ : s.chunks.Represents ((pre ++ l₁) ++ (b, x) :: l₂) := by
      rw [List.append_assoc, ← heq]
      exact hrep
    have hvals : vals (l₁ ++ (b, x) :: l₂) = vals l₁ ++ x :: vals l₂ := by simp [vals]
    rw [heq, hvals] at hord hnot
    have hsuf : Ordered (x :: vals l₂) := hord.suffix
    have hxok := hsuf.ok x (by simp)
    have hd : DataOk r u (some d) := .inr ⟨hlen, hlt⟩
    obtain ⟨s₁, newB, new, hsplit, hrep₂, -⟩ :=
      splitPrefix_spec (headAddr l₂ none) hrep₁ hxok hd hxu
    rw [hadd env, hsplit, Option.bind_some]
    dsimp only [Option.map_some]
    have hmr : max r x.rseq < u := by omega
    have hmx : max r x.rseq < x.rupper := max_lt hxr hxok.1
    have hsubu : sub64 u (max r x.rseq) = u - max r x.rseq := sub64_of_le hmr.le hu
    have hsubx : sub64 x.rupper (max r x.rseq) = x.rupper - max r x.rseq :=
      sub64_of_le hmx.le hxok.2
    by_cases hbig : 2 ^ 63 ≤ x.rupper - max r x.rseq
    · -- the length of the chunk is negative as an `int64_t`
      have hlt64 := hxok.2
      have hneg : overlapLen (max r x.rseq) x.rupper u =
          (x.rupper - max r x.rseq : ℕ) - 2 ^ 64 := by
        unfold overlapLen
        rw [hsubu, hsubx, int64_of_lt (by omega), int64_of_le hbig, if_neg]
        omega
      have hne : d.drop (x.rseq - r) ≠ [] := by
        intro hnil
        have := congrArg List.length hnil
        simp only [List.length_drop, List.length_nil] at this
        omega
      rw [hneg, hsubu, int64_of_lt (by omega), if_pos (by omega)]
      simp only [remainder, bytesDrop]
      rw [if_pos ⟨by omega, hne⟩]
      rfl
    · have hfit : ¬ (u - max r x.rseq < 2 ^ 63 ∧ 2 ^ 63 ≤ x.rupper - max r x.rseq) :=
        fun hboth => hbig hboth.2
      obtain ⟨hiff, hlenEq⟩ := overlapLen_lt_iff hmx hxok.2 hmr hu hfit
      have hnot' : ¬ LengthsFit (vals l₂) x.rupper u := by
        intro hfits
        refine hnot fun c hc hcr hcu => ?_
        rcases List.mem_append.mp hc with hc | hc
        · have := hl₁ c hc
          omega
        · exact LengthsFit.cons_of hfits hsuf hxr hfit c hc hcr hcu
      have hgo : GoesOn (max r x.rseq) x.rupper u := by
        refine ⟨?_, .inl (by omega)⟩
        by_contra hge
        refine hnot' fun c hc hcr hcu => ?_
        have := hsuf.head_le c hc
        omega
      set s₂ := reportOverlap env (x.data.map fun e =>
        bytesTake (overlapLen (max r x.rseq) x.rupper u) (e.drop (max r x.rseq - x.rseq)))
        (some (bytesTake (overlapLen (max r x.rseq) x.rupper u) (d.drop (x.rseq - r))))
        (max r x.rseq) s₁ with hs₂
      have hch₂ : s₂.chunks = s₁.chunks := rfl
      obtain ⟨s₃, hrem, hch₃, -⟩ := remainder_spec hd hmx hgo.1 s₂
      have hrep₃ : s₃.chunks.Represents ((pre ++ l₁ ++ new) ++ (b, x) :: l₂) := by
        rw [hch₃, hch₂]
        simpa using hrep₂
      have hadd' : addInt64 (max r x.rseq) (int64 (x.rupper - max r x.rseq)) = x.rupper := by
        rw [addInt64_int64 (by have := hxok.2; omega)]
        omega
      have hreach := reaching_lt l₁ l₂ b hxr
      rw [← heq] at hreach
      have hlen₂ : suf.length + 1 = l₁.length + (l₂.length + 1) := by
        simpa using congrArg List.length heq
      have hrec := ih (pre ++ l₁ ++ new) l₂ b x x.rupper u (d.drop (x.rupper - r)) s₃ hrep₃ hsuf
        hgo.1 hu (by rw [List.length_drop]; omega) (by omega)
        (fun hfits => hnot' fun c hc => hfits c (List.mem_cons_of_mem x hc)) (by omega)
      rw [if_pos (hiff.mpr hgo)]
      simp only [Option.map_some, Option.getD_some] at hrem
      simp only [hlenEq hgo, hrem, hadd', hrec, Option.bind_some, Option.bind_none]

/-! ## Gaps that meet chunks -/

theorem newChunk_excpt {prev : Option ℕ} {b : Block} {c : ℕ}
    (h : newChunk prev b s = some (s', c)) : s'.excpt = s.excpt := by
  obtain ⟨chunks, -, h⟩ := Option.bind_eq_some_iff.mp h
  cases h
  rfl

theorem splitPrefix_excpt {b r r' : ℕ} {cell : Cell Block} {data data' : Option (List UInt8)}
    {c : Option ℕ} (h : splitPrefix b cell r data s = some (s', c, r', data')) :
    s'.excpt = s.excpt := by
  unfold splitPrefix at h
  split at h
  · cases data with
    | none =>
      cases h
      rfl
    | some d =>
      obtain ⟨⟨s₁, c₁⟩, h₁, h⟩ := Option.bind_eq_some_iff.mp h
      obtain ⟨d', -, h⟩ := Option.bind_eq_some_iff.mp h
      cases h
      exact newChunk_excpt h₁
  · cases h
    rfl

theorem remainder_excpt {n : ℤ} {data : Option (List UInt8)} {rest : List UInt8}
    (h : remainder n data s = some (s', rest)) (hexc : s.excpt = true) : s'.excpt = true := by
  cases data with
  | none =>
    cases h
    rfl
  | some d =>
    obtain ⟨d', -, h⟩ := Option.bind_eq_some_iff.mp h
    cases h
    exact hexc

theorem addAndCheck_excpt (fuel : ℕ) : ∀ (a r u : ℕ) (d : Option (List UInt8)) (s : SpicySink)
    (c : Option ℕ), addAndCheck env fuel a r u d s = some (s', c) → s.excpt = true →
    s'.excpt = true := by
  induction fuel with
  | zero =>
    intro a r u d s c h
    cases h
  | succ fuel ih =>
    intro a r u d s c h hexc
    have hnew : ∀ {prev : Option ℕ} {b : Block},
        ((newChunk prev b s).bind fun t => some (t.1, some t.2)) = some (s', c) →
        s'.excpt = true := by
      intro prev b h
      obtain ⟨⟨t, c'⟩, h₁, h⟩ := Option.bind_eq_some_iff.mp h
      cases h
      exact (newChunk_excpt h₁).trans hexc
    rw [addAndCheck] at h
    obtain ⟨-, -, h⟩ := Option.bind_eq_some_iff.mp h
    obtain ⟨last, -, h⟩ := Option.bind_eq_some_iff.mp h
    obtain ⟨lastCell, -, h⟩ := Option.bind_eq_some_iff.mp h
    split at h
    · exact hnew h
    obtain ⟨b, -, h⟩ := Option.bind_eq_some_iff.mp h
    obtain ⟨cell, -, h⟩ := Option.bind_eq_some_iff.mp h
    split at h
    · exact hnew h
    split at h
    · exact hnew h
    obtain ⟨⟨s₁, newB, r', d'⟩, hsplit, h⟩ := Option.bind_eq_some_iff.mp h
    have hexc₁ : s₁.excpt = true := (splitPrefix_excpt hsplit).trans hexc
    have hover : ∀ old new, (reportOverlap env old new r' s₁).excpt = true := by
      intro old new
      change (s₁.excpt || _) = true
      rw [hexc₁, Bool.true_or]
    simp only at h
    generalize (if int64 (sub64 u r') < int64 (sub64 cell.val.rupper r') then int64 (sub64 u r')
      else int64 (sub64 cell.val.rupper r')) = len at h
    split at h
    · obtain ⟨⟨s₂, rest⟩, hrem, h⟩ := Option.bind_eq_some_iff.mp h
      obtain ⟨⟨s₃, c'⟩, hrec, h⟩ := Option.bind_eq_some_iff.mp h
      cases h
      exact ih _ _ _ _ _ _ hrec (remainder_excpt hrem (hover _ _))
    · cases h
      exact hover _ _

theorem addAndCheck_apart {fuel r u : ℕ} {suf : List (ℕ × Block)} {a : ℕ} {v : Block}
    {d : Option (List UInt8)} {c : Option ℕ} (hrep : s.chunks.Represents ((a, v) :: suf))
    (hno : ¬ Overlaps (vals ((a, v) :: suf)) r u) (hf : suf.length < fuel)
    (h : addAndCheck env (fuel + 1) a r u d s = some (s', c)) : s'.excpt = s.excpt := by
  have hnew : ∀ {prev : Option ℕ} {b : Block},
      ((newChunk prev b s).bind fun t => some (t.1, some t.2)) = some (s', c) →
      s'.excpt = s.excpt := by
    intro prev b h
    obtain ⟨⟨t, c'⟩, h₁, h⟩ := Option.bind_eq_some_iff.mp h
    cases h
    exact newChunk_excpt h₁
  obtain ⟨l₁, b, x, l₂, hfind, heq, -, -⟩ :=
    findChunk_spec (s := s) r suf [] a v fuel hrep hf
  have hcell : s.chunks.heap b = some ⟨headAddr l₂ none, lastAddr none l₁, x⟩ := by
    rw [heq] at hrep
    exact hrep.heap_eq
  rw [addAndCheck] at h
  obtain ⟨-, -, h⟩ := Option.bind_eq_some_iff.mp h
  obtain ⟨last, -, h⟩ := Option.bind_eq_some_iff.mp h
  obtain ⟨lastCell, -, h⟩ := Option.bind_eq_some_iff.mp h
  split at h
  · exact hnew h
  simp only [hfind, hcell, Option.bind_eq_bind, Option.bind_some] at h
  split at h
  · exact hnew h
  split at h
  · exact hnew h
  · rename_i hx hu
    refine absurd ⟨x, ?_, not_le.mp hu, not_le.mp hx⟩ hno
    rw [heq]
    simp [vals]

theorem insertion_eq {fuel r len : ℕ} {data : Option (List UInt8)} (env : Env)
    (hu : r + len < 2 ^ 64) (htrim : s.trimRseq < r + len)
    (hdata : ∀ d, data = some d → d.length < 2 ^ 63 ∧ d.length = len) :
    insertion env fuel data r len s =
      enqueue env fuel (max r s.trimRseq) len (r + len) (clip s data r) s := by
  rw [insertion, cutOff_eq hu htrim hdata, uint64_of_lt hu, Option.bind_some]

theorem Env.quiet_silent (env : Env) : env.quiet.Silent :=
  fun _ _ => rfl

theorem coversNew_gap_meets {fuel r len : ℕ} {suf : List (ℕ × Block)} {a : ℕ} {v : Block}
    (hrep : s.chunks.Represents ((a, v) :: suf)) (hord : Ordered (vals ((a, v) :: suf)))
    (hexc : s.excpt = false) (hu : r + len < 2 ^ 64) (hlen : 0 < len)
    (htrim : s.trimRseq < r + len) (hf : suf.length < fuel)
    (hover : Overlaps (vals ((a, v) :: suf)) (max r s.trimRseq) (r + len)) :
    CoversNew env (fuel + 1) s none r len ↔
      (∀ p, max r s.trimRseq ≤ p → p < r + len → Covered (vals ((a, v) :: suf)) p) ∧
      ∃ x ∈ vals ((a, v) :: suf), x.rseq ≤ max r s.trimRseq ∧ max r s.trimRseq < x.rupper ∧
        int64 (r + len - max r s.trimRseq) ≤ int64 (x.rupper - max r s.trimRseq) := by
  have hfirst : s.chunks.first = some a := hrep.first_eq
  have hinsert : ∀ env : Env, insertion env (fuel + 1) none r len s =
      addAndCheck env (fuel + 1) a (max r s.trimRseq) (r + len) none s := by
    intro env
    rw [insertion_eq env hu htrim (by simp)]
    simp only [enqueue, hfirst]
    rfl
  unfold CoversNew
  rw [hinsert env, hinsert env.quiet]
  have hmu : max r s.trimRseq < r + len := by omega
  generalize max r s.trimRseq = m at *
  generalize r + len = u at *
  obtain ⟨l₁, b, x, l₂, heq, hl₁, hxr, hxu, hadd⟩ :=
    addAndCheck_meets none (show s.chunks.Represents ([] ++ (a, v) :: suf) from hrep) hord hover hf
  have hvals : vals ((a, v) :: suf) = vals l₁ ++ x :: vals l₂ := by
    rw [heq]
    simp [vals]
  have hx : x ∈ vals ((a, v) :: suf) := by
    rw [hvals]
    simp
  have hxok := hord.ok x hx
  have hsubu : sub64 u m = u - m := sub64_of_le hmu.le hu
  have hsubx : sub64 x.rupper m = x.rupper - m := sub64_of_le hxr.le hxok.2
  rcases lt_or_ge m x.rseq with hmx | hxm
  · -- the gap starts in front of the chunk: no chunk is made for what comes before it
    have hsplit : splitPrefix b ⟨headAddr l₂ none, lastAddr none ([] ++ l₁), x⟩ m none s =
        some (s, none, addInt64 m (int64 (sub64 x.rseq m)), none) := by
      simp only [splitPrefix, if_pos hmx]
    refine iff_of_false ?_ ?_
    · rintro ⟨⟨s', c, l', w, hrun, -⟩, -⟩
      rw [hadd env, hsplit, Option.bind_some] at hrun
      dsimp only at hrun
      split at hrun
      · obtain ⟨⟨s₃, rest⟩, -, hrun⟩ := Option.bind_eq_some_iff.mp hrun
        obtain ⟨⟨s₄, c'⟩, -, hrun⟩ := Option.bind_eq_some_iff.mp hrun
        simp at hrun
      · simp at hrun
    · rintro ⟨hall, -⟩
      obtain ⟨c, hc, hcm, hmc⟩ := hall m le_rfl hmu
      rw [hvals] at hc hord
      rcases List.mem_append.mp hc with hc | hc
      · have := hl₁ c hc
        omega
      · rcases List.mem_cons.mp hc with rfl | hc
        · omega
        · have := hord.suffix.head_le c hc
          omega
  · have hsplit : splitPrefix b ⟨headAddr l₂ none, lastAddr none ([] ++ l₁), x⟩ m none s =
        some (s, some b, m, none) := by
      simp only [splitPrefix, if_neg (not_lt.mpr hxm)]
    have honly : ∀ y ∈ vals ((a, v) :: suf), y.rseq ≤ m → m < y.rupper → y = x := by
      intro y hy hym hmy
      rw [hvals] at hy hord
      rcases List.mem_append.mp hy with hy | hy
      · have := hl₁ y hy
        omega
      · rcases List.mem_cons.mp hy with rfl | hy
        · rfl
        · have := hord.suffix.head_le y hy
          omega
    by_cases hshort : int64 (u - m) ≤ int64 (x.rupper - m)
    · -- the gap ends inside the chunk, or is taken to do so
      have hend : ¬ overlapLen m x.rupper u < int64 (sub64 u m) := by
        unfold overlapLen
        rw [hsubu, hsubx]
        split <;> omega
      have hrun : ∀ env : Env, ∃ t, addAndCheck env (fuel + 1) a m u none s = some (t, some b) ∧
          t.chunks = s.chunks ∧ t.excpt = (s.excpt || s.head.any fun p => env.raises p.id
            (Event.overlap (uint64 (m + s.initialSeq)) ((x.data.map fun e =>
              bytesTake (overlapLen m x.rupper u) (e.drop (m - x.rseq))).getD unavailable)
              unavailable)) := by
        intro env
        refine ⟨reportOverlap env (x.data.map fun e =>
          bytesTake (overlapLen m x.rupper u) (e.drop (m - x.rseq))) none m s, ?_, rfl, rfl⟩
        rw [hadd env, hsplit, Option.bind_some]
        dsimp only
        rw [if_neg hend]
        rfl
      obtain ⟨t, ht, htchunks, -⟩ := hrun env
      obtain ⟨t', ht', -, htexc⟩ := hrun env.quiet
      constructor
      · rintro ⟨⟨s', c, l', w, hs', hrep', -, hall⟩, -⟩
        rw [ht] at hs'
        cases hs'
        have hsame : vals l' = vals ((a, v) :: suf) :=
          hrep'.toList_eq.symm.trans ((congrArg LinkedList.toList htchunks).trans hrep.toList_eq)
        refine ⟨fun p hmp hpu => ?_, x, hx, hxm, hxr, hshort⟩
        rw [← hsame]
        exact covered_of_unique (hall p hmp hpu)
      · rintro ⟨hall, -⟩
        refine ⟨⟨t, b, (a, v) :: suf, x, ht, htchunks ▸ hrep, ?_, fun p hmp hpu =>
          covers_unique hord (hall p hmp hpu)⟩, t', some b, ht', ?_⟩
        · rw [heq]
          simp
        · rw [htexc, hexc]
          simp [Env.quiet]
    · -- the bytes of the gap are asked for
      have hgo : overlapLen m x.rupper u < int64 (sub64 u m) := by
        unfold overlapLen
        rw [hsubu, hsubx]
        split <;> omega
      refine iff_of_false ?_ ?_
      · rintro ⟨-, t, c, hrun, hnone⟩
        rw [hadd env.quiet, hsplit, Option.bind_some] at hrun
        dsimp only at hrun
        rw [if_pos hgo] at hrun
        simp only [remainder, Option.bind_some] at hrun
        obtain ⟨⟨s₄, c'⟩, hrec, hrun⟩ := Option.bind_eq_some_iff.mp hrun
        have hraised := addAndCheck_excpt fuel _ _ _ _ _ _ hrec rfl
        cases hrun
        rw [hraised] at hnone
        cases hnone
      · rintro ⟨-, y, hy, hym, hmy, hle⟩
        rw [honly y hy hym hmy] at hle
        exact hshort hle

/-! ## All new blocks -/

/-- When an insertion covers the new block.  The first chunk still counts what was cut off and
must not wrap around then.  The lengths of chunks that data overlaps must compare as `int64_t`
the way they are.  A gap must not meet a chunk, unless chunks cover it already and the one that
it starts in does not seem to end before it does. -/
def InsertsWell (l : List Block) (trim r len : ℕ) (data : Option (List UInt8)) : Prop :=
  (l = [] → r < trim → trim + len < 2 ^ 64) ∧
    (data ≠ none → LengthsFit l (max r trim) (r + len)) ∧
    (data = none → ¬ Overlaps l (max r trim) (r + len) ∨
      (∀ p, max r trim ≤ p → p < r + len → Covered l p) ∧
        ∃ x ∈ l, x.rseq ≤ max r trim ∧ max r trim < x.rupper ∧
          int64 (r + len - max r trim) ≤ int64 (x.rupper - max r trim))

theorem coversNew_first {fuel r len : ℕ} {data : Option (List UInt8)}
    (hrep : s.chunks.Represents []) (hexc : s.excpt = false) (hu : r + len < 2 ^ 64)
    (hlen : 0 < len) (htrim : s.trimRseq < r + len)
    (hdata : ∀ d, data = some d → d.length < 2 ^ 63 ∧ d.length = len) :
    CoversNew env fuel s data r len ↔ (r < s.trimRseq → s.trimRseq + len < 2 ^ 64) := by
  have hfirst : s.chunks.first = none := hrep.first_eq
  set w : Block := ⟨max r s.trimRseq, uint64 (max r s.trimRseq + len), clip s data r⟩ with hw
  set t : SpicySink := { s with chunks := { s.chunks.alloc w with
    first := some s.chunks.fresh, last := some s.chunks.fresh } } with ht
  have hinsert : ∀ env : Env, insertion env fuel data r len s = some (t, some s.chunks.fresh) := by
    intro env
    rw [insertion_eq env hu htrim hdata]
    simp only [enqueue, hfirst]
    rfl
  have hrep' : t.chunks.Represents [(s.chunks.fresh, w)] := hrep.singleton w
  constructor
  · rintro ⟨⟨s', c, l', w', hrun, hl', -, hall⟩, -⟩ hlt
    rw [hinsert env] at hrun
    cases hrun
    have hsame : vals l' = [w] := hl'.toList_eq.symm.trans hrep'.toList_eq
    obtain ⟨b, hb, hle, hupper⟩ := covered_of_unique (hall (max r s.trimRseq) le_rfl (by omega))
    rw [hsame, List.mem_singleton] at hb
    subst hb
    by_contra hwrap
    rw [hw] at hupper
    simp only [uint64] at hupper
    omega
  · intro hwrap
    have hend : max r s.trimRseq + len < 2 ^ 64 := by omega
    have hwu : w.rupper = max r s.trimRseq + len := uint64_of_lt hend
    have hord : Ordered (vals [(s.chunks.fresh, w)]) := by
      refine Ordered.nil.cons ⟨?_, hwu ▸ hend⟩ (by simp)
      change max r s.trimRseq < w.rupper
      omega
    refine ⟨⟨t, _, _, w, hinsert env, hrep', by simp, fun p hp hpu => ?_⟩, t, _,
      hinsert env.quiet, hexc⟩
    refine covers_unique hord ⟨w, by simp, hp, ?_⟩
    omega

/-- The insertion of a block between the chunks covers it if and only if it does not have to
compare lengths that do not fit, and a gap does not meet chunks that leave some of it out. -/
theorem insertion_covers_iff (env : Env) (s : SpicySink) (l : List (ℕ × Block))
    (hrep : s.chunks.Represents l) (hord : Ordered (vals l)) (hexc : s.excpt = false)
    (data : Option (List UInt8)) (r len : ℕ) (hu : r + len < 2 ^ 64) (hlen : 0 < len)
    (hdata : ∀ d, data = some d → d.length < 2 ^ 63 ∧ d.length = len)
    (htrim : s.trimRseq < r + len) (fuel : ℕ) (hf : 2 * l.length + 2 < fuel) :
    CoversNew env fuel s data r len ↔ InsertsWell (vals l) s.trimRseq r len data := by
  cases l with
  | nil =>
    rw [coversNew_first hrep hexc hu hlen htrim hdata]
    refine ⟨fun h => ⟨fun _ => h, ?_, ?_⟩, fun h => h.1 rfl⟩
    · intro _ b hb
      simp at hb
    · exact fun _ => .inl (by simp [Overlaps])
  | cons e suf =>
    obtain ⟨a, v⟩ := e
    obtain ⟨fuel, rfl⟩ : ∃ n, fuel = n + 1 := ⟨fuel - 1, by omega⟩
    simp only [List.length_cons] at hf
    have hfirst : s.chunks.first = some a := hrep.first_eq
    have hinsert : ∀ env : Env, insertion env (fuel + 1) data r len s =
        addAndCheck env (fuel + 1) a (max r s.trimRseq) (r + len) (clip s data r) s := by
      intro env
      rw [insertion_eq env hu htrim hdata]
      simp only [enqueue, hfirst]
    have hrep₀ : s.chunks.Represents ([] ++ (a, v) :: suf) := hrep
    have hmu : max r s.trimRseq < r + len := by omega
    have hreach : reaching ((a, v) :: suf) (max r s.trimRseq) ≤ suf.length + 1 := by
      refine (List.length_filter_le _ _).trans ?_
      simp
    have hne : vals ((a, v) :: suf) ≠ [] := by simp
    -- the insertion when the lengths fit and something is returned
    have hwell : LengthsFit (vals ((a, v) :: suf)) (max r s.trimRseq) (r + len) →
        NoOverhang (vals ((a, v) :: suf)) (max r s.trimRseq) (r + len) (clip s data r) →
        (∀ p, max r s.trimRseq ≤ p → p < r + len → Covered (insertBlock (vals ((a, v) :: suf))
          (max r s.trimRseq) (r + len) (clip s data r)) p) →
        (∀ t c, insertion env.quiet (fuel + 1) data r len s = some (t, c) → t.excpt = s.excpt) →
        CoversNew env (fuel + 1) s data r len := by
      intro hfit hno hcov hquiet
      have hspec := fun env => addAndCheck_spec env (fuel + 1) [] suf a v (max r s.trimRseq)
        (r + len) (clip s data r) s hrep₀ hord hmu hu (clip_dataOk htrim hdata) hfit (by omega)
      obtain ⟨s', c, suf', hrun, hins⟩ := hspec env
      obtain ⟨t, c', suf'', hrun', -⟩ := hspec env.quiet
      obtain ⟨l₁, c₁, w, l₂, rfl, rfl, -⟩ := hins.returns hno
      have hord' : Ordered (vals (l₁ ++ (c₁, w) :: l₂)) := by
        rw [hins.vals_eq]
        exact insertBlock_ordered hord hmu hu
      refine ⟨⟨s', c₁, _, w, (hinsert env).trans hrun, hins.represents, by simp,
        fun p hp hpu => ?_⟩, t, c', (hinsert env.quiet).trans hrun', ?_⟩
      · refine covers_unique hord' ?_
        change Covered (vals (l₁ ++ (c₁, w) :: l₂)) p
        rw [hins.vals_eq]
        exact hcov p hp hpu
      · rw [hquiet t c' ((hinsert env.quiet).trans hrun'), hexc]
    cases data with
    | some d =>
      have hd := hdata d rfl
      have hdrop : (d.drop (s.trimRseq - r)).length = r + len - max r s.trimRseq := by
        rw [List.length_drop]
        omega
      constructor
      · rintro ⟨⟨s', c, l', w, hrun, -⟩, -⟩
        refine ⟨fun hnil => absurd hnil hne, fun _ => ?_, fun hnone => by cases hnone⟩
        by_contra hnot
        rw [hinsert env] at hrun
        have hstuck := addAndCheck_lengths env fuel [] suf a v (max r s.trimRseq) (r + len)
          (d.drop (s.trimRseq - r)) s hrep₀ hord hmu hu hdrop (by omega) hnot (by omega)
        have hclip : clip s (some d) r = some (d.drop (s.trimRseq - r)) := rfl
        rw [hclip, hstuck] at hrun
        cases hrun
      · rintro ⟨-, hfit, -⟩
        refine hwell (hfit (by simp)) trivial (fun p hp hpu =>
          insertBlock_covers hord _ (by omega) hp hpu) fun t c hrun => ?_
        obtain ⟨t', c', suf', hrun', hins⟩ := addAndCheck_spec env.quiet (fuel + 1) [] suf a v
          (max r s.trimRseq) (r + len) (clip s (some d) r) s hrep₀ hord hmu hu
          (clip_dataOk htrim hdata) (hfit (by simp)) (by omega)
        rw [hinsert env.quiet, hrun'] at hrun
        cases hrun
        exact hins.excpt_eq env.quiet_silent (by simp [clip])
    | none =>
      by_cases hover : Overlaps (vals ((a, v) :: suf)) (max r s.trimRseq) (r + len)
      · rw [coversNew_gap_meets hrep hord hexc hu hlen htrim (by omega) hover]
        constructor
        · exact fun h => ⟨fun hnil => absurd hnil hne, fun hsome => absurd rfl hsome,
            fun _ => .inr h⟩
        · rintro ⟨-, -, h⟩
          exact (h rfl).resolve_left (not_not_intro hover)
      · refine iff_of_true ?_ ⟨fun hnil => absurd hnil hne, fun hsome => absurd rfl hsome,
          fun _ => .inl hover⟩
        refine hwell (fun b hb hbr hbu => absurd ⟨b, hb, hbu, hbr⟩ hover) (.inr fun b hb hbr => ?_)
          (insertBlock_not_overlaps hover _) fun t c hrun => ?_
        · by_contra hbu
          have hok := (hord.ok b hb).1
          exact hover ⟨b, hb, not_le.mp hbu, hbr.trans hok⟩
        · rw [hinsert env.quiet] at hrun
          exact addAndCheck_apart hrep hover (by omega) hrun

/-- Data that overlaps a chunk at both ends. -/
theorem insertion_covers_both_ends :
    ∃ s, (machine waitingEnv (sinkNew 0 [1])).run (sinkNew 0 [1]) [.write [7, 8] 5] = some s ∧
      CoversNew waitingEnv 10 s (some [1, 2, 3, 4]) 4 4 := by
  obtain ⟨s, hs⟩ : ∃ s, (machine waitingEnv (sinkNew 0 [1])).run (sinkNew 0 [1])
      [.write [7, 8] 5] = some s := ⟨_, rfl⟩
  have hfacts : ((machine waitingEnv (sinkNew 0 [1])).run (sinkNew 0 [1]) [.write [7, 8] 5]).map
      (fun s => (s.chunks.toList, s.trimRseq, s.excpt)) =
      some ([⟨5, 7, some [7, 8]⟩], 0, false) := by decide
  rw [hs] at hfacts
  simp only [Option.map_some, Option.some.injEq, Prod.mk.injEq] at hfacts
  obtain ⟨hlist, htrim, hexc⟩ := hfacts
  obtain ⟨-, l, hl⟩ := run_listed [.write [7, 8] 5] (sinkNew 0 [1]) [] (sinkNew_listed 0 [1])
    (by decide) hs
  have hvals : vals l = [⟨5, 7, some [7, 8]⟩] := hl.represents.toList_eq.symm.trans hlist
  have hlen : l.length = 1 := by simpa using congrArg List.length hvals
  refine ⟨s, hs, ?_⟩
  refine (insertion_covers_iff waitingEnv s l hl.represents hl.ordered hexc (some [1, 2, 3, 4]) 4 4
    (by decide) (by decide) (by simp) (by omega) 10 (by omega)).mpr ?_
  rw [hvals, htrim]
  exact ⟨by simp, fun _ => by decide, fun h => by cases h⟩

/-- A gap that starts in front of a chunk returns no chunk, and one that goes on behind it asks
for bytes that it does not have. -/
theorem insertion_covers_not :
    (∃ s, (machine waitingEnv (sinkNew 0 [1])).run (sinkNew 0 [1]) [.write [7, 8] 5] = some s ∧
      ¬ CoversNew waitingEnv 10 s none 3 4) ∧
    ∃ s, (machine waitingEnv (sinkNew 0 [1])).run (sinkNew 0 [1]) [.write [7, 8] 5] = some s ∧
      ¬ CoversNew waitingEnv 10 s none 5 5 := by
  obtain ⟨s, hs⟩ : ∃ s, (machine waitingEnv (sinkNew 0 [1])).run (sinkNew 0 [1])
      [.write [7, 8] 5] = some s := ⟨_, rfl⟩
  have hfront : (((machine waitingEnv (sinkNew 0 [1])).run (sinkNew 0 [1])
      [.write [7, 8] 5]).bind fun s => insertion waitingEnv 10 none 3 4 s).map Prod.snd =
      some none := by decide
  have hbehind : (((machine waitingEnv (sinkNew 0 [1])).run (sinkNew 0 [1])
      [.write [7, 8] 5]).bind fun s => insertion waitingEnv.quiet 10 none 5 5 s).map
      (fun t => t.1.excpt) = some true := by decide
  rw [hs, Option.bind_some] at hfront hbehind
  refine ⟨⟨s, hs, ?_⟩, s, hs, ?_⟩
  · rintro ⟨⟨s', c, l', w, hrun, -⟩, -⟩
    rw [hrun] at hfront
    simp at hfront
  · rintro ⟨-, t, c, hrun, hexc⟩
    rw [hrun, Option.map_some, hexc] at hbehind
    simp at hbehind

end

end Hilti.Sink
