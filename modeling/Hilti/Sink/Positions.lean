import Hilti.Sink.Listed

/-!
# The positions of delivered data

A sink should not go past a gap that it has reported before it is told to skip it, and it
should not go back to positions that it has delivered.  Both hold of runs that keep away
from the situations in which `__new_block` and `__skip` set the current position anew.
-/

namespace Hilti.Sink

open Hilti.Lib Hilti.Lib.LinkedList

set_option autoImplicit false

/-! ## Where there is data -/

/-- Some block has data for the position `p`. -/
def HasData (l : List Block) (p : ℕ) : Prop :=
  ∃ b ∈ l, b.data ≠ none ∧ b.rseq ≤ p ∧ p < b.rupper

/-- Some block overlaps the positions `r` to `u`. -/
def Overlaps (l : List Block) (r u : ℕ) : Prop :=
  ∃ b ∈ l, b.rseq < u ∧ r < b.rupper

/-- There is data for `p` once a new block of positions `r` to `u` is buffered.  What
remains of a gap behind a block that it overlaps is buffered as data without bytes. -/
def Filled (l : List Block) (r u : ℕ) (d : Option (List UInt8)) (p : ℕ) : Prop :=
  HasData l p ∨ (r ≤ p ∧ p < u ∧ ¬ Covered l p ∧ (d ≠ none ∨ Overlaps l r u))

instance (l : List Block) (p : ℕ) : Decidable (HasData l p) :=
  inferInstanceAs (Decidable (∃ b ∈ l, _))

instance (l : List Block) (r u : ℕ) : Decidable (Overlaps l r u) :=
  inferInstanceAs (Decidable (∃ b ∈ l, _))

instance (l : List Block) (r u : ℕ) (d : Option (List UInt8)) (p : ℕ) :
    Decidable (Filled l r u d p) :=
  inferInstanceAs (Decidable (_ ∨ _))

section

variable {b : Block} {l : List Block} {r u p : ℕ} {d : Option (List UInt8)}

@[simp] theorem covered_cons : Covered (b :: l) p ↔ (b.rseq ≤ p ∧ p < b.rupper) ∨ Covered l p := by
  simp [Covered]

@[simp] theorem hasData_cons :
    HasData (b :: l) p ↔ (b.data ≠ none ∧ b.rseq ≤ p ∧ p < b.rupper) ∨ HasData l p := by
  simp [HasData]

@[simp] theorem hasData_append {l' : List Block} :
    HasData (l ++ l') p ↔ HasData l p ∨ HasData l' p := by
  simp only [HasData, List.mem_append, or_and_right, exists_or]

@[simp] theorem overlaps_cons :
    Overlaps (b :: l) r u ↔ (b.rseq < u ∧ r < b.rupper) ∨ Overlaps l r u := by
  simp [Overlaps]

theorem HasData.covered (h : HasData l p) : Covered l p := by
  obtain ⟨b, hb, -, hp⟩ := h
  exact ⟨b, hb, hp⟩

theorem not_covered_of_lt (h : ∀ b ∈ l, p < b.rseq) : ¬ Covered l p := by
  rintro ⟨b, hb, hbp, -⟩
  have := h b hb
  omega

theorem hasData_prefixBlock : HasData (prefixBlock b r d) p ↔
    d ≠ none ∧ r ≤ p ∧ p < b.rseq := by
  unfold prefixBlock
  cases d with
  | none => simp [HasData]
  | some e =>
    by_cases hr : r < b.rseq
    · simp [hr, HasData]
    · simp only [if_neg hr, HasData, List.not_mem_nil, false_and, exists_false, ne_eq,
        reduceCtorEq, not_false_eq_true, true_and, false_iff]
      omega

theorem filled_of_insertBlock (hl : Ordered l) (h : HasData (insertBlock l r u d) p) :
    Filled l r u d p := by
  induction l generalizing r d with
  | nil =>
    obtain ⟨c, hc, hdata, hp⟩ := h
    obtain rfl : c = ⟨r, u, d⟩ := by simpa [insertBlock] using hc
    exact .inr ⟨hp.1, hp.2, by simp [Covered], .inl hdata⟩
  | cons b l ih =>
    have hb := (hl.ok b (by simp)).1
    have hle := hl.head_le
    unfold insertBlock at h
    split at h
    · rename_i hbr
      rcases hasData_cons.mp h with h | h
      · exact .inl (hasData_cons.mpr (.inl h))
      rcases ih hl.tail h with h | ⟨hrp, hpu, hnot, hd⟩
      · exact .inl (hasData_cons.mpr (.inr h))
      · refine .inr ⟨hrp, hpu, ?_, hd.imp id fun h => overlaps_cons.mpr (.inr h)⟩
        rw [covered_cons]
        exact not_or.mpr ⟨by omega, hnot⟩
    split at h
    · rename_i hu
      rcases hasData_cons.mp h with ⟨hdata, hp⟩ | h
      · refine .inr ⟨hp.1, hp.2, not_covered_of_lt fun c hc => ?_, .inl hdata⟩
        have hpu : p < u := hp.2
        rcases List.mem_cons.mp hc with rfl | hc
        · omega
        · have := hle c hc
          omega
      · exact .inl h
    · rename_i hbr hu
      have hover : Overlaps (b :: l) r u := overlaps_cons.mpr (.inl ⟨not_le.mp hu, not_le.mp hbr⟩)
      rcases hasData_append.mp h with h | h
      · obtain ⟨hd, hrp, hpb⟩ := hasData_prefixBlock.mp h
        refine .inr ⟨hrp, by omega, not_covered_of_lt fun c hc => ?_, .inl hd⟩
        rcases List.mem_cons.mp hc with rfl | hc
        · exact hpb
        · have := hle c hc
          omega
      rcases hasData_cons.mp h with h | h
      · exact .inl (hasData_cons.mpr (.inl h))
      split at h
      · rcases ih hl.tail h with h | ⟨hrp, hpu, hnot, -⟩
        · exact .inl (hasData_cons.mpr (.inr h))
        · refine .inr ⟨by omega, hpu, ?_, .inr hover⟩
          rw [covered_cons]
          exact not_or.mpr ⟨by omega, hnot⟩
      · exact .inl (hasData_cons.mpr (.inr h))

end

/-! ## Gaps -/

theorem inOrder_rupper_le {l : List Block} {last cur p : ℕ} (hp : last ≤ p)
    (hnot : ¬ HasData l p) : ∀ x ∈ (inOrder last cur l).1, x.rupper ≤ p := by
  induction l generalizing last cur with
  | nil => simp [inOrder]
  | cons b l ih =>
    obtain ⟨hb, hl⟩ := not_or.mp (mt hasData_cons.mpr hnot)
    unfold inOrder
    split
    · exact ih hp hl
    split
    · rename_i heq
      split
      · simp
      · rename_i hdata
        have hbp : b.rupper ≤ p := by
          by_contra hlt
          exact hb ⟨by simp [hdata], by omega, by omega⟩
        intro x hx
        rcases List.mem_cons.mp hx with rfl | hx
        · exact hbp
        · exact ih hbp hl x hx
    · simp

/-- A block that does not lead beyond the position `b`: if it is delivered at once, it is a
gap or does not reach beyond `b`; and if it makes the sink look for what is in order, then
some position up to `b` has no data. -/
def HarmlessBlock (b : ℕ) (s : SpicySink) (data : Option (List UInt8)) (r len : ℕ) : Prop :=
  (data ≠ none → r = s.curRseq → s.chunks.first = none → len = 0 ∨ r + len ≤ b) ∧
    (Enqueues s r len →
      Arrives s.chunks.toList (max r s.trimRseq) (upper s r len) s.lastReassemRseq →
      ∃ p, p ≤ b ∧ s.lastReassemRseq ≤ p ∧
        ¬ Filled s.chunks.toList (max r s.trimRseq) (upper s r len) data p)

def Harmless (b : ℕ) (s : SpicySink) (op : Op) : Prop :=
  ∀ t ∈ op.block s, HarmlessBlock b s t.1 t.2.1 t.2.2

instance (b : ℕ) (s : SpicySink) (data : Option (List UInt8)) (r len : ℕ) :
    Decidable (HarmlessBlock b s data r len) :=
  inferInstanceAs (Decidable (_ ∧ _))

instance (b : ℕ) (s : SpicySink) (op : Op) : Decidable (Harmless b s op) :=
  inferInstanceAs (Decidable (∀ t ∈ op.block s, _))

/-- The operation writes, appends or reports a gap. -/
def Op.AddsBlock : Op → Prop
  | .write _ _ => True
  | .append _ => True
  | .gap _ _ => True
  | _ => False

instance : (op : Op) → Decidable op.AddsBlock
  | .write _ _ => isTrue trivial
  | .append _ => isTrue trivial
  | .gap _ _ => isTrue trivial
  | .skip _ => isFalse id
  | .trim _ => isFalse id
  | .close => isFalse id

/-- The block has a byte for the position `p`. -/
def Block.HasByte (b : Block) (p : ℕ) : Prop :=
  ∃ d, b.data = some d ∧ b.rseq ≤ p ∧ p < b.rseq + d.length

theorem Block.Fits.lt_rupper {b : Block} {p : ℕ} (hb : b.Fits) (h : b.HasByte p) :
    p < b.rupper := by
  obtain ⟨d, hd, -, hp⟩ := h
  have := hb d hd
  omega

section

variable {env : Env} {s s' : SpicySink}

theorem clip_ne_none {data : Option (List UInt8)} {r : ℕ} : clip s data r ≠ none ↔ data ≠ none := by
  simp [clip]

theorem filled_clip {l : List Block} {r u r' p : ℕ} {data : Option (List UInt8)} :
    Filled l r u (clip s data r') p ↔ Filled l r u data p := by
  unfold Filled
  rw [clip_ne_none]

theorem BlockStep.rupper_le {l : List (ℕ × Block)} {b r len : ℕ} {data : Option (List UInt8)}
    {handed : List Block} (hstep : BlockStep s s' (vals l) data r len handed) (h : Listed s l)
    (hharmless : HarmlessBlock b s data r len) : ∀ x ∈ handed, x.rupper ≤ b := by
  obtain ⟨hnow, hlater⟩ := hharmless
  cases hstep with
  | nothing => simp
  | data hdata hfast hlen =>
    intro x hx
    obtain rfl : x = _ := List.mem_singleton.mp hx
    exact (hnow (by simp [hdata]) hfast.1 hfast.2).resolve_left hlen
  | gap => simp
  | reassembled henq hw hlast harrives hdel =>
    rw [h.represents.toList_eq] at hlater
    obtain ⟨p, hpb, hp, hnot⟩ := hlater henq harrives
    have hnone : ¬ HasData (insertBlock (vals l) (max r s.trimRseq) (upper s r len)
        (clip s data r)) p :=
      fun hdata => hnot (filled_clip.mp (filled_of_insertBlock h.ordered hdata))
    intro x hx
    rw [hdel.handed_eq] at hx
    exact (inOrder_rupper_le hp hnone x hx).trans hpb

theorem OpStep.rupper_le {l : List (ℕ × Block)} {b : ℕ} {op : Op} {handed : List Block}
    (hstep : OpStep s s' (vals l) op handed) (h : Listed s l) (hop : op.AddsBlock)
    (hharmless : Harmless b s op) : ∀ x ∈ handed, x.rupper ≤ b := by
  cases hstep with
  | block hblock hstep => exact hstep.rupper_le h (hharmless _ hblock)
  | skip => exact absurd hop id
  | trim => exact absurd hop id
  | closed => simp

theorem run_harmless {start : SpicySink} {b : ℕ} (ops : List Op) :
    ∀ (s : SpicySink) (l : List (ℕ × Block)), Listed s l → (∀ op ∈ ops, op.AddsBlock) →
      (machine env start).Along (fun s op => (InRange s op ∧ Safe s op) ∧ Harmless b s op) s ops →
      (machine env start).run s ops = some s' →
      ∀ x ∈ handedAlong env s ops, x.Fits ∧ x.rupper ≤ b := by
  induction ops with
  | nil => simp [handedAlong]
  | cons op ops ih =>
    intro s l h hops halong hrun
    obtain ⟨⟨⟨hrange, hsafe⟩, hharmless⟩, hnext⟩ := halong
    obtain ⟨s₁, hperform, hrun⟩ := Option.bind_eq_some_iff.mp hrun
    have hlen := h.represents.length_le
    obtain ⟨hstep, -, hfits, l₁, h₁, -⟩ := perform_listed h op hrange hsafe
      (show _ ≤ opFuel s by unfold opFuel; omega) hperform
    rw [handedAlong_cons ops hperform]
    intro x hx
    rcases List.mem_append.mp hx with hx | hx
    · exact ⟨hfits x hx, hstep.rupper_le h (hops op (by simp)) hharmless x hx⟩
    · exact ih s₁ l₁ h₁ (fun op hop => hops op (by simp [hop])) (hnext s₁ hperform) hrun x hx

end

/-- After a sink has reported a gap from `a` to `b`, a run of writes, appends and gaps that
are harmless does not deliver a byte at `b` or beyond. -/
theorem gap_holds_back (env : Env) (initialSeq : ℕ) (ids : List ℕ) (before later : List Op)
    (t t' : SpicySink)
    (hbefore : (machine env (sinkNew initialSeq ids)).run (sinkNew initialSeq ids) before = some t)
    (hlater : (machine env (sinkNew initialSeq ids)).run t later = some t')
    (hsafe : (machine env (sinkNew initialSeq ids)).Along (fun s op => InRange s op ∧ Safe s op)
      (sinkNew initialSeq ids) (before ++ later))
    (hops : ∀ op ∈ later, op.AddsBlock) :
    (∃ ds, deliveries t'.log = deliveries t.log ++ ds ∧
      Hands (Sink.ids t) (handedAlong env t later) ds) ∧
    ∀ a b, Event.gap (uint64 (a + initialSeq)) (b - a) ∈ t.log →
      (machine env (sinkNew initialSeq ids)).Along (Harmless b) t later →
      ∀ x ∈ handedAlong env t later, ∀ p, x.HasByte p → p < b := by
  obtain ⟨hsafe₁, hsafe₂⟩ := Machine.along_append hsafe
  obtain ⟨hgives, l, hl⟩ := run_listed before _ [] (sinkNew_listed initialSeq ids) hsafe₁ hbefore
  obtain ⟨hgives', -⟩ := run_listed later t l hl (hsafe₂ t hbefore) hlater
  refine ⟨hgives'.hands (hgives.filter_eq rfl), fun a b _ hharmless x hx p hp => ?_⟩
  obtain ⟨hfits, hle⟩ :=
    run_harmless later t l hl hops ((hsafe₂ t hbefore).and hharmless) hlater x hx
  exact (hfits.lt_rupper hp).trans_le hle

/-- Data waits behind a gap when the gap is reported.  Later data behind it waits as well, and
data for the gap is ignored. -/
theorem gap_holds_back_waiting :
    ∃ t t', (machine waitingEnv (sinkNew 0 [1])).run (sinkNew 0 [1]) [.write [7] 5, .gap 0 5] =
        some t ∧
      Event.gap 0 5 ∈ t.log ∧
      (machine waitingEnv (sinkNew 0 [1])).run t [.write [7, 8] 5, .gap 10 3, .write [1, 2] 1] =
        some t' ∧
      ∀ x ∈ handedAlong waitingEnv t [.write [7, 8] 5, .gap 10 3, .write [1, 2] 1],
        ∀ p, x.HasByte p → p < 5 := by
  refine ⟨_, _, rfl, by decide, rfl, ?_⟩
  exact (gap_holds_back waitingEnv 0 [1] [.write [7] 5, .gap 0 5]
    [.write [7, 8] 5, .gap 10 3, .write [1, 2] 1] _ _ rfl rfl (by decide)
    (by decide)).2 0 5 (by decide) (by decide)

/-- Data that is appended behind a reported gap is delivered at once, and so is data that
waits behind one when it is written again. -/
theorem gap_is_passed :
    (∃ t t', (machine waitingEnv (sinkNew 0 [1])).run (sinkNew 0 [1]) [.gap 0 5] = some t ∧
      Event.gap 0 5 ∈ t.log ∧ deliveries t.log = [] ∧
      (machine waitingEnv (sinkNew 0 [1])).run t [.append [1]] = some t' ∧
      deliveries t'.log = [(1, [1])] ∧
      ∃ x ∈ handedAlong waitingEnv t [.append [1]], x.HasByte 5) ∧
    ∃ t t', (machine waitingEnv (sinkNew 0 [1])).run (sinkNew 0 [1]) [.write [1] 5, .gap 0 5] =
        some t ∧
      Event.gap 0 5 ∈ t.log ∧ deliveries t.log = [] ∧
      (machine waitingEnv (sinkNew 0 [1])).run t [.write [1] 5] = some t' ∧
      deliveries t'.log = [(1, [1])] ∧
      ∃ x ∈ handedAlong waitingEnv t [.write [1] 5], x.HasByte 5 := by
  have hbyte : Block.HasByte ⟨5, 6, some [1]⟩ 5 := ⟨[1], rfl, by decide, by decide⟩
  constructor
  · exact ⟨_, _, rfl, by decide, by decide, rfl, by decide, _,
      show ⟨5, 6, some [1]⟩ ∈ _ by decide, hbyte⟩
  · exact ⟨_, _, rfl, by decide, by decide, rfl, by decide, _,
      show ⟨5, 6, some [1]⟩ ∈ _ by decide, hbyte⟩

/-! ## Going onward -/

section

variable {l : List Block} {r u p : ℕ} {d : Option (List UInt8)}

theorem mem_insertBlock {b : Block} (hb : b ∈ l) : b ∈ insertBlock l r u d := by
  induction l generalizing r d with
  | nil => simp at hb
  | cons c l ih =>
    unfold insertBlock
    rcases List.mem_cons.mp hb with rfl | hb
    · split
      · simp
      split
      · simp
      · simp
    · split
      · exact List.mem_cons_of_mem _ (ih hb)
      split
      · simp [hb]
      · refine List.mem_append_right _ (List.mem_cons_of_mem _ ?_)
        split
        · exact ih hb
        · exact hb

theorem insertBlock_of_not_overlaps (h : ¬ Overlaps l r u) : ⟨r, u, d⟩ ∈ insertBlock l r u d := by
  induction l with
  | nil => simp [insertBlock]
  | cons b l ih =>
    obtain ⟨hb, hl⟩ := not_or.mp (mt overlaps_cons.mpr h)
    unfold insertBlock
    split
    · exact List.mem_cons_of_mem _ (ih hl)
    · rw [if_pos (by omega)]
      simp

theorem insertBlock_of_filled (hl : Ordered l) (hno : NoOverhang l r u d)
    (hlen : u - r < 2 ^ 63) (h : Filled l r u d p) : HasData (insertBlock l r u d) p := by
  rcases h with ⟨b, hb, hdata, hp⟩ | ⟨hrp, hpu, hnot, hd⟩
  · exact ⟨b, mem_insertBlock hb, hdata, hp⟩
  induction l generalizing r d with
  | nil =>
    refine ⟨⟨r, u, d⟩, by simp [insertBlock], hd.resolve_right ?_, hrp, hpu⟩
    simp [Overlaps]
  | cons b l ih =>
    have hb := (hl.ok b (by simp)).1
    have hle := hl.head_le
    obtain ⟨hnb, hnl⟩ := not_or.mp (mt covered_cons.mpr hnot)
    unfold insertBlock
    split
    · rename_i hbr
      refine hasData_cons.mpr (.inr (ih hl.tail ?_ hlen hrp hnl ?_))
      · cases d with
        | some e => trivial
        | none =>
          rcases hno with ⟨c, hc, hcr, hrc⟩ | hall
          · rcases List.mem_cons.mp hc with rfl | hc
            · omega
            · exact .inl ⟨c, hc, hcr, hrc⟩
          · exact .inr fun c hc => hall c (by simp [hc])
      · refine hd.imp id fun hover => ?_
        rcases overlaps_cons.mp hover with hover | hover
        · omega
        · exact hover
    rename_i hbr
    split
    · rename_i hu
      refine hasData_cons.mpr (.inl ⟨hd.resolve_right ?_, hrp, hpu⟩)
      rintro ⟨c, hc, hcu, -⟩
      rcases List.mem_cons.mp hc with rfl | hc
      · omega
      · have := hle c hc
        omega
    · rename_i hu
      by_cases hpb : p < b.rseq
      · have hno' : NoOverhang ([] ++ b :: l) r u d := hno
        have hd' := hno'.data_ne_none (by simp) hl (hrp.trans_lt hpb) (not_le.mp hu)
        exact hasData_append.mpr (.inl (hasData_prefixBlock.mpr ⟨hd', hrp, hpb⟩))
      · have hgo : GoesOn (max r b.rseq) b.rupper u := by
          unfold GoesOn
          omega
        rw [if_pos hgo]
        refine hasData_append.mpr (.inr (hasData_cons.mpr (.inr ?_)))
        exact ih hl.tail trivial (by omega) (by omega) hnl (.inl (by simp))

end

/-- Where a delivery from `last` on ends. -/
structure InOrder (last cur : ℕ) (l : List Block) (t : List Block × ℕ × ℕ) : Prop where
  last_le : last ≤ t.2.1
  handed : ∀ x ∈ t.1, last ≤ x.rseq ∧ x.rupper ≤ t.2.1
  sorted : t.1.Pairwise fun x y => x.rupper ≤ y.rseq
  cur_eq : (t.2.1 = last ∧ t.2.2 = cur) ∨ t.2.2 = t.2.1
  last_eq : t.2.1 = last ∨ ∃ b ∈ l, t.2.1 = b.rupper

theorem inOrder_spec {l : List Block} (hl : Ordered l) (last cur : ℕ) :
    InOrder last cur l (inOrder last cur l) := by
  induction l generalizing last cur with
  | nil => exact ⟨le_rfl, by simp [inOrder], .nil, .inl ⟨rfl, rfl⟩, .inl rfl⟩
  | cons b l ih =>
    have hb := (hl.ok b (by simp)).1
    unfold inOrder
    split
    · have h := ih hl.tail last cur
      exact ⟨h.last_le, h.handed, h.sorted, h.cur_eq, h.last_eq.imp id fun hlast =>
        hlast.imp fun c hc => ⟨by simp [hc.1], hc.2⟩⟩
    split
    · rename_i heq
      split
      · exact ⟨show last ≤ b.rupper by omega, by simp, .nil, .inr rfl, .inr ⟨b, by simp, rfl⟩⟩
      · have h := ih hl.tail b.rupper b.rupper
        have hlast : last ≤ b.rupper := by omega
        refine ⟨hlast.trans h.last_le, fun x hx => ?_, ?_, ?_, ?_⟩
        · rcases List.mem_cons.mp hx with rfl | hx
          · exact ⟨heq.ge, h.last_le⟩
          · have := h.handed x hx
            exact ⟨by omega, this.2⟩
        · exact List.pairwise_cons.mpr ⟨fun x hx => (h.handed x hx).1, h.sorted⟩
        · rcases h.cur_eq with ⟨h1, h2⟩ | h2
          · exact .inr (h2.trans h1.symm)
          · exact .inr h2
        · rcases h.last_eq with h1 | ⟨c, hc, h1⟩
          · exact .inr ⟨b, by simp, h1⟩
          · exact .inr ⟨c, by simp [hc], h1⟩
    · exact ⟨le_rfl, by simp, .nil, .inl ⟨rfl, rfl⟩, .inl rfl⟩

theorem inOrder_reaches {l : List Block} (hl : Ordered l) {last n : ℕ} (cur : ℕ)
    (hstart : last < n → ∃ w ∈ l, w.rseq = last)
    (hall : ∀ p < n, last ≤ p → HasData l p ∨
      ∃ w ∈ l, w.data = none ∧ w.rseq ≤ p ∧ p < w.rupper ∧ n ≤ w.rupper) :
    n ≤ (inOrder last cur l).2.1 := by
  by_cases hlast : n ≤ last
  · exact hlast.trans (inOrder_spec hl last cur).last_le
  induction l generalizing last cur with
  | nil =>
    obtain ⟨w, hw, -⟩ := hstart (by omega)
    simp at hw
  | cons b l ih =>
    have hb := (hl.ok b (by simp)).1
    have hle := hl.head_le
    obtain ⟨w, hw, hwlast⟩ := hstart (by omega)
    -- what holds of a position behind `b` holds of the rest of the blocks
    have hrest : ∀ p < n, b.rupper ≤ p → last ≤ p → HasData l p ∨
        ∃ w ∈ l, w.data = none ∧ w.rseq ≤ p ∧ p < w.rupper ∧ n ≤ w.rupper := by
      intro p hp hbp hlp
      rcases hall p hp hlp with hdata | ⟨c, hc, hcnone, hcp⟩
      · exact .inl ((hasData_cons.mp hdata).resolve_left (by omega))
      · rcases List.mem_cons.mp hc with rfl | hc
        · omega
        · exact .inr ⟨c, hc, hcnone, hcp⟩
    unfold inOrder
    split
    · rename_i hlt
      rcases List.mem_cons.mp hw with rfl | hw
      · omega
      · have hbl := hle w hw
        exact ih hl.tail cur (fun _ => ⟨w, hw, hwlast⟩)
          (fun p hp hlp => hrest p hp (by omega) hlp) hlast
    rename_i hnlt
    split
    · rename_i heq
      split
      · rename_i hnone
        rcases hall last (by omega) le_rfl with ⟨c, hc, hcdata, hcp⟩ | ⟨c, hc, -, hcp⟩
        · rcases List.mem_cons.mp hc with rfl | hc
          · exact absurd hnone hcdata
          · have := hle c hc
            omega
        · rcases List.mem_cons.mp hc with rfl | hc
          · exact hcp.2.2
          · have := hle c hc
            omega
      · by_cases hn : n ≤ b.rupper
        · exact hn.trans (inOrder_spec hl.tail b.rupper b.rupper).last_le
        refine ih hl.tail b.rupper (fun _ => ?_) (fun p hp hbp => hrest p hp hbp (by omega)) hn
        have hcover : Covered l b.rupper := by
          rcases hrest b.rupper (by omega) le_rfl (by omega) with h | ⟨c, hc, -, hcp⟩
          · exact h.covered
          · exact ⟨c, hc, hcp.1, hcp.2.1⟩
        obtain ⟨c, hc, hcp, -⟩ := hcover
        have := hle c hc
        exact ⟨c, hc, by omega⟩
    · rename_i hne
      rcases List.mem_cons.mp hw with rfl | hw
      · omega
      · have := hle w hw
        omega

/-- Once a new block of positions `r` to `u` is buffered, there is data for `p`, or a gap that
reaches to `cur`. -/
def Bridged (l : List Block) (r u : ℕ) (data : Option (List UInt8)) (cur p : ℕ) : Prop :=
  (Filled l r u data p ∧ u - r < 2 ^ 63) ∨
    (∃ w ∈ l, w.data = none ∧ w.rseq ≤ p ∧ p < w.rupper ∧ cur ≤ w.rupper) ∨
    (data = none ∧ ¬ Overlaps l r u ∧ r ≤ p ∧ p < u ∧ cur ≤ u)

/-- A block that does not lead back: the sequence numbers it has fit 64 bits; and if it makes
the sink look for what is in order, then no hole is left before the current position, as there
is behind a gap that has been reported. -/
def AheadBlock (s : SpicySink) (data : Option (List UInt8)) (r len : ℕ) : Prop :=
  (r = s.curRseq → s.chunks.first = none → r + len + s.initialSeq < 2 ^ 64) ∧
    (Enqueues s r len → upper s r len + s.initialSeq < 2 ^ 64 ∧
      (Arrives s.chunks.toList (max r s.trimRseq) (upper s r len) s.lastReassemRseq →
        ∀ p < s.curRseq, s.lastReassemRseq ≤ p →
          Bridged s.chunks.toList (max r s.trimRseq) (upper s r len) data s.curRseq p))

/-- A skip does not lead back. -/
def SkipsAhead (s : SpicySink) : Op → Prop
  | .skip seq => s.initialSeq + s.curRseq ≤ seq
  | _ => True

/-- An operation that does not close the sink, does not skip back, and adds no block that
leads back. -/
def Ahead (s : SpicySink) (op : Op) : Prop :=
  ¬ Closes s op ∧ SkipsAhead s op ∧ ∀ t ∈ op.block s, AheadBlock s t.1 t.2.1 t.2.2

instance (s : SpicySink) : (op : Op) → Decidable (SkipsAhead s op)
  | .skip _ => inferInstanceAs (Decidable (_ ≤ _))
  | .write _ _ => isTrue trivial
  | .append _ => isTrue trivial
  | .gap _ _ => isTrue trivial
  | .trim _ => isTrue trivial
  | .close => isTrue trivial

instance (s : SpicySink) : (op : Op) → Decidable (Closes s op)
  | .write _ _ => inferInstanceAs (Decidable (_ < _))
  | .append _ => isFalse id
  | .gap _ _ => inferInstanceAs (Decidable (_ < _))
  | .skip _ => inferInstanceAs (Decidable (_ < _))
  | .trim _ => inferInstanceAs (Decidable (_ < _))
  | .close => isTrue trivial

instance (l : List Block) (r u : ℕ) (data : Option (List UInt8)) (cur p : ℕ) :
    Decidable (Bridged l r u data cur p) :=
  inferInstanceAs (Decidable (_ ∨ (∃ w ∈ l, _) ∨ _))

instance (s : SpicySink) (data : Option (List UInt8)) (r len : ℕ) :
    Decidable (AheadBlock s data r len) :=
  inferInstanceAs (Decidable (_ ∧ _))

instance (s : SpicySink) (op : Op) : Decidable (Ahead s op) :=
  inferInstanceAs (Decidable (_ ∧ _))

section

variable {env : Env} {s s' : SpicySink}

/-- What a run that goes onward keeps: the blocks handed over so far end at
`last_reassem_rseq` or before, and all sequence numbers fit 64 bits. -/
structure Onward (s : SpicySink) (l : List (ℕ × Block)) (handed : List Block) : Prop where
  listed : Listed s l
  last_le : s.lastReassemRseq ≤ s.curRseq
  cur_lt : s.curRseq + s.initialSeq < 2 ^ 64
  rupper_lt : ∀ b ∈ vals l, b.rupper + s.initialSeq < 2 ^ 64
  handed_le : ∀ x ∈ handed, x.rupper ≤ s.lastReassemRseq
  sorted : handed.Pairwise fun x y => x.rupper ≤ y.rseq

theorem Onward.sequence_eq {l : List (ℕ × Block)} {handed : List Block} (h : Onward s l handed) :
    sinkSequence s = s.curRseq + s.initialSeq :=
  uint64_of_lt h.cur_lt

theorem pairwise_append_handed {xs ys : List Block} {n : ℕ}
    (hxs : xs.Pairwise fun x y => x.rupper ≤ y.rseq)
    (hys : ys.Pairwise fun x y => x.rupper ≤ y.rseq) (hx : ∀ x ∈ xs, x.rupper ≤ n)
    (hy : ∀ y ∈ ys, n ≤ y.rseq) : (xs ++ ys).Pairwise fun x y => x.rupper ≤ y.rseq :=
  List.pairwise_append.mpr ⟨hxs, hys, fun x hx' y hy' => (hx x hx').trans (hy y hy')⟩

/-- What a step does to the positions of a sink that goes onward. -/
structure StepsOn (s s' : SpicySink) (handed : List Block) : Prop where
  last_le : s.lastReassemRseq ≤ s'.lastReassemRseq
  cur_le : s.curRseq ≤ s'.curRseq
  last_le_cur : s'.lastReassemRseq ≤ s'.curRseq
  cur_lt : s'.curRseq + s.initialSeq < 2 ^ 64
  within : ∀ x ∈ handed, s.lastReassemRseq ≤ x.rseq ∧ x.rupper ≤ s'.lastReassemRseq
  sorted : handed.Pairwise fun x y => x.rupper ≤ y.rseq

theorem SafeBlock.noOverhang {data : Option (List UInt8)} {r len : ℕ} {l : List (ℕ × Block)}
    (h : SafeBlock s data r len) (hl : Listed s l) (henq : Enqueues s r len) :
    NoOverhang (vals l) (max r s.trimRseq) (upper s r len) data := by
  obtain ⟨hlen, hfast, htrim⟩ := henq
  rcases h with h | h | h | ⟨hfirst, -⟩ | ⟨hfirst, -, hno⟩
  · exact absurd h hlen
  · exact absurd h hfast
  · omega
  · obtain rfl := hl.first_eq_none.mp hfirst
    cases data with
    | some e => trivial
    | none => exact .inr (by simp)
  · rw [hl.represents.toList_eq] at hno
    rw [upper, if_neg hfirst]
    exact hno

theorem noOverhang_clip {l : List Block} {r u r' : ℕ} {data : Option (List UInt8)}
    (h : NoOverhang l r u data) : NoOverhang l r u (clip s data r') := by
  cases data with
  | some e => trivial
  | none => exact h

theorem Delivers.stepsOn {l handed : List Block} (hdel : Delivers s s' l handed)
    (hl : Ordered l) (hlast : s.lastReassemRseq ≤ s.curRseq)
    (hcur : s.curRseq + s.initialSeq < 2 ^ 64)
    (hbound : ∀ b ∈ l, b.rupper + s.initialSeq < 2 ^ 64)
    (hreach : s.curRseq ≤ s'.lastReassemRseq) : StepsOn s s' handed := by
  have hin : InOrder s.lastReassemRseq s.curRseq l
      (handed, s'.lastReassemRseq, s'.curRseq) := by
    rw [hdel.handed_eq, hdel.last_eq, hdel.cur_eq]
    exact inOrder_spec hl s.lastReassemRseq s.curRseq
  have hle := hin.last_le
  have hend : s'.lastReassemRseq + s.initialSeq < 2 ^ 64 := by
    rcases hin.last_eq with heq | ⟨b, hb, heq⟩
    · simp only at heq
      omega
    · have := hbound b hb
      simp only at heq
      omega
  simp only at hle
  rcases hin.cur_eq with ⟨h1, h2⟩ | h2
  · simp only at h1 h2
    exact ⟨by omega, by omega, by omega, by omega, hin.handed, hin.sorted⟩
  · simp only at h2
    exact ⟨by omega, by omega, by omega, by omega, hin.handed, hin.sorted⟩

theorem BlockStep.stepsOn {l : List (ℕ × Block)} {handed handed' : List Block} {r len : ℕ}
    {data : Option (List UInt8)} (hstep : BlockStep s s' (vals l) data r len handed)
    (h : Onward s l handed') (hsafe : SafeBlock s data r len) (hahead : AheadBlock s data r len) :
    StepsOn s s' handed := by
  obtain ⟨hnow, hlater⟩ := hahead
  have hlast := h.last_le
  have hcur := h.cur_lt
  cases hstep with
  | nothing hlast' hcur' => exact ⟨by omega, by omega, by omega, by omega, by simp, .nil⟩
  | data hdata hfast hlen hlast' hcur' =>
    have hlt := hnow hfast.1 hfast.2
    refine ⟨by omega, by omega, by omega, by omega, fun x hx => ?_, List.pairwise_singleton _ _⟩
    obtain rfl : x = _ := List.mem_singleton.mp hx
    exact ⟨show s.lastReassemRseq ≤ r by omega, hlast'.ge⟩
  | gap hdata hfast hlen hlast' hcur' =>
    have hlt := hnow hfast.1 hfast.2
    exact ⟨by omega, by omega, by omega, by omega, by simp, .nil⟩
  | reassembled henq hw hwlast harrives hdel =>
    obtain ⟨hupper, hhole⟩ := hlater henq
    rw [h.listed.represents.toList_eq] at hhole
    have hord : Ordered (insertBlock (vals l) (max r s.trimRseq) (upper s r len)
        (clip s data r)) :=
      insertBlock_ordered h.listed.ordered henq.lt_upper (by omega)
    have hbound : ∀ b ∈ insertBlock (vals l) (max r s.trimRseq) (upper s r len) (clip s data r),
        b.rupper + s.initialSeq < 2 ^ 64 := by
      intro b hb
      rcases insertBlock_rupper hb with hb | hb
      · exact h.rupper_lt b hb
      · omega
    refine hdel.stepsOn hord hlast hcur hbound ?_
    rw [hdel.last_eq]
    refine inOrder_reaches hord s.curRseq (fun _ => ⟨_, hw, hwlast⟩) fun p hp hlp => ?_
    rcases hhole harrives p hp hlp with ⟨hfill, hshort⟩ | ⟨w, hw, hgap⟩ | ⟨rfl, hno, hrp, hpu, hcu⟩
    · exact .inl (insertBlock_of_filled h.listed.ordered
        (noOverhang_clip (hsafe.noOverhang h.listed henq)) hshort (filled_clip.mpr hfill))
    · exact .inr ⟨w, mem_insertBlock hw, hgap⟩
    · exact .inr ⟨_, insertBlock_of_not_overlaps hno, rfl, hrp, hpu, hcu⟩

theorem Op.safeBlock {op : Op} {data : Option (List UInt8)} {r len : ℕ} (h : Safe s op)
    (hblock : op.block s = some (data, r, len)) : SafeBlock s data r len := by
  cases op with
  | write d seq =>
    by_cases hseq : s.initialSeq ≤ seq
    · simp only [Op.block, if_pos hseq, Option.some.injEq, Prod.mk.injEq] at hblock
      obtain ⟨rfl, rfl, rfl⟩ := hblock
      exact h hseq
    · simp [Op.block, hseq] at hblock
  | append d =>
    cases hblock
    exact h
  | gap seq n =>
    by_cases hseq : s.initialSeq ≤ seq
    · simp only [Op.block, if_pos hseq, Option.some.injEq, Prod.mk.injEq] at hblock
      obtain ⟨rfl, rfl, rfl⟩ := hblock
      exact h hseq
    · simp [Op.block, hseq] at hblock
  | skip seq => cases hblock
  | trim seq => cases hblock
  | close => cases hblock

theorem OpStep.stepsOn {l : List (ℕ × Block)} {handed handed' : List Block} {op : Op}
    (hstep : OpStep s s' (vals l) op handed) (h : Onward s l handed') (hrange : InRange s op)
    (hsafe : Safe s op) (hahead : Ahead s op) : StepsOn s s' handed := by
  obtain ⟨hopen, hskip, hblocks⟩ := hahead
  have hlast := h.last_le
  have hcur := h.cur_lt
  cases hstep with
  | block hblock hstep => exact hstep.stepsOn h (Op.safeBlock hsafe hblock) (hblocks _ hblock)
  | @skip t seq l' handed hseq hlast' hcur' hgives hsub hdel =>
    have hle : s.initialSeq + s.curRseq ≤ seq := hskip
    have hseq' : seq < 2 ^ 64 := hrange
    have hord : Ordered l' :=
      ⟨fun b hb => h.listed.ordered.ok b (hsub.subset hb), h.listed.ordered.sorted.sublist hsub⟩
    have hin : t.initialSeq = s.initialSeq := hgives.initialSeq_eq
    have hge : t.lastReassemRseq ≤ s'.lastReassemRseq := by
      rw [hdel.last_eq]
      exact (inOrder_spec hord _ _).last_le
    have hon := hdel.stepsOn hord (by omega) (by omega)
      (fun b hb => hin ▸ h.rupper_lt b (hsub.subset hb)) (by omega)
    have h1 := hon.cur_le
    have h2 := hon.cur_lt
    refine ⟨by omega, by omega, hon.last_le_cur, by omega, fun x hx => ?_, hon.sorted⟩
    have := hon.within x hx
    exact ⟨by omega, this.2⟩
  | trim hseq hlast' hcur' => exact ⟨by omega, by omega, by omega, by omega, by simp, .nil⟩
  | closed hop => exact absurd hop hopen

theorem Onward.step {l : List (ℕ × Block)} {handed : List Block} {fuel : ℕ} {op : Op}
    (h : Onward s l handed) (hrange : InRange s op) (hsafe : Safe s op) (hahead : Ahead s op)
    (hf : 4 * l.length + 10 ≤ fuel) (hrun : perform env fuel op s = some s') :
    s.curRseq ≤ s'.curRseq ∧ Gives s s' (handedBy env fuel op s) ∧
      (∀ x ∈ handedBy env fuel op s, x.Fits) ∧
      ∃ l', Onward s' l' (handed ++ handedBy env fuel op s) := by
  obtain ⟨hstep, hgives, hfits, l', hl', hbound⟩ := perform_listed h.listed op hrange hsafe hf hrun
  have hon := hstep.stepsOn h hrange hsafe hahead
  have hinit := hgives.initialSeq_eq
  refine ⟨hon.cur_le, hgives, hfits, l', hl', hon.last_le_cur, hinit ▸ hon.cur_lt, fun b hb => ?_,
    fun x hx => ?_, ?_⟩
  · rw [hinit]
    rcases hbound b hb with hb | ⟨t, ht, henq, hle⟩
    · exact h.rupper_lt b hb
    · have := ((hahead.2.2 t ht).2 henq).1
      omega
  · rcases List.mem_append.mp hx with hx | hx
    · exact (h.handed_le x hx).trans hon.last_le
    · exact (hon.within x hx).2
  · exact pairwise_append_handed h.sorted hon.sorted h.handed_le fun y hy => (hon.within y hy).1

theorem run_onward {start : SpicySink} (ops : List Op) :
    ∀ (s : SpicySink) (l : List (ℕ × Block)) (handed : List Block), Onward s l handed →
      (machine env start).Along (fun s op => (InRange s op ∧ Safe s op) ∧ Ahead s op) s ops →
      (machine env start).run s ops = some s' →
      s.curRseq ≤ s'.curRseq ∧ s'.initialSeq = s.initialSeq ∧
        (∀ x ∈ handedAlong env s ops, x.Fits) ∧
        ∃ l', Onward s' l' (handed ++ handedAlong env s ops) := by
  induction ops with
  | nil =>
    intro s l handed h _ hrun
    cases hrun
    refine ⟨le_rfl, rfl, by simp [handedAlong], l, ?_⟩
    rw [handedAlong, List.append_nil]
    exact h
  | cons op ops ih =>
    intro s l handed h halong hrun
    obtain ⟨⟨⟨hrange, hsafe⟩, hahead⟩, hnext⟩ := halong
    obtain ⟨s₁, hperform, hrun⟩ := Option.bind_eq_some_iff.mp hrun
    have hlen := h.listed.represents.length_le
    obtain ⟨hcur, hgives, hfits, l₁, h₁⟩ := h.step hrange hsafe hahead
      (show _ ≤ opFuel s by unfold opFuel; omega) hperform
    obtain ⟨hcur', hinit, hfits', l', h'⟩ := ih s₁ l₁ _ h₁ (hnext s₁ hperform) hrun
    rw [handedAlong_cons ops hperform]
    refine ⟨hcur.trans hcur', hinit.trans hgives.initialSeq_eq, fun x hx => ?_, l', ?_⟩
    · rcases List.mem_append.mp hx with hx | hx
      · exact hfits x hx
      · exact hfits' x hx
    · rw [← List.append_assoc]
      exact h'

end

/-- In a run of operations that all lead ahead, the sequence number of a sink never decreases,
and every byte that is delivered comes from a later position than those before it. -/
theorem sequence_monotone (env : Env) (initialSeq : ℕ) (hinit : initialSeq < 2 ^ 64)
    (ids : List ℕ) (before later : List Op) (s s' : SpicySink)
    (hbefore : (machine env (sinkNew initialSeq ids)).run (sinkNew initialSeq ids) before = some s)
    (hlater : (machine env (sinkNew initialSeq ids)).run s later = some s')
    (hops : (machine env (sinkNew initialSeq ids)).Along
      (fun s op => (InRange s op ∧ Safe s op) ∧ Ahead s op)
      (sinkNew initialSeq ids) (before ++ later)) :
    sinkSequence s ≤ sinkSequence s' ∧
      (handedAlong env (sinkNew initialSeq ids) (before ++ later)).Pairwise
        (fun x y => ∀ p q, x.HasByte p → y.HasByte q → p < q) ∧
      Hands ids (handedAlong env (sinkNew initialSeq ids) (before ++ later))
        (deliveries s'.log) := by
  have hnew : Onward (sinkNew initialSeq ids) [] [] :=
    ⟨sinkNew_listed initialSeq ids, le_rfl, by simpa [sinkNew] using hinit, by simp, by simp, .nil⟩
  obtain ⟨hops₁, hops₂⟩ := Machine.along_append hops
  obtain ⟨-, hinit₁, -, l, h⟩ := run_onward before _ _ _ hnew hops₁ hbefore
  obtain ⟨hcur, hinit₂, -, l', h'⟩ := run_onward later _ _ _ h (hops₂ s hbefore) hlater
  have hall : (machine env (sinkNew initialSeq ids)).run (sinkNew initialSeq ids)
      (before ++ later) = some s' := by
    rw [Machine.run_append, hbefore]
    exact hlater
  obtain ⟨-, -, hfits, l'', h''⟩ := run_onward (before ++ later) _ _ _ hnew hops hall
  refine ⟨?_, ?_, ?_⟩
  · rw [h.sequence_eq, h'.sequence_eq]
    omega
  · refine h''.sorted.imp_of_mem fun {x y} hx hy hle p q hp hq => ?_
    have hp' := (hfits x hx).lt_rupper hp
    obtain ⟨-, -, hq', -⟩ := hq
    omega
  · obtain ⟨hgives, -⟩ := run_listed (before ++ later) _ _ (sinkNew_listed initialSeq ids)
      (hops.imp fun _ _ h => h.1) hall
    obtain ⟨ds, hlog, hhands⟩ := hgives.hands rfl
    have hnil : deliveries (sinkNew initialSeq ids).log = [] := rfl
    have hids : Sink.ids (sinkNew initialSeq ids) = ids := by
      simp [Sink.ids, sinkNew, Function.comp_def]
    rw [hnil, List.nil_append] at hlog
    rw [hids] at hhands
    rw [hlog]
    exact hhands

/-- Data out of order, a gap that is skipped, and data behind it. -/
theorem sequence_monotone_skipped_gap :
    let new := sinkNew 10 [1]
    ∃ s s', (machine waitingEnv new).run new [.write [3, 4] 12, .gap 14 2, .write [1, 2] 10] =
        some s ∧
      (machine waitingEnv new).run s [.skip 16, .append [5], .trim 12] = some s' ∧
      sinkSequence s ≤ sinkSequence s' := by
  refine ⟨_, _, rfl, rfl, ?_⟩
  exact (sequence_monotone waitingEnv 10 (by norm_num) [1]
    [.write [3, 4] 12, .gap 14 2, .write [1, 2] 10] [.skip 16, .append [5], .trim 12] _ _ rfl rfl
    (by decide)).1

/-- A skip leads back, and the position is delivered again; and data for a gap that has been
reported leads back. -/
theorem sequence_decreases :
    let new := sinkNew 0 [1]
    (∃ s s', (machine waitingEnv new).run new [.append [1]] = some s ∧
      (machine waitingEnv new).run s [.skip 0] = some s' ∧ sinkSequence s' < sinkSequence s ∧
      handedAlong waitingEnv new [.append [1], .skip 0, .append [1]] =
        [⟨0, 1, some [1]⟩, ⟨0, 1, some [1]⟩]) ∧
    ∃ s s', (machine waitingEnv new).run new [.gap 0 5] = some s ∧
      (machine waitingEnv new).run s [.write [1] 0] = some s' ∧
      sinkSequence s' < sinkSequence s := by
  refine ⟨⟨_, _, rfl, rfl, ?_, ?_⟩, ⟨_, _, rfl, rfl, ?_⟩⟩
  · decide
  · decide
  · decide

end Hilti.Sink
