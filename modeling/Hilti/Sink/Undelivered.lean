import Hilti.Sink.Skip

/-!
# What a skip reports

A skip reports the data that it passes over as undelivered: `__report_undelivered_up_to` walks
the chunks that start before the new position and cuts the one that lies across it, and
`__trim` reports chunks once more when it drops them.  The report is compared, byte by byte,
with what is buffered below the new position and was not delivered.
-/

namespace Hilti.Sink

open Hilti.Lib Hilti.Lib.LinkedList

set_option autoImplicit false

/-! ## Parts of blocks -/

/-- The bytes that `f` takes from each block, with their positions when they are the first ones
of the block. -/
def positionedBy (f : Block → List UInt8) (l : List Block) : List (UInt8 × ℕ) :=
  l.flatMap fun b => (f b).zipIdx b.rseq

section

variable {b : Block} {l : List Block} {f g : Block → List UInt8} {r : ℕ}

theorem positionedBy_cons (f : Block → List UInt8) (b : Block) (l : List Block) :
    positionedBy f (b :: l) = (f b).zipIdx b.rseq ++ positionedBy f l :=
  List.flatMap_cons

theorem mem_positionedBy {y : UInt8 × ℕ} (hl : ∀ b ∈ l, (f b).length ≤ b.rupper - b.rseq)
    (hy : y ∈ positionedBy f l) : ∃ b ∈ l, b.rseq ≤ y.2 ∧ y.2 < b.rupper := by
  obtain ⟨b, hb, hy⟩ := List.mem_flatMap.mp hy
  have hlow := List.le_snd_of_mem_zipIdx hy
  have hhigh := List.snd_lt_add_of_mem_zipIdx hy
  have hlen := hl b hb
  exact ⟨b, hb, hlow, by omega⟩

theorem Block.Fits.length_le (hb : b.Fits) : (b.data.getD []).length ≤ b.rupper - b.rseq := by
  cases hd : b.data with
  | none => simp
  | some d =>
    have := hb d hd
    simp only [Option.getD_some]
    omega

theorem positionedBy_filter (hl : Ordered l) (hf : ∀ b ∈ l, (f b).length ≤ b.rupper - b.rseq)
    (hb : b ∈ l) :
    (positionedBy f l).filter (fun y => b.rseq ≤ y.2 ∧ y.2 < b.rupper) =
      (f b).zipIdx b.rseq := by
  induction l with
  | nil => simp at hb
  | cons c l ih =>
    have hle := hl.head_le
    have hf' : ∀ d ∈ l, (f d).length ≤ d.rupper - d.rseq := fun d hd => hf d (by simp [hd])
    have hc : ∀ y ∈ (f c).zipIdx c.rseq, c.rseq ≤ y.2 ∧ y.2 < c.rupper := by
      intro y hy
      have hlow := List.le_snd_of_mem_zipIdx hy
      have hhigh := List.snd_lt_add_of_mem_zipIdx hy
      have hlen := hf c (by simp)
      omega
    rw [positionedBy_cons, List.filter_append]
    rcases List.mem_cons.mp hb with rfl | hmem
    · have hkeep : ((f b).zipIdx b.rseq).filter (fun y => b.rseq ≤ y.2 ∧ y.2 < b.rupper) =
          (f b).zipIdx b.rseq := by
        rw [List.filter_eq_self]
        intro y hy
        simpa using hc y hy
      have hdrop : (positionedBy f l).filter (fun y => b.rseq ≤ y.2 ∧ y.2 < b.rupper) = [] := by
        rw [List.filter_eq_nil_iff]
        intro y hy
        obtain ⟨d, hd, hlow, -⟩ := mem_positionedBy hf' hy
        have := hle d hd
        simp only [decide_eq_true_eq, not_and, not_lt]
        omega
      rw [hkeep, hdrop, List.append_nil]
    · have hdrop : ((f c).zipIdx c.rseq).filter (fun y => b.rseq ≤ y.2 ∧ y.2 < b.rupper) = [] := by
        rw [List.filter_eq_nil_iff]
        intro y hy
        have h1 := hc y hy
        have h2 := hle b hmem
        simp only [decide_eq_true_eq, not_and, not_lt]
        omega
      rw [hdrop, List.nil_append]
      exact ih hl.tail hf' hmem

theorem zipIdx_filter_lt (d : List UInt8) (q r : ℕ) :
    (d.zipIdx q).filter (fun y => y.2 < r) = (d.take (r - q)).zipIdx q := by
  induction d generalizing q with
  | nil => simp
  | cons x d ih =>
    rw [List.zipIdx_cons]
    by_cases hq : q < r
    · rw [List.filter_cons_of_pos (by simpa using hq), ih,
        show r - q = r - (q + 1) + 1 by omega, List.take_succ_cons, List.zipIdx_cons]
    · rw [List.filter_cons_of_neg (by simpa using hq), ih, show r - q = 0 by omega,
        show r - (q + 1) = 0 by omega]
      rfl

theorem positioned_filter (p : Block → Bool) (l : List Block) (r : ℕ) :
    (positioned (l.filter p)).filter (fun y => y.2 < r) =
      positionedBy (fun b => if p b then (b.data.getD []).take (r - b.rseq) else []) l := by
  induction l with
  | nil => rfl
  | cons b l ih =>
    rw [positionedBy_cons]
    by_cases hp : p b
    · rw [List.filter_cons_of_pos hp, positioned_cons, List.filter_append, ih, zipIdx_filter_lt,
        if_pos hp]
    · rw [List.filter_cons_of_neg hp, ih, if_neg hp]
      rfl

theorem positionedBy_perm {h : Block → List UInt8} (hl : Ordered l) (hfits : ∀ b ∈ l, b.Fits)
    (hf : ∀ b ∈ l, f b <+: b.data.getD []) (hh : ∀ b ∈ l, h b <+: b.data.getD [])
    (hg : ∀ b ∈ l, g b = [] ∨ g b = b.data.getD []) :
    (positionedBy f l ++ positionedBy g l).Perm (positionedBy h l) ↔
      ∀ b ∈ l, (f b).length + (g b).length = (h b).length := by
  have hlen : ∀ b ∈ l, (b.data.getD []).length ≤ b.rupper - b.rseq :=
    fun b hb => (hfits b hb).length_le
  have hgpre : ∀ b ∈ l, g b <+: b.data.getD [] := by
    intro b hb
    rcases hg b hb with heq | heq
    · rw [heq]
      exact List.nil_prefix
    · rw [heq]
  constructor
  · intro hperm b hb
    have hb' := (hperm.filter fun y => b.rseq ≤ y.2 ∧ y.2 < b.rupper).length_eq
    rw [List.filter_append,
      positionedBy_filter hl (fun c hc => (hf c hc).length_le.trans (hlen c hc)) hb,
      positionedBy_filter hl (fun c hc => (hgpre c hc).length_le.trans (hlen c hc)) hb,
      positionedBy_filter hl (fun c hc => (hh c hc).length_le.trans (hlen c hc)) hb] at hb'
    simpa using hb'
  · intro hcount
    refine (List.flatMap_append_perm l _ _).trans (List.Perm.flatMap_left l fun b hb => ?_)
    have hsum := hcount b hb
    rcases hg b hb with heq | heq
    · -- the second part is empty
      rw [heq, List.length_nil, Nat.add_zero] at hsum
      have hsame : f b = h b :=
        (List.prefix_of_prefix_length_le (hf b hb) (hh b hb) hsum.le).eq_of_length hsum
      rw [heq, hsame, List.zipIdx_nil, List.append_nil]
    · -- the second part is the whole data
      have hle := (hh b hb).length_le
      rw [heq] at hsum
      have hnil : f b = [] := List.length_eq_zero_iff.mp (by omega)
      have hall : h b = b.data.getD [] := (hh b hb).eq_of_length (by omega)
      rw [hnil, heq, hall, List.zipIdx_nil, List.nil_append]

end

/-! ## Reports -/

/-- What a log reports as undelivered, with the sequence number of the first byte. -/
def undeliveredOf (log : List Event) : List (ℕ × List UInt8) :=
  log.filterMap fun e => match e with
    | .undelivered seq d => some (seq, d)
    | _ => none

/-- The bytes of reports, each with its own sequence number. -/
def numbered (es : List (ℕ × List UInt8)) : List (UInt8 × ℕ) :=
  es.flatMap fun e => (e.2.zipIdx e.1).map fun y => (y.1, uint64 y.2)

/-- A byte with the sequence number of its position. -/
def withSequence (initialSeq : ℕ) (y : UInt8 × ℕ) : UInt8 × ℕ :=
  (y.1, uint64 (y.2 + initialSeq))

/-- One report for each block of which `f` takes some part. -/
def reports (initialSeq : ℕ) (f : Block → Option (List UInt8)) (l : List Block) :
    List (ℕ × List UInt8) :=
  l.filterMap fun b => (f b).map fun d => (uint64 (b.rseq + initialSeq), d)

/-- The part of a block that `__report_undelivered_up_to` reports. -/
def reportedUpTo (r : ℕ) (b : Block) : Option (List UInt8) :=
  if b.rseq < r then
    b.data.map fun d => if b.rupper ≤ r then d else bytesTake (int64 (sub64 b.rupper r)) d
  else none

/-- The part of a block that `__trim` reports. -/
def reportedByTrim (cur r : ℕ) (b : Block) : Option (List UInt8) :=
  if b.rupper ≤ r ∧ b.rupper < cur then b.data else none

theorem undeliveredOf_append (l l' : List Event) :
    undeliveredOf (l ++ l') = undeliveredOf l ++ undeliveredOf l' :=
  List.filterMap_append

theorem zipIdx_withSequence (d : List UInt8) (q initialSeq : ℕ) :
    (d.zipIdx (uint64 (q + initialSeq))).map (fun y => (y.1, uint64 y.2)) =
      (d.zipIdx q).map (withSequence initialSeq) := by
  rw [List.zipIdx_eq_map_add, List.zipIdx_eq_map_add (i := q), List.map_map, List.map_map]
  refine List.map_congr_left fun y _ => ?_
  simp only [Function.comp_apply, withSequence, uint64, Prod.mk.injEq, true_and]
  omega

theorem numbered_append (es es' : List (ℕ × List UInt8)) :
    numbered (es ++ es') = numbered es ++ numbered es' :=
  List.flatMap_append

theorem numbered_reports (initialSeq : ℕ) (f : Block → Option (List UInt8)) (l : List Block) :
    numbered (reports initialSeq f l) =
      (positionedBy (fun b => (f b).getD []) l).map (withSequence initialSeq) := by
  induction l with
  | nil => rfl
  | cons b l ih =>
    rw [positionedBy_cons, List.map_append, ← ih, ← zipIdx_withSequence]
    unfold reports
    cases hb : f b with
    | none => simp [hb]
    | some d =>
      rw [List.filterMap_cons, hb]
      rfl

theorem withSequence_perm {initialSeq : ℕ} {xs ys : List (UInt8 × ℕ)}
    (hxs : ∀ y ∈ xs, y.2 < 2 ^ 64) (hys : ∀ y ∈ ys, y.2 < 2 ^ 64) :
    (xs.map (withSequence initialSeq)).Perm (ys.map (withSequence initialSeq)) ↔ xs.Perm ys := by
  have hback : ∀ zs : List (UInt8 × ℕ), (∀ y ∈ zs, y.2 < 2 ^ 64) →
      (zs.map (withSequence initialSeq)).map (fun y => (y.1, sub64 y.2 (uint64 initialSeq))) =
        zs := by
    intro zs hzs
    rw [List.map_map]
    refine (List.map_congr_left fun y hy => ?_).trans (List.map_id zs)
    have hlt := hzs y hy
    simp only [Function.comp_apply, withSequence, sub64, uint64, id]
    refine Prod.ext rfl ?_
    simp only
    omega
  constructor
  · intro h
    have := h.map fun y : UInt8 × ℕ => (y.1, sub64 y.2 (uint64 initialSeq))
    rwa [hback xs hxs, hback ys hys] at this
  · exact fun h => h.map _

section

variable {env : Env} {s s' : SpicySink}

theorem reports_cons_none {initialSeq : ℕ} {f : Block → Option (List UInt8)} {b : Block}
    (l : List Block) (h : f b = none) : reports initialSeq f (b :: l) = reports initialSeq f l := by
  simp [reports, h]

theorem reports_cons_some {initialSeq : ℕ} {f : Block → Option (List UInt8)} {b : Block}
    (l : List Block) {d : List UInt8} (h : f b = some d) :
    reports initialSeq f (b :: l) =
      (uint64 (b.rseq + initialSeq), d) :: reports initialSeq f l := by
  simp [reports, h]

theorem reports_eq_nil {initialSeq : ℕ} {f : Block → Option (List UInt8)} {l : List Block}
    (h : ∀ b ∈ l, f b = none) : reports initialSeq f l = [] := by
  rw [reports, List.filterMap_eq_nil_iff]
  intro b hb
  rw [h b hb]
  rfl

theorem undeliveredOf_report (q : ℕ) (d : List UInt8) (s : SpicySink) :
    undeliveredOf (reportUndelivered env q d s).log =
      undeliveredOf s.log ++ [(uint64 (q + s.initialSeq), d)] :=
  undeliveredOf_append _ _

theorem reportUndeliveredUpTo_log (r : ℕ) (suf : List (ℕ × Block)) :
    ∀ (pre : List (ℕ × Block)) (fuel : ℕ) (s : SpicySink), s.chunks.Represents (pre ++ suf) →
    Ordered (vals suf) → reportUndeliveredUpTo env r fuel (headAddr suf none) s = some s' →
    undeliveredOf s'.log =
      undeliveredOf s.log ++ reports s.initialSeq (reportedUpTo r) (vals suf) := by
  induction suf with
  | nil =>
    intro pre fuel s h _ hrun
    cases fuel with
    | zero => cases hrun
    | succ fuel =>
      cases hrun
      simp [reports]
  | cons e suf ih =>
    intro pre fuel s h hord hrun
    obtain ⟨a, b⟩ := e
    have hcell := h.heap_eq
    have hb := (hord.ok b (by simp)).1
    have h' : s.chunks.Represents ((pre ++ [(a, b)]) ++ suf) := by simpa using h
    cases fuel with
    | zero => cases hrun
    | succ fuel =>
      change undeliveredOf s'.log =
        undeliveredOf s.log ++ reports s.initialSeq (reportedUpTo r) (b :: vals suf)
      by_cases hlt : b.rseq < r
      · cases hd : b.data with
        | none =>
          have hstep : reportUndeliveredUpTo env r (fuel + 1) (headAddr ((a, b) :: suf) none) s =
              reportUndeliveredUpTo env r fuel (headAddr suf none) s := by
            simp only [headAddr, reportUndeliveredUpTo, hcell, Option.bind_eq_bind,
              Option.bind_some, if_pos hlt, hd]
          rw [hstep] at hrun
          rw [reports_cons_none _ (by simp [reportedUpTo, hd])]
          exact ih (pre ++ [(a, b)]) fuel s h' hord.tail hrun
        | some d =>
          have hstep : reportUndeliveredUpTo env r (fuel + 1) (headAddr ((a, b) :: suf) none) s =
              reportUndeliveredUpTo env r fuel (headAddr suf none) (reportUndelivered env b.rseq
                (if b.rupper ≤ r then d else bytesTake (int64 (sub64 b.rupper r)) d) s) := by
            simp only [headAddr, reportUndeliveredUpTo, hcell, Option.bind_eq_bind,
              Option.bind_some, if_pos hlt, hd]
          rw [hstep] at hrun
          have hrest := ih (pre ++ [(a, b)]) fuel (reportUndelivered env b.rseq
            (if b.rupper ≤ r then d else bytesTake (int64 (sub64 b.rupper r)) d) s) h' hord.tail hrun
          rw [reports_cons_some _ (by rw [reportedUpTo, if_pos hlt, hd, Option.map_some]), hrest,
            undeliveredOf_report, List.append_assoc]
          rfl
      · -- the chunks behind it come after the position as well
        have hstep : reportUndeliveredUpTo env r (fuel + 1) (headAddr ((a, b) :: suf) none) s =
            some s := by
          simp only [headAddr, reportUndeliveredUpTo, hcell, Option.bind_eq_bind,
            Option.bind_some, if_neg hlt]
        rw [hstep] at hrun
        cases hrun
        rw [reports_eq_nil, List.append_nil]
        intro c hc
        refine if_neg ?_
        rcases List.mem_cons.mp hc with rfl | hc
        · exact hlt
        · have : b.rupper ≤ c.rseq := hord.head_le c hc
          omega

theorem trimLoop_log (r : ℕ) (l : List (ℕ × Block)) : ∀ (fuel : ℕ) (s : SpicySink),
    s.chunks.Represents l → Ordered (vals l) → trimLoop env r fuel s.chunks.first s = some s' →
    undeliveredOf s'.log =
      undeliveredOf s.log ++ reports s.initialSeq (reportedByTrim s.curRseq r) (vals l) := by
  induction l with
  | nil =>
    intro fuel s h _ hrun
    have hfirst : s.chunks.first = none := h.first_eq
    rw [hfirst] at hrun
    cases fuel with
    | zero => cases hrun
    | succ fuel =>
      cases hrun
      simp [reports]
  | cons e l ih =>
    intro fuel s h hord hrun
    obtain ⟨a, b⟩ := e
    have hfirst : s.chunks.first = some a := h.first_eq
    have hcell : s.chunks.heap a = some ⟨headAddr l none, none, b⟩ := h.chain.1
    rw [hfirst] at hrun
    cases fuel with
    | zero => cases hrun
    | succ fuel =>
      simp only [trimLoop, hcell, Option.bind_eq_bind, Option.bind_some] at hrun
      change undeliveredOf s'.log =
        undeliveredOf s.log ++ reports s.initialSeq (reportedByTrim s.curRseq r) (b :: vals l)
      split at hrun
      · -- the chunks behind it end later as well
        rename_i hlt
        cases hrun
        rw [reports_eq_nil, List.append_nil]
        intro c hc
        refine if_neg ?_
        rcases List.mem_cons.mp hc with rfl | hmem
        · omega
        · have : b.rupper ≤ c.rseq := hord.head_le c hmem
          have := (hord.ok c (by simp [hmem])).1
          omega
      · rename_i hle
        obtain ⟨L, hremove, hrep, -⟩ := h.remove_first
        cases hd : b.data with
        | none =>
          simp only [hd, hremove, Option.bind_some] at hrun
          rw [reports_cons_none _ (by simp [reportedByTrim, hd])]
          rw [← (show (L.free a).first = headAddr l none from hrep.first_eq)] at hrun
          exact ih fuel { s with chunks := L.free a } hrep hord.tail hrun
        | some d =>
          by_cases hcur : b.rupper < s.curRseq
          · simp only [hd, if_pos hcur] at hrun
            rw [reports_cons_some _ (by rw [reportedByTrim, if_pos ⟨not_lt.mp hle, hcur⟩, hd])]
            simp only [reportUndelivered, report, hremove, Option.bind_some] at hrun
            rw [← (show (L.free a).first = headAddr l none from hrep.first_eq)] at hrun
            have hrest :=
              ih fuel { reportUndelivered env b.rseq d s with chunks := L.free a } hrep hord.tail hrun
            rw [hrest]
            change undeliveredOf (reportUndelivered env b.rseq d s).log ++ _ = _
            rw [undeliveredOf_report, List.append_assoc]
            rfl
          · simp only [hd, if_neg hcur, hremove, Option.bind_some] at hrun
            rw [reports_cons_none _ (if_neg fun hboth => hcur hboth.2)]
            rw [← (show (L.free a).first = headAddr l none from hrep.first_eq)] at hrun
            exact ih fuel { s with chunks := L.free a } hrep hord.tail hrun

/-! ## Delivery does not report -/

theorem deliverLoop_undelivered {data : List UInt8} {aborted : Bool} (fuel : ℕ) :
    ∀ (i : ℕ) (s : SpicySink), deliverLoop env data fuel i s = some (s', aborted) →
      undeliveredOf s'.log = undeliveredOf s.log := by
  induction fuel with
  | zero =>
    intro i s h
    cases h
  | succ fuel ih =>
    intro i s h
    rw [deliverLoop] at h
    split at h
    · cases h
      rfl
    · rename_i p hp
      have hlog : undeliveredOf (s.log ++ [Event.deliver p.id data]) = undeliveredOf s.log := by
        rw [undeliveredOf_append]
        exact List.append_nil _
      split at h
      · exact ih _ _ h
      · split at h
        · exact ih _ _ h
        · simp only at h
          split at h
          · exact (ih _ _ h).trans hlog
          · exact (ih _ _ h).trans hlog
          · exact (ih _ _ h).trans hlog
          · cases h
            exact hlog

theorem feed_undelivered {fuel : ℕ} {data : List UInt8} (h : feed env fuel data s = some s') :
    undeliveredOf s'.log = undeliveredOf s.log := by
  unfold feed at h
  simp only at h
  split at h
  · cases h
    rfl
  split at h
  · cases h
    rfl
  obtain ⟨⟨s₁, aborted⟩, h₁, h⟩ := Option.bind_eq_some_iff.mp h
  have hloop := deliverLoop_undelivered fuel 0 _ h₁
  simp only at h
  split at h
  · cases h
    exact hloop
  · rw [(finishDisconnected_log fuel s₁ h).2.1]
    exact hloop

theorem deliverData_undelivered {fuel : ℕ} {data : List UInt8}
    (h : deliverData env fuel data s = some s') : undeliveredOf s'.log = undeliveredOf s.log := by
  rw [deliverData_eq] at h
  split at h
  · exact feed_undelivered h
  · split at h
    · cases h
      rfl
    · have hfeed := feed_undelivered h
      exact hfeed

variable (env) in
theorem reportGap_undelivered (r len : ℕ) (s : SpicySink) :
    undeliveredOf (reportGap env r len s).log = undeliveredOf s.log := by
  change undeliveredOf (s.log ++ [_]) = _
  rw [undeliveredOf_append]
  exact List.append_nil _

theorem deliverChunk_untrimmed {fuel : ℕ} {b : Block} {delivered : Bool}
    (hrun : deliverChunk env fuel b s = some (s', delivered)) (hauto : s.autoTrim = false) :
    undeliveredOf s'.log = undeliveredOf s.log ∧ s'.autoTrim = false := by
  have hkeep : ∀ (t : SpicySink) {r : ℕ} {d : Bool},
      (if t.autoTrim then (trim env fuel r t).bind fun s => some (s, d) else some (t, d)) =
        some (s', delivered) → t.autoTrim = false → s' = t := by
    intro t r d h hauto
    rw [if_neg (by simp [hauto])] at h
    cases h
    rfl
  cases hb : b.data with
  | some data =>
    simp only [deliverChunk, hb] at hrun
    obtain ⟨s₁, h₁, hrun⟩ := Option.bind_eq_some_iff.mp hrun
    have hauto₁ : s₁.autoTrim = false := (deliverData_parsed h₁).autoTrim_eq.trans hauto
    obtain rfl := hkeep { s₁ with curRseq := b.rupper, lastReassemRseq := b.rupper } hrun hauto₁
    have hlog := deliverData_undelivered h₁
    exact ⟨hlog, hauto₁⟩
  | none =>
    simp only [deliverChunk, hb] at hrun
    split at hrun
    · obtain rfl := hkeep { reportGap env b.rseq (sub64 b.rupper b.rseq) s with
        curRseq := b.rupper } hrun hauto
      exact ⟨reportGap_undelivered env _ _ s, hauto⟩
    · cases hrun
      exact ⟨rfl, hauto⟩

theorem deliverChunk_undelivered {fuel : ℕ} {l : List (ℕ × Block)} {b : Block} {delivered : Bool}
    (hrun : deliverChunk env fuel b s = some (s', delivered)) (h : s.chunks.Represents l)
    (hord : Ordered (vals l)) (hb : b.Ok) (hfirst : ∀ c ∈ vals l, b.rupper ≤ c.rupper) :
    undeliveredOf s'.log = undeliveredOf s.log := by
  have htrim : ∀ (t : SpicySink) {r : ℕ} {d : Bool},
      (if t.autoTrim then (trim env fuel r t).bind fun s => some (s, d) else some (t, d)) =
        some (s', delivered) →
      t.chunks.Represents l → (∀ c ∈ vals l, r ≤ c.rupper) → (t.curRseq ≤ r ∨
        ∀ c ∈ vals l, r < c.rupper) → undeliveredOf s'.log = undeliveredOf t.log := by
    intro t r d hrun hrep hle hcur
    split at hrun
    · obtain ⟨t₁, htrim, heq⟩ := Option.bind_eq_some_iff.mp hrun
      cases heq
      obtain ⟨t₂, hloop, heq⟩ := Option.bind_eq_some_iff.mp htrim
      cases heq
      refine (trimLoop_log r l fuel t hrep hord hloop).trans ?_
      rw [reports_eq_nil, List.append_nil]
      intro c hc
      refine if_neg ?_
      have := hle c hc
      rcases hcur with hcur | hall
      · omega
      · have := hall c hc
        omega
    · cases hrun
      rfl
  cases hd : b.data with
  | some data =>
    simp only [deliverChunk, hd] at hrun
    obtain ⟨s₁, h₁, hrun⟩ := Option.bind_eq_some_iff.mp hrun
    have hrep : s₁.chunks.Represents l := (deliverData_parsed h₁).chunks_eq ▸ h
    have hlog := deliverData_undelivered h₁
    exact (htrim { s₁ with curRseq := b.rupper, lastReassemRseq := b.rupper } hrun hrep hfirst
      (.inl le_rfl)).trans hlog
  | none =>
    simp only [deliverChunk, hd] at hrun
    split at hrun
    · have hbok := hb.1
      refine (htrim { reportGap env b.rseq (sub64 b.rupper b.rseq) s with curRseq := b.rupper } hrun
        h (fun c hc => ?_) (.inr fun c hc => ?_)).trans (reportGap_undelivered env _ _ s)
      · have := hfirst c hc
        omega
      · have := hfirst c hc
        omega
    · cases hrun
      rfl

theorem tryDeliver_chunk {fuel c : ℕ} {cell : Cell Block} (hcell : s.chunks.heap c = some cell) :
    tryDeliver env (fuel + 1) (some c) s =
      if cell.val.rseq ≤ s.lastReassemRseq then
        if cell.val.rseq = s.lastReassemRseq then
          (deliverChunk env fuel cell.val { s with
            lastReassemRseq :=
              uint64 (s.lastReassemRseq + sub64 cell.val.rupper cell.val.rseq) }).bind fun t =>
            if t.2 then tryDeliver env fuel cell.next t.1 else some t.1
        else tryDeliver env fuel cell.next s
      else some s := by
  simp only [tryDeliver, hcell, Option.bind_eq_bind, Option.bind_some]

theorem tryDeliver_untrimmed (fuel : ℕ) : ∀ (c : Option ℕ) (s : SpicySink),
    s.autoTrim = false → tryDeliver env fuel c s = some s' →
    undeliveredOf s'.log = undeliveredOf s.log := by
  induction fuel with
  | zero =>
    intro c s _ hrun
    cases hrun
  | succ fuel ih =>
    intro c s hauto hrun
    cases c with
    | none =>
      cases hrun
      rfl
    | some c =>
      cases hcell : s.chunks.heap c with
      | none => simp [tryDeliver, hcell] at hrun
      | some cell =>
        rw [tryDeliver_chunk hcell] at hrun
        split at hrun
        · split at hrun
          · obtain ⟨⟨t, delivered⟩, hchunk, hrun⟩ := Option.bind_eq_some_iff.mp hrun
            obtain ⟨hlog, hauto'⟩ := deliverChunk_untrimmed hchunk hauto
            cases delivered with
            | true => exact (ih _ t hauto' hrun).trans hlog
            | false =>
              cases hrun
              exact hlog
          · exact ih _ s hauto hrun
        · cases hrun
          rfl

theorem tryDeliver_undelivered (l : List (ℕ × Block)) : ∀ (fuel : ℕ) (s : SpicySink),
    s.chunks.Represents l → Ordered (vals l) → s.autoTrim = true → 2 * l.length < fuel →
    (∀ b ∈ vals l, s.lastReassemRseq ≤ b.rseq) →
    tryDeliver env fuel (headAddr l none) s = some s' →
    undeliveredOf s'.log = undeliveredOf s.log := by
  induction l with
  | nil =>
    intro fuel s _ _ _ hf _ hrun
    obtain ⟨fuel, rfl⟩ : ∃ n, fuel = n + 1 := ⟨fuel - 1, by omega⟩
    cases hrun
    rfl
  | cons e l ih =>
    intro fuel s h hord hauto hf hge hrun
    obtain ⟨a, b⟩ := e
    obtain ⟨fuel, rfl⟩ : ∃ n, fuel = n + 1 := ⟨fuel - 1, by omega⟩
    have hcell : s.chunks.heap a = some ⟨headAddr l none, none, b⟩ := h.chain.1
    have hbok : b.Ok := hord.ok b (by simp)
    have hfirst : ∀ c ∈ vals ((a, b) :: l), b.rupper ≤ c.rupper := by
      intro c hc
      rcases List.mem_cons.mp hc with rfl | hmem
      · exact le_rfl
      · have : b.rupper ≤ c.rseq := hord.head_le c hmem
        have := (hord.ok c hc).1
        omega
    simp only [List.length_cons] at hf
    have hle := hge b (by simp)
    rw [show headAddr ((a, b) :: l) none = some a from rfl, tryDeliver_chunk hcell] at hrun
    split at hrun
    · rename_i hle'
      rw [if_pos (le_antisymm hle' hle)] at hrun
      obtain ⟨⟨t, delivered⟩, hchunk, hrun⟩ := Option.bind_eq_some_iff.mp hrun
      have hlog := deliverChunk_undelivered hchunk h hord hbok hfirst
      cases delivered with
      | false =>
        cases hrun
        exact hlog
      | true =>
        cases hd : b.data with
        | none =>
          have := deliverChunk_none hchunk hd h hauto (show _ < fuel by simp; omega)
          simp at this
        | some d =>
          obtain ⟨-, -, hlast, -, -, hauto', hrep⟩ :=
            deliverChunk_some hchunk hd h hauto (show _ < fuel by simp; omega)
          rw [show (a, b) :: l = [] ++ (a, b) :: l from rfl, dropWhile_rupper (e := (a, b)) hord] at hrep
          refine (ih fuel t hrep hord.tail hauto' (by omega) (fun c hc => ?_) hrun).trans hlog
          rw [hlast]
          exact hord.head_le c hc
    · cases hrun
      rfl

theorem tryDeliver_across {l : List (ℕ × Block)} {e : ℕ × Block} {fuel : ℕ}
    (h : s.chunks.Represents (e :: l)) (hord : Ordered (vals (e :: l)))
    (hlt : e.2.rseq < s.lastReassemRseq) (hlt' : s.lastReassemRseq < e.2.rupper)
    (hrun : tryDeliver env fuel (headAddr (e :: l) none) s = some s') : s' = s := by
  obtain ⟨a, b⟩ := e
  have hcell : s.chunks.heap a = some ⟨headAddr l none, none, b⟩ := h.chain.1
  cases fuel with
  | zero => cases hrun
  | succ fuel =>
    rw [show headAddr ((a, b) :: l) none = some a from rfl, tryDeliver_chunk hcell,
      if_pos hlt.le, if_neg hlt.ne] at hrun
    cases fuel with
    | zero => cases hrun
    | succ fuel =>
      cases l with
      | nil =>
        cases hrun
        rfl
      | cons e l =>
        obtain ⟨a', c⟩ := e
        have hsplit : s.chunks.Represents ([(a, b)] ++ (a', c) :: l) := h
        have hcell' : s.chunks.heap a' = some ⟨headAddr l none, some a, c⟩ :=
          hsplit.heap_eq
        have hle : b.rupper ≤ c.rseq := hord.head_le c (by simp)
        simp only at hlt'
        rw [show headAddr ((a', c) :: l) none = some a' from rfl, tryDeliver_chunk hcell',
          if_neg (by simp only; omega)] at hrun
        cases hrun
        rfl

theorem skip_undelivered {l : List (ℕ × Block)} {fuel r : ℕ} (h : s.chunks.Represents l)
    (hord : Ordered (vals l)) (hf : 2 * l.length < fuel)
    (hrun : skip env fuel r s = some s') :
    undeliveredOf s'.log = undeliveredOf s.log ++
      (reports s.initialSeq (reportedUpTo r) (vals l) ++
        if s.autoTrim then reports s.initialSeq (reportedByTrim s.curRseq r) (vals l) else []) := by
  obtain ⟨s₁, hrep, hframe₁, hch₁, -⟩ :=
    reportUndeliveredUpTo_spec env r l [] fuel s h (by omega)
  have hlog₁ := reportUndeliveredUpTo_log r l [] fuel s h hord hrep
  rw [← h.first_eq] at hrep
  have hskip : ∀ t : SpicySink, undeliveredOf (reportSkip env r t).log = undeliveredOf t.log := by
    intro t
    change undeliveredOf (t.log ++ [_]) = _
    rw [undeliveredOf_append]
    exact List.append_nil _
  simp only [skip, hrep, Option.bind_eq_bind, Option.bind_some] at hrun
  have hauto₁ := hframe₁.autoTrim_eq
  cases hauto : s.autoTrim with
  | false =>
    rw [hauto] at hauto₁
    rw [if_neg (by simp [hauto₁])] at hrun
    rw [if_neg (by simp), List.append_nil, ← hlog₁]
    have hdeliver := tryDeliver_untrimmed fuel _
      (reportSkip env r { s₁ with curRseq := r, lastReassemRseq := r }) hauto₁ hrun
    exact hdeliver.trans (hskip _)
  | true =>
    rw [hauto] at hauto₁
    rw [if_pos hauto₁] at hrun
    obtain ⟨s₂, htrim, hrun⟩ := Option.bind_eq_some_iff.mp hrun
    have hrep₁ : s₁.chunks.Represents l := hch₁ ▸ h
    obtain ⟨t, htrim', hrep₂, hframe₂, -⟩ :=
      trim_spec env r hrep₁ (show l.length < fuel by omega)
    rw [htrim] at htrim'
    cases htrim'
    have hlog₂ : undeliveredOf s₂.log = undeliveredOf s₁.log ++
        reports s₁.initialSeq (reportedByTrim s₁.curRseq r) (vals l) := by
      obtain ⟨t, hloop, heq⟩ := Option.bind_eq_some_iff.mp htrim
      cases heq
      have hlog := trimLoop_log r l fuel s₁ hrep₁ hord hloop
      exact hlog
    rw [if_pos rfl, ← List.append_assoc, ← hlog₁, ← hframe₁.initialSeq_eq, ← hframe₁.curRseq_eq,
      ← hlog₂]
    have hord' := hord.of_dropWhile r
    have hreach := dropWhile_reaches hord r
    have hlen := (List.dropWhile_sublist (endsBy r) (l := l)).length_le
    set s₃ := reportSkip env r { s₂ with curRseq := r, lastReassemRseq := r } with hs₃
    have hlog₃ : undeliveredOf s₃.log = undeliveredOf s₂.log := hskip _
    have hfirst : s₃.chunks.first = headAddr (l.dropWhile (endsBy r)) none := hrep₂.first_eq
    rw [hfirst] at hrun
    by_cases hall : ∀ b ∈ vals (l.dropWhile (endsBy r)), r ≤ b.rseq
    · refine (tryDeliver_undelivered _ fuel s₃ hrep₂ hord' ?_ (by omega) hall hrun).trans hlog₃
      exact hframe₂.autoTrim_eq.trans hauto₁
    · -- the first chunk that is left lies across the new position
      cases hdrop : l.dropWhile (endsBy r) with
      | nil => simp [hdrop] at hall
      | cons e rest =>
        rw [hdrop] at hrun hall hord' hreach hrep₂
        have hlt : e.2.rseq < r := by
          by_contra hge
          refine hall fun b hb => ?_
          rcases List.mem_cons.mp hb with rfl | hmem
          · exact not_lt.mp hge
          · have h1 : e.2.rupper ≤ b.rseq := hord'.head_le b hmem
            have h2 := (hord'.ok e.2 (by simp)).1
            omega
        rw [tryDeliver_across (s := s₃) hrep₂ hord' hlt (hreach e.2 (by simp)) hrun, hlog₃]

/-! ## Exact reports -/

/-- The reports have each byte that is buffered below `r` and was not delivered, once and with
its own sequence number, and no other byte. -/
def ReportsUndelivered (initialSeq : ℕ) (l : List Block) (delivered : Block → Bool) (r : ℕ)
    (es : List (ℕ × List UInt8)) : Prop :=
  (numbered es).Perm (((positioned (l.filter fun b => !delivered b)).filter
    fun y => y.2 < r).map (withSequence initialSeq))

/-- A chunk of data `d` that starts before `r` is reported as it should be.  One that ends by
`r` must not have been delivered, and with auto-trimming must not end before the current
position `cur`; the cut of one that lies across `r` takes as many bytes from its start as it
has positions behind `r`, if their number is an `int64_t`. -/
def Block.ReportedOnce (b : Block) (autoTrim : Bool) (cur r : ℕ) (delivered : Bool)
    (d : List UInt8) : Prop :=
  if b.rupper ≤ r then
    d = [] ∨ (delivered = false ∧ (autoTrim = true → cur ≤ b.rupper))
  else if delivered then d = [] ∨ 2 ^ 63 ≤ b.rupper - r
  else min (if b.rupper - r < 2 ^ 63 then b.rupper - r else 0) d.length = min (r - b.rseq) d.length

theorem int64_toNat {n : ℕ} (h : n < 2 ^ 64) : (int64 n).toNat = if n < 2 ^ 63 then n else 0 := by
  unfold int64
  split
  · exact Int.toNat_natCast n
  · omega

theorem Block.reportedOnce_iff {b : Block} {autoTrim : Bool} {cur r : ℕ} {delivered : Bool}
    {d : List UInt8} (hb : b.Ok) (hfits : b.Fits) (hd : b.data = some d) (hr : b.rseq < r) :
    (((reportedUpTo r b).getD []).length +
        ((if autoTrim then reportedByTrim cur r b else none).getD []).length =
      (if !delivered then d.take (r - b.rseq) else []).length) ↔
      b.ReportedOnce autoTrim cur r delivered d := by
  have hlen := hfits d hd
  unfold Block.ReportedOnce
  rw [reportedUpTo, if_pos hr, hd, Option.map_some, Option.getD_some]
  by_cases hend : b.rupper ≤ r
  · rw [if_pos hend, if_pos hend]
    have htake : d.take (r - b.rseq) = d := List.take_of_length_le (by omega)
    rw [htake]
    by_cases hcur : b.rupper < cur
    · cases d <;> cases autoTrim <;> cases delivered <;>
        simp [reportedByTrim, hend, hcur, hd]
    · cases d <;> cases autoTrim <;> cases delivered <;>
        simp [reportedByTrim, hend, hcur, not_lt.mp hcur]
  · rw [if_neg hend, if_neg hend]
    have hnone : (if autoTrim then reportedByTrim cur r b else none) = none := by
      split
      · exact if_neg fun hboth => hend hboth.1
      · rfl
    have hsub : sub64 b.rupper r = b.rupper - r := sub64_of_le (by omega) hb.2
    rw [hnone, Option.getD_none, List.length_nil, Nat.add_zero, bytesTake, hsub,
      int64_toNat (by have := hb.2; omega), List.length_take]
    cases delivered with
    | false => simp
    | true =>
      have hnil : d = [] ↔ d.length = 0 := List.length_eq_zero_iff.symm
      simp only [Bool.not_true, Bool.false_eq_true, if_false, List.length_nil, if_true, hnil]
      split <;> omega

end

/-- A skip reports exactly what it passes over if and only if it reports each chunk of data that
starts before the new position as it should, whichever chunks have been delivered. -/
theorem undelivered_reported_iff (env : Env) (s s' : SpicySink) (l : List (ℕ × Block))
    (h : s.chunks.Represents l) (hord : Ordered (vals l)) (hfits : ∀ b ∈ vals l, b.Fits)
    (delivered : Block → Bool) (seq : ℕ) (hseq : s.initialSeq ≤ seq) (hrange : seq < 2 ^ 64)
    (hrun : perform env (opFuel s) (.skip seq) s = some s') :
    ∃ es, undeliveredOf s'.log = undeliveredOf s.log ++ es ∧
      (ReportsUndelivered s.initialSeq (vals l) delivered (seq - s.initialSeq) es ↔
        ∀ b ∈ vals l, b.rseq < seq - s.initialSeq → ∀ d, b.data = some d →
          b.ReportedOnce s.autoTrim s.curRseq (seq - s.initialSeq) (delivered b) d) := by
  have hlen := h.length_le
  have hskip : skip env (opFuel s) (seq - s.initialSeq) { s with excpt := false } = some s' := by
    rw [← hrun, ← sub64_of_le hseq hrange]
    exact (if_pos hseq).symm
  have hlog := skip_undelivered (s := { s with excpt := false }) h hord
    (show _ < opFuel s by unfold opFuel; omega) hskip
  refine ⟨_, hlog, ?_⟩
  generalize seq - s.initialSeq = r
  simp only
  set f : Block → List UInt8 := fun b => (reportedUpTo r b).getD [] with hf
  set g : Block → List UInt8 := fun b =>
    (if s.autoTrim then reportedByTrim s.curRseq r b else none).getD [] with hg
  set e : Block → List UInt8 := fun b =>
    if !delivered b then (b.data.getD []).take (r - b.rseq) else [] with he
  have hreported : numbered (reports s.initialSeq (reportedUpTo r) (vals l) ++
      if s.autoTrim then reports s.initialSeq (reportedByTrim s.curRseq r) (vals l) else []) =
      (positionedBy f (vals l) ++ positionedBy g (vals l)).map (withSequence s.initialSeq) := by
    rw [numbered_append, numbered_reports, List.map_append]
    congr 1
    rw [hg, ← numbered_reports]
    cases s.autoTrim with
    | true => rfl
    | false =>
      simp only [Bool.false_eq_true, if_false]
      exact congrArg numbered (reports_eq_nil fun _ _ => rfl).symm
  have hfpre : ∀ b ∈ vals l, f b <+: b.data.getD [] := by
    intro b _
    simp only [hf, reportedUpTo]
    split
    · cases b.data with
      | none => exact List.nil_prefix
      | some d =>
        simp only [Option.map_some, Option.getD_some]
        split
        · exact List.prefix_rfl
        · exact List.take_prefix _ _
    · exact List.nil_prefix
  have hgpre : ∀ b ∈ vals l, g b = [] ∨ g b = b.data.getD [] := by
    intro b _
    simp only [hg, reportedByTrim]
    split
    · split
      · exact .inr rfl
      · exact .inl rfl
    · exact .inl rfl
  have hepre : ∀ b ∈ vals l, e b <+: b.data.getD [] := by
    intro b _
    simp only [he]
    split
    · exact List.take_prefix _ _
    · exact List.nil_prefix
  have hlt : ∀ k : Block → List UInt8, (∀ b ∈ vals l, k b <+: b.data.getD []) →
      ∀ y ∈ positionedBy k (vals l), y.2 < 2 ^ 64 := by
    intro k hk y hy
    have hshort : ∀ b ∈ vals l, (k b).length ≤ b.rupper - b.rseq := by
      intro b hb
      exact (hk b hb).length_le.trans (Block.Fits.length_le (hfits b hb))
    obtain ⟨b, hb, -, hyb⟩ := mem_positionedBy hshort hy
    have := (hord.ok b hb).2
    omega
  have hgpre' : ∀ b ∈ vals l, g b <+: b.data.getD [] := by
    intro b hb
    rcases hgpre b hb with heq | heq
    · rw [heq]
      exact List.nil_prefix
    · rw [heq]
  unfold ReportsUndelivered
  rw [hreported, positioned_filter, withSequence_perm ?_ (hlt e hepre),
    positionedBy_perm hord hfits hfpre hepre hgpre]
  · refine forall₂_congr fun b hb => ?_
    by_cases hr : b.rseq < r
    · rw [imp_iff_right hr]
      cases hd : b.data with
      | none =>
        refine iff_of_true ?_ (by simp)
        simp [hf, hg, he, reportedUpTo, reportedByTrim, hd]
      | some d =>
        have hiff : _ ↔ b.ReportedOnce s.autoTrim s.curRseq r (delivered b) d :=
          b.reportedOnce_iff (hord.ok b hb) (hfits b hb) hd hr
        have hdata : e b = if !delivered b then d.take (r - b.rseq) else [] := by
          simp only [he, hd, Option.getD_some]
        rw [← hdata] at hiff
        simp only [Option.some.injEq, forall_eq']
        exact hiff
    · refine iff_of_true ?_ fun hlt' => absurd hlt' hr
      have hok := (hord.ok b hb).1
      have h1 : r - b.rseq = 0 := by omega
      simp [hf, hg, he, reportedUpTo, reportedByTrim, hr, h1, show ¬ b.rupper ≤ r by omega]
  · intro y hy
    rcases List.mem_append.mp hy with hy | hy
    · exact hlt f hfpre y hy
    · exact hlt g hgpre' y hy

/-- A chunk of data in front of the new position is reported once. -/
theorem undelivered_reported_once :
    ∃ s s', (machine waitingEnv (sinkNew 0 [1])).run (sinkNew 0 [1]) [.write [7, 8] 2] = some s ∧
      perform waitingEnv (opFuel s) (.skip 5) s = some s' ∧
      undeliveredOf s'.log = [(2, [7, 8])] ∧
      ReportsUndelivered 0 s.chunks.toList (fun _ => false) 5 [(2, [7, 8])] := by
  obtain ⟨s, hs⟩ : ∃ s, (machine waitingEnv (sinkNew 0 [1])).run (sinkNew 0 [1])
      [.write [7, 8] 2] = some s := ⟨_, rfl⟩
  have hfacts : ((machine waitingEnv (sinkNew 0 [1])).run (sinkNew 0 [1]) [.write [7, 8] 2]).map
      (fun s => (s.chunks.toList, s.initialSeq, s.curRseq)) =
      some ([⟨2, 4, some [7, 8]⟩], 0, 0) := by decide
  have hbefore : ((machine waitingEnv (sinkNew 0 [1])).run (sinkNew 0 [1]) [.write [7, 8] 2]).map
      (fun s => undeliveredOf s.log) = some [] := by decide
  have hafter : (((machine waitingEnv (sinkNew 0 [1])).run (sinkNew 0 [1]) [.write [7, 8] 2]).bind
      fun s => perform waitingEnv (opFuel s) (.skip 5) s).map (fun s => undeliveredOf s.log) =
      some [(2, [7, 8])] := by decide
  rw [hs] at hfacts hbefore hafter
  simp only [Option.map_some, Option.some.injEq, Prod.mk.injEq] at hfacts hbefore
  obtain ⟨hlist, hinit, hcur⟩ := hfacts
  obtain ⟨s', hs', hlog'⟩ := Option.map_eq_some_iff.mp hafter
  obtain ⟨-, l, hl⟩ := run_listed [.write [7, 8] 2] (sinkNew 0 [1]) [] (sinkNew_listed 0 [1])
    (by decide) hs
  obtain ⟨es, hes, hiff⟩ := undelivered_reported_iff waitingEnv s s' l hl.represents hl.ordered
    hl.fits (fun _ => false) 5 (by omega) (by decide) hs'
  rw [hbefore, hlog', List.nil_append] at hes
  have hvals : vals l = [⟨2, 4, some [7, 8]⟩] := hl.represents.toList_eq.symm.trans hlist
  rw [hinit, hvals, ← hes, hcur] at hiff
  refine ⟨s, s', hs, hs', hlog', ?_⟩
  rw [hlist]
  refine hiff.mpr fun b hb _ d hd => ?_
  obtain rfl := List.mem_singleton.mp hb
  exact .inr ⟨rfl, fun _ => Nat.zero_le _⟩

/-- The cut of a chunk that lies across the new position takes too many bytes, and a chunk that
ends before the current position is reported twice. -/
theorem undelivered_reported_wrong :
    (∃ s s', (machine waitingEnv (sinkNew 0 [1])).run (sinkNew 0 [1])
        [.write [97, 98, 99, 100] 2] = some s ∧
      perform waitingEnv (opFuel s) (.skip 3) s = some s' ∧
      undeliveredOf s'.log = [(2, [97, 98, 99])] ∧
      ¬ ReportsUndelivered 0 s.chunks.toList (fun _ => false) 3 (undeliveredOf s'.log)) ∧
    ∃ s s', (machine waitingEnv (sinkNew 0 [1])).run (sinkNew 0 [1]) [.gap 0 10, .write [7] 5] =
        some s ∧
      perform waitingEnv (opFuel s) (.skip 12) s = some s' ∧
      undeliveredOf s'.log = [(5, [7]), (5, [7])] ∧
      ¬ ReportsUndelivered 0 s.chunks.toList (fun _ => false) 12 (undeliveredOf s'.log) := by
  constructor
  · refine ⟨_, _, rfl, rfl, by decide, fun h => ?_⟩
    exact absurd h.length_eq (by decide)
  · refine ⟨_, _, rfl, rfl, by decide, fun h => ?_⟩
    exact absurd h.length_eq (by decide)

end Hilti.Sink
