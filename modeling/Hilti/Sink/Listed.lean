import Hilti.Sink.Handed

/-!
# What one operation of a sink does

What an operation hands to the parsers, and where it leaves the positions of the sink, is
read off the buffered blocks by `inOrder`.  `perform_listed` says it for every operation
that returns, whatever parsers and hooks do.
-/

namespace Hilti.Sink

open Hilti.Lib Hilti.Lib.LinkedList

set_option autoImplicit false

section

variable {env : Env} {s s' : SpicySink}

/-! ## The buffered blocks -/

/-- The data of a block has no more bytes than the block has positions. -/
def Block.Fits (b : Block) : Prop :=
  ∀ d, b.data = some d → b.rseq + d.length ≤ b.rupper

/-- The sink has the chunks `l`: they are in order, and none of them lies before
the position to which the sink has been trimmed. -/
structure Listed (s : SpicySink) (l : List (ℕ × Block)) : Prop where
  represents : s.chunks.Represents l
  ordered : Ordered (vals l)
  reaches : ∀ b ∈ vals l, s.trimRseq < b.rupper
  autoTrim_eq : s.autoTrim = true
  fits : ∀ b ∈ vals l, b.Fits

theorem Listed.nil (hrep : s.chunks.Represents []) (hauto : s.autoTrim = true) : Listed s [] :=
  ⟨hrep, Ordered.nil, by simp, hauto, by simp⟩

theorem Listed.first_eq_none {l : List (ℕ × Block)} (h : Listed s l) :
    s.chunks.first = none ↔ l = [] := by
  rw [h.represents.first_eq]
  cases l <;> simp [headAddr]

theorem dropWhile_vals_sublist (l : List (ℕ × Block)) (r : ℕ) :
    (vals (l.dropWhile (endsBy r))).Sublist (vals l) :=
  (List.dropWhile_sublist _).map _

theorem Listed.trimmed {l : List (ℕ × Block)} {r : ℕ} (h : Listed s l)
    (hrep : s'.chunks.Represents (l.dropWhile (endsBy r))) (htrim : s'.trimRseq = r)
    (hauto : s'.autoTrim = true) : Listed s' (l.dropWhile (endsBy r)) where
  represents := hrep
  ordered := h.ordered.of_dropWhile r
  reaches := htrim ▸ dropWhile_reaches h.ordered r
  autoTrim_eq := hauto
  fits b hb := h.fits b ((dropWhile_vals_sublist l r).subset hb)

theorem Listed.of_eq {l : List (ℕ × Block)} (h : Listed s l) (hchunks : s'.chunks = s.chunks)
    (htrim : s'.trimRseq = s.trimRseq) (hauto : s'.autoTrim = s.autoTrim) : Listed s' l where
  represents := hchunks ▸ h.represents
  ordered := h.ordered
  reaches := htrim ▸ h.reaches
  autoTrim_eq := hauto.trans h.autoTrim_eq
  fits := h.fits

/-- The blocks of data that are delivered when `last_reassem_rseq` is `last` and
`cur_rseq` is `cur`, and the values that these have then.  A gap ends the delivery. -/
def inOrder : ℕ → ℕ → List Block → List Block × ℕ × ℕ
  | last, cur, [] => ([], last, cur)
  | last, cur, b :: bs =>
    if b.rseq < last then inOrder last cur bs
    else if b.rseq = last then
      match b.data with
      | none => ([], b.rupper, b.rupper)
      | some _ => (b :: (inOrder b.rupper b.rupper bs).1, (inOrder b.rupper b.rupper bs).2)
    else ([], last, cur)

theorem inOrder_append {last : ℕ} (cur : ℕ) {pre : List Block} (suf : List Block)
    (h : ∀ b ∈ pre, b.rseq < last) :
    inOrder last cur (pre ++ suf) = inOrder last cur suf := by
  induction pre with
  | nil => rfl
  | cons b pre ih =>
    rw [List.cons_append, inOrder, if_pos (h b (by simp)), ih fun b' hb' => h b' (by simp [hb'])]

theorem inOrder_mem {last cur : ℕ} {l : List Block} {x : Block}
    (hx : x ∈ (inOrder last cur l).1) : x ∈ l ∧ x.data ≠ none := by
  induction l generalizing last cur with
  | nil => simp [inOrder] at hx
  | cons b l ih =>
    unfold inOrder at hx
    split at hx
    · exact (ih hx).imp (fun h => by simp [h]) id
    split at hx
    · split at hx
      · simp at hx
      · rename_i hb
        rcases List.mem_cons.mp hx with rfl | hx
        · exact ⟨by simp, by simp [hb]⟩
        · exact (ih hx).imp (fun h => by simp [h]) id
    · simp at hx

theorem inOrder_across {last : ℕ} (cur : ℕ) {l : List Block} {w : Block} (hl : Ordered l) (hw : w ∈ l)
    (hlt : w.rseq < last) (hlast : last < w.rupper) : inOrder last cur l = ([], last, cur) := by
  induction l with
  | nil => simp at hw
  | cons b l ih =>
    rcases List.mem_cons.mp hw with rfl | hw
    · rw [inOrder, if_pos hlt]
      cases l with
      | nil => rfl
      | cons b l =>
        have := hl.head_le b (by simp)
        rw [inOrder, if_neg (by omega), if_neg (by omega)]
    · have h1 := hl.head_le w hw
      have h2 := (hl.ok b (by simp)).1
      rw [inOrder, if_pos (by omega), ih hl.tail hw]

/-- The blocks `handed` are what can be delivered of the buffered blocks `l`. -/
structure Delivers (s s' : SpicySink) (l handed : List Block) : Prop where
  handed_eq : handed = (inOrder s.lastReassemRseq s.curRseq l).1
  last_eq : s'.lastReassemRseq = (inOrder s.lastReassemRseq s.curRseq l).2.1
  cur_eq : s'.curRseq = (inOrder s.lastReassemRseq s.curRseq l).2.2
  gives : Gives s s' handed

theorem Delivers.fits {l handed : List Block} (h : Delivers s s' l handed) (hl : ∀ b ∈ l, b.Fits) :
    ∀ x ∈ handed, x.Fits := by
  intro x hx
  rw [h.handed_eq] at hx
  exact hl x (inOrder_mem hx).1

theorem deliverChunk_some {fuel : ℕ} {l : List (ℕ × Block)} {b : Block} {data : List UInt8}
    {delivered : Bool} (hrun : deliverChunk env fuel b s = some (s', delivered))
    (hb : b.data = some data) (h : s.chunks.Represents l) (hauto : s.autoTrim = true)
    (hl : l.length < fuel) :
    delivered = true ∧ Gives s s' [b] ∧ s'.lastReassemRseq = b.rupper ∧ s'.curRseq = b.rupper ∧
      s'.trimRseq = b.rupper ∧ s'.autoTrim = true ∧
      s'.chunks.Represents (l.dropWhile (endsBy b.rupper)) := by
  simp only [deliverChunk, hb] at hrun
  obtain ⟨s₁, h₁, hrun⟩ := Option.bind_eq_some_iff.mp hrun
  have hparsed := deliverData_parsed h₁
  have hgives := deliverData_gives hb h₁
  have hauto₁ : s₁.autoTrim = true := hparsed.autoTrim_eq.trans hauto
  obtain ⟨s₂, htrim, hrep, hframe, htrim', -⟩ := trim_spec env b.rupper
    (s := { s₁ with curRseq := b.rupper, lastReassemRseq := b.rupper }) (hparsed.chunks_eq ▸ h) hl
  rw [if_pos hauto₁, htrim] at hrun
  cases hrun
  have hgives' : Gives s₁ s' [] :=
    ⟨hframe.gives.initialSeq_eq, hframe.gives.filter_eq, hframe.gives.ids_sublist,
      hframe.gives.hands⟩
  exact ⟨rfl, hgives.trans hgives', hframe.lastReassemRseq_eq, hframe.curRseq_eq, htrim',
    hframe.autoTrim_eq.trans hauto₁, hrep⟩

theorem deliverChunk_none {fuel : ℕ} {l : List (ℕ × Block)} {b : Block} {delivered : Bool}
    (hrun : deliverChunk env fuel b s = some (s', delivered)) (hb : b.data = none)
    (h : s.chunks.Represents l) (hauto : s.autoTrim = true) (hl : l.length < fuel) :
    delivered = false ∧ Gives s s' [] ∧ s'.lastReassemRseq = s.lastReassemRseq ∧
      s'.curRseq = b.rupper ∧ s'.autoTrim = true ∧
      (s' = s ∨ (s'.trimRseq = b.rseq ∧
        s'.chunks.Represents (l.dropWhile (endsBy b.rseq)))) := by
  obtain ⟨s₁, heq, hcase⟩ := deliverChunk_gap env hb h hauto hl
  rw [heq, Option.some.injEq, Prod.mk.injEq] at hrun
  obtain ⟨rfl, rfl⟩ := hrun
  rcases hcase with ⟨hcur, rfl⟩ | ⟨hframe, htrim, hrep⟩
  · exact ⟨rfl, .refl _, rfl, hcur, hauto, .inl rfl⟩
  · have hgives : Gives s s₁ [] :=
      ⟨hframe.gives.initialSeq_eq, hframe.gives.filter_eq, hframe.gives.ids_sublist,
        hframe.gives.hands⟩
    exact ⟨rfl, hgives, hframe.lastReassemRseq_eq, hframe.curRseq_eq,
      hframe.autoTrim_eq.trans hauto, .inr ⟨htrim, hrep⟩⟩

theorem uint64_reassembled {b : Block} (hb : b.Ok) :
    uint64 (b.rseq + sub64 b.rupper b.rseq) = b.rupper := by
  rw [sub64_of_le hb.1.le hb.2, Nat.add_sub_cancel' hb.1.le, uint64_of_lt hb.2]

variable (env) in
/-- The chunks that are handed out from `b` on, by how its delivery went. -/
def handedAfter (fuel : ℕ) (next : Option ℕ) (b : Block) : Option (SpicySink × Bool) → List Block
  | some (s, true) => b :: handedFrom env fuel next s
  | _ => []

theorem tryDeliver_listed (suf : List (ℕ × Block)) :
    ∀ (pre : List (ℕ × Block)) (fuel : ℕ) (s : SpicySink), Listed s (pre ++ suf) →
    suf.length + (pre ++ suf).length < fuel →
    tryDeliver env fuel (headAddr suf none) s = some s' →
    Delivers s s' (vals suf) (handedFrom env fuel (headAddr suf none) s) ∧
      ∃ l, Listed s' l ∧ (vals l).Sublist (vals (pre ++ suf)) := by
  induction suf with
  | nil =>
    intro pre fuel s h hf hrun
    obtain ⟨fuel, rfl⟩ : ∃ n, fuel = n + 1 := ⟨fuel - 1, by omega⟩
    cases hrun
    exact ⟨⟨rfl, rfl, rfl, .refl _⟩, pre ++ [], h, .refl _⟩
  | cons e suf ih =>
    intro pre fuel s h hf hrun
    obtain ⟨a, b⟩ := e
    obtain ⟨fuel, rfl⟩ : ∃ n, fuel = n + 1 := ⟨fuel - 1, by omega⟩
    have hcell := h.represents.heap_eq
    have hbok : b.Ok := h.ordered.ok b (by simp)
    simp only [List.length_append, List.length_cons] at hf
    have htry : tryDeliver env (fuel + 1) (headAddr ((a, b) :: suf) none) s =
        if b.rseq ≤ s.lastReassemRseq then
          if b.rseq = s.lastReassemRseq then
            (deliverChunk env fuel b { s with
              lastReassemRseq := uint64 (s.lastReassemRseq + sub64 b.rupper b.rseq) }).bind
              fun r => if r.2 then tryDeliver env fuel (headAddr suf none) r.1 else some r.1
          else tryDeliver env fuel (headAddr suf none) s
        else some s := by
      simp only [headAddr, tryDeliver, hcell, Option.bind_eq_bind, Option.bind_some]
    have hhanded : handedFrom env (fuel + 1) (headAddr ((a, b) :: suf) none) s =
        if b.rseq ≤ s.lastReassemRseq then
          if b.rseq = s.lastReassemRseq then
            handedAfter env fuel (headAddr suf none) b (deliverChunk env fuel b { s with
              lastReassemRseq := uint64 (s.lastReassemRseq + sub64 b.rupper b.rseq) })
          else handedFrom env fuel (headAddr suf none) s
        else [] := by
      simp only [headAddr, handedFrom, hcell] <;> rfl
    rw [htry] at hrun
    rw [hhanded, show vals ((a, b) :: suf) = b :: vals suf from rfl]
    rcases lt_trichotomy b.rseq s.lastReassemRseq with hlt | heq | hgt
    · -- the chunk lies before what was delivered
      rw [if_pos hlt.le, if_neg hlt.ne] at hrun ⊢
      have hpre : pre ++ (a, b) :: suf = (pre ++ [(a, b)]) ++ suf := by simp
      rw [hpre] at h ⊢
      obtain ⟨hdel, hlist⟩ := ih (pre ++ [(a, b)]) fuel s h
        (by simp only [List.length_append, List.length_cons, List.length_nil]; omega) hrun
      have hin : inOrder s.lastReassemRseq s.curRseq (b :: vals suf) =
          inOrder s.lastReassemRseq s.curRseq (vals suf) := by
        rw [inOrder, if_pos hlt]
      exact ⟨⟨hin ▸ hdel.handed_eq, hin ▸ hdel.last_eq, hin ▸ hdel.cur_eq, hdel.gives⟩, hlist⟩
    · -- the chunk is delivered
      rw [if_pos heq.le, if_pos heq, ← heq, uint64_reassembled hbok] at hrun ⊢
      obtain ⟨⟨s₂, delivered⟩, hchunk, hrun⟩ := Option.bind_eq_some_iff.mp hrun
      have hlen : (pre ++ (a, b) :: suf).length < fuel := by
        simp only [List.length_append, List.length_cons]
        omega
      rw [hchunk]
      cases hb : b.data with
      | some data =>
        obtain ⟨rfl, hgives, hlast, hcur, htrim, hauto, hrep⟩ :=
          deliverChunk_some hchunk hb h.represents h.autoTrim_eq hlen
        have hlisted := h.trimmed hrep htrim hauto
        rw [dropWhile_rupper (e := (a, b)) h.ordered] at hlisted
        obtain ⟨hdel, l, hl, hsub⟩ := ih [] fuel s₂ hlisted
          (by simp only [List.nil_append]; omega) hrun
        have hin : inOrder s.lastReassemRseq s.curRseq (b :: vals suf) =
            (b :: (inOrder b.rupper b.rupper (vals suf)).1,
              (inOrder b.rupper b.rupper (vals suf)).2) := by
          rw [← heq, inOrder, if_neg (lt_irrefl _), if_pos rfl, hb]
        have hgives' : Gives s s₂ [b] :=
          ⟨hgives.initialSeq_eq, hgives.filter_eq, hgives.ids_sublist, hgives.hands⟩
        have hhanded' := hdel.handed_eq
        have hlast' := hdel.last_eq
        have hcur' := hdel.cur_eq
        rw [hlast, hcur] at hhanded' hlast' hcur'
        refine ⟨⟨?_, ?_, ?_, hgives'.trans hdel.gives⟩, l, hl, hsub.trans ?_⟩
        · rw [hin]
          exact congrArg (b :: ·) hhanded'
        · rw [hin, hlast']
        · rw [hin, hcur']
        · simp [vals]
      | none =>
        obtain ⟨rfl, hgives, hlast, hcur, hauto, hcase⟩ :=
          deliverChunk_none hchunk hb h.represents h.autoTrim_eq hlen
        obtain rfl : s' = s₂ := (Option.some.inj hrun).symm
        have hin : inOrder s.lastReassemRseq s.curRseq (b :: vals suf) =
            ([], b.rupper, b.rupper) := by
          rw [← heq, inOrder, if_neg (lt_irrefl _), if_pos rfl, hb]
        have hgives' : Gives s s' [] :=
          ⟨hgives.initialSeq_eq, hgives.filter_eq, hgives.ids_sublist, hgives.hands⟩
        refine ⟨⟨by rw [hin]; rfl, by rw [hin, hlast], by rw [hin, hcur], hgives'⟩, ?_⟩
        rcases hcase with rfl | ⟨htrim, hrep⟩
        · exact ⟨_, h.of_eq rfl rfl rfl, .refl _⟩
        · exact ⟨_, h.trimmed hrep htrim hauto, dropWhile_vals_sublist _ _⟩
    · have hin : inOrder s.lastReassemRseq s.curRseq (b :: vals suf) =
          ([], s.lastReassemRseq, s.curRseq) := by
        rw [inOrder, if_neg (not_lt.mpr hgt.le), if_neg hgt.ne']
      rw [if_neg (not_le.mpr hgt)] at hrun ⊢
      cases hrun
      exact ⟨⟨by rw [hin], by rw [hin], by rw [hin], .refl _⟩, _, h, .refl _⟩

theorem deliverFrom_listed {pre suf : List (ℕ × Block)} {c : ℕ} {w : Block} {fuel : ℕ}
    (h : Listed s (pre ++ (c, w) :: suf)) (hf : 2 * (pre ++ (c, w) :: suf).length < fuel)
    (hrun : deliverFrom env fuel c s = some s') :
    ((handedBehind env fuel c s = [] ∧ s' = s) ∨
      (w.rseq ≤ s.lastReassemRseq ∧ s.lastReassemRseq < w.rupper ∧
        Delivers s s' (vals (pre ++ (c, w) :: suf)) (handedBehind env fuel c s))) ∧
      ∃ l, Listed s' l ∧ (vals l).Sublist (vals (pre ++ (c, w) :: suf)) := by
  have hcell := h.represents.heap_eq
  simp only [deliverFrom, hcell, Option.bind_eq_bind, Option.bind_some] at hrun
  simp only [handedBehind, hcell]
  split at hrun
  · cases hrun
    rename_i hskip
    exact ⟨.inl ⟨if_pos hskip, rfl⟩, _, h, .refl _⟩
  · rename_i hgo
    rw [if_neg hgo]
    obtain ⟨hle, hlt⟩ := not_or.mp hgo
    simp only [List.length_append, List.length_cons] at hf
    obtain ⟨hdel, hlist⟩ := tryDeliver_listed ((c, w) :: suf) pre fuel s h
      (by simp only [List.length_append, List.length_cons]; omega) hrun
    refine ⟨.inr ⟨not_lt.mp hle, not_le.mp hlt, ?_⟩, hlist⟩
    have hbefore : ∀ b ∈ vals pre, b.rseq < s.lastReassemRseq := by
      intro b hb
      have hord : Ordered (vals pre ++ vals ((c, w) :: suf)) := by simpa [vals] using h.ordered
      have h1 := hord.append_le b hb w (by simp)
      have h2 := (hord.ok b (by simp [hb])).1
      omega
    have hin := inOrder_append s.curRseq (vals ((c, w) :: suf)) hbefore
    rw [show vals (pre ++ (c, w) :: suf) = vals pre ++ vals ((c, w) :: suf) by simp [vals]]
    exact ⟨hin ▸ hdel.handed_eq, hin ▸ hdel.last_eq, hin ▸ hdel.cur_eq, hdel.gives⟩

theorem cutOff_eq {data : Option (List UInt8)} {r len : ℕ} (hu : r + len < 2 ^ 64)
    (htrim : s.trimRseq < r + len)
    (hdata : ∀ d, data = some d → d.length < 2 ^ 63 ∧ d.length = len) :
    cutOff s data r = some (max r s.trimRseq, clip s data r) := by
  by_cases hr : r < s.trimRseq
  · have hadd : addInt64 r (int64 (sub64 s.trimRseq r)) = max r s.trimRseq := by
      rw [sub64_of_le hr.le (by omega), addInt64_int64 (by omega)]
      omega
    cases data with
    | none => simp only [cutOff, if_pos hr, hadd, clip, Option.map_none]
    | some d =>
      have hd := hdata d rfl
      have hdrop : bytesDrop (int64 (sub64 s.trimRseq r)) d = some (d.drop (s.trimRseq - r)) := by
        rw [sub64_of_le hr.le (by omega), bytesDrop_int64 (.inr (by omega))]
      simp only [cutOff, if_pos hr, hadd, hdrop, clip, Option.map_some, Option.bind_some]
  · have hclip : clip s data r = data := by
      cases data <;> simp [clip, Nat.sub_eq_zero_of_le (not_lt.mp hr)]
    unfold cutOff
    rw [hclip, max_eq_left (not_lt.mp hr), if_neg hr]

/-- Where a new block of `len` positions from `r` on ends when it is buffered: the length of
the first chunk still counts what was cut off. -/
def upper (s : SpicySink) (r len : ℕ) : ℕ :=
  if s.chunks.first = none then max r s.trimRseq + len else r + len

/-- A new block is buffered: it is not empty, not delivered at once, and not old. -/
def Enqueues (s : SpicySink) (r len : ℕ) : Prop :=
  len ≠ 0 ∧ ¬ (r = s.curRseq ∧ s.chunks.first = none) ∧ s.trimRseq < r + len

instance (s : SpicySink) (r len : ℕ) : Decidable (Enqueues s r len) :=
  inferInstanceAs (Decidable (_ ∧ _))

theorem Enqueues.lt_upper {r len : ℕ} (h : Enqueues s r len) :
    max r s.trimRseq < upper s r len := by
  obtain ⟨hlen, -, htrim⟩ := h
  unfold upper
  split <;> omega

theorem clip_fits {data : Option (List UInt8)} {r len : ℕ} (htrim : s.trimRseq < r + len)
    (hdata : ∀ d, data = some d → d.length < 2 ^ 63 ∧ d.length = len) (d : List UInt8)
    (hd : clip s data r = some d) : max r s.trimRseq + d.length ≤ r + len := by
  obtain ⟨d', hd', rfl⟩ := Option.map_eq_some_iff.mp hd
  have hlen := (hdata d' hd').2
  simp only [List.length_drop]
  omega

theorem insertBlock_fits {l : List Block} {r u : ℕ} {d : Option (List UInt8)} {b : Block}
    (hl : ∀ b ∈ l, b.Fits) (hd : ∀ e, d = some e → r + e.length ≤ u)
    (hb : b ∈ insertBlock l r u d) : b.Fits := by
  induction l generalizing r d with
  | nil =>
    obtain rfl : b = ⟨r, u, d⟩ := by simpa [insertBlock] using hb
    exact hd
  | cons c l ih =>
    have hl' : ∀ b ∈ l, b.Fits := fun b hb => hl b (by simp [hb])
    unfold insertBlock at hb
    split at hb
    · rcases List.mem_cons.mp hb with rfl | hb
      · exact hl b (by simp)
      · exact ih hl' hd hb
    split at hb
    · rcases List.mem_cons.mp hb with rfl | hb
      · exact hd
      · exact hl b hb
    · rcases List.mem_append.mp hb with hb | hb
      · unfold prefixBlock at hb
        split at hb
        · split at hb
          · obtain rfl : b = _ := List.mem_singleton.mp hb
            intro e he
            cases he
            simp only [List.length_take]
            omega
          · simp at hb
        · simp at hb
      · rcases List.mem_cons.mp hb with rfl | hb
        · exact hl b (by simp)
        · split at hb
          · rename_i hgo
            refine ih hl' (fun e he => ?_) hb
            cases he
            have hrest : r + (d.getD []).length ≤ u ∨ (d.getD []).length = 0 := by
              cases d with
              | none => exact .inr rfl
              | some d => exact .inl (hd d rfl)
            have := hgo.1
            simp only [List.length_drop]
            omega
          · exact hl b (by simp [hb])

theorem enqueue_listed {fuel : ℕ} {l : List (ℕ × Block)} (h : Listed s l)
    {data : Option (List UInt8)} {r len : ℕ} {c : Option ℕ} (hu : r + len < 2 ^ 64)
    (hdata : ∀ d, data = some d → d.length < 2 ^ 63 ∧ d.length = len) (hlen : len ≠ 0)
    (hfast : ¬ (r = s.curRseq ∧ s.chunks.first = none)) (htrim : s.trimRseq < r + len)
    (hsafe : SafeBlock s data r len) (hf : 2 * l.length + 2 < fuel)
    (hrun : enqueue env fuel (max r s.trimRseq) len (r + len) (clip s data r) s = some (s', c)) :
    ∃ pre c' w suf, c = some c' ∧ Listed s' (pre ++ (c', w) :: suf) ∧ Frame s s' ∧
      vals (pre ++ (c', w) :: suf) =
        insertBlock (vals l) (max r s.trimRseq) (upper s r len) (clip s data r) ∧
      Arrives (vals l) (max r s.trimRseq) (upper s r len) w.rseq := by
  rcases hsafe with hsafe | hsafe | hsafe | ⟨hfirst, hwrap⟩ | ⟨hfirst, hfit, hover⟩
  · exact absurd hsafe hlen
  · exact absurd hsafe hfast
  · omega
  · -- the first chunk
    obtain rfl := h.first_eq_none.mp hfirst
    have hupper : max r s.trimRseq + len < 2 ^ 64 := by omega
    simp only [enqueue, hfirst, uint64_of_lt hupper] at hrun
    cases hrun
    refine ⟨[], s.chunks.fresh, ⟨max r s.trimRseq, max r s.trimRseq + len, clip s data r⟩, [], rfl,
      ⟨h.represents.singleton _, Ordered.nil.cons ⟨?_, hupper⟩ (by simp), ?_, h.autoTrim_eq, ?_⟩,
      ⟨rfl, rfl, rfl, rfl, rfl, rfl, rfl⟩, ?_, ?_⟩
    · change max r s.trimRseq < max r s.trimRseq + len
      omega
    · intro b hb
      obtain rfl : b = _ := by simpa [vals] using hb
      change s.trimRseq < max r s.trimRseq + len
      omega
    · intro b hb
      obtain rfl : b = _ := by simpa [vals] using hb
      intro d hd
      have hfits := clip_fits htrim hdata d hd
      change max r s.trimRseq + d.length ≤ max r s.trimRseq + len
      omega
    · rw [upper, if_pos hfirst]
      rfl
    · rw [upper, if_pos hfirst]
      exact arrives_of_uncovered (by omega) (by rintro ⟨b, hb, -⟩; simp at hb)
  · -- the block is inserted into the list
    obtain ⟨⟨a, v⟩, suf, rfl⟩ := List.exists_cons_of_ne_nil (mt h.first_eq_none.mpr hfirst)
    have hfirst' : s.chunks.first = some a := h.represents.first_eq
    have hlist : s.chunks.toList = vals ((a, v) :: suf) := h.represents.toList_eq
    rw [hlist] at hfit hover
    have hreach : reaching ((a, v) :: suf) (max r s.trimRseq) ≤ suf.length + 1 := by
      refine (List.length_filter_le _ _).trans ?_
      simp
    simp only [List.length_cons] at hf
    obtain ⟨s₁, c₁, suf', hadd, hins⟩ := addAndCheck_spec env fuel [] suf a v
      (max r s.trimRseq) (r + len) (clip s data r) s h.represents h.ordered (by omega) hu
      (clip_dataOk htrim hdata) hfit (by omega)
    simp only [enqueue, hfirst', hadd] at hrun
    cases hrun
    have hover' : NoOverhang (vals ((a, v) :: suf)) (max r s.trimRseq) (r + len)
        (clip s data r) := by
      cases data with
      | none => exact hover
      | some d => trivial
    obtain ⟨l₁, c', w, l₂, rfl, rfl, harrives, -⟩ := hins.returns hover'
    have hord : Ordered (vals (l₁ ++ (c', w) :: l₂)) := by
      rw [hins.vals_eq]
      exact insertBlock_ordered h.ordered (by omega) hu
    rw [upper, if_neg hfirst]
    refine ⟨l₁, c', w, l₂, rfl, ⟨hins.represents, hord, fun b hb => ?_,
      hins.frame.autoTrim_eq.trans h.autoTrim_eq, fun b hb => ?_⟩, hins.frame, hins.vals_eq, harrives⟩
    · rw [hins.trimRseq_eq]
      have hok := (hord.ok b hb).1
      rw [hins.vals_eq] at hb
      rcases insertBlock_mem h.ordered hb with hb | hb
      · exact h.reaches b hb
      · omega
    · rw [hins.vals_eq] at hb
      exact insertBlock_fits h.fits (clip_fits htrim hdata) hb

/-- What a new block does, apart from what is buffered then. -/
inductive BlockStep (s s' : SpicySink) (l : List Block) (data : Option (List UInt8)) (r len : ℕ) :
    List Block → Prop
  | nothing (hlast : s'.lastReassemRseq = s.lastReassemRseq) (hcur : s'.curRseq = s.curRseq) :
      BlockStep s s' l data r len []
  | data {d : List UInt8} (hdata : data = some d)
      (hfast : r = s.curRseq ∧ s.chunks.first = none) (hlen : len ≠ 0) (hlast : s'.lastReassemRseq = r + len) (hcur : s'.curRseq = r + len) :
      BlockStep s s' l data r len [⟨r, r + len, some d⟩]
  | gap (hdata : data = none) (hfast : r = s.curRseq ∧ s.chunks.first = none) (hlen : len ≠ 0)
      (hlast : s'.lastReassemRseq = s.lastReassemRseq) (hcur : s'.curRseq = r + len) :
      BlockStep s s' l data r len []
  | reassembled {w : Block} {handed : List Block} (henq : Enqueues s r len)
      (hw : w ∈ insertBlock l (max r s.trimRseq) (upper s r len) (clip s data r))
      (hlast : w.rseq = s.lastReassemRseq)
      (harrives : Arrives l (max r s.trimRseq) (upper s r len) s.lastReassemRseq)
      (hdel : Delivers s s' (insertBlock l (max r s.trimRseq) (upper s r len) (clip s data r))
        handed) : BlockStep s s' l data r len handed

theorem insertBlock_rupper {l : List Block} {r u : ℕ} {d : Option (List UInt8)} {b : Block}
    (hb : b ∈ insertBlock l r u d) : b ∈ l ∨ b.rupper ≤ u := by
  induction l generalizing r d with
  | nil =>
    obtain rfl : b = ⟨r, u, d⟩ := by simpa [insertBlock] using hb
    exact .inr le_rfl
  | cons c l ih =>
    unfold insertBlock at hb
    split at hb
    · rcases List.mem_cons.mp hb with rfl | hb
      · exact .inl (by simp)
      · exact (ih hb).imp (fun h => by simp [h]) id
    split at hb
    · rcases List.mem_cons.mp hb with rfl | hb
      · exact .inr le_rfl
      · exact .inl hb
    · rename_i hu
      rcases List.mem_append.mp hb with hb | hb
      · right
        unfold prefixBlock at hb
        split at hb
        · split at hb
          · obtain rfl : b = _ := List.mem_singleton.mp hb
            exact (not_le.mp hu).le
          · simp at hb
        · simp at hb
      · rcases List.mem_cons.mp hb with rfl | hb
        · exact .inl (by simp)
        · split at hb
          · exact (ih hb).imp (fun h => by simp [h]) id
          · exact .inl (by simp [hb])

theorem newBlock_inserts {fuel : ℕ} {l : List (ℕ × Block)} (h : Listed s l)
    {data : Option (List UInt8)} {r len : ℕ} (hu : r + len < 2 ^ 64)
    (hdata : ∀ d, data = some d → d.length < 2 ^ 63 ∧ d.length = len)
    (hsafe : SafeBlock s data r len) (hf : 4 * l.length + 10 ≤ fuel)
    (hrun : newBlock env fuel data r len s = some s') :
    BlockStep s s' (vals l) data r len (handedBlock env fuel data r len s) ∧
      Gives s s' (handedBlock env fuel data r len s) ∧
      (∀ x ∈ handedBlock env fuel data r len s, x.Fits) ∧
      ∃ l', Listed s' l' ∧ ∀ b ∈ vals l', b ∈ vals l ∨ (Enqueues s r len ∧
        b ∈ insertBlock (vals l) (max r s.trimRseq) (upper s r len) (clip s data r)) := by
  have hsame : ∀ {t : SpicySink}, t = s → Listed t l ∧ ∀ b ∈ vals l, b ∈ vals l ∨ (Enqueues s r len ∧
      b ∈ insertBlock (vals l) (max r s.trimRseq) (upper s r len) (clip s data r)) := by
    rintro t rfl
    exact ⟨h, fun b hb => .inl hb⟩
  rw [newBlock_eq] at hrun
  unfold handedBlock
  by_cases hlen : len = 0
  · rw [if_pos hlen] at hrun ⊢
    cases hrun
    exact ⟨.nothing rfl rfl, .refl _, by simp, l, hsame rfl⟩
  rw [if_neg hlen] at hrun ⊢
  rw [uint64_of_lt hu] at hrun ⊢
  by_cases hfast : r = s.curRseq ∧ s.chunks.first = none
  · -- nothing is buffered, and the block is the next one
    rw [if_pos hfast] at hrun ⊢
    obtain rfl := h.first_eq_none.mp hfast.2
    obtain ⟨⟨s₁, delivered⟩, hchunk, hrun⟩ := Option.bind_eq_some_iff.mp hrun
    cases hrun
    cases data with
    | some d =>
      obtain ⟨-, hgives, hlast, hcur, -, hauto, hrep⟩ :=
        deliverChunk_some hchunk rfl h.represents h.autoTrim_eq (show _ < fuel by simp; omega)
      refine ⟨.data rfl hfast hlen hlast hcur, hgives, fun x hx => ?_, [], .nil hrep hauto,
        by simp⟩
      obtain rfl : x = _ := List.mem_singleton.mp hx
      intro d' hd'
      cases hd'
      exact (congrArg (r + ·) (hdata d rfl).2).le
    | none =>
      obtain ⟨-, hgives, hlast, hcur, hauto, hcase⟩ :=
        deliverChunk_none hchunk rfl h.represents h.autoTrim_eq (show _ < fuel by simp; omega)
      refine ⟨.gap rfl hfast hlen hlast hcur, hgives, by simp, [], ?_, by simp⟩
      rcases hcase with rfl | ⟨-, hrep⟩
      · exact h
      · exact .nil hrep hauto
  rw [if_neg hfast] at hrun ⊢
  by_cases hold : r + len ≤ s.trimRseq
  · rw [if_pos hold] at hrun ⊢
    cases hrun
    exact ⟨.nothing rfl rfl, .refl _, by simp, l, hsame rfl⟩
  have htrim : s.trimRseq < r + len := not_le.mp hold
  have henqueues : Enqueues s r len := ⟨hlen, hfast, htrim⟩
  rw [if_neg hold, cutOff_eq hu htrim hdata, Option.bind_some] at hrun ⊢
  obtain ⟨⟨s₁, c⟩, henq, hrun⟩ := Option.bind_eq_some_iff.mp hrun
  obtain ⟨pre, c', w, suf, rfl, hlisted, hframe, hvals, harrives⟩ :=
    enqueue_listed h hu hdata hlen hfast htrim hsafe (by omega) henq
  simp only [henq]
  simp only [Option.bind_some] at hrun
  have hcount : (pre ++ (c', w) :: suf).length ≤ 2 * l.length + 1 := by
    have := insertBlock_length (vals l) (max r s.trimRseq) (upper s r len) (clip s data r)
    rw [← hvals] at this
    simpa using this
  obtain ⟨hcase, l', hl', hsub⟩ := deliverFrom_listed hlisted (by omega) hrun
  have hlist : ∃ l', Listed s' l' ∧ ∀ b ∈ vals l', b ∈ vals l ∨ (Enqueues s r len ∧
      b ∈ insertBlock (vals l) (max r s.trimRseq) (upper s r len) (clip s data r)) := by
    refine ⟨l', hl', fun b hb => .inr ⟨henqueues, ?_⟩⟩
    rw [← hvals]
    exact hsub.subset hb
  rcases hcase with ⟨hnone, rfl⟩ | ⟨hle, hlt, hdel⟩
  · rw [hnone]
    exact ⟨.nothing hframe.lastReassemRseq_eq hframe.curRseq_eq, hframe.gives, by simp, hlist⟩
  · have hdel' : Delivers s s' (vals (pre ++ (c', w) :: suf)) (handedBehind env fuel c' s₁) := by
      have hgives := hframe.gives.trans hdel.gives
      have h1 := hdel.handed_eq
      have h2 := hdel.last_eq
      have h3 := hdel.cur_eq
      rw [hframe.lastReassemRseq_eq, hframe.curRseq_eq] at h1 h2 h3
      exact ⟨h1, h2, h3, hgives⟩
    rw [hframe.lastReassemRseq_eq] at hle hlt
    refine ⟨?_, hdel'.gives, hdel'.fits hlisted.fits, hlist⟩
    rcases hle.lt_or_eq with hacross | heq
    · have hin := inOrder_across s.curRseq hlisted.ordered (by simp) hacross hlt
      have hnone := hdel'.handed_eq
      have hlast := hdel'.last_eq
      have hcur := hdel'.cur_eq
      rw [hin] at hnone hlast hcur
      rw [hnone]
      exact .nothing hlast hcur
    · rw [hvals] at hdel'
      rw [heq] at harrives
      refine .reassembled henqueues ?_ heq harrives hdel'
      rw [← hvals]
      simp

/-! ## Operations -/

theorem skip_eq (env : Env) (fuel r : ℕ) (s : SpicySink) :
    skip env fuel r s = (skipTo env fuel r s).bind fun s => tryDeliver env fuel s.chunks.first s := by
  unfold skip skipTo
  simp only [Option.bind_eq_bind, Option.bind_assoc]
  congr 1
  funext t
  split
  · rw [Option.bind_assoc]
    rfl
  · rfl

theorem skip_listed {fuel r : ℕ} {l : List (ℕ × Block)} (h : Listed s l)
    (hf : 2 * l.length < fuel) (hrun : skip env fuel r s = some s') :
    ∃ t l', Listed s' l' ∧ (vals l').Sublist (vals l) ∧ Gives s t [] ∧ t.lastReassemRseq = r ∧
      t.curRseq = r ∧
      Delivers t s' (vals (l.dropWhile (endsBy r))) (handedSkip env fuel r s) := by
  obtain ⟨s₁, hrep, hframe₁, hch₁, htrim₁⟩ :=
    reportUndeliveredUpTo_spec env r l [] fuel s h.represents (by omega)
  rw [← h.represents.first_eq] at hrep
  obtain ⟨s₂, htrim, hrep₂, hframe₂, hr₂, -⟩ := trim_spec env r (s := s₁) (l := l)
    (hch₁ ▸ h.represents) (show l.length < fuel by omega)
  have hauto₁ : s₁.autoTrim = true := hframe₁.autoTrim_eq.trans h.autoTrim_eq
  set s₃ := reportSkip env r { s₂ with curRseq := r, lastReassemRseq := r } with hs₃
  have hto : skipTo env fuel r s = some s₃ := by
    simp only [skipTo, hrep, Option.bind_eq_bind, Option.bind_some, hauto₁, if_true, htrim, ← hs₃]
  have hlisted : Listed s₃ ([] ++ l.dropWhile (endsBy r)) :=
    h.trimmed hrep₂ hr₂ (hframe₂.autoTrim_eq.trans hauto₁)
  have hgives : Gives s s₃ [] := by
    have hframe₃ : Frame { s₂ with curRseq := r, lastReassemRseq := r } s₃ := report_frame _ rfl _
    have hgives₃ : Gives s₂ s₃ [] :=
      ⟨hframe₃.gives.initialSeq_eq, hframe₃.gives.filter_eq, hframe₃.gives.ids_sublist,
        hframe₃.gives.hands⟩
    exact (hframe₁.trans hframe₂).gives.trans hgives₃
  rw [skip_eq, hto, Option.bind_some, hlisted.represents.first_eq, List.nil_append] at hrun
  have hlen := (List.dropWhile_sublist (endsBy r) (l := l)).length_le
  obtain ⟨hdel, l', hl', hsub⟩ := tryDeliver_listed (l.dropWhile (endsBy r)) [] fuel s₃ hlisted
    (by rw [List.nil_append]; omega) hrun
  refine ⟨s₃, l', hl', hsub.trans ?_, hgives, rfl, rfl, ?_⟩
  · rw [List.nil_append]
    exact dropWhile_vals_sublist l r
  · unfold handedSkip
    rw [hto]
    simp only
    rw [hlisted.represents.first_eq, List.nil_append]
    exact hdel

theorem trim_listed {fuel r : ℕ} {l : List (ℕ × Block)} (h : Listed s l) (hf : l.length < fuel)
    (hrun : trim env fuel r s = some s') :
    Gives s s' [] ∧ s'.lastReassemRseq = s.lastReassemRseq ∧ s'.curRseq = s.curRseq ∧
      ∃ l', Listed s' l' ∧ (vals l').Sublist (vals l) := by
  obtain ⟨s₁, htrim, hrep, hframe, hr, -⟩ := trim_spec env r h.represents hf
  rw [htrim] at hrun
  cases hrun
  exact ⟨hframe.gives, hframe.lastReassemRseq_eq, hframe.curRseq_eq, _,
    h.trimmed hrep hr (hframe.autoTrim_eq.trans h.autoTrim_eq),
    dropWhile_vals_sublist l r⟩

theorem sinkClose_listed {fuel : ℕ} {l : List (ℕ × Block)} (h : Listed s l) (hf : l.length < fuel)
    (hrun : sinkClose env fuel s = some s') : Gives s s' [] ∧ Listed s' [] := by
  have hclosed := sinkClose_closed hrun
  obtain ⟨s₁, h₁, hrun⟩ := Option.bind_eq_some_iff.mp hrun
  obtain ⟨s₂, h₂, hrun⟩ := Option.bind_eq_some_iff.mp hrun
  obtain ⟨hparsed, -, -, hlog, -⟩ := finishAll_parsed fuel _ h₁
  obtain ⟨s₃, htrim, hrep, hframe, -, -⟩ := trim_spec env (2 ^ 64 - 1) (s := s₁) (l := l)
    (hparsed.chunks_eq ▸ h.represents) hf
  rw [h₂] at htrim
  cases htrim
  have hall : l.dropWhile (endsBy (2 ^ 64 - 1)) = [] := by
    rw [List.dropWhile_eq_nil_iff]
    intro e he
    have := (h.ordered.ok e.2 (List.mem_map_of_mem he)).2
    simp only [endsBy, decide_eq_true_eq]
    omega
  rw [hall] at hrep
  split at hrun
  · cases hrun
    refine ⟨⟨hclosed.initialSeq_eq, fun _ => hclosed.filter_eq, ?_, fun _ => ⟨[], ?_, .nil⟩⟩,
      .nil hrep (hclosed.autoTrim_eq.trans h.autoTrim_eq)⟩
    · unfold ids
      rw [hclosed.head_eq]
      exact List.nil_sublist _
    · rw [List.append_nil]
      exact hframe.deliveries_eq.trans (congrArg deliveries hlog)
  · cases hrun

/-- The operation closes the sink: it has a sequence number before the initial one. -/
def Closes (s : SpicySink) : Op → Prop
  | .write _ seq => seq < s.initialSeq
  | .append _ => False
  | .gap seq _ => seq < s.initialSeq
  | .skip seq => seq < s.initialSeq
  | .trim seq => seq < s.initialSeq
  | .close => True

/-- The data, the position and the length of the block that an operation adds, if it adds
one. -/
def Op.block (s : SpicySink) : Op → Option (Option (List UInt8) × ℕ × ℕ)
  | .write data seq =>
    if s.initialSeq ≤ seq then some (some data, seq - s.initialSeq, data.length) else none
  | .append data => some (some data, s.curRseq, data.length)
  | .gap seq len => if s.initialSeq ≤ seq then some (none, seq - s.initialSeq, len) else none
  | _ => none

/-- What one operation does to the positions of the sink, and the chunks it hands over. -/
inductive OpStep (s s' : SpicySink) (l : List Block) : Op → List Block → Prop
  | block {op : Op} {data : Option (List UInt8)} {r len : ℕ} {handed : List Block}
      (hblock : op.block s = some (data, r, len)) (hstep : BlockStep s s' l data r len handed) :
      OpStep s s' l op handed
  | skip {t : SpicySink} {seq : ℕ} {l' handed : List Block} (hseq : s.initialSeq ≤ seq)
      (hlast : t.lastReassemRseq = seq - s.initialSeq) (hcur : t.curRseq = seq - s.initialSeq)
      (hgives : Gives s t []) (hsub : l'.Sublist l) (hstep : Delivers t s' l' handed) :
      OpStep s s' l (.skip seq) handed
  | trim {seq : ℕ} (hseq : s.initialSeq ≤ seq) (hlast : s'.lastReassemRseq = s.lastReassemRseq)
      (hcur : s'.curRseq = s.curRseq) : OpStep s s' l (.trim seq) []
  | closed {op : Op} (hop : Closes s op) (hlast : s'.lastReassemRseq = 0) (hcur : s'.curRseq = 0) :
      OpStep s s' l op []

theorem Gives.of_excpt {e : Bool} {bs : List Block} (h : Gives { s with excpt := e } s' bs) :
    Gives s s' bs :=
  ⟨h.initialSeq_eq, h.filter_eq, h.ids_sublist, h.hands⟩

theorem BlockStep.of_excpt {e : Bool} {l handed : List Block} {data : Option (List UInt8)}
    {r len : ℕ} (h : BlockStep { s with excpt := e } s' l data r len handed) :
    BlockStep s s' l data r len handed := by
  cases h with
  | nothing hlast hcur => exact .nothing hlast hcur
  | data hdata hfast hlen hlast hcur => exact .data hdata hfast hlen hlast hcur
  | gap hdata hfast hlen hlast hcur => exact .gap hdata hfast hlen hlast hcur
  | reassembled henq hw hlast harrives hdel =>
    exact .reassembled henq hw hlast harrives
      ⟨hdel.handed_eq, hdel.last_eq, hdel.cur_eq, hdel.gives.of_excpt⟩

theorem checkSeq_closed {fuel seq : ℕ} {l : List (ℕ × Block)} {f : SpicySink → Option SpicySink}
    (h : Listed s l) (hf : l.length < fuel) (hseq : ¬ s.initialSeq ≤ seq)
    (hrun : checkSeq env fuel seq f s = some s') :
    Gives s s' [] ∧ Listed s' [] ∧ s'.lastReassemRseq = 0 ∧ s'.curRseq = 0 := by
  unfold checkSeq at hrun
  rw [if_neg hseq] at hrun
  obtain ⟨s₁, h₁, hrun⟩ := Option.bind_eq_some_iff.mp hrun
  have hclosed := sinkClose_closed h₁
  obtain ⟨hgives, hlisted⟩ := sinkClose_listed h hf h₁
  cases hrun
  exact ⟨⟨hgives.initialSeq_eq, hgives.filter_eq, hgives.ids_sublist, hgives.hands⟩,
    hlisted.of_eq rfl rfl rfl,
    hclosed.lastReassemRseq_eq, hclosed.curRseq_eq⟩

theorem perform_inserts {fuel : ℕ} {l : List (ℕ × Block)} (h : Listed s l) (op : Op)
    (hrange : InRange s op) (hsafe : Safe s op) (hf : 4 * l.length + 10 ≤ fuel)
    (hrun : perform env fuel op s = some s') :
    OpStep s s' (vals l) op (handedBy env fuel op s) ∧ Gives s s' (handedBy env fuel op s) ∧
      (∀ x ∈ handedBy env fuel op s, x.Fits) ∧
      ∃ l', Listed s' l' ∧ ∀ b ∈ vals l', b ∈ vals l ∨
        ∃ t ∈ op.block s, Enqueues s t.2.1 t.2.2 ∧ b ∈ insertBlock (vals l)
          (max t.2.1 s.trimRseq) (upper s t.2.1 t.2.2) (clip s t.1 t.2.1) := by
  have h₀ : Listed { s with excpt := false } l := h.of_eq rfl rfl rfl
  -- an operation with a sequence number that is refused
  have hclose : ∀ {seq : ℕ} {f : SpicySink → Option SpicySink}, ¬ s.initialSeq ≤ seq →
      checkSeq env fuel seq f { s with excpt := false } = some s' → Closes s op →
      OpStep s s' (vals l) op [] ∧ Gives s s' [] ∧ (∀ x ∈ ([] : List Block), x.Fits) ∧
        ∃ l', Listed s' l' ∧ ∀ b ∈ vals l', b ∈ vals l ∨
        ∃ t ∈ op.block s, Enqueues s t.2.1 t.2.2 ∧ b ∈ insertBlock (vals l)
          (max t.2.1 s.trimRseq) (upper s t.2.1 t.2.2) (clip s t.1 t.2.1) := by
    intro seq f hseq hcheck hop
    obtain ⟨hgives, hlisted, hlast, hcur⟩ := checkSeq_closed h₀ (by omega) hseq hcheck
    exact ⟨.closed hop hlast hcur, hgives.of_excpt, by simp, [], hlisted, by simp⟩
  -- an operation that adds a block
  have haddition : ∀ {data : Option (List UInt8)} {r len : ℕ} {handed : List Block},
      op.block s = some (data, r, len) →
      BlockStep { s with excpt := false } s' (vals l) data r len handed →
      Gives { s with excpt := false } s' handed → (∀ x ∈ handed, x.Fits) →
      (∃ l', Listed s' l' ∧ ∀ b ∈ vals l', b ∈ vals l ∨
        (Enqueues s r len ∧
          b ∈ insertBlock (vals l) (max r s.trimRseq) (upper s r len) (clip s data r))) →
      OpStep s s' (vals l) op handed ∧ Gives s s' handed ∧ (∀ x ∈ handed, x.Fits) ∧
        ∃ l', Listed s' l' ∧ ∀ b ∈ vals l', b ∈ vals l ∨
          ∃ t ∈ op.block s, Enqueues s t.2.1 t.2.2 ∧ b ∈ insertBlock (vals l)
          (max t.2.1 s.trimRseq) (upper s t.2.1 t.2.2) (clip s t.1 t.2.1) := by
    intro data r len handed hblock hstep hgives hfits hlist
    obtain ⟨l', hl', hbound⟩ := hlist
    exact ⟨.block hblock hstep.of_excpt, hgives.of_excpt, hfits, l', hl', fun b hb =>
      (hbound b hb).imp id fun h => ⟨(data, r, len), hblock, h⟩⟩
  cases op with
  | write data seq =>
    by_cases hseq : s.initialSeq ≤ seq
    · obtain ⟨hseq', hlen, hu⟩ := hrange
      have hhanded : handedBy env fuel (.write data seq) s = handedBlock env fuel (some data)
          (seq - s.initialSeq) data.length { s with excpt := false } := by
        simp only [handedBy, if_pos hseq, sub64_of_le hseq hseq']
      have hblock : newBlock env fuel (some data) (seq - s.initialSeq) data.length
          { s with excpt := false } = some s' := by
        rw [← hrun, ← sub64_of_le hseq hseq']
        exact (if_pos hseq).symm
      obtain ⟨hstep, hgives, hfits, hlist⟩ :=
        newBlock_inserts h₀ hu (by simpa using hlen) (hsafe hseq) hf hblock
      rw [hhanded]
      exact haddition (if_pos hseq) hstep hgives hfits hlist
    · have hhanded : handedBy env fuel (.write data seq) s = [] := if_neg hseq
      rw [hhanded]
      exact hclose hseq hrun (not_le.mp hseq)
  | append data =>
    obtain ⟨hstep, hgives, hfits, hlist⟩ :=
      newBlock_inserts h₀ hrange.2 (by simpa using hrange.1) hsafe hf hrun
    exact haddition rfl hstep hgives hfits hlist
  | gap seq len =>
    by_cases hseq : s.initialSeq ≤ seq
    · obtain ⟨hseq', hu⟩ := hrange
      have hhanded : handedBy env fuel (.gap seq len) s = handedBlock env fuel none
          (seq - s.initialSeq) len { s with excpt := false } := by
        simp only [handedBy, if_pos hseq, sub64_of_le hseq hseq']
      have hblock : newBlock env fuel none (seq - s.initialSeq) len
          { s with excpt := false } = some s' := by
        rw [← hrun, ← sub64_of_le hseq hseq']
        exact (if_pos hseq).symm
      obtain ⟨hstep, hgives, hfits, hlist⟩ :=
        newBlock_inserts h₀ hu (by simp) (hsafe hseq) hf hblock
      rw [hhanded]
      exact haddition (if_pos hseq) hstep hgives hfits hlist
    · have hhanded : handedBy env fuel (.gap seq len) s = [] := if_neg hseq
      rw [hhanded]
      exact hclose hseq hrun (not_le.mp hseq)
  | skip seq =>
    by_cases hseq : s.initialSeq ≤ seq
    · have hhanded : handedBy env fuel (.skip seq) s =
          handedSkip env fuel (seq - s.initialSeq) { s with excpt := false } := by
        simp only [handedBy, if_pos hseq, sub64_of_le hseq hrange]
      have hskip : skip env fuel (seq - s.initialSeq) { s with excpt := false } = some s' := by
        rw [← hrun, ← sub64_of_le hseq hrange]
        exact (if_pos hseq).symm
      obtain ⟨t, l', hlisted, hsub, hgives, hlast, hcur, hdel⟩ := skip_listed h₀ (by omega) hskip
      have hfits : ∀ b ∈ vals (l.dropWhile (endsBy (seq - s.initialSeq))), b.Fits :=
        fun b hb => h.fits b ((dropWhile_vals_sublist l _).subset hb)
      rw [hhanded]
      exact ⟨.skip hseq hlast hcur hgives.of_excpt (dropWhile_vals_sublist l _) hdel,
        hgives.of_excpt.trans hdel.gives, hdel.fits hfits, l', hlisted, fun b hb => .inl (hsub.subset hb)⟩
    · have hhanded : handedBy env fuel (.skip seq) s = [] := if_neg hseq
      rw [hhanded]
      exact hclose hseq hrun (not_le.mp hseq)
  | trim seq =>
    by_cases hseq : s.initialSeq ≤ seq
    · have htrim : trim env fuel (sub64 seq s.initialSeq) { s with excpt := false } = some s' := by
        rw [← hrun]
        exact (if_pos hseq).symm
      obtain ⟨hgives, hlast, hcur, l', hlisted, hsub⟩ := trim_listed h₀ (by omega) htrim
      exact ⟨.trim hseq hlast hcur, hgives.of_excpt, by simp [handedBy], l', hlisted,
        fun b hb => .inl (hsub.subset hb)⟩
    · exact hclose hseq hrun (not_le.mp hseq)
  | close =>
    have hclosed : Closed { s with excpt := false } s' := sinkClose_closed hrun
    obtain ⟨hgives, hlisted⟩ := sinkClose_listed h₀ (by omega) hrun
    exact ⟨.closed trivial hclosed.lastReassemRseq_eq hclosed.curRseq_eq, hgives.of_excpt,
      by simp [handedBy], [], hlisted, by simp⟩

theorem perform_listed {fuel : ℕ} {l : List (ℕ × Block)} (h : Listed s l) (op : Op)
    (hrange : InRange s op) (hsafe : Safe s op) (hf : 4 * l.length + 10 ≤ fuel)
    (hrun : perform env fuel op s = some s') :
    OpStep s s' (vals l) op (handedBy env fuel op s) ∧ Gives s s' (handedBy env fuel op s) ∧
      (∀ x ∈ handedBy env fuel op s, x.Fits) ∧
      ∃ l', Listed s' l' ∧ ∀ b ∈ vals l', b ∈ vals l ∨
        ∃ t ∈ op.block s, Enqueues s t.2.1 t.2.2 ∧ b.rupper ≤ upper s t.2.1 t.2.2 := by
  obtain ⟨hstep, hgives, hfits, l', hl', hmem⟩ := perform_inserts h op hrange hsafe hf hrun
  refine ⟨hstep, hgives, hfits, l', hl', fun b hb => ?_⟩
  rcases hmem b hb with hold | ⟨t, ht, henq, hnew⟩
  · exact .inl hold
  · exact (insertBlock_rupper hnew).imp id fun hu => ⟨t, ht, henq, hu⟩

theorem sinkNew_listed (initialSeq : ℕ) (ids : List ℕ) : Listed (sinkNew initialSeq ids) [] :=
  .nil empty_represents rfl

theorem handedAlong_cons {op : Op} (ops : List Op) (h : perform env (opFuel s) op s = some s') :
    handedAlong env s (op :: ops) = handedBy env (opFuel s) op s ++ handedAlong env s' ops := by
  rw [handedAlong, h]

theorem run_listed {start : SpicySink} (ops : List Op) :
    ∀ (s : SpicySink) (l : List (ℕ × Block)), Listed s l →
      (machine env start).Along (fun s op => InRange s op ∧ Safe s op) s ops →
      (machine env start).run s ops = some s' →
      Gives s s' (handedAlong env s ops) ∧ ∃ l', Listed s' l' := by
  induction ops with
  | nil =>
    intro s l h _ hrun
    cases hrun
    exact ⟨.refl _, l, h⟩
  | cons op ops ih =>
    intro s l h halong hrun
    obtain ⟨⟨hrange, hsafe⟩, hnext⟩ := halong
    obtain ⟨s₁, hperform, hrun⟩ := Option.bind_eq_some_iff.mp hrun
    have hlen := h.represents.length_le
    obtain ⟨-, hgives, -, l₁, h₁, -⟩ := perform_listed h op hrange hsafe
      (show _ ≤ opFuel s by unfold opFuel; omega) hperform
    obtain ⟨hgives', hlist⟩ := ih s₁ l₁ h₁ (hnext s₁ hperform) hrun
    rw [handedAlong_cons ops hperform]
    exact ⟨hgives.trans hgives', hlist⟩

end

end Hilti.Sink
