import Hilti.Sink.Buffer

/-!
# Trimming and delivery

One specification for each function of the sink that takes chunks out of the list
or hands data to the parsers.
-/

namespace Hilti.Sink

open Hilti.Lib Hilti.Lib.LinkedList

set_option autoImplicit false

/-- No parser disconnects one while it runs, and none suspends once its input is
complete, which `__finish_parser` asserts. -/
structure Env.Calm (env : Env) : Prop where
  disconnects_eq : ∀ p fed, env.disconnects p fed = []
  finish_ne : ∀ p fed, env.finish p fed ≠ .yield

/-- No parser is about to be removed. -/
def Connected (head : List ParserState) : Prop :=
  ∀ p ∈ head, p.disconnected = false

/-- The sink buffers the chunks `l`: they are in order, and none of them lies before
the position to which the sink has been trimmed. -/
structure Buffers (s : SpicySink) (l : List (ℕ × Block)) : Prop where
  represents : s.chunks.Represents l
  ordered : Ordered (vals l)
  reaches : ∀ b ∈ vals l, s.trimRseq < b.rupper
  autoTrim_eq : s.autoTrim = true
  connected : Connected s.head

section

variable {env : Env} {s : SpicySink}

/-! ## Trimming -/

/-- The chunks that end at `r` or before. -/
def endsBy (r : ℕ) (e : ℕ × Block) : Bool :=
  decide (e.2.rupper ≤ r)

variable (env) in
theorem trimLoop_spec (r : ℕ) (l : List (ℕ × Block)) : ∀ (fuel : ℕ) (s : SpicySink),
    s.chunks.Represents l → l.length < fuel →
    ∃ s', trimLoop env r fuel s.chunks.first s = some s' ∧
      s'.chunks.Represents (l.dropWhile (endsBy r)) ∧ Frame s s' ∧
      (env.Silent → s'.excpt = s.excpt) := by
  induction l with
  | nil =>
    intro fuel s h hf
    obtain ⟨fuel, rfl⟩ : ∃ n, fuel = n + 1 := ⟨fuel - 1, by simp at hf; omega⟩
    have hfirst : s.chunks.first = none := h.first_eq
    exact ⟨s, by simp [trimLoop, hfirst], h, .refl s, fun _ => rfl⟩
  | cons e l ih =>
    intro fuel s h hf
    obtain ⟨a, b⟩ := e
    obtain ⟨fuel, rfl⟩ : ∃ n, fuel = n + 1 := ⟨fuel - 1, by simp at hf; omega⟩
    have hfirst : s.chunks.first = some a := h.first_eq
    have hcell : s.chunks.heap a = some ⟨headAddr l none, none, b⟩ := h.chain.1
    by_cases hb : b.rupper ≤ r
    · -- the state after the report of undelivered data
      set s₁ := (b.data.elim s fun d =>
        if b.rupper < s.curRseq then reportUndelivered env b.rseq d s else s) with hs₁
      have hs₁' : s₁.chunks = s.chunks ∧ Frame s s₁ ∧ (env.Silent → s₁.excpt = s.excpt) := by
        rw [hs₁]
        cases b.data with
        | none => exact ⟨rfl, .refl s, fun _ => rfl⟩
        | some d =>
          rw [Option.elim_some]
          split
          · exact ⟨rfl, report_frame _ rfl s, fun henv => report_excpt henv _ s⟩
          · exact ⟨rfl, .refl s, fun _ => rfl⟩
      obtain ⟨hch, hframe, hexc⟩ := hs₁'
      obtain ⟨L, hremove, hrep, -⟩ := h.remove_first
      obtain ⟨s', hloop, hrep', hframe', hexc'⟩ :=
        ih fuel { s₁ with chunks := L.free a } hrep (by simpa using hf)
      have hfirst' : (L.free a).first = headAddr l none := hrep.first_eq
      refine ⟨s', ?_, ?_, hframe.trans (Frame.trans ?_ hframe'), fun henv => ?_⟩
      · have hstep : trimLoop env r (fuel + 1) (some a) s = (s₁.chunks.remove a).bind fun chunks =>
            trimLoop env r fuel (headAddr l none) { s₁ with chunks := chunks.free a } := by
          simp only [trimLoop, hcell, Option.bind_eq_bind, Option.bind_some, gt_iff_lt,
            if_neg (not_lt.mpr hb), hs₁]
          cases b.data with
          | none => rfl
          | some d => rfl
        rw [hfirst, hstep, hch, hremove, Option.bind_some, ← hfirst']
        exact hloop
      · simpa [endsBy, hb] using hrep'
      · exact ⟨rfl, rfl, rfl, rfl, rfl, rfl, rfl⟩
      · exact (hexc' henv).trans (hexc henv)
    · refine ⟨s, ?_, by simpa [endsBy, hb] using h, .refl s, fun _ => rfl⟩
      rw [hfirst, trimLoop, hcell]
      simp [lt_of_not_ge hb]

variable (env) in
theorem trim_spec {l : List (ℕ × Block)} {fuel : ℕ} (r : ℕ) (h : s.chunks.Represents l)
    (hf : l.length < fuel) :
    ∃ s', trim env fuel r s = some s' ∧ s'.chunks.Represents (l.dropWhile (endsBy r)) ∧
      Frame s s' ∧ s'.trimRseq = r ∧ (env.Silent → s'.excpt = s.excpt) := by
  obtain ⟨s', hloop, hrep, hframe, hexc⟩ := trimLoop_spec env r l fuel s h hf
  exact ⟨{ s' with trimRseq := r }, by simp [trim, hloop], hrep,
    hframe.trans ⟨rfl, rfl, rfl, rfl, rfl, rfl, rfl⟩, rfl, hexc⟩

theorem Ordered.of_dropWhile {l : List (ℕ × Block)} (h : Ordered (vals l)) (r : ℕ) :
    Ordered (vals (l.dropWhile (endsBy r))) := by
  have heq : vals l = vals (l.takeWhile (endsBy r)) ++ vals (l.dropWhile (endsBy r)) := by
    simp [vals, ← List.map_append, List.takeWhile_append_dropWhile]
  rw [heq] at h
  exact h.suffix

theorem dropWhile_reaches {l : List (ℕ × Block)} (h : Ordered (vals l)) (r : ℕ) :
    ∀ b ∈ vals (l.dropWhile (endsBy r)), r < b.rupper := by
  induction l with
  | nil => simp
  | cons e l ih =>
    by_cases he : e.2.rupper ≤ r
    · simpa [endsBy, he] using ih h.tail
    · rw [List.dropWhile_cons_of_neg (by simpa [endsBy] using he)]
      intro b hb
      rcases List.mem_cons.mp hb with rfl | hb
      · exact lt_of_not_ge he
      · have h1 := Ordered.head_le h b hb
        have h2 := (h.ok b (by simp [hb])).1
        omega

theorem dropWhile_rupper {pre suf : List (ℕ × Block)} {e : ℕ × Block}
    (h : Ordered (vals (pre ++ e :: suf))) :
    (pre ++ e :: suf).dropWhile (endsBy e.2.rupper) = suf := by
  have h' : Ordered (vals pre ++ vals (e :: suf)) := by simpa [vals] using h
  have he := (h'.ok e.2 (by simp)).1
  have hpre : ∀ x ∈ pre, endsBy e.2.rupper x = true := by
    intro x hx
    have := h'.append_le x.2 (List.mem_map_of_mem hx) e.2 (by simp)
    simp only [endsBy, decide_eq_true_eq]
    omega
  rw [List.dropWhile_append_of_pos hpre, List.dropWhile_cons_of_pos (by simp [endsBy])]
  cases suf with
  | nil => rfl
  | cons x suf =>
    have h1 := h'.suffix.head_le x.2 (by simp)
    have h2 := (h'.ok x.2 (by simp)).1
    rw [List.dropWhile_cons_of_neg]
    simp only [endsBy, decide_eq_true_eq]
    omega

/-! ## Handing data to the parsers -/

/-- Only parsers, the filter, the size, reports and the pending exception differ. -/
structure Fed (s s' : SpicySink) : Prop where
  autoTrim_eq : s'.autoTrim = s.autoTrim
  initialSeq_eq : s'.initialSeq = s.initialSeq
  curRseq_eq : s'.curRseq = s.curRseq
  lastReassemRseq_eq : s'.lastReassemRseq = s.lastReassemRseq
  trimRseq_eq : s'.trimRseq = s.trimRseq
  chunks_eq : s'.chunks = s.chunks
  connected : Connected s.head → Connected s'.head
  length_le : s'.head.length ≤ s.head.length

theorem Fed.refl (s : SpicySink) : Fed s s :=
  ⟨rfl, rfl, rfl, rfl, rfl, rfl, id, le_rfl⟩

theorem Fed.trans {s s' s'' : SpicySink} (h : Fed s s') (h' : Fed s' s'') : Fed s s'' where
  autoTrim_eq := h'.autoTrim_eq.trans h.autoTrim_eq
  initialSeq_eq := h'.initialSeq_eq.trans h.initialSeq_eq
  curRseq_eq := h'.curRseq_eq.trans h.curRseq_eq
  lastReassemRseq_eq := h'.lastReassemRseq_eq.trans h.lastReassemRseq_eq
  trimRseq_eq := h'.trimRseq_eq.trans h.trimRseq_eq
  chunks_eq := h'.chunks_eq.trans h.chunks_eq
  connected := fun h'' => h'.connected (h.connected h'')
  length_le := h'.length_le.trans h.length_le

theorem Fed.of_head {head : List ParserState} {log : List Event} {excpt : Bool}
    (hconn : Connected s.head → Connected head) (hlen : head.length ≤ s.head.length) :
    Fed s { s with head := head, log := log, excpt := excpt } :=
  ⟨rfl, rfl, rfl, rfl, rfl, rfl, hconn, hlen⟩

theorem Connected.set {head : List ParserState} (h : Connected head) (i : ℕ) {p : ParserState}
    (hp : p.disconnected = false) : Connected (head.set i p) := by
  intro q hq
  rcases List.mem_or_eq_of_mem_set hq with hq | rfl
  · exact h q hq
  · exact hp

theorem Connected.eraseIdx {head : List ParserState} (h : Connected head) (i : ℕ) :
    Connected (head.eraseIdx i) :=
  fun q hq => h q (List.mem_of_mem_eraseIdx hq)

theorem Connected.resumed {head : List ParserState} (h : Connected head) (i : ℕ) :
    Connected (head.modify i fun p => { p with resume := true }) := by
  intro q hq
  obtain ⟨j, hj⟩ := List.mem_iff_getElem?.mp hq
  rw [List.getElem?_modify] at hj
  obtain ⟨p, hp, rfl⟩ := Option.map_eq_some_iff.mp hj
  have := h p (List.mem_of_getElem? hp)
  split <;> exact this

theorem deliverLoop_spec (henv : env.Calm) (data : List UInt8) (fuel : ℕ) :
    ∀ (i : ℕ) (s : SpicySink), Connected s.head → s.head.length - i < fuel →
    ∃ s' aborted, deliverLoop env data fuel i s = some (s', aborted) ∧ Fed s s' := by
  induction fuel with
  | zero => intro i s _ hf; omega
  | succ fuel ih =>
    intro i s hconn hf
    cases hp : s.head[i]? with
    | none => exact ⟨s, false, by simp [deliverLoop, hp], .refl s⟩
    | some p =>
      have hi : i < s.head.length := (List.getElem?_eq_some_iff.mp hp).1
      have hdis : p.disconnected = false := hconn p (List.mem_of_getElem? hp)
      have hdis' : ¬ p.disconnected = true := by simp [hdis]
      by_cases hskip : p.fed ≠ [] ∧ p.resume = false
      · obtain ⟨s', ab, hloop, hfed⟩ := ih (i + 1) s hconn (by omega)
        exact ⟨s', ab, by simp [deliverLoop, hp, hdis, hskip, hloop], hfed⟩
      have hset : Connected (s.head.set i { p with fed := p.fed ++ [data], resume := false }) :=
        hconn.set i hdis
      set s₁ : SpicySink :=
        { s with
          head := s.head.set i { p with fed := p.fed ++ [data], resume := false }
          log := s.log ++ [Event.deliver p.id data] } with hs₁
      have hlen₁ : s₁.head.length = s.head.length := by simp [hs₁]
      have herase : (s₁.head.eraseIdx i).length + 1 = s.head.length := by
        rw [List.length_eraseIdx_of_lt (by omega), hlen₁]
        omega
      have hfuel : (s₁.head.eraseIdx i).length - i < fuel := by omega
      have hle : (s₁.head.eraseIdx i).length ≤ s.head.length := by omega
      have hremoved : ∀ e, Fed s { s₁ with head := s₁.head.eraseIdx i, excpt := e } :=
        fun e => .of_head (fun _ => hset.eraseIdx i) hle
      cases houtcome : env.parse p.id (p.fed ++ [data]) with
      | yield =>
        obtain ⟨s', ab, hloop, hfed⟩ := ih (i + 1)
          { s₁ with head := s₁.head.modify i fun p => { p with resume := true } }
          (Connected.resumed hset i) (by simp only [List.length_modify]; omega)
        refine ⟨s', ab, ?_, (Fed.of_head (fun _ => Connected.resumed hset i) (by simp)).trans hfed⟩
        simp only [deliverLoop, hp, if_neg hdis', if_neg hskip, henv.disconnects_eq,
          List.foldl_nil, houtcome]
        exact hloop
      | disabled =>
        obtain ⟨s', ab, hloop, hfed⟩ := ih i { s₁ with head := s₁.head.eraseIdx i }
          (Connected.eraseIdx hset i) hfuel
        refine ⟨s', ab, ?_, (hremoved s.excpt).trans hfed⟩
        simp only [deliverLoop, hp, if_neg hdis', if_neg hskip, henv.disconnects_eq,
          List.foldl_nil, houtcome]
        exact hloop
      | done =>
        obtain ⟨s', ab, hloop, hfed⟩ := ih i { s₁ with head := s₁.head.eraseIdx i }
          (Connected.eraseIdx hset i) hfuel
        refine ⟨s', ab, ?_, (hremoved s.excpt).trans hfed⟩
        simp only [deliverLoop, hp, if_neg hdis', if_neg hskip, henv.disconnects_eq,
          List.foldl_nil, houtcome]
        exact hloop
      | error =>
        refine ⟨_, true, ?_, hremoved true⟩
        simp only [deliverLoop, hp, if_neg hdis', if_neg hskip, henv.disconnects_eq,
          List.foldl_nil, houtcome, hs₁]

theorem finishDisconnected_eq {fuel : ℕ} (hconn : Connected s.head) (hf : 0 < fuel) :
    finishDisconnected env fuel s = some s := by
  obtain ⟨fuel, rfl⟩ : ∃ n, fuel = n + 1 := ⟨fuel - 1, by omega⟩
  have hnone : s.head.findIdx? (fun p => p.disconnected) = none := by
    rw [List.findIdx?_eq_none_iff]
    exact fun p hp => hconn p hp
  rw [finishDisconnected, hnone]

theorem deliverData_spec (henv : env.Calm) {fuel : ℕ} (hconn : Connected s.head)
    (hf : s.head.length < fuel) (data : List UInt8) :
    ∃ s', deliverData env fuel data s = some s' ∧ Fed s s' := by
  have hgo : ∀ (filter : Option (List (List UInt8))) (data : List UInt8),
      let s := { s with filter := filter, size := uint64 (s.size + data.length) }
      ∃ s', (if s.excpt then some s else if s.head = [] then some s else
        (deliverLoop env data fuel 0 s).bind fun r =>
          if r.2 then some r.1 else finishDisconnected env fuel r.1) = some s' ∧ Fed s s' := by
    intro filter data s₁
    split
    · exact ⟨s₁, rfl, .refl s₁⟩
    split
    · exact ⟨s₁, rfl, .refl s₁⟩
    obtain ⟨s₂, aborted, hloop, hfed⟩ :=
      deliverLoop_spec henv data fuel 0 s₁ hconn (by simpa [s₁] using hf)
    refine ⟨s₂, ?_, hfed⟩
    simp only [hloop, Option.bind_some]
    split
    · rfl
    · exact finishDisconnected_eq (hfed.connected hconn) (by omega)
  have hfed₁ : ∀ (filter : Option (List (List UInt8))) (size : ℕ),
      Fed s { s with filter := filter, size := size } :=
    fun _ _ => ⟨rfl, rfl, rfl, rfl, rfl, rfl, id, le_rfl⟩
  unfold deliverData
  cases hfilter : s.filter with
  | none =>
    obtain ⟨s', heq, hfed⟩ := hgo s.filter data
    exact ⟨s', heq, (hfed₁ _ _).trans hfed⟩
  | some given =>
    cases hdec : env.decode (given ++ [data]) with
    | none =>
      refine ⟨{ s with filter := some (given ++ [data]) }, ?_, hfed₁ _ s.size⟩
      simp only [hdec]
    | some decoded =>
      obtain ⟨s', heq, hfed⟩ := hgo (some (given ++ [data])) decoded
      refine ⟨s', ?_, (hfed₁ _ _).trans hfed⟩
      simp only [hdec]
      exact heq

/-! ## Delivering chunks -/

theorem deliverChunk_data (henv : env.Calm) {fuel : ℕ} {l : List (ℕ × Block)} {b : Block}
    {data : List UInt8} (hb : b.data = some data) (h : s.chunks.Represents l)
    (hauto : s.autoTrim = true) (hconn : Connected s.head) (hl : l.length < fuel)
    (hf : s.head.length < fuel) :
    ∃ s₁ s', deliverData env fuel data s = some s₁ ∧ Fed s s₁ ∧
      deliverChunk env fuel b s = some (s', true) ∧
      Frame { s₁ with curRseq := b.rupper, lastReassemRseq := b.rupper } s' ∧
      s'.trimRseq = b.rupper ∧ s'.chunks.Represents (l.dropWhile (endsBy b.rupper)) ∧
      (env.Silent → s'.excpt = s₁.excpt) := by
  obtain ⟨s₁, hdata, hfed⟩ := deliverData_spec henv hconn hf data
  have hauto₁ : s₁.autoTrim = true := hfed.autoTrim_eq.trans hauto
  have h₁ : s₁.chunks.Represents l := hfed.chunks_eq ▸ h
  obtain ⟨s', htrim, hrep, hframe, htrim', hexc⟩ := trim_spec env b.rupper
    (s := { s₁ with curRseq := b.rupper, lastReassemRseq := b.rupper }) h₁ hl
  refine ⟨s₁, s', hdata, hfed, ?_, hframe, htrim', hrep, hexc⟩
  simp only [deliverChunk, hb, hdata, Option.bind_eq_bind, Option.bind_some]
  rw [if_pos hauto₁, htrim]
  rfl

variable (env) in
theorem deliverChunk_gap {fuel : ℕ} {l : List (ℕ × Block)} {b : Block} (hb : b.data = none)
    (h : s.chunks.Represents l) (hauto : s.autoTrim = true) (hl : l.length < fuel) :
    ∃ s', deliverChunk env fuel b s = some (s', false) ∧
      ((s.curRseq = b.rupper ∧ s' = s) ∨ (Frame { s with curRseq := b.rupper } s' ∧
        s'.trimRseq = b.rseq ∧ s'.chunks.Represents (l.dropWhile (endsBy b.rseq)))) := by
  by_cases hcur : s.curRseq = b.rupper
  · exact ⟨s, by simp [deliverChunk, hb, hcur], .inl ⟨hcur, rfl⟩⟩
  · set s₁ := { reportGap env b.rseq (sub64 b.rupper b.rseq) s with curRseq := b.rupper } with hs₁
    have hframe₁ : Frame { s with curRseq := b.rupper } s₁ :=
      report_frame _ rfl { s with curRseq := b.rupper }
    obtain ⟨s', htrim, hrep, hframe, htrim', -⟩ :=
      trim_spec env b.rseq (s := s₁) h hl
    have hauto₁ : s₁.autoTrim = true := hauto
    refine ⟨s', ?_, .inr ⟨hframe₁.trans hframe, htrim', hrep⟩⟩
    simp only [deliverChunk, hb, ne_eq, hcur, not_false_eq_true, if_true, ← hs₁, htrim,
      Option.bind_eq_bind, Option.bind_some]
    rw [if_pos hauto₁]

theorem Buffers.of_dropWhile {s' : SpicySink} {l : List (ℕ × Block)} {r : ℕ}
    (hord : Ordered (vals l)) (hrep : s'.chunks.Represents (l.dropWhile (endsBy r)))
    (htrim : s'.trimRseq = r) (hauto : s'.autoTrim = true) (hconn : Connected s'.head) :
    Buffers s' (l.dropWhile (endsBy r)) where
  represents := hrep
  ordered := hord.of_dropWhile r
  reaches := htrim ▸ dropWhile_reaches hord r
  autoTrim_eq := hauto
  connected := hconn

theorem Buffers.of_frame {s' : SpicySink} {l : List (ℕ × Block)} (h : Buffers s l)
    (hframe : Frame s s') (hch : s'.chunks = s.chunks) (htrim : s'.trimRseq = s.trimRseq) :
    Buffers s' l where
  represents := hch ▸ h.represents
  ordered := h.ordered
  reaches := htrim ▸ h.reaches
  autoTrim_eq := hframe.autoTrim_eq.trans h.autoTrim_eq
  connected := hframe.head_eq ▸ h.connected

theorem Buffers.deliverChunk (henv : env.Calm) {fuel : ℕ} {pre suf : List (ℕ × Block)} {a : ℕ}
    {b : Block} (h : Buffers s (pre ++ (a, b) :: suf)) (hl : (pre ++ (a, b) :: suf).length < fuel)
    (hf : s.head.length < fuel) :
    ∃ s' delivered, deliverChunk env fuel b s = some (s', delivered) ∧
      s'.head.length ≤ s.head.length ∧ (delivered = true → Buffers s' suf) ∧
      ∃ l, Buffers s' l := by
  cases hb : b.data with
  | some data =>
    obtain ⟨s₁, s', -, hfed, heq, hframe, htrim, hrep, -⟩ :=
      deliverChunk_data henv hb h.represents h.autoTrim_eq h.connected hl hf
    have hbuf := Buffers.of_dropWhile h.ordered hrep htrim
      (hframe.autoTrim_eq.trans (hfed.autoTrim_eq.trans h.autoTrim_eq))
      (hframe.head_eq ▸ hfed.connected h.connected)
    rw [dropWhile_rupper (e := (a, b)) h.ordered] at hbuf
    refine ⟨s', true, heq, ?_, fun _ => hbuf, suf, hbuf⟩
    rw [hframe.head_eq]
    exact hfed.length_le
  | none =>
    obtain ⟨s', heq, hcase⟩ :=
      deliverChunk_gap env hb h.represents h.autoTrim_eq hl
    rcases hcase with ⟨-, rfl⟩ | ⟨hframe, htrim, hrep⟩
    · exact ⟨s', false, heq, le_rfl, by simp, _, h⟩
    · refine ⟨s', false, heq, by rw [hframe.head_eq], by simp, _,
        Buffers.of_dropWhile h.ordered hrep htrim (hframe.autoTrim_eq.trans h.autoTrim_eq) ?_⟩
      rw [hframe.head_eq]
      exact h.connected

theorem tryDeliver_spec (henv : env.Calm) (suf : List (ℕ × Block)) :
    ∀ (pre : List (ℕ × Block)) (fuel : ℕ) (s : SpicySink), Buffers s (pre ++ suf) →
    suf.length + (pre ++ suf).length + s.head.length + 1 < fuel →
    ∃ s' l, tryDeliver env fuel (headAddr suf none) s = some s' ∧ Buffers s' l := by
  induction suf with
  | nil =>
    intro pre fuel s h hf
    obtain ⟨fuel, rfl⟩ : ∃ n, fuel = n + 1 := ⟨fuel - 1, by omega⟩
    exact ⟨s, pre ++ [], rfl, h⟩
  | cons e suf ih =>
    intro pre fuel s h hf
    obtain ⟨a, b⟩ := e
    obtain ⟨fuel, rfl⟩ : ∃ n, fuel = n + 1 := ⟨fuel - 1, by omega⟩
    have hcell := h.represents.heap_eq
    simp only [List.length_append, List.length_cons] at hf
    have hnext : tryDeliver env (fuel + 1) (some a) s =
        if b.rseq ≤ s.lastReassemRseq then
          if b.rseq = s.lastReassemRseq then
            (Sink.deliverChunk env fuel b { s with
              lastReassemRseq := uint64 (s.lastReassemRseq + sub64 b.rupper b.rseq) }).bind
              fun r => if r.2 then tryDeliver env fuel (headAddr suf none) r.1 else some r.1
          else tryDeliver env fuel (headAddr suf none) s
        else some s := by
      simp only [tryDeliver, hcell, Option.bind_eq_bind, Option.bind_some]
    rw [show headAddr ((a, b) :: suf) none = some a from rfl, hnext]
    split
    · split
      · -- the chunk is delivered
        have h₁ : Buffers { s with
            lastReassemRseq := uint64 (s.lastReassemRseq + sub64 b.rupper b.rseq) }
            (pre ++ (a, b) :: suf) :=
          ⟨h.represents, h.ordered, h.reaches, h.autoTrim_eq, h.connected⟩
        obtain ⟨s', delivered, heq, hlen, hbuf, hany⟩ := h₁.deliverChunk henv
          (show (pre ++ (a, b) :: suf).length < fuel by
            simp only [List.length_append, List.length_cons]; omega)
          (show s.head.length < fuel by omega)
        rw [heq, Option.bind_some]
        cases delivered with
        | true =>
          have hlen' : s'.head.length ≤ s.head.length := hlen
          exact ih [] fuel s' (hbuf rfl) (by simp only [List.nil_append]; omega)
        | false => exact ⟨s', hany.choose, rfl, hany.choose_spec⟩
      · -- the chunk lies before what was delivered
        exact ih (pre ++ [(a, b)]) fuel s (by simpa using h)
          (by simp only [List.length_append, List.length_cons, List.length_nil]; omega)
    · exact ⟨s, _, rfl, h⟩

variable (env) in
theorem reportUndeliveredUpTo_spec (r : ℕ) (suf : List (ℕ × Block)) :
    ∀ (pre : List (ℕ × Block)) (fuel : ℕ) (s : SpicySink), s.chunks.Represents (pre ++ suf) →
    suf.length < fuel →
    ∃ s', reportUndeliveredUpTo env r fuel (headAddr suf none) s = some s' ∧ Frame s s' ∧
      s'.chunks = s.chunks ∧ s'.trimRseq = s.trimRseq := by
  induction suf with
  | nil =>
    intro pre fuel s h hf
    obtain ⟨fuel, rfl⟩ : ∃ n, fuel = n + 1 := ⟨fuel - 1, by simp at hf; omega⟩
    exact ⟨s, rfl, .refl s, rfl, rfl⟩
  | cons e suf ih =>
    intro pre fuel s h hf
    obtain ⟨a, b⟩ := e
    obtain ⟨fuel, rfl⟩ : ∃ n, fuel = n + 1 := ⟨fuel - 1, by simp at hf; omega⟩
    have hcell := h.heap_eq
    by_cases hb : b.rseq < r
    · set s₁ := (b.data.elim s fun d => reportUndelivered env b.rseq (if b.rupper ≤ r then d
        else bytesTake (int64 (sub64 b.rupper r)) d) s) with hs₁
      have hs₁' : s₁.chunks = s.chunks ∧ Frame s s₁ ∧ s₁.trimRseq = s.trimRseq := by
        rw [hs₁]
        cases b.data with
        | none => exact ⟨rfl, .refl s, rfl⟩
        | some d => exact ⟨rfl, report_frame _ rfl s, rfl⟩
      obtain ⟨hch, hframe, htrim⟩ := hs₁'
      obtain ⟨s', heq, hframe', hch', htrim'⟩ := ih (pre ++ [(a, b)]) fuel s₁
        (by rw [hch]; simpa using h) (by simpa using hf)
      refine ⟨s', ?_, hframe.trans hframe', hch'.trans hch, htrim'.trans htrim⟩
      rw [← heq]
      simp only [headAddr, reportUndeliveredUpTo, hcell, Option.bind_eq_bind, Option.bind_some,
        if_pos hb, hs₁]
      cases b.data with
      | none => rfl
      | some d => rfl
    · exact ⟨s, by simp [headAddr, reportUndeliveredUpTo, hcell, hb], .refl s, rfl, rfl⟩

end

end Hilti.Sink
