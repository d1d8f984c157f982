import Hilti.Sink.Moved

/-!
# Closing a sink

What `spicyhilti_sink_close` leaves behind.  A closed sink has no parsers, no filter and no
chunks, but it keeps its initial sequence number and the number of bytes that it has counted.
If these are zero, then it does what a new sink does.
-/

namespace Hilti.Sink

open Hilti.Lib

set_option autoImplicit false

section

variable {env : Env}

/-! ## What calls leave as it is -/

/-- Chunks are only written where there are some, and the initial sequence number and the
automatic trimming stay as they are. -/
structure Stays (s s' : SpicySink) : Prop where
  confined : s.chunks.Confined → s'.chunks.Confined
  initialSeq_eq : s'.initialSeq = s.initialSeq
  autoTrim_eq : s'.autoTrim = s.autoTrim

theorem Stays.refl (s : SpicySink) : Stays s s :=
  ⟨id, rfl, rfl⟩

theorem Stays.trans {s s' s'' : SpicySink} (h : Stays s s') (h' : Stays s' s'') : Stays s s'' where
  confined hc := h'.confined (h.confined hc)
  initialSeq_eq := h'.initialSeq_eq.trans h.initialSeq_eq
  autoTrim_eq := h'.autoTrim_eq.trans h.autoTrim_eq

theorem Stays.of_eq {s s' : SpicySink} (hchunks : s'.chunks = s.chunks)
    (hinitial : s'.initialSeq = s.initialSeq) (hauto : s'.autoTrim = s.autoTrim) : Stays s s' :=
  ⟨fun h => hchunks ▸ h, hinitial, hauto⟩

section

variable {s s' : SpicySink}

theorem reportUndeliveredUpTo_stays {r : ℕ} (fuel : ℕ) :
    ∀ (c : Option ℕ) (s : SpicySink), reportUndeliveredUpTo env r fuel c s = some s' →
      Stays s s' := by
  induction fuel with
  | zero =>
    intro c s h
    cases h
  | succ fuel ih =>
    intro c s h
    cases c with
    | none =>
      cases h
      exact .refl _
    | some c =>
      obtain ⟨cell, -, h⟩ := Option.bind_eq_some_iff.mp h
      split at h
      · refine Stays.trans ?_ (ih _ _ h)
        split
        · exact .refl _
        · exact .of_eq rfl rfl rfl
      · cases h
        exact .refl _

/-- What trimming leaves as it is. -/
structure Trimmed (s s' : SpicySink) : Prop extends Stays s s' where
  size_eq : s'.size = s.size
  head_eq : s'.head = s.head
  filter_eq : s'.filter = s.filter

theorem trimLoop_trimmed {r : ℕ} (fuel : ℕ) :
    ∀ (c : Option ℕ) (s : SpicySink), trimLoop env r fuel c s = some s' → Trimmed s s' := by
  induction fuel with
  | zero =>
    intro c s h
    cases h
  | succ fuel ih =>
    intro c s h
    cases c with
    | none =>
      cases h
      exact ⟨.refl _, rfl, rfl, rfl⟩
    | some c =>
      obtain ⟨cell, -, h⟩ := Option.bind_eq_some_iff.mp h
      have hnext : ∀ t : SpicySink, t.chunks = s.chunks → t.initialSeq = s.initialSeq →
          t.autoTrim = s.autoTrim → t.size = s.size → t.head = s.head → t.filter = s.filter →
          ((t.chunks.remove c).bind fun chunks =>
            trimLoop env r fuel cell.next { t with chunks := chunks.free c }) = some s' →
          Trimmed s s' := by
        intro t hchunks hinitial hauto hsize hhead hfilter h
        obtain ⟨chunks, hremove, h⟩ := Option.bind_eq_some_iff.mp h
        have hrest := ih _ _ h
        rw [hchunks] at hremove
        exact ⟨⟨fun hc => hrest.confined ((hc.remove hremove).free c),
          hrest.initialSeq_eq.trans hinitial, hrest.autoTrim_eq.trans hauto⟩,
          hrest.size_eq.trans hsize, hrest.head_eq.trans hhead, hrest.filter_eq.trans hfilter⟩
      split at h
      · cases h
        exact ⟨.refl _, rfl, rfl, rfl⟩
      · refine hnext _ ?_ ?_ ?_ ?_ ?_ ?_ h
        all_goals
          split
          · rfl
          · split <;> rfl

theorem trim_trimmed {fuel r : ℕ} (h : trim env fuel r s = some s') : Trimmed s s' := by
  obtain ⟨s₁, h₁, h⟩ := Option.bind_eq_some_iff.mp h
  cases h
  have hloop := trimLoop_trimmed fuel _ _ h₁
  exact ⟨⟨hloop.confined, hloop.initialSeq_eq, hloop.autoTrim_eq⟩, hloop.size_eq, hloop.head_eq,
    hloop.filter_eq⟩

/-- What parsers leave as it is. -/
structure Parsed (s s' : SpicySink) : Prop where
  chunks_eq : s'.chunks = s.chunks
  initialSeq_eq : s'.initialSeq = s.initialSeq
  autoTrim_eq : s'.autoTrim = s.autoTrim
  curRseq_eq : s'.curRseq = s.curRseq
  lastReassemRseq_eq : s'.lastReassemRseq = s.lastReassemRseq
  trimRseq_eq : s'.trimRseq = s.trimRseq

theorem Parsed.refl (s : SpicySink) : Parsed s s :=
  ⟨rfl, rfl, rfl, rfl, rfl, rfl⟩

theorem Parsed.trans {s s' s'' : SpicySink} (h : Parsed s s') (h' : Parsed s' s'') :
    Parsed s s'' where
  chunks_eq := h'.chunks_eq.trans h.chunks_eq
  initialSeq_eq := h'.initialSeq_eq.trans h.initialSeq_eq
  autoTrim_eq := h'.autoTrim_eq.trans h.autoTrim_eq
  curRseq_eq := h'.curRseq_eq.trans h.curRseq_eq
  lastReassemRseq_eq := h'.lastReassemRseq_eq.trans h.lastReassemRseq_eq
  trimRseq_eq := h'.trimRseq_eq.trans h.trimRseq_eq

theorem Parsed.stays (h : Parsed s s') : Stays s s' :=
  .of_eq h.chunks_eq h.initialSeq_eq h.autoTrim_eq

theorem finishParser_parsed {i : ℕ} (h : finishParser env i s = some s') :
    Parsed s s' ∧ s'.size = s.size ∧ s'.filter = s.filter ∧ s'.log = s.log := by
  obtain ⟨p, -, h⟩ := Option.bind_eq_some_iff.mp h
  split at h
  · split at h <;> cases h <;> exact ⟨⟨rfl, rfl, rfl, rfl, rfl, rfl⟩, rfl, rfl, rfl⟩
  · cases h
    exact ⟨⟨rfl, rfl, rfl, rfl, rfl, rfl⟩, rfl, rfl, rfl⟩

theorem deliverLoop_parsed {data : List UInt8} {aborted : Bool} (fuel : ℕ) :
    ∀ (i : ℕ) (s : SpicySink), deliverLoop env data fuel i s = some (s', aborted) →
      Parsed s s' := by
  induction fuel with
  | zero =>
    intro i s h
    cases h
  | succ fuel ih =>
    intro i s h
    rw [deliverLoop] at h
    split at h
    · cases h
      exact .refl _
    · split at h
      · exact ih _ _ h
      · split at h
        · exact ih _ _ h
        · simp only at h
          split at h
          · refine Parsed.trans ?_ (ih _ _ h)
            exact ⟨rfl, rfl, rfl, rfl, rfl, rfl⟩
          · refine Parsed.trans ?_ (ih _ _ h)
            exact ⟨rfl, rfl, rfl, rfl, rfl, rfl⟩
          · refine Parsed.trans ?_ (ih _ _ h)
            exact ⟨rfl, rfl, rfl, rfl, rfl, rfl⟩
          · cases h
            exact ⟨rfl, rfl, rfl, rfl, rfl, rfl⟩

theorem finishDisconnected_parsed (fuel : ℕ) :
    ∀ s : SpicySink, finishDisconnected env fuel s = some s' → Parsed s s' := by
  induction fuel with
  | zero =>
    intro s h
    cases h
  | succ fuel ih =>
    intro s h
    rw [finishDisconnected] at h
    split at h
    · cases h
      exact .refl _
    · obtain ⟨s₁, h₁, h⟩ := Option.bind_eq_some_iff.mp h
      have hparsed := (finishParser_parsed h₁).1
      refine Parsed.trans ?_ (ih _ h)
      exact hparsed.trans ⟨rfl, rfl, rfl, rfl, rfl, rfl⟩

theorem feed_parsed {fuel : ℕ} {data : List UInt8} (h : feed env fuel data s = some s') :
    Parsed s s' := by
  unfold feed at h
  simp only at h
  split at h
  · cases h
    exact ⟨rfl, rfl, rfl, rfl, rfl, rfl⟩
  split at h
  · cases h
    exact ⟨rfl, rfl, rfl, rfl, rfl, rfl⟩
  obtain ⟨⟨s₁, aborted⟩, h₁, h⟩ := Option.bind_eq_some_iff.mp h
  have hloop : Parsed s s₁ := by
    refine Parsed.trans ?_ (deliverLoop_parsed fuel 0 _ h₁)
    exact ⟨rfl, rfl, rfl, rfl, rfl, rfl⟩
  simp only at h
  split at h
  · cases h
    exact hloop
  · exact hloop.trans (finishDisconnected_parsed fuel s₁ h)

theorem deliverData_parsed {fuel : ℕ} {data : List UInt8}
    (h : deliverData env fuel data s = some s') : Parsed s s' := by
  rw [deliverData_eq] at h
  split at h
  · exact feed_parsed h
  · split at h
    · cases h
      exact ⟨rfl, rfl, rfl, rfl, rfl, rfl⟩
    · refine Parsed.trans ?_ (feed_parsed h)
      exact ⟨rfl, rfl, rfl, rfl, rfl, rfl⟩

theorem deliverChunk_stays {fuel : ℕ} {b : Block} {delivered : Bool}
    (h : deliverChunk env fuel b s = some (s', delivered)) : Stays s s' := by
  have htrim : ∀ {t : SpicySink} {r : ℕ} {d : Bool},
      (if t.autoTrim then (trim env fuel r t).bind fun s => some (s, d) else some (t, d)) =
        some (s', delivered) → Stays t s' := by
    intro t r d h
    split at h
    · obtain ⟨s₁, h₁, h⟩ := Option.bind_eq_some_iff.mp h
      cases h
      exact (trim_trimmed h₁).toStays
    · cases h
      exact .refl _
  rw [deliverChunk] at h
  split at h
  · split at h
    · refine Stays.trans ?_ (htrim h)
      exact .of_eq rfl rfl rfl
    · cases h
      exact .refl _
  · obtain ⟨s₁, h₁, h⟩ := Option.bind_eq_some_iff.mp h
    refine Stays.trans ((deliverData_parsed h₁).stays.trans ?_) (htrim h)
    exact .of_eq rfl rfl rfl

theorem tryDeliver_stays (fuel : ℕ) :
    ∀ (c : Option ℕ) (s : SpicySink), tryDeliver env fuel c s = some s' → Stays s s' := by
  induction fuel with
  | zero =>
    intro c s h
    cases h
  | succ fuel ih =>
    intro c s h
    cases c with
    | none =>
      cases h
      exact .refl _
    | some c =>
      obtain ⟨cell, -, h⟩ := Option.bind_eq_some_iff.mp h
      split at h
      · split at h
        · obtain ⟨⟨s₁, delivered⟩, h₁, h⟩ := Option.bind_eq_some_iff.mp h
          have hstays : Stays s s₁ := by
            refine Stays.trans ?_ (deliverChunk_stays h₁)
            exact .of_eq rfl rfl rfl
          simp only at h
          split at h
          · exact hstays.trans (ih _ _ h)
          · cases h
            exact hstays
        · exact ih _ _ h
      · cases h
        exact .refl _

theorem newChunk_stays {prev : Option ℕ} {b : Block} {c : ℕ}
    (h : newChunk prev b s = some (s', c)) : Stays s s' := by
  obtain ⟨chunks, hins, h⟩ := Option.bind_eq_some_iff.mp h
  cases h
  exact ⟨fun hc => (hc.alloc b).insertAfter hins, rfl, rfl⟩

theorem splitPrefix_stays {b r : ℕ} {cell : Cell Block} {data : Option (List UInt8)}
    {t : Option ℕ × ℕ × Option (List UInt8)} (h : splitPrefix b cell r data s = some (s', t)) :
    Stays s s' := by
  unfold splitPrefix at h
  split at h
  · simp only at h
    split at h
    · obtain ⟨⟨s₁, c⟩, h₁, h⟩ := Option.bind_eq_some_iff.mp h
      obtain ⟨d, -, h⟩ := Option.bind_eq_some_iff.mp h
      cases h
      exact newChunk_stays h₁
    · cases h
      exact .refl _
  · cases h
    exact .refl _

theorem remainder_stays {n : ℤ} {data : Option (List UInt8)} {rest : List UInt8}
    (h : remainder n data s = some (s', rest)) : Stays s s' := by
  cases data with
  | none =>
    cases h
    exact .of_eq rfl rfl rfl
  | some d =>
    obtain ⟨d', -, h⟩ := Option.bind_eq_some_iff.mp h
    cases h
    exact .refl _

theorem addAndCheck_stays (fuel : ℕ) :
    ∀ (b r u : ℕ) (data : Option (List UInt8)) (s s' : SpicySink) (c : Option ℕ),
      addAndCheck env fuel b r u data s = some (s', c) → Stays s s' := by
  induction fuel with
  | zero =>
    intro b r u data s s' c h
    cases h
  | succ fuel ih =>
    intro b r u data s s' c h
    have hnew : ∀ {prev : Option ℕ} {v : Block},
        ((newChunk prev v s).bind fun r => some (r.1, some r.2)) = some (s', c) → Stays s s' := by
      intro prev v h
      obtain ⟨⟨s₁, c₁⟩, h₁, h⟩ := Option.bind_eq_some_iff.mp h
      cases h
      exact newChunk_stays h₁
    rw [addAndCheck_succ] at h
    obtain ⟨first, -, h⟩ := Option.bind_eq_some_iff.mp h
    obtain ⟨last, -, h⟩ := Option.bind_eq_some_iff.mp h
    obtain ⟨lastCell, -, h⟩ := Option.bind_eq_some_iff.mp h
    split at h
    · exact hnew h
    obtain ⟨b', -, h⟩ := Option.bind_eq_some_iff.mp h
    obtain ⟨cell, -, h⟩ := Option.bind_eq_some_iff.mp h
    split at h
    · exact hnew h
    split at h
    · exact hnew h
    obtain ⟨⟨s₁, newB, r', data'⟩, h₁, h⟩ := Option.bind_eq_some_iff.mp h
    have hstays : ∀ e, Stays s (report env e s₁) :=
      fun e => (splitPrefix_stays h₁).trans (.of_eq rfl rfl rfl)
    simp only at h
    generalize (if int64 (sub64 u r') < int64 (sub64 cell.val.rupper r') then int64 (sub64 u r')
      else int64 (sub64 cell.val.rupper r')) = len at h
    unfold goOn at h
    simp only at h
    split at h
    · obtain ⟨⟨s₂, rest⟩, h₂, h⟩ := Option.bind_eq_some_iff.mp h
      obtain ⟨⟨s₃, c₃⟩, h₃, h⟩ := Option.bind_eq_some_iff.mp h
      cases h
      exact ((hstays _).trans (remainder_stays h₂)).trans (ih _ _ _ _ _ _ _ h₃)
    · cases h
      exact hstays _

theorem newBlock_stays {fuel r len : ℕ} {data : Option (List UInt8)}
    (h : newBlock env fuel data r len s = some s') : Stays s s' := by
  rw [newBlock_eq] at h
  split at h
  · cases h
    exact .refl _
  split at h
  · obtain ⟨⟨s₁, d⟩, h₁, h⟩ := Option.bind_eq_some_iff.mp h
    cases h
    exact deliverChunk_stays h₁
  split at h
  · cases h
    exact .refl _
  obtain ⟨⟨r', data'⟩, -, h⟩ := Option.bind_eq_some_iff.mp h
  obtain ⟨⟨s₁, c⟩, h₁, h⟩ := Option.bind_eq_some_iff.mp h
  obtain ⟨c', -, h⟩ := Option.bind_eq_some_iff.mp h
  have hstays : Stays s s₁ := by
    unfold enqueue at h₁
    split at h₁
    · cases h₁
      exact ⟨fun hc => hc.alloc _, rfl, rfl⟩
    · exact addAndCheck_stays _ _ _ _ _ _ _ _ h₁
  obtain ⟨cell, -, h⟩ := Option.bind_eq_some_iff.mp h
  split at h
  · cases h
    exact hstays
  · exact hstays.trans (tryDeliver_stays _ _ _ h)

theorem finishAll_parsed (fuel : ℕ) :
    ∀ s : SpicySink, finishAll env fuel s = some s' →
      Parsed s s' ∧ s'.size = s.size ∧ s'.filter = s.filter ∧ s'.log = s.log ∧ s'.head = [] := by
  induction fuel with
  | zero =>
    intro s h
    cases h
  | succ fuel ih =>
    intro s h
    rw [finishAll] at h
    split at h
    · rename_i hnil
      cases h
      exact ⟨.refl _, rfl, rfl, rfl, hnil⟩
    · obtain ⟨s₁, h₁, h⟩ := Option.bind_eq_some_iff.mp h
      obtain ⟨hparsed, hsize, hfilter, hlog⟩ := finishParser_parsed h₁
      obtain ⟨hparsed', hsize', hfilter', hlog', hhead⟩ := ih s₁ h
      exact ⟨hparsed.trans hparsed', hsize'.trans hsize, hfilter'.trans hfilter, hlog'.trans hlog,
        hhead⟩

/-- A closed sink. -/
structure Closed (s s' : SpicySink) : Prop extends Stays s s' where
  head_eq : s'.head = []
  filter_eq : s'.filter = none
  size_eq : s'.size = s.size
  curRseq_eq : s'.curRseq = 0
  lastReassemRseq_eq : s'.lastReassemRseq = 0
  trimRseq_eq : s'.trimRseq = 0
  first_eq : s'.chunks.first = none
  last_eq : s'.chunks.last = none

theorem sinkClose_closed {fuel : ℕ} (h : sinkClose env fuel s = some s') : Closed s s' := by
  obtain ⟨s₁, h₁, h⟩ := Option.bind_eq_some_iff.mp h
  obtain ⟨s₂, h₂, h⟩ := Option.bind_eq_some_iff.mp h
  obtain ⟨hparsed, hsize, hfilter, -, hhead⟩ := finishAll_parsed fuel _ h₁
  have htrim := trim_trimmed h₂
  split at h
  · rename_i hempty
    cases h
    refine ⟨⟨fun hc => htrim.confined ?_, ?_, ?_⟩, htrim.head_eq.trans hhead,
      htrim.filter_eq.trans hfilter, htrim.size_eq.trans hsize, rfl, rfl, rfl, hempty.1, hempty.2⟩
    · rw [hparsed.chunks_eq]
      exact hc
    · exact htrim.initialSeq_eq.trans hparsed.initialSeq_eq
    · exact htrim.autoTrim_eq.trans hparsed.autoTrim_eq
  · cases h

theorem checkSeq_stays {fuel seq : ℕ} {f : SpicySink → Option SpicySink}
    (hf : ∀ {t}, f s = some t → Stays s t) (h : checkSeq env fuel seq f s = some s') :
    Stays s s' := by
  unfold checkSeq at h
  split at h
  · exact hf h
  · obtain ⟨s₁, h₁, h⟩ := Option.bind_eq_some_iff.mp h
    cases h
    exact (sinkClose_closed h₁).toStays.trans (.of_eq rfl rfl rfl)

theorem skip_stays {fuel r : ℕ} (h : skip env fuel r s = some s') : Stays s s' := by
  obtain ⟨s₁, h₁, h⟩ := Option.bind_eq_some_iff.mp h
  have hstays := reportUndeliveredUpTo_stays fuel _ _ h₁
  split at h
  · obtain ⟨s₂, h₂, h⟩ := Option.bind_eq_some_iff.mp h
    refine Stays.trans ?_ (tryDeliver_stays fuel _ _ h)
    exact (hstays.trans (trim_trimmed h₂).toStays).trans (.of_eq rfl rfl rfl)
  · refine Stays.trans ?_ (tryDeliver_stays fuel _ _ h)
    exact hstays.trans (.of_eq rfl rfl rfl)

theorem perform_stays {fuel : ℕ} {op : Op} (h : perform env fuel op s = some s') : Stays s s' := by
  have hstays : Stays s { s with excpt := false } := .of_eq rfl rfl rfl
  refine hstays.trans ?_
  cases op with
  | write data seq => exact checkSeq_stays newBlock_stays h
  | append data => exact newBlock_stays h
  | gap seq len => exact checkSeq_stays newBlock_stays h
  | skip seq => exact checkSeq_stays skip_stays h
  | trim seq => exact checkSeq_stays (fun h => (trim_trimmed h).toStays) h
  | close => exact (sinkClose_closed h).toStays

/-! ## After closing -/

/-- What holds of a sink after any calls. -/
structure Ready (s : SpicySink) : Prop where
  confined : s.chunks.Confined
  initialSeq_lt : s.initialSeq < 2 ^ 64
  autoTrim_eq : s.autoTrim = true

theorem Stays.ready (h : Stays s s') (hs : Ready s) : Ready s' where
  confined := h.confined hs.confined
  initialSeq_lt := h.initialSeq_eq ▸ hs.initialSeq_lt
  autoTrim_eq := h.autoTrim_eq.trans hs.autoTrim_eq

theorem closeWithError_stays {fuel : ℕ} (h : closeWithError env fuel s = some s') :
    Stays s s' := by
  obtain ⟨s₁, h₁, h⟩ := Option.bind_eq_some_iff.mp h
  cases h
  exact (sinkClose_closed h₁).toStays.trans (.of_eq rfl rfl rfl)

theorem call_ready {fuel : ℕ} {c : Call} (hs : Ready s) (h : call env fuel c s = some s') :
    Ready s' := by
  have hs₀ : Ready { s with excpt := false } := ⟨hs.confined, hs.initialSeq_lt, hs.autoTrim_eq⟩
  cases c with
  | connect id =>
    cases h
    exact ⟨hs.confined, hs.initialSeq_lt, hs.autoTrim_eq⟩
  | disconnect id =>
    cases h
    exact ⟨hs.confined, hs.initialSeq_lt, hs.autoTrim_eq⟩
  | addFilter =>
    cases h
    exact ⟨hs.confined, hs.initialSeq_lt, hs.autoTrim_eq⟩
  | op op =>
    have hperform : perform env fuel op { s with excpt := false } = some s' := h
    exact (perform_stays hperform).ready hs₀
  | setPolicy first =>
    cases first with
    | false =>
      have hclose : closeWithError env fuel { s with excpt := false } = some s' := h
      exact (closeWithError_stays hclose).ready hs₀
    | true =>
      cases h
      exact hs₀
  | setAutoTrim enable =>
    cases enable with
    | false =>
      have hclose : closeWithError env fuel { s with excpt := false } = some s' := h
      exact (closeWithError_stays hclose).ready hs₀
    | true =>
      cases h
      exact hs₀
  | setInitialSequenceNumber seq =>
    have hlt : uint64 seq < 2 ^ 64 := Nat.mod_lt _ (by norm_num)
    change sinkSetInitialSequenceNumber env fuel seq { s with excpt := false } = some s' at h
    unfold sinkSetInitialSequenceNumber at h
    split at h
    · obtain ⟨s₁, h₁, h⟩ := Option.bind_eq_some_iff.mp h
      cases h
      have hready := (closeWithError_stays h₁).ready hs₀
      exact ⟨hready.confined, hlt, hready.autoTrim_eq⟩
    · cases h
      exact ⟨hs.confined, hlt, hs.autoTrim_eq⟩

theorem run_ready {fuel : ℕ} (calls : List Call) :
    ∀ s : SpicySink, Ready s → (sinkCalls env fuel).run s calls = some s' → Ready s' := by
  induction calls with
  | nil =>
    intro s hs h
    cases h
    exact hs
  | cons c calls ih =>
    intro s hs h
    obtain ⟨s₁, h₁, h⟩ := Option.bind_eq_some_iff.mp h
    exact ih s₁ (call_ready hs h₁) h

theorem sinkNew_ready : Ready (sinkNew 0 []) :=
  ⟨fun _ _ => rfl, by norm_num [sinkNew], rfl⟩

theorem Closed.eq_moved (h : Closed s s') (hs : Ready s) (hsize : s.size = 0)
    (hinitial : s.initialSeq = 0) :
    s' = SpicySink.moved s'.chunks.heap s'.chunks.fresh s'.log
      { sinkNew 0 [] with excpt := s'.excpt } := by
  have hchunks := (h.confined hs.confined).eq_relocate h.first_eq h.last_eq
  have hhead := h.head_eq
  have hfilter := h.filter_eq
  have hsize' := h.size_eq.trans hsize
  have hinitial' := h.initialSeq_eq.trans hinitial
  have hauto := h.autoTrim_eq.trans hs.autoTrim_eq
  have hcur := h.curRseq_eq
  have hlast := h.lastReassemRseq_eq
  have htrim := h.trimRseq_eq
  obtain ⟨head, filter, size, autoTrim, initialSeq, curRseq, lastReassemRseq, trimRseq, chunks, excpt,
    log⟩ := s'
  simp only at hchunks hhead hfilter hsize' hinitial' hauto hcur hlast htrim
  simp only [SpicySink.moved, sinkNew, List.append_nil, List.map_nil, SpicySink.mk.injEq, hhead,
    hfilter, hsize', hinitial', hauto, hcur, hlast, htrim, true_and, and_true]
  exact hchunks

/-- After closing, with any history, what a sink does is what a new one does exactly if it
had not counted any bytes and no initial sequence number was set. -/
theorem close_resets_iff (env : Env) (fuel : ℕ) (history : List Call) (s s' : SpicySink)
    (hrun : (sinkCalls env fuel).run (sinkNew 0 []) history = some s)
    (hclose : sinkClose env fuel s = some s') :
    (∀ (fuel : ℕ) (calls : List Call),
      ((sinkCalls env fuel).run s' calls).map (observed s'.log.length) =
        ((sinkCalls env fuel).run (sinkNew 0 []) calls).map (observed 0)) ↔
      s.size = 0 ∧ s.initialSeq = 0 := by
  have hs : Ready s := run_ready history _ sinkNew_ready hrun
  have hclosed := sinkClose_closed hclose
  constructor
  · intro h
    have hnil := h 0 []
    simp only [Machine.run_nil, Option.map_some, Option.some.injEq, observed, Prod.mk.injEq, sinkSize,
      sinkSequence, hclosed.size_eq, hclosed.curRseq_eq, hclosed.initialSeq_eq] at hnil
    refine ⟨hnil.2.1, ?_⟩
    have hseq := hnil.2.2
    rwa [Nat.zero_add, uint64_of_lt hs.initialSeq_lt] at hseq
  · rintro ⟨hsize, hinitial⟩ fuel calls
    have hmoved := hclosed.eq_moved hs hsize hinitial
    have hseen : ∀ t : SpicySink,
        observed s'.log.length (t.moved s'.chunks.heap s'.chunks.fresh s'.log) = observed 0 t := by
      intro t
      simp [observed, SpicySink.moved, sinkSize, sinkSequence]
    have hexcpt : ((sinkCalls env fuel).run { sinkNew 0 [] with excpt := s'.excpt } calls).map
        (observed 0) = ((sinkCalls env fuel).run (sinkNew 0 []) calls).map (observed 0) := by
      cases calls <;> rfl
    have hsame : (sinkCalls env fuel).run s' calls =
        ((sinkCalls env fuel).run { sinkNew 0 [] with excpt := s'.excpt } calls).map
          (SpicySink.moved s'.chunks.heap s'.chunks.fresh s'.log) := by
      rw [← run_moved, ← hmoved]
    rw [← hexcpt, hsame, Option.map_map]
    exact congrArg (fun f => Option.map f _) (funext hseen)

end

end

/-- A parser is connected, a gap is reported to it, and data behind the gap waits. -/
def gapHistory : List Call :=
  [.connect 1, .op (.gap 0 5), .op (.write [1, 2] 7)]

/-- Nothing of this is left after closing the sink. -/
theorem close_resets_gap :
    ∃ s s', (sinkCalls waitingEnv 30).run (sinkNew 0 []) gapHistory = some s ∧
      s.chunks.first ≠ none ∧ sinkClose waitingEnv 30 s = some s' ∧
      ∀ (fuel : ℕ) (calls : List Call),
        ((sinkCalls waitingEnv fuel).run s' calls).map (observed s'.log.length) =
          ((sinkCalls waitingEnv fuel).run (sinkNew 0 []) calls).map (observed 0) :=
  ⟨_, _, rfl, by decide, rfl, (close_resets_iff waitingEnv 30 gapHistory _ _ rfl rfl).mpr ⟨rfl, rfl⟩⟩

/-- After a byte was delivered, a closed sink still counts it. -/
theorem close_keeps_size :
    ∃ s s', (sinkCalls waitingEnv 30).run (sinkNew 0 []) [.connect 1, .op (.append [1])] = some s ∧
      sinkClose waitingEnv 30 s = some s' ∧
      ¬ ∀ (fuel : ℕ) (calls : List Call),
        ((sinkCalls waitingEnv fuel).run s' calls).map (observed s'.log.length) =
          ((sinkCalls waitingEnv fuel).run (sinkNew 0 []) calls).map (observed 0) := by
  refine ⟨_, _, rfl, rfl, fun h => ?_⟩
  have hnil := h 0 []
  revert hnil
  decide

end Hilti.Sink
