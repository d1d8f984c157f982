import Hilti.ThreadQueue.Delivery

/-! # When an element is promised (`libhilti/tqueue.c`)

`hlt_thread_queue_can_read` asks whether the reader has a batch, not whether there is anything left in
it. A batch stays with the reader when its last element has been read, until the next read lets go of
it. So the next read returns an element at once if the reader has one left or a batch is pending, and
otherwise it may come out with nothing. -/

namespace Hilti.ThreadQueue
open Hilti.Lib
set_option autoImplicit false

variable {α : Type}

def Action.byWriter : Action α → Bool
  | .write _ _ => true
  | .flush _ => true
  | .terminate _ => true
  | .writer _ => true
  | .read _ => false
  | .reader => false

def Action.byReader : Action α → Bool
  | .reader => true
  | _ => false

/-- The reader has an element of its own that it has not handed out. -/
def hasUnread (s : State α) : Bool :=
  match s.readerHead with
  | [] => false
  | b :: rest => s.readerPos < b.elems.length || !rest.isEmpty

/-- Whatever the writers do before and during the next read, it does not come out with nothing, it
returns an element, and it takes at most four steps to do so. -/
def Honoured (cfg : Config) (s : State α) : Prop :=
  ∀ (early : List (Action α)) (timeout : ℤ) (acts : List (Action α)) (t : State α),
    (∀ a ∈ early, a.byWriter) → (∀ a ∈ acts, a.byWriter ∨ a.byReader) →
    (machine α cfg).run s (early ++ .read timeout :: acts) = some t →
      ¬ FindsNothing t ∧ (t.readerPc = .idle → ∃ o e, t.results = s.results ++ [.elem o e]) ∧
        (4 ≤ acts.countP Action.byReader → t.readerPc = .idle)

/-! ## Batches are not empty -/

/-- What is handed over has elements in it. -/
structure Filled (s : State α) : Prop where
  flushing : ∀ w k, s.writerPc w = .flushLock k → ∃ b ∈ s.writerBatches w, b.elems ≠ []
  pending : ∀ b ∈ s.lockPending, b.elems ≠ []
  fetched : ∀ b ∈ s.readerHead.tail, b.elems ≠ []
  start : s.readerPos = 0 → ∀ b ∈ s.readerHead.head?, b.elems ≠ []

theorem filled_new : Filled (hltThreadQueueNew α) where
  flushing w k h := by cases h
  pending b h := by cases h
  fetched b h := by cases h
  start _ b h := by cases h

section

variable {cfg : Config} {s t : State α}

theorem Filled.setPc (h : Filled s) (w : ℕ) {pc : WriterPc α}
    (hpc : ∀ k, pc = .flushLock k → ∃ b ∈ s.writerBatches w, b.elems ≠ []) :
    Filled (s.setPc w pc) := by
  refine ⟨fun v k hv => ?_, h.pending, h.fetched, h.start⟩
  by_cases hvw : v = w
  · rw [hvw] at hv ⊢
    have hv : Function.update s.writerPc w pc w = .flushLock k := hv
    rw [Function.update_self] at hv
    exact hpc k hv
  · exact h.flushing v k ((Function.update_of_ne hvw _ _).symm.trans hv)

theorem getBatch_filled (h : Filled s) (w : ℕ) (e : α) (hpc : s.writerPc w = .getBatch e) :
    Filled (getBatch cfg s w e) := by
  unfold getBatch
  split
  · have hnew : Filled { s with
        writerBatches := Function.update s.writerBatches w (some ⟨w, []⟩) } := by
      refine ⟨fun v k hv => ?_, h.pending, h.fetched, h.start⟩
      have hv : s.writerPc v = .flushLock k := hv
      have hvw : v ≠ w := by
        rintro rfl
        rw [hpc] at hv
        cases hv
      obtain ⟨b, hb, hne⟩ := h.flushing v k hv
      exact ⟨b, (Function.update_of_ne hvw _ _).trans hb, hne⟩
    dsimp only
    split <;> exact hnew.setPc w fun k hk => by cases hk
  · split <;> exact h.setPc w fun k hk => by cases hk

theorem store_filled (h : Filled s) (w : ℕ) (e : α) (hpc : s.writerPc w = .store e)
    (hs : store cfg s w e = some t) : Filled t := by
  unfold store at hs
  split at hs
  · cases hs
  · rename_i b hb
    split at hs
    · cases hs
      have hnew : Filled { s with
          writerBatches := Function.update s.writerBatches w (some ⟨b.owner, b.elems ++ [e]⟩)
          writerNumWritten := Function.update s.writerNumWritten w (u64 (s.writerNumWritten w + 1))
          written := Function.update s.written w (s.written w ++ [e]) } := by
        refine ⟨fun v k hv => ?_, h.pending, h.fetched, h.start⟩
        have hv : s.writerPc v = .flushLock k := hv
        have hvw : v ≠ w := by
          rintro rfl
          rw [hpc] at hv
          cases hv
        obtain ⟨c, hc, hne⟩ := h.flushing v k hv
        exact ⟨c, (Function.update_of_ne hvw _ _).trans hc, hne⟩
      exact hnew.setPc w fun k hk => by cases hk
    · cases hs

theorem flushEntry_filled (h : Filled s) (w : ℕ) (k : Return α) : Filled (flushEntry s w k) := by
  unfold flushEntry
  split
  · rename_i o e es hb
    exact h.setPc w fun _ _ => ⟨⟨o, e :: es⟩, hb, List.cons_ne_nil e es⟩
  · split <;> exact h.setPc w fun k hk => by cases hk
  · exact h.setPc w fun j hj => by cases k <;> cases hj

theorem flushLocked_filled (h : Filled s) (w : ℕ) (k : Return α) (hpc : s.writerPc w = .flushLock k) :
    Filled (flushLocked cfg s w k) := by
  have hreturn : ∀ j, returnTo k = .flushLock j → False := fun j hj => by cases k <;> cases hj
  unfold flushLocked
  split
  · exact h.setPc w fun j hj => (hreturn j hj).elim
  · rename_i b hb
    split
    · exact h
    · split
      · refine ⟨fun v j hv => ?_, fun c hc => ?_, h.fetched, h.start⟩
        · by_cases hvw : v = w
          · subst hvw
            exact (hreturn j ((Function.update_self v _ s.writerPc).symm.trans hv)).elim
          · obtain ⟨c, hc, hne⟩ :=
              h.flushing v j ((Function.update_of_ne hvw _ s.writerPc).symm.trans hv)
            exact ⟨c, (Function.update_of_ne hvw _ _).trans hc, hne⟩
        · obtain ⟨b', hb', hne⟩ := h.flushing w k hpc
          cases hb.symm.trans hb'
          rcases List.mem_append.mp hc with hc | hc
          · exact h.pending c hc
          · rw [List.mem_singleton.mp hc]
            exact hne
      · exact ⟨h.flushing, h.pending, h.fetched, h.start⟩

theorem writerStep_filled (h : Filled s) (w : ℕ) (hs : writerStep cfg s w = some t) : Filled t := by
  unfold writerStep at hs
  split at hs
  · cases hs
  · rename_i e hpc
    cases hs
    exact getBatch_filled h w e hpc
  · rename_i e hpc
    exact store_filled h w e hpc hs
  · cases hs
    unfold writerUpdate
    split <;> exact h.setPc w fun k hk => by cases hk
  · cases hs
    exact flushEntry_filled h w _
  · rename_i k hpc
    cases hs
    exact flushLocked_filled h w k hpc

theorem readScan_filled (h : Filled s) (block : Bool) (timeout : ℤ) :
    Filled (readScan s block timeout) := by
  unfold readScan
  split
  · exact ⟨h.flushing, h.pending, h.fetched, h.start⟩
  · rename_i b rest hhead
    have hrest : ∀ c ∈ rest, c.elems ≠ [] := fun c hc => h.fetched c (by rw [hhead]; exact hc)
    dsimp only
    split
    · exact ⟨h.flushing, h.pending, h.fetched, fun hzero => absurd hzero (Nat.succ_ne_zero _)⟩
    · exact ⟨h.flushing, h.pending, fun c hc => hrest c (List.mem_of_mem_tail hc),
        fun _ c hc => hrest c (List.mem_of_mem_head? hc)⟩

theorem readerStep_filled (h : Filled s) (hs : readerStep cfg s = some t) : Filled t := by
  unfold readerStep at hs
  split at hs
  · cases hs
  · cases hs
    exact readScan_filled h _ _
  · cases hs
    exact ⟨h.flushing, fun b hb => (by cases hb), fun b hb => h.pending b (List.mem_of_mem_tail hb),
      fun _ b hb => h.pending b (List.mem_of_mem_head? hb)⟩
  · cases hs
    unfold readNothing
    dsimp only
    split <;> exact ⟨h.flushing, h.pending, h.fetched, h.start⟩

theorem next_filled {a : Action α} (h : Filled s) (hn : next cfg s a = some t) : Filled t := by
  cases a with
  | write w e =>
    simp only [next, hltThreadQueueWrite] at hn
    split at hn
    · split at hn
      · split at hn
        · cases hn
          exact h
        · cases hn
          exact h.setPc w fun k hk => by cases hk
      · cases hn
    · cases hn
  | flush w =>
    simp only [next, hltThreadQueueFlush] at hn
    split at hn
    · split at hn
      · cases hn
        exact h.setPc w fun k hk => by cases hk
      · cases hn
    · cases hn
  | terminate w =>
    simp only [next, hltThreadQueueTerminateWriter] at hn
    split at hn
    · split at hn
      · cases hn
        have hnew : Filled { s with
            lockWritersTerminated := Function.update s.lockWritersTerminated w true } :=
          ⟨h.flushing, h.pending, h.fetched, h.start⟩
        exact hnew.setPc w fun k hk => by cases hk
      · cases hn
    · cases hn
  | writer w =>
    simp only [next] at hn
    split at hn
    · exact writerStep_filled h w hn
    · cases hn
  | read timeout =>
    simp only [next, hltThreadQueueRead] at hn
    split at hn
    · cases hn
      exact ⟨h.flushing, h.pending, h.fetched, h.start⟩
    · cases hn
  | reader => exact readerStep_filled h hn

theorem reachable_filled (h : (machine α cfg).Reachable s) : Filled s :=
  h.invariant filled_new fun s t a hs (hn : next cfg s a = some t) => next_filled hs hn

/-! ## What the writers leave alone -/

/-- The reader's fields are the same, and nothing is taken off the pending batches. -/
structure Beside (s t : State α) : Prop where
  pc : t.readerPc = s.readerPc
  head : t.readerHead = s.readerHead
  pos : t.readerPos = s.readerPos
  results : t.results = s.results
  pending : s.lockPending <+: t.lockPending

theorem Beside.refl (s : State α) : Beside s s := ⟨rfl, rfl, rfl, rfl, List.prefix_rfl⟩

theorem Beside.trans {u : State α} (h : Beside s t) (h' : Beside t u) : Beside s u :=
  ⟨h'.pc.trans h.pc, h'.head.trans h.head, h'.pos.trans h.pos, h'.results.trans h.results,
    h.pending.trans h'.pending⟩

theorem writerStep_beside {w : ℕ} (hs : writerStep cfg s w = some t) : Beside s t := by
  unfold writerStep at hs
  split at hs
  · cases hs
  · cases hs
    unfold getBatch
    split
    · dsimp only
      split <;> exact ⟨rfl, rfl, rfl, rfl, List.prefix_rfl⟩
    · split <;> exact ⟨rfl, rfl, rfl, rfl, List.prefix_rfl⟩
  · unfold store at hs
    split at hs
    · cases hs
    · split at hs
      · cases hs
        exact ⟨rfl, rfl, rfl, rfl, List.prefix_rfl⟩
      · cases hs
  · cases hs
    unfold writerUpdate
    split <;> exact ⟨rfl, rfl, rfl, rfl, List.prefix_rfl⟩
  · cases hs
    unfold flushEntry
    split
    · exact ⟨rfl, rfl, rfl, rfl, List.prefix_rfl⟩
    · split <;> exact ⟨rfl, rfl, rfl, rfl, List.prefix_rfl⟩
    · exact ⟨rfl, rfl, rfl, rfl, List.prefix_rfl⟩
  · cases hs
    unfold flushLocked
    split
    · exact ⟨rfl, rfl, rfl, rfl, List.prefix_rfl⟩
    · split
      · exact Beside.refl s
      · split
        · exact ⟨rfl, rfl, rfl, rfl, List.prefix_append _ _⟩
        · exact ⟨rfl, rfl, rfl, rfl, List.prefix_rfl⟩

theorem next_beside {a : Action α} (ha : a.byWriter) (hn : next cfg s a = some t) : Beside s t := by
  cases a with
  | write w e =>
    simp only [next, hltThreadQueueWrite] at hn
    split at hn
    · split at hn
      · split at hn <;> cases hn <;> exact ⟨rfl, rfl, rfl, rfl, List.prefix_rfl⟩
      · cases hn
    · cases hn
  | flush w =>
    simp only [next, hltThreadQueueFlush] at hn
    split at hn
    · split at hn
      · cases hn
        exact ⟨rfl, rfl, rfl, rfl, List.prefix_rfl⟩
      · cases hn
    · cases hn
  | terminate w =>
    simp only [next, hltThreadQueueTerminateWriter] at hn
    split at hn
    · split at hn
      · cases hn
        exact ⟨rfl, rfl, rfl, rfl, List.prefix_rfl⟩
      · cases hn
    · cases hn
  | writer w =>
    simp only [next] at hn
    split at hn
    · exact writerStep_beside hn
    · cases hn
  | read timeout => cases ha
  | reader => cases ha

theorem run_beside {acts : List (Action α)} (hacts : ∀ a ∈ acts, a.byWriter)
    (hrun : (machine α cfg).run s acts = some t) : Beside s t := by
  induction acts generalizing s with
  | nil =>
    cases hrun
    exact Beside.refl _
  | cons a acts ih =>
    obtain ⟨u, hu, hrun⟩ := Option.bind_eq_some_iff.mp hrun
    obtain ⟨ha, hacts⟩ := List.forall_mem_cons.mp hacts
    have hu : next cfg s a = some u := hu
    exact (next_beside ha hu).trans (ih hacts hrun)

/-! ## How far the reader is from an element -/

/-- The reader is in a call, with so many steps to an element. -/
inductive Ahead (s : State α) : ℕ → Prop
  | element {block timeout b rest e} : s.readerPc = .scan block timeout → s.readerHead = b :: rest →
      b.elems[s.readerPos]? = some e → Ahead s 1
  | batch {block timeout b c rest} : s.readerPc = .scan block timeout → s.readerHead = b :: c :: rest →
      b.elems[s.readerPos]? = none → c.elems ≠ [] → Ahead s 2
  | lock {block timeout c rest} : s.readerPc = .lock block timeout → s.lockPending = c :: rest →
      c.elems ≠ [] → Ahead s 2
  | pending {block timeout c rest} : s.readerPc = .scan block timeout → s.readerHead = [] →
      s.lockPending = c :: rest → c.elems ≠ [] → Ahead s 3
  | exhausted {block timeout b c rest} : s.readerPc = .scan block timeout → s.readerHead = [b] →
      b.elems[s.readerPos]? = none → s.lockPending = c :: rest → c.elems ≠ [] → Ahead s 4

theorem Ahead.pos {n : ℕ} (h : Ahead s n) : 0 < n := by
  cases h <;> decide

theorem Ahead.le_four {n : ℕ} (h : Ahead s n) : n ≤ 4 := by
  cases h <;> decide

theorem Ahead.busy {n : ℕ} (h : Ahead s n) : s.readerPc ≠ .idle ∧ ¬ FindsNothing s := by
  have hpc : (∃ block timeout, s.readerPc = .scan block timeout) ∨
      ∃ block timeout, s.readerPc = .lock block timeout := by
    cases h with
    | element hpc => exact .inl ⟨_, _, hpc⟩
    | batch hpc => exact .inl ⟨_, _, hpc⟩
    | lock hpc => exact .inr ⟨_, _, hpc⟩
    | pending hpc => exact .inl ⟨_, _, hpc⟩
    | exhausted hpc => exact .inl ⟨_, _, hpc⟩
  rcases hpc with ⟨block, timeout, hpc⟩ | ⟨block, timeout, hpc⟩ <;> rw [FindsNothing, hpc]
  · exact ⟨(fun h => nomatch h), (fun ⟨_, _, h⟩ => nomatch h)⟩
  · exact ⟨(fun h => nomatch h), (fun ⟨_, _, h⟩ => nomatch h)⟩

theorem Ahead.beside {n : ℕ} (h : Ahead s n) (hbeside : Beside s t) : Ahead t n := by
  obtain ⟨hpc, hhead, hpos, -, ⟨more, hmore⟩⟩ := hbeside
  have hpending : ∀ {c rest}, s.lockPending = c :: rest → t.lockPending = c :: (rest ++ more) :=
    fun hc => by rw [← hmore, hc, List.cons_append]
  cases h with
  | element h₁ h₂ h₃ => exact .element (hpc.trans h₁) (hhead.trans h₂) (by rw [hpos]; exact h₃)
  | batch h₁ h₂ h₃ h₄ => exact .batch (hpc.trans h₁) (hhead.trans h₂) (by rw [hpos]; exact h₃) h₄
  | lock h₁ h₂ h₃ => exact .lock (hpc.trans h₁) (hpending h₂) h₃
  | pending h₁ h₂ h₃ h₄ => exact .pending (hpc.trans h₁) (hhead.trans h₂) (hpending h₃) h₄
  | exhausted h₁ h₂ h₃ h₄ h₅ =>
    exact .exhausted (hpc.trans h₁) (hhead.trans h₂) (by rw [hpos]; exact h₃) (hpending h₄) h₅

theorem getElem?_zero_of_ne_nil {l : List α} (h : l ≠ []) : ∃ e, l[0]? = some e := by
  obtain ⟨e, l, rfl⟩ := List.exists_cons_of_ne_nil h
  exact ⟨e, rfl⟩

theorem readerStep_ahead {n : ℕ} (h : Ahead s n) (hs : readerStep cfg s = some t) :
    (n = 1 ∧ t.readerPc = .idle ∧ ∃ o e, t.results = s.results ++ [.elem o e]) ∨
      ∃ m, n = m + 1 ∧ Ahead t m ∧ t.results = s.results := by
  unfold readerStep at hs
  cases h with
  | @element block timeout b rest e hpc hhead hget =>
    rw [hpc] at hs
    cases hs
    refine .inl ⟨rfl, ?_⟩
    simp only [readScan, hhead, hget]
    exact ⟨trivial, b.owner, e, rfl⟩
  | @batch block timeout b c rest hpc hhead hget hne =>
    rw [hpc] at hs
    cases hs
    obtain ⟨e, he⟩ := getElem?_zero_of_ne_nil hne
    refine .inr ⟨1, rfl, ?_⟩
    simp only [readScan, hhead, hget]
    exact ⟨.element hpc rfl he, trivial⟩
  | @lock block timeout c rest hpc hpending hne =>
    rw [hpc] at hs
    cases hs
    obtain ⟨e, he⟩ := getElem?_zero_of_ne_nil hne
    have hpc' : (readLocked cfg s block timeout).readerPc = .scan block timeout := by
      rw [readLocked, hpending]
      rfl
    exact .inr ⟨1, rfl, .element hpc' hpending he, rfl⟩
  | @pending block timeout c rest hpc hhead hpending hne =>
    rw [hpc] at hs
    cases hs
    refine .inr ⟨2, rfl, ?_⟩
    simp only [readScan, hhead]
    exact ⟨.lock rfl hpending hne, trivial⟩
  | @exhausted block timeout b c rest hpc hhead hget hpending hne =>
    rw [hpc] at hs
    cases hs
    refine .inr ⟨3, rfl, ?_⟩
    simp only [readScan, hhead, hget]
    exact ⟨.pending hpc rfl hpending hne, trivial⟩

theorem byReader_of_byWriter {a : Action α} (ha : a.byWriter) : a.byReader = false := by
  cases a <;> first | rfl | cases ha

theorem eq_reader_of_byReader {a : Action α} (ha : a.byReader) : a = .reader := by
  cases a <;> first | rfl | cases ha

theorem run_returned {acts : List (Action α)} (hidle : s.readerPc = .idle)
    (hacts : ∀ a ∈ acts, a.byWriter ∨ a.byReader) (hrun : (machine α cfg).run s acts = some t) :
    acts.countP Action.byReader = 0 ∧ t.readerPc = .idle ∧ t.results = s.results := by
  induction acts generalizing s with
  | nil =>
    cases hrun
    exact ⟨rfl, hidle, rfl⟩
  | cons a acts ih =>
    obtain ⟨u, hu, hrun⟩ := Option.bind_eq_some_iff.mp hrun
    obtain ⟨ha, hacts⟩ := List.forall_mem_cons.mp hacts
    have hu : next cfg s a = some u := hu
    rcases ha with ha | ha
    · have hbeside := next_beside ha hu
      obtain ⟨hcount, hidle', hresults⟩ := ih (hbeside.pc.trans hidle) hacts hrun
      refine ⟨?_, hidle', hresults.trans hbeside.results⟩
      rw [List.countP_cons_of_neg (by rw [byReader_of_byWriter ha]; exact Bool.false_ne_true), hcount]
    · rw [eq_reader_of_byReader ha] at hu
      simp only [next, readerStep, hidle] at hu
      cases hu

theorem run_ahead {acts : List (Action α)} {n : ℕ} (h : Ahead s n)
    (hacts : ∀ a ∈ acts, a.byWriter ∨ a.byReader) (hrun : (machine α cfg).run s acts = some t) :
    (∃ m, n = m + acts.countP Action.byReader ∧ Ahead t m) ∨
      acts.countP Action.byReader = n ∧ t.readerPc = .idle ∧
        ∃ o e, t.results = s.results ++ [.elem o e] := by
  induction acts generalizing s n with
  | nil =>
    cases hrun
    exact .inl ⟨n, rfl, h⟩
  | cons a acts ih =>
    obtain ⟨u, hu, hrun⟩ := Option.bind_eq_some_iff.mp hrun
    obtain ⟨ha, hacts⟩ := List.forall_mem_cons.mp hacts
    have hu : next cfg s a = some u := hu
    rcases ha with ha | ha
    · have hbeside := next_beside ha hu
      have hcount : (a :: acts).countP Action.byReader = acts.countP Action.byReader :=
        List.countP_cons_of_neg (by rw [byReader_of_byWriter ha]; exact Bool.false_ne_true)
      rw [hcount, ← hbeside.results]
      exact ih (h.beside hbeside) hacts hrun
    · rw [List.countP_cons_of_pos ha]
      rw [eq_reader_of_byReader ha] at hu
      have hs : readerStep cfg s = some u := hu
      rcases readerStep_ahead h hs with ⟨hn, hidle, o, e, hresults⟩ | ⟨m, hn, hahead, hresults⟩
      · obtain ⟨hcount, hidle', hresults'⟩ := run_returned hidle hacts hrun
        exact .inr ⟨by omega, hidle', o, e, hresults'.trans hresults⟩
      · rw [← hresults]
        rcases ih hahead hacts hrun with ⟨k, hm, hahead'⟩ | ⟨hcount, hreturned⟩
        · exact .inl ⟨k, by omega, hahead'⟩
        · exact .inr ⟨by omega, hreturned⟩

/-! ## When the promise is kept -/

theorem ahead_of_read (hfilled : Filled s) (hcan : hltThreadQueueCanRead s)
    (h : hasUnread s ∨ s.lockPending ≠ []) {block : Bool} {timeout : ℤ}
    (hpc : t.readerPc = .scan block timeout) (hhead : t.readerHead = s.readerHead)
    (hpos : t.readerPos = s.readerPos) (hpending : t.lockPending = s.lockPending) :
    ∃ n, Ahead t n := by
  cases hb : s.readerHead with
  | nil =>
    rw [hltThreadQueueCanRead, hb] at hcan
    cases hcan
  | cons b rest =>
    rw [hb] at hhead
    cases hget : b.elems[s.readerPos]? with
    | some e => exact ⟨1, .element hpc hhead (by rw [hpos]; exact hget)⟩
    | none =>
      rw [← hpos] at hget
      cases rest with
      | cons c rest =>
        have hc : c.elems ≠ [] := hfilled.fetched c (by rw [hb]; exact List.mem_cons_self)
        exact ⟨2, .batch hpc hhead hget hc⟩
      | nil =>
        have hne : s.lockPending ≠ [] := by
          refine h.resolve_left fun hunread => ?_
          have hle := List.getElem?_eq_none_iff.mp hget
          simp only [hasUnread, hb] at hunread
          simp only [List.isEmpty_nil, Bool.not_true, Bool.or_false, decide_eq_true_eq] at hunread
          omega
        obtain ⟨c, cs, hcs⟩ := List.exists_cons_of_ne_nil hne
        have hc : c.elems ≠ [] := hfilled.pending c (by rw [hcs]; exact List.mem_cons_self)
        exact ⟨4, .exhausted hpc hhead hget (hpending.trans hcs) hc⟩

theorem read_finds_nothing (cfg : Config) (hidle : s.readerPc = .idle) (hunread : hasUnread s = false)
    (hpending : s.lockPending = []) (hcan : hltThreadQueueCanRead s) :
    ∃ t, (machine α cfg).run s [.read 0, .reader, .reader, .reader] = some t ∧ FindsNothing t := by
  cases hb : s.readerHead with
  | nil =>
    rw [hltThreadQueueCanRead, hb] at hcan
    cases hcan
  | cons b rest =>
    simp only [hasUnread, hb, Bool.or_eq_false_iff, decide_eq_false_iff_not] at hunread
    obtain ⟨hread, hrest⟩ := hunread
    have hnil : rest = [] := by simpa using hrest
    have hget : b.elems[s.readerPos]? = none := List.getElem?_eq_none_iff.mpr (not_lt.mp hread)
    have hread : next cfg s (.read 0) = some { s with readerPc := .scan true 0 } := by
      simp only [next, hltThreadQueueRead, hidle]
      rfl
    have hscan : readerStep cfg { s with readerPc := .scan true 0 } = some { s with
        readerPc := .scan true 0, needFlush := false, readerHead := [], readerPos := 0 } := by
      simp only [readerStep, readScan, hb, hget, hnil]
    refine ⟨readLocked cfg { s with
        readerPc := .lock true 0, needFlush := false, readerHead := [], readerPos := 0 } true 0,
      ?_, true, 0, ?_⟩
    · change (next cfg s (.read 0)).bind (fun t => (readerStep cfg t).bind _) = _
      rw [hread, Option.bind_some, hscan]
      rfl
    · simp only [readLocked, hpending]
      rfl

/-- After `hlt_thread_queue_can_read` has returned true, the next read returns an element without
waiting exactly if the reader has an unread element or a batch is pending. -/
theorem honoured_iff (h : (machine α cfg).Reachable s) (hidle : s.readerPc = .idle)
    (hcan : hltThreadQueueCanRead s) :
    Honoured cfg s ↔ hasUnread s ∨ s.lockPending ≠ [] := by
  constructor
  · intro hhonoured
    by_contra hnot
    obtain ⟨hunread, hpending⟩ := not_or.mp hnot
    obtain ⟨t, hrun, hnothing⟩ := read_finds_nothing cfg hidle (by simpa using hunread)
      (not_not.mp hpending) hcan
    have hacts : ∀ a ∈ [(.reader : Action α), .reader, .reader], a.byWriter ∨ a.byReader := by
      simp [Action.byReader]
    exact (hhonoured [] 0 [.reader, .reader, .reader] t (fun a ha => by cases ha) hacts hrun).1 hnothing
  · intro hready early timeout acts t hearly hacts hrun
    rw [Machine.run_append] at hrun
    obtain ⟨u, hu, hrun⟩ := Option.bind_eq_some_iff.mp hrun
    obtain ⟨v, hv, hrun⟩ := Option.bind_eq_some_iff.mp hrun
    have hbeside := run_beside hearly hu
    have hread : next cfg u (.read timeout) = some v := hv
    simp only [next, hltThreadQueueRead, hbeside.pc, hidle] at hread
    cases hread
    obtain ⟨n, hahead⟩ := ahead_of_read (t := { s with readerPc := .scan (timeout = 0) (timeout * 1000) })
      (reachable_filled h) hcan hready rfl rfl rfl rfl
    have hahead' := hahead.beside (t := { u with readerPc := .scan (timeout = 0) (timeout * 1000) })
      ⟨rfl, hbeside.head, hbeside.pos, hbeside.results, hbeside.pending⟩
    rcases run_ahead hahead' hacts hrun with ⟨m, hn, hstill⟩ | ⟨-, hreturned, o, e, hresults⟩
    · refine ⟨hstill.busy.2, fun hpc => absurd hpc hstill.busy.1, fun hcount => ?_⟩
      have hpos := hstill.pos
      have hle := hahead.le_four
      omega
    · refine ⟨fun hwaiting => ?_, fun _ => ⟨o, e, ?_⟩, fun _ => hreturned⟩
      · obtain ⟨_, _, hpc⟩ := hwaiting
        rw [hreturned] at hpc
        cases hpc
      · rw [hresults]
        exact congrArg (· ++ [ReadResult.elem o e]) hbeside.results

/-- Two elements of which one has been read. -/
theorem honoured_with_unread :
    ∃ s, (machine ℕ ⟨1, 2, 0⟩).Reachable s ∧ s.readerPc = .idle ∧ hltThreadQueueCanRead s ∧
      hasUnread s ∧ Honoured ⟨1, 2, 0⟩ s := by
  have hrun : ((machine ℕ ⟨1, 2, 0⟩).run (hltThreadQueueNew ℕ)
      [.write 0 7, .writer 0, .writer 0, .writer 0, .write 0 8, .writer 0, .writer 0, .writer 0,
        .flush 0, .writer 0, .writer 0, .read (-1), .reader, .reader, .reader]).isSome := by
    rfl
  obtain ⟨s, hs⟩ := Option.isSome_iff_exists.mp hrun
  have hr := Machine.reachable_of_run hs
  have hfacts : s.readerPc = .idle ∧ hltThreadQueueCanRead s ∧ hasUnread s := by
    cases hs
    exact ⟨rfl, rfl, rfl⟩
  obtain ⟨hidle, hcan, hunread⟩ := hfacts
  exact ⟨s, hr, hidle, hcan, hunread, (honoured_iff hr hidle hcan).mpr (.inl hunread)⟩

/-- The only element has been read, but its batch is still there. -/
theorem can_read_not_honoured :
    ∃ s, (machine ℕ ⟨1, 2, 0⟩).Reachable s ∧ s.readerPc = .idle ∧ hltThreadQueueCanRead s ∧
      ¬ Honoured ⟨1, 2, 0⟩ s := by
  have hrun : ((machine ℕ ⟨1, 2, 0⟩).run (hltThreadQueueNew ℕ)
      [.write 0 7, .writer 0, .writer 0, .writer 0, .flush 0, .writer 0, .writer 0,
        .read (-1), .reader, .reader, .reader]).isSome := by
    rfl
  obtain ⟨s, hs⟩ := Option.isSome_iff_exists.mp hrun
  have hfacts : s.readerPc = .idle ∧ hltThreadQueueCanRead s ∧ hasUnread s = false ∧
      s.lockPending = [] := by
    cases hs
    exact ⟨rfl, rfl, rfl, rfl⟩
  obtain ⟨hidle, hcan, hunread, hpending⟩ := hfacts
  refine ⟨s, Machine.reachable_of_run hs, hidle, hcan, fun hhonoured => ?_⟩
  obtain ⟨t, hrun, hnothing⟩ := read_finds_nothing ⟨1, 2, 0⟩ hidle hunread hpending hcan
  have hacts : ∀ a ∈ [(.reader : Action ℕ), .reader, .reader], a.byWriter ∨ a.byReader := by
    simp [Action.byReader]
  exact (hhonoured [] 0 [.reader, .reader, .reader] t (fun a ha => by cases ha) hacts hrun).1 hnothing

end

end Hilti.ThreadQueue
