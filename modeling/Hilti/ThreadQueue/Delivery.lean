import Hilti.ThreadQueue.Model

/-! # Delivery through the thread queue

An element passes from the writer's private batch to the pending list (in `flush`, under the lock)
and from there to the reader's own batches (in `read`, under the lock). `Inv` says what the three
stages hold together: nothing that was written is anywhere else, and each stage keeps the order of
its writer. Each step moves elements over one of the two borders, or hands one out. -/

namespace Hilti.ThreadQueue
open Hilti.Lib
set_option autoImplicit false

variable {α : Type}

/-- What the reader has obtained from writer `w` so far. -/
def obtained (s : State α) (w : ℕ) : List α :=
  s.results.filterMap fun r =>
    match r with
    | .elem o e => if o = w then some e else none
    | .null => none

/-- The elements of `w` in its private batch. -/
def batched (s : State α) (w : ℕ) : List α :=
  match s.writerBatches w with
  | none => []
  | some b => b.elems

/-- The elements of `w` in a list of batches. -/
def ofOwner (w : ℕ) (bs : List (Batch α)) : List α :=
  bs.flatMap fun b => if b.owner = w then b.elems else []

/-- The elements of `w` that the reader has fetched but not handed out. -/
def unread (s : State α) (w : ℕ) : List α :=
  match s.readerHead with
  | [] => []
  | b :: rest => (if b.owner = w then b.elems.drop s.readerPos else []) ++ ofOwner w rest

@[simp] theorem ofOwner_nil (w : ℕ) : ofOwner (α := α) w [] = [] := rfl

theorem ofOwner_append (w : ℕ) (bs cs : List (Batch α)) :
    ofOwner w (bs ++ cs) = ofOwner w bs ++ ofOwner w cs := by
  simp [ofOwner]

theorem unread_start (s : State α) (w : ℕ) (h : s.readerPos = 0) :
    unread s w = ofOwner w s.readerHead := by
  unfold unread
  cases hh : s.readerHead with
  | nil => rfl
  | cons b rest => simp [ofOwner, h]

/-- What the stages of the queue hold. -/
structure Inv (s : State α) : Prop where
  written : ∀ w, s.written w = s.flushed w ++ batched s w
  owner : ∀ w b, s.writerBatches w = some b → b.owner = w
  flushed : ∀ w, s.flushed w = obtained s w ++ (unread s w ++ ofOwner w s.lockPending)
  -- The reader takes the lock only when its own batches are used up.
  atLock : ∀ block timeout, s.readerPc = .lock block timeout → s.readerHead = []
  atNothing : ∀ block timeout, s.readerPc = .nothing block timeout →
    s.readerHead = [] ∧ ∀ w, obtained s w = s.flushedAtLock w

theorem inv_new : Inv (hltThreadQueueNew α) where
  written := fun _ => rfl
  owner := by
    intro w b h
    cases h
  flushed := fun _ => rfl
  atLock := by
    intro block timeout h
    cases h
  atNothing := by
    intro block timeout h
    cases h

theorem Inv.setPc {s : State α} (h : Inv s) (w : ℕ) (pc : WriterPc α) : Inv (s.setPc w pc) :=
  ⟨h.written, h.owner, h.flushed, h.atLock, h.atNothing⟩

/-! ## The writer's steps -/

theorem Inv.setBatch {s : State α} (h : Inv s) (w : ℕ) (b : Batch α) (l : List α) (n : ℕ → ℕ)
    (ho : b.owner = w) (hl : l = s.flushed w ++ b.elems) :
    Inv { s with
      writerBatches := Function.update s.writerBatches w (some b)
      writerNumWritten := n
      written := Function.update s.written w l } where
  written := by
    intro v
    by_cases hv : v = w
    · subst hv
      simp [batched, hl]
    · simpa [batched, Function.update_of_ne hv] using h.written v
  owner := by
    intro v c hc
    by_cases hv : v = w
    · subst hv
      have hbc : b = c := by simpa using hc
      rw [← hbc, ho]
    · exact h.owner v c (by simpa [Function.update_of_ne hv] using hc)
  flushed := h.flushed
  atLock := h.atLock
  atNothing := h.atNothing

theorem getBatch_inv {cfg : Config} {s : State α} (h : Inv s) (w : ℕ) (e : α) :
    Inv (getBatch cfg s w e) := by
  unfold getBatch
  split
  · rename_i hb
    have hw : s.written w = s.flushed w ++ [] := by
      simpa [batched, hb] using h.written w
    have hi := h.setBatch w ⟨w, []⟩ (s.written w) s.writerNumWritten rfl hw
    rw [Function.update_eq_self] at hi
    dsimp only
    split
    · exact hi.setPc w _
    · exact hi.setPc w _
  · split
    · exact h.setPc w _
    · exact h.setPc w _

theorem store_inv {cfg : Config} {s t : State α} (h : Inv s) (w : ℕ) (e : α)
    (hs : store cfg s w e = some t) : Inv t := by
  unfold store at hs
  split at hs
  · cases hs
  · rename_i b hb
    split at hs
    · cases hs
      have hw := h.written w
      simp only [batched, hb] at hw
      refine (h.setBatch w ⟨b.owner, b.elems ++ [e]⟩ (s.written w ++ [e]) _ (h.owner w b hb) ?_).setPc w _
      rw [hw, List.append_assoc]
    · cases hs

theorem flushEntry_inv {s : State α} (h : Inv s) (w : ℕ) (k : Return α) :
    Inv (flushEntry s w k) := by
  unfold flushEntry
  split
  · exact h.setPc w _
  · split
    · exact h.setPc w _
    · exact h.setPc w _
  · exact h.setPc w _

theorem flushLocked_inv {cfg : Config} {s : State α} (h : Inv s) (w : ℕ) (k : Return α) :
    Inv (flushLocked cfg s w k) := by
  unfold flushLocked
  split
  · exact h.setPc w _
  · rename_i b hb
    have ho := h.owner w b hb
    split
    · exact h
    · split
      · apply Inv.setPc
        constructor
        · intro v
          by_cases hv : v = w
          · subst hv
            simpa [batched, hb] using h.written v
          · simpa [batched, Function.update_of_ne hv] using h.written v
        · intro v c hc
          by_cases hv : v = w
          · subst hv
            simp at hc
          · exact h.owner v c (by simpa [Function.update_of_ne hv] using hc)
        · intro v
          have hf := h.flushed v
          change _ = obtained s v ++ (unread s v ++ ofOwner v (s.lockPending ++ [b]))
          rw [ofOwner_append]
          by_cases hv : v = w
          · subst hv
            simp [hf, ofOwner, ho]
          · have hvo : ¬ b.owner = v := fun hbv => hv (hbv.symm.trans ho)
            simp [Function.update_of_ne hv, hf, ofOwner, hvo]
        · exact h.atLock
        · exact h.atNothing
      · exact ⟨h.written, h.owner, h.flushed, h.atLock, h.atNothing⟩

theorem writerStep_inv {cfg : Config} {s t : State α} (h : Inv s) (w : ℕ)
    (hs : writerStep cfg s w = some t) : Inv t := by
  unfold writerStep at hs
  split at hs
  · cases hs
  · cases hs
    exact getBatch_inv h w _
  · exact store_inv h w _ hs
  · cases hs
    unfold writerUpdate
    split
    · exact h.setPc w _
    · exact h.setPc w _
  · cases hs
    exact flushEntry_inv h w _
  · cases hs
    exact flushLocked_inv h w _

/-! ## The reader's steps -/

theorem readScan_inv {s : State α} (h : Inv s) (block : Bool) (timeout : ℤ)
    (hpc : s.readerPc = .scan block timeout) : Inv (readScan s block timeout) := by
  unfold readScan
  split
  · rename_i hh
    refine ⟨h.written, h.owner, h.flushed, fun _ _ _ => hh, ?_⟩
    intro _ _ hn
    cases hn
  · rename_i b rest hh
    dsimp only
    split
    · -- The element at `readerPos` is the first unread one.
      rename_i e he
      refine ⟨h.written, h.owner, ?_, ?_, ?_⟩
      · intro w
        have hf := h.flushed w
        have hd : b.elems.drop s.readerPos = e :: b.elems.drop (s.readerPos + 1) :=
          List.drop_eq_getElem?_toList_append ▸ by simp [he]
        simp only [unread, hh, obtained] at hf ⊢
        rw [hf, List.filterMap_append]
        by_cases ho : b.owner = w
        · simp [ho, hd]
        · simp [ho]
      · intro _ _ hn
        cases hn
      · intro _ _ hn
        cases hn
    · -- The batch is used up, so dropping it drops nothing.
      rename_i he
      have hlen : b.elems.length ≤ s.readerPos := List.getElem?_eq_none_iff.mp he
      refine ⟨h.written, h.owner, ?_, ?_, ?_⟩
      · intro w
        have hf := h.flushed w
        rw [unread_start _ w rfl]
        simp only [unread, hh, List.drop_eq_nil_of_le hlen, ite_self, List.nil_append] at hf
        exact hf
      · intro bl tm hn
        rw [hpc] at hn
        cases hn
      · intro bl tm hn
        rw [hpc] at hn
        cases hn

theorem readLocked_inv {cfg : Config} {s : State α} (h : Inv s) (block : Bool) (timeout : ℤ)
    (hpc : s.readerPc = .lock block timeout) : Inv (readLocked cfg s block timeout) := by
  have hh := h.atLock block timeout hpc
  have hf : ∀ w, s.flushed w = obtained s w ++ ofOwner w s.lockPending := by
    intro w
    simpa [unread, hh] using h.flushed w
  refine ⟨h.written, h.owner, ?_, ?_, ?_⟩
  · intro w
    rw [unread_start _ w rfl]
    change s.flushed w = obtained s w ++ (ofOwner w s.lockPending ++ [])
    rw [List.append_nil]
    exact hf w
  · intro bl tm hn
    simp only [readLocked] at hn
    split at hn
    · cases hn
    · cases hn
  · intro bl tm hn
    simp only [readLocked] at hn
    split at hn
    · rename_i he
      have hp : s.lockPending = [] := List.isEmpty_iff.mp he
      refine ⟨hp, ?_⟩
      intro w
      have := hf w
      rw [hp, ofOwner_nil, List.append_nil] at this
      exact this.symm
    · cases hn

theorem obtained_null (s : State α) (l : List (ReadResult α)) (w : ℕ)
    (hl : s.results = l ++ [.null]) :
    obtained s w = obtained { s with results := l } w := by
  simp [obtained, hl]

theorem readNothing_inv {cfg : Config} {s : State α} (h : Inv s) (block : Bool) (timeout : ℤ) :
    Inv (readNothing cfg s block timeout) := by
  unfold readNothing
  dsimp only
  split
  · refine ⟨h.written, h.owner, ?_, ?_, ?_⟩
    · intro w
      rw [obtained_null _ s.results w rfl]
      exact h.flushed w
    · intro _ _ hn
      cases hn
    · intro _ _ hn
      cases hn
  · refine ⟨h.written, h.owner, h.flushed, ?_, ?_⟩
    · intro _ _ hn
      cases hn
    · intro _ _ hn
      cases hn

theorem readerStep_inv {cfg : Config} {s t : State α} (h : Inv s)
    (hs : readerStep cfg s = some t) : Inv t := by
  unfold readerStep at hs
  split at hs
  · cases hs
  · rename_i hpc
    cases hs
    exact readScan_inv h _ _ hpc
  · rename_i hpc
    cases hs
    exact readLocked_inv h _ _ hpc
  · cases hs
    exact readNothing_inv h _ _

/-! ## Every step, every run -/

theorem next_inv {cfg : Config} (s t : State α) (a : Action α) (h : Inv s)
    (hs : next cfg s a = some t) : Inv t := by
  cases a with
  | write w e =>
    simp only [next, hltThreadQueueWrite] at hs
    split at hs
    · split at hs
      · split at hs
        · cases hs
          exact h
        · cases hs
          exact h.setPc w _
      · cases hs
    · cases hs
  | flush w =>
    simp only [next, hltThreadQueueFlush] at hs
    split at hs
    · split at hs
      · cases hs
        exact h.setPc w _
      · cases hs
    · cases hs
  | terminate w =>
    simp only [next, hltThreadQueueTerminateWriter] at hs
    split at hs
    · split at hs
      · cases hs
        exact ⟨h.written, h.owner, h.flushed, h.atLock, h.atNothing⟩
      · cases hs
    · cases hs
  | writer w =>
    simp only [next] at hs
    split at hs
    · exact writerStep_inv h w hs
    · cases hs
  | read timeout =>
    simp only [next, hltThreadQueueRead] at hs
    split at hs
    · cases hs
      refine ⟨h.written, h.owner, h.flushed, ?_, ?_⟩
      · intro _ _ hn
        cases hn
      · intro _ _ hn
        cases hn
    · cases hs
  | reader => exact readerStep_inv h hs

theorem reachable_inv {cfg : Config} {s : State α} (h : (machine α cfg).Reachable s) : Inv s :=
  h.invariant inv_new fun s t a hi hn => next_inv s t a hi hn

/-- The read in progress has come out of the critical section with nothing to return: it will
return null, or sleep and look again. -/
def FindsNothing (s : State α) : Prop := ∃ block timeout, s.readerPc = .nothing block timeout

@[simp] theorem setPc_results (s : State α) (w : ℕ) (pc : WriterPc α) :
    (s.setPc w pc).results = s.results := rfl

theorem writerStep_results {cfg : Config} {s t : State α} {w : ℕ}
    (hs : writerStep cfg s w = some t) : t.results = s.results := by
  unfold writerStep at hs
  split at hs
  · cases hs
  · cases hs
    unfold getBatch
    split
    · dsimp only
      split <;> rfl
    · split <;> rfl
  · unfold store at hs
    split at hs
    · cases hs
    · split at hs
      · cases hs
        rfl
      · cases hs
  · cases hs
    unfold writerUpdate
    split <;> rfl
  · cases hs
    unfold flushEntry
    split
    · rfl
    · split <;> rfl
    · rfl
  · cases hs
    unfold flushLocked
    split
    · rfl
    · split
      · rfl
      · split <;> rfl

theorem next_results {cfg : Config} {s t : State α} {a : Action α} (hn : next cfg s a = some t)
    (ha : a ≠ .reader) : t.results = s.results := by
  cases a with
  | write w e =>
    simp only [next, hltThreadQueueWrite] at hn
    split at hn
    · split at hn
      · split at hn
        · cases hn
          rfl
        · cases hn
          rfl
      · cases hn
    · cases hn
  | flush w =>
    simp only [next, hltThreadQueueFlush] at hn
    split at hn
    · split at hn
      · cases hn
        rfl
      · cases hn
    · cases hn
  | terminate w =>
    simp only [next, hltThreadQueueTerminateWriter] at hn
    split at hn
    · split at hn
      · cases hn
        rfl
      · cases hn
    · cases hn
  | writer w =>
    simp only [next] at hn
    split at hn
    · exact writerStep_results hn
    · cases hn
  | read timeout =>
    simp only [next, hltThreadQueueRead] at hn
    split at hn
    · cases hn
      rfl
    · cases hn
  | reader => exact absurd rfl ha

theorem findsNothing_of_null {cfg : Config} {s t : State α} {a : Action α}
    (hn : next cfg s a = some t) (hr : t.results = s.results ++ [.null]) : FindsNothing s := by
  by_cases ha : a = .reader
  · subst ha
    simp only [next, readerStep] at hn
    split at hn
    · cases hn
    · cases hn
      unfold readScan at hr
      split at hr
      · simp at hr
      · dsimp only at hr
        split at hr
        · simp at hr
        · simp at hr
    · cases hn
      simp [readLocked] at hr
    · rename_i hpc
      exact ⟨_, _, hpc⟩
  · rw [next_results hn ha] at hr
    simp at hr

/-- In every state that any interleaving of the writers' and the reader's steps reaches, the reader
has obtained from each writer a prefix of what that writer wrote. When a read has found nothing, and
so also when it returns null in the next step, the reader has obtained all that any writer had flushed
when that read took the lock. -/
theorem reader_obtains_prefix {cfg : Config} {s : State α} (h : (machine α cfg).Reachable s) :
    (∀ w, obtained s w <+: s.written w) ∧
      (FindsNothing s → ∀ w, obtained s w = s.flushedAtLock w) ∧
      ∀ a t, next cfg s a = some t → t.results = s.results ++ [.null] →
        ∀ w, obtained s w = s.flushedAtLock w := by
  have hi := reachable_inv h
  have hnothing : FindsNothing s → ∀ w, obtained s w = s.flushedAtLock w := by
    rintro ⟨block, timeout, hpc⟩
    exact (hi.atNothing block timeout hpc).2
  refine ⟨?_, hnothing, ?_⟩
  · intro w
    rw [hi.written w, hi.flushed w, List.append_assoc]
    exact List.prefix_append _ _
  · intro a t hn hr
    exact hnothing (findsNothing_of_null hn hr)

/-- One writer writes and flushes an element, the reader obtains it and then finds nothing more. -/
theorem reader_obtains_written_element :
    ∃ s, (machine ℕ ⟨1, 2, 0⟩).Reachable s ∧ FindsNothing s ∧ obtained s 0 = [7] ∧
      obtained s 0 <+: s.written 0 ∧ obtained s 0 = s.flushedAtLock 0 := by
  have hrun : ((machine ℕ ⟨1, 2, 0⟩).run (hltThreadQueueNew ℕ)
      [.write 0 7, .writer 0, .writer 0, .writer 0, .flush 0, .writer 0, .writer 0,
        .read (-1), .reader, .reader, .reader, .read (-1), .reader, .reader, .reader]).isSome := by
    rfl
  obtain ⟨s, hs⟩ := Option.isSome_iff_exists.mp hrun
  have hr := Machine.reachable_of_run hs
  have hnothing : FindsNothing s := by
    cases hs
    exact ⟨_, _, rfl⟩
  refine ⟨s, hr, hnothing, ?_, ( reader_obtains_prefix hr).1 0, ( reader_obtains_prefix hr).2.1 hnothing 0⟩
  cases hs
  rfl

end Hilti.ThreadQueue
