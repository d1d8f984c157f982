import Hilti.ThreadQueue.Delivery
import Mathlib.Algebra.BigOperators.Group.Finset.Piecewise
import Mathlib.Algebra.BigOperators.Ring.Finset
import Mathlib.Algebra.Order.BigOperators.Group.Finset

/-! # Termination of the thread queue

`hlt_thread_queue_terminated` compares counters that the writers and the reader change without a
lock; any thread may call it, and each counter is read in a step of its own. Once the reader has seen
all writers terminated, the writers' counters do not change any more, so their sum counts what has
been written. It is compared modulo `2^64`, which is enough since all elements that have not been
read are in memory. -/

namespace Hilti.ThreadQueue
open Hilti.Lib
set_option autoImplicit false

variable {α : Type} {cfg : Config} {s t : State α}

/-! ## The call -/

/-- A call of `hlt_thread_queue_terminated`: the loop of `hlt_thread_queue_size`, or what the call has
returned. -/
inductive Check
  | idle
  | size (i size : ℕ)
  | returned (r : Bool)
  deriving DecidableEq

/-- The queue with a call by some thread. -/
structure Observed (α : Type) where
  queue : State α
  check : Check

inductive ObservedAction (α : Type)
  | queue (a : Action α)
  | check

def checkStep (cfg : Config) (s : State α) : Check → Check
  | .size i size =>
      if i < cfg.writers then .size (i + 1) (u64 (size + s.writerNumWritten i))
      else .returned (u64 (size + (2 ^ 64 - u64 s.readerNumRead)) = 0)
  | _ => if s.readerNumTerminated = cfg.writers then .size 0 0 else .returned false

/-- The batches that are in memory. -/
def allocatedBatches (cfg : Config) (s : State α) : ℕ :=
  ∑ w ∈ Finset.range cfg.writers, (s.writerBatches w).toList.length + s.lockPending.length +
    s.readerHead.length

/-- `hlt_thread_queue_write` asks for `sizeof(batch) * batch_size * sizeof(void*)` bytes, and
`hlt_malloc` ends the process if they do not fit into the address space. -/
def InMemory (cfg : Config) (s : State α) : Prop :=
  allocatedBatches cfg s * (16 * cfg.batchSize * 8) ≤ 2 ^ 64

instance : Decidable (InMemory cfg s) := inferInstanceAs (Decidable (_ ≤ _))

/-- The queue with a thread that asks whether it has terminated. -/
def observed (α : Type) (cfg : Config) : Machine (Observed α) (ObservedAction α) where
  start := ⟨hltThreadQueueNew α, .idle⟩
  next := fun s a =>
    match a with
    | .queue a =>
        (next cfg s.queue a).bind fun t =>
          if InMemory cfg t then some { s with queue := t } else none
    | .check => some { s with check := checkStep cfg s.queue s.check }

/-! ## Counting -/

def Draining : WriterPc α → Prop
  | .idle | .flush .caller | .flushLock .caller => True
  | _ => False

def Batch.Fits (cfg : Config) (b : Batch α) : Prop :=
  b.owner < cfg.writers ∧ b.elems.length ≤ cfg.batchSize

def numObtained (cfg : Config) (s : State α) : ℕ :=
  ∑ w ∈ Finset.range cfg.writers, (obtained s w).length

def numTerminated (cfg : Config) (s : State α) : ℕ :=
  ((List.range cfg.writers).filter fun i => s.lockWritersTerminated i).length

/-- The counters count what their names say. -/
structure Counted (cfg : Config) (s : State α) : Prop where
  numWritten : ∀ w, s.writerNumWritten w = u64 (s.written w).length
  numRead : s.readerNumRead = u64 (numObtained cfg s)
  terminated : s.readerNumTerminated ≤ numTerminated cfg s
  draining : ∀ w, s.lockWritersTerminated w = true → Draining (s.writerPc w)
  batch : ∀ w b, s.writerBatches w = some b → b.Fits cfg
  pending : ∀ b ∈ s.lockPending, b.Fits cfg
  head : ∀ b ∈ s.readerHead, b.Fits cfg

theorem u64_add_one (n : ℕ) : u64 (u64 n + 1) = u64 (n + 1) := by
  unfold u64
  omega

theorem counted_new : Counted cfg (hltThreadQueueNew α) where
  numWritten _ := rfl
  numRead := by
    have hzero : ∀ w ∈ Finset.range cfg.writers, (obtained (hltThreadQueueNew α) w).length = 0 :=
      fun _ _ => rfl
    unfold numObtained
    rw [Finset.sum_eq_zero hzero]
    rfl
  terminated := Nat.zero_le _
  draining w hw := by cases hw
  batch w b hb := by cases hb
  pending b hb := by cases hb
  head b hb := by cases hb

theorem Counted.setPc (h : Counted cfg s) (w : ℕ) {pc : WriterPc α}
    (hpc : s.lockWritersTerminated w = true → Draining pc) : Counted cfg (s.setPc w pc) := by
  refine ⟨h.numWritten, h.numRead, h.terminated, fun v hv => ?_, h.batch, h.pending, h.head⟩
  change Draining (Function.update s.writerPc w pc v)
  by_cases he : v = w
  · rw [he, Function.update_self]
    exact hpc (he ▸ hv)
  · rw [Function.update_of_ne he]
    exact h.draining v hv

theorem draining_returnTo {k : Return α} (h : Draining (.flushLock k)) :
    Draining (returnTo k) := by
  cases k with
  | caller => trivial
  | write e => cases h

/-! ## The writer's steps -/

theorem getBatch_counted (h : Counted cfg s) {w : ℕ} (hw : w < cfg.writers) {e : α}
    (hpc : s.writerPc w = .getBatch e) : Counted cfg (getBatch cfg s w e) := by
  -- a terminated writer is not inside of a write
  have hlive : ∀ pc : WriterPc α, s.lockWritersTerminated w = true → Draining pc := by
    intro pc ht
    have hd := h.draining w ht
    rw [hpc] at hd
    cases hd
  unfold getBatch
  split
  · have hnew : Counted cfg
        { s with writerBatches := Function.update s.writerBatches w (some ⟨w, []⟩) } := by
      refine ⟨h.numWritten, h.numRead, h.terminated, h.draining, fun v b hb => ?_, h.pending, h.head⟩
      by_cases he : v = w
      · rw [he] at hb
        cases (Function.update_self w (some _) s.writerBatches).symm.trans hb
        exact ⟨hw, Nat.zero_le _⟩
      · exact h.batch v b ((Function.update_of_ne he _ _).symm.trans hb)
    dsimp only
    split
    · exact hnew.setPc w (hlive _)
    · exact hnew.setPc w (hlive _)
  · split
    · exact h.setPc w (hlive _)
    · exact h.setPc w (hlive _)

theorem store_counted (h : Counted cfg s) {w : ℕ} {e : α} (hpc : s.writerPc w = .store e)
    (hs : store cfg s w e = some t) : Counted cfg t := by
  have hlive : ∀ pc : WriterPc α, s.lockWritersTerminated w = true → Draining pc := by
    intro pc ht
    have hd := h.draining w ht
    rw [hpc] at hd
    cases hd
  unfold store at hs
  split at hs
  · cases hs
  rename_i b hb
  split at hs
  · rename_i hlt
    cases hs
    refine Counted.setPc ?_ w (hlive _)
    refine ⟨fun v => ?_, h.numRead, h.terminated, h.draining, fun v c hc => ?_, h.pending, h.head⟩
    · dsimp only
      by_cases he : v = w
      · rw [he, Function.update_self, Function.update_self, h.numWritten w, u64_add_one,
          List.length_append, List.length_singleton]
      · rw [Function.update_of_ne he, Function.update_of_ne he]
        exact h.numWritten v
    · by_cases he : v = w
      · rw [he] at hc
        cases (Function.update_self w (some _) s.writerBatches).symm.trans hc
        refine ⟨(h.batch w b hb).1, ?_⟩
        rw [List.length_append, List.length_singleton]
        exact hlt
      · exact h.batch v c ((Function.update_of_ne he _ _).symm.trans hc)
  · cases hs

theorem flushEntry_counted (h : Counted cfg s) {w : ℕ} {k : Return α}
    (hpc : s.writerPc w = .flush k) : Counted cfg (flushEntry s w k) := by
  have hdrain : s.lockWritersTerminated w = true → k = .caller := by
    intro ht
    have hd := h.draining w ht
    rw [hpc] at hd
    cases k with
    | caller => rfl
    | write e => cases hd
  unfold flushEntry
  split
  · refine h.setPc w fun ht => ?_
    rw [hdrain ht]
    trivial
  · split
    · exact h.setPc w fun _ => trivial
    · exact h.setPc w fun ht => by cases hdrain ht
  · refine h.setPc w fun ht => ?_
    rw [hdrain ht]
    trivial

theorem flushLocked_counted (h : Counted cfg s) {w : ℕ} {k : Return α}
    (hpc : s.writerPc w = .flushLock k) : Counted cfg (flushLocked cfg s w k) := by
  have hdrain : s.lockWritersTerminated w = true → Draining (returnTo k) := by
    intro ht
    have hd := h.draining w ht
    rw [hpc] at hd
    exact draining_returnTo hd
  unfold flushLocked
  split
  · exact h.setPc w hdrain
  rename_i b hb
  split
  · exact h
  · split
    · refine Counted.setPc ?_ w hdrain
      refine ⟨h.numWritten, h.numRead, h.terminated, h.draining, fun v c hc => ?_, fun c hc => ?_,
        h.head⟩
      · by_cases he : v = w
        · rw [he] at hc
          cases (Function.update_self w none s.writerBatches).symm.trans hc
        · exact h.batch v c ((Function.update_of_ne he _ _).symm.trans hc)
      · rcases List.mem_append.mp hc with hc | hc
        · exact h.pending c hc
        · rw [List.mem_singleton.mp hc]
          exact h.batch w b hb
    · exact ⟨h.numWritten, h.numRead, h.terminated, h.draining, h.batch, h.pending, h.head⟩

theorem writerStep_counted (h : Counted cfg s) {w : ℕ} (hw : w < cfg.writers)
    (hs : writerStep cfg s w = some t) : Counted cfg t := by
  unfold writerStep at hs
  split at hs
  · cases hs
  · rename_i hpc
    cases hs
    exact getBatch_counted h hw hpc
  · rename_i hpc
    exact store_counted h hpc hs
  · rename_i hpc
    cases hs
    unfold writerUpdate
    split
    · exact h.setPc w fun _ => trivial
    · exact h.setPc w fun _ => trivial
  · rename_i hpc
    cases hs
    exact flushEntry_counted h hpc
  · rename_i hpc
    cases hs
    exact flushLocked_counted h hpc

/-! ## The reader's steps -/

theorem obtained_elem (s t : State α) (o : ℕ) (e : α) (ht : t.results = s.results ++ [.elem o e])
    (w : ℕ) : (obtained t w).length = (obtained s w).length + if o = w then 1 else 0 := by
  unfold obtained
  rw [ht, List.filterMap_append, List.length_append]
  by_cases h : o = w
  · simp [h]
  · simp [h]

theorem numObtained_elem {o : ℕ} {e : α} (ho : o < cfg.writers)
    (ht : t.results = s.results ++ [.elem o e]) : numObtained cfg t = numObtained cfg s + 1 := by
  unfold numObtained
  rw [Finset.sum_congr rfl fun w _ => obtained_elem s t o e ht w, Finset.sum_add_distrib,
    Finset.sum_ite_eq, if_pos (Finset.mem_range.mpr ho)]

theorem readScan_counted (h : Counted cfg s) (block : Bool) (timeout : ℤ) :
    Counted cfg (readScan s block timeout) := by
  unfold readScan
  split
  · exact ⟨h.numWritten, h.numRead, h.terminated, h.draining, h.batch, h.pending, h.head⟩
  rename_i b rest hhead
  have hb : b.Fits cfg := h.head b (hhead ▸ List.mem_cons_self)
  have hrest : ∀ c ∈ rest, c.Fits cfg := fun c hc => h.head c (hhead ▸ List.mem_cons_of_mem _ hc)
  dsimp only
  split
  · refine ⟨h.numWritten, ?_, h.terminated, h.draining, h.batch, h.pending, h.head⟩
    rw [numObtained_elem (s := s) hb.1 rfl]
    change u64 (s.readerNumRead + 1) = _
    rw [h.numRead, u64_add_one]
  · exact ⟨h.numWritten, h.numRead, h.terminated, h.draining, h.batch, h.pending, hrest⟩

theorem readNothing_counted (h : Counted cfg s) (block : Bool) (timeout : ℤ) :
    Counted cfg (readNothing cfg s block timeout) := by
  unfold readNothing
  dsimp only
  split
  · refine ⟨h.numWritten, ?_, h.terminated, h.draining, h.batch, h.pending, h.head⟩
    refine h.numRead.trans (congrArg u64 (Finset.sum_congr rfl fun w _ => congrArg _ ?_))
    simp [obtained]
  · exact ⟨h.numWritten, h.numRead, h.terminated, h.draining, h.batch, h.pending, h.head⟩

theorem readerStep_counted (h : Counted cfg s) (hs : readerStep cfg s = some t) :
    Counted cfg t := by
  unfold readerStep at hs
  split at hs
  · cases hs
  · cases hs
    exact readScan_counted h _ _
  · cases hs
    exact ⟨h.numWritten, h.numRead, le_rfl, h.draining, h.batch, nofun, h.pending⟩
  · cases hs
    exact readNothing_counted h _ _

/-! ## Runs -/

theorem numTerminated_mono {v : ℕ} :
    numTerminated cfg s ≤ numTerminated cfg
      { s with lockWritersTerminated := Function.update s.lockWritersTerminated v true } := by
  unfold numTerminated
  refine List.Sublist.length_le (List.monotone_filter_right _ fun i hi => ?_)
  dsimp only
  by_cases he : i = v
  · rw [he, Function.update_self]
  · rw [Function.update_of_ne he]
    exact hi

theorem next_counted {a : Action α} (h : Counted cfg s) (hn : next cfg s a = some t) :
    Counted cfg t := by
  cases a with
  | write w e =>
    simp only [next, hltThreadQueueWrite] at hn
    split at hn
    · split at hn
      · split at hn
        · cases hn
          exact h
        · rename_i hlive
          cases hn
          exact h.setPc w fun ht => absurd ht hlive
      · cases hn
    · cases hn
  | flush w =>
    simp only [next, hltThreadQueueFlush] at hn
    split at hn
    · split at hn
      · cases hn
        exact h.setPc w fun _ => trivial
      · cases hn
    · cases hn
  | terminate w =>
    simp only [next, hltThreadQueueTerminateWriter] at hn
    split at hn
    · split at hn
      · rename_i hidle
        cases hn
        refine Counted.setPc ?_ w fun _ => trivial
        refine ⟨h.numWritten, h.numRead, h.terminated.trans numTerminated_mono, fun v hv => ?_,
          h.batch, h.pending, h.head⟩
        by_cases he : v = w
        · rw [he, hidle]
          trivial
        · exact h.draining v ((Function.update_of_ne he _ _).symm.trans hv)
      · cases hn
    · cases hn
  | writer w =>
    simp only [next] at hn
    split at hn
    · rename_i hw
      exact writerStep_counted h hw hn
    · cases hn
  | read timeout =>
    simp only [next, hltThreadQueueRead] at hn
    split at hn
    · cases hn
      exact ⟨h.numWritten, h.numRead, h.terminated, h.draining, h.batch, h.pending, h.head⟩
    · cases hn
  | reader => exact readerStep_counted h hn

/-! ## What is left to read -/

theorem sum_ofOwner_le {bs : List (Batch α)} (h : ∀ b ∈ bs, b.Fits cfg) :
    ∑ w ∈ Finset.range cfg.writers, (ofOwner w bs).length ≤ bs.length * cfg.batchSize := by
  induction bs with
  | nil => simp
  | cons b bs ih =>
    have hsplit : ∀ w, (ofOwner w (b :: bs)).length =
        (if b.owner = w then b.elems.length else 0) + (ofOwner w bs).length := by
      intro w
      unfold ofOwner
      rw [List.flatMap_cons, List.length_append]
      split <;> rfl
    obtain ⟨howner, hlen⟩ := h b List.mem_cons_self
    have hrest := ih fun c hc => h c (List.mem_cons_of_mem _ hc)
    rw [Finset.sum_congr rfl fun w _ => hsplit w, Finset.sum_add_distrib, Finset.sum_ite_eq,
      if_pos (Finset.mem_range.mpr howner), List.length_cons, Nat.add_mul, Nat.one_mul]
    omega

theorem unread_length_le (s : State α) (w : ℕ) :
    (unread s w).length ≤ (ofOwner w s.readerHead).length := by
  unfold unread
  split
  · exact Nat.zero_le _
  · rename_i b rest hhead
    rw [hhead]
    unfold ofOwner
    rw [List.flatMap_cons, List.length_append, List.length_append]
    split
    · rw [List.length_drop]
      omega
    · exact Nat.le_refl _

theorem Counted.batched_length_le (h : Counted cfg s) (w : ℕ) :
    (batched s w).length ≤ (s.writerBatches w).toList.length * cfg.batchSize := by
  unfold batched
  split
  · exact Nat.zero_le _
  · rename_i b hb
    rw [hb]
    have hlen := (h.batch w b hb).2
    simpa using hlen

/-- What writer `w` has written and the reader has not obtained. -/
def remaining (s : State α) (w : ℕ) : ℕ :=
  (unread s w).length + (ofOwner w s.lockPending).length + (batched s w).length

theorem Inv.written_length (h : Inv s) (w : ℕ) :
    (s.written w).length = (obtained s w).length + remaining s w := by
  rw [h.written w, h.flushed w]
  simp only [List.length_append, remaining]
  omega

theorem Counted.sum_remaining_lt (h : Counted cfg s) (hmem : InMemory cfg s) :
    ∑ w ∈ Finset.range cfg.writers, remaining s w < 2 ^ 64 := by
  have hunread := (Finset.sum_le_sum fun w _ => unread_length_le s w).trans (sum_ofOwner_le h.head)
  have hpending := sum_ofOwner_le h.pending
  have hbatched := Finset.sum_le_sum fun (w : ℕ) (_ : w ∈ Finset.range cfg.writers) =>
    h.batched_length_le w
  rw [← Finset.sum_mul] at hbatched
  have hle : ∑ w ∈ Finset.range cfg.writers, remaining s w ≤
      allocatedBatches cfg s * cfg.batchSize := by
    unfold remaining allocatedBatches
    rw [Finset.sum_add_distrib, Finset.sum_add_distrib, Nat.add_mul, Nat.add_mul]
    omega
  unfold InMemory at hmem
  rw [show 16 * cfg.batchSize * 8 = cfg.batchSize * 128 by omega, ← Nat.mul_assoc] at hmem
  omega

theorem Counted.obtained_eq (h : Counted cfg s) (hinv : Inv s) (hmem : InMemory cfg s) {n : ℕ}
    (hn : n = u64 (∑ w ∈ Finset.range cfg.writers, (s.written w).length))
    (hzero : u64 (n + (2 ^ 64 - u64 s.readerNumRead)) = 0) (w : ℕ) (hw : w < cfg.writers) :
    obtained s w = s.written w := by
  have hlt := h.sum_remaining_lt hmem
  have hsum : ∑ w ∈ Finset.range cfg.writers, (s.written w).length =
      numObtained cfg s + ∑ w ∈ Finset.range cfg.writers, remaining s w := by
    unfold numObtained
    rw [← Finset.sum_add_distrib]
    exact Finset.sum_congr rfl fun w _ => hinv.written_length w
  have hnone : ∑ w ∈ Finset.range cfg.writers, remaining s w = 0 := by
    rw [hn, hsum, h.numRead] at hzero
    unfold u64 at hzero
    omega
  have hrem := Finset.sum_eq_zero_iff.mp hnone w (Finset.mem_range.mpr hw)
  have hlen := hinv.written_length w
  rw [hrem] at hlen
  have hpre : obtained s w <+: s.written w := by
    rw [hinv.written w, hinv.flushed w, List.append_assoc]
    exact List.prefix_append _ _
  exact hpre.eq_of_length hlen.symm

/-! ## The answer -/

def AllTerminated (cfg : Config) (s : State α) : Prop :=
  ∀ w, w < cfg.writers → s.lockWritersTerminated w = true

theorem Counted.allTerminated (h : Counted cfg s) (hn : s.readerNumTerminated = cfg.writers) :
    AllTerminated cfg s := by
  have hle := h.terminated
  rw [hn] at hle
  unfold numTerminated at hle
  have hlen := List.length_filter_le (fun i => s.lockWritersTerminated i) (List.range cfg.writers)
  rw [List.length_range] at hlen
  have hall := List.length_filter_eq_length_iff.mp
    ((Nat.le_antisymm hlen hle).trans List.length_range.symm)
  exact fun w hw => hall w (List.mem_range.mpr hw)

theorem next_frozen {a : Action α} (h : Counted cfg s) (hall : AllTerminated cfg s)
    (hn : next cfg s a = some t) :
    AllTerminated cfg t ∧ t.writerNumWritten = s.writerNumWritten ∧ t.written = s.written := by
  have hwriter : ∀ w, w < cfg.writers → ∀ t, writerStep cfg s w = some t →
      AllTerminated cfg t ∧ t.writerNumWritten = s.writerNumWritten ∧ t.written = s.written := by
    intro w hw t hs
    have hd := h.draining w (hall w hw)
    unfold writerStep at hs
    split at hs
    · cases hs
    · rename_i hpc
      rw [hpc] at hd
      cases hd
    · rename_i hpc
      rw [hpc] at hd
      cases hd
    · rename_i hpc
      rw [hpc] at hd
      cases hd
    · cases hs
      unfold flushEntry
      split
      · exact ⟨hall, rfl, rfl⟩
      · split <;> exact ⟨hall, rfl, rfl⟩
      · exact ⟨hall, rfl, rfl⟩
    · cases hs
      unfold flushLocked
      split
      · exact ⟨hall, rfl, rfl⟩
      · split
        · exact ⟨hall, rfl, rfl⟩
        · split <;> exact ⟨hall, rfl, rfl⟩
  cases a with
  | write w e =>
    simp only [next, hltThreadQueueWrite] at hn
    split at hn
    · rename_i hw
      split at hn
      · rw [if_pos (hall w hw)] at hn
        cases hn
        exact ⟨hall, rfl, rfl⟩
      · cases hn
    · cases hn
  | flush w =>
    simp only [next, hltThreadQueueFlush] at hn
    split at hn
    · split at hn
      · cases hn
        exact ⟨hall, rfl, rfl⟩
      · cases hn
    · cases hn
  | terminate w =>
    simp only [next, hltThreadQueueTerminateWriter] at hn
    split at hn
    · split at hn
      · cases hn
        refine ⟨fun v hv => ?_, rfl, rfl⟩
        change Function.update s.lockWritersTerminated w true v = true
        by_cases he : v = w
        · rw [he, Function.update_self]
        · rw [Function.update_of_ne he]
          exact hall v hv
      · cases hn
    · cases hn
  | writer w =>
    simp only [next] at hn
    split at hn
    · rename_i hw
      exact hwriter w hw t hn
    · cases hn
  | read timeout =>
    simp only [next, hltThreadQueueRead] at hn
    split at hn
    · cases hn
      exact ⟨hall, rfl, rfl⟩
    · cases hn
  | reader =>
    simp only [next, readerStep] at hn
    split at hn
    · cases hn
    · cases hn
      unfold readScan
      split
      · exact ⟨hall, rfl, rfl⟩
      · dsimp only
        split <;> exact ⟨hall, rfl, rfl⟩
    · cases hn
      exact ⟨hall, rfl, rfl⟩
    · cases hn
      unfold readNothing
      dsimp only
      split <;> exact ⟨hall, rfl, rfl⟩

/-- What a call in progress knows: it goes on only after all writers have terminated, and it has
added up the counters of the first writers. -/
def CheckKnows (cfg : Config) (s : State α) : Check → Prop
  | .size i size => AllTerminated cfg s ∧
      size = u64 (∑ w ∈ Finset.range i, (s.written w).length) ∧ i ≤ cfg.writers
  | .returned true => AllTerminated cfg s ∧ ∀ w, w < cfg.writers → obtained s w = s.written w
  | _ => True

/-- What holds in every state that can be reached. -/
structure ObservedInv (cfg : Config) (s : Observed α) : Prop where
  inv : Inv s.queue
  counted : Counted cfg s.queue
  inMemory : InMemory cfg s.queue
  knows : CheckKnows cfg s.queue s.check

theorem inMemory_new : InMemory cfg (hltThreadQueueNew α) := by
  have hzero : ∀ w ∈ Finset.range cfg.writers,
      ((hltThreadQueueNew α).writerBatches w).toList.length = 0 := fun _ _ => rfl
  unfold InMemory allocatedBatches
  rw [Finset.sum_eq_zero hzero]
  change (0 + 0 + 0) * _ ≤ _
  omega

theorem next_results_le {a : Action α} (hn : next cfg s a = some t) : s.results <+: t.results := by
  by_cases ha : a = .reader
  · subst ha
    simp only [next, readerStep] at hn
    split at hn
    · cases hn
    · cases hn
      unfold readScan
      split
      · exact List.prefix_rfl
      · dsimp only
        split
        · exact List.prefix_append _ _
        · exact List.prefix_rfl
    · cases hn
      exact List.prefix_rfl
    · cases hn
      unfold readNothing
      dsimp only
      split
      · exact List.prefix_append _ _
      · exact List.prefix_rfl
  · rw [next_results hn ha]

theorem obtained_of_frozen {a : Action α} (ht : Inv t) (hn : next cfg s a = some t)
    (hwritten : t.written = s.written) {w : ℕ} (h : obtained s w = s.written w) :
    obtained t w = t.written w := by
  have hpre : obtained t w <+: t.written w := by
    rw [ht.written w, ht.flushed w, List.append_assoc]
    exact List.prefix_append _ _
  refine hpre.eq_of_length_le ?_
  rw [hwritten, ← h]
  exact ((next_results_le hn).filterMap _).length_le

theorem observed_step {s t : Observed α} {a : ObservedAction α} (h : ObservedInv cfg s)
    (hn : (observed α cfg).next s a = some t) : ObservedInv cfg t := by
  cases a with
  | queue a =>
    obtain ⟨q, hq, hn⟩ := Option.bind_eq_some_iff.mp hn
    obtain ⟨hmem, hn⟩ := Option.ite_none_right_eq_some.mp hn
    cases hn
    have hinv := next_inv _ _ a h.inv hq
    refine ⟨hinv, next_counted h.counted hq, hmem, ?_⟩
    have hknows := h.knows
    unfold CheckKnows at hknows ⊢
    split
    · rename_i i size hcheck
      rw [hcheck] at hknows
      obtain ⟨hall, hsize, hi⟩ := hknows
      obtain ⟨hall', -, hwritten⟩ := next_frozen h.counted hall hq
      exact ⟨hall', by rw [hsize, hwritten], hi⟩
    · rename_i hcheck
      rw [hcheck] at hknows
      obtain ⟨hall, hread⟩ := hknows
      obtain ⟨hall', -, hwritten⟩ := next_frozen h.counted hall hq
      exact ⟨hall', fun w hw =>
        obtained_of_frozen hinv hq hwritten (hread w hw)⟩
    · trivial
  | check =>
    cases hn
    refine ⟨h.inv, h.counted, h.inMemory, ?_⟩
    have hstart : CheckKnows cfg s.queue
        (if s.queue.readerNumTerminated = cfg.writers then .size 0 0 else .returned false) := by
      split
      · rename_i hn
        exact ⟨h.counted.allTerminated hn, rfl, Nat.zero_le _⟩
      · trivial
    have hknows := h.knows
    change CheckKnows cfg s.queue (checkStep cfg s.queue s.check)
    cases hcheck : s.check with
    | idle => exact hstart
    | returned r => exact hstart
    | size i size =>
      rw [hcheck] at hknows
      obtain ⟨hall, hsize, hi⟩ := hknows
      unfold checkStep
      dsimp only
      split
      · rename_i hlt
        refine ⟨hall, ?_, hlt⟩
        rw [Finset.sum_range_succ, hsize, h.counted.numWritten i]
        unfold u64
        omega
      · rename_i hge
        have hi' : i = cfg.writers := by omega
        rw [hi'] at hsize
        by_cases hzero : u64 (size + (2 ^ 64 - u64 s.queue.readerNumRead)) = 0
        · rw [decide_eq_true hzero]
          exact ⟨hall, h.counted.obtained_eq h.inv h.inMemory hsize hzero⟩
        · rw [decide_eq_false hzero]
          trivial

/-- However the threads are interleaved: when `hlt_thread_queue_terminated` returns true, all writers
have terminated, and the reader has obtained all that they have ever written. -/
theorem terminated_only_when_done (cfg : Config) (s : Observed α)
    (h : (observed α cfg).Reachable s) (hret : s.check = .returned true) :
    ∀ w, w < cfg.writers →
      s.queue.lockWritersTerminated w = true ∧ obtained s.queue w = s.queue.written w := by
  have hinv : ObservedInv cfg s :=
    h.invariant ⟨inv_new, counted_new, inMemory_new, trivial⟩ fun _ _ _ hi hn => observed_step hi hn
  have hknows := hinv.knows
  rw [hret] at hknows
  exact fun w hw => ⟨hknows.1 w hw, hknows.2 w hw⟩

/-- One writer writes an element and terminates; after the reader has obtained it, the answer is
true. -/
theorem terminated_after_read :
    ∃ s, (observed ℕ ⟨1, 2, 0⟩).Reachable s ∧ s.check = .returned true ∧
      obtained s.queue 0 = [7] ∧
      (s.queue.lockWritersTerminated 0 = true ∧ obtained s.queue 0 = s.queue.written 0) := by
  have hrun : ((observed ℕ ⟨1, 2, 0⟩).run (observed ℕ ⟨1, 2, 0⟩).start
      [.queue (.write 0 7), .queue (.writer 0), .queue (.writer 0), .queue (.writer 0),
        .queue (.terminate 0), .queue (.writer 0), .check, .queue (.writer 0), .queue (.read 0),
        .queue .reader, .queue .reader, .queue .reader, .check, .check, .check]).map
      (fun s => (s.check, obtained s.queue 0)) = some (.returned true, [7]) := by
    decide
  obtain ⟨s, hs, heq⟩ := Option.map_eq_some_iff.mp hrun
  have hreach := Machine.reachable_of_run hs
  have hret : s.check = .returned true := congrArg Prod.fst heq
  exact ⟨s, hreach, hret, congrArg Prod.snd heq,
    terminated_only_when_done ⟨1, 2, 0⟩ s hreach hret 0 (by decide)⟩

end Hilti.ThreadQueue
