import Hilti.Channel.Fifo

/-! # Runs of channels

Any interleaving of non-blocking reads and writes refines a queue, as long as cloning the items
raises no exception. With the blocking functions, called by any number of threads, the capacity of a
bounded channel is kept by all of them but `hlt_channel_write`, which does not test for it. -/

namespace Hilti.Channel
open Hilti.Lib
set_option autoImplicit false

variable {α : Type} (ti : TypeInfo α)

/-! ## Non-blocking calls -/

inductive TryOp (α : Type)
  | write (item : α)
  | read
  deriving DecidableEq

/-- A channel with what its calls have returned so far. -/
structure Traced (α : Type) where
  shared : Shared α
  log : List (Outcome α)

def tryCall (s : Shared α) : TryOp α → Option (Shared α × Outcome α)
  | .write item => hltChannelWriteTry ti s item
  | .read => hltChannelReadTry s

def tryMachine (capacity : ℤ) : Machine (Traced α) (TryOp α) where
  start := ⟨hltChannelNew ti capacity, []⟩
  next := fun t op => (tryCall ti t.shared op).map fun r => ⟨r.1, t.log ++ [r.2]⟩

/-- The values that have been written without an exception. -/
def written (log : List (Outcome α)) : List α :=
  log.filterMap fun
    | .wrote item => some item
    | _ => none

/-- The values that have been read. -/
def readBy (log : List (Outcome α)) : List α :=
  log.filterMap fun
    | .read item => some item
    | _ => none

/-- Cloning the item raises no exception, unless there is no room for it anyway. -/
def Clones (t : Traced α) : TryOp α → Prop
  | .write item => (ti.cloneDeep item).2 = false ∨ t.shared.full
  | .read => True

instance (t : Traced α) : (op : TryOp α) → Decidable (Clones ti t op)
  | .write item => inferInstanceAs (Decidable ((ti.cloneDeep item).2 = false ∨ t.shared.full))
  | .read => isTrue trivial

/-- The items are what has been written and not been read. -/
structure Refines (capacity : ℤ) (t : Traced α) : Prop where
  wellFormed : WellFormed t.shared
  log_eq : readBy t.log ++ t.shared.items = written t.log
  capacity_eq : t.shared.capacity = capacity

variable {ti} {capacity : ℤ} {t : Traced α}

theorem Refines.size_eq (h : Refines capacity t) :
    t.shared.size = (written t.log).length - (readBy t.log).length := by
  rw [← h.log_eq, h.wellFormed.size_eq, List.length_append]
  omega

theorem Refines.items_eq_nil_iff (h : Refines capacity t) :
    t.shared.items = [] ↔ (written t.log).length = (readBy t.log).length := by
  rw [← h.log_eq, List.length_append, ← List.length_eq_zero_iff]
  omega

theorem Refines.writeTry (h : Refines capacity t) {item : α}
    (hclone : (ti.cloneDeep item).2 = false ∨ t.shared.full) :
    ∃ s' o, hltChannelWriteTry ti t.shared item = some (s', o) ∧ Refines capacity ⟨s', t.log ++ [o]⟩ ∧
      (t.shared.full → o = .wouldBlock) ∧ (¬ t.shared.full → o = .wrote (ti.cloneDeep item).1) := by
  unfold hltChannelWriteTry
  by_cases hfull : t.shared.full
  · rw [if_pos hfull]
    refine ⟨_, _, rfl, ⟨h.wellFormed, ?_, h.capacity_eq⟩, fun _ => rfl, absurd hfull⟩
    simpa [readBy, written] using h.log_eq
  · have hok := hclone.resolve_right hfull
    obtain ⟨s', hwrite, hwf, hitems, hcapacity⟩ :=
      hltChannelWriteItem_spec ti h.wellFormed hfull item
    rw [if_neg hfull]
    refine ⟨s', .wrote (ti.cloneDeep item).1, ?_, ⟨hwf, ?_, hcapacity.trans h.capacity_eq⟩,
      fun hf => absurd hf hfull, fun _ => rfl⟩
    · unfold hltChannelWrite
      rw [hwrite, Option.map_some]
      simp [writeOutcome, hok]
    · rw [show written (t.log ++ [.wrote (ti.cloneDeep item).1]) =
        written t.log ++ [(ti.cloneDeep item).1] by simp [written], ← h.log_eq, List.append_assoc,
        ← hitems]
      simp [readBy]

theorem Refines.readTry (h : Refines capacity t) :
    ∃ s' o, hltChannelReadTry t.shared = some (s', o) ∧ Refines capacity ⟨s', t.log ++ [o]⟩ ∧
      (o = .wouldBlock ↔ t.shared.items = []) ∧ (o ≠ .wouldBlock → ∃ item, o = .read item) := by
  have hsize := h.wellFormed.size_eq
  unfold hltChannelReadTry
  by_cases hnil : t.shared.items = []
  · rw [hnil] at hsize
    rw [if_pos (by simpa using hsize)]
    refine ⟨_, _, rfl, ⟨h.wellFormed, ?_, h.capacity_eq⟩, ⟨fun _ => hnil, fun _ => rfl⟩, absurd rfl⟩
    simpa [readBy, written] using h.log_eq
  · have hpos := List.length_pos_iff.mpr hnil
    obtain ⟨s', item, hread, hwf, hitems, hcapacity⟩ := hltChannelReadItem_spec h.wellFormed hnil
    rw [if_neg (by omega)]
    refine ⟨s', .read item, ?_, ⟨hwf, ?_, hcapacity.trans h.capacity_eq⟩, ?_,
      fun _ => ⟨item, rfl⟩⟩
    · unfold hltChannelRead
      rw [hread, Option.map_some]
    · have hlog := h.log_eq
      rw [hitems] at hlog
      simpa [readBy, written] using hlog
    · exact ⟨nofun, fun hn => absurd hn hnil⟩

theorem Refines.step (t : Traced α) (op : TryOp α) (h : Refines capacity t)
    (hop : Clones ti t op) :
    ∃ t', (tryMachine ti capacity).next t op = some t' ∧ Refines capacity t' := by
  cases op with
  | write item =>
    obtain ⟨s', o, hcall, hrefines, -⟩ := h.writeTry hop
    refine ⟨_, ?_, hrefines⟩
    change (hltChannelWriteTry ti t.shared item).map _ = _
    rw [hcall, Option.map_some]
  | read =>
    obtain ⟨s', o, hcall, hrefines, -⟩ := h.readTry
    refine ⟨_, ?_, hrefines⟩
    change (hltChannelReadTry t.shared).map _ = _
    rw [hcall, Option.map_some]

/-- While cloning raises no exceptions, every interleaving of non-blocking calls goes through; the
values read are the first of those written, and the size is the number of those that are left. A
write fails exactly if a bounded channel holds that many items, a read exactly if there is none. -/
theorem channel_fifo (ti : TypeInfo α) (capacity : ℤ) (ops : List (TryOp α))
    (hops : (tryMachine ti capacity).Along (Clones ti) (tryMachine ti capacity).start ops) :
    ∃ t, (tryMachine ti capacity).run (tryMachine ti capacity).start ops = some t ∧
      readBy t.log <+: written t.log ∧
      t.shared.size = (written t.log).length - (readBy t.log).length ∧
      (∀ item, (ti.cloneDeep item).2 = false →
        ∃ s' o, hltChannelWriteTry ti t.shared item = some (s', o) ∧
          (o = .wouldBlock ↔
            capacity ≠ 0 ∧ ((written t.log).length - (readBy t.log).length : ℤ) = capacity) ∧
          (o ≠ .wouldBlock → o = .wrote (ti.cloneDeep item).1)) ∧
      ∃ s' o, hltChannelReadTry t.shared = some (s', o) ∧
        (o = .wouldBlock ↔ (written t.log).length = (readBy t.log).length) ∧
        (o ≠ .wouldBlock → ∃ item, o = .read item) := by
  have hstart : Refines capacity (tryMachine ti capacity).start := ⟨wellFormed_new ti capacity, rfl, rfl⟩
  obtain ⟨t, hrun, h⟩ := Machine.run_invariant Refines.step ops _ hstart hops
  have hsize := h.size_eq
  refine ⟨t, hrun, ⟨t.shared.items, h.log_eq⟩, hsize, fun item hclone => ?_, ?_⟩
  · obtain ⟨s', o, hcall, -, hfull, hroom⟩ := h.writeTry (.inl hclone)
    have hiff : t.shared.full ↔
        capacity ≠ 0 ∧ ((written t.log).length - (readBy t.log).length : ℤ) = capacity := by
      unfold Shared.full
      rw [h.capacity_eq, hsize]
    refine ⟨s', o, hcall, ?_, fun hne => hroom fun hf => hne (hfull hf)⟩
    rw [← hiff]
    refine ⟨fun ho => by_contra fun hnot => ?_, hfull⟩
    rw [hroom hnot] at ho
    cases ho
  · obtain ⟨s', o, hcall, -, hempty, hread⟩ := h.readTry
    exact ⟨s', o, hcall, hempty.trans h.items_eq_nil_iff, hread⟩

/-- Numbers, which are copied as they are. -/
def numbers : TypeInfo ℕ := ⟨0, fun x => (x, false)⟩

theorem channel_fifo_numbers :
    (tryMachine numbers 2).Along (Clones numbers) (tryMachine numbers 2).start
      [.write 7, .write 8, .write 9, .read, .write 9] ∧
    ∃ t, (tryMachine numbers 2).run (tryMachine numbers 2).start
        [.write 7, .write 8, .write 9, .read, .write 9] = some t ∧
      readBy t.log <+: written t.log ∧ (readBy t.log, written t.log) = ([7], [7, 8, 9]) := by
  have hops : (tryMachine numbers 2).Along (Clones numbers) (tryMachine numbers 2).start
      [.write 7, .write 8, .write 9, .read, .write 9] := by decide
  obtain ⟨t, hrun, hread, -⟩ := channel_fifo numbers 2 _ hops
  have hlog : ((tryMachine numbers 2).run (tryMachine numbers 2).start
      [.write 7, .write 8, .write 9, .read, .write 9]).map
        (fun t => (readBy t.log, written t.log)) = some ([7], [7, 8, 9]) := by decide
  rw [hrun] at hlog
  exact ⟨hops, t, hrun, hread, Option.some.inj hlog⟩

/-- References to objects of a type that cannot be cloned: the slot keeps its null reference. -/
def references : TypeInfo (Option ℕ) := ⟨none, fun x => (none, x.isSome)⟩

/-- The write raises an exception and counts nevertheless: a null reference is read that nobody has
written. -/
theorem channel_not_fifo :
    ∃ t, (tryMachine references 0).run (tryMachine references 0).start
        [.write (some 1), .read] = some t ∧
      ¬ readBy t.log <+: written t.log ∧ t.log = [.cloneRaised, .read none] := by
  have hlog : ((tryMachine references 0).run (tryMachine references 0).start
      [.write (some 1), .read]).map (fun t => t.log) = some [.cloneRaised, .read none] := by decide
  obtain ⟨t, ht, hlog⟩ := Option.map_eq_some_iff.mp hlog
  refine ⟨t, ht, ?_, hlog⟩
  rw [hlog]
  decide

/-! ## Threads -/

/-- The calls of the threads. A thread that waits for an item tests again when it is woken up. -/
inductive Op (α : Type)
  | write (th : ℕ) (item : α)
  | writeTry (th : ℕ) (item : α)
  | read (th : ℕ)
  | wokenUp (th : ℕ)
  | readTry (th : ℕ)
  deriving DecidableEq

/-- A channel with the threads that wait for `empty_cv`. -/
structure Threads (α : Type) where
  shared : Shared α
  waiting : List ℕ

/-- The loop of `hlt_channel_read`, up to the next wait. -/
def readOrWait (s : Threads α) (th : ℕ) : Option (Threads α) :=
  if s.shared.size = 0 then some { s with waiting := th :: s.waiting.erase th }
  else (hltChannelReadItem s.shared).map fun r => ⟨r.1, s.waiting.erase th⟩

variable (ti) in
/-- Only a thread that does not wait can make a call, and only one that does can be woken up. -/
def next (s : Threads α) : Op α → Option (Threads α)
  | .write th item =>
      if th ∈ s.waiting then none
      else (hltChannelWrite ti s.shared item).map fun r => { s with shared := r.1 }
  | .writeTry th item =>
      if th ∈ s.waiting then none
      else (hltChannelWriteTry ti s.shared item).map fun r => { s with shared := r.1 }
  | .read th => if th ∈ s.waiting then none else readOrWait s th
  | .wokenUp th => if th ∈ s.waiting then readOrWait s th else none
  | .readTry th =>
      if th ∈ s.waiting then none
      else (hltChannelReadTry s.shared).map fun r => { s with shared := r.1 }

variable (ti) in
def machine (capacity : ℤ) : Machine (Threads α) (Op α) where
  start := ⟨hltChannelNew ti capacity, []⟩
  next := next ti

/-- `hlt_channel_write` is called only while there is room. -/
def HasRoom (s : Threads α) : Op α → Prop
  | .write _ _ => ¬ s.shared.full
  | _ => True

instance (s : Threads α) : (op : Op α) → Decidable (HasRoom s op)
  | .write _ _ => inferInstanceAs (Decidable (¬ s.shared.full))
  | .writeTry _ _ => isTrue trivial
  | .read _ => isTrue trivial
  | .wokenUp _ => isTrue trivial
  | .readTry _ => isTrue trivial

/-- The channel holds at most `capacity` items. -/
structure Bounded (capacity : ℤ) (s : Shared α) : Prop where
  wellFormed : WellFormed s
  capacity_eq : s.capacity = capacity
  length_le : s.items.length ≤ capacity

theorem Bounded.write {s s' : Shared α} (h : Bounded capacity s) (hpos : 0 < capacity)
    (hroom : ¬ s.full) {item : α} {o : Outcome α}
    (hcall : hltChannelWrite ti s item = some (s', o)) : Bounded capacity s' := by
  obtain ⟨s₁, hwrite, hwf, hitems, hcapacity⟩ := hltChannelWriteItem_spec ti h.wellFormed hroom item
  unfold hltChannelWrite at hcall
  rw [hwrite] at hcall
  cases hcall
  refine ⟨hwf, hcapacity.trans h.capacity_eq, ?_⟩
  have hne : s.size ≠ s.capacity := fun he => hroom ⟨by rw [h.capacity_eq]; omega, he⟩
  rw [h.wellFormed.size_eq, h.capacity_eq] at hne
  have hle := h.length_le
  rw [hitems, List.length_append, List.length_singleton]
  omega

theorem Bounded.writeTry {s s' : Shared α} (h : Bounded capacity s) (hpos : 0 < capacity)
    {item : α} {o : Outcome α} (hcall : hltChannelWriteTry ti s item = some (s', o)) :
    Bounded capacity s' := by
  unfold hltChannelWriteTry at hcall
  split at hcall
  · cases hcall
    exact h
  · rename_i hroom
    exact h.write hpos hroom hcall

theorem Bounded.readItem {s s' : Shared α} {item : α} (h : Bounded capacity s) (hsize : s.size ≠ 0)
    (hcall : hltChannelReadItem s = some (s', item)) : Bounded capacity s' := by
  have hne : s.items ≠ [] := by
    intro hnil
    rw [h.wellFormed.size_eq, hnil] at hsize
    exact hsize rfl
  obtain ⟨s₁, item₁, hread, hwf, hitems, hcapacity⟩ := hltChannelReadItem_spec h.wellFormed hne
  cases hread.symm.trans hcall
  refine ⟨hwf, hcapacity.trans h.capacity_eq, ?_⟩
  have hle := h.length_le
  rw [hitems, List.length_cons] at hle
  omega

theorem Bounded.readOrWait {s s' : Threads α} {th : ℕ} (h : Bounded capacity s.shared)
    (hcall : readOrWait s th = some s') : Bounded capacity s'.shared := by
  unfold Channel.readOrWait at hcall
  split at hcall
  · cases hcall
    exact h
  · rename_i hsize
    obtain ⟨r, hread, hr⟩ := Option.map_eq_some_iff.mp hcall
    cases hr
    exact h.readItem hsize hread

theorem next_bounded {s s' : Threads α} {op : Op α} (h : Bounded capacity s.shared)
    (hpos : 0 < capacity) (hop : HasRoom s op) (hnext : next ti s op = some s') :
    Bounded capacity s'.shared := by
  cases op with
  | write th item =>
    obtain ⟨-, hcall⟩ := Option.ite_none_left_eq_some.mp hnext
    obtain ⟨r, hwrite, hr⟩ := Option.map_eq_some_iff.mp hcall
    cases hr
    exact h.write hpos hop hwrite
  | writeTry th item =>
    obtain ⟨-, hcall⟩ := Option.ite_none_left_eq_some.mp hnext
    obtain ⟨r, hwrite, hr⟩ := Option.map_eq_some_iff.mp hcall
    cases hr
    exact h.writeTry hpos hwrite
  | read th =>
    obtain ⟨-, hcall⟩ := Option.ite_none_left_eq_some.mp hnext
    exact h.readOrWait hcall
  | wokenUp th =>
    obtain ⟨-, hcall⟩ := Option.ite_none_right_eq_some.mp hnext
    exact h.readOrWait hcall
  | readTry th =>
    obtain ⟨-, hcall⟩ := Option.ite_none_left_eq_some.mp hnext
    obtain ⟨r, hread, hr⟩ := Option.map_eq_some_iff.mp hcall
    cases hr
    unfold hltChannelReadTry at hread
    split at hread
    · cases hread
      exact h
    · rename_i hsize
      obtain ⟨r', hitem, hr'⟩ := Option.map_eq_some_iff.mp hread
      cases hr'
      exact h.readItem hsize hitem

/-- Whatever the threads do, a bounded channel holds at most as many items as its capacity says, if
`hlt_channel_write` is called only while there is room. -/
theorem capacity_kept (ti : TypeInfo α) (capacity : ℤ) (hpos : 0 < capacity) (ops : List (Op α))
    (s : Threads α) (hrun : (machine ti capacity).run (machine ti capacity).start ops = some s)
    (hops : (machine ti capacity).Along HasRoom (machine ti capacity).start ops) :
    s.shared.items.length ≤ capacity ∧ s.shared.size = s.shared.items.length := by
  have hstart : Bounded capacity (hltChannelNew ti capacity) := by
    refine ⟨wellFormed_new ti capacity, rfl, ?_⟩
    rw [items_new]
    exact Int.le_of_lt hpos
  have h : Bounded capacity s.shared :=
    Machine.run_keeps (P := fun s => Bounded capacity s.shared)
      (fun _ _ _ h hop hnext => next_bounded h hpos hop hnext) hrun
      hstart hops
  exact ⟨h.length_le, h.wellFormed.size_eq⟩

theorem capacity_kept_numbers :
    (machine numbers 1).Along HasRoom (machine numbers 1).start
      [.read 5, .write 1 7, .writeTry 2 8, .wokenUp 5, .writeTry 2 8] ∧
    ∃ s, (machine numbers 1).run (machine numbers 1).start
        [.read 5, .write 1 7, .writeTry 2 8, .wokenUp 5, .writeTry 2 8] = some s ∧
      s.shared.items.length ≤ (1 : ℤ) := by
  have hops : (machine numbers 1).Along HasRoom (machine numbers 1).start
      [.read 5, .write 1 7, .writeTry 2 8, .wokenUp 5, .writeTry 2 8] := by decide
  obtain ⟨s, hs⟩ := Option.isSome_iff_exists.mp
    (by decide : ((machine numbers 1).run (machine numbers 1).start
      [.read 5, .write 1 7, .writeTry 2 8, .wokenUp 5, .writeTry 2 8]).isSome)
  exact ⟨hops, s, hs, (capacity_kept numbers 1 (by decide) _ s hs hops).1⟩

/-- `hlt_channel_write` neither blocks nor fails: one thread alone puts two items into a channel for
one. -/
theorem capacity_exceeded :
    ((machine numbers 1).run (machine numbers 1).start [.write 1 7, .write 1 8]).map
      (fun s => (s.shared.items, s.shared.size, s.shared.capacity)) = some ([7, 8], 2, 1) := by
  decide

end Hilti.Channel
