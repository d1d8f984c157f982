import Hilti.Memory.Flush

/-! # Removing objects from the null buffer

`__hlt_memory_nullbuffer_remove` marks a copy of the entry, so the buffer stays as it is and a flush
comes across the object all the same. The model adds removing to what a program does, and keeps the
objects that have been removed and not been added again since. -/

namespace Hilti.Memory
open Hilti.Lib
set_option autoImplicit false

/-- `__hlt_memory_nullbuffer_remove`, with the number of entries that is kept for statistics. -/
def hltMemoryNullbufferRemove (s : Heap) (numNullbuffer : ℤ) (o : ℕ) : Heap × ℤ :=
  match nullbufferIndex s o with
  | some _ => (s, numNullbuffer - 1)
  | none => (s, numNullbuffer)

/-- An object has been added to the null buffer by a step, which may have been a flush: its count has
dropped to zero, or this is what the step is for. -/
def Added (op : Op) (s s' : Heap) (o : ℕ) : Prop :=
  op = .add o ∨ (op = .new ∧ o = s.created) ∨ (0 < s.refCnt o ∧ s'.refCnt o ≤ 0)

instance (op : Op) (s s' : Heap) (o : ℕ) : Decidable (Added op s s' o) :=
  inferInstanceAs (Decidable (_ ∨ _ ∨ _))

/-- The heap, and the objects that have been removed and not been added again. -/
structure Guarded where
  heap : Heap
  numNullbuffer : ℤ
  removed : List ℕ

inductive Move
  | op (op : Op)
  | remove (o : ℕ)

def Guarded.next (s : Guarded) : Move → Option Guarded
  | .op op => (perform s.heap op).toOption.map fun heap =>
      ⟨heap, s.numNullbuffer, s.removed.filter fun o => ¬ Added op s.heap heap o⟩
  | .remove o =>
      let r := hltMemoryNullbufferRemove s.heap s.numNullbuffer o
      some ⟨r.1, r.2, o :: s.removed⟩

def removing : Machine Guarded Move where
  start := ⟨memoryNew, 0, []⟩
  next := Guarded.next

/-- What removing is for: a flush destroys none of the removed objects, unless it adds them again
itself, and all others without references exactly once. -/
def Protects (s : Heap) (removed : List ℕ) (s' : Heap) : Prop :=
  (∀ o ∈ removed, o ∉ s.destroyed.map Prod.fst → ¬ Added .flush s s' o →
    o ∉ s'.destroyed.map Prod.fst) ∧
  ∀ i o, s.Entry i o → o ∉ removed → s.refCnt o = 0 → (s'.destroyed.map Prod.fst).count o = 1

/-- No removed object is in the buffer without references. -/
def Spared (s : Heap) (removed : List ℕ) : Prop :=
  ∀ o ∈ removed, ∀ i, s.Entry i o → 0 < s.refCnt o

/-! ## Why objects are destroyed -/

variable {s s' s₀ : Heap} {pos : ℕ}

/-- What has been destroyed since the flush began was an entry without references, or has lost them
all since. -/
def Caused (s₀ s : Heap) : Prop :=
  ∀ o ∈ s.destroyed.map Prod.fst, o ∈ s₀.destroyed.map Prod.fst ∨
    (∃ i, s₀.Entry i o ∧ s₀.refCnt o ≤ 0) ∨ (0 < s₀.refCnt o ∧ s.refCnt o ≤ 0)

theorem Caused.destroy (hc : Caused s₀ s) (h : Flushing s₀ pos s) {x : ℕ} (hx : s.Entry pos x)
    (hcnt : s.refCnt x ≤ 0) {t : Heap} {l : List (ℕ × ℤ)} (ht : Settles pos (begun s x) t l) :
    Caused s₀ (hltFree t x) := by
  have hle : ∀ o, t.refCnt o ≤ s.refCnt o := ht.refCnt_le
  have hx₀ : s₀.Entry pos x := (h.later pos le_rfl).symm.trans hx
  intro o ho
  change o ∈ t.destroyed.map Prod.fst at ho
  rw [ht.destroyed_eq, begun, List.map_append, List.map_append, List.mem_append, List.mem_append] at ho
  obtain (ho | ho) | ho := ho
  · obtain hbefore | hentry | ⟨hpos, hdropped⟩ := hc o ho
    · exact Or.inl hbefore
    · exact Or.inr (Or.inl hentry)
    · exact Or.inr (Or.inr ⟨hpos, (hle o).trans hdropped⟩)
  · have hox : o = x := List.mem_singleton.mp ho
    rw [hox]
    by_cases hpos : 0 < s₀.refCnt x
    · exact Or.inr (Or.inr ⟨hpos, (hle x).trans hcnt⟩)
    · exact Or.inr (Or.inl ⟨pos, hx₀, not_lt.mp hpos⟩)
  · obtain ⟨p, hp, hpo⟩ := List.mem_map.mp ho
    obtain ⟨hpos, hdropped, _⟩ := ht.dropped p hp
    rw [hpo] at hpos hdropped
    exact Or.inr (Or.inr ⟨lt_of_lt_of_le hpos (h.refCnt_le o), hdropped⟩)

theorem flushEntry_caused (hc : Caused s₀ s) (h : Flushing s₀ pos s) (hpos : s.flushPos = some pos)
    (hs' : flushEntry s pos = .ok s') : Caused s₀ s' := by
  unfold flushEntry at hs'
  split at hs'
  · rename_i x hx
    rw [if_pos (h.waiting pos x le_rfl hx)] at hs'
    split at hs'
    · cases hs'
      exact hc
    · rename_i hcnt
      obtain ⟨t, ht, rfl⟩ := map_eq_ok hs'
      obtain ⟨l, hl⟩ := objDtor_settles _ pos s x t hpos h.distinct ht
      exact hc.destroy h hx (not_lt.mp hcnt) hl
  · cases hs'
    exact hc

theorem flushLoop_caused (hd₀ : Distinct s₀) (fuel : ℕ) : ∀ (pos : ℕ) (s : Heap), Flushing s₀ pos s →
    Caused s₀ s → ∀ s', flushLoop fuel pos s = .ok s' → Caused s₀ s' := by
  induction fuel with
  | zero =>
    intro pos s _ _ s' hs'
    cases hs'
  | succ fuel ih =>
    intro pos s h hc s' hs'
    unfold flushLoop at hs'
    dsimp only at hs'
    split at hs'
    · obtain ⟨t, ht, hs'⟩ := bind_eq_ok hs'
      apply ih (pos + 1) t ((flushEntry_spec h.setPos hd₀ rfl).2 t ht) ?_ s' hs'
      exact flushEntry_caused (s := { s with flushPos := some pos }) hc h.setPos rfl ht
    · cases hs'
      exact hc

theorem Sound.flush_caused (h : Sound s) (hs' : hltMemoryNullbufferFlush s = .ok s') :
    Caused s s' := by
  unfold hltMemoryNullbufferFlush at hs'
  rw [h.flushPos_eq] at hs'
  obtain ⟨t, ht, rfl⟩ := map_eq_ok hs'
  apply flushLoop_caused h.distinct _ 0 s h.flushing ?_ t ht
  intro o ho
  exact Or.inl ho

/-! ## Runs -/

theorem toOption_eq_some {s s' : Heap} {op : Op} (h : (perform s op).toOption = some s') :
    perform s op = .ok s' := by
  cases hp : perform s op with
  | error e =>
    rw [hp] at h
    cases h
  | ok t =>
    rw [hp] at h
    cases h
    rfl

theorem removing_sound {s : Guarded} (h : removing.Reachable s) : Sound s.heap := by
  apply h.invariant (P := fun s => Sound s.heap) sound_new
  intro s t move hs hnext
  cases move with
  | op op =>
    obtain ⟨heap, hheap, rfl⟩ := Option.map_eq_some_iff.mp hnext
    exact perform_sound hs (toOption_eq_some hheap)
  | remove o =>
    have heq : (hltMemoryNullbufferRemove s.heap s.numNullbuffer o).1 = s.heap := by
      unfold hltMemoryNullbufferRemove
      split <;> rfl
    rw [← Option.some.inj hnext]
    change Sound (hltMemoryNullbufferRemove s.heap s.numNullbuffer o).1
    rw [heq]
    exact hs

theorem Sound.entry_destroyed (h : Sound s) (hs' : perform s .flush = .ok s') {i o : ℕ}
    (he : s.Entry i o) (hcnt : s.refCnt o ≤ 0) :
    o ∉ s.destroyed.map Prod.fst ∧ o ∈ s'.destroyed.map Prod.fst ∧ s'.refCnt o ≤ 0 := by
  obtain ⟨t, ht, rfl⟩ := h.flush.2 s' hs'
  have hle : t.refCnt o ≤ 0 := (ht.refCnt_le o).trans hcnt
  refine ⟨?_, ?_, hle⟩
  · intro hmem
    obtain ⟨p, hp, hpo⟩ := List.mem_map.mp hmem
    have hfree := (h.freed p hp).1
    rw [hpo, h.allocated_of_entry he] at hfree
    cases hfree
  · obtain ⟨hi, _⟩ := List.getElem?_eq_some_iff.mp he
    cases ht.done i o hi he with
    | inl hmem => exact hmem
    | inr hpos => exact absurd hle (not_le.mpr hpos)

/-- In every run, removing protects from a flush exactly where no removed object is in the buffer
without references. -/
theorem removed_protected_iff (s : Guarded) (h : removing.Reachable s) (s' : Heap)
    (hs' : perform s.heap .flush = .ok s') :
    Protects s.heap s.removed s' ↔ Spared s.heap s.removed := by
  have hs := removing_sound h
  constructor
  · intro hprotects o ho i he
    by_contra hcnt
    obtain ⟨hbefore, hafter, _⟩ := hs.entry_destroyed hs' he (not_lt.mp hcnt)
    apply hprotects.1 o ho hbefore ?_ hafter
    intro hadded
    obtain hop | ⟨hop, _⟩ | ⟨hpos, _⟩ := hadded
    · cases hop
    · cases hop
    · exact hcnt hpos
  · intro hspared
    constructor
    · intro o ho hbefore hadded hafter
      obtain hold | ⟨i, he, hcnt⟩ | hdropped := hs.flush_caused hs' o hafter
      · exact hbefore hold
      · exact absurd (hspared o ho i he) (not_lt.mpr hcnt)
      · exact hadded (Or.inr (Or.inr hdropped))
    · intro i o he _ hcnt
      obtain ⟨t, ht, rfl⟩ := hs.flush.2 s' hs'
      apply List.count_eq_one_of_mem ht.nodup
      exact (hs.entry_destroyed hs' he hcnt.le).2.1

/-- The first object has a reference again when it is removed, and the second one is destroyed. -/
theorem removed_protected_referenced : ∃ s s', removing.Reachable s ∧ 0 ∈ s.removed ∧
    perform s.heap .flush = .ok s' ∧ s'.destroyed.map Prod.fst = [1] ∧
    Protects s.heap s.removed s' := by
  have hrun : ((removing.run removing.start
      [.op .new, .op (.ref 0), .remove 0, .op .new]).bind fun s =>
      (perform s.heap .flush).toOption.map fun s' =>
        (s.removed, s.heap.refCnt 0, s'.destroyed.map Prod.fst)) = some ([0], 1, [1]) := by
    decide
  obtain ⟨s, hs, heq⟩ := Option.bind_eq_some_iff.mp hrun
  obtain ⟨s', hs', heq⟩ := Option.map_eq_some_iff.mp heq
  have hreach : removing.Reachable s := Machine.reachable_of_run hs
  have hremoved : s.removed = [0] := congrArg Prod.fst heq
  have hcnt : s.heap.refCnt 0 = 1 := congrArg (fun r => r.2.1) heq
  have hflush := toOption_eq_some hs'
  refine ⟨s, s', hreach, by rw [hremoved]; exact List.mem_singleton_self 0, hflush,
    congrArg (fun r => r.2.2) heq, (removed_protected_iff s hreach s' hflush).mpr ?_⟩
  intro o ho i _
  rw [hremoved] at ho
  rw [List.mem_singleton.mp ho, hcnt]
  decide

/-- An object that is removed without references is destroyed. -/
theorem removed_destroyed : ¬ ∀ s, removing.Reachable s → ∀ s', perform s.heap .flush = .ok s' →
    Protects s.heap s.removed s' := by
  intro hall
  have hrun : ((removing.run removing.start [.op .new, .remove 0]).bind fun s =>
      (perform s.heap .flush).toOption.map fun s' =>
        (s.removed, s.heap.destroyed, s.heap.refCnt 0, s'.destroyed.map Prod.fst)) =
      some ([0], [], 0, [0]) := by
    decide
  obtain ⟨s, hs, heq⟩ := Option.bind_eq_some_iff.mp hrun
  obtain ⟨s', hs', heq⟩ := Option.map_eq_some_iff.mp heq
  have hremoved : s.removed = [0] := congrArg Prod.fst heq
  have hbefore : s.heap.destroyed = [] := congrArg (fun r => r.2.1) heq
  have hcnt : s.heap.refCnt 0 = 0 := congrArg (fun r => r.2.2.1) heq
  have hafter : s'.destroyed.map Prod.fst = [0] := congrArg (fun r => r.2.2.2) heq
  have hprotects := (hall s (Machine.reachable_of_run hs) s' (toOption_eq_some hs')).1 0
    (by rw [hremoved]; exact List.mem_singleton_self 0) (by rw [hbefore]; exact List.not_mem_nil)
  apply hprotects ?_ (by rw [hafter]; exact List.mem_singleton_self 0)
  intro hadded
  obtain hop | ⟨hop, _⟩ | ⟨hpos, _⟩ := hadded
  · cases hop
  · cases hop
  · rw [hcnt] at hpos
    exact absurd hpos (lt_irrefl 0)

end Hilti.Memory
