import Hilti.Memory.Destruction
import Mathlib.Data.Finset.Card

/-! # Delayed destruction

The loop of a flush keeps `Flushing`: the entries that are still to come are not touched, and those
that it has passed are destroyed or have references. So in every run each object is destroyed at most
once, never with references, and a flush leaves no object of the buffer without references alive. -/

namespace Hilti.Memory
open Hilti.Lib
set_option autoImplicit false

variable {pos : ℕ} {s s' s₀ : Heap} {l : List (ℕ × ℤ)}

/-! ## Fuel -/

def InUse (s : Heap) : Prop := ∀ o, s.allocated o = true → o < s.created

def referenced (s : Heap) : Finset ℕ := (Finset.range s.created).filter fun o => 0 < s.refCnt o

theorem Settles.inUse (h : Settles pos s s' l) (hu : InUse s) : InUse s' := by
  intro o ho
  rw [h.created_eq]
  exact hu o ((h.allocated_iff o).mp ho).1

theorem Settles.card_le (h : Settles pos s s' l) : (referenced s').card ≤ (referenced s).card := by
  refine Finset.card_le_card fun o ho => ?_
  obtain ⟨hlt, hpos⟩ := Finset.mem_filter.mp ho
  rw [h.created_eq] at hlt
  exact Finset.mem_filter.mpr ⟨hlt, hpos.trans_le (h.refCnt_le o)⟩

theorem card_lt_of_dropped {o : ℕ} (ho : o < s.created) (hcnt : s.refCnt o = 1) :
    (referenced { s with refCnt := Function.update s.refCnt o 0 }).card < (referenced s).card := by
  refine Finset.card_lt_card (Finset.ssubset_iff_of_subset (fun x hx => ?_) |>.mpr ⟨o, ?_, fun hx => ?_⟩)
  · obtain ⟨hlt, hpos⟩ := Finset.mem_filter.mp hx
    refine Finset.mem_filter.mpr ⟨hlt, ?_⟩
    by_cases he : x = o
    · rw [he, hcnt]
      decide
    · exact (Function.update_of_ne he (0 : ℤ) s.refCnt) ▸ hpos
  · refine Finset.mem_filter.mpr ⟨Finset.mem_range.mpr ho, ?_⟩
    rw [hcnt]
    decide
  · obtain ⟨-, hpos⟩ := Finset.mem_filter.mp hx
    change 0 < Function.update s.refCnt o 0 o at hpos
    rw [Function.update_self] at hpos
    exact absurd hpos (lt_irrefl 0)

theorem map_ne_outOfFuel {α β : Type} {x : Except Fault α} (f : α → β)
    (h : x ≠ .error .outOfFuel) : x.map f ≠ .error .outOfFuel := by
  cases x with
  | error e => exact fun he => h (congrArg _ (Except.error.inj he))
  | ok a => exact nofun

theorem bind_ne_outOfFuel {α β : Type} {x : Except Fault α} {f : α → Except Fault β}
    (h : x ≠ .error .outOfFuel) (hf : ∀ a, x = .ok a → f a ≠ .error .outOfFuel) :
    x.bind f ≠ .error .outOfFuel := by
  cases x with
  | error e => exact fun he => h (congrArg _ (Except.error.inj he))
  | ok a => exact hf a rfl

def DtorEnds (dtor : Heap → ℕ → Except Fault Heap) (n : ℕ) : Prop :=
  ∀ pos s o, s.flushPos = some pos → Distinct s → InUse s → (referenced s).card < n →
    dtor s o ≠ .error .outOfFuel

theorem hltObjectUnref_ends {dtor : Heap → ℕ → Except Fault Heap} {n : ℕ} (hends : DtorEnds dtor n)
    (hpos : s.flushPos = some pos) (hd : Distinct s) (hu : InUse s) (hn : (referenced s).card ≤ n)
    (o : ℕ) : hltObjectUnref dtor s o ≠ .error .outOfFuel := by
  unfold hltObjectUnref
  split
  · rename_i halloc
    simp only [Function.update_self]
    split
    · rename_i hzero
      have hcnt : s.refCnt o = 1 := by omega
      rw [hzero]
      have hlt := (card_lt_of_dropped (hu o halloc) hcnt).trans_le hn
      have hcall := hends pos { s with refCnt := Function.update s.refCnt o 0 } o hpos hd hu hlt
      unfold hltMemoryNullbufferAdd
      split
      · split
        · exact nofun
        · exact map_ne_outOfFuel _ hcall
      · exact map_ne_outOfFuel _ hcall
      · exact nofun
      · exact nofun
    · exact nofun
  · exact nofun

theorem unrefAll_ends {dtor : Heap → ℕ → Except Fault Heap} {n : ℕ} (hends : DtorEnds dtor n)
    (hdtor : DtorSettles dtor) (os : List ℕ) : ∀ {s : Heap}, s.flushPos = some pos → Distinct s →
      InUse s → (referenced s).card ≤ n → unrefAll dtor os s ≠ .error .outOfFuel := by
  induction os with
  | nil =>
    intro s _ _ _ _
    exact nofun
  | cons o os ih =>
    intro s hpos hd hu hn
    refine bind_ne_outOfFuel (hltObjectUnref_ends hends hpos hd hu hn o) fun t ht => ?_
    obtain ⟨l, hl⟩ := hltObjectUnref_settles hdtor hpos hd ht
    exact ih (hl.flushPos_eq.trans hpos) (hl.distinct hd) (hl.inUse hu) (hl.card_le.trans hn)

theorem objDtor_ends (fuel : ℕ) : DtorEnds (objDtor fuel) fuel := by
  induction fuel with
  | zero =>
    intro pos s o _ _ _ hn
    omega
  | succ fuel ih =>
    intro pos s o hpos hd hu hn
    exact unrefAll_ends (s := begun s o) ih (objDtor_settles fuel) (s.fields o) hpos hd hu
      (Nat.le_of_lt_succ hn)

theorem card_referenced_le (s : Heap) : (referenced s).card ≤ s.created :=
  (Finset.card_filter_le _ _).trans (Finset.card_range _).le

/-! ## The loop -/

/-- The flush has passed the entries before `pos`. -/
structure Flushing (s₀ : Heap) (pos : ℕ) (s : Heap) : Prop where
  distinct : Distinct s
  inUse : InUse s
  length_eq : s.objs.length = s₀.objs.length
  later : ∀ i, pos ≤ i → s.objs[i]? = s₀.objs[i]?
  waiting : ∀ i o, pos ≤ i → s.Entry i o → s.allocated o = true
  refCnt_le : ∀ o, s.refCnt o ≤ s₀.refCnt o
  freed : ∀ p ∈ s.destroyed, s.allocated p.1 = false ∧ p.1 < s.created ∧ p.2 ≤ 0
  nodup : (s.destroyed.map Prod.fst).Nodup
  done : ∀ i o, i < pos → s₀.Entry i o → o ∈ s.destroyed.map Prod.fst ∨ 0 < s.refCnt o

theorem Flushing.setPos {p : ℕ} (h : Flushing s₀ p s) :
    Flushing s₀ p { s with flushPos := some p } :=
  ⟨h.distinct, h.inUse, h.length_eq, h.later, h.waiting, h.refCnt_le, h.freed, h.nodup, h.done⟩

theorem Flushing.pass (h : Flushing s₀ pos s) (hdone : ∀ o, s₀.Entry pos o → 0 < s.refCnt o) :
    Flushing s₀ (pos + 1) s where
  distinct := h.distinct
  inUse := h.inUse
  length_eq := h.length_eq
  later i hi := h.later i (Nat.le_of_succ_le hi)
  waiting i o hi := h.waiting i o (Nat.le_of_succ_le hi)
  refCnt_le := h.refCnt_le
  freed := h.freed
  nodup := h.nodup
  done i o hi he := by
    rcases Nat.lt_or_eq_of_le (Nat.le_of_lt_succ hi) with hi | rfl
    · exact h.done i o hi he
    · exact .inr (hdone o he)

theorem Flushing.destroy (h : Flushing s₀ pos s) (hd₀ : Distinct s₀) {x : ℕ} (hx : s.Entry pos x)
    (hcnt : s.refCnt x ≤ 0) {t : Heap} (ht : Settles pos (begun s x) t l) :
    Flushing s₀ (pos + 1) (hltFree t x) := by
  have halloc : s.allocated x = true := h.waiting pos x le_rfl hx
  have hentry : ∀ i o, (hltFree t x).Entry i o → s.Entry i o := ht.entry
  have hxl : x ∉ l.map Prod.fst := by
    intro hmem
    obtain ⟨p, hp, rfl⟩ := List.mem_map.mp hmem
    exact ht.passed p hp pos le_rfl hx
  have hallocated : ∀ o, (hltFree t x).allocated o = true ↔
      o ≠ x ∧ s.allocated o = true ∧ o ∉ l.map Prod.fst := by
    intro o
    change Function.update t.allocated x false o = true ↔ _
    by_cases ho : o = x
    · rw [ho, Function.update_self]
      simp
    · rw [Function.update_of_ne ho, ht.allocated_iff o]
      exact ⟨fun hp => ⟨ho, hp⟩, fun hp => hp.2⟩
  have hdestroyed : (hltFree t x).destroyed = s.destroyed ++ ((x, s.refCnt x) :: l) := by
    change t.destroyed = _
    rw [ht.destroyed_eq]
    unfold begun
    rw [List.append_assoc]
    rfl
  have hmem : ∀ o, o ∈ (hltFree t x).destroyed.map Prod.fst ↔
      o ∈ s.destroyed.map Prod.fst ∨ o = x ∨ o ∈ l.map Prod.fst := by
    intro o
    rw [hdestroyed, List.map_append, List.mem_append, List.map_cons, List.mem_cons]
  refine
    { distinct := fun i j o hi hj => h.distinct i j o (hentry i o hi) (hentry j o hj)
      inUse := fun o ho => ?_
      length_eq := ht.length_eq.trans h.length_eq
      later := fun i hi => (ht.later i (Nat.le_of_succ_le hi)).trans (h.later i (Nat.le_of_succ_le hi))
      waiting := fun i o hi he => ?_
      refCnt_le := fun o => (ht.refCnt_le o).trans (h.refCnt_le o)
      freed := fun p hp => ?_
      nodup := ?_
      done := fun i o hi he => ?_ }
  · change o < t.created
    rw [ht.created_eq]
    exact h.inUse o ((hallocated o).mp ho).2.1
  · have hs := hentry i o he
    refine (hallocated o).mpr ⟨fun hox => ?_, h.waiting i o (Nat.le_of_succ_le hi) hs, fun hol => ?_⟩
    · have heq := h.distinct i pos o hs (hox ▸ hx)
      omega
    · obtain ⟨p, hp, rfl⟩ := List.mem_map.mp hol
      exact ht.passed p hp i (Nat.le_of_succ_le hi) hs
  · have hnot : ∀ o, ¬ (o ≠ x ∧ s.allocated o = true ∧ o ∉ l.map Prod.fst) →
        (hltFree t x).allocated o = false :=
      fun o ho => Bool.eq_false_iff.mpr fun hc => ho ((hallocated o).mp hc)
    rw [hdestroyed] at hp
    have hcreated : (hltFree t x).created = s.created := ht.created_eq
    rw [hcreated]
    rcases List.mem_append.mp hp with hp | hp
    · obtain ⟨hfree, hlt, hle⟩ := h.freed p hp
      refine ⟨hnot p.1 fun hc => ?_, hlt, hle⟩
      rw [hfree] at hc
      exact absurd hc.2.1 (by decide)
    · rcases List.mem_cons.mp hp with rfl | hp
      · exact ⟨hnot x fun hc => hc.1 rfl, h.inUse x halloc, hcnt⟩
      · obtain ⟨-, -, hle, halloc'⟩ := ht.dropped p hp
        exact ⟨hnot p.1 fun hc => hc.2.2 (List.mem_map_of_mem hp), h.inUse p.1 halloc', hle⟩
  · rw [hdestroyed, List.map_append, List.map_cons]
    refine h.nodup.append (List.nodup_cons.mpr ⟨hxl, ht.nodup⟩) fun o ho ho' => ?_
    -- what has been destroyed before is not allocated any more
    obtain ⟨p, hp, rfl⟩ := List.mem_map.mp ho
    have hfree := (h.freed p hp).1
    rcases List.mem_cons.mp ho' with he | ho'
    · rw [he, halloc] at hfree
      cases hfree
    · obtain ⟨p', hp', he⟩ := List.mem_map.mp ho'
      have halloc' := (ht.dropped p' hp').2.2.2
      rw [he] at halloc'
      exact Bool.noConfusion (hfree.symm.trans halloc')
  · rw [hmem o]
    rcases Nat.lt_or_eq_of_le (Nat.le_of_lt_succ hi) with hi | rfl
    · rcases h.done i o hi he with ho | ho
      · exact .inl (.inl ho)
      · by_cases hle : t.refCnt o ≤ 0
        · rcases ht.settled o ho hle with hol | ⟨j, hj, hej⟩
          · exact .inl (.inr (.inr hol))
          · have heq := hd₀ i j o he ((h.later j hj).symm.trans hej)
            omega
        · exact .inr (lt_of_not_ge hle)
    · have hox : o = x := by
        have heq := (h.later i le_rfl).symm.trans hx
        exact Option.some.inj (Option.some.inj (he.symm.trans heq))
      exact .inl (.inr (.inl hox))

theorem flushEntry_spec (h : Flushing s₀ pos s) (hd₀ : Distinct s₀) (hpos : s.flushPos = some pos) :
    flushEntry s pos ≠ .error .outOfFuel ∧
      ∀ s', flushEntry s pos = .ok s' → Flushing s₀ (pos + 1) s' := by
  unfold flushEntry
  split
  · rename_i x hx
    rw [if_pos (h.waiting pos x le_rfl hx)]
    split
    · rename_i hcnt
      refine ⟨nofun, fun s' hs' => ?_⟩
      cases hs'
      refine h.pass fun o ho => ?_
      have heq := (h.later pos le_rfl).symm.trans hx
      cases Option.some.inj (ho.symm.trans heq)
      exact hcnt
    · rename_i hcnt
      constructor
      · refine map_ne_outOfFuel _ (objDtor_ends _ pos s x hpos h.distinct h.inUse ?_)
        exact Nat.lt_succ_of_le (card_referenced_le s)
      · intro s' hs'
        obtain ⟨t, ht, rfl⟩ := map_eq_ok hs'
        obtain ⟨l, hl⟩ := objDtor_settles _ pos s x t hpos h.distinct ht
        exact h.destroy hd₀ hx (not_lt.mp hcnt) hl
  · rename_i hnone
    refine ⟨nofun, fun s' hs' => ?_⟩
    cases hs'
    exact h.pass fun o ho => absurd ((h.later pos le_rfl).trans ho) (hnone o)

theorem flushLoop_spec (hd₀ : Distinct s₀) (fuel : ℕ) : ∀ (pos : ℕ) (s : Heap), Flushing s₀ pos s →
    pos ≤ s₀.objs.length → s₀.objs.length < pos + fuel →
    flushLoop fuel pos s ≠ .error .outOfFuel ∧
      ∀ s', flushLoop fuel pos s = .ok s' → Flushing s₀ s₀.objs.length s' := by
  induction fuel with
  | zero =>
    intro pos s _ hle hlt
    omega
  | succ fuel ih =>
    intro pos s h hle hlt
    unfold flushLoop
    dsimp only
    split
    · rename_i hpos
      rw [h.length_eq] at hpos
      obtain ⟨hfuel, hentry⟩ := flushEntry_spec h.setPos hd₀ rfl
      constructor
      · exact bind_ne_outOfFuel hfuel fun t ht => (ih (pos + 1) t (hentry t ht) hpos (by omega)).1
      · intro s' hs'
        obtain ⟨t, ht, hs'⟩ := bind_eq_ok hs'
        exact (ih (pos + 1) t (hentry t ht) hpos (by omega)).2 s' hs'
    · rename_i hpos
      rw [h.length_eq] at hpos
      refine ⟨nofun, fun s' hs' => ?_⟩
      cases hs'
      have heq : pos = s₀.objs.length := by omega
      rw [← heq]
      exact h.setPos

/-! ## Runs -/

/-- What holds while no flush is going on. -/
structure Sound (s : Heap) : Prop where
  flushPos_eq : s.flushPos = none
  distinct : Distinct s
  inUse : InUse s
  entry : ∀ i, i < s.objs.length → ∃ o, s.Entry i o ∧ s.allocated o = true
  freed : ∀ p ∈ s.destroyed, s.allocated p.1 = false ∧ p.1 < s.created ∧ p.2 ≤ 0
  nodup : (s.destroyed.map Prod.fst).Nodup

theorem sound_new : Sound memoryNew where
  flushPos_eq := rfl
  distinct i j o hi := by
    unfold Heap.Entry memoryNew at hi
    cases hi
  inUse o ho := by cases ho
  entry i hi := absurd hi (Nat.not_lt_zero i)
  freed p hp := by cases hp
  nodup := List.nodup_nil

theorem Sound.allocated_of_entry (h : Sound s) {i o : ℕ} (he : s.Entry i o) :
    s.allocated o = true := by
  obtain ⟨hi, -⟩ := List.getElem?_eq_some_iff.mp he
  obtain ⟨x, hx, halloc⟩ := h.entry i hi
  cases Option.some.inj (Option.some.inj (he.symm.trans hx))
  exact halloc

theorem Sound.of_same (h : Sound s) (refCnt : ℕ → ℤ) (fields : ℕ → List ℕ) :
    Sound { s with refCnt := refCnt, fields := fields } :=
  ⟨h.flushPos_eq, h.distinct, h.inUse, h.entry, h.freed, h.nodup⟩

theorem Sound.objectNew (h : Sound s) (refCnt : ℤ) : Sound (hltObjectNew s refCnt) where
  flushPos_eq := h.flushPos_eq
  distinct := h.distinct
  inUse o ho := by
    change o < s.created + 1
    change Function.update s.allocated s.created true o = true at ho
    by_cases he : o = s.created
    · omega
    · rw [Function.update_of_ne he] at ho
      exact Nat.lt_succ_of_lt (h.inUse o ho)
  entry i hi := by
    obtain ⟨o, he, halloc⟩ := h.entry i hi
    have hne : o ≠ s.created := Nat.ne_of_lt (h.inUse o halloc)
    refine ⟨o, he, ?_⟩
    change Function.update s.allocated s.created true o = true
    rw [Function.update_of_ne hne]
    exact halloc
  freed p hp := by
    obtain ⟨hfree, hlt, hle⟩ := h.freed p hp
    refine ⟨?_, Nat.lt_succ_of_lt hlt, hle⟩
    change Function.update s.allocated s.created true p.1 = false
    rw [Function.update_of_ne (Nat.ne_of_lt hlt)]
    exact hfree
  nodup := h.nodup

theorem Sound.add {dtor : Heap → ℕ → Except Fault Heap} (h : Sound s) {o : ℕ}
    (halloc : s.allocated o = true) (hs' : hltMemoryNullbufferAdd dtor s o = .ok s') :
    Sound s' := by
  unfold hltMemoryNullbufferAdd at hs'
  split at hs'
  · rename_i hpos _
    cases h.flushPos_eq.symm.trans hpos
  · rename_i hpos _
    cases h.flushPos_eq.symm.trans hpos
  · cases hs'
    exact h
  · rename_i hindex
    cases hs'
    have hnew : ∀ i, ¬ s.Entry i o := nullbufferIndex_eq_none hindex
    have hentry : ∀ i x, (s.objs ++ [some o])[i]? = some (some x) →
        s.Entry i x ∨ (i = s.objs.length ∧ x = o) := by
      intro i x hi
      rw [List.getElem?_append] at hi
      split at hi
      · exact .inl hi
      · rename_i hlt
        obtain ⟨hi', heq⟩ := List.getElem?_eq_some_iff.mp hi
        rw [List.length_singleton] at hi'
        have hzero : i - s.objs.length = 0 := by omega
        simp only [hzero, List.getElem_cons_zero] at heq
        exact .inr ⟨by omega, (Option.some.inj heq).symm⟩
    refine ⟨h.flushPos_eq, fun i j x hi hj => ?_, h.inUse, fun i hi => ?_, h.freed, h.nodup⟩
    · rcases hentry i x hi with hi | ⟨hi, rfl⟩ <;> rcases hentry j x hj with hj | ⟨hj, hx⟩
      · exact h.distinct i j x hi hj
      · exact absurd (hx ▸ hi) (hnew i)
      · exact absurd hj (hnew j)
      · omega
    · rw [List.length_append, List.length_singleton] at hi
      by_cases hlt : i < s.objs.length
      · obtain ⟨x, hx, hx'⟩ := h.entry i hlt
        refine ⟨x, ?_, hx'⟩
        unfold Heap.Entry
        rw [List.getElem?_append_left hlt]
        exact hx
      · have heq : i = s.objs.length := by omega
        refine ⟨o, ?_, halloc⟩
        unfold Heap.Entry
        rw [heq, List.getElem?_concat_length]

theorem Sound.flushing (h : Sound s) : Flushing s 0 s where
  distinct := h.distinct
  inUse := h.inUse
  length_eq := rfl
  later _ _ := rfl
  waiting _ _ _ he := h.allocated_of_entry he
  refCnt_le _ := le_rfl
  freed := h.freed
  nodup := h.nodup
  done i _ hi := absurd hi (Nat.not_lt_zero i)

theorem Sound.flush (h : Sound s) : hltMemoryNullbufferFlush s ≠ .error .outOfFuel ∧
    ∀ s', hltMemoryNullbufferFlush s = .ok s' → ∃ t, Flushing s s.objs.length t ∧
      s' = { t with objs := [], flushPos := none } := by
  unfold hltMemoryNullbufferFlush
  rw [h.flushPos_eq]
  obtain ⟨hfuel, hloop⟩ := flushLoop_spec h.distinct (s.objs.length + 1) 0 s h.flushing
    (Nat.zero_le _) (by omega)
  constructor
  · exact map_ne_outOfFuel _ hfuel
  · intro s' hs'
    obtain ⟨t, ht, rfl⟩ := map_eq_ok hs'
    exact ⟨t, hloop t ht, rfl⟩

theorem perform_sound (h : Sound s) {op : Op} (hs' : perform s op = .ok s') : Sound s' := by
  cases op with
  | new =>
    have halloc : (hltObjectNew s 0).allocated s.created = true := Function.update_self ..
    exact (h.objectNew 0).add halloc hs'
  | newRef =>
    cases hs'
    exact h.objectNew 1
  | ref o =>
    simp only [perform] at hs'
    split at hs'
    · cases hs'
      exact h.of_same _ _
    · cases hs'
  | unref o =>
    simp only [perform, hltObjectUnref] at hs'
    split at hs'
    · rename_i halloc
      split at hs'
      · exact (h.of_same (Function.update s.refCnt o (s.refCnt o - 1)) s.fields).add halloc hs'
      · cases hs'
        exact h.of_same _ _
    · cases hs'
  | add o =>
    simp only [perform] at hs'
    split at hs'
    · rename_i halloc
      exact h.add halloc hs'
    · cases hs'
  | assign o fields =>
    simp only [perform] at hs'
    split at hs'
    · cases hs'
      exact h.of_same _ _
    · cases hs'
  | flush =>
    obtain ⟨t, ht, rfl⟩ := h.flush.2 s' hs'
    refine ⟨rfl, fun i j o hi => ?_, ht.inUse, fun i hi => absurd hi (Nat.not_lt_zero i),
      ht.freed, ht.nodup⟩
    unfold Heap.Entry at hi
    cases hi

theorem reachable_sound (h : machine.Reachable s) : Sound s := by
  refine h.invariant sound_new fun s s' op hs hnext => ?_
  change (perform s op).toOption = some s' at hnext
  apply perform_sound hs
  show perform s op = .ok s'
  cases hp : perform s op with
  | error e =>
    rw [hp] at hnext
    cases hnext
  | ok t =>
    rw [hp] at hnext
    cases hnext
    rfl

/-- In every run, no object is destroyed twice and none while it has references. A flush ends, and if
it touches no object that has been freed, all objects of the buffer are destroyed afterwards or have
references; those without references before it are destroyed. -/
theorem nullbuffer_sound (s : Heap) (h : machine.Reachable s) :
    (s.destroyed.map Prod.fst).Nodup ∧ (∀ p ∈ s.destroyed, p.2 ≤ 0) ∧
    perform s .flush ≠ .error .outOfFuel ∧
    ∀ s', perform s .flush = .ok s' → ∀ i o, s.Entry i o →
      (o ∈ s'.destroyed.map Prod.fst ∨ 0 < s'.refCnt o) ∧
      (s.refCnt o = 0 → o ∈ s'.destroyed.map Prod.fst) := by
  have hs := reachable_sound h
  refine ⟨hs.nodup, fun p hp => (hs.freed p hp).2.2, hs.flush.1, fun s' hs' i o he => ?_⟩
  obtain ⟨t, ht, rfl⟩ := hs.flush.2 s' hs'
  obtain ⟨hi, -⟩ := List.getElem?_eq_some_iff.mp he
  have hdone := ht.done i o hi he
  refine ⟨hdone, fun hzero => hdone.resolve_right fun hpos => ?_⟩
  have hle := ht.refCnt_le o
  rw [hzero] at hle
  exact absurd (lt_of_lt_of_le hpos hle) (lt_irrefl 0)

/-- The first object holds the only reference to the second, which holds one to the third; the third
has been in the buffer before and is passed while it still has a reference. -/
def chainRun : List Op :=
  [.new, .ref 0, .newRef, .new, .ref 2, .unref 0, .assign 0 [1], .assign 1 [2]]

theorem nullbuffer_sound_chain :
    ∃ s, machine.Reachable s ∧ (s.destroyed.map Prod.fst).Nodup ∧
      ∃ s', perform s .flush = .ok s' ∧ s'.destroyed.map Prod.fst = [0, 1, 2] ∧
        (0 ∈ s'.destroyed.map Prod.fst ∨ 0 < s'.refCnt 0) := by
  have hrun : ((machine.run memoryNew chainRun).bind fun s => (perform s .flush).toOption.map
      fun s' => (s.objs[0]?, s'.destroyed.map Prod.fst)) = some (some (some 0), [0, 1, 2]) := by
    decide
  obtain ⟨s, hs, heq⟩ := Option.bind_eq_some_iff.mp hrun
  obtain ⟨s', hs', heq⟩ := Option.map_eq_some_iff.mp heq
  have hreach : machine.Reachable s := Machine.reachable_of_run hs
  have hflush : perform s .flush = .ok s' := by
    cases hp : perform s .flush with
    | error e =>
      rw [hp] at hs'
      cases hs'
    | ok t =>
      rw [hp] at hs'
      cases hs'
      rfl
  obtain ⟨hnodup, -, -, hflushed⟩ := nullbuffer_sound s hreach
  exact ⟨s, hreach, hnodup, s', hflush, congrArg Prod.snd heq,
    (hflushed s' hflush 0 0 (congrArg Prod.fst heq)).1⟩

end Hilti.Memory
