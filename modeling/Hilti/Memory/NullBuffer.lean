import Hilti.Lib.Machine
import Mathlib.Data.List.Nodup
import Mathlib.Order.Nat
import Mathlib.Data.Int.Order.Basic
import Mathlib.Tactic.Common

/-! # The null buffer (`libhilti/memory_.c`)

An object whose reference count drops to zero is put into a buffer; a flush destroys those objects in
it that have not got a new reference until then. Destroying an object releases the references in its
fields, so further objects may drop to zero during the flush: these are destroyed at once, unless
they are still to come in the buffer.

Objects are numbered in the order of their creation. Touching one that has been freed is a fault, as
is running out of fuel, which the flush never does. -/

namespace Hilti.Memory
open Hilti.Lib
set_option autoImplicit false

inductive Fault
  | dangling
  | outOfFuel
  deriving DecidableEq

/-- The objects and the null buffer. `destroyed` has the objects whose destructors have been called,
with their reference counts at that time. -/
structure Heap where
  created : ℕ
  allocated : ℕ → Bool
  refCnt : ℕ → ℤ
  fields : ℕ → List ℕ
  objs : List (Option ℕ)
  flushPos : Option ℕ
  destroyed : List (ℕ × ℤ)

def memoryNew : Heap where
  created := 0
  allocated := fun _ => false
  refCnt := fun _ => 0
  fields := fun _ => []
  objs := []
  flushPos := none
  destroyed := []

/-- `_nullbuffer_index`. -/
def nullbufferIndex (s : Heap) (o : ℕ) : Option ℕ := s.objs.idxOf? (some o)

/-- `__hlt_free`. -/
def hltFree (s : Heap) (o : ℕ) : Heap :=
  { s with allocated := Function.update s.allocated o false }

section
variable (objDtor : Heap → ℕ → Except Fault Heap)

/-- `__hlt_memory_nullbuffer_add`. -/
def hltMemoryNullbufferAdd (s : Heap) (o : ℕ) : Except Fault Heap :=
  match s.flushPos, nullbufferIndex s o with
  | some pos, some nbpos =>
      if pos ≤ nbpos then .ok s
      else (objDtor s o).map fun s => hltFree { s with objs := s.objs.set nbpos none } o
  | some _, none => (objDtor s o).map fun s => hltFree s o
  | none, some _ => .ok s
  | none, none => .ok { s with objs := s.objs ++ [some o] }

/-- `__hlt_object_unref`. -/
def hltObjectUnref (s : Heap) (o : ℕ) : Except Fault Heap :=
  if s.allocated o then
    let s := { s with refCnt := Function.update s.refCnt o (s.refCnt o - 1) }
    if s.refCnt o = 0 then hltMemoryNullbufferAdd objDtor s o else .ok s
  else .error .dangling

/-- Releasing the references in some fields. -/
def unrefAll : List ℕ → Heap → Except Fault Heap
  | [], s => .ok s
  | o :: os, s => (hltObjectUnref objDtor s o).bind (unrefAll os)

end

/-- The destructor of an object. -/
def objDtor : ℕ → Heap → ℕ → Except Fault Heap
  | 0, _, _ => .error .outOfFuel
  | fuel + 1, s, o =>
      unrefAll (objDtor fuel) (s.fields o) { s with destroyed := s.destroyed ++ [(o, s.refCnt o)] }

/-- One round of the loop of `__hlt_memory_nullbuffer_flush`. -/
def flushEntry (s : Heap) (pos : ℕ) : Except Fault Heap :=
  match s.objs[pos]? with
  | some (some x) =>
      if s.allocated x then
        if s.refCnt x > 0 then .ok s
        else (objDtor (s.created + 1) s x).map fun s => hltFree s x
      else .error .dangling
  | _ => .ok s

def flushLoop : ℕ → ℕ → Heap → Except Fault Heap
  | 0, _, _ => .error .outOfFuel
  | fuel + 1, pos, s =>
      let s := { s with flushPos := some pos }
      if pos < s.objs.length then (flushEntry s pos).bind (flushLoop fuel (pos + 1)) else .ok s

/-- `__hlt_memory_nullbuffer_flush`. -/
def hltMemoryNullbufferFlush (s : Heap) : Except Fault Heap :=
  if s.flushPos.isSome then .ok s
  else (flushLoop (s.objs.length + 1) 0 s).map fun s => { s with objs := [], flushPos := none }

/-- What a program does with its objects outside of destructors. An assignment replaces the fields of
an object. -/
inductive Op
  | new
  | newRef
  | ref (o : ℕ)
  | unref (o : ℕ)
  | add (o : ℕ)
  | assign (o : ℕ) (fields : List ℕ)
  | flush
  deriving DecidableEq

/-- A new object, with its reference count. -/
def hltObjectNew (s : Heap) (refCnt : ℤ) : Heap :=
  { s with
    created := s.created + 1
    allocated := Function.update s.allocated s.created true
    refCnt := Function.update s.refCnt s.created refCnt
    fields := Function.update s.fields s.created [] }

def perform (s : Heap) : Op → Except Fault Heap
  | .new => hltMemoryNullbufferAdd (objDtor (s.created + 1)) (hltObjectNew s 0) s.created
  | .newRef => .ok (hltObjectNew s 1)
  | .ref o =>
      if s.allocated o then .ok { s with refCnt := Function.update s.refCnt o (s.refCnt o + 1) }
      else .error .dangling
  | .unref o => hltObjectUnref (objDtor (s.created + 1)) s o
  | .add o =>
      if s.allocated o then hltMemoryNullbufferAdd (objDtor (s.created + 1)) s o
      else .error .dangling
  | .assign o fields =>
      if s.allocated o then .ok { s with fields := Function.update s.fields o fields }
      else .error .dangling
  | .flush => hltMemoryNullbufferFlush s

def machine : Machine Heap Op where
  start := memoryNew
  next := fun s op => (perform s op).toOption

/-! ## Parts of a flush -/

/-- The entry `i` of the null buffer. -/
def Heap.Entry (s : Heap) (i o : ℕ) : Prop := s.objs[i]? = some (some o)

def Distinct (s : Heap) : Prop := ∀ i j o, s.Entry i o → s.Entry j o → i = j

/-- From the entry `pos` on the null buffer stays as it is, references are only released, and the
objects that get destroyed are those whose counts drop to zero and that are not to come in the
buffer. -/
structure Settles (pos : ℕ) (s s' : Heap) (l : List (ℕ × ℤ)) : Prop where
  created_eq : s'.created = s.created
  flushPos_eq : s'.flushPos = s.flushPos
  length_eq : s'.objs.length = s.objs.length
  later : ∀ i, pos ≤ i → s'.objs[i]? = s.objs[i]?
  entry : ∀ i o, s'.Entry i o → s.Entry i o
  refCnt_le : ∀ o, s'.refCnt o ≤ s.refCnt o
  destroyed_eq : s'.destroyed = s.destroyed ++ l
  nodup : (l.map Prod.fst).Nodup
  dropped : ∀ p ∈ l, 0 < s.refCnt p.1 ∧ s'.refCnt p.1 ≤ 0 ∧ p.2 ≤ 0 ∧ s.allocated p.1 = true
  passed : ∀ p ∈ l, ∀ i, pos ≤ i → ¬ s.Entry i p.1
  allocated_iff : ∀ o, s'.allocated o = true ↔ s.allocated o = true ∧ o ∉ l.map Prod.fst
  settled : ∀ o, 0 < s.refCnt o → s'.refCnt o ≤ 0 →
    o ∈ l.map Prod.fst ∨ ∃ i, pos ≤ i ∧ s.Entry i o

variable {pos : ℕ} {s s' s'' : Heap} {l l' : List (ℕ × ℤ)}

theorem Settles.refl (pos : ℕ) (s : Heap) : Settles pos s s [] where
  created_eq := rfl
  flushPos_eq := rfl
  length_eq := rfl
  later _ _ := rfl
  entry _ _ h := h
  refCnt_le _ := le_rfl
  destroyed_eq := (List.append_nil _).symm
  nodup := List.nodup_nil
  dropped _ h := absurd h List.not_mem_nil
  passed _ h := absurd h List.not_mem_nil
  allocated_iff o := by simp
  settled o h h' := absurd (h.trans_le h') (lt_irrefl 0)

theorem Settles.trans (h : Settles pos s s' l) (h' : Settles pos s' s'' l') :
    Settles pos s s'' (l ++ l') where
  created_eq := h'.created_eq.trans h.created_eq
  flushPos_eq := h'.flushPos_eq.trans h.flushPos_eq
  length_eq := h'.length_eq.trans h.length_eq
  later i hi := (h'.later i hi).trans (h.later i hi)
  entry i o he := h.entry i o (h'.entry i o he)
  refCnt_le o := (h'.refCnt_le o).trans (h.refCnt_le o)
  destroyed_eq := by rw [h'.destroyed_eq, h.destroyed_eq, List.append_assoc]
  nodup := by
    rw [List.map_append]
    refine h.nodup.append h'.nodup fun o ho ho' => ?_
    obtain ⟨p, hp, rfl⟩ := List.mem_map.mp ho
    obtain ⟨p', hp', heq⟩ := List.mem_map.mp ho'
    -- what the first part has destroyed has no references left for the second
    have hle := (h.dropped p hp).2.1
    have hpos := (h'.dropped p' hp').1
    rw [heq] at hpos
    exact absurd (hpos.trans_le hle) (lt_irrefl 0)
  dropped p hp := by
    rcases List.mem_append.mp hp with hp | hp
    · obtain ⟨hpos, hle, hcnt, halloc⟩ := h.dropped p hp
      exact ⟨hpos, (h'.refCnt_le p.1).trans hle, hcnt, halloc⟩
    · obtain ⟨hpos, hle, hcnt, halloc⟩ := h'.dropped p hp
      exact ⟨hpos.trans_le (h.refCnt_le p.1), hle, hcnt, ((h.allocated_iff p.1).mp halloc).1⟩
  passed p hp i hi he := by
    rcases List.mem_append.mp hp with hp | hp
    · exact h.passed p hp i hi he
    · exact h'.passed p hp i hi ((h.later i hi).trans he)
  allocated_iff o := by
    rw [h'.allocated_iff, h.allocated_iff, List.map_append, List.mem_append, not_or, and_assoc]
  settled o hpos hle := by
    rw [List.map_append, List.mem_append]
    by_cases hmid : s'.refCnt o ≤ 0
    · rcases h.settled o hpos hmid with ho | ho
      · exact .inl (.inl ho)
      · exact .inr ho
    · rcases h'.settled o (lt_of_not_ge hmid) hle with ho | ⟨i, hi, he⟩
      · exact .inl (.inr ho)
      · exact .inr ⟨i, hi, (h.later i hi).symm.trans he⟩

theorem Settles.distinct (h : Settles pos s s' l) (hd : Distinct s) : Distinct s' :=
  fun i j o hi hj => hd i j o (h.entry i o hi) (h.entry j o hj)

end Hilti.Memory
