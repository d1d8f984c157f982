import Hilti.Lists.Model

/-!
# Sequences with deadlines

What lists are for: sequences of items, each with the time at which it expires, if it does.  An
item has a number of its own, by which iterators refer to it.  There are no links and no timers,
and times do not overflow: a deadline of 2^64 or later never comes.
-/

namespace Hilti.Lists

open Hilti.Lib

set_option autoImplicit false

structure Item (α : Type) where
  id : ℕ
  value : α
  deadline : Option ℕ
  deriving DecidableEq

structure Sequence (α : Type) where
  items : List (Item α)
  fresh : ℕ
  tmgr : Option ℕ
  timeout : ℕ
  strategy : Option ExpireStrategy

structure Spec (α : Type) where
  seqs : ℕ → Option (Sequence α)
  times : ℕ → Option ℕ
  listCount : ℕ
  mgrCount : ℕ

variable {α : Type}

def Spec.setSeq (S : Spec α) (n : ℕ) (A : Sequence α) : Spec α :=
  { S with seqs := Function.update S.seqs n (some A) }

/-! ## Items -/

/-- The deadline of an item from now on. -/
def later (time timeout : ℕ) : Option ℕ :=
  if timeout = 0 ∨ 2 ^ 64 ≤ time + timeout then none else some (time + timeout)

def Spec.deadline (S : Spec α) (A : Sequence α) : Option ℕ := do
  let m ← A.tmgr
  let time ← S.times m
  later time A.timeout

/-- The next item of a sequence. -/
def Spec.newItem (S : Spec α) (A : Sequence α) (val : α) : Item α :=
  ⟨A.fresh, val, S.deadline A⟩

def Sequence.find (A : Sequence α) (a : ℕ) : Option (Item α) :=
  A.items.find? fun it => it.id = a

/-- The number of the item behind the one with the number `a`. -/
def Sequence.next (A : Sequence α) (a : ℕ) : Option ℕ :=
  ((A.items.dropWhile fun it => it.id ≠ a).tail.head?).map Item.id

/-- An item is added between the others. -/
def Spec.add (S : Spec α) (n : ℕ) (val : α)
    (place : Item α → List (Item α) → List (Item α)) : Option (Spec α) := do
  let A ← S.seqs n
  some (S.setSeq n { A with items := place (S.newItem A val) A.items, fresh := A.fresh + 1 })

def Spec.pushFront (S : Spec α) (n : ℕ) (val : α) : Option (Spec α) :=
  S.add n val fun new items => new :: items

def Spec.pushBack (S : Spec α) (n : ℕ) (val : α) : Option (Spec α) :=
  S.add n val fun new items => items ++ [new]

def Spec.insertBefore (S : Spec α) (n : ℕ) (val : α) (a : ℕ) : Option (Spec α) :=
  S.add n val fun new items =>
    items.takeWhile (fun it => it.id ≠ a) ++ new :: items.dropWhile (fun it => it.id ≠ a)

def Spec.remove (S : Spec α) (n a : ℕ) : Option (Spec α) := do
  let A ← S.seqs n
  some (S.setSeq n { A with items := A.items.filter fun it => it.id ≠ a })

/-- The deadline of an item that has one is put off, where accesses do that. -/
def Spec.access (S : Spec α) (n a : ℕ) : Option (Spec α) := do
  let A ← S.seqs n
  if A.tmgr = none ∨ A.strategy ≠ some .access ∨ A.timeout = 0 then some S
  else
    some (S.setSeq n { A with
      items := A.items.map fun it =>
        if it.id = a then { it with deadline := it.deadline.bind fun _ => S.deadline A } else it })

/-- An item expires with a deadline up to the limit. -/
def Item.due (limit : Option ℕ) (it : Item α) : Bool :=
  it.deadline.any fun d => limit.all fun t => d ≤ t

/-- The items of a timer manager that are due are taken out. -/
def Spec.expire (S : Spec α) (m : ℕ) (limit : Option ℕ) : Spec α :=
  { S with seqs := fun n => (S.seqs n).map fun A =>
      if A.tmgr = some m then { A with items := A.items.filter fun it => ! it.due limit } else A }

/-! ## Operations -/

/-- A front or back item. -/
def Spec.popAt (S : Spec α) (n : ℕ) (item : List (Item α) → Option (Item α)) :
    Option (Spec α × Result α) := do
  let A ← S.seqs n
  match item A.items with
  | none => some (S, .exception .underflow)
  | some it => (S.remove n it.id).map fun S => (S, .done)

def Spec.readAt (S : Spec α) (n : ℕ) (item : List (Item α) → Option (Item α)) :
    Option (Spec α × Result α) := do
  let A ← S.seqs n
  match item A.items with
  | none => some (S, .exception .underflow)
  | some it => (S.access n it.id).map fun S => (S, .value it.value)

/-- An iterator that refers to an item of its list, or to its end. -/
def Spec.isValid (S : Spec α) (i : Iter) : Bool :=
  match i.list.bind S.seqs, i.node with
  | none, _ => false
  | some _, none => true
  | some A, some a => (A.find a).isSome

def Spec.accessIter (S : Spec α) (i : Iter) : Option (Spec α) :=
  match i.list, i.node with
  | some n, some a => S.access n a
  | _, _ => some S

def specStep (S : Spec α) : Op α → Option (Spec α × Result α)
  | .newMgr =>
    some ({ S with times := Function.update S.times S.mgrCount (some 0), mgrCount := S.mgrCount + 1 },
      .done)
  | .new tmgr =>
    some ({ S.setSeq S.listCount ⟨[], 0, tmgr, 0, none⟩ with listCount := S.listCount + 1 }, .done)
  | .timeout n strategy timeout => do
    let A ← S.seqs n
    some (S.setSeq n
      { A with timeout := timeout, strategy := strategy, tmgr := some (A.tmgr.getD ctxTmgr) }, .done)
  | .pushFront n val => (S.pushFront n val).map fun S => (S, .done)
  | .pushBack n val => (S.pushBack n val).map fun S => (S, .done)
  | .popFront n => S.popAt n fun items => items.head?
  | .popBack n => S.popAt n fun items => items.getLast?
  | .front n => S.readAt n fun items => items.head?
  | .back n => S.readAt n fun items => items.getLast?
  | .size n => do
    let A ← S.seqs n
    some (S, .size A.items.length)
  | .append n1 n2 => do
    let A ← S.seqs n2
    let S ← A.items.foldlM (fun S it => S.pushBack n1 it.value) S
    some (S, .done)
  | .erase i =>
    match S.isValid i, i.list, i.node with
    | true, some n, some a => (S.remove n a).map fun S => (S, .done)
    | _, _, _ => some (S, .exception .invalidIterator)
  | .insert val i =>
    match S.isValid i, i.list, i.node with
    | true, some n, some a => (S.insertBefore n val a).map fun S => (S, .done)
    | true, some n, none => (S.pushBack n val).map fun S => (S, .done)
    | _, _, _ => some (S, .exception .invalidIterator)
  | .begin n => do
    let A ← S.seqs n
    some (S, .iter ⟨some n, A.items.head?.map Item.id⟩)
  | .stop n => some (S, .iter ⟨some n, none⟩)
  | .incr i =>
    match S.isValid i, i.list, i.node with
    | true, some n, some a => do
      let A ← S.seqs n
      some (S, .iter ⟨some n, A.next a⟩)
    | true, _, none => some (S, .iter i)
    | _, _, _ => some (S, .exception .invalidIterator)
  | .deref i =>
    match S.isValid i, i.list, i.node with
    | true, some n, some a => do
      let A ← S.seqs n
      let it ← A.find a
      (S.access n a).map fun S => (S, .value it.value)
    | _, _, _ => some (S, .exception .invalidIterator)
  | .eq i1 i2 => do
    let S ← S.accessIter i1
    let S ← S.accessIter i2
    some (S, .bool (i1 = i2))
  | .advance m time => do
    let _ ← S.times m
    some (({ S with times := Function.update S.times m (some time) } : Spec α).expire m (some time),
      .done)
  | .expire m => some (S.expire m none, .done)

/-- No lists, and one timer manager. -/
def initSpec : Spec α where
  seqs _ := none
  times m := if m = ctxTmgr then some 0 else none
  listCount := 0
  mgrCount := 1

/-- Sequences under the operations on lists. -/
def specMachine (α : Type) : Machine (Spec α × List (Result α)) (Op α) where
  start := (initSpec, [])
  next s op := (specStep s.1 op).map fun r => (r.1, s.2 ++ [r.2])

end Hilti.Lists
