import Mathlib.Data.List.Nodup
import Mathlib.Data.List.Forall2
import Mathlib.Order.Nat
import Mathlib.Logic.Function.Basic
import Mathlib.Tactic.Common

/-! # Deep cloning (`libhilti/clone.c`)

Values of types that can be cloned: atomic ones, references to objects, and tuples (or unions), which
lie inline in memory. Cloning keeps a pointer map (`libhilti/util.c`) from the objects that it has
come across to their clones. It enters a key for tuples, too: the word that lies first in them.

The memory that a value is cloned to is zeroed, as the channels and containers provide it. Objects
have the addresses below a bound, and their clones get addresses from there on; a null reference is
the address 0. -/

namespace Hilti.Clone
set_option autoImplicit false

inductive Value
  | atomic (w : ℕ)
  | ref (p : ℕ)
  | tuple (vs : List Value)

/-- A finite graph of objects, each with the values in its fields or elements. -/
structure Graph where
  objs : ℕ → Option (List Value)
  bound : ℕ
  lt_bound : ∀ p fs, objs p = some fs → p < bound

/-! ## Memory layout -/

/-- A piece of a value in memory: a word, a reference, or the mark that the next `n` values are the
elements of a tuple. -/
inductive Cell
  | word (w : ℕ)
  | ref (p : ℕ)
  | inline (n : ℕ)
  deriving DecidableEq

mutual

def Value.cells : Value → List Cell
  | .atomic w => [.word w]
  | .ref p => [.ref p]
  | .tuple vs => .inline vs.length :: cellsAll vs

def cellsAll : List Value → List Cell
  | [] => []
  | v :: vs => v.cells ++ cellsAll vs

end

/-- What is read from the memory of the cell. -/
def Cell.word? : Cell → Option ℕ
  | .word w => some w
  | .ref p => some p
  | .inline _ => none

/-- `*(void**)srcp` of a tuple. -/
def firstWord (vs : List Value) : ℕ := ((cellsAll vs).findSome? Cell.word?).getD 0

/-! ## The pointer map -/

/-- `__hlt_pointer_map_lookup`, which returns null for a key that is not there. -/
def hltPointerMapLookup : List (ℕ × ℕ) → ℕ → ℕ
  | [], _ => 0
  | (k, v) :: m, key => if k = key then v else hltPointerMapLookup m key

/-- `__hlt_pointer_map_insert`. -/
def hltPointerMapInsert (m : List (ℕ × ℕ)) (key value : ℕ) : List (ℕ × ℕ) :=
  if hltPointerMapLookup m key ≠ 0 then m else m ++ [(key, value)]

/-! ## Cloning -/

/-- The clones: `map` is `cstate->objs`, `heap` has the fields of the clones, and `log` has the objects
for which `clone_alloc` has been called, with what it has returned. -/
structure State where
  map : List (ℕ × ℕ)
  heap : ℕ → Option (List Value)
  next : ℕ
  log : List (ℕ × ℕ)

/-- `clone_alloc`. -/
def cloneAlloc (st : State) (p : ℕ) : State :=
  { st with
    heap := Function.update st.heap st.next (some [])
    next := st.next + 1
    log := st.log ++ [(p, st.next)] }

/-- Cloning one value after the other, as `clone_init` does it. -/
def cloneAll (clone : Value → State → Option (Value × State)) :
    List Value → State → Option (List Value × State)
  | [], st => some ([], st)
  | v :: vs, st =>
      (clone v st).bind fun r => (cloneAll clone vs r.2).map fun rs => (r.1 :: rs.1, rs.2)

/-- `__hlt_clone`. -/
def hltClone (G : Graph) : ℕ → Value → State → Option (Value × State)
  | 0, _, _ => none
  | _ + 1, .atomic w, st => some (.atomic w, st)
  | fuel + 1, .ref p, st =>
      if p = 0 then some (.ref 0, st)
      else if hltPointerMapLookup st.map p ≠ 0 then some (.ref (hltPointerMapLookup st.map p), st)
      else
        match G.objs p with
        | none => none
        | some fs =>
            let dst := st.next
            let st := cloneAlloc st p
            let st := { st with map := hltPointerMapInsert st.map p dst }
            (cloneAll (hltClone G fuel) fs st).map fun r =>
              (.ref dst, { r.2 with heap := Function.update r.2.heap dst (some r.1) })
  | fuel + 1, .tuple vs, st =>
      -- the destination is still zeroed
      let st := { st with map := hltPointerMapInsert st.map (firstWord vs) 0 }
      (cloneAll (hltClone G fuel) vs st).map fun r => (.tuple r.1, r.2)

def stateNew (G : Graph) : State where
  map := []
  heap := fun _ => none
  next := G.bound + 1
  log := []

/-- `hlt_clone_deep`. -/
def hltCloneDeep (G : Graph) (fuel : ℕ) (v : Value) : Option (Value × State) :=
  hltClone G fuel v (stateNew G)

/-! ## What cloning should do -/

/-- A cell and its copy, with references to objects replaced by references to their clones. -/
inductive CellCopy (log : List (ℕ × ℕ)) : Cell → Cell → Prop
  | word (w : ℕ) : CellCopy log (.word w) (.word w)
  | null : CellCopy log (.ref 0) (.ref 0)
  | ref (p c : ℕ) (h : (p, c) ∈ log) : CellCopy log (.ref p) (.ref c)
  | inline (n : ℕ) : CellCopy log (.inline n) (.inline n)

/-- Values and their copies. -/
def CopyAll (log : List (ℕ × ℕ)) (vs vs' : List Value) : Prop :=
  List.Forall₂ (CellCopy log) (cellsAll vs) (cellsAll vs')

/-- The objects that a value leads to. -/
inductive Reaches (G : Graph) (vs : List Value) : ℕ → Prop
  | root (p : ℕ) (hp : p ≠ 0) (h : .ref p ∈ cellsAll vs) : Reaches G vs p
  | step (q p : ℕ) (fs : List Value) (hq : Reaches G vs q) (hfs : G.objs q = some fs) (hp : p ≠ 0)
      (h : .ref p ∈ cellsAll fs) : Reaches G vs p

/-- The clone is a graph of the same shape: every object that the value leads to has been cloned
exactly once, to a new object with a copy of its fields. -/
structure Isomorphic (G : Graph) (v v' : Value) (st : State) : Prop where
  copy : CopyAll st.log [v] [v']
  once : (st.log.map Prod.fst).Nodup
  different : (st.log.map Prod.snd).Nodup
  reached : ∀ p, p ∈ st.log.map Prod.fst ↔ Reaches G [v] p
  fields : ∀ p c, (p, c) ∈ st.log →
    ∃ fs fs', G.objs p = some fs ∧ st.heap c = some fs' ∧ CopyAll st.log fs fs'
  fresh : ∀ p c, (p, c) ∈ st.log → G.objs c = none

/-- Cloning returns, with a graph of the same shape. -/
def ClonesWell (G : Graph) (v : Value) : Prop :=
  ∃ fuel v' st, hltCloneDeep G fuel v = some (v', st) ∧ Isomorphic G v v' st

/-! ## What confuses it -/

/-- What a depth-first walk through a graph comes across. -/
inductive Event
  | ref (p : ℕ)
  | tuple (w : ℕ)
  deriving DecidableEq

def walkAll (walk : Value → List Event → Option (List Event)) :
    List Value → List Event → Option (List Event)
  | [], es => some es
  | v :: vs, es => (walk v es).bind (walkAll walk vs)

/-- The references and the first words of the tuples in a graph, depth first. -/
def walk (G : Graph) : ℕ → Value → List Event → Option (List Event)
  | 0, _, _ => none
  | _ + 1, .atomic _, es => some es
  | fuel + 1, .ref p, es =>
      if p = 0 then some es
      else if .ref p ∈ es then some (es ++ [.ref p])
      else
        match G.objs p with
        | none => none
        | some fs => walkAll (walk G fuel) fs (es ++ [.ref p])
  | fuel + 1, .tuple vs, es => walkAll (walk G fuel) vs (es ++ [.tuple (firstWord vs)])

/-- The word `w` is the first one of a tuple before any reference to an object at this address. -/
def Poisoned (es : List Event) (w : ℕ) : Prop :=
  ∃ l₁ l₂, es = l₁ ++ .tuple w :: l₂ ∧ .ref w ∉ l₁

/-- No object is referenced twice that has its address poisoned. -/
def TellsApart (es : List Event) : Prop := ∀ w, Poisoned es w → es.count (.ref w) ≤ 1

end Hilti.Clone
