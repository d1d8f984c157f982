import Mathlib

/-!
# AST nodes and their links (`ast/node.cc`)

The model of `NodeBase` and of `node_ptr`.  A `node_ptr` is a cell that holds a pointer to a node;
copies share the cell, and assigning a pointer to one of them changes all.  A node has a list of
cells for its children and a list of its parents.  A function without a result is one that fails an
assertion, dereferences a null pointer, or runs out of fuel; a loop gets a fuel for which the
theorems show that it ends before.

A node that is destroyed is left without links.  Reference counts are left out, and so are types,
locations and names of nodes.
-/

namespace Hilti.Ast

set_option autoImplicit false

variable {ν : Type} [DecidableEq ν]

/-- The cells from `fresh` on have not been made yet. -/
structure Heap (ν : Type) where
  cell : ℕ → Option ν
  fresh : ℕ
  childs : ν → List ℕ
  parents : ν → List ν

namespace Heap

/-- The cell holds the node. -/
def holds (h : Heap ν) (c : ν) (k : ℕ) : Bool :=
  h.cell k = some c

/-- The constructor of `node_ptr` from a shared pointer: a cell of its own. -/
def newPtr (h : Heap ν) (c : ν) : Heap ν :=
  { h with cell := Function.update h.cell h.fresh (some c), fresh := h.fresh + 1 }

/-- The assignment of a shared pointer to a `node_ptr`. -/
def assign (h : Heap ν) (k : ℕ) (c : ν) : Heap ν :=
  { h with cell := Function.update h.cell k (some c) }

def setChilds (h : Heap ν) (p : ν) (ks : List ℕ) : Heap ν :=
  { h with childs := Function.update h.childs p ks }

def setParents (h : Heap ν) (c : ν) (ps : List ν) : Heap ν :=
  { h with parents := Function.update h.parents c ps }

/-! ## Adding and removing -/

/-- `addChild`.  The comparison of the addresses of a list's element and of the parameter, a copy,
never succeeds. -/
def addChild (h : Heap ν) (p : ν) (k : ℕ) : Heap ν :=
  match h.cell k with
  | none => h
  | some c => (h.setChilds p (h.childs p ++ [k])).setParents c (h.parents c ++ [p])

/-- `removeChild` for an iterator, which stands for the `i`-th child. -/
def removeAt (h : Heap ν) (p : ν) (i : ℕ) : Option (Heap ν) := do
  let k ← (h.childs p)[i]?
  let c ← h.cell k
  if p ∈ h.parents c then
    some ((h.setChilds p ((h.childs p).eraseIdx i)).setParents c ((h.parents c).erase p))
  else none

/-- The loop of `removeChild` for a node. -/
def removeChildLoop (p c : ν) : ℕ → Heap ν → Option (Heap ν)
  | 0, _ => none
  | fuel + 1, h =>
    match (h.childs p).findIdx? (h.holds c) with
    | none => some h
    | some i => (h.removeAt p i).bind (removeChildLoop p c fuel)

/-- `removeChild` for a node. -/
def removeChild (h : Heap ν) (p c : ν) : Option (Heap ν) :=
  removeChildLoop p c ((h.childs p).length + 1) h

/-- The first of the parents of `x`, among those in the scope, that has it as a child, with the
position of the first such child. -/
def findLink (h : Heap ν) (x : ν) (scope : ν → Bool) : Option (ν × ℕ) :=
  (h.parents x).findSome? fun p =>
    if scope p then ((h.childs p).findIdx? (h.holds x)).map fun i => (p, i) else none

/-- The loop of `removeFromParents`. -/
def removeFromParentsLoop (x : ν) : ℕ → Heap ν → Option (Heap ν)
  | 0, _ => none
  | fuel + 1, h =>
    match h.findLink x (fun _ => true) with
    | none => some h
    | some (p, i) => (h.removeAt p i).bind (removeFromParentsLoop x fuel)

/-- `removeFromParents`, with its last assertion. -/
def removeFromParents (h : Heap ν) (x : ν) : Option (Heap ν) := do
  let h ← removeFromParentsLoop x ((h.parents x).length + 1) h
  if h.parents x = [] then some h else none

/-! ## Replacing and destroying -/

/-- `c->_parents.remove(this)` for all childs `c`. -/
def unlinkChilds (x : ν) : List ℕ → Heap ν → Option (Heap ν)
  | [], h => some h
  | k :: ks, h => do
    let c ← h.cell k
    unlinkChilds x ks (h.setParents c ((h.parents c).filter fun p => p ≠ x))

/-- One round of `replace`, for the `i`-th child of `p`: the new node is added, the child removed,
and the new node assigned to the removed cell. -/
def replaceAt (h : Heap ν) (n p : ν) (i : ℕ) : Option (Heap ν) := do
  let old ← (h.childs p)[i]?
  let h' ← ((h.newPtr n).addChild p h.fresh).removeAt p i
  some (h'.assign old n)

/-- The loop of `replace`. -/
def replaceLoop (x n : ν) (scope : ν → Bool) : ℕ → Heap ν → Option (Heap ν)
  | 0, _ => none
  | fuel + 1, h =>
    match h.findLink x scope with
    | none => some h
    | some (p, i) => (h.replaceAt n p i).bind (replaceLoop x n scope fuel)

/-- The parents that `replace` looks at. -/
def inScope (parent : Option ν) (p : ν) : Bool :=
  parent = none ∨ parent = some p

/-- `replace` of `x` by `n`. -/
def replace (h : Heap ν) (x n : ν) (parent : Option ν) : Option (Heap ν) :=
  if n = x then some h
  else
    (replaceLoop x n (inScope parent) ((h.parents x).length + 1) h).bind fun h =>
      if parent = none then (unlinkChilds x (h.childs x) h).map fun h => h.setChilds x []
      else some h

/-- The loop of the destructor, which leaves the parents as they are. -/
def destroyLoop (x : ν) : ℕ → Heap ν → Option (Heap ν)
  | 0, _ => none
  | fuel + 1, h =>
    match h.findLink x (fun _ => true) with
    | none => some h
    | some (p, i) => destroyLoop x fuel (h.setChilds p ((h.childs p).eraseIdx i))

/-- `~NodeBase`. -/
def destroy (h : Heap ν) (x : ν) : Option (Heap ν) := do
  let h ← unlinkChilds x (h.childs x) h
  let h ← destroyLoop x (((h.parents x).map fun p => (h.childs p).length).sum + 1) h
  some ((h.setParents x []).setChilds x [])

end Heap

end Hilti.Ast
