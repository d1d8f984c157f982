import Hilti.Lib.DepthFirst
import Mathlib.Data.Finset.SDiff
import Mathlib.Data.List.Sort

/-!
# Liveness of variables

The control flow graph of a module, the depth-first order of its statements, and the
pass that goes over the statements until a hash of the variables recorded for them
does not change any more.
-/

namespace Hilti.Liveness

open Hilti.Lib

set_option autoImplicit false

variable {ι ν : Type}

/-! ## The control flow graph -/

/-- `CFG`: the two maps hold the same edges. -/
structure Cfg (ι : Type) where
  successors : ι → List ι
  predecessors : ι → List ι
  mem_predecessors : ∀ p s, p ∈ predecessors s ↔ s ∈ successors p

/-- A graph without edges. -/
def Cfg.empty : Cfg ι where
  successors _ := []
  predecessors _ := []
  mem_predecessors := by simp

/-- Inserting into a `std::set` of statements, which are ordered as their addresses are. -/
def insertStatement [LinearOrder ι] (s : ι) (l : List ι) : List ι :=
  if s ∈ l then l else l.orderedInsert (· ≤ ·) s

theorem mem_insertStatement [LinearOrder ι] {s t : ι} {l : List ι} :
    t ∈ insertStatement s l ↔ t = s ∨ t ∈ l := by
  unfold insertStatement
  split
  · rename_i hs
    exact ⟨.inr, fun h => h.elim (fun ht => ht ▸ hs) id⟩
  · exact List.mem_orderedInsert _

/-- `CFG::addSuccessor`. -/
def Cfg.addSuccessor [LinearOrder ι] (g : Cfg ι) (stmt succ : ι) : Cfg ι where
  successors := Function.update g.successors stmt (insertStatement succ (g.successors stmt))
  predecessors := Function.update g.predecessors succ (insertStatement stmt (g.predecessors succ))
  mem_predecessors p s := by
    have h := g.mem_predecessors p s
    by_cases hs : s = succ
    · subst hs
      rw [Function.update_self, mem_insertStatement]
      by_cases hp : p = stmt
      · subst hp
        rw [Function.update_self, mem_insertStatement]
        exact ⟨fun _ => .inl rfl, fun _ => .inl rfl⟩
      · rw [Function.update_of_ne hp]
        exact ⟨fun h' => h.mp (h'.resolve_left hp), fun h' => .inr (h.mpr h')⟩
    · rw [Function.update_of_ne hs]
      by_cases hp : p = stmt
      · subst hp
        rw [Function.update_self, mem_insertStatement]
        exact ⟨fun h' => .inr (h.mp h'), fun h' => h.mpr (h'.resolve_left hs)⟩
      · rw [Function.update_of_ne hp]
        exact h

/-- The statements already seen by `DepthOrderTraversal`, and those recorded. -/
structure Recorded (ι : Type) where
  done : Finset ι
  statements : List ι

/-- `DepthOrderTraversal::visit`. -/
def Cfg.visit [DecidableEq ι] (g : Cfg ι) (fuel : ℕ) (stmt : ι) (r : Recorded ι) :
    Option (Recorded ι) :=
  depthFirst (fun r s => decide (s ∈ r.done)) (fun s r => some { r with done := insert s r.done })
    g.successors (fun s r => { r with statements := r.statements ++ [s] }) fuel stmt r

/-- `DepthOrderTraversal::run`, over the first statements of the bodies of a module. -/
def Cfg.depthFirstOrder [DecidableEq ι] (g : Cfg ι) (fuel : ℕ) (bodies : List ι) :
    Option (List ι) :=
  (bodies.foldlM (fun r s => g.visit fuel s r) ⟨∅, []⟩).map Recorded.statements

/-- An order in which statements are processed: each once, and their successors too. -/
structure Schedule (g : Cfg ι) where
  statements : List ι
  nodup : statements.Nodup
  closed : ∀ s ∈ statements, ∀ t ∈ g.successors s, t ∈ statements

/-! ## The pass -/

/-- `FlowInfo`; variables are compared by name. -/
structure FlowInfo (ν : Type) where
  defined : Finset ν
  cleared : Finset ν
  modified : Finset ν
  read : Finset ν

/-- A control flow graph, with the flow information of its statements. -/
structure Program (ι ν : Type) where
  cfg : Cfg ι
  flowInfo : ι → FlowInfo ν

/-- `Liveness::LivenessSets`. -/
structure LivenessSets (ν : Type) where
  liveIn : Finset ν
  liveOut : Finset ν
  dead : Finset ν

/-- `Liveness::liveness_map`. -/
abbrev Livenesses (ι ν : Type) := ι → Option (LivenessSets ν)

/-- `Liveness::liveness`. -/
def liveness (l : Livenesses ι ν) (s : ι) : LivenessSets ν := (l s).getD ⟨∅, ∅, ∅⟩

variable [DecidableEq ι] [DecidableEq ν]

/-- The variables live before some successor, as far as they are recorded. -/
def liveBefore (g : Cfg ι) (l : Livenesses ι ν) (s : ι) : Finset ν :=
  (g.successors s).foldl (fun out succ => out ∪ (liveness l succ).liveIn) ∅

/-- The variables live after some predecessor, as far as they are recorded. -/
def predLive (g : Cfg ι) (l : Livenesses ι ν) (s : ι) : Finset ν :=
  (g.predecessors s).foldl (fun live p => live ∪ (liveness l p).liveOut) ∅

/-- `Liveness::setLiveness`: the new sets of the statement are in place when those of its
predecessors are read. -/
def setLiveness (p : Program ι ν) (l : Livenesses ι ν) (s : ι) (liveIn liveOut : Finset ν) :
    Livenesses ι ν :=
  let l := Function.update l s (some ⟨liveIn, liveOut, ∅⟩)
  let dead := liveIn \ liveOut
  let dead := dead ∪ ((p.flowInfo s).defined \ liveOut)
  let pred := predLive p.cfg l s
  let pred := pred \ liveIn
  let pred := pred \ liveOut
  Function.update l s (some ⟨liveIn, liveOut, dead ∪ pred⟩)

/-- `Liveness::processStatement`. -/
def processStatement (p : Program ι ν) (l : Livenesses ι ν) (s : ι) : Livenesses ι ν :=
  let out := liveBefore p.cfg l s
  let fi := p.flowInfo s
  let remove := fi.defined ∪ fi.cleared
  let add := fi.modified ∪ fi.read
  let liveIn := if remove.card ≠ 0 then out \ remove else out
  let liveIn := if add.card ≠ 0 then liveIn ∪ add else liveIn
  let liveOut := if fi.cleared.card ≠ 0 then out \ fi.cleared else out
  setLiveness p l s liveIn liveOut

/-- The variables recorded for a statement in one of the sets. -/
def LivenessSets.union (sets : LivenessSets ν) : Finset ν :=
  (sets.liveIn ∪ sets.liveOut) ∪ sets.dead

/-- How the standard library hashes statements and names, and the orders in which it lists the
entries of an `unordered_map` and the names of a set. -/
structure Hasher {g : Cfg ι} (S : Schedule g) (ν : Type) where
  hashPtr : ι → UInt64
  hashStr : ν → UInt64
  statements : List ι
  names : List ν
  perm : statements.Perm S.statements

variable {p : Program ι ν} {S : Schedule p.cfg}

/-- The entries of the map. -/
def Hasher.entries (h : Hasher S ν) (l : Livenesses ι ν) : List (ι × LivenessSets ν) :=
  h.statements.filterMap fun s => (l s).map (s, ·)

/-- `Liveness::hashLiveness`. -/
def Hasher.hashLiveness (h : Hasher S ν) (l : Livenesses ι ν) : UInt64 :=
  (h.entries l).foldl (fun hash (stmt, sets) =>
    (h.names.filter (· ∈ sets.union)).foldl (fun hash v => (hash + h.hashStr v) * 17)
      ((hash + h.hashPtr stmt) * 17)) 0

/-- One round of the loop of `Liveness::run`. -/
def round (p : Program ι ν) (S : Schedule p.cfg) (l : Livenesses ι ν) : Livenesses ι ν :=
  S.statements.foldl (processStatement p) l

/-- The loop of `Liveness::run`; the first argument bounds the rounds. -/
def runLoop (h : Hasher S ν) : ℕ → Livenesses ι ν → Option (Livenesses ι ν)
  | 0, _ => none
  | fuel + 1, l =>
    let new := round p S l
    if (h.entries l).length ≠ (h.entries new).length ∨ h.hashLiveness l ≠ h.hashLiveness new then
      runLoop h fuel new
    else some new

/-- `Liveness::run`. -/
def run (h : Hasher S ν) (fuel : ℕ) : Option (Livenesses ι ν) :=
  runLoop h fuel fun _ => none

end Hilti.Liveness
