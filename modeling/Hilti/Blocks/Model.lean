import Hilti.Lib.Listing

/-!
# Blocks of instructions

The bodies of functions with their nested blocks, what executing them means, and the two
passes that turn them into a flat list of blocks in which every block ends with a
terminator.
-/

namespace Hilti.Blocks

open Hilti.Lib

set_option autoImplicit false

variable {α : Type}

/-! ## Nested bodies -/

/-- `statement::Instruction`: an instruction that does something, with the labels among its
operands, a `nop`, and the instructions that the passes insert.  The last argument says
whether the instruction has been resolved. -/
inductive Instruction (α : Type) where
  | own (a : α) (successors : List String) (terminator resolved : Bool)
  | nop (resolved : Bool)
  | jump (label : String) (resolved : Bool)
  | blockEnd (resolved : Bool)
  deriving DecidableEq

/-- `statement::Block::statements`: instructions and nested blocks, which may have a label. -/
inductive Statements (I : Type) where
  | nil
  | instr (i : I) (rest : Statements I)
  | block (id : Option String) (stmts : Statements I) (rest : Statements I)

namespace Instruction

/-- `Instruction::terminator`. -/
def terminator : Instruction α → Bool
  | own _ _ terminator _ => terminator
  | nop _ => false
  | jump _ _ => true
  | blockEnd _ => true

/-- `FlowInfo::successors`. -/
def successors : Instruction α → List String
  | own _ successors _ _ => successors
  | nop _ => []
  | jump label _ => [label]
  | blockEnd _ => []

/-- Whether the instruction is a `statement::instruction::Resolved`. -/
def resolved : Instruction α → Bool
  | own _ _ _ resolved => resolved
  | nop resolved => resolved
  | jump _ resolved => resolved
  | blockEnd resolved => resolved

/-- `instruction::Misc::Nop`. -/
def isNop : Instruction α → Bool
  | nop _ => true
  | _ => false

/-- `InstructionResolver`, as far as it matters here. -/
def resolve : Instruction α → Instruction α
  | own a successors terminator _ => own a successors terminator true
  | nop _ => nop true
  | jump label _ => jump label true
  | blockEnd _ => blockEnd true

/-- The instructions that do something are observed. -/
def observe : Instruction α → Option α
  | own a _ _ _ => some a
  | _ => none

end Instruction

/-- How instructions are read in an execution. -/
def reading (α : Type) : Reading (Instruction α) String α where
  targets := Instruction.successors
  terminator := Instruction.terminator
  observe := Instruction.observe

namespace Statements

variable {I : Type}

/-- The labels of the blocks, from front to back. -/
def labels : Statements I → List String
  | nil => []
  | instr _ rest => rest.labels
  | block id stmts rest => id.toList ++ (stmts.labels ++ rest.labels)

/-- What is left to execute after a jump to a label: the statements of its block, then what
follows the blocks around it. -/
def find (l : String) : Statements I → List (Statements I) → Option (List (Statements I))
  | nil, _ => none
  | instr _ rest, k => rest.find l k
  | block id stmts rest, k =>
    if id = some l then some (stmts :: rest :: k)
    else
      match stmts.find l (rest :: k) with
      | some k' => some k'
      | none => rest.find l k

end Statements

open Statements

/-- Where the execution of `body` goes from the instruction `i`. -/
def follow (body : Statements (Instruction α)) (i : Instruction α)
    (k : List (Statements (Instruction α))) :
    Option ℕ → Option (List (Statements (Instruction α)))
  | none => if i.terminator then none else some k
  | some j => i.successors[j]?.bind fun l => body.find l []

/-- Executing `body`: at the end of a nested block the execution goes on after it, and the
branch decisions `ds` lead through instructions of which `tr` is observed. -/
inductive Runs (body : Statements (Instruction α)) :
    List (Statements (Instruction α)) → List (Option ℕ) → List α → Prop
  | done (k : List (Statements (Instruction α))) : Runs body k [] []
  | leave {k : List (Statements (Instruction α))} {ds : List (Option ℕ)} {tr : List α} :
      Runs body k ds tr → Runs body (nil :: k) ds tr
  | enter {id : Option String} {stmts rest : Statements (Instruction α)}
      {k : List (Statements (Instruction α))} {ds : List (Option ℕ)} {tr : List α} :
      Runs body (stmts :: rest :: k) ds tr → Runs body (block id stmts rest :: k) ds tr
  | silent {i : Instruction α} {rest : Statements (Instruction α)}
      {k k' : List (Statements (Instruction α))} {ds : List (Option ℕ)} {tr : List α} :
      i.observe = none → follow body i (rest :: k) ((reading α).only i) = some k' →
        Runs body k' ds tr → Runs body (instr i rest :: k) ds tr
  | last {i : Instruction α} {a : α} {rest : Statements (Instruction α)}
      {k : List (Statements (Instruction α))} :
      i.observe = some a → Runs body (instr i rest :: k) [] [a]
  | step {i : Instruction α} {a : α} {rest : Statements (Instruction α)}
      {k k' : List (Statements (Instruction α))} {d : Option ℕ} {ds : List (Option ℕ)}
      {tr : List α} :
      i.observe = some a → follow body i (rest :: k) d = some k' → Runs body k' ds tr →
        Runs body (instr i rest :: k) (d :: ds) (a :: tr)

/-- The body of a function: a block with unique labels. -/
structure Body (α : Type) where
  id : Option String
  stmts : Statements (Instruction α)
  nodup : (block id stmts nil).labels.Nodup

/-- The body as a statement. -/
def Body.code (b : Body α) : Statements (Instruction α) := block b.id b.stmts nil

/-! ## The passes -/

/-- A `statement::Block` that holds instructions only. -/
structure Block (α : Type) where
  id : Option String
  stmts : List (Instruction α)
  deriving DecidableEq

/-- The state of the loop in `BlockFlattener::flatten`: the blocks of `toplevel`, the position of
`first_new_block` among them, and whether `cur` is set, which is then the last of them. -/
structure Flattening (α : Type) where
  toplevel : List (Block α)
  first : Option ℕ
  cur : Bool

/-- `setID`, unless the label is missing. -/
def setID (src : Option String) (b : Block α) : Block α :=
  if src.isSome then { b with id := src } else b

/-- The loop body for an instruction: it goes to `cur`, which is created if necessary. -/
def Flattening.addInstruction (src : Option String) (i : Instruction α) (f : Flattening α) :
    Flattening α :=
  let f :=
    if f.cur then f
    else
      { toplevel := f.toplevel ++ [if f.first.isNone then setID src ⟨none, []⟩ else ⟨none, []⟩]
        first := f.first.or (some f.toplevel.length)
        cur := true }
  { f with
    toplevel := f.toplevel.modify (f.toplevel.length - 1) fun b =>
      { b with stmts := b.stmts ++ [i] } }

/-- The loop body for a nested block, after it has been flattened to `inner`. -/
def Flattening.addBlock (src : Option String) (f inner : Flattening α) : Flattening α :=
  { toplevel :=
      if f.first.isNone then
        inner.toplevel.modify (inner.first.getD 0) (setID src)
      else inner.toplevel
    first := f.first.or inner.first
    cur := false }

/-- The loop of `BlockFlattener::flatten` over the statements of a block with the label
`src`.  A block without statements is taken to hold a `nop`. -/
def flattenLoop (src : Option String) :
    Statements (Instruction α) → Flattening α → Flattening α
  | nil, f => f
  | instr i rest, f => flattenLoop src rest (f.addInstruction src i)
  | block id stmts rest, f =>
    let inner :=
      match stmts with
      | nil => Flattening.addInstruction id (.nop false) ⟨f.toplevel, none, false⟩
      | stmts => flattenLoop id stmts ⟨f.toplevel, none, false⟩
    flattenLoop src rest (f.addBlock src inner)

/-- `BlockFlattener::flatten`. -/
def flatten (src : Option String) (stmts : Statements (Instruction α))
    (toplevel : List (Block α)) : Flattening α :=
  match stmts with
  | nil => Flattening.addInstruction src (.nop false) ⟨toplevel, none, false⟩
  | stmts => flattenLoop src stmts ⟨toplevel, none, false⟩

/-- `BlockFlattener::visit(declaration::Function*)`. -/
def blockFlattener (b : Body α) : List (Block α) := (flatten b.id b.stmts []).toplevel

/-- `statement::Block::terminated`. -/
def Block.terminated (b : Block α) : Bool :=
  match b.stmts.getLast? with
  | none => false
  | some i => i.resolved && i.terminator

/-- `statement::Block::removeUseless`. -/
def removeUselessFrom : List (Instruction α) → List (Instruction α)
  | [] => []
  | i :: stmts =>
    if i.resolved && i.isNop then removeUselessFrom stmts
    else if i.resolved && i.terminator then [i]
    else i :: removeUselessFrom stmts

def Block.removeUseless (b : Block α) : Block α := { b with stmts := removeUselessFrom b.stmts }

/-- The first loop of `BlockNormalizer::visit(statement::Block*)`, which merges anonymous blocks
with unterminated predecessors and links others; the flag records membership in
`now_terminated`. -/
def linkFrom (pred : Block α) : List (Block α) → List (Block α × Bool)
  | [] => [(pred, false)]
  | cur :: rest =>
    match cur.id with
    | some l =>
      if pred.terminated then (pred, false) :: linkFrom cur rest
      else ({ pred with stmts := pred.stmts ++ [.jump l false] }, true) :: linkFrom cur rest
    | none =>
      if pred.terminated then (pred, false) :: linkFrom cur rest
      else linkFrom { pred with stmts := pred.stmts ++ cur.stmts } rest

/-- The second loop, for one block. -/
def addEnd (b : Block α) (nowTerminated : Bool) : Block α :=
  if b.terminated || nowTerminated then b else { b with stmts := b.stmts ++ [.blockEnd false] }

/-- `BlockNormalizer`, over a flat list of blocks and then each of them; the flag is
`_instructions_normalized`. -/
def blockNormalizer (instructionsNormalized : Bool) : List (Block α) → List (Block α)
  | [] => []
  | b :: bs =>
    (linkFrom b bs).map fun (b, nowTerminated) =>
      if instructionsNormalized then (addEnd b nowTerminated).removeUseless else b

/-- `InstructionResolver`, over a flat list of blocks. -/
def instructionResolver (bs : List (Block α)) : List (Block α) :=
  bs.map fun b => { b with stmts := b.stmts.map Instruction.resolve }

/-- A flat list of instructions as statements. -/
def ofInstructions : List (Instruction α) → Statements (Instruction α)
  | [] => nil
  | i :: stmts => instr i (ofInstructions stmts)

/-- A flat list of blocks as statements. -/
def ofBlocks : List (Block α) → Statements (Instruction α)
  | [] => nil
  | b :: bs => block b.id (ofInstructions b.stmts) (ofBlocks bs)

end Hilti.Blocks
