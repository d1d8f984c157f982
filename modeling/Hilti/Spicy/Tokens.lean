import Mathlib.Data.List.Chain
import Hilti.Spicy.Model

/-!
# Tokens

The texts of terminals, as `spicy/passes/printer.cc` prints them, and the identifiers that
`Terminal::tokenID` gives to them.  A token is identified by the text of the terminal and that of
its type with a dash in between; names may contain dashes themselves.  Still both texts can be
recovered from it.

Left out are the types that no field can have, units without a name, and the literals that the
parser builder has no code for.
-/

namespace Hilti.Spicy

set_option autoImplicit false

/-! ## Types -/

def isIdStart (c : Char) : Bool :=
  c.isAlpha || c = '_'

def isIdChar (c : Char) : Bool :=
  c.isAlphanum || c = '_' || c = '-'

/-- The identifiers of `spicy/parser/scanner.ll`. -/
def Word (s : String) : Prop :=
  ∃ c cs, s.toList = c :: cs ∧ isIdStart c = true ∧ ∀ d ∈ cs, isIdChar d = true

structure Identifier where
  text : String
  word : Word text

/-- The ID of a type and its scope. -/
structure TypeId where
  first : Identifier
  rest : List Identifier
  scope : Option Identifier

/-- `ID::pathAsString`. -/
def TypeId.pathAsString (id : TypeId) : String :=
  id.rest.foldl (fun s c => s ++ "::" ++ c.text) id.first.text

/-- `printTypeID` for a type with an ID. -/
def printTypeID (qualify : Bool) (id : TypeId) : String :=
  match qualify, id.rest, id.scope with
  | true, [], some scope => scope.text ++ "::" ++ id.first.text
  | _, _, _ => id.pathAsString

/-- The types that are printed as one word. -/
inductive Plain where
  | address
  | any
  | bitfield
  | bool
  | bytes
  | caddr
  | double
  | file
  | interval
  | mark
  | network
  | port
  | regexp
  | sink
  | string
  | time
  | void
  /-- A type that is not given as an argument of another one. -/
  | star
  deriving DecidableEq

def Plain.render : Plain → String
  | address => "address"
  | any => "any"
  | bitfield => "<bitfield>"
  | bool => "bool"
  | bytes => "bytes"
  | caddr => "caddr"
  | double => "double"
  | file => "file"
  | interval => "interval"
  | mark => "mark"
  | network => "network"
  | port => "port"
  | regexp => "regexp"
  | sink => "sink"
  | string => "string"
  | time => "time"
  | void => "void"
  | star => "*"

/-- The types with one argument. -/
inductive Container where
  | iterator
  | list
  | object
  | optional
  | set
  | vector
  deriving DecidableEq

def Container.name : Container → String
  | iterator => "iterator"
  | list => "list"
  | object => "object"
  | optional => "optional"
  | set => "set"
  | vector => "vector"

structure Label where
  id : Identifier
  value : ℤ

/-- `spicy::Type`. -/
inductive Ty where
  | named (id : TypeId)
  | plain (p : Plain)
  | integer (signed : Bool) (width : ℕ)
  | container (c : Container) (arg : Ty)
  | map (key value : Ty)
  | tuple (types : List Ty)
  | bitset (labels : List Label)
  | enum (labels : List Label)

/-- The labels of a type, each with a comma in front. -/
def renderLabels : List Label → String
  | [] => ""
  | l :: ls =>
    ", " ++ l.id.text ++ (if 0 ≤ l.value then " = " ++ Nat.repr l.value.toNat else "") ++
      renderLabels ls

mutual

/-- `Type::render` for `qualify`, and otherwise what a printer prints that does not qualify the
IDs of types. -/
def Ty.render (qualify : Bool) : Ty → String
  | .named id => printTypeID qualify id
  | .plain p => p.render
  | .integer signed width =>
    (if signed then "int<" else "uint<") ++ (if width = 0 then "*" else Nat.repr width) ++ ">"
  | .container c arg => c.name ++ "<" ++ arg.render qualify ++ ">"
  | .map key value => "map<" ++ key.render qualify ++ "," ++ value.render qualify ++ ">"
  | .tuple types => renderTypes qualify types
  | .bitset labels => "bitset \x7b " ++ renderLabels labels
  | .enum labels => "enum \x7b " ++ renderLabels labels

def renderTypes (qualify : Bool) : List Ty → String
  | [] => ""
  | t :: ts =>
    "(" ++ t.render qualify ++ ")" ++ (if ts.isEmpty then "" else ", " ++ renderTypes qualify ts)

end

/-- The types of fields that become a variable: those with the trait `Parseable`, except
`EmbeddedObject`. -/
def Ty.isVariable : Ty → Bool
  | .named _ => true
  | .plain p => p ∈ [.address, .bitfield, .bool, .bytes, .double, .interval, .network, .port,
      .regexp, .time, .void]
  | .integer _ _ => true
  | .container c _ => c ∈ [.list, .set, .vector]
  | _ => false

/-! ## Terminals -/

/-- The terminals that the grammar builder makes.  For bytes, the text is what
`util::escapeBytes` returns. -/
inductive Terminal where
  | var (type : Ty) (h : type.isVariable = true)
  | integer (value : ℤ) (signed : Bool) (width : ℕ)
  | bytes (escaped : String)
  | regexp (patterns : List String)
  | typeLiteral (arg : Ty)

/-- `Printer::visit` for `ctor::RegExp`. -/
def renderPatterns : List String → String
  | [] => ""
  | p :: ps => "/" ++ p ++ "/" ++ (if ps.isEmpty then "" else " | " ++ renderPatterns ps)

namespace Terminal

/-- The type of the production. -/
def type : Terminal → Ty
  | .var t _ => t
  | .integer _ signed width => .integer signed width
  | .bytes _ => .plain .bytes
  | .regexp _ => .plain .regexp
  | .typeLiteral arg => .container .object arg

/-- `renderTerminal`.  The text of a type as an expression ends with a blank. -/
def renderTerminal : Terminal → String
  | .var t _ => t.render true
  | .integer value _ _ => Int.repr value
  | .bytes escaped => "b\"" ++ escaped ++ "\""
  | .regexp patterns => renderPatterns patterns
  | .typeLiteral arg => (Ty.container .object arg).render false ++ " "

end Terminal

/-! ## The identifiers of tokens -/

variable {ι : Type}

/-- The index of a terminal in `_token_ids`. -/
def tokenKey (p : Production ι) : String :=
  p.terminal ++ "-" ++ p.type

/-- `_token_ids`, and the member `_id` of the terminals. -/
structure TokenIds (ι : Type) where
  ids : List (String × ℕ)
  id : ι → ℕ

section

variable [DecidableEq ι] (g : Productions ι)

/-- `Terminal::tokenID`. -/
def tokenID (s : TokenIds ι) (p : ι) : ℕ × TokenIds ι :=
  if s.id p ≠ 0 then (s.id p, s)
  else
    match s.ids.lookup (tokenKey (g.node p)) with
    | some i => (i, { s with id := Function.update s.id p i })
    | none =>
      let i := s.ids.length + 1
      (i, ⟨(tokenKey (g.node p), i) :: s.ids, Function.update s.id p i⟩)

/-- The state after `tokenID` has been called for some terminals, of this and other grammars. -/
def tokenIDs (calls : List ι) : TokenIds ι :=
  calls.foldl (fun s p => (tokenID g s p).2) ⟨[], fun _ => 0⟩

end

end Hilti.Spicy
