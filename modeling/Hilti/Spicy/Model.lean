import Mathlib.Data.Finset.Sort
import Mathlib.Data.String.Basic
import Hilti.Lib.DepthFirst
import Hilti.Lib.Fixpoint

/-!
# Grammars of the Spicy parser generator

The model of `spicy/grammar.cc` and of the parts of `spicy/production.cc` that it
uses.  Production objects are the elements of a type `ι`; an object refers to
others by their identity, so that a grammar may be recursive.  `std::set<string>`
is a `Finset String`, iterated in the order of its elements, and `std::map` keyed by
symbols is a partial function or, where it is iterated, an association list.
-/

namespace Hilti.Spicy

open Hilti.Lib

set_option autoImplicit false

variable {ι : Type}

/-! ## Productions -/

/-- The subclasses of `Production`, with the fields that the grammar reads.
`Constant`, `Ctor` and `TypeLiteral` are `literal`. -/
inductive Kind (ι : Type) where
  | epsilon
  | literal
  | var
  | childGrammar (child : ι)
  | enclosure (child : ι)
  | sequence (seq : List ι)
  | lookAhead (alt1 alt2 : ι) (default : ℕ)
  | boolean (alt1 alt2 : ι)
  | counter (body : ι)
  | byteBlock (body : ι)
  | whileLoop (body : ι)
  | loop (body : ι) (eodOk : Bool)
  | switch (cases : List ι) (default : Option ι)
  deriving DecidableEq, Repr

namespace Kind

def isEpsilon : Kind ι → Bool
  | epsilon => true
  | _ => false

def isTerminal : Kind ι → Bool
  | literal => true
  | var => true
  | _ => false

def isNonTerminal : Kind ι → Bool
  | epsilon => false
  | literal => false
  | var => false
  | _ => true

def isLookAhead : Kind ι → Bool
  | lookAhead _ _ _ => true
  | _ => false

/-- The right-hand sides that a nonterminal announces to the grammar. -/
def rhss : Kind ι → List (List ι)
  | epsilon => []
  | literal => []
  | var => []
  | childGrammar child => [[child]]
  | enclosure child => [[child]]
  | sequence seq => [seq]
  | lookAhead alt1 alt2 _ => [[alt1], [alt2]]
  | boolean alt1 alt2 => [[alt1], [alt2]]
  | counter body => [[body]]
  | byteBlock body => [[body]]
  | whileLoop body => [[body]]
  | loop body _ => [[body]]
  | switch cases _ => cases.map fun c => [c]

/-- The objects that occur in the right-hand sides, in their order. -/
def children (k : Kind ι) : List ι :=
  k.rhss.flatten

end Kind

/-- A production object.  `location` is the rendered location, empty for
`Location::None`; `terminal` and `type` are what `renderTerminal()` and
`type()->render()` return. -/
structure Production (ι : Type) where
  kind : Kind ι
  symbol : String
  location : String
  terminal : String
  type : String

/-- The symbol that the constructor of `Epsilon` sets. -/
def epsSymbol : String := "<eps>"

/-- The production objects of a grammar.  The grammar builder makes the symbols
of all other productions from identifiers, and none of them is that of `Epsilon`. -/
structure Productions (ι : Type) where
  node : ι → Production ι
  epsilon_iff : ∀ p, (node p).symbol = epsSymbol ↔ (node p).kind = .epsilon

namespace Productions

variable (g : Productions ι)

def kind (p : ι) : Kind ι :=
  (g.node p).kind

end Productions

/-! ## Collecting the productions -/

/-- The members of `Grammar` that `_addProduction` and `_simplify` change, and
the symbols that the production objects have at that moment.  The entry `none`
stands for the grammar's own instance `_epsilon`. -/
structure Grammar (ι : Type) where
  symbol : ι → String
  prods : List (String × Option ι)
  prodsSet : List (Option ι)
  nterms : List ι
  needsLookAhead : Bool

/-- `util::fmt("%s.%d", sym, cnt)`. -/
def fmtSymbol (sym : String) (cnt : ℕ) : String :=
  sym ++ "." ++ toString cnt

/-- The loop that makes a symbol unique, from the candidate `sym` on. -/
def uniqueSymbol (taken : List String) (base : String) : ℕ → ℕ → String → Option String
  | 0, _, _ => none
  | fuel + 1, cnt, sym =>
    if sym ∈ taken then uniqueSymbol taken base fuel (cnt + 1) (fmtSymbol base (cnt + 1))
    else some sym

section

variable [DecidableEq ι] (g : Productions ι)

/-- All epsilon productions are represented by the grammar's own instance. -/
def ownInstance (p : ι) : Option ι :=
  if (g.kind p).isEpsilon then none else some p

/-- `_addProduction` up to the loop over the right-hand sides, for an object
that has not been added. -/
def enterProduction (fuel : ℕ) (p : ι) (s : Grammar ι) : Option (Grammar ι) := do
  let sym ← uniqueSymbol (s.prods.map Prod.fst) (s.symbol p) fuel 1 (s.symbol p)
  some
    { s with
      symbol := if (g.kind p).isEpsilon then s.symbol else Function.update s.symbol p sym
      prods := s.prods ++ [(sym, ownInstance g p)]
      prodsSet := s.prodsSet ++ [ownInstance g p]
      nterms := if (g.kind p).isNonTerminal then s.nterms ++ [p] else s.nterms }

/-- The end of `_addProduction`. -/
def leaveProduction (p : ι) (s : Grammar ι) : Grammar ι :=
  if (g.kind p).isLookAhead || g.kind p = .literal then { s with needsLookAhead := true } else s

/-- `Grammar::_addProduction`. -/
def addProduction (fuel : ℕ) : ι → Grammar ι → Option (Grammar ι) :=
  depthFirst (fun s p => ownInstance g p ∈ s.prodsSet) (enterProduction g fuel)
    (fun p => (g.kind p).children) (leaveProduction g) fuel

/-- `Grammar::_computeClosure`. -/
def computeClosure (symbol : ι → String) (fuel : ℕ) : ι → Finset String → Option (Finset String) :=
  depthFirst (fun used p => symbol p ∈ used) (fun p used => some (insert (symbol p) used))
    (fun p => (g.kind p).children) (fun _ used => used) fuel

/-- `Grammar::_simplify`; the hook `Production::simplify` does nothing in any
subclass. -/
def simplify (fuel : ℕ) (root : ι) (s : Grammar ι) : Option (Grammar ι) := do
  let used ← computeClosure g s.symbol fuel root ∅
  let unused := (s.prods.map Prod.fst).filter fun sym => sym ∉ used
  some
    { s with
      prods := s.prods.filter fun e => e.1 ∈ used
      nterms := unused.foldl (fun l sym => l.eraseP fun p => s.symbol p = sym) s.nterms }

end

/-! ## The tables -/

/-- `_nullable`, `_first` and `_follow`. -/
structure Tables where
  nullable : String → Option Bool
  first : String → Option (Finset String)
  follow : String → Option (Finset String)

namespace Tables

/-- `_nullable[sym]`; the subscript makes an entry for a new key, but all keys
are there once the tables are initialised. -/
def nullableAt (t : Tables) (sym : String) : Bool :=
  (t.nullable sym).getD false

def firstAt (t : Tables) (sym : String) : Finset String :=
  (t.first sym).getD ∅

def followAt (t : Tables) (sym : String) : Finset String :=
  (t.follow sym).getD ∅

end Tables

/-- `Grammar::_add`: `none` is the failing assertion that the entry exists. -/
def add (tbl : String → Option (Finset String)) (idx : String) (src : Finset String)
    (changed : Bool) : Option ((String → Option (Finset String)) × Bool) :=
  match tbl idx with
  | none => none
  | some set =>
    let union := set ∪ src
    if union.card = set.card then some (tbl, changed)
    else some (Function.update tbl idx (some union), true)

section

variable (g : Productions ι) (symbol : ι → String)

/-- `Grammar::_isNullable` for the productions between the two iterators. -/
def isNullable (t : Tables) : List ι → Bool
  | [] => true
  | rhs :: rest =>
    if (g.kind rhs).isEpsilon then isNullable t rest
    else if (g.kind rhs).isTerminal then false
    else if ! t.nullableAt (symbol rhs) then false
    else isNullable t rest

/-- `Grammar::_getFirst`. -/
def getFirst (t : Tables) (p : ι) : Finset String :=
  if (g.kind p).isEpsilon then ∅
  else if (g.kind p).isTerminal then {symbol p}
  else t.firstAt (symbol p)

/-- `Grammar::_getFirstOfRhs`, with the set collected so far. -/
def getFirstOfRhs (t : Tables) (first : Finset String) : List ι → Finset String
  | [] => first
  | p :: rest =>
    if (g.kind p).isEpsilon then getFirstOfRhs t first rest
    else if (g.kind p).isTerminal then {symbol p}
    else
      let first := first ∪ t.firstAt (symbol p)
      if ! t.nullableAt (symbol p) then first else getFirstOfRhs t first rest

/-- `_add(&_first, dst, src, changed)`. -/
def addFirst (dst : ι) (src : Finset String) (s : Tables × Bool) : Option (Tables × Bool) := do
  let (first, changed) ← add s.1.first (symbol dst) src s.2
  some ({ s.1 with first := first }, changed)

/-- `_add(&_follow, dst, src, changed)`. -/
def addFollow (dst : ι) (src : Finset String) (s : Tables × Bool) : Option (Tables × Bool) := do
  let (follow, changed) ← add s.1.follow (symbol dst) src s.2
  some ({ s.1 with follow := follow }, changed)

/-- The loop over the productions that come after `rhs`: `mid` are those between
`rhs` and the current one. -/
def followLoop (rhs : ι) : List ι → List ι → Tables × Bool → Option (Tables × Bool)
  | _, [], s => some s
  | mid, j :: rest, s => do
    let s ← if isNullable g symbol s.1 mid then addFollow symbol rhs (getFirst g symbol s.1 j) s
      else some s
    followLoop rhs (mid ++ [j]) rest s

/-- The loop over one right-hand side of `p`: `pre` are the productions before
the current one. -/
def rhsLoop (p : ι) : List ι → List ι → Tables × Bool → Option (Tables × Bool)
  | _, [], s => some s
  | pre, rhs :: next, s => do
    let s ← if isNullable g symbol s.1 pre then addFirst symbol p (getFirst g symbol s.1 rhs) s
      else some s
    let s ←
      if (g.kind rhs).isNonTerminal then do
        let s ← if isNullable g symbol s.1 next then
            addFollow symbol rhs (s.1.followAt (symbol p)) s
          else some s
        followLoop g symbol rhs [] next s
      else some s
    rhsLoop p (pre ++ [rhs]) next s

/-- What the fixpoint loop does for one right-hand side of `p`. -/
def rhsStep (p : ι) (rhs : List ι) (s : Tables × Bool) : Option (Tables × Bool) :=
  let s :=
    if isNullable g symbol s.1 rhs && ! s.1.nullableAt (symbol p) then
      ({ s.1 with nullable := Function.update s.1.nullable (symbol p) (some true) }, true)
    else s
  rhsLoop g symbol p [] rhs s

/-- One round of the fixpoint loop, with the change flag of its end. -/
def tablesRound (nterms : List ι) (t : Tables) : Option (Tables × Bool) :=
  nterms.foldlM (fun s p => (g.kind p).rhss.foldlM (fun s rhs => rhsStep g symbol p rhs s) s)
    (t, false)

/-- The fixpoint loop. -/
def tablesLoop (nterms : List ι) : ℕ → Tables → Option Tables :=
  untilUnchanged (tablesRound g symbol nterms)

/-- The tables before the loop. -/
def initTables (nterms : List ι) : Tables where
  nullable sym := if sym ∈ nterms.map symbol then some false else none
  first sym := if sym ∈ nterms.map symbol then some ∅ else none
  follow sym := if sym ∈ nterms.map symbol then some ∅ else none

end

/-! ## The look-ahead sets -/

section

variable [DecidableEq ι] (g : Productions ι) (s : Grammar ι)

/-- The symbols that select an alternative of the look-ahead production `p`. -/
def laheads (t : Tables) (p : ι) (rhs : List ι) : Finset String :=
  getFirstOfRhs g s.symbol t ∅ rhs ∪
    if isNullable g s.symbol t rhs then t.followAt (s.symbol p) else ∅

/-- The terminals of a list of symbols.  A symbol of another production is
recorded as an error and ends the loop; the outer `none` is the failing assertion
that the symbol is known. -/
def lookAheadTerminals : List String → Option (Finset ι × List (Option ι))
  | [] => some (∅, [])
  | sym :: rest =>
    match s.prods.lookup sym with
    | none => none
    | some none => some (∅, [none])
    | some (some q) =>
      if (g.kind q).isTerminal then do
        let (v, errors) ← lookAheadTerminals rest
        some (insert q v, errors)
      else some (∅, [some q])

/-- A look-ahead production with the sets that `setLookAheads` stores in it. -/
structure LookAheads (ι : Type) where
  prod : ι
  first : Finset ι
  second : Finset ι

/-- The second part of `_computeTables`: the look-ahead sets, and the errors. -/
def lookAheadLoop (t : Tables) : List ι → Option (List (LookAheads ι) × List (Option ι))
  | [] => some ([], [])
  | p :: rest =>
    match g.kind p with
    | .lookAhead alt1 alt2 _ => do
      let (v0, e0) ← lookAheadTerminals g s ((laheads g s t p [alt1]).sort (· ≤ ·))
      let (v1, e1) ← lookAheadTerminals g s ((laheads g s t p [alt2]).sort (· ≤ ·))
      let (lahs, errors) ← lookAheadLoop t rest
      some (⟨p, v0, v1⟩ :: lahs, e0 ++ e1 ++ errors)
    | _ => lookAheadLoop t rest

/-- A grammar with its tables and the look-ahead sets of its productions. -/
structure Computed (ι : Type) where
  grammar : Grammar ι
  tables : Tables
  lookAheads : List (LookAheads ι)
  lahErrors : List (Option ι)

/-- `Grammar::_computeTables`. -/
def computeTables (fuel : ℕ) : Option (Computed ι) := do
  let t ← tablesLoop g s.symbol s.nterms fuel (initTables s.symbol s.nterms)
  let (lahs, errors) ← lookAheadLoop g s t s.nterms
  some ⟨s, t, lahs, errors⟩

/-- The constructor of `Grammar` for the production `root`. -/
def newGrammar (g : Productions ι) (fuel : ℕ) (root : ι) : Option (Computed ι) := do
  let s ← addProduction g fuel root
    { symbol := fun p => (g.node p).symbol
      prods := []
      prodsSet := []
      nterms := []
      needsLookAhead := false }
  let s ← simplify g fuel root s
  let s ← simplify g fuel root s
  computeTables g s fuel

end

/-! ## The check for ambiguities -/

section

variable [DecidableEq ι] (g : Productions ι) (name location : String) (c : Computed ι)

/-- `Grammar::_productionLocation`. -/
def productionLocation (p : Option ι) : String :=
  let gloc := if location = "" then "" else " (" ++ location ++ ")"
  let pl := match p with
    | none => ""
    | some p => (g.node p).location
  let ploc := if pl = "" then "" else " (" ++ pl ++ ")"
  let gname := if name = "" then "" else "grammar " ++ name ++ gloc ++ ", "
  let sym := match p with
    | none => epsSymbol
    | some p => c.grammar.symbol p
  gname ++ ("production " ++ sym ++ ploc)

/-- The names of the terminals of a look-ahead set in the messages. -/
def terminalNames (v : Finset ι) : Finset String :=
  v.image fun p => (g.node p).terminal ++ " (" ++ (g.node p).type ++ ")"

/-- `LookAhead::defaultAlternatives`. -/
def defaultAlternatives (default : ℕ) (l : LookAheads ι) : Bool × Bool :=
  (default = 1 || decide (∃ t ∈ l.first, g.kind t = .var),
    default = 2 || decide (∃ t ∈ l.second, g.kind t = .var))

/-- The loop of `check` over the nonterminals.  The last test of the source, that the
look-ahead sets hold terminals only, is true by their type. -/
def checkLoop : List ι → String
  | [] => ""
  | p :: rest =>
    match g.kind p, c.lookAheads.find? (fun l => l.prod = p) with
    | .lookAhead _ _ default, some l =>
      let syms1 := terminalNames g l.first
      let syms2 := terminalNames g l.second
      let defaults := defaultAlternatives g default l
      if defaults.1 && defaults.2 then
        productionLocation g name location c (some p) ++
          ": no look-ahead token for either alternative\n"
      else if syms1.card = 0 && syms2.card = 0 then
        "no look-ahead symbol for either alternative in " ++
          productionLocation g name location c (some p) ++ "\n"
      else
        let isect := syms1 ∩ syms2
        (if isect.card = 0 then ""
          else productionLocation g name location c (some p) ++
            " is ambigious for look-ahead symbol(s) \x7b " ++
            String.intercalate ", " (isect.sort (· ≤ ·)) ++ " \x7d\n") ++
          checkLoop rest
    | _, _ => checkLoop rest

/-- `Grammar::check`: the empty string when the grammar is fine. -/
def check : String :=
  String.join (c.lahErrors.map fun p =>
    productionLocation g name location c p ++ ": look-ahead cannot depend on non-terminal\n") ++
    checkLoop g name location c c.grammar.nterms

end

end Hilti.Spicy
