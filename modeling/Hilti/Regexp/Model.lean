import Hilti.Justrx.Regset

/-!
# Regular expressions

The model of `libhilti/regexp.c`: compiling sets of patterns, matching a token whose data may come in
several calls, and searching.  The data between two iterators is given by the blocks that
`hlt_bytes_iterate_raw` returns for them; there are none if the iterators are equal.  Patterns have been
parsed already, and an iterator that is returned is given by its distance from where the data begins.

All matches with one regular expression share its DFA, so what is kept for a token is attached to the
current DFA before it is used.  A call that fails, other than by an exception, has no value.
-/

namespace Hilti.Regexp

open Hilti.Justrx

set_option autoImplicit false

/-! ## Compiling -/

/-- `hlt_regexp_flags`. -/
structure Flags where
  noSub : Bool
  firstMatch : Bool

/-- `_cflags`. -/
def Flags.cflags (flags : Flags) : Cflags where
  extended := true
  noSub := flags.noSub
  icase := false
  newline := false
  stdMatcher := false
  anchor := flags.noSub
  lazy := true
  firstMatch := flags.firstMatch

inductive RegexpException where
  | patternError
  | valueError
  deriving DecidableEq

/-- `hlt_regexp`: the number of patterns, the flags, and what has been compiled. -/
structure HltRegexp where
  num : ℕ
  flags : Flags
  regexp : Option Regex

/-- `hlt_regexp_new`. -/
def hltRegexpNew (flags : Flags) : HltRegexp :=
  ⟨0, flags, none⟩

/-- `hlt_regexp_compile_set`. -/
def hltRegexpCompileSet (fuel : ℕ) (re : HltRegexp) (patterns : List Pattern) :
    Option (Except RegexpException HltRegexp) :=
  if re.num ≠ 0 then some (.error .valueError)
  else do
    let preg ← jrxRegsetAddAll re.flags.cflags patterns
    let regexp ← jrxRegsetFinalize fuel preg
    some (.ok ⟨patterns.length, re.flags, some regexp⟩)

/-- `hlt_regexp_compile`. -/
def hltRegexpCompile (fuel : ℕ) (re : HltRegexp) (pattern : Pattern) :
    Option (Except RegexpException HltRegexp) :=
  hltRegexpCompileSet fuel re [pattern]

/-! ## Matching tokens -/

/-- `hlt_match_token_state`: whether the regular expression is still there, the state of the matcher,
and the accept so far. -/
structure MatchTokenState where
  re : Bool
  ms : MatchState
  acc : ℤ

/-- `_match_token_init`. -/
def matchTokenInit (preg : Regex) : Option MatchTokenState :=
  (matchStateInit preg.opts preg.dfa 0).map fun ms => ⟨true, ms, 0⟩

/-- `jrx_current_accept`. -/
def jrxCurrentAccept (opts : Options) (ms : MatchState) : Option (MatchState × ℤ) :=
  if opts.stdMatcher then some (ms, (pickAccept ms.accepts).aid)
  else do
    let id ← ms.state
    let r ← dfaGetState ms.dfa id
    some ({ ms with dfa := r.1 }, (r.2.firstAid.getD 0 : ℕ))

/-- The loop of `_match_token_advance`: the last block may be the end of the data. -/
def matchTokenBlocks (opts : Options) (final : Bool) :
    List (List ℕ) → MatchState → Option (MatchState × ℤ)
  | [], ms => some (ms, -1)
  | block :: blocks, ms => do
    let last := final && blocks.isEmpty
    let r ← regexecPartial opts block {.bol, .bod} (if last then {.eol, .eod} else ∅) ms last
    if r.2 < 0 then matchTokenBlocks opts final blocks r.1 else some r

/-- `_match_token_advance`. -/
def matchTokenAdvance (opts : Options) (state : MatchTokenState) (blocks : List (List ℕ))
    (final : Bool) : Option (MatchTokenState × ℤ) :=
  let ms := { state.ms with offset := 1 }
  if blocks = [] then
    if final then
      if state.acc ≤ 0 then do
        let r ← jrxCurrentAccept opts ms
        some ({ state with ms := r.1, acc := r.2 }, r.2)
      else some ({ state with ms := ms }, state.acc)
    else some ({ state with ms := ms }, -1)
  else do
    let r ← matchTokenBlocks opts final blocks ms
    if r.2 = 0 then some ({ state with ms := r.1 }, if 0 < state.acc then state.acc else 0)
    else if 0 < r.2 then some ({ state with ms := r.1, acc := r.2 }, r.2)
    else
      let acc := if state.acc = 0 then -1 else state.acc
      some ({ state with ms := r.1, acc := acc }, acc)

/-- `_match_token_finish`: the offset where the token ends. -/
def matchTokenFinish (state : MatchTokenState) : ℕ :=
  state.ms.offset - 1

/-- `hlt_regexp_match_token`: a result code, and how far the iterator is from the begin. -/
structure TokenMatch where
  rc : ℤ
  stop : ℕ
  deriving DecidableEq

/-- What is left to do if tokens can be matched with the regular expression. -/
def HltRegexp.forTokens {α : Type} (re : HltRegexp) (f : Regex → Option α) :
    Option (Except RegexpException α) :=
  if re.num = 0 then some (.error .patternError)
  else if !re.flags.noSub then some (.error .patternError)
  else do
    let preg ← re.regexp
    let a ← f preg
    some (.ok a)

/-- `hlt_regexp_bytes_match_token`, with the DFA after it. -/
def hltRegexpBytesMatchToken (re : HltRegexp) (blocks : List (List ℕ)) (isFrozen : Bool) :
    Option (Except RegexpException (Dfa × TokenMatch)) :=
  re.forTokens fun preg => do
    let state ← matchTokenInit preg
    let r ← matchTokenAdvance preg.opts state blocks isFrozen
    some (r.1.ms.dfa, ⟨r.2, if 0 < r.2 then matchTokenFinish r.1 else 0⟩)

/-- `hlt_regexp_match_token_init`. -/
def hltRegexpMatchTokenInit (re : HltRegexp) : Option (Except RegexpException MatchTokenState) :=
  re.forTokens matchTokenInit

/-- `hlt_regexp_bytes_match_token_advance`. -/
def hltRegexpBytesMatchTokenAdvance (opts : Options) (state : MatchTokenState)
    (blocks : List (List ℕ)) (isFrozen : Bool) :
    Option (Except RegexpException (MatchTokenState × TokenMatch)) :=
  if !state.re then some (.error .valueError)
  else do
    let r ← matchTokenAdvance opts state blocks isFrozen
    if 0 ≤ r.2 then
      some (.ok ({ r.1 with re := false },
        ⟨r.2, if 0 < r.2 then matchTokenFinish r.1 else blocks.flatten.length⟩))
    else some (.ok (r.1, ⟨r.2, blocks.flatten.length⟩))

/-- What is kept for a token, with the DFA as it is now. -/
def MatchTokenState.attach (state : MatchTokenState) (dfa : Dfa) : MatchTokenState :=
  { state with ms := { state.ms with dfa := dfa } }

/-- The regular expression with what a match has added to its DFA. -/
def HltRegexp.withDfa (re : HltRegexp) (dfa : Dfa) : HltRegexp :=
  { re with regexp := re.regexp.map fun preg => { preg with dfa := dfa } }

/-! ## Searching -/

/-- The loop of `_search_pattern` over the blocks from a position: the state of the matcher, the last
result code, and the assertions for the end, which stay once they have been set. -/
def searchBlocks (opts : Options) (findPartialMatches : Bool) (first : Finset Assertion) :
    Finset Assertion → List (List ℕ) → MatchState → Option (MatchState × ℤ × Finset Assertion)
  | last, [], ms => some (ms, -1, last)
  | last, block :: blocks, ms => do
    let last := if blocks.isEmpty then last ∪ {.eol, .eod} else last
    let r ← regexecPartial opts block first last ms (blocks.isEmpty && findPartialMatches)
    if r.2 < 0 then searchBlocks opts findPartialMatches first last blocks r.1
    else some (r.1, r.2, last)

/-- `hlt_iterator_bytes_incr` for the blocks from a position. -/
def incrBlocks : List (List ℕ) → List (List ℕ)
  | [] => []
  | [] :: blocks => incrBlocks blocks
  | (_ :: block) :: blocks => if block = [] then blocks else block :: blocks

/-- The result of `_search_pattern`: the accept id, and the offsets if something has been found. -/
structure Searching where
  acc : ℤ
  span : Option (ℤ × ℤ)
  ms : MatchState

/-- The span that is stored for a match. -/
def foundSpan (opts : Options) (offset : ℕ) (ms : MatchState) : ℤ × ℤ :=
  if opts.stdMatcher then reggroups opts ms
  else (offset, offset + ms.offset - 1)

/-- The loop of `_search_pattern` over starting positions; the fuel is more than their number. -/
def searchFrom (opts : Options) (doAnchor findPartialMatches : Bool) : ℕ → Dfa → List (List ℕ) → ℕ →
    Finset Assertion → Finset Assertion → ℤ → Option Searching
  | 0, _, _, _, _, _, _ => none
  | fuel + 1, dfa, blocks, offset, first, last, acc => do
    let ms ← matchStateInit opts dfa offset
    let r ← searchBlocks opts findPartialMatches first last blocks ms
    let acc' := if acc = 0 then -1 else acc
    let rest := incrBlocks blocks
    if r.2.1 = 0 then some ⟨acc, none, r.1⟩
    else if 0 < r.2.1 then some ⟨r.2.1, some (foundSpan opts offset r.1), r.1⟩
    else if opts.stdMatcher || doAnchor || rest.isEmpty then some ⟨acc', none, r.1⟩
    else searchFrom opts doAnchor findPartialMatches fuel r.1.dfa rest (offset + 1) ∅ r.2.2 acc'

/-- `_search_pattern`. -/
def searchPattern (preg : Regex) (blocks : List (List ℕ)) (doAnchor findPartialMatches : Bool) :
    Option Searching :=
  if blocks = [] then (matchStateInit preg.opts preg.dfa 0).map fun ms => ⟨-1, none, ms⟩
  else searchFrom preg.opts doAnchor findPartialMatches (blocks.flatten.length + 1) preg.dfa blocks 0
    {.bol, .bod} ∅ 0

/-- `hlt_regexp_bytes_find`, with the DFA after it. -/
def hltRegexpBytesFind (re : HltRegexp) (blocks : List (List ℕ)) :
    Option (Except RegexpException (Dfa × ℤ)) :=
  if re.num = 0 then some (.error .patternError)
  else do
    let preg ← re.regexp
    let r ← searchPattern preg blocks false true
    some (.ok (r.ms.dfa, r.acc))

/-- `hlt_regexp_bytes_span`; there is a span if something has been found. -/
def hltRegexpBytesSpan (re : HltRegexp) (blocks : List (List ℕ)) :
    Option (Except RegexpException (Dfa × ℤ × Option (ℤ × ℤ))) :=
  if re.num = 0 then some (.error .patternError)
  else do
    let preg ← re.regexp
    let r ← searchPattern preg blocks false true
    some (.ok (r.ms.dfa, r.acc, if 0 < r.acc then r.span else none))

/-- `_set_group`: where an element is missing, there is the default, which is no span. -/
def setGroup (vec : List (Option (ℤ × ℤ))) (i : ℕ) (span : ℤ × ℤ) : List (Option (ℤ × ℤ)) :=
  (vec ++ List.replicate (i + 1 - vec.length) none).set i (some span)

/-- The groups of `hlt_regexp_bytes_groups`. -/
def groupsOf (span : ℤ × ℤ) (pmatch : List (ℤ × ℤ)) : List (Option (ℤ × ℤ)) :=
  (pmatch.zipIdx.drop 1).foldl (fun vec m => if 0 ≤ m.1.1 then setGroup vec m.2 m.1 else vec)
    (setGroup [] 0 span)

/-- `hlt_regexp_bytes_groups`: the result code has eight bits here. -/
def hltRegexpBytesGroups (re : HltRegexp) (blocks : List (List ℕ)) :
    Option (Except RegexpException (Dfa × List (Option (ℤ × ℤ)))) :=
  if re.num ≠ 1 then some (.error .patternError)
  else do
    let preg ← re.regexp
    let r ← searchPattern preg blocks false true
    if 0 < Int.bmod r.acc 256 then do
      let groups ← jrxReggroups preg r.ms (List.replicate (preg.maxCapture + 1) (0, 0))
      some (.ok (r.ms.dfa, groupsOf (r.span.getD (-1, -1)) groups.2))
    else some (.ok (r.ms.dfa, []))

end Hilti.Regexp
