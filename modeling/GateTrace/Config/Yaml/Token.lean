import GateTrace.Config.Yaml.Scalar

/-! # YAML tokens

    The cutting of a YAML text into tokens, in which every block collection has a start and an end
    and every key is announced.

    * A block collection is the run of keys or dashes at one column. It ends before the first token
      to the left of that column.
    * That a scalar or a flow collection is a key is only known at the colon behind it. Until then
      its place among the tokens is kept as a **candidate**, and the colon announces the key there.

    Anchors, tags, block scalars and directives are refused.
-/

namespace GateTrace.Yaml

/-- A piece of a YAML text that means something by itself. -/
inductive Token where
  | documentStart
  | documentEnd
  /-- A block sequence starts. -/
  | blockSequence
  /-- A block mapping starts. -/
  | blockMapping
  /-- A block collection ends. -/
  | blockEnd
  | openBracket
  | closeBracket
  | openBrace
  | closeBrace
  | comma
  /-- An item of a block sequence follows. -/
  | dash
  /-- A key follows. -/
  | key
  /-- A value follows. -/
  | colon
  | scalar (text : String) (isPlain : Bool)
deriving DecidableEq, Inhabited, Repr

/-- A token that may turn out to open a key: where it starts, and how many tokens precede it. It is
    required to be a key if nothing else may stand in its column. -/
structure Candidate where
  start : Cell
  place : Nat
  required : Bool
deriving DecidableEq, Inhabited, Repr

/-- Whether a colon at `c` is too far away for a candidate: on a later line, or after more than
    1024 characters. -/
def Candidate.isStale (k : Candidate) (c : Cell) : Bool :=
  k.start.line < c.line || k.start.index + 1024 < c.index

/-- What the text so far says about the text to come. -/
structure Lexer where
  /-- The tokens so far, newest first. -/
  tokens : List Token := []
  /-- The columns of the open block collections, innermost first. -/
  blocks : List Nat := []
  /-- The candidate in the innermost open flow collection, or outside of them. -/
  candidate : Option Candidate := none
  /-- The candidates around the open flow collections, innermost first. -/
  outer : List (Option Candidate) := []
  /-- Whether a key may start here. -/
  keyAllowed : Bool := true
  /-- Where the last quoted scalar ended. -/
  quoteEnd : Option Nat := none
deriving Inhabited, Repr

namespace Lexer

def inFlow (lx : Lexer) : Bool := !lx.outer.isEmpty

def push (lx : Lexer) (t : Token) : Lexer := { lx with tokens := t :: lx.tokens }

/-- Add tokens behind the first `place` of those there are. -/
def insert (lx : Lexer) (place : Nat) (ts : List Token) : Lexer :=
  let newer := lx.tokens.length - place
  { lx with tokens := lx.tokens.take newer ++ ts.reverse ++ lx.tokens.drop newer }

/-! ### Block collections -/

/-- Start a block collection at a column, before the tokens `ts` that stand in `place`, unless one
    is open there already. Inside a flow collection there are none. -/
def openBlock (lx : Lexer) (column place : Nat) (start : Token) (ts : List Token) : Lexer :=
  if !lx.inFlow && lx.blocks.all (· < column) then
    { lx with blocks := column :: lx.blocks }.insert place (start :: ts)
  else lx.insert place ts

/-- End the block collections whose column is `closed`. -/
def closeBlocks (lx : Lexer) (closed : Nat → Bool) : Lexer :=
  if lx.inFlow then lx
  else
    { lx with
      tokens := List.replicate (lx.blocks.takeWhile closed).length .blockEnd ++ lx.tokens
      blocks := lx.blocks.dropWhile closed }

/-! ### Candidates for a key -/

/-- Give up the candidate, which must not be a required one. -/
def forget (lx : Lexer) : Option Lexer :=
  if lx.candidate.any (·.required) then none else some { lx with candidate := none }

/-- Take the next token, which starts at `c`, for a candidate, if a key may start here. -/
def note (lx : Lexer) (c : Cell) : Option Lexer :=
  if lx.keyAllowed then do
    let required := lx.inFlow && lx.blocks.head? = some c.column
    return { ← lx.forget with candidate := some ⟨c, lx.tokens.length, required⟩ }
  else some lx

/-- Give up the candidates that are stale at `c`, none of which must be a required one. -/
def expire (lx : Lexer) (c : Cell) : Option Lexer :=
  let lost := fun k : Candidate => k.isStale c
  if (lx.candidate :: lx.outer).any (·.any fun k => lost k && k.required) then none
  else some { lx with
    candidate := lx.candidate.filter (!lost ·)
    outer := lx.outer.map (·.filter (!lost ·)) }

/-! ### The next token -/

/-- A document marker, which ends all block collections. -/
def marker (lx : Lexer) (t : Token) : Option Lexer := do
  if lx.inFlow then none
  let lx ← (lx.closeBlocks fun _ => true).forget
  return { lx with keyAllowed := false }.push t

/-- An opening bracket or brace. At most 255 of them are open at a time. -/
def openFlow (lx : Lexer) (c : Cell) (t : Token) : Option Lexer := do
  let lx ← lx.note c
  if lx.outer.length < 255 then
    return { lx with
      candidate := none, outer := lx.candidate :: lx.outer, keyAllowed := true }.push t
  else none

def closeFlow (lx : Lexer) (t : Token) : Option Lexer := do
  let lx ← lx.forget
  return { lx with
    candidate := lx.outer.head?.join, outer := lx.outer.tail, keyAllowed := false }.push t

def comma (lx : Lexer) : Option Lexer := do
  return { ← lx.forget with keyAllowed := true }.push .comma

def dash (lx : Lexer) (c : Cell) : Option Lexer := do
  if lx.inFlow || !lx.keyAllowed then none
  let lx ← (lx.openBlock c.column lx.tokens.length .blockSequence []).forget
  return { lx with keyAllowed := true }.push .dash

def key (lx : Lexer) (c : Cell) : Option Lexer := do
  if !lx.inFlow && !lx.keyAllowed then none
  let lx ← (lx.openBlock c.column lx.tokens.length .blockMapping []).forget
  return { lx with keyAllowed := !lx.inFlow }.push .key

/-- The colon before a value. If there is a candidate, it is the key. -/
def colon (lx : Lexer) (c : Cell) : Option Lexer :=
  match lx.candidate with
  | some k =>
    let lx := lx.openBlock k.start.column k.place .blockMapping [.key]
    some ({ lx with candidate := none, keyAllowed := false }.push .colon)
  | none => do
    if !lx.inFlow && !lx.keyAllowed then none
    let lx := lx.openBlock c.column lx.tokens.length .blockMapping []
    return { lx with keyAllowed := !lx.inFlow }.push .colon

def quoted (lx : Lexer) (c : Cell) (rest : List Cell) : Option (Lexer × List Cell) := do
  let lx ← lx.note c
  let (cs, rest) ← Yaml.quoted c.char .empty rest
  let lx := { lx with keyAllowed := false, quoteEnd := rest.head?.map Cell.index }
  return (lx.push (.scalar (String.ofList cs) false), rest)

/-- A plain scalar, and what follows it. After a line break another key may start. -/
def plain (lx : Lexer) (c : Cell) (rest : List Cell) : Option (Lexer × List Cell) := do
  let lx ← lx.note c
  let indent := (lx.blocks.head?.map (· + 1)).getD 0
  let (cs, broken, rest) ← Yaml.plain lx.inFlow indent .empty (c :: rest)
  return ({ lx with keyAllowed := broken }.push (.scalar (String.ofList cs) true), rest)

/-- Whether a colon at `c` stands before a value: a blank follows it or, inside a flow collection, a
    flow indicator, or a quoted scalar precedes it at once. -/
def opensValue (lx : Lexer) (c : Cell) (rest : List Cell) : Bool :=
  atBlank rest ||
    (lx.inFlow && (rest.head?.any (isFlow ·.char) || lx.quoteEnd = some c.index))

/-- The token that starts at `c`, and what follows it. -/
def token (lx : Lexer) (c : Cell) (rest : List Cell) : Option (Lexer × List Cell) :=
  if atMarker '-' (c :: rest) then (lx.marker .documentStart).map (·, rest.drop 2)
  else if atMarker '.' (c :: rest) then (lx.marker .documentEnd).map (·, rest.drop 2)
  else if c.char = '[' then (lx.openFlow c .openBracket).map (·, rest)
  else if c.char = '{' then (lx.openFlow c .openBrace).map (·, rest)
  else if c.char = ']' then (lx.closeFlow .closeBracket).map (·, rest)
  else if c.char = '}' then (lx.closeFlow .closeBrace).map (·, rest)
  else if c.char = ',' then lx.comma.map (·, rest)
  else if c.char = '-' && atBlank rest then (lx.dash c).map (·, rest)
  else if c.char = '?' && atBlank rest then (lx.key c).map (·, rest)
  else if c.char = ':' && lx.opensValue c rest then (lx.colon c).map (·, rest)
  else if c.char = '\'' || c.char = '"' then lx.quoted c rest
  else if "*&!%@`".toList.contains c.char then none
  else if "|>".toList.contains c.char && !lx.inFlow then none
  else lx.plain c rest

/-- All tokens, oldest first, with those from here on. Each takes up some `fuel`, of which one more
    than the number of cells suffices. -/
def run : (fuel : Nat) → Lexer → List Cell → Option (List Token)
  | 0, _, _ => none
  | fuel + 1, lx, cs =>
    match skip lx.inFlow lx.keyAllowed cs with
    | (_, []) => if lx.inFlow then none else some (lx.closeBlocks fun _ => true).tokens.reverse
    | (keyAllowed, c :: rest) => do
      let lx ← { lx with keyAllowed }.expire c
      let (lx, rest) ← (lx.closeBlocks (c.column < ·)).token c rest
      run fuel lx rest

end Lexer

def tokens? (s : String) : Option (List Token) :=
  let cs := cells s
  Lexer.run (cs.length + 1) {} cs

end GateTrace.Yaml
