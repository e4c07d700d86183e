/-! # Cells

    A text in which every character knows its place. The structure of a YAML text is told by lines
    and columns, so its reader works on cells. The white space and the comments between two tokens
    are dropped here.
-/

namespace GateTrace.Yaml

/-- A character with its place: how many characters precede it in the text, its line, and its
    column. -/
structure Cell where
  char : Char
  index : Nat
  line : Nat
  column : Nat
deriving DecidableEq, Inhabited, Repr

/-- The cells of a text from a place on. Every line break is a line feed here. A carriage return
    that stands alone separates lines too, but it does not count as the start of a new one. -/
def cellsFrom : (index line column : Nat) → List Char → List Cell
  | _, _, _, [] => []
  | index, line, column, '\r' :: '\n' :: rest =>
    ⟨'\n', index, line, column⟩ :: cellsFrom (index + 2) (line + 1) 0 rest
  | index, line, column, '\r' :: rest =>
    ⟨'\n', index, line, column⟩ :: cellsFrom (index + 1) line (column + 1) rest
  | index, line, column, '\n' :: rest =>
    ⟨'\n', index, line, column⟩ :: cellsFrom (index + 1) (line + 1) 0 rest
  | index, line, column, c :: rest =>
    ⟨c, index, line, column⟩ :: cellsFrom (index + 1) line (column + 1) rest

/-- The cells of a text, which ends at its first null character. -/
def cells (s : String) : List Cell := cellsFrom 0 0 0 (s.toList.takeWhile (· ≠ '\x00'))

/-- Whether a character separates words within a line. -/
def isBlank (c : Char) : Bool := c = ' ' || c = '\t'

def isFlow (c : Char) : Bool := c = ',' || c = '[' || c = ']' || c = '{' || c = '}'

/-- Whether the text ends, or has white space, at this point. -/
def atBlank : List Cell → Bool
  | [] => true
  | c :: _ => isBlank c.char || c.char = '\n'

/-- Whether a document marker, three times `mark` at the left margin, stands at this point. -/
def atMarker (mark : Char) : List Cell → Bool
  | a :: b :: c :: rest =>
    a.column = 0 && a.char = mark && b.char = mark && c.char = mark && atBlank rest
  | _ => false

/-- Whether the start or the end of a document is marked at this point. -/
def atDocumentMarker (cs : List Cell) : Bool := atMarker '-' cs || atMarker '.' cs

/-- Drop white space and comments before the next token, and tell whether a key may start there:
    outside flow collections a line break allows it. Where a key may start, a tab is not white
    space, because it cannot indent. -/
def skip (flow : Bool) : (keyAllowed : Bool) → List Cell → Bool × List Cell
  | keyAllowed, [] => (keyAllowed, [])
  | keyAllowed, c :: rest =>
    if c.char = ' ' || (c.char = '\t' && (flow || !keyAllowed)) then skip flow keyAllowed rest
    else if c.char = '\n' then skip flow (keyAllowed || !flow) rest
    else if c.char = '#' then skipComment keyAllowed rest
    else (keyAllowed, c :: rest)
where
  /-- Drop the rest of a comment, and go on on the next line. -/
  skipComment : (keyAllowed : Bool) → List Cell → Bool × List Cell
    | keyAllowed, [] => (keyAllowed, [])
    | keyAllowed, c :: rest =>
      if c.char = '\n' then skip flow (keyAllowed || !flow) rest else skipComment keyAllowed rest

end GateTrace.Yaml
