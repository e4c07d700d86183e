import GateTrace.Config.Json
import GateTrace.Config.Yaml.Cell

/-! # YAML scalars

    Plain, single-quoted and double-quoted scalars. A scalar may run over several lines, which are
    folded into one: what counts of the white space between two of its characters is told by the
    gap between them.
-/

namespace GateTrace.Yaml

/-! ### Gaps -/

/-- The white space since the last character of a scalar. -/
inductive Gap where
  /-- Blanks within a line, perhaps none. -/
  | blanks (cs : List Char)
  /-- A line break, and more of them. -/
  | folded (more : Nat)
  /-- A line break after a backslash, and more of them. -/
  | joined (more : Nat)
deriving DecidableEq, Inhabited, Repr

namespace Gap

def empty : Gap := .blanks []

/-- The gap with one more blank. Blanks around a line break do not count. -/
def addBlank (c : Char) : Gap → Gap
  | .blanks cs => .blanks (cs ++ [c])
  | gap => gap

def addBreak : Gap → Gap
  | .blanks _ => .folded 0
  | .folded more => .folded (more + 1)
  | .joined more => .joined (more + 1)

def hasBreak : Gap → Bool
  | .blanks _ => false
  | _ => true

/-- What a gap stands for: blanks for themselves, a line break for a space if it is the only one,
    a line break after a backslash for nothing, and every further break for a line feed. -/
def text : Gap → List Char
  | .blanks cs => cs
  | .folded 0 => [' ']
  | .folded (more + 1) => List.replicate (more + 1) '\n'
  | .joined more => List.replicate more '\n'

end Gap

/-! ### Plain scalars -/

/-- Whether a plain scalar ends before the first of these cells, after this gap. Lines after the
    first are indented by `indent` outside flow collections. -/
def endsPlain (flow : Bool) (indent : Nat) (gap : Gap) : List Cell → Bool
  | [] => true
  | c :: rest =>
    (c.char = '#' && gap ≠ .empty) ||
    (c.char = ':' && (atBlank rest || (flow && rest.head?.any (isFlow ·.char)))) ||
    (flow && isFlow c.char) ||
    (!flow && gap.hasBreak && c.column < indent) ||
    atDocumentMarker (c :: rest)

/-- The characters of a plain scalar from here on, after this gap, whether it ends on a later line
    than its last character, and what follows it. A tab cannot indent one of its lines. -/
def plain (flow : Bool) (indent : Nat) :
    (gap : Gap) → List Cell → Option (List Char × Bool × List Cell)
  | gap, [] => some ([], gap.hasBreak, [])
  | gap, c :: rest =>
    if c.char = '\n' then plain flow indent gap.addBreak rest
    else if isBlank c.char then
      if c.char = '\t' && gap.hasBreak && c.column < indent then none
      else plain flow indent (gap.addBlank c.char) rest
    else if endsPlain flow indent gap (c :: rest) then some ([], gap.hasBreak, c :: rest)
    else do
      let (cs, broken, rest) ← plain flow indent .empty rest
      return (gap.text ++ c.char :: cs, broken, rest)

/-! ### Quoted scalars -/

def escape? : Char → Option Char
  | '0' => some '\x00'
  | 'a' => some '\x07'
  | 'b' => some '\x08'
  | 't' => some '\t'
  | '\t' => some '\t'
  | 'n' => some '\n'
  | 'v' => some '\x0b'
  | 'f' => some '\x0c'
  | 'r' => some '\r'
  | 'e' => some '\x1b'
  | ' ' => some ' '
  | '"' => some '"'
  | '\'' => some '\''
  | '\\' => some '\\'
  | 'N' => some '\u0085'
  | '_' => some '\u00a0'
  | 'L' => some '\u2028'
  | 'P' => some '\u2029'
  | _ => none

def codeLength? : Char → Option Nat
  | 'x' => some 2
  | 'u' => some 4
  | 'U' => some 8
  | _ => none

def ofCode? (n : Nat) : Option Char :=
  if n.isValidChar then some (Char.ofNat n) else none

/-- What the characters at one point of a quoted scalar mean. -/
inductive Piece where
  /-- The scalar ends. -/
  | close
  /-- A character of the text. -/
  | char (c : Char)
  /-- The line is joined to the next one. -/
  | join
deriving DecidableEq, Inhabited, Repr

/-- What follows a backslash: its meaning, and the number of cells that it takes. -/
def escaped? : List Cell → Option (Piece × Nat)
  | [] => none
  | c :: rest =>
    if c.char = '\n' then some (.join, 1)
    else match codeLength? c.char with
      | some n => do
        if rest.length < n then none
        let d ← ofCode? (← Json.hex? ((rest.take n).map (·.char)))
        return (.char d, n + 1)
      | none => do return (.char (← escape? c.char), 1)

/-- What stands at a character of a scalar in `mark` quotes: its meaning, and the number of cells
    that it takes after the first. A single quote inside single quotes is written twice. -/
def piece? (mark : Char) (c : Cell) (rest : List Cell) : Option (Piece × Nat) :=
  if c.char = mark then
    if mark = '\'' && rest.head?.any (·.char = '\'') then some (.char '\'', 1)
    else some (.close, 0)
  else if c.char = '\\' && mark = '"' then escaped? rest
  else some (.char c.char, 0)

/-- The characters of a scalar in `mark` quotes from here on, after this gap, and what follows its
    closing quote. A document marker cannot stand inside. -/
def quoted (mark : Char) (gap : Gap) : List Cell → Option (List Char × List Cell)
  | [] => none
  | c :: rest =>
    if c.char = '\n' then quoted mark gap.addBreak rest
    else if isBlank c.char then quoted mark (gap.addBlank c.char) rest
    else if atDocumentMarker (c :: rest) then none
    else
      match piece? mark c rest with
      | none => none
      | some (.close, _) => some (gap.text, rest)
      | some (.char d, n) => do
        let (cs, rest) ← quoted mark .empty (rest.drop n)
        return (gap.text ++ d :: cs, rest)
      | some (.join, n) => do
        let (cs, rest) ← quoted mark (.joined 0) (rest.drop n)
        return (gap.text ++ cs, rest)
termination_by cs => cs.length
decreasing_by all_goals simp; try omega

end GateTrace.Yaml
