import GateTrace.Config.Tree

/-! # JSON

    The reader of settings in JSON. The grammar is strict: no comments, no comma before a closing
    bracket, no raw control characters in strings, nothing after the value. Numbers need only be
    well formed.
-/

namespace GateTrace.Json

def isBlank (c : Char) : Bool := c = ' ' || c = '\t' || c = '\n' || c = '\r'

def skip (cs : List Char) : List Char := cs.dropWhile isBlank

/-! ### Strings -/

/-- A part of a string: a character, or a 16-bit unit given by its number. -/
inductive Piece where
  | char (c : Char)
  | unit (n : Nat)
deriving DecidableEq, Inhabited, Repr

def hexDigit? (c : Char) : Option Nat :=
  if '0' ≤ c ∧ c ≤ '9' then some (c.toNat - '0'.toNat)
  else if 'a' ≤ c ∧ c ≤ 'f' then some (c.toNat - 'a'.toNat + 10)
  else if 'A' ≤ c ∧ c ≤ 'F' then some (c.toNat - 'A'.toNat + 10)
  else none

def hex? (cs : List Char) : Option Nat := do
  return (← cs.mapM hexDigit?).foldl (16 * · + ·) 0

def escape? : Char → Option Char
  | '"' => some '"'
  | '\\' => some '\\'
  | '/' => some '/'
  | 'b' => some '\x08'
  | 'f' => some '\x0c'
  | 'n' => some '\n'
  | 'r' => some '\r'
  | 't' => some '\t'
  | _ => none

/-- The parts of a string up to its closing quote, and what follows the quote. -/
def pieces : List Char → Option (List Piece × List Char)
  | [] => none
  | '"' :: rest => some ([], rest)
  -- Units are paired later, so that a passed-over string need not be decodable.
  | '\\' :: 'u' :: a :: b :: c :: d :: rest => do
    let n ← hex? [a, b, c, d]
    let (ps, rest) ← pieces rest
    return (.unit n :: ps, rest)
  | '\\' :: c :: rest => do
    let c ← escape? c
    let (ps, rest) ← pieces rest
    return (.char c :: ps, rest)
  | c :: rest =>
    if c < ' ' then none
    else do
      let (ps, rest) ← pieces rest
      return (.char c :: ps, rest)

/-- Whether a 16-bit unit opens a pair. -/
def isHigh (n : Nat) : Bool := 0xd800 ≤ n && n < 0xdc00

/-- Whether a 16-bit unit closes a pair. -/
def isLow (n : Nat) : Bool := 0xdc00 ≤ n && n < 0xe000

/-- The text of a string. Two units that form a pair are one character; a unit of a pair that
    stands alone has no reading. -/
def decode : List Piece → Option (List Char)
  | [] => some []
  | .char c :: ps => (decode ps).map (c :: ·)
  | .unit n :: .unit m :: ps =>
    if isHigh n then
      if isLow m then
        (decode ps).map (Char.ofNat (0x10000 + (n - 0xd800) * 0x400 + (m - 0xdc00)) :: ·)
      else none
    else if isLow n then none
    else (decode (.unit m :: ps)).map (Char.ofNat n :: ·)
  | .unit n :: ps =>
    if isHigh n || isLow n then none else (decode ps).map (Char.ofNat n :: ·)

/-- A string after its opening quote: its text, if it has a reading, and what follows it. -/
def string (cs : List Char) : Option (Option String × List Char) := do
  let (ps, rest) ← pieces cs
  return ((decode ps).map String.ofList, rest)

/-! ### Numbers -/

/-- Drop one digit or more. -/
def digits (cs : List Char) : Option (List Char) :=
  match cs with
  | c :: rest => if c.isDigit then some (rest.dropWhile Char.isDigit) else none
  | [] => none

/-- Drop the digits of a whole number, which opens with zero only if it is zero. -/
def whole : List Char → Option (List Char)
  | '0' :: rest => some rest
  | cs => digits cs

def fraction : List Char → Option (List Char)
  | '.' :: rest => digits rest
  | cs => some cs

def exponent : List Char → Option (List Char)
  | e :: rest =>
    if e = 'e' || e = 'E' then
      match rest with
      | '+' :: rest | '-' :: rest => digits rest
      | rest => digits rest
    else some (e :: rest)
  | [] => some []

def number : List Char → Option (List Char)
  | '-' :: rest => do exponent (← fraction (← whole rest))
  | cs => do exponent (← fraction (← whole cs))

/-! ### Values -/

/-- Drop one expected character, and separators before it. -/
def expect (c : Char) (cs : List Char) : Option (List Char) :=
  match skip cs with
  | d :: rest => if d = c then some rest else none
  | [] => none

mutual

/-- A value, and what follows it. Each level of recursion uses up some `fuel`, of which twice the
    number of characters suffices. -/
def value : (fuel : Nat) → List Char → Option (SettingsTree × List Char)
  | 0, _ => none
  | fuel + 1, cs =>
    match skip cs with
    | 'n' :: 'u' :: 'l' :: 'l' :: rest => some (.scalar none true, rest)
    | 't' :: 'r' :: 'u' :: 'e' :: rest => some (.scalar none false, rest)
    | 'f' :: 'a' :: 'l' :: 's' :: 'e' :: rest => some (.scalar none false, rest)
    | '"' :: rest => do
      let (text, rest) ← string rest
      return (.scalar text false, rest)
    | '[' :: rest =>
      match skip rest with
      | ']' :: rest => some (.seq [], rest)
      | rest => do
        let (items, rest) ← elements fuel rest
        return (.seq items, rest)
    | '{' :: rest =>
      match skip rest with
      | '}' :: rest => some (.map [], rest)
      | rest => do
        let (ms, rest) ← members fuel rest
        return (.map ms, rest)
    | rest => do return (.scalar none false, ← number rest)

/-- One element or more, up to the closing bracket. -/
def elements : (fuel : Nat) → List Char → Option (List SettingsTree × List Char)
  | 0, _ => none
  | fuel + 1, cs => do
    let (v, rest) ← value fuel cs
    match skip rest with
    | ',' :: rest =>
      let (vs, rest) ← elements fuel rest
      return (v :: vs, rest)
    | ']' :: rest => return ([v], rest)
    | _ => none

/-- One member or more, up to the closing brace. -/
def members :
    (fuel : Nat) → List Char → Option (List (Option String × SettingsTree) × List Char)
  | 0, _ => none
  | fuel + 1, cs => do
    let (key, rest) ← string (← expect '"' cs)
    let (v, rest) ← value fuel (← expect ':' rest)
    match skip rest with
    | ',' :: rest =>
      let (ms, rest) ← members fuel rest
      return ((key, v) :: ms, rest)
    | '}' :: rest => return ([(key, v)], rest)
    | _ => none

end

def read? (s : String) : Option SettingsTree :=
  match value (2 * s.length + 2) s.toList with
  | some (v, rest) => if (skip rest).isEmpty then some v else none
  | none => none

end GateTrace.Json
