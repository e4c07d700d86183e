import GateTrace.Config.Yaml.Token

/-! # YAML

    The reader of settings in YAML: the grammar of block and flow collections over the tokens of a
    text. A key, an item or a value that is written nowhere is absent, which counts as a plain `~`.
-/

namespace GateTrace.Yaml

open SettingsTree (Member)

/-- A scalar. A plain one may stand for an absent value; a quoted one is always text. -/
def scalar (text : String) (isPlain : Bool) : SettingsTree :=
  .scalar (some text) (isPlain && (text = "~" || text = "null"))

/-- A node that is written nowhere. -/
def absent : SettingsTree := scalar "~" true

/-! ### Parts of a collection -/

/-- What reads something at the first of some tokens, and tells what follows it. -/
abbrev Reader (α : Type) := List Token → Option (α × List Token)

/-- A node, or an absent one before a token that shows that it is left out. -/
def orAbsent (stops : List Token) (node : Reader SettingsTree) : Reader SettingsTree := fun ts =>
  if ts.head?.all stops.contains then some (absent, ts) else node ts

/-- A member with a given key: its value follows a colon, or is absent if there is none. -/
def memberOf (key : SettingsTree) (stops : List Token) (node : Reader SettingsTree) :
    Reader Member
  | .colon :: rest => do
    let (v, rest) ← orAbsent stops node rest
    return ((key.text?, v), rest)
  | ts => some ((key.text?, absent), ts)

def blockMember (node : Reader SettingsTree) : Reader Member
  | .key :: rest => do
    let (key, rest) ← orAbsent [.key, .colon, .blockEnd] node rest
    memberOf key [.key, .colon, .blockEnd] node rest
  | .colon :: rest => memberOf absent [.key, .colon, .blockEnd] node (.colon :: rest)
  | _ => none

/-- A member of a flow mapping. A node that is not announced as a key has no value. -/
def flowMember (node : Reader SettingsTree) : Reader Member
  | .key :: rest => do
    let (key, rest) ← orAbsent [.colon, .comma, .closeBrace] node rest
    memberOf key [.comma, .closeBrace] node rest
  | .colon :: rest => memberOf absent [.comma, .closeBrace] node (.colon :: rest)
  | ts => do
    let (key, rest) ← node ts
    return ((key.text?, absent), rest)

/-- An item of a flow sequence: a node, or a mapping of one member. -/
def flowItem (node : Reader SettingsTree) : Reader SettingsTree
  | .key :: rest => do
    let (key, rest) ← match rest with
      -- The token that shows that a key is left out is passed over here.
      | .colon :: rest | .comma :: rest | .closeBracket :: rest => some (absent, rest)
      | _ => node rest
    let (member, rest) ← memberOf key [.comma, .closeBracket] node rest
    return (.map [member], rest)
  | ts => node ts

/-! ### Nodes -/

/-- Where a node stands. -/
inductive Position where
  /-- Inside a flow collection, where no block collection starts. -/
  | flow
  /-- As an item of a block sequence, or as a document. -/
  | item
  /-- As a key or a value of a block mapping, where the dashes of a sequence may stand in the column
      of the keys. -/
  | member
deriving DecidableEq, Inhabited, Repr

mutual

/-- A node. Each level of recursion uses up some `fuel`, of which twice the number of tokens
    suffices. -/
def node : (fuel : Nat) → Position → Reader SettingsTree
  | 0, _, _ => none
  | fuel + 1, position, ts =>
    match ts with
    | .scalar text isPlain :: rest => some (scalar text isPlain, rest)
    | .openBracket :: rest => do
      let (items, rest) ← flowItems fuel rest
      return (.seq items, rest)
    | .openBrace :: rest => do
      let (members, rest) ← flowMembers fuel rest
      return (.map members, rest)
    | .blockSequence :: rest => do
      if position = .flow then none
      let (items, rest) ← blockItems fuel rest
      return (.seq items, rest)
    | .blockMapping :: rest => do
      if position = .flow then none
      let (members, rest) ← blockMembers fuel rest
      return (.map members, rest)
    | .dash :: _ => do
      if position ≠ .member then none
      let (items, rest) ← alignedItems fuel ts
      return (.seq items, rest)
    | _ => none

/-- The items of a flow sequence from its start or a comma on, up to its closing bracket. -/
def flowItems : (fuel : Nat) → Reader (List SettingsTree)
  | 0, _ => none
  | _ + 1, .closeBracket :: rest => some ([], rest)
  | fuel + 1, ts => do
    let (item, rest) ← flowItem (node fuel .flow) ts
    match rest with
    | .closeBracket :: rest => return ([item], rest)
    | .comma :: rest =>
      let (items, rest) ← flowItems fuel rest
      return (item :: items, rest)
    | _ => none

/-- The members of a flow mapping from its start or a comma on, up to its closing brace. -/
def flowMembers : (fuel : Nat) → Reader (List Member)
  | 0, _ => none
  | _ + 1, .closeBrace :: rest => some ([], rest)
  | fuel + 1, ts => do
    let (member, rest) ← flowMember (node fuel .flow) ts
    match rest with
    | .closeBrace :: rest => return ([member], rest)
    | .comma :: rest =>
      let (members, rest) ← flowMembers fuel rest
      return (member :: members, rest)
    | _ => none

/-- The items of a block sequence from a dash on, up to its end. -/
def blockItems : (fuel : Nat) → Reader (List SettingsTree)
  | 0, _ => none
  | _ + 1, .blockEnd :: rest => some ([], rest)
  | fuel + 1, .dash :: rest => do
    let (item, rest) ← orAbsent [.dash, .blockEnd] (node fuel .item) rest
    let (items, rest) ← blockItems fuel rest
    return (item :: items, rest)
  | _ + 1, _ => none

/-- The members of a block mapping from a key on, up to its end. -/
def blockMembers : (fuel : Nat) → Reader (List Member)
  | 0, _ => none
  | _ + 1, .blockEnd :: rest => some ([], rest)
  | fuel + 1, ts => do
    let (member, rest) ← blockMember (node fuel .member) ts
    let (members, rest) ← blockMembers fuel rest
    return (member :: members, rest)

/-- The items of a sequence in the column of the mapping around it, up to the next member. -/
def alignedItems : (fuel : Nat) → Reader (List SettingsTree)
  | 0, _ => none
  | fuel + 1, .dash :: rest => do
    let (item, rest) ← orAbsent [.dash, .key, .colon, .blockEnd] (node fuel .item) rest
    let (items, rest) ← alignedItems fuel rest
    return (item :: items, rest)
  | _ + 1, ts => some ([], ts)

end

/-! ### Documents -/

/-- A document, whose start may be marked. It may be empty only if it is. -/
def document (node : Reader SettingsTree) : Reader SettingsTree
  | .documentStart :: rest => orAbsent [.documentStart, .documentEnd] node rest
  | ts => node ts

/-- All documents from here on. The start of each but the first is marked. Each takes up some
    `fuel`, of which one more than the number of tokens suffices. -/
def documents (node : Reader SettingsTree) : (fuel : Nat) → List Token → Option (List SettingsTree)
  | 0, _ => none
  | _ + 1, [] => some []
  | fuel + 1, ts => do
    let (tree, rest) ← document node ts
    let rest := rest.dropWhile (· = .documentEnd)
    if rest.head?.all (· = .documentStart) then return tree :: (← documents node fuel rest)
    else none

def read? (s : String) : Option (List SettingsTree) := do
  let ts ← tokens? s
  documents (node (2 * ts.length + 2) .item) (ts.length + 1) ts

end GateTrace.Yaml
