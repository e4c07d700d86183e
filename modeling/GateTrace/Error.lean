import GateTrace.Text.Structure

/-! # Errors and panics

    What can stop a recording. An `Error` is an answer that a definition may handle and go on from;
    a `Panic` abandons the whole run. Each is a cause, and `message` is its wording.
-/

namespace GateTrace

/-- A failure that no definition can handle. -/
inductive Panic where
  /-- A position past the end of a table of `len` entries. -/
  | outOfRange (len index : Nat)
  /-- An element was asked of a value that is no list. -/
  | notIndexable (v : Value)
  /-- A choice was read from a mapping that has no members. -/
  | emptyMapping
  /-- Raised by a definition with a text. -/
  | raised (text : String)
  /-- Raised by a definition with something that is no text. -/
  | untold
deriving Inhabited, Repr

def Panic.message : Panic → String
  | .outOfRange len index =>
    "index out of bounds: the len is " ++ len.repr ++ " but the index is " ++ index.repr
  | .notIndexable v => "can't index into non-list value " ++ Text.value v
  | .emptyMapping => "unexpected end of mapping"
  | .raised text => text
  | .untold => "unknown panic payload"

/-- Why a value cannot be an argument of a node. -/
inductive Unsupported where
  | unassigned
  /-- A list stands where one bit is expected. -/
  | nestedBits (v : Value)
  /-- Raised by a definition. -/
  | raised (text : String)
deriving Inhabited, Repr

def Unsupported.message : Unsupported → String
  | .unassigned => "unassigned variable"
  | .nestedBits v =>
    "from_binary takes individual bits, not a nested list (" ++ Text.value v ++ ")"
  | .raised text => text

/-- A broken expectation between a record, its schema, a value or a call site. -/
inductive Mismatch where
  | notAList (v : Value)
  /-- A value that is no list was assigned to an array field. -/
  | notAssignable (field : String) (v : Value)
  /-- A fixed-size array got a list of another length. -/
  | arrayLength (expected actual : Nat)
  /-- A parameter field was assigned. -/
  | parameter (field : String)
  /-- A signal field of the record has no entry in the schema. -/
  | missingFromSchema (typeName field : String)
  /-- The schema's entry at a signal field's place has another name. -/
  | otherField (typeName listed field : String)
  /-- The schema lists a field after the record's last one. -/
  | missingFromRecord (typeName listed : String)
  | argumentCount (gadget : String) (expected actual : Nat)
  | formatting
  | panic (p : Panic)
  /-- Raised by a definition. -/
  | raised (text : String)
deriving Inhabited, Repr

def Mismatch.message : Mismatch → String
  | .notAList v => "expected a list, but got " ++ Text.value v
  | .notAssignable field v =>
    "can't assign non-list value " ++ Text.value v ++ " to array field `" ++ field ++ "`"
  | .arrayLength expected actual =>
    "expected an array of length " ++ expected.repr ++ ", but got " ++ actual.repr ++ " elements"
  | .parameter field => "can't assign a placeholder to parameter field `" ++ field ++ "`"
  | .missingFromSchema typeName field =>
    "field `" ++ field ++ "` of " ++ typeName ++ " is missing from its schema"
  | .otherField typeName listed field =>
    "schema of " ++ typeName ++ " lists field `" ++ listed ++ "`, but the record has `" ++ field ++
      "`"
  | .missingFromRecord typeName listed =>
    "schema of " ++ typeName ++ " lists field `" ++ listed ++ "`, which the record doesn't have"
  | .argumentCount gadget expected actual =>
    "gadget " ++ gadget ++ " takes " ++ expected.repr ++ " arguments, but the call site has " ++
      actual.repr
  | .formatting => "failed to format Lean output"
  | .panic p => p.message
  | .raised text => text

/-- Everything that can stop a recording short of a panic. -/
inductive Error where
  /-- An array field holds `actual` slots where the schema lists `expected`. -/
  | schemaMismatch (field : String) (expected actual : Nat)
  | invalidBitWidth (width : Int)
  /-- The operation needs at least one argument. -/
  | emptyInput (operation : String)
  | unsupportedOperand (cause : Unsupported)
  | extraction (cause : Mismatch)
deriving Inhabited, Repr

def Error.message : Error → String
  | .schemaMismatch field expected actual =>
    "field `" ++ field ++ "` has length " ++ actual.repr ++ ", but the schema expects " ++
      expected.repr
  | .invalidBitWidth width =>
    "number of bits in to_binary must be non-negative, got " ++ width.repr
  | .emptyInput operation => operation ++ " requires at least one argument"
  | .unsupportedOperand cause => "unsupported circuit argument: " ++ cause.message
  | .extraction cause => "panic extracting circuit to Lean: " ++ cause.message

/-- Why a run ended before its definition did. -/
inductive Stop where
  | error (e : Error)
  | panic (p : Panic)
  /-- Definitions nested deeper than the limit they are run under. -/
  | tooDeep
deriving Inhabited, Repr

end GateTrace
