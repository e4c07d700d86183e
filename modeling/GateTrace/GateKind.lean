/-! # Primitive operations

    The fixed set of operations a trace can record. Each has a style, which decides how its node
    reads as a proposition, and a name in the structure of gates that the propositions refer to.
-/

namespace GateTrace

/-- A primitive operation. -/
inductive GateKind where
  | add
  | mulAcc
  | neg
  | sub
  | mul
  | div
  | divUnchecked
  | inverse
  | toBinary
  | fromBinary
  | xor
  | or
  | and
  | select
  | lookup
  | isZero
  | cmp
  | assertEq
  | assertNotEq
  | assertIsBool
  | assertLessOrEqual
deriving DecidableEq, Inhabited, Repr

/-- How an operation reads as a proposition about its result `g`. -/
inductive GateStyle where
  /-- `∃g, g = op args ∧ …`: the result is a function of the arguments. -/
  | functional
  /-- `∃g, op args g ∧ …`: the result is related to the arguments. -/
  | callback
  /-- `op args ∧ …`: there is no result. -/
  | assertion
deriving DecidableEq, Inhabited, Repr

namespace GateKind

def style : GateKind → GateStyle
  | add | mulAcc | neg | sub | mul | fromBinary => .functional
  | div | divUnchecked | inverse | toBinary | xor | or | and | select | lookup | isZero | cmp =>
    .callback
  | assertEq | assertNotEq | assertIsBool | assertLessOrEqual => .assertion

/-- Whether an operation takes any number of operands, as a chain of binary steps. -/
def isVariadic : GateKind → Bool
  | add | sub | mul => true
  | _ => false

/-- Name of the operation in the structure of gates. -/
def gateName : GateKind → String
  | add => "add"
  | mulAcc => "mul_acc"
  | neg => "neg"
  | sub => "sub"
  | mul => "mul"
  | div => "div"
  | divUnchecked => "div_unchecked"
  | inverse => "inv"
  | toBinary => "to_binary"
  | fromBinary => "from_binary"
  | xor => "xor"
  | or => "or"
  | and => "and"
  | select => "select"
  | lookup => "lookup"
  | isZero => "is_zero"
  | cmp => "cmp"
  | assertEq => "eq"
  | assertNotEq => "ne"
  | assertIsBool => "is_bool"
  | assertLessOrEqual => "le"

/-- Name of the operation as it labels a node of a dependency graph. -/
def label : GateKind → String
  | add => "Add"
  | mulAcc => "MulAcc"
  | neg => "Neg"
  | sub => "Sub"
  | mul => "Mul"
  | div => "Div"
  | divUnchecked => "DivUnchecked"
  | inverse => "Inverse"
  | toBinary => "ToBinary"
  | fromBinary => "FromBinary"
  | xor => "Xor"
  | or => "Or"
  | and => "And"
  | select => "Select"
  | lookup => "Lookup"
  | isZero => "IsZero"
  | cmp => "Cmp"
  | assertEq => "AssertEq"
  | assertNotEq => "AssertNotEq"
  | assertIsBool => "AssertIsBool"
  | assertLessOrEqual => "AssertLessOrEqual"

/-- Every operation, each once. -/
def all : List GateKind :=
  [add, mulAcc, neg, sub, mul, div, divUnchecked, inverse, toBinary, fromBinary, xor, or, and,
    select, lookup, isZero, cmp, assertEq, assertNotEq, assertIsBool, assertLessOrEqual]

def ofLabel? (s : String) : Option GateKind := all.find? (·.label == s)

end GateKind

end GateTrace
