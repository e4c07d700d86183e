import GateTrace.Operand

/-! # Values

    What a circuit definition computes with. While a definition is recorded its inputs are
    placeholders and builder operations answer with operands, and literals and lists mix in freely.
-/

namespace GateTrace

/-- A value held by a circuit definition. -/
inductive Value where
  /-- Not assigned yet. -/
  | nil
  | operand (op : Operand)
  | int (v : Int)
  | list (items : List Value)
deriving Inhabited, Repr

namespace Value

def isNil : Value → Bool
  | .nil => true
  | _ => false

def operand? : Value → Option Operand
  | .operand op => some op
  | _ => none

def items? : Value → Option (List Value)
  | .list items => some items
  | _ => none

/-- Number of elements; a value that is no list has none. -/
def length : Value → Nat
  | .list items => items.length
  | _ => 0

/-- The literal behind a value, where it is known without running the circuit: an integer, a
    constant, or one projection taken directly from a constant. -/
def constant? : Value → Option Int
  | .int v => some v
  | .operand (.const v) => some v
  | .operand (.proj (.const v) _ _) => some v
  | _ => none

/-- The value of shape `shape` that stands for `base`: one layer of projections per array
    dimension. -/
def placeholder : Shape → Operand → Value
  | .scalar, base => .operand base
  | .array len elem, base =>
    .list ((List.range len).map fun k => placeholder elem (.proj base k len))

mutual

/-- What a call site sees of a callee's output: each leaf becomes the chain of projections, rooted
    at the call's own node `base`, that leads to it. -/
def ofOutput : Operand → Operand → Value
  | .array items, base => .list (ofOutputItems items base items.length 0)
  | _, base => .operand base

/-- The values seen for the elements of an output array of `size` elements, from position `i`. -/
def ofOutputItems : List Operand → Operand → Nat → Nat → List Value
  | [], _, _, _ => []
  | x :: xs, base, size, i => ofOutput x (.proj base i size) :: ofOutputItems xs base size (i + 1)

end

end Value

end GateTrace
