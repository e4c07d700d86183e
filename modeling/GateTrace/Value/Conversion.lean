import GateTrace.Error

/-! # Reading values

    The partial views of a value: as an argument of a node, as a list, and by position. Each says
    which error or panic stands for "not that kind of value".
-/

namespace GateTrace.Value

mutual

/-- The operand that stands for a value: literals become constants and lists become arrays. The
    first unassigned value met is the error. -/
def toOperand : Value → Except Error Operand
  | .nil => .error (.unsupportedOperand .unassigned)
  | .operand op => .ok op
  | .int v => .ok (.const v)
  | .list items => do return .array (← toOperands items)

def toOperands : List Value → Except Error (List Operand)
  | [] => .ok []
  | x :: xs => do
    let op ← toOperand x
    let ops ← toOperands xs
    return op :: ops

end

theorem toOperands_eq_mapM (xs : List Value) : toOperands xs = xs.mapM toOperand := by
  induction xs with
  | nil => rfl
  | cons x xs ih => simp [toOperands, ih]

/-- The elements of a value that must be a list. -/
def toList : Value → Except Error (List Value)
  | .list items => .ok items
  | v => .error (.extraction (.notAList v))

/-- Element `i` of a value. -/
def element : Value → Nat → Except Panic Value
  | .list items, i =>
    match items[i]? with
    | some v => .ok v
    | none => .error (.outOfRange items.length i)
  | v, _ => .error (.notIndexable v)

/-- The value reached by taking elements along a path of positions. -/
def follow (v : Value) : List Nat → Except Panic Value
  | [] => .ok v
  | i :: path => do (← v.element i).follow path

end GateTrace.Value
