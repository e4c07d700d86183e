import GateTrace.Operand

/-! # Collapsing complete runs

    An array literal `base[0], base[1], …, base[n-1]` over one vector `base` of `n` elements is
    the vector itself. `collapse` replaces every such literal, innermost first, so that a value
    passed on untouched is written by its name.
-/

namespace GateTrace.Operand

/-- Whether each operand is the projection of `base` out of `size` at its own position, counted
    from `start`. -/
def isRunOf (base : Operand) (size : Nat) : Nat → List Operand → Bool
  | _, [] => true
  | start, .proj b index n :: rest =>
    b = base && index = start && n = size && isRunOf base size (start + 1) rest
  | _, _ => false

/-- The vector that a nonempty list of operands spells out element by element, if there is one. -/
def wholeVector? (ops : List Operand) : Option Operand :=
  match ops with
  | .proj base _ _ :: _ => if isRunOf base ops.length 0 ops then some base else none
  | _ => none

mutual

/-- Replace every array literal that spells out a whole vector, bottom up, by that vector. -/
def collapse : Operand → Operand
  | .array items =>
    let items := collapseAll items
    (wholeVector? items).getD (.array items)
  | op => op

def collapseAll : List Operand → List Operand
  | [] => []
  | x :: xs => collapse x :: collapseAll xs

end

theorem collapseAll_eq_map (xs : List Operand) : collapseAll xs = xs.map collapse := by
  induction xs with
  | nil => rfl
  | cons x xs ih => simp [collapseAll, ih]

end GateTrace.Operand
