import GateTrace.Shape

/-! # Operands

    What a recorded node takes as an argument. An operand refers to inputs of the enclosing circuit
    or gadget and to earlier nodes of the same trace by position, so a trace is closed under
    nothing but its own numbering.
-/

namespace GateTrace

/-- A symbolic value that appears as an argument of a recorded node. -/
inductive Operand where
  /-- The `i`-th signal of the enclosing circuit or gadget. -/
  | input (i : Nat)
  /-- The result of the node at position `i` of the current trace. -/
  | gate (i : Nat)
  /-- A literal field element. -/
  | const (v : Int)
  /-- Element `index` of `base`, an array of `size` elements. -/
  | proj (base : Operand) (index size : Nat)
  /-- An explicit array, possibly nested. -/
  | array (items : List Operand)
  /-- A bare number, such as a bit width. -/
  | nat (v : Int)
deriving Inhabited, Repr

namespace Operand

/-! ### Equality -/

mutual

def beq : Operand → Operand → Bool
  | .input i, .input j => i == j
  | .gate i, .gate j => i == j
  | .const v, .const w => v == w
  | .nat v, .nat w => v == w
  | .proj b i n, .proj c j m => beq b c && i == j && n == m
  | .array xs, .array ys => beqAll xs ys
  | _, _ => false

def beqAll : List Operand → List Operand → Bool
  | [], [] => true
  | x :: xs, y :: ys => beq x y && beqAll xs ys
  | _, _ => false

end

mutual

theorem eq_of_beq : ∀ {a b : Operand}, beq a b = true → a = b
  | .input _, b => by cases b <;> simp [beq]
  | .gate _, b => by cases b <;> simp [beq]
  | .const _, b => by cases b <;> simp [beq]
  | .nat _, b => by cases b <;> simp [beq]
  | .proj base i n, b => by
    cases b with
    | proj c j m =>
      simp only [beq, Bool.and_eq_true, beq_iff_eq, proj.injEq, and_imp]
      intro h hi hn
      exact ⟨eq_of_beq h, hi, hn⟩
    | _ => simp [beq]
  | .array xs, b => by
    cases b with
    | array ys =>
      simp only [beq, array.injEq]
      exact eq_of_beqAll
    | _ => simp [beq]

theorem eq_of_beqAll : ∀ {xs ys : List Operand}, beqAll xs ys = true → xs = ys
  | [], [] => fun _ => rfl
  | [], _ :: _ => by simp [beqAll]
  | _ :: _, [] => by simp [beqAll]
  | x :: xs, y :: ys => by
    simp only [beqAll, Bool.and_eq_true, List.cons.injEq, and_imp]
    intro h hs
    exact ⟨eq_of_beq h, eq_of_beqAll hs⟩

end

mutual

theorem beq_self : ∀ a : Operand, beq a a = true
  | .input _ | .gate _ | .const _ | .nat _ => by simp [beq]
  | .proj base _ _ => by simp [beq, beq_self base]
  | .array xs => by simp [beq, beqAll_self xs]

theorem beqAll_self : ∀ xs : List Operand, beqAll xs xs = true
  | [] => by simp [beqAll]
  | x :: xs => by simp [beqAll, beq_self x, beqAll_self xs]

end

instance : DecidableEq Operand := fun a b =>
  if h : beq a b = true then isTrue (eq_of_beq h)
  else isFalse fun he => h (he ▸ beq_self a)

/-! ### References -/

mutual

/-- The nodes an operand depends on, in the order they are met, with repetitions. -/
def gates : Operand → List Nat
  | .gate i => [i]
  | .proj base _ _ => gates base
  | .array items => gatesAll items
  | _ => []

def gatesAll : List Operand → List Nat
  | [] => []
  | x :: xs => gates x ++ gatesAll xs

end

theorem gatesAll_eq_flatMap (xs : List Operand) : gatesAll xs = xs.flatMap gates := by
  induction xs with
  | nil => rfl
  | cons x xs ih => simp [gatesAll, ih]

mutual

/-- The inputs an operand depends on, in the order they are met, with repetitions. -/
def inputs : Operand → List Nat
  | .input i => [i]
  | .proj base _ _ => inputs base
  | .array items => inputsAll items
  | _ => []

def inputsAll : List Operand → List Nat
  | [] => []
  | x :: xs => inputs x ++ inputsAll xs

end

/-! ### Shape -/

/-- The shape of the value an operand stands for. An array takes its inner dimensions from its
    first element, and the elements of an empty array count as scalars. -/
def shape : Operand → Shape
  | .array [] => .array 0 .scalar
  | .array (x :: xs) => .array (xs.length + 1) x.shape
  | _ => .scalar

end Operand

end GateTrace
