import GateTrace.ScalarField
import GateTrace.Trace
import GateTrace.Value.Conversion

/-! # Builder operations

    The operations a definition can ask for, with their values, and the node each one records. An
    operation is checked as a whole: either all its arguments stand for operands and it records one
    node, or it is an error and records nothing.
-/

namespace GateTrace

/-- A primitive operation on values. -/
inductive Operation where
  | add (a b : Value) (rest : List Value)
  | sub (a b : Value) (rest : List Value)
  | mul (a b : Value) (rest : List Value)
  | mulAcc (a b c : Value)
  | neg (a : Value)
  | div (a b : Value)
  | divUnchecked (a b : Value)
  | inverse (a : Value)
  | xor (a b : Value)
  | or (a b : Value)
  | and (a b : Value)
  | select (b a₁ a₂ : Value)
  | lookup (b₀ b₁ i₀ i₁ i₂ i₃ : Value)
  | isZero (a : Value)
  | cmp (a b : Value)
  | assertEqual (a b : Value)
  | assertDifferent (a b : Value)
  | assertBoolean (a : Value)
  | assertLessOrEqual (v bound : Value)
  /-- The bits of `a`, least significant first; without a width, as many as the field needs. -/
  | toBinary (a : Value) (width : Option Int)
  /-- The number whose bits are given, least significant first. -/
  | fromBinary (bits : List Value)
deriving Inhabited, Repr

namespace Operation

def kind : Operation → GateKind
  | add .. => .add
  | sub .. => .sub
  | mul .. => .mul
  | mulAcc .. => .mulAcc
  | neg .. => .neg
  | div .. => .div
  | divUnchecked .. => .divUnchecked
  | inverse .. => .inverse
  | xor .. => .xor
  | or .. => .or
  | and .. => .and
  | select .. => .select
  | lookup .. => .lookup
  | isZero .. => .isZero
  | cmp .. => .cmp
  | assertEqual .. => .assertEq
  | assertDifferent .. => .assertNotEq
  | assertBoolean .. => .assertIsBool
  | assertLessOrEqual .. => .assertLessOrEqual
  | toBinary .. => .toBinary
  | fromBinary .. => .fromBinary

/-- The values an operation is applied to, in order. The bits of `fromBinary` are one list. -/
def values : Operation → List Value
  | add a b rest | sub a b rest | mul a b rest => a :: b :: rest
  | mulAcc a b c | select a b c => [a, b, c]
  | neg a | inverse a | isZero a | assertBoolean a | toBinary a _ => [a]
  | div a b | divUnchecked a b | xor a b | or a b | and a b | cmp a b
  | assertEqual a b | assertDifferent a b | assertLessOrEqual a b => [a, b]
  | lookup b₀ b₁ i₀ i₁ i₂ i₃ => [b₀, b₁, i₀, i₁, i₂, i₃]
  | fromBinary bits => [.list bits]

/-- The number of bits of a decomposition. -/
def bitWidth (field : ScalarField) : Option Int → Nat
  | some w => w.toNat
  | none => field.bitLength

/-- What an operation demands beyond arguments that stand for operands: a width is not negative,
    and bits are at least one and none of them a list. -/
def check : Operation → Except Error Unit
  | toBinary _ (some w) => if w < 0 then .error (.invalidBitWidth w) else .ok ()
  | fromBinary [] => .error (.emptyInput "from_binary")
  | fromBinary (b :: bits) =>
    match (b :: bits).find? (·.items?.isSome) with
    | some v => .error (.unsupportedOperand (.nestedBits v))
    | none => .ok ()
  | _ => .ok ()

/-- The node an operation records. The width of a bit decomposition is a bare number, the second
    argument. -/
def node (field : ScalarField) (o : Operation) : Except Error Node := do
  o.check
  let args ← Value.toOperands o.values
  match o with
  | toBinary _ width => return ⟨.gate o.kind, args ++ [.nat (bitWidth field width)]⟩
  | _ => return ⟨.gate o.kind, args⟩

/-- What an operation recorded at position `p` answers: nothing for an assertion, the list of bits
    for a decomposition, and otherwise the node's own result. -/
def result (field : ScalarField) (p : Nat) : Operation → Value
  | assertEqual .. | assertDifferent .. | assertBoolean .. | assertLessOrEqual .. => .nil
  | toBinary _ width =>
    .placeholder (.array (bitWidth field width) .scalar) (.gate p)
  | _ => .operand (.gate p)

end Operation

end GateTrace
