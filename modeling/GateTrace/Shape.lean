/-! # Shapes

    A signal is a single field element or an array of signals. A `Shape` says which, and an
    `Argument` is a named signal of known shape: one parameter of a circuit or of a gadget.
-/

namespace GateTrace

/-- The shape of an argument or of a gadget's output. -/
inductive Shape where
  /-- One field element. -/
  | scalar
  /-- `len` signals of one shape. -/
  | array (len : Nat) (elem : Shape)
deriving DecidableEq, Inhabited, Repr

/-- Array dimensions, outermost first; a scalar has none. -/
def Shape.dims : Shape → List Nat
  | .scalar => []
  | .array len elem => len :: elem.dims

structure Argument where
  name : String
  shape : Shape
deriving DecidableEq, Inhabited, Repr

end GateTrace
