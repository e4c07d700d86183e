import GateTrace.GateKind
import GateTrace.Operand

/-! # Traces

    Running a circuit on placeholders records one node per operation. The position of a node in
    its trace is its identity: later nodes refer to it as `Operand.gate i`. A gadget is a trace
    with a signature; a call site holds the signature and the gadget's place in the table, never
    the body.
-/

namespace GateTrace

/-- What a call site needs to know of a gadget. -/
structure Signature where
  name : String
  /-- One argument per signal of the gadget's record. -/
  args : List Argument
  /-- The number of arguments that a call site has to give. -/
  arity : Nat := args.length
  /-- The value the gadget returns, over the gadget's own trace; `none` if it returns nothing. -/
  output : Option Operand
  outputShape : Option Shape
deriving Inhabited, Repr

/-- A handle to an extracted gadget: its signature, and its place in the gadget table, which is
    what tells two handles apart. -/
structure Callee extends Signature where
  id : Nat
deriving Inhabited, Repr

/-- What a node does. -/
inductive Op where
  | gate (kind : GateKind)
  | call (callee : Callee)
deriving Inhabited, Repr

/-- Name of an operation: that of the primitive or that of the gadget. -/
def Op.name : Op → String
  | .gate kind => kind.gateName
  | .call callee => callee.name

/-- Whether a node with this operation has a result that later nodes can refer to. -/
def Op.hasResult : Op → Bool
  | .gate kind => kind.style ≠ .assertion
  | .call callee => callee.output.isSome

structure Node where
  op : Op
  args : List Operand
deriving Inhabited, Repr

/-- The nodes a node reads, in the order they are met, with repetitions. -/
def Node.gates (n : Node) : List Nat := n.args.flatMap Operand.gates

/-- A sequence of nodes, each identified by its position. -/
abbrev Trace := List Node

/-- A sub-circuit that is extracted once and shared by every call site. -/
structure Gadget extends Signature where
  code : Trace
deriving Inhabited, Repr

/-- The handle of the gadget at place `id` of the table. -/
def Gadget.callee (g : Gadget) (id : Nat) : Callee := { g.toSignature with id }

end GateTrace
