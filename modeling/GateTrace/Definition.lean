import GateTrace.Operand.Collapse
import GateTrace.Error
import GateTrace.Trace

/-! # Definitions

    A trace read as a proposition. Every node becomes a line of a conjunction that extends to the
    end of the definition: a result is introduced by an existential binder, or by a continuation
    where a gadget is called, and its name is in scope on all lines that follow. Only nodes whose
    results are referred to somewhere get a name of their own.
-/

namespace GateTrace

/-- An expression of a definition. -/
inductive Term where
  | var (name : String)
  /-- A field element. -/
  | const (v : Int)
  /-- A bare number. -/
  | nat (v : Int)
  /-- An element of a vector. -/
  | get (vector : Term) (index : Nat)
  /-- A vector given by its elements. -/
  | vec (items : List Term)
deriving Inhabited, Repr

/-- One line of a definition. The rest of the definition stands in place of the dots. -/
inductive Line where
  /-- `∃x, x = gate args ∧ …` -/
  | equation (x : String) (gate : GateKind) (args : List Term)
  /-- `∃x, gate args x ∧ …` -/
  | relation (x : String) (gate : GateKind) (args : List Term)
  /-- `gate args ∧ …` -/
  | assertion (gate : GateKind) (args : List Term)
  /-- `gadget args fun x => …` -/
  | bind (x : String) (gadget : String) (args : List Term)
  /-- `gadget args ∧ …` -/
  | condition (gadget : String) (args : List Term)
deriving Inhabited, Repr

/-- A proposition about named arguments. -/
structure Definition where
  name : String
  params : List Argument
  /-- Shape of the value handed to the continuation, for a definition that takes one. -/
  continuation : Option Shape
  lines : List Line
  /-- The value handed to the continuation; without one the definition ends in `True`. -/
  result : Option Term
deriving Inhabited, Repr

namespace Definition

/-! ### Names -/

/-- The name of a result that nothing refers to. -/
def ignored : String := "_ignored_"

/-- The name of the result of node `i`, if it is among those referred to. -/
def gateName? (used : List Nat) (i : Nat) : Option String :=
  if i ∈ used then some ("gate_" ++ i.repr) else none

/-- The nodes a trace and its output refer to, in the order they are met. -/
def references (code : Trace) (output : Option Operand) : List Nat :=
  code.flatMap Node.gates ++ (output.map Operand.gates).getD []

/-- Every node referred to must be one of the trace: the first that is not is a panic. -/
def checkReferences (code : Trace) (output : Option Operand) : Except Panic Unit :=
  match (references code output).find? (code.length ≤ ·) with
  | some i => .error (.outOfRange code.length i)
  | none => .ok ()

/-! ### Terms -/

mutual

/-- The term of an operand. An input past the last argument is a panic. -/
def term (params : List Argument) (used : List Nat) : Operand → Except Panic Term
  | .input i =>
    match params[i]? with
    | some arg => .ok (.var arg.name)
    | none => .error (.outOfRange params.length i)
  | .gate i => .ok (.var ((gateName? used i).getD ignored))
  | .const v => .ok (.const v)
  | .nat v => .ok (.nat v)
  | .proj base index _ => do return .get (← term params used base) index
  | .array items => do return .vec (← terms params used items)

def terms (params : List Argument) (used : List Nat) : List Operand → Except Panic (List Term)
  | [] => .ok []
  | x :: xs => do
    let t ← term params used x
    let ts ← terms params used xs
    return t :: ts

end

theorem terms_eq_mapM (params : List Argument) (used : List Nat) (xs : List Operand) :
    terms params used xs = xs.mapM (term params used) := by
  induction xs with
  | nil => rfl
  | cons x xs ih => simp [terms, ih]

/-! ### Lines -/

/-- The lines of a primitive operation whose result is `x`. More than two operands of a variadic
    operation are taken in one by one, from the left, each step rebinding `x`. -/
def gateLines (kind : GateKind) (x : String) (args : List Term) : List Line :=
  match kind.style with
  | .functional =>
    match kind.isVariadic, args with
    -- Each step after the first takes the result so far and one more operand.
    | true, a :: b :: c :: rest =>
      .equation x kind [a, b] :: (c :: rest).map fun arg => .equation x kind [.var x, arg]
    | _, args => [.equation x kind args]
  | .callback => [.relation x kind args]
  | .assertion => [.assertion kind args]

/-- The lines of an operation, given the name of its result if that is referred to. -/
def opLines (op : Op) (x? : Option String) (args : List Term) : List Line :=
  match op with
  | .gate kind => gateLines kind (x?.getD ignored) args
  | .call callee =>
    match callee.output with
    | some _ => [.bind (x?.getD "_") callee.name args]
    | none => [.condition callee.name args]

/-- The lines of the nodes from position `i` on. -/
def codeLines (params : List Argument) (used : List Nat) : Nat → Trace → Except Panic (List Line)
  | _, [] => .ok []
  | i, n :: code => do
    let args ← terms params used (Operand.collapseAll n.args)
    let lines ← codeLines params used (i + 1) code
    return opLines n.op (gateName? used i) args ++ lines

/-! ### Definitions of traces -/

/-- The definition of a trace: complete runs of projections are collapsed before they are read. -/
def ofTrace (name : String) (params : List Argument) (continuation : Option Shape) (code : Trace)
    (output : Option Operand) : Except Panic Definition := do
  checkReferences code output
  let used := references code output
  let lines ← codeLines params used 0 code
  let result ← match output with
    | some op => do pure (some (← term params used op.collapse))
    | none => pure none
  return { name, params, continuation, lines, result }

/-- The definition of a circuit, which has no continuation. -/
def ofCircuit (name : String) (params : List Argument) (code : Trace) : Except Panic Definition :=
  ofTrace name params none code none

/-- The definition of a gadget, which hands its output to a continuation. -/
def ofGadget (g : Gadget) : Except Panic Definition :=
  ofTrace g.name g.args g.outputShape g.code g.output

end Definition

end GateTrace
