import GateTrace.Journal
import GateTrace.Operation
import GateTrace.Record

/-! # The extractor

    The state of a recording: the trace at the current level and the table of gadgets extracted so
    far. Each builder operation appends one node to the trace. A gadget is recorded into a fresh
    trace of its own, sealed, and from then on found by name; the trace of the level that asked for
    it is put back whatever became of the gadget.
-/

namespace GateTrace

/-- A recording in progress. -/
structure Extractor where
  field : ScalarField
  /-- The trace recorded so far at the current level. -/
  code : Trace
  /-- The gadgets extracted so far, in the order they were sealed. -/
  gadgets : List Gadget
  /-- What happened so far, in order. -/
  journal : List Event
deriving Inhabited, Repr

namespace Extractor

def start (field : ScalarField) : Extractor := ⟨field, [], [], []⟩

def note (ex : Extractor) (e : Event) : Extractor := { ex with journal := ex.journal ++ [e] }

def push (ex : Extractor) (n : Node) : Extractor :=
  { ex.note (.recorded ex.code.length n) with code := ex.code ++ [n] }

@[simp] theorem note_field (ex : Extractor) (e : Event) : (ex.note e).field = ex.field := rfl

@[simp] theorem note_code (ex : Extractor) (e : Event) : (ex.note e).code = ex.code := rfl

@[simp] theorem note_gadgets (ex : Extractor) (e : Event) : (ex.note e).gadgets = ex.gadgets := rfl

@[simp] theorem push_field (ex : Extractor) (n : Node) : (ex.push n).field = ex.field := rfl

@[simp] theorem push_code (ex : Extractor) (n : Node) : (ex.push n).code = ex.code ++ [n] := rfl

@[simp] theorem push_gadgets (ex : Extractor) (n : Node) : (ex.push n).gadgets = ex.gadgets := rfl

/-- The handle of the first gadget of a given name. -/
def find? (ex : Extractor) (name : String) : Option Callee :=
  (ex.gadgets.zipIdx.find? (·.1.name == name)).map fun (g, id) => g.callee id

/-- Take the current trace away. The gadgets stay. -/
def takeCode (ex : Extractor) : Trace × Extractor := (ex.code, { ex with code := [] })

/-! ### Operations -/

/-- Record a primitive operation. An error changes nothing. -/
def perform (ex : Extractor) (o : Operation) : Except Error (Extractor × Value) := do
  let node ← o.node ex.field
  return (ex.push node, o.result ex.field ex.code.length)

/-- Record a call of a gadget on the signals of a record. An error changes nothing. -/
def invoke (ex : Extractor) (callee : Callee) (r : Record) : Except Error (Extractor × Value) := do
  -- The number of arguments is checked before any of them is read.
  if r.values.length ≠ callee.arity then
    throw (.extraction (.argumentCount callee.name callee.arity r.values.length))
  let args ← Value.toOperands r.values
  let result := match callee.output with
    | some output => .ofOutput output (.gate ex.code.length)
    | none => .nil
  return (ex.push ⟨.call callee, args⟩, result)

/-! ### Gadgets -/

/-- The output of a gadget whose definition returned `v`. -/
def output? : Value → Except Error (Option Operand)
  | .nil => .ok none
  | v => do return some (← v.toOperand)

/-- Enter a recorded gadget into the table. -/
def enroll (ex : Extractor) (g : Gadget) : Extractor × Callee :=
  ({ ex.note (.sealedGadget g.name g.code.length) with gadgets := ex.gadgets ++ [g] },
    g.callee ex.gadgets.length)

@[simp] theorem enroll_field (ex : Extractor) (g : Gadget) :
    (ex.enroll g).1.field = ex.field := rfl

@[simp] theorem enroll_code (ex : Extractor) (g : Gadget) : (ex.enroll g).1.code = ex.code := rfl

@[simp] theorem enroll_gadgets (ex : Extractor) (g : Gadget) :
    (ex.enroll g).1.gadgets = ex.gadgets ++ [g] := rfl

/-- Record the gadget `r` on placeholders, in a trace of its own, and seal it. `run` is the
    definition, which gets the record filled with placeholders. -/
def extract (ex : Extractor) (r : Record)
    (run : Record → Extractor → Extractor × Except Stop Value) : Extractor × Except Stop Callee :=
  let schema := r.schema
  let ex := ex.note (.extractingGadget schema.uniqueName)
  let inner := r.withPlaceholders schema
  match inner.2 with
  | .error e => (ex, .error (.error e))
  | .ok () =>
    let done := run inner.1 { ex with code := [] }
    -- The gadgets found on the way are kept, and the caller's trace is put back, also on failure.
    let outer := { done.1 with code := ex.code }
    match done.2 with
    | .error s => (outer, .error s)
    | .ok v =>
      match output? v with
      | .error e => (outer, .error (.error e))
      | .ok output =>
        let sealed := outer.enroll
          { name := schema.uniqueName, args := schema.args, arity := schema.arity, output,
            outputShape := output.map Operand.shape, code := done.1.code }
        (sealed.1, .ok sealed.2)

/-- The gadget of `r`: the one in the table under its unique name, or else a new one. -/
def define (ex : Extractor) (r : Record)
    (run : Record → Extractor → Extractor × Except Stop Value) : Extractor × Except Stop Callee :=
  let name := r.schema.uniqueName
  match ex.find? name with
  | some callee => (ex.note (.reusedGadget name), .ok callee)
  | none => ex.extract r run

end Extractor

end GateTrace
