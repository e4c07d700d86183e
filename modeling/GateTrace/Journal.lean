import GateTrace.Census
import GateTrace.Error
import GateTrace.Graph

/-! # Journal

    What a run has to say about itself. An event records what happened; its wording is made only
    when the journal is read, at the level of detail the reader asks for.
-/

namespace GateTrace

/-- How much an event matters, the gravest first. -/
inductive Severity where
  | error
  | warn
  | info
  | debug
  | trace
deriving DecidableEq, Inhabited, Repr

/-- Place of a severity, counted from the gravest. -/
def Severity.rank : Severity → Nat
  | error => 0
  | warn => 1
  | info => 2
  | debug => 3
  | trace => 4

/-- Name of a severity, as it opens a message. -/
def Severity.label : Severity → String
  | error => "ERROR"
  | warn => "WARN"
  | info => "INFO"
  | debug => "DEBUG"
  | trace => "TRACE"

/-- Something that happened during a run. -/
inductive Event where
  /-- A node was recorded at a position. -/
  | recorded (position : Nat) (node : Node)
  | extractingGadget (name : String)
  | reusedGadget (name : String)
  | sealedGadget (name : String) (size : Nat)
  | circuitFile (typeName scope : String)
  | gadgetFile (typeName scope : String)
  | circuitBatch (count : Nat) (scope : String)
  | gadgetBatch (count : Nat) (scope : String)
  | skippedCircuit (name : String)
  | circuitRecorded (name : String) (size : Nat)
  | counted (code : Trace) (gadgets : List Gadget)
  | graphed (name : String) (code : Trace)
  /-- A panic was turned into an error. -/
  | panicked (e : Error)
deriving Inhabited, Repr

def Event.severity : Event → Severity
  | recorded .. | graphed .. => .trace
  | extractingGadget .. | reusedGadget .. | sealedGadget .. | skippedCircuit ..
  | circuitRecorded .. | counted .. => .debug
  | circuitFile .. | gadgetFile .. | circuitBatch .. | gadgetBatch .. => .info
  | panicked .. => .error

def Event.text : Event → String
  | recorded position node =>
    "gate_" ++ position.repr ++ " = " ++ node.op.name ++ " " ++
      Text.bracketed (Text.operands node.args)
  | extractingGadget name => "extracting gadget " ++ name
  | reusedGadget name => "reusing gadget " ++ name
  | sealedGadget name size => "sealed gadget " ++ name ++ " with " ++ size.repr ++ " gates"
  | circuitFile typeName scope =>
    "extracting circuit " ++ typeName ++ " into namespace " ++ scope
  | gadgetFile typeName scope => "extracting gadget " ++ typeName ++ " into namespace " ++ scope
  | circuitBatch count scope =>
    "extracting " ++ count.repr ++ " circuits into namespace " ++ scope
  | gadgetBatch count scope => "extracting " ++ count.repr ++ " gadgets into namespace " ++ scope
  | skippedCircuit name => "skipping duplicate circuit " ++ name
  | circuitRecorded name size => "circuit " ++ name ++ " recorded " ++ size.repr ++ " gates"
  | counted code gadgets => "gate counts:\n" ++ (Census.ofCircuit code gadgets).text
  | graphed name code => "dependency graph of " ++ name ++ ":\n" ++ Graph.text code
  | panicked e => e.message ++ " (rerun with RUST_BACKTRACE=1 for the stack of the panic)"

def Event.message (e : Event) : String := e.severity.label ++ " " ++ e.text

/-- The messages of a journal that matter at least as much as `limit`, in order. -/
def Event.messages (limit : Severity) (journal : List Event) : List String :=
  (journal.filter (·.severity.rank ≤ limit.rank)).map Event.message

end GateTrace
