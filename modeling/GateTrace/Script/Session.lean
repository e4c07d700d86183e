import GateTrace.Definition.Text
import GateTrace.Document
import GateTrace.Script

/-! # Sessions

    A dialogue with one extractor. A step is a statement, whose answer may be bound in a scope that
    all steps share, or a query. An error is an answer like any other; a panic ends the session.
-/

namespace GateTrace.Script

inductive Query where
  | code
  | takeCode
  | gadgets
  | findGadget (name : String)
  | field
  | census
  | graph
  /-- The definition of the current trace as a circuit. -/
  | circuitText (name : String) (params : List Argument)
  | gadgetTexts
  /-- Whether two handles belong to one gadget. -/
  | sameGadget (a b : String)
deriving Inhabited, Repr

inductive Step where
  | stmt (s : Stmt)
  | query (q : Query)
deriving Inhabited

inductive Reply where
  | answer (a : Except Error Answer)
  | code (t : Trace)
  | gadgets (gs : List Gadget)
  | gadget (g : Option Gadget)
  | field (f : ScalarField)
  | text (s : String)
  | same (b : Bool)
deriving Inhabited

/-- A reply, with the sizes of the current trace and of the gadget table after it. -/
structure Entry where
  reply : Reply
  codeLength : Nat
  gadgetCount : Nat
deriving Inhabited

/-- A session's replies, with what ended it early, if anything did. -/
structure Transcript where
  entries : List Entry
  ending : Option Stop
  journal : List Event
deriving Inhabited

def Query.reply (ex : Extractor) (s : Scope) : Query → Except Panic (Reply × Extractor)
  | .code => .ok (.code ex.code, ex)
  | .takeCode =>
    let (taken, ex) := ex.takeCode
    .ok (.code taken, ex)
  | .gadgets => .ok (.gadgets ex.gadgets, ex)
  | .findGadget name => .ok (.gadget (ex.gadgets.find? (·.name == name)), ex)
  | .field => .ok (.field ex.field, ex)
  | .census => .ok (.text (Census.ofCircuit ex.code ex.gadgets).text, ex)
  | .graph => .ok (.text (Graph.text ex.code), ex)
  | .circuitText name params => do
    return (.text (← Definition.ofCircuit name params ex.code).text, ex)
  | .gadgetTexts => do
    return (.text (Document.definitions (← ex.gadgets.mapM Definition.ofGadget)), ex)
  | .sameGadget a b =>
    let id (name : String) := (s.handles.lookup name).map (·.id)
    .ok (.same (id a == id b), ex)

def Stmt.target : Stmt → Option String
  | .mk _ _ target _ => target

/-- The reply to a step, with the extractor and the scope after it. -/
def Step.run (table : Table) (limit : Nat) (ex : Extractor) (s : Scope) :
    Step → Extractor × Except Stop (Reply × Scope)
  | .query q =>
    match q.reply ex s with
    | .ok (reply, ex) => (ex, .ok (reply, s))
    | .error p => (ex, .error (.panic p))
  | .stmt st =>
    match (st.program table (bodyProgram table limit) s).run ex with
    | (ex, .ok a) => (ex, .ok (.answer (.ok a), s.bind st.target (.ok a)))
    | (ex, .error (.error e)) => (ex, .ok (.answer (.error e), s.bind st.target (.error e)))
    | (ex, .error stop) => (ex, .error stop)

/-- Run the steps of a session from an extractor and a scope. -/
def converse (table : Table) (limit : Nat) : Extractor → Scope → List Step → Transcript
  | ex, _, [] => ⟨[], none, ex.journal⟩
  | ex, s, step :: steps =>
    match step.run table limit ex s with
    | (ex, .error stop) => ⟨[], some stop, ex.journal⟩
    | (ex, .ok (reply, s)) =>
      let t := converse table limit ex s steps
      { t with entries := ⟨reply, ex.code.length, ex.gadgets.length⟩ :: t.entries }

end GateTrace.Script
