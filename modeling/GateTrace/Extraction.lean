import GateTrace.Config
import GateTrace.Program

/-! # Extraction

    From circuits and gadgets to a document. A circuit is recorded on placeholders and defined
    after all gadgets it came to need. Circuits of one batch share the gadget table, and each
    unique name is defined once. A panic of a definition becomes an error of the extraction.
-/

namespace GateTrace

/-- The result of an extraction, with what happened on the way. -/
structure Extraction where
  /-- The document, or what stopped the extraction, which is never a panic. -/
  result : Except Stop Document
  journal : List Event
deriving Inhabited

namespace Extraction

/-- Turn a panic into an error that carries its wording, and say so in the journal. -/
def guarded (opening : Event) : Extractor × Except Stop Document → Extraction
  | (ex, .error (.panic p)) =>
    let e := .extraction (.panic p)
    ⟨.error (.error e), opening :: ex.journal ++ [.panicked e]⟩
  | (ex, result) => ⟨result, opening :: ex.journal⟩

def orPanic {α : Type} : Except Panic α → Except Stop α := Except.mapError .panic

/-! ### Circuits -/

/-- Record a circuit on placeholders and take its trace. -/
def runCircuit (ex : Extractor) (c : Component) : Extractor × Except Stop (Schema × Trace) :=
  let schema := c.record.schema
  let inner := c.record.withPlaceholders schema
  match inner.2 with
  | .error e => (ex, .error (.error e))
  | .ok () =>
    let done := (c.body inner.1).run ex
    match done.2 with
    | .error s => (done.1, .error s)
    | .ok _ =>
      -- The trace goes with the circuit; the gadgets stay for the circuits after it.
      let code := done.1.code
      let ex := done.1.takeCode.2
      let ex := ex.note (.circuitRecorded schema.uniqueName code.length)
      let ex := ex.note (.counted code ex.gadgets)
      (ex.note (.graphed schema.uniqueName code), .ok (schema, code))

/-- The document of one circuit, which is defined as `circuit`. -/
def ofCircuit (cfg : Config) (c : Component) : Extraction :=
  let scope := cfg.scopeOr c.record.typeName
  guarded (.circuitFile c.record.typeName scope) <|
    match runCircuit (.start cfg.field) c with
    | (ex, .error s) => (ex, .error s)
    | (ex, .ok (schema, code)) =>
      (ex, orPanic do
        let definition ← Definition.ofCircuit "circuit" schema.args code
        let gadgets ← ex.gadgets.mapM Definition.ofGadget
        return cfg.document scope gadgets [definition])

/-- The definitions of a batch of circuits, each unique name once, under those names. `seen` are
    the names defined so far. -/
def runBatch : Extractor → List String → List Component → Extractor × Except Stop (List Definition)
  | ex, _, [] => (ex, .ok [])
  | ex, seen, c :: cs =>
    let name := c.record.schema.uniqueName
    if name ∈ seen then runBatch (ex.note (.skippedCircuit name)) seen cs
    else
      match runCircuit ex c with
      | (ex, .error s) => (ex, .error s)
      | (ex, .ok (schema, code)) =>
        match Definition.ofCircuit name schema.args code with
        | .error p => (ex, .error (.panic p))
        | .ok definition =>
          let others := runBatch ex (name :: seen) cs
          (others.1, others.2.map (definition :: ·))

/-- The document of a batch of circuits over one gadget table. -/
def ofCircuits (cfg : Config) (scope : String) (cs : List Component) : Extraction :=
  let scope := cfg.scopeOr scope
  guarded (.circuitBatch cs.length scope) <|
    match runBatch (.start cfg.field) [] cs with
    | (ex, .error s) => (ex, .error s)
    | (ex, .ok circuits) =>
      (ex, orPanic do
        let gadgets ← ex.gadgets.mapM Definition.ofGadget
        return cfg.document scope gadgets circuits)

/-! ### Gadgets -/

/-- Define gadgets one after the other, up to the first that fails. -/
def defineAll : Extractor → List Component → Extractor × Except Stop Unit
  | ex, [] => (ex, .ok ())
  | ex, c :: cs =>
    match c.define ex with
    | (ex, .error s) => (ex, .error s)
    | (ex, .ok _) => defineAll ex cs

/-- The document of the gadgets `cs` and of all that they call. -/
def document (cfg : Config) (scope : String) (cs : List Component) :
    Extractor × Except Stop Document :=
  match defineAll (.start cfg.field) cs with
  | (ex, .error s) => (ex, .error s)
  | (ex, .ok ()) =>
    let ex := ex.note (.counted [] ex.gadgets)
    (ex, orPanic do
      let gadgets ← ex.gadgets.mapM Definition.ofGadget
      return cfg.document scope gadgets [])

def ofGadget (cfg : Config) (c : Component) : Extraction :=
  let scope := cfg.scopeOr c.record.typeName
  guarded (.gadgetFile c.record.typeName scope) (document cfg scope [c])

/-- The document of several gadgets; each unique name is defined once. -/
def ofGadgets (cfg : Config) (scope : String) (cs : List Component) : Extraction :=
  let scope := cfg.scopeOr scope
  guarded (.gadgetBatch cs.length scope) (document cfg scope cs)

end Extraction

end GateTrace
