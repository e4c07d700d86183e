import GateTrace.Extraction
import GateTrace.Proofs.Layout
import GateTrace.Proofs.Recording
import Mathlib.Logic.Relation

/-! # Recording step by step

    A run as a machine. `Program.run` answers only when a whole program is done; here a definition
    that waits for a gadget to be recorded is a frame on a stack, so every intermediate point of a
    run, with all suspended traces, is a state. The key ideas:

    - Each operation of a program is one step, with one rule for each way it can end.
    - A level remembers the operands its definition was handed so far. Nothing in a step depends on
      this history; it is there to say which values a definition may have built.
    - A frame remembers the extractor at the request that suspended it. A step leaves the outcome
      of every suspended request as `Program.run` has it.
-/

namespace GateTrace

/-- The operands that a value may be built from, besides literals and lists. -/
def Value.BuiltFrom (ops : List Operand) (v : Value) : Prop := ∀ op ∈ v.operands, op ∈ ops

instance (ops : List Operand) (v : Value) : Decidable (v.BuiltFrom ops) :=
  inferInstanceAs (Decidable (∀ op ∈ v.operands, op ∈ ops))

namespace Machine

/-! ### State -/

/-- A definition in progress. -/
structure Level where
  /-- The interface of the record it runs on. -/
  schema : Schema
  /-- The operands it was handed so far: placeholders and results. -/
  operands : List Operand

/-- The level of a caller that runs on no record. -/
def Level.client : Level := ⟨⟨"", [], []⟩, []⟩

/-- The level of a definition that runs on a record filled with placeholders. -/
def Level.ofRecord (s : Schema) (inner : Record) : Level := ⟨s, Value.operandsAll inner.values⟩

/-- The level after its definition was handed a value. -/
def Level.give (l : Level) (v : Value) : Level := { l with operands := l.operands ++ v.operands }

/-- A definition that waits for the gadget of `record`. -/
structure Frame where
  level : Level
  /-- The extractor when the gadget was asked for. -/
  ex : Extractor
  record : Record
  body : Record → Program
  next : Except Error Callee → Program

end Machine

/-- A point of a run. -/
structure Machine where
  /-- The extractor; its trace is that of the running definition. -/
  ex : Extractor
  level : Machine.Level
  /-- What the running definition is about to do. -/
  program : Program
  /-- The suspended definitions, the latest first. -/
  stack : List Machine.Frame

namespace Machine

/-- The extractor that the gadget of a frame starts from. -/
def Frame.begin (f : Frame) : Extractor :=
  { f.ex.note (.extractingGadget f.record.schema.uniqueName) with code := [] }

def Frame.request (f : Frame) : Program := .define f.record f.body f.next

/-! ### Steps -/

/-- One step of a run. -/
inductive Step : Machine → Machine → Prop
  | perform {ex ex' : Extractor} {level o next stack v} (h : ex.perform o = .ok (ex', v)) :
    Step ⟨ex, level, .perform o next, stack⟩ ⟨ex', level.give v, next (.ok v), stack⟩
  | performError {ex : Extractor} {level o next stack e} (h : ex.perform o = .error e) :
    Step ⟨ex, level, .perform o next, stack⟩ ⟨ex, level, next (.error e), stack⟩
  | invoke {ex ex' : Extractor} {level callee r next stack v}
    (h : ex.invoke callee r = .ok (ex', v)) :
    Step ⟨ex, level, .invoke callee r next, stack⟩ ⟨ex', level.give v, next (.ok v), stack⟩
  | invokeError {ex : Extractor} {level callee r next stack e}
    (h : ex.invoke callee r = .error e) :
    Step ⟨ex, level, .invoke callee r next, stack⟩ ⟨ex, level, next (.error e), stack⟩
  /-- The gadget is in the table. -/
  | reuse {ex : Extractor} {level r body next stack callee}
    (h : ex.find? r.schema.uniqueName = some callee) :
    Step ⟨ex, level, .define r body next, stack⟩
      ⟨ex.note (.reusedGadget r.schema.uniqueName), level, next (.ok callee), stack⟩
  /-- The record does not take its placeholders. -/
  | refuse {ex : Extractor} {level r body next stack inner e}
    (h : ex.find? r.schema.uniqueName = none)
    (hinner : r.withPlaceholders r.schema = (inner, .error e)) :
    Step ⟨ex, level, .define r body next, stack⟩
      ⟨ex.note (.extractingGadget r.schema.uniqueName), level, next (.error e), stack⟩
  /-- The gadget's definition starts, in a trace of its own. -/
  | enter {ex : Extractor} {level : Level} {r body next stack inner}
    (h : ex.find? r.schema.uniqueName = none)
    (hinner : r.withPlaceholders r.schema = (inner, .ok ())) :
    Step ⟨ex, level, .define r body next, stack⟩
      ⟨(⟨level, ex, r, body, next⟩ : Frame).begin, .ofRecord r.schema inner, body inner,
        ⟨level, ex, r, body, next⟩ :: stack⟩
  /-- The gadget's definition is done, and the gadget enters the table. -/
  | enroll {ex : Extractor} {level : Level} {a : Answer} {f : Frame} {stack output enrolled}
    (h : Extractor.output? a.toValue = .ok output)
    (henrolled : Extractor.enroll { ex with code := f.ex.code }
      (level.schema.gadget output ex.code) = enrolled) :
    Step ⟨ex, level, .done a, f :: stack⟩
      -- The trace that goes on is the caller's.
      ⟨enrolled.1, f.level, f.next (.ok enrolled.2), stack⟩
  /-- The gadget's output cannot be read. -/
  | enrollError {ex : Extractor} {level : Level} {a : Answer} {f : Frame} {stack e}
    (h : Extractor.output? a.toValue = .error e) :
    Step ⟨ex, level, .done a, f :: stack⟩
      ⟨{ ex with code := f.ex.code }, f.level, f.next (.error e), stack⟩
  /-- The gadget's definition failed. -/
  | fail {ex : Extractor} {level : Level} {e : Error} {f : Frame} {stack} :
    Step ⟨ex, level, .stop (.error e), f :: stack⟩
      ⟨{ ex with code := f.ex.code }, f.level, f.next (.error e), stack⟩

abbrev Steps : Machine → Machine → Prop := Relation.ReflTransGen Step

/-! ### Steps and runs -/

/-- Every suspended request ends as the run of its gadget's definition makes it end, `outcome`
    being that of the definition above it. -/
inductive Pending : Extractor × Except Stop Answer → Level → List Frame → Prop
  | nil {outcome level} : Pending outcome level []
  | cons {outcome} {level : Level} {f : Frame} {stack inner}
    (hfind : f.ex.find? f.record.schema.uniqueName = none)
    (hinner : f.record.withPlaceholders f.record.schema = (inner, .ok ()))
    (hschema : level.schema = f.record.schema)
    (hrun : (f.body inner).run f.begin = outcome)
    (hrest : Pending (f.request.run f.ex) f.level stack) :
    Pending outcome level (f :: stack)

theorem Pending.of_schema {outcome : Extractor × Except Stop Answer} {level level' : Level}
    {stack : List Frame} (h : Pending outcome level stack)
    (hschema : level'.schema = level.schema) : Pending outcome level' stack := by
  cases h with
  | nil => exact .nil
  | cons hfind hinner hlevel hrun hrest =>
    exact .cons hfind hinner (hschema.trans hlevel) hrun hrest

/-- The outcome of a request is decided by the run of the gadget's definition. -/
theorem Frame.run_request {f : Frame} {inner : Record}
    (hfind : f.ex.find? f.record.schema.uniqueName = none)
    (hinner : f.record.withPlaceholders f.record.schema = (inner, .ok ()))
    {outcome : Extractor × Except Stop Answer} (hrun : (f.body inner).run f.begin = outcome) :
    f.request.run f.ex =
      let settled := Extractor.settle f.record.schema f.ex.code
        (outcome.1, outcome.2.map Answer.toValue)
      match settled.2 with
      | .ok callee => (f.next (.ok callee)).run settled.1
      | .error (.error e) => (f.next (.error e)).run settled.1
      | .error s => (settled.1, .error s) := by
  subst hrun
  rw [Frame.request, Program.run_define, Extractor.define_of_find?_eq_none hfind hinner]
  rfl

/-- A step does not change how the suspended requests end. -/
theorem Step.pending {m m' : Machine} (hstep : Step m m')
    (h : Pending (m.program.run m.ex) m.level m.stack) :
    Pending (m'.program.run m'.ex) m'.level m'.stack := by
  cases hstep with
  | perform hop | performError hop | invoke hop | invokeError hop =>
    simp only [Program.run, hop] at h
    exact h.of_schema rfl
  | reuse hfind => simpa [Program.run, Extractor.define, hfind] using h
  | refuse hfind hinner =>
    simpa [Program.run, Extractor.define, Extractor.extract, hfind, hinner] using h
  | enter hfind hinner => exact .cons hfind hinner rfl rfl h
  | enroll hout henrolled =>
    cases h with
    | cons hfind hinner hschema hrun hrest =>
      -- The entry carries the schema of the level, which is that of the record asked for.
      rw [Frame.run_request hfind hinner hrun, ← hschema] at hrest
      simpa only [Program.run, Extractor.settle, Except.map, hout, henrolled] using hrest
  | enrollError hout =>
    cases h with
    | cons hfind hinner hschema hrun hrest =>
      rw [Frame.run_request hfind hinner hrun] at hrest
      simpa only [Program.run, Extractor.settle, Except.map, hout] using hrest
  | fail =>
    cases h with
    | cons hfind hinner hschema hrun hrest =>
      rw [Frame.run_request hfind hinner hrun] at hrest
      exact hrest

/-! ### Whole runs -/

/-- How a machine looks when its program has run to an answer or to an error. -/
def after (outcome : Extractor × Except Stop Answer) (level : Level) (stack : List Frame) :
    Machine where
  ex := outcome.1
  level := level
  program :=
    match outcome.2 with
    | .ok a => .done a
    | .error s => .stop s
  stack := stack

/-- Whether a run was not abandoned half-way. -/
def Ended (outcome : Extractor × Except Stop Answer) : Prop :=
  (∃ a, outcome.2 = .ok a) ∨ ∃ e, outcome.2 = .error (.error e)

/-- The steps from a request for a new gadget go through the gadget's definition and back to the
    caller, who goes on with the answer. -/
theorem Frame.request_reaches {f : Frame} {inner : Record} (stack : List Frame)
    (hfind : f.ex.find? f.record.schema.uniqueName = none)
    (hinner : f.record.withPlaceholders f.record.schema = (inner, .ok ()))
    (hinside : Ended ((f.body inner).run f.begin) → ∃ top : Level,
      top.schema = f.record.schema ∧
        Steps ⟨f.begin, .ofRecord f.record.schema inner, f.body inner, f :: stack⟩
          (after ((f.body inner).run f.begin) top (f :: stack)))
    (hend : Ended (f.request.run f.ex)) :
    ∃ x ex, f.request.run f.ex = (f.next x).run ex ∧
      Steps ⟨f.ex, f.level, f.request, stack⟩ ⟨ex, f.level, f.next x, stack⟩ := by
  have henter : Step ⟨f.ex, f.level, f.request, stack⟩
      ⟨f.begin, .ofRecord f.record.schema inner, f.body inner, f :: stack⟩ := .enter hfind hinner
  cases hbody : (f.body inner).run f.begin with
  | mk ex result =>
    rw [hbody] at hinside
    have hrequest := Frame.run_request hfind hinner hbody
    cases result with
    | error s =>
      cases s with
      | error e =>
        obtain ⟨top, -, hsteps⟩ := hinside (.inr ⟨e, rfl⟩)
        exact ⟨.error e, _, hrequest, .head henter (hsteps.trans (.single .fail))⟩
      | panic _ | tooDeep =>
        -- Such a definition does not end, and neither does the request.
        rw [hrequest] at hend
        simp [Ended, Extractor.settle, Except.map] at hend
    | ok a =>
      obtain ⟨top, htop, hsteps⟩ := hinside (.inl ⟨a, rfl⟩)
      simp only [Extractor.settle, Except.map] at hrequest
      cases hout : Extractor.output? a.toValue with
      | error e =>
        rw [hout] at hrequest
        exact ⟨.error e, _, hrequest, .head henter (hsteps.trans (.single (.enrollError hout)))⟩
      | ok output =>
        rw [hout] at hrequest
        have henroll : Step ⟨ex, top, .done a, f :: stack⟩ _ := .enroll hout rfl
        rw [htop] at henroll
        exact ⟨.ok _, _, hrequest, .head henter (hsteps.trans (.single henroll))⟩

/-- The steps from a program reach the outcome of its run, for the same record and with the same
    definitions waiting. -/
theorem run_reaches {p : Program} {ex : Extractor} (hend : Ended (p.run ex)) (level : Level)
    (stack : List Frame) :
    ∃ level', level'.schema = level.schema ∧
      Steps ⟨ex, level, p, stack⟩ (after (p.run ex) level' stack) := by
  induction p generalizing ex level stack with
  | done a => exact ⟨level, rfl, .refl⟩
  | stop s => exact ⟨level, rfl, .refl⟩
  | perform o next ih =>
    simp only [Program.run] at hend ⊢
    cases hop : ex.perform o with
    | ok answer =>
      obtain ⟨ex', v⟩ := answer
      simp only [hop] at hend ⊢
      obtain ⟨level', hschema, hsteps⟩ := ih (.ok v) hend (level.give v) stack
      exact ⟨level', hschema, .head (.perform hop) hsteps⟩
    | error e =>
      simp only [hop] at hend ⊢
      obtain ⟨level', hschema, hsteps⟩ := ih (.error e) hend level stack
      exact ⟨level', hschema, .head (.performError hop) hsteps⟩
  | invoke callee r next ih =>
    simp only [Program.run] at hend ⊢
    cases hop : ex.invoke callee r with
    | ok answer =>
      obtain ⟨ex', v⟩ := answer
      simp only [hop] at hend ⊢
      obtain ⟨level', hschema, hsteps⟩ := ih (.ok v) hend (level.give v) stack
      exact ⟨level', hschema, .head (.invoke hop) hsteps⟩
    | error e =>
      simp only [hop] at hend ⊢
      obtain ⟨level', hschema, hsteps⟩ := ih (.error e) hend level stack
      exact ⟨level', hschema, .head (.invokeError hop) hsteps⟩
  | define r body next ihBody ih =>
    cases hfind : ex.find? r.schema.uniqueName with
    | some callee =>
      simp only [Program.run, Extractor.define, hfind] at hend ⊢
      obtain ⟨level', hschema, hsteps⟩ := ih (.ok callee) hend level stack
      exact ⟨level', hschema, .head (.reuse hfind) hsteps⟩
    | none =>
      cases hinner : r.withPlaceholders r.schema with
      | mk inner result =>
        cases result with
        | error e =>
          simp only [Program.run, Extractor.define, Extractor.extract, hfind, hinner] at hend ⊢
          obtain ⟨level', hschema, hsteps⟩ := ih (.error e) hend level stack
          exact ⟨level', hschema, .head (.refuse hfind hinner) hsteps⟩
        | ok u =>
          -- The gadget's definition runs on top of the frame, and then the caller goes on.
          let f : Frame := ⟨level, ex, r, body, next⟩
          obtain ⟨x, ex', hrun, hrequest⟩ := f.request_reaches stack hfind hinner
            (fun hbody => ihBody inner hbody (.ofRecord r.schema inner) (f :: stack)) hend
          have hnext : (Program.define r body next).run ex = (next x).run ex' := hrun
          rw [hnext] at hend ⊢
          obtain ⟨level', hschema, hsteps⟩ := ih x hend level stack
          exact ⟨level', hschema, hrequest.trans hsteps⟩

/-! ### Sessions -/

def Idle (m : Machine) : Prop :=
  m.stack = [] ∧ ((∃ a, m.program = .done a) ∨ ∃ e, m.program = .stop (.error e))

/-- The points that a session with an extractor can come to, if every step is taken from a point
    that satisfies `guard`. Between programs the client may run another one, start a circuit on an
    empty trace, take the trace away, or enter events into the journal. -/
inductive Reachable (field : ScalarField) (guard : Machine → Prop) : Machine → Prop
  | start : Reachable field guard ⟨.start field, .client, .done .unit, []⟩
  | step {m m' : Machine} (hm : Reachable field guard m) (hguard : guard m) (hstep : Step m m') :
    Reachable field guard m'
  | resume {m : Machine} (hm : Reachable field guard m) (hidle : m.Idle) (p : Program) :
    Reachable field guard { m with program := p }
  | circuit {m : Machine} (hm : Reachable field guard m) (hidle : m.Idle) (hcode : m.ex.code = [])
    (c : Component) {inner : Record}
    (hinner : c.record.withPlaceholders c.record.schema = (inner, .ok ())) :
    Reachable field guard ⟨m.ex, .ofRecord c.record.schema inner, c.body inner, []⟩
  | takeCode {m : Machine} (hm : Reachable field guard m) (hidle : m.Idle) :
    Reachable field guard ⟨m.ex.takeCode.2, .client, .done .unit, []⟩
  | note {m : Machine} (hm : Reachable field guard m) (hidle : m.Idle) (e : Event) :
    Reachable field guard { m with ex := m.ex.note e }

theorem Reachable.mono {field : ScalarField} {guard guard' : Machine → Prop}
    (hsub : ∀ m, guard m → guard' m) {m : Machine} (hm : Reachable field guard m) :
    Reachable field guard' m := by
  induction hm with
  | start => exact .start
  | step _ hguard hstep ih => exact ih.step (hsub _ hguard) hstep
  | resume _ hidle p ih => exact ih.resume hidle p
  | circuit _ hidle hcode c hinner ih => exact ih.circuit hidle hcode c hinner
  | takeCode _ hidle ih => exact ih.takeCode hidle
  | note _ hidle e ih => exact ih.note hidle e

theorem Reachable.steps {field : ScalarField} {m m' : Machine}
    (hm : Reachable field (fun _ => True) m) (hsteps : Steps m m') :
    Reachable field (fun _ => True) m' := by
  induction hsteps with
  | refl => exact hm
  | tail _ hstep ih => exact ih.step trivial hstep

/-- Recording a circuit passes through a reachable point that holds the whole trace. -/
theorem Reachable.runCircuit {field : ScalarField} {m : Machine}
    (hm : Reachable field (fun _ => True) m) (hidle : m.Idle) (hcode : m.ex.code = [])
    {c : Component} {ex : Extractor} {schema : Schema} {code : Trace}
    (hrun : Extraction.runCircuit m.ex c = (ex, .ok (schema, code))) :
    ∃ m', Reachable field (fun _ => True) m' ∧ m'.Idle ∧ m'.level.schema = schema ∧
      m'.ex.code = code ∧ m'.ex.gadgets = ex.gadgets := by
  unfold Extraction.runCircuit at hrun
  cases hinner : c.record.withPlaceholders c.record.schema with
  | mk inner result =>
    cases result with
    | error e => simp [hinner] at hrun
    | ok u =>
      cases hdone : (c.body inner).run m.ex with
      | mk ex' outcome =>
        cases outcome with
        | error s => simp [hinner, hdone] at hrun
        | ok a =>
          -- A definition that answered has come to its end, so steps lead there from its beginning.
          have hend : Ended ((c.body inner).run m.ex) := .inl ⟨a, by rw [hdone]⟩
          obtain ⟨level, hschema, hsteps⟩ :=
            run_reaches hend (.ofRecord c.record.schema inner) []
          have hbegin := hm.circuit hidle hcode c hinner
          simp only [hinner, hdone, Prod.mk.injEq, Except.ok.injEq] at hrun
          obtain ⟨rfl, rfl, rfl⟩ := hrun
          refine ⟨_, hbegin.steps hsteps, ⟨rfl, .inl ⟨a, ?_⟩⟩, hschema, ?_, ?_⟩
          · simp [after, hdone]
          · simp [after, hdone]
          · simp [after, hdone, Extractor.takeCode]

end Machine

end GateTrace
