import GateTrace.Extractor

/-! # Programs

    The definition of a circuit or gadget, seen from the builder: the next operation it asks for,
    and how it goes on with the answer. A program is a well-founded tree, so running one is a
    structural recursion, however deep its gadgets nest, and a statement about all definitions is
    an induction on programs.
-/

namespace GateTrace

/-- What a finished program answers. -/
inductive Answer where
  /-- Done, with nothing to tell. -/
  | unit
  | value (v : Value)
  | handle (callee : Callee)
deriving Inhabited, Repr

/-- The value of an answer; one that is no value counts as unassigned. -/
def Answer.toValue : Answer → Value
  | .value v => v
  | _ => .nil

/-- A definition as a tree of builder operations. Every continuation gets the operation's answer or
    its error. -/
inductive Program where
  | done (a : Answer)
  | stop (s : Stop)
  /-- Record a primitive operation. -/
  | perform (o : Operation) (next : Except Error Value → Program)
  /-- Obtain the gadget of a record, whose definition is `body`. -/
  | define (r : Record) (body : Record → Program) (next : Except Error Callee → Program)
  /-- Call a gadget on the signals of a record. -/
  | invoke (callee : Callee) (r : Record) (next : Except Error Value → Program)

namespace Program

instance : Inhabited Program := ⟨.stop .tooDeep⟩

def ofExcept : Except Error Answer → Program
  | .ok a => .done a
  | .error e => .stop (.error e)

def ofPanic : Except Panic Answer → Program
  | .ok a => .done a
  | .error p => .stop (.panic p)

/-- Go on with `k` after `p`, whether `p` answers or fails. A panic is not gone on from. -/
def attempt (p : Program) (k : Except Error Answer → Program) : Program :=
  match p with
  | .done a => k (.ok a)
  | .stop (.error e) => k (.error e)
  | .stop s => .stop s
  | .perform o next => .perform o fun x => (next x).attempt k
  | .define r body next => .define r body fun x => (next x).attempt k
  | .invoke callee r next => .invoke callee r fun x => (next x).attempt k

def ofOperation (o : Operation) : Program :=
  .perform o fun
    | .ok v => if o.kind.style = .assertion then .done .unit else .done (.value v)
    | .error e => .stop (.error e)

/-- Obtain the gadget of a record and answer with its handle. -/
def handleOf (r : Record) (body : Record → Program) : Program :=
  .define r body fun x => ofExcept (x.map .handle)

/-- Call a gadget and answer with what the call site sees of its output. -/
def ofInvoke (callee : Callee) (r : Record) : Program :=
  .invoke callee r fun x => ofExcept (x.map .value)

/-- Obtain the gadget of a record and call it on that record. -/
def call (r : Record) (body : Record → Program) : Program :=
  .define r body fun
    | .ok callee => ofInvoke callee r
    | .error e => .stop (.error e)

/-- Obtain the gadget of a record and call it on that record, with nothing to tell. -/
def callVoid (r : Record) (body : Record → Program) : Program :=
  (call r body).attempt fun
    | .ok _ => .done .unit
    | .error e => .stop (.error e)

/-- Obtain the gadget of a record, call it on that record, and read the answer as a signal of a
    type. -/
def callAs (type : SignalType) (r : Record) (body : Record → Program) : Program :=
  (call r body).attempt fun
    | .ok a => ofExcept do return .value (← Signal.ofValue type a.toValue).toValue
    | .error e => .stop (.error e)

/-- Run a program. The extractor is answered in every case; after a panic only its journal is of
    interest. -/
def run : Program → Extractor → Extractor × Except Stop Answer
  | .done a, ex => (ex, .ok a)
  | .stop s, ex => (ex, .error s)
  | .perform o next, ex =>
    match ex.perform o with
    | .ok (ex, v) => (next (.ok v)).run ex
    | .error e => (next (.error e)).run ex
  | .define r body next, ex =>
    let defined := ex.define r fun inner ex =>
      let done := (body inner).run ex
      (done.1, done.2.map Answer.toValue)
    match defined.2 with
    | .ok callee => (next (.ok callee)).run defined.1
    | .error (.error e) => (next (.error e)).run defined.1
    | .error s => (defined.1, .error s)
  | .invoke callee r next, ex =>
    match ex.invoke callee r with
    | .ok (ex, v) => (next (.ok v)).run ex
    | .error e => (next (.error e)).run ex

/-- To go on after a program is to run it and then the rest, unless it panics. -/
theorem run_attempt (p : Program) (k : Except Error Answer → Program) (ex : Extractor) :
    (p.attempt k).run ex =
      match (p.run ex).2 with
      | .ok a => (k (.ok a)).run (p.run ex).1
      | .error (.error e) => (k (.error e)).run (p.run ex).1
      | .error s => ((p.run ex).1, .error s) := by
  induction p generalizing ex with
  | done a => rfl
  | stop s => cases s <;> rfl
  | perform o next ih =>
    simp only [attempt, run]
    split <;> exact ih _ _
  | define r body next _ ih =>
    simp only [attempt, run]
    split
    · exact ih _ _
    · exact ih _ _
    · next s hs _ => cases s <;> simp_all
  | invoke callee r next ih =>
    simp only [attempt, run]
    split <;> exact ih _ _

end Program

/-- A circuit or gadget: its interface, and the definition that runs on the record once its signals
    are placeholders. -/
structure Component where
  record : Record
  body : Record → Program

instance : Inhabited Component := ⟨⟨default, fun _ => .done .unit⟩⟩

/-- Run a component's definition on a record, for its value. -/
def Component.runOn (c : Component) (inner : Record) (ex : Extractor) :
    Extractor × Except Stop Value :=
  let done := (c.body inner).run ex
  (done.1, done.2.map Answer.toValue)

def Component.define (c : Component) (ex : Extractor) : Extractor × Except Stop Callee :=
  ex.define c.record c.runOn

end GateTrace
