import GateTrace.Program
import GateTrace.Script.Stmt

/-! # Scripts

    Circuits and gadgets as data. A record is built from its expressions, and a body unfolds into a
    program. A body that a record does not bring along is looked up by type in a table. Bodies may
    call one another through the table, so they are unfolded up to a limit of nesting.
-/

namespace GateTrace.Script

/-! ### Records -/

/-- The initial storage of a field. -/
def FieldSpec.slot (s : Scope) (f : FieldSpec) : Except Stop Slot := do
  let v ← (f.init.eval s).mapError .panic
  match f.type with
  | .signal ty => return .signal (← (Signal.ofValue ty v).mapError .error)
  | .parameter => return .parameter (v.constant?.getD 0)

def RecordSpec.build (s : Scope) (r : RecordSpec) : Except Stop Record := do
  let fields ← r.fields.mapM fun f => do return ⟨f.name, ← f.slot s⟩
  return ⟨r.typeName, fields⟩

/-! ### Statements -/

/-- Argument `i` of a statement; one that is missing is unassigned. -/
def arg (args : List Value) (i : Nat) : Value := args.getD i .nil

/-- The primitive operation of a kind on arguments. -/
def operation (kind : GateKind) (args : List Value) : Operation :=
  let a := arg args 0
  let b := arg args 1
  let c := arg args 2
  match kind with
  | .add => .add a b (args.drop 2)
  | .sub => .sub a b (args.drop 2)
  | .mul => .mul a b (args.drop 2)
  | .mulAcc => .mulAcc a b c
  | .neg => .neg a
  | .div => .div a b
  | .divUnchecked => .divUnchecked a b
  | .inverse => .inverse a
  | .toBinary => .toBinary a none
  | .fromBinary => .fromBinary args
  | .xor => .xor a b
  | .or => .or a b
  | .and => .and a b
  | .select => .select a b c
  | .lookup => .lookup a b c (arg args 3) (arg args 4) (arg args 5)
  | .isZero => .isZero a
  | .cmp => .cmp a b
  | .assertEq => .assertEqual a b
  | .assertNotEq => .assertDifferent a b
  | .assertIsBool => .assertBoolean a
  | .assertLessOrEqual => .assertLessOrEqual a b

/-- How a body runs on a record. -/
abbrev Unfold := List Stmt → Record → Program

def withRecord (s : Scope) (r : RecordSpec) (k : Record → Program) : Program :=
  match r.build s with
  | .ok built => k built
  | .error stop => .stop stop

/-- The width that an expression stands for; a value that is no integer asks for the default. -/
def widthOf (s : Scope) : Option Expr → Except Panic (Option Int)
  | none => .ok none
  | some e => do return (← e.eval s).constant?

/-- The program of an action on arguments. -/
def Action.program (table : Table) (unfold : Unfold) (s : Scope) (args : List Value) :
    Action → Program
  | .bind | .finish => .done (.value (arg args 0))
  | .gate kind => .ofOperation (operation kind args)
  | .toBinary width =>
    match widthOf s width with
    | .ok width => .ofOperation (.toBinary (arg args 0) width)
    | .error p => .stop (.panic p)
  | .constant =>
    .done (.value (match (arg args 0).constant? with
      | some v => .int v
      | none => .nil))
  | .call r => withRecord s r fun built => .call built (unfold (r.bodyIn table))
  | .callVoid r => withRecord s r fun built => .callVoid built (unfold (r.bodyIn table))
  | .callAs type r =>
    withRecord s r fun built => .callAs type built (unfold (r.bodyIn table))
  | .define r => withRecord s r fun built => .handleOf built (unfold (r.bodyIn table))
  | .invoke handle r =>
    withRecord s r fun built =>
      match s.handles.lookup handle with
      | some callee => .ofInvoke callee built
      | none => .done .unit
  | .panic p => .stop (.panic p)
  | .fail e => .stop (.error e)

/-- The program of one statement. Its arguments are evaluated first. -/
def Stmt.program (table : Table) (unfold : Unfold) (s : Scope) : Stmt → Program
  | .mk action args _ _ =>
    match evalItems s args with
    | .ok args => action.program table unfold s args
    | .error p => .stop (.panic p)

/-- Bind the answer of a statement to a name. Handles have a name space of their own; an answer
    that is neither value nor handle, and an error, bind the unassigned value. -/
def Scope.bind (s : Scope) (target : Option String) (a : Except Error Answer) : Scope :=
  match target, a with
  | none, _ => s
  | some name, .ok (.handle callee) => { s with handles := (name, callee) :: s.handles }
  | some name, .ok a => { s with vars := (name, a.toValue) :: s.vars }
  | some name, .error _ => { s with vars := (name, .nil) :: s.vars }

/-! ### Bodies -/

/-- The program of a list of statements. It answers with the argument of the statement that ends
    it, or else with the unassigned value. -/
def sequence (table : Table) (unfold : Unfold) : Scope → List Stmt → Program
  | _, [] => .done (.value .nil)
  | s, stmt :: rest =>
    match stmt with
    -- What comes after the end of a body is never run.
    | .mk .finish _ _ _ => stmt.program table unfold s
    | .mk _ _ target tolerant =>
      (stmt.program table unfold s).attempt fun
        | .ok a => sequence table unfold (s.bind target (.ok a)) rest
        | .error e =>
          if tolerant then sequence table unfold (s.bind target (.error e)) rest
          else .stop (.error e)

/-- The program of a body on a record, with at most `limit` bodies inside one another. -/
def bodyProgram (table : Table) : (limit : Nat) → Unfold
  | 0, _, _ => .stop .tooDeep
  | limit + 1, body, r => sequence table (bodyProgram table limit) (.ofRecord r) body

/-- The component that a specification builds in a scope. -/
def RecordSpec.component (table : Table) (limit : Nat) (s : Scope) (r : RecordSpec) :
    Except Stop Component := do
  return ⟨← r.build s, bodyProgram table limit (r.bodyIn table)⟩

/-- The limit of nesting for scripts that do not set one. -/
def standardLimit : Nat := 10000

end GateTrace.Script
