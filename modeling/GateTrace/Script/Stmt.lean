import GateTrace.Operation
import GateTrace.Script.Expr

/-! # Script statements

    The language of scripts: records with an expression per field, and bodies of statements. A
    statement acts on arguments and binds the answer to a name.
-/

namespace GateTrace.Script

/-- The declared type of a field. -/
inductive FieldType where
  | signal (ty : SignalType)
  | parameter
deriving DecidableEq, Inhabited, Repr

/-- A field with the expression for its initial value. -/
structure FieldSpec where
  name : String
  type : FieldType
  init : Expr
deriving Inhabited

mutual

/-- A record written as expressions, with a body of its own or that of its type. -/
inductive RecordSpec where
  | mk (typeName : String) (fields : List FieldSpec) (body : Option (List Stmt))

/-- A statement: an action on arguments, the name its answer is bound to, and whether the body goes
    on if it fails. -/
inductive Stmt where
  | mk (action : Action) (args : List Item) (target : Option String) (tolerant : Bool)

/-- What a statement does with its arguments. -/
inductive Action where
  /-- Answer with the argument. -/
  | bind
  /-- End the body with the argument. -/
  | finish
  /-- Record a primitive operation. -/
  | gate (kind : GateKind)
  /-- Decompose the argument into bits, given the expression for a width. -/
  | toBinary (width : Option Expr)
  /-- Answer with the literal behind the argument. -/
  | constant
  | call (r : RecordSpec)
  /-- Call, with nothing to tell. -/
  | callVoid (r : RecordSpec)
  /-- Call, and read the answer as a signal type. -/
  | callAs (type : SignalType) (r : RecordSpec)
  | define (r : RecordSpec)
  /-- Call a gadget by a bound handle. -/
  | invoke (handle : String) (r : RecordSpec)
  | panic (p : Panic)
  | fail (e : Error)

end

instance : Inhabited RecordSpec := ⟨.mk "" [] none⟩

instance : Inhabited Stmt := ⟨.mk .bind [] none false⟩

/-- The bodies of record types. -/
abbrev Table := List (String × List Stmt)

def RecordSpec.typeName : RecordSpec → String
  | .mk typeName _ _ => typeName

def RecordSpec.fields : RecordSpec → List FieldSpec
  | .mk _ fields _ => fields

/-- The body of a record: its own, or that of its type, or else nothing. -/
def RecordSpec.bodyIn (table : Table) : RecordSpec → List Stmt
  | .mk typeName _ body => (body <|> table.lookup typeName).getD []

end GateTrace.Script
