import GateTrace.Record
import GateTrace.Trace

/-! # Script expressions

    Expressions of the script language: values built from literals, bound names, the fields of the
    running record, and elements of other values. Evaluation can only fail by taking an element
    that is not there.
-/

namespace GateTrace.Script

mutual

inductive Expr where
  | nil
  | int (v : Int)
  | operand (op : Operand)
  | list (items : List Item)
  /-- A bound name. -/
  | var (name : String)
  /-- The value of a signal field of the running record. -/
  | field (name : String)
  /-- The value of a parameter field of the running record. -/
  | param (name : String)
  /-- An element, by position, repeatedly. -/
  | get (e : Expr) (path : List Nat)
  /-- A list of copies of one value. -/
  | rep (e : Expr) (count : Nat)

/-- An entry of a list of expressions. -/
inductive Item where
  | one (e : Expr)
  /-- The elements of a list value from a position on. -/
  | spread (e : Expr) (start : Nat)

end

instance : Inhabited Expr := ⟨.nil⟩

instance : Inhabited Item := ⟨.one .nil⟩

/-- What names mean while a script runs. The latest binding of a name stands first. -/
structure Scope where
  record : Record
  vars : List (String × Value)
  handles : List (String × Callee)
deriving Inhabited

namespace Scope

/-- The scope in which nothing is bound, on behalf of a record. -/
def ofRecord (r : Record) : Scope := ⟨r, [], []⟩

/-- The value of a name; one that is not bound is unassigned. -/
def var (s : Scope) (name : String) : Value := (s.vars.lookup name).getD .nil

def fieldValue (s : Scope) (name : String) : Value :=
  ((s.record.find? name).bind Field.value?).getD .nil

def paramValue (s : Scope) (name : String) : Value :=
  match (s.record.find? name).bind Field.parameter? with
  | some v => .int v
  | none => .nil

end Scope

mutual

def Expr.eval (s : Scope) : Expr → Except Panic Value
  | .nil => .ok .nil
  | .int v => .ok (.int v)
  | .operand op => .ok (.operand op)
  | .list items => do return .list (← evalItems s items)
  | .var name => .ok (s.var name)
  | .field name => .ok (s.fieldValue name)
  | .param name => .ok (s.paramValue name)
  | .get e path => do (← e.eval s).follow path
  | .rep e count => do return .list (List.replicate count (← e.eval s))

def Item.eval (s : Scope) : Item → Except Panic (List Value)
  | .one e => do return [← e.eval s]
  | .spread e start => do return ((← e.eval s).items?.getD []).drop start

/-- The values that the entries of a list stand for, in order. -/
def evalItems (s : Scope) : List Item → Except Panic (List Value)
  | [] => .ok []
  | item :: items => do
    let vs ← item.eval s
    let ws ← evalItems s items
    return vs ++ ws

end

end GateTrace.Script
