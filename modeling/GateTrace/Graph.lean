import GateTrace.Text.Quoted
import GateTrace.Trace

/-! # Dependency graphs

    A trace as a directed graph: a vertex per node, labelled with the operation and its arguments,
    and an edge from each node that it reads.
-/

namespace GateTrace.Graph

/-- The graph's view of one node. -/
structure Vertex where
  label : String
  /-- The nodes read, each once, in the order they are first met. -/
  reads : List Nat
deriving DecidableEq, Inhabited, Repr

mutual

/-- An operand in a label. -/
def operandText : Operand → String
  | .input i => "in" ++ i.repr
  | .gate i => "g" ++ i.repr
  | .const v => v.repr
  | .nat v => "#" ++ v.repr
  | .proj base index _ => operandText base ++ "[" ++ index.repr ++ "]"
  | .array items => "[" ++ ", ".intercalate (operandTexts items) ++ "]"

def operandTexts : List Operand → List String
  | [] => []
  | x :: xs => operandText x :: operandTexts xs

end

def opText : Op → String
  | .gate kind => kind.label
  | .call callee => "Gadget " ++ callee.name

/-- The vertex of a node: the operation on one line of its label and the arguments on the next. -/
def Vertex.ofNode (n : Node) : Vertex where
  label := opText n.op ++ "\n" ++ " ".intercalate (n.args.map operandText)
  reads := n.gates.eraseDups

/-- The graph of a trace, vertex `i` being node `i`. -/
def ofTrace (t : Trace) : List Vertex := t.map Vertex.ofNode

/-! ### Text -/

def vertexName (i : Nat) : String := "\"g" ++ i.repr ++ "\""

/-- The lines of vertex `i`: its label, and then its incoming edges. -/
def Vertex.lines (i : Nat) (v : Vertex) : List String :=
  (vertexName i ++ " [ label = " ++ Text.quoted v.label ++ " ];") ::
    v.reads.map fun j => vertexName j ++ " -> " ++ vertexName i ++ ";"

def lines (vs : List Vertex) : List String :=
  ["digraph \x7b"] ++ (vs.zipIdx.flatMap fun (v, i) => v.lines i) ++ ["\x7d"]

/-- The graph of a trace as text, each line ended by a line break. -/
def text (t : Trace) : String := String.join ((lines (ofTrace t)).map (· ++ "\n"))

end GateTrace.Graph
