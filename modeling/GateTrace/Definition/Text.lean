import GateTrace.Definition

/-! # Text of definitions

    How a definition is spelled: types, terms, one line of text per line, and the header that names
    the parameters.
-/

namespace GateTrace

def Shape.text : Shape → String
  | .scalar => "F"
  | .array len .scalar => "Vector F " ++ len.repr
  | .array len elem => "Vector (" ++ elem.text ++ ") " ++ len.repr

mutual

def Term.text : Term → String
  | .var name => name
  | .const v => "(" ++ v.repr ++ ":F)"
  | .nat v => v.repr
  | .get vector index => vector.text ++ "[" ++ index.repr ++ "]"
  | .vec items => "vec![" ++ ", ".intercalate (Term.texts items) ++ "]"

def Term.texts : List Term → List String
  | [] => []
  | x :: xs => x.text :: Term.texts xs

end

theorem Term.texts_eq_map (xs : List Term) : Term.texts xs = xs.map Term.text := by
  induction xs with
  | nil => rfl
  | cons x xs ih => simp [Term.texts, ih]

namespace Line

def application (f : String) (args : List Term) : String :=
  " ".intercalate (f :: args.map Term.text)

def gateApplication (gate : GateKind) (args : List Term) : String :=
  application ("Gates." ++ gate.gateName) args

def text : Line → String
  | .equation x gate args => "    ∃" ++ x ++ ", " ++ x ++ " = " ++ gateApplication gate args ++ " ∧"
  | .relation x gate args => "    ∃" ++ x ++ ", " ++ gateApplication gate args ++ " " ++ x ++ " ∧"
  | .assertion gate args => "    " ++ gateApplication gate args ++ " ∧"
  | .bind x gadget args => "    " ++ application gadget args ++ " fun " ++ x ++ " =>"
  | .condition gadget args => "    " ++ application gadget args ++ " ∧"

end Line

namespace Definition

def paramText (arg : Argument) : String := "(" ++ arg.name ++ ": " ++ arg.shape.text ++ ")"

/-- The parameters of a definition, the continuation last. -/
def paramTexts (d : Definition) : List String :=
  d.params.map paramText ++
    (d.continuation.map fun shape => "(k: " ++ shape.text ++ " -> Prop)").toList

def header (d : Definition) : String :=
  " ".intercalate (("def " ++ d.name) :: d.paramTexts) ++ ": Prop :="

def ending (d : Definition) : String :=
  match d.result with
  | some t => "    k " ++ t.text
  | none => "    True"

/-- A definition as text, without a line break at the end. -/
def text (d : Definition) : String :=
  "\n".intercalate (d.header :: d.lines.map Line.text ++ [d.ending])

end Definition

end GateTrace
