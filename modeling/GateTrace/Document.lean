import GateTrace.Definition.Text

/-! # Documents

    A generated file: a prelude that opens a namespace and fixes the field, the definitions of
    gadgets and of circuits, and a footer that closes the namespace. A blank line stands between
    any two of them.
-/

namespace GateTrace

structure FileOption where
  name : String
  value : String
deriving DecidableEq, Inhabited, Repr

/-- The contents of a generated file. -/
structure Document where
  /-- The namespace around all definitions. -/
  scope : String
  /-- The order of the field. -/
  order : Nat
  options : List FileOption
  gadgets : List Definition
  circuits : List Definition
deriving Inhabited, Repr

namespace Document

/-- A namespace as it stands in a file: spaces are left out. -/
def scopeName (scope : String) : String := String.ofList (scope.toList.filter (· ≠ ' '))

/-- The lines that set options, with a blank line after them if there are any. -/
def optionLines : List FileOption → List String
  | [] => []
  | opts => opts.map (fun o => "set_option " ++ o.name ++ " " ++ o.value) ++ [""]

/-- The head of a file over the field of a given order. -/
def opening (scope : String) (order : Nat) (opts : List FileOption) : String :=
  "\n".intercalate <|
    ["import ProvenZk.Gates", "import ProvenZk.Ext.Vector", ""] ++
    optionLines opts ++
    ["namespace " ++ scopeName scope,
      "",
      "def Order : ℕ := 0x" ++ String.ofList (Nat.toDigits 16 order),
      "variable [Fact (Nat.Prime Order)]",
      "abbrev F := ZMod Order",
      "abbrev Gates := GatesGnark8 Order"]

def footer (scope : String) : String := "end " ++ scopeName scope

/-- Texts one below the other, with a blank line between. -/
def stack (texts : List String) : String := "\n\n".intercalate texts

/-- The sections of a file; empty ones are left out. -/
def join (sections : List String) : String := stack (sections.filter (· ≠ ""))

def definitions (ds : List Definition) : String := stack (ds.map Definition.text)

def text (d : Document) : String :=
  join [opening d.scope d.order d.options, definitions d.gadgets, definitions d.circuits,
    footer d.scope]

end Document

end GateTrace
