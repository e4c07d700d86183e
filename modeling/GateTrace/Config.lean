import GateTrace.Document
import GateTrace.ScalarField

/-! # Configuration

    What a user chooses for the files of one run.
-/

namespace GateTrace

/-- Settings of one run. -/
structure Config where
  field : ScalarField
  /-- The namespace of the file, if it is not to be the one derived from what is extracted. -/
  scope : Option String
  options : List FileOption
deriving DecidableEq, Inhabited, Repr

namespace Config

/-- The options of a run that asks for none. -/
def defaultOptions : List FileOption := [⟨"linter.unusedVariables", "false"⟩]

/-- The settings over a field, all else by default. -/
def ofField (field : ScalarField) : Config := ⟨field, none, defaultOptions⟩

def standard : Config := ofField .bn254

/-- The namespace to use where `fallback` is the one derived. -/
def scopeOr (c : Config) (fallback : String) : String := c.scope.getD fallback

def document (c : Config) (scope : String) (gadgets circuits : List Definition) : Document :=
  ⟨scope, c.field.modulus, c.options, gadgets, circuits⟩

end Config

end GateTrace
