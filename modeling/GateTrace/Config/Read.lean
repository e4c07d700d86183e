import GateTrace.Config
import GateTrace.Config.Yaml
import GateTrace.Error

/-! # Reading a configuration

    Which settings a settings tree chooses. Every setting may be left out, and settings that are
    not known are passed over. Members are read in order, and the first that cannot be read decides
    what the refusal is.
-/

namespace GateTrace.Config

/-- Why a text is refused. -/
inductive Refusal where
  /-- The text is not well formed, or it describes no configuration. -/
  | malformed
  /-- The reader gave up. -/
  | panic (p : Panic)
deriving Inhabited, Repr

/-- A value that is there, or else the refusal of a malformed text. -/
def orMalformed {α : Type} : Option α → Except Refusal α
  | some a => .ok a
  | none => .error .malformed

/-! ### Single settings -/

/-- The field a tree names: by its key, or by a mapping from its key to nothing. -/
def field? : SettingsTree → Option ScalarField
  | .scalar (some key) _ => ScalarField.ofKey? key
  | .map [(some key, v)] => if v.isAbsent then ScalarField.ofKey? key else none
  | _ => none

/-- The option a tree describes: both a name and a value, by name or by position. -/
def option? (t : SettingsTree) : Option FileOption := do
  match ← t.fields? ["name", "value"] with
  | [some name, some value] => return ⟨← name.text?, ← value.text?⟩
  | _ => none

/-! ### All settings -/

/-- The settings chosen so far. -/
structure Choices where
  field : Option ScalarField := none
  scope : Option (Option String) := none
  options : Option (List FileOption) := none
deriving Inhabited, Repr

/-- The choices with those of one more member, which must not be made twice. A mapping without
    members names no field, and is refused by `noField`. -/
def Choices.add (noField : Refusal) (chosen : Choices) :
    SettingsTree.Member → Except Refusal Choices
  | (some "field", t) =>
    match chosen.field, t with
    | none, .map [] => .error noField
    | none, t => do return { chosen with field := some (← orMalformed (field? t)) }
    | some _, _ => .error .malformed
  | (some "namespace", t) =>
    match chosen.scope with
    | none => do return { chosen with scope := some (← orMalformed t.optionalText?) }
    | some _ => .error .malformed
  | (some "options", t) =>
    match chosen.options with
    | none => do
      let items ← orMalformed t.items?
      return { chosen with options := some (← orMalformed (items.mapM option?)) }
    | some _ => .error .malformed
  | (some _, _) => .ok chosen
  | (none, _) => .error .malformed

def Choices.config (chosen : Choices) : Config where
  field := chosen.field.getD standard.field
  scope := chosen.scope.getD standard.scope
  options := chosen.options.getD standard.options

/-- The configuration a tree describes: field, namespace and options, by name or by position. -/
def ofTree (noField : Refusal) (t : SettingsTree) : Except Refusal Config := do
  let members ← orMalformed (t.members? ["field", "namespace", "options"])
  return (← members.foldlM (Choices.add noField) {}).config

/-! ### Texts -/

def ofJson (s : String) : Except Refusal Config := do
  ofTree .malformed (← orMalformed (Json.read? s))

/-- The configuration of a YAML text, which holds one document. What follows the first is read
    after it, so the refusal of the first goes before. -/
def ofYaml (s : String) : Except Refusal Config := do
  match ← orMalformed (Yaml.read? s) with
  | [] => throw .malformed
  | t :: others =>
    let c ← ofTree (.panic .emptyMapping) t
    if others.isEmpty then return c else throw .malformed

end GateTrace.Config
