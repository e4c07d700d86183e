/-! # Settings trees

    What a settings text says before anyone asks for a particular setting: scalars, sequences and
    mappings. A tree remembers of a scalar its text, if it can be read as text, and whether it
    stands for an absent value.
-/

namespace GateTrace

/-- A settings text, read. -/
inductive SettingsTree where
  | scalar (text : Option String) (isNull : Bool)
  | seq (items : List SettingsTree)
  /-- Members in order. A key that is no text is `none`. -/
  | map (members : List (Option String × SettingsTree))
deriving Inhabited, Repr

namespace SettingsTree

def text? : SettingsTree → Option String
  | .scalar text _ => text
  | _ => none

/-- The text of a scalar that may be absent. -/
def optionalText? : SettingsTree → Option (Option String)
  | .scalar _ true => some none
  | .scalar (some text) false => some (some text)
  | _ => none

/-- Whether the tree stands for an absent value. -/
def isAbsent : SettingsTree → Bool
  | .scalar _ isNull => isNull
  | _ => false

def items? : SettingsTree → Option (List SettingsTree)
  | .seq items => some items
  | _ => none

/-- A member of a mapping: its key, which is `none` if it is no text, and its value. -/
abbrev Member := Option String × SettingsTree

/-- The members of a tree that is a mapping by name or a sequence by position, in order. An item of
    a sequence belongs to the name at its position; past the last name it belongs to none. -/
def members? (names : List String) : SettingsTree → Option (List Member)
  | .scalar .. => none
  | .seq items => some (items.zipIdx.map fun (t, position) => (names[position]?, t))
  | .map members => some members

/-- The values that `names` get in a tree that is a mapping by name or a sequence by position.
    Names that are left out get `none`. Names that are not asked for are passed over. A member
    without a name and a name given twice are errors. -/
def fields? (names : List String) (t : SettingsTree) : Option (List (Option SettingsTree)) := do
  let members ← t.members? names
  if members.all (·.1.isSome) then names.mapM (only members) else none
where
  /-- The value of the only member with a given key, if there is such a member. -/
  only (members : List Member) (name : String) : Option (Option SettingsTree) :=
    match members.filter (·.1 == some name) with
    | [] => some none
    | [(_, v)] => some (some v)
    | _ => none

end SettingsTree

end GateTrace
