import GateTrace.Trace

/-! # Counting nodes

    A census counts the nodes of a circuit and of every gadget body, by body and by operation. A
    body is counted once, however often it is called. Bodies under one label are counted together,
    and names are listed in increasing order.
-/

namespace GateTrace

/-- How often an operation occurs under one label. -/
structure Census.Entry where
  name : String
  count : Nat
deriving DecidableEq, Inhabited, Repr

/-- The nodes under one label. -/
structure Census.Group where
  label : String
  count : Nat
  entries : List Census.Entry
deriving DecidableEq, Inhabited, Repr

/-- The nodes of labelled traces. -/
structure Census where
  total : Nat
  groups : List Census.Group
deriving DecidableEq, Inhabited, Repr

namespace Census

/-! ### Counting -/

/-- Change the item with the key of `new` in a list that increases by keys. Where there is none,
    `new` is put in its place and changed. -/
def upsert {α : Type} (key : α → String) (new : α) (change : α → α) : List α → List α
  | [] => [change new]
  | x :: xs =>
    if key new = key x then change x :: xs
    else if key new < key x then change new :: x :: xs
    else x :: upsert key new change xs

def Entry.increment (e : Entry) : Entry := { e with count := e.count + 1 }

/-- Count a node, and the operation that it does. -/
def Group.add (g : Group) (n : Node) : Group where
  label := g.label
  count := g.count + 1
  entries := upsert Entry.name ⟨n.op.name, 0⟩ Entry.increment g.entries

/-- Count the nodes of a trace under a label. The label is listed even if the trace is empty. -/
def add (c : Census) (label : String) (t : Trace) : Census where
  total := c.total + t.length
  groups := upsert Group.label ⟨label, 0, []⟩ (fun g => t.foldl Group.add g) c.groups

def ofTraces (traces : List (String × Trace)) : Census :=
  traces.foldl (fun c t => c.add t.1 t.2) ⟨0, []⟩

def ofCircuit (code : Trace) (gadgets : List Gadget) : Census :=
  ofTraces (("circuit", code) :: gadgets.map fun g => (g.name, g.code))

/-! ### Text -/

/-- A number right-aligned in nine columns. -/
def column (n : Nat) : String := String.ofList (List.replicate (9 - n.repr.length) ' ') ++ n.repr

def line (indent : String) (count : Nat) (label : String) : String :=
  indent ++ "- " ++ column count ++ " " ++ label ++ "\n"

def Group.text (g : Group) : String :=
  line "  " g.count g.label ++ String.join (g.entries.map fun e => line "    " e.count e.name)

/-- The report: the total, and under it each label with its operations. -/
def text (c : Census) : String :=
  line "" c.total "all gates" ++ String.join (c.groups.map Group.text)

end Census

end GateTrace
