import GateTrace.Signal

/-! # Records and schemas

    A record is the interface of a circuit or gadget: signals, which become arguments, and integer
    parameters, which only choose among instantiations. Its `Schema` lists the signals with their
    shapes and the values of the parameters, and names the instantiation.
-/

namespace GateTrace

/-- What a record field holds. -/
inductive Slot where
  | signal (s : Signal)
  | parameter (v : Int)
deriving Inhabited, Repr

structure Field where
  name : String
  slot : Slot
deriving Inhabited, Repr

/-- The interface of a circuit or gadget, with the values its signals currently hold. -/
structure Record where
  typeName : String
  /-- Fields in declaration order. -/
  fields : List Field
deriving Inhabited, Repr

/-- The signals and parameters of a record, captured once. The place of a signal among the
    arguments is its input number. -/
structure Schema where
  typeName : String
  args : List Argument
  /-- Values of the parameter fields, in declaration order. -/
  params : List Int
deriving DecidableEq, Inhabited, Repr

/-! ### Schemas -/

/-- The argument a field contributes: one if it is a signal, none if it is a parameter. -/
def Field.argument? (f : Field) : Option Argument :=
  match f.slot with
  | .signal s => some ⟨f.name, s.shape⟩
  | .parameter _ => none

def Field.parameter? (f : Field) : Option Int :=
  match f.slot with
  | .signal _ => none
  | .parameter v => some v

def Field.value? (f : Field) : Option Value :=
  match f.slot with
  | .signal s => some s.toValue
  | .parameter _ => none

def Record.schema (r : Record) : Schema where
  typeName := r.typeName
  args := r.fields.filterMap Field.argument?
  params := r.fields.filterMap Field.parameter?

/-- The values of the signals of a record, in declaration order. -/
def Record.values (r : Record) : List Value := r.fields.filterMap Field.value?

def Record.find? (r : Record) (name : String) : Option Field := r.fields.find? (·.name == name)

/-- A number as a part of a name: a minus sign, which no identifier admits, is written `m`. -/
def Schema.nameOfInt (v : Int) : String :=
  if v < 0 then "m" ++ v.natAbs.repr else v.natAbs.repr

/-- The number texts that set one instantiation of a type apart from another: every dimension of
    every array argument, outermost first, and then every parameter. -/
def Schema.suffixes (s : Schema) : List String :=
  s.args.flatMap (fun a => a.shape.dims.map Nat.repr) ++ s.params.map nameOfInt

/-- Name of the definition for this instantiation. -/
def Schema.uniqueName (s : Schema) : String :=
  s.typeName ++ String.join (s.suffixes.map ("_" ++ ·))

def Schema.arity (s : Schema) : Nat := s.args.length

/-! ### Assignment -/

/-- Overwrite a field with a value. A parameter cannot be assigned. -/
def Field.assign (f : Field) (v : Value) : Field × Except Error Unit :=
  match f.slot with
  | .signal s =>
    let done := s.assign f.name v
    ({ f with slot := .signal done.1 }, done.2)
  | .parameter _ => (f, .error (.extraction (.parameter f.name)))

/-- Overwrite the first field of a given name. A record without such a field stays as it is. -/
def Record.assign (r : Record) (name : String) (v : Value) : Record × Except Error Unit :=
  let done := go r.fields
  ({ r with fields := done.1 }, done.2)
where
  /-- Overwrite the first field of the list with the sought name. -/
  go : List Field → List Field × Except Error Unit
    | [] => ([], .ok ())
    | f :: fs =>
      if f.name = name then
        let done := f.assign v
        (done.1 :: fs, done.2)
      else
        let done := go fs
        (f :: done.1, done.2)

/-! ### Placeholders -/

/-- Overwrite the signals among `fields` with placeholders for the listed arguments, of which the
    first is input number `j`. Fields are visited in order, up to the first failure. -/
def Field.fill (typeName : String) :
    (j : Nat) → List Argument → List Field → List Field × Except Error Unit
  | _, [], [] => ([], .ok ())
  | _, arg :: _, [] => ([], .error (.extraction (.missingFromRecord typeName arg.name)))
  | j, args, f :: fs =>
    match f.slot with
    | .parameter _ =>
      let others := fill typeName j args fs
      (f :: others.1, others.2)
    | .signal _ =>
      match args with
      | [] => (f :: fs, .error (.extraction (.missingFromSchema typeName f.name)))
      | arg :: args =>
        if arg.name = f.name then
          let first := f.assign (.placeholder arg.shape (.input j))
          match first.2 with
          | .ok () =>
            let others := fill typeName (j + 1) args fs
            (first.1 :: others.1, others.2)
          | .error e => (first.1 :: fs, .error e)
        else (f :: fs, .error (.extraction (.otherField typeName arg.name f.name)))

/-- Overwrite every signal of a record with placeholders: the `j`-th signal stands for input `j`,
    with one layer of projections per array dimension of its schema. -/
def Record.withPlaceholders (r : Record) (s : Schema) : Record × Except Error Unit :=
  let done := Field.fill s.typeName 0 s.args r.fields
  ({ r with fields := done.1 }, done.2)

end GateTrace
