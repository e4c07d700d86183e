import GateTrace.Value.Conversion

/-! # Signals

    The storage of one record field: a wire, or an array of signals. Storage has a fixed layout.
    `assign` writes a value into the layout that is there, and `ofValue` builds the layout that a
    `SignalType` asks for.
-/

namespace GateTrace

/-- The declared type of a signal field. -/
inductive SignalType where
  /-- A single wire. -/
  | wire
  /-- An array whose length is that of the value it is built from. -/
  | vec (elem : SignalType)
  /-- An array of exactly `len` elements. -/
  | array (len : Nat) (elem : SignalType)
deriving DecidableEq, Inhabited, Repr

/-- The storage of a signal. -/
inductive Signal where
  | wire (v : Value)
  | array (items : List Signal)
deriving Inhabited, Repr

namespace Signal

mutual

def toValue : Signal → Value
  | .wire v => v
  | .array items => .list (toValues items)

def toValues : List Signal → List Value
  | [] => []
  | x :: xs => toValue x :: toValues xs

end

theorem toValues_eq_map (xs : List Signal) : toValues xs = xs.map toValue := by
  induction xs with
  | nil => rfl
  | cons x xs ih => simp [toValues, ih]

/-- The shape of a signal. An array takes its inner dimensions from its first element, and the
    elements of an empty array count as scalars. -/
def shape : Signal → Shape
  | .wire _ => .scalar
  | .array [] => .array 0 .scalar
  | .array (x :: xs) => .array (xs.length + 1) x.shape

mutual

/-- Overwrite a signal with a value of the same layout, on behalf of field `field`. A wire takes
    any value. Slots are written in order, so a failure leaves the earlier ones overwritten. -/
def assign (field : String) : Signal → Value → Signal × Except Error Unit
  | .wire _, v => (.wire v, .ok ())
  | .array slots, .list items =>
    -- A list of another length leaves every slot of this level as it was.
    if items.length = slots.length then
      let done := assignItems field slots items
      (.array done.1, done.2)
    else (.array slots, .error (.schemaMismatch field items.length slots.length))
  | .array slots, v => (.array slots, .error (.extraction (.notAssignable field v)))

/-- Overwrite slots one by one, up to the first failure. -/
def assignItems (field : String) : List Signal → List Value → List Signal × Except Error Unit
  | slot :: slots, item :: items =>
    let first := assign field slot item
    match first.2 with
    | .ok () =>
      let others := assignItems field slots items
      (first.1 :: others.1, others.2)
    | .error e => (first.1 :: slots, .error e)
  | slots, _ => (slots, .ok ())

end

/-- Build a signal of a given type from a value. The elements of a fixed-size array are built
    before their number is checked. -/
def ofValue : SignalType → Value → Except Error Signal
  | .wire, v => .ok (.wire v)
  | .vec elem, v => do
    let items ← v.toList
    return .array (← items.mapM (ofValue elem))
  | .array len elem, v => do
    let items ← v.toList
    let slots ← items.mapM (ofValue elem)
    if slots.length = len then return .array slots
    else throw (.extraction (.arrayLength len slots.length))

end Signal

end GateTrace
