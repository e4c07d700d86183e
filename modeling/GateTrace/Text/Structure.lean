import GateTrace.Value

/-! # Structure texts

    A value or an operand written out constructor by constructor, as messages and trace logs show
    it. Integers are shown as a sign and a magnitude in 64-bit limbs.
-/

namespace GateTrace.Text

/-- The base of a 64-bit limb. -/
def limbBase : Nat := 0x10000000000000000

/-- Digits of `n` in base 2^64, least significant first; zero has none. -/
def limbs (n : Nat) : List Nat :=
  if n = 0 then [] else n % limbBase :: limbs (n / limbBase)
termination_by n
decreasing_by simp only [limbBase]; omega

/-- Items between square brackets, separated by a comma and a space. -/
def bracketed (items : List String) : String :=
  "[" ++ ", ".intercalate items ++ "]"

def signName (v : Int) : String :=
  if v < 0 then "Minus" else if v = 0 then "NoSign" else "Plus"

/-- An integer as its sign and limbs. -/
def bigInteger (v : Int) : String :=
  "BigInt \x7b sign: " ++ signName v ++ ", data: BigUint \x7b data: " ++
    bracketed ((limbs v.natAbs).map Nat.repr) ++ " \x7d \x7d"

mutual

/-- An operand, constructor by constructor. -/
def operand : Operand → String
  | .input i => "Input(" ++ i.repr ++ ")"
  | .gate i => "Gate(" ++ i.repr ++ ")"
  | .const v => "Const(" ++ bigInteger v ++ ")"
  | .nat v => "Integer(" ++ bigInteger v ++ ")"
  | .proj base index size =>
    "Proj \x7b base: " ++ operand base ++ ", index: " ++ index.repr ++ ", size: " ++ size.repr ++
      " \x7d"
  | .array items => "ProjArray(" ++ bracketed (operands items) ++ ")"

def operands : List Operand → List String
  | [] => []
  | x :: xs => operand x :: operands xs

end

mutual

/-- A value, constructor by constructor. -/
def value : Value → String
  | .nil => "Nil"
  | .operand op => "Operand(" ++ operand op ++ ")"
  | .int v => "Int(" ++ bigInteger v ++ ")"
  | .list items => "List(" ++ bracketed (values items) ++ ")"

def values : List Value → List String
  | [] => []
  | x :: xs => value x :: values xs

end

end GateTrace.Text
