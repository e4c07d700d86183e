/-! # Scalar fields

    The prime fields a circuit can be recorded over, each named for the curve whose scalar field
    it is. The field decides the order printed in a file and the default width of a bit
    decomposition.
-/

namespace GateTrace

/-- A supported prime field. -/
inductive ScalarField where
  | bn254
  | bls12_377
  | bls12_381
  | bw6_761
deriving DecidableEq, Inhabited, Repr

namespace ScalarField

def modulus : ScalarField → Nat
  | bn254 => 0x30644e72e131a029b85045b68181585d2833e84879b9709143e1f593f0000001
  | bls12_377 => 0x12ab655e9a2ca55660b44d1e5c37b00159aa76fed00000010a11800000000001
  | bls12_381 => 0x73eda753299d7d483339d80809a1d80553bda402fffe5bfeffffffff00000001
  | bw6_761 =>
    0x1ae3a4617c510eac63b05c06ca1493b1a22d9f300f5138f1ef3622fba094800170b5d44300000008508c00000000001

/-- Number of bits that hold any element of the field. -/
def bitLength (f : ScalarField) : Nat := f.modulus.log2 + 1

def displayName : ScalarField → String
  | bn254 => "BN254"
  | bls12_377 => "BLS12-377"
  | bls12_381 => "BLS12-381"
  | bw6_761 => "BW6-761"

def key : ScalarField → String
  | bn254 => "bn254"
  | bls12_377 => "bls12_377"
  | bls12_381 => "bls12_381"
  | bw6_761 => "bw6_761"

/-- Every field, each once. -/
def all : List ScalarField := [bn254, bls12_377, bls12_381, bw6_761]

def ofKey? (s : String) : Option ScalarField := all.find? (·.key == s)

end ScalarField

end GateTrace
