import GateTrace.Proofs.Growth
import GateTrace.Proofs.WellFormed

/-! # Projections

    Every recorded projection picks an element that is there, out of an array of the size that it
    carries. The key ideas:

    - Projections come in chains. Read from the root outwards, a chain goes into the declared shape
      of an input, into the bits of a decomposition, or into the output that a call site sees.
    - An operand that a definition is handed is a chain or the root of one, made by one of three
      functions that each go along with the array they project. Lists and literals only go around
      such operands, so nothing that is recorded holds any other projection.
-/

namespace GateTrace

namespace Operand

/-! ### Chains -/

/-- Index and size of each projection of a chain, from the root outwards. -/
def steps : Operand → List (Nat × Nat)
  | .proj base index size => base.steps ++ [(index, size)]
  | _ => []

/-- The part of an operand that steps lead to, if they meet an array literal of exactly their size
    each time. -/
def follow? : Operand → List (Nat × Nat) → Option Operand
  | op, [] => some op
  | .array items, (index, size) :: steps =>
    if items.length = size then items[index]?.bind (follow? · steps) else none
  | _, _ :: _ => none

/-- A step goes into an array literal of exactly its size. -/
theorem follow?_cons_eq_some_iff {op x : Operand} {index size : Nat} {steps : List (Nat × Nat)} :
    op.follow? ((index, size) :: steps) = some x ↔
      ∃ items y, op = .array items ∧ items.length = size ∧ items[index]? = some y ∧
        y.follow? steps = some x := by
  cases op with
  | array items =>
    by_cases hsize : items.length = size
    · simp [follow?, hsize, Option.bind_eq_some_iff]
    · simp [follow?, hsize]
  | _ => simp [follow?]

theorem follow?_append (op : Operand) (steps more : List (Nat × Nat)) :
    op.follow? (steps ++ more) = (op.follow? steps).bind (·.follow? more) := by
  induction steps generalizing op with
  | nil => rfl
  | cons step steps ih =>
    obtain ⟨index, size⟩ := step
    cases op with
    | array items =>
      -- A step fails for good where the sizes differ or the item is missing.
      by_cases hsize : items.length = size
      · cases hitem : items[index]? with
        | none => simp [follow?, hsize, hitem]
        | some x => simpa [follow?, hsize, hitem] using ih x
      · simp [follow?, hsize]
    | _ => rfl

/-- Where a chain with given steps may start: at an input, along the dimensions of its shape; at a
    bit decomposition, at one of its bits; at a call, along the output of the callee. -/
inductive Carries (args : List Argument) (code : Trace) : Operand → List (Nat × Nat) → Prop
  | input {j : Nat} {arg : Argument} {steps : List (Nat × Nat)} (harg : args[j]? = some arg)
    (hsizes : steps.map Prod.snd <+: arg.shape.dims) : Carries args code (.input j) steps
  | bit {i index width : Nat} {x : Operand}
    (hnode : code[i]? = some ⟨.gate .toBinary, [x, .nat width]⟩) :
    Carries args code (.gate i) [(index, width)]
  | call {i : Nat} {callee : Callee} {xs : List Operand} {output : Operand}
    {steps : List (Nat × Nat)} (hnode : code[i]? = some ⟨.call callee, xs⟩)
    (houtput : callee.output = some output) (hfollow : (output.follow? steps).isSome) :
    Carries args code (.gate i) steps

/-- Whether every projection in an operand takes an element that is there, and continues a chain
    that its root carries. -/
def InBounds (args : List Argument) (code : Trace) (op : Operand) : Prop :=
  ∀ base index size, .proj base index size ∈ op.projections →
    index < size ∧ Carries args code base.root (base.steps ++ [(index, size)])

variable {args : List Argument} {code : Trace}

theorem InBounds.of_projections_eq_nil {op : Operand} (h : op.projections = []) :
    op.InBounds args code := by
  intro base index size hmem
  rw [h] at hmem
  contradiction

theorem InBounds.proj {base : Operand} {index size : Nat} (hbase : base.InBounds args code)
    (hindex : index < size)
    (hcarries : Carries args code base.root (base.steps ++ [(index, size)])) :
    (proj base index size).InBounds args code := by
  intro base' index' size' hmem
  -- The outermost projection is the new one; all others were in the base already.
  rcases List.mem_cons.mp hmem with heq | hmem
  · obtain ⟨rfl, rfl, rfl⟩ := Operand.proj.inj heq
    exact ⟨hindex, hcarries⟩
  · exact hbase base' index' size' hmem

theorem InBounds.array {items : List Operand} (hitems : ∀ x ∈ items, x.InBounds args code) :
    (array items).InBounds args code := by
  intro base index size hmem
  rw [projections, projectionsAll_eq_flatMap] at hmem
  obtain ⟨x, hx, hmem⟩ := List.mem_flatMap.mp hmem
  exact hitems x hx base index size hmem

/-- A root carries what it carried when nodes are added to the trace. -/
theorem Carries.grow {op : Operand} {steps : List (Nat × Nat)} (h : Carries args code op steps)
    (more : Trace) : Carries args (code ++ more) op steps := by
  cases h with
  | input harg hsizes => exact .input harg hsizes
  | bit hnode => exact .bit (getElem?_grow hnode more)
  | call hnode houtput hfollow => exact .call (getElem?_grow hnode more) houtput hfollow

theorem InBounds.grow {op : Operand} (h : op.InBounds args code) (more : Trace) :
    op.InBounds args (code ++ more) := by
  intro base index size hmem
  obtain ⟨hindex, hcarries⟩ := h base index size hmem
  exact ⟨hindex, hcarries.grow more⟩

/-- A chain on the node of a call, along which the callee's output leads to `part`. -/
inductive Sees (code : Trace) (base part : Operand) : Prop
  | intro {i : Nat} {callee : Callee} {xs : List Operand} {output : Operand}
    (hroot : base.root = .gate i) (hnode : code[i]? = some ⟨.call callee, xs⟩)
    (houtput : callee.output = some output) (hfollow : output.follow? base.steps = some part)

/-- A chain that sees an array sees each of its elements, one projection further. -/
theorem Sees.element {base : Operand} {items : List Operand} {i : Nat} {x : Operand}
    (h : base.Sees code (.array items)) (hx : items[i]? = some x) :
    (proj base i items.length).Sees code x := by
  obtain ⟨hroot, hnode, houtput, hfollow⟩ := h
  refine ⟨hroot, hnode, houtput, ?_⟩
  -- The chain is one step longer, and the size of that step is the number of elements met.
  simp [steps, follow?_append, hfollow, follow?, hx]

/-- A projection that sees a part of an output is in bounds if its base is. -/
theorem Sees.inBounds_proj {base part : Operand} {index size : Nat}
    (h : (proj base index size).Sees code part) (hindex : index < size)
    (hbase : base.InBounds args code) : (proj base index size).InBounds args code := by
  obtain ⟨hroot, hnode, houtput, hfollow⟩ := h
  have hroot : base.root = .gate _ := hroot
  refine hbase.proj hindex ?_
  rw [hroot]
  exact .call hnode houtput (Option.isSome_iff_exists.mpr ⟨part, hfollow⟩)

end Operand

/-! ### What definitions are handed -/

namespace Value

variable {args : List Argument} {code : Trace}

/-- The placeholder of what is left of an input's shape, along a chain that went into the rest of
    it, holds operands in bounds. -/
theorem inBounds_placeholder {j : Nat} {arg : Argument} (harg : args[j]? = some arg) {shape : Shape}
    {base : Operand} (hroot : base.root = .input j) (hbase : base.InBounds args code)
    (hdims : arg.shape.dims = base.steps.map Prod.snd ++ shape.dims) :
    ∀ op ∈ (placeholder shape base).operands, op.InBounds args code := by
  induction shape generalizing base with
  | scalar =>
    intro op hop
    obtain rfl : op = base := by simpa [placeholder, operands] using hop
    exact hbase
  | array len elem ih =>
    intro op hop
    simp only [placeholder, operands, operandsAll_eq_flatMap, List.mem_flatMap, List.mem_map,
      List.mem_range] at hop
    obtain ⟨_, ⟨k, hk, rfl⟩, hop⟩ := hop
    -- One projection goes one dimension further into the shape.
    have hdims' : arg.shape.dims = (base.steps ++ [(k, len)]).map Prod.snd ++ elem.dims := by
      simpa [Shape.dims] using hdims
    have hcarries : Operand.Carries args code base.root (base.steps ++ [(k, len)]) := by
      rw [hroot]
      exact .input harg ⟨elem.dims, hdims'.symm⟩
    have hroot' : (Operand.proj base k len).root = .input j := hroot
    exact ih hroot' (hbase.proj hk hcarries) hdims' op hop

/-- The bits of a decomposition are in bounds. -/
theorem inBounds_bits {i width : Nat} {x : Operand}
    (hnode : code[i]? = some ⟨.gate .toBinary, [x, .nat width]⟩) :
    ∀ op ∈ (placeholder (.array width .scalar) (.gate i)).operands, op.InBounds args code := by
  intro op hop
  simp only [placeholder, operands, operandsAll_eq_flatMap, List.mem_flatMap, List.mem_map,
    List.mem_range] at hop
  obtain ⟨_, ⟨k, hk, rfl⟩, hop⟩ := hop
  obtain rfl : op = .proj (.gate i) k width := by simpa [operands] using hop
  exact (Operand.InBounds.of_projections_eq_nil rfl).proj hk (.bit hnode)

mutual

/-- What a call site sees of a part of an output is in bounds if the chain that leads there is. -/
theorem inBounds_ofOutput : ∀ {out base : Operand}, base.Sees code out →
    base.InBounds args code → ∀ op ∈ (ofOutput out base).operands, op.InBounds args code
  | .array _, _, hsees, hbase => inBounds_ofOutputItems hsees hbase rfl
  | .input _, base, _, hbase | .gate _, base, _, hbase | .const _, base, _, hbase
  | .nat _, base, _, hbase | .proj _ _ _, base, _, hbase => fun op hop => by
    obtain rfl : op = base := by simpa [ofOutput, operands] using hop
    exact hbase

theorem inBounds_ofOutputItems : ∀ {rest all : List Operand} {base : Operand} {i : Nat},
    base.Sees code (.array all) → base.InBounds args code → all.drop i = rest →
      ∀ op ∈ operandsAll (ofOutputItems rest base all.length i), op.InBounds args code
  | [], _, _, _, _, _, _ => by simp [ofOutputItems, operandsAll]
  | x :: xs, all, base, i, hsees, hbase, hdrop => fun op hop => by
    -- The size of each projection is that of the whole array, of which `x :: xs` is what is left.
    have hitem : all[i]? = some x := by
      have hhead : (all.drop i)[0]? = some x := by rw [hdrop]; rfl
      simpa using hhead
    have hrest : all.drop (i + 1) = xs := by
      rw [← List.tail_drop, hdrop]; rfl
    have hlt : i < all.length := (List.getElem?_eq_some_iff.mp hitem).1
    have hproj := hsees.element hitem
    rcases List.mem_append.mp hop with hop | hop
    · exact inBounds_ofOutput hproj (hproj.inBounds_proj hlt hbase) op hop
    · exact inBounds_ofOutputItems hsees hbase hrest op hop

end

/-- A value built from operands in bounds stands for one. -/
theorem inBounds_toOperand {v : Value} {op : Operand}
    (hv : ∀ x ∈ v.operands, x.InBounds args code) (h : v.toOperand = .ok op) :
    op.InBounds args code :=
  forall_toOperand (fun _ => .of_projections_eq_nil rfl) (fun _ => .array) hv h

theorem inBounds_toOperands {vs : List Value} {ops : List Operand}
    (hvs : ∀ x ∈ operandsAll vs, x.InBounds args code) (h : toOperands vs = .ok ops) :
    ∀ op ∈ ops, op.InBounds args code :=
  forall_toOperands (fun _ => .of_projections_eq_nil rfl) (fun _ => .array) hvs h

end Value

/-! ### Traces -/

/-- A trace of which every projection is in bounds, over the nodes before the one it stands in. -/
def Trace.InBounds (args : List Argument) (code : Trace) : Prop :=
  ∀ (p : Nat) (n : Node), code[p]? = some n → ∀ x ∈ n.args, x.InBounds args (code.take p)

theorem Trace.InBounds.nil {args : List Argument} : Trace.InBounds args [] := by
  intro p n hn
  simp at hn

theorem Trace.InBounds.append {args : List Argument} {code : Trace} {n : Node}
    (h : Trace.InBounds args code) (hn : ∀ x ∈ n.args, x.InBounds args code) :
    Trace.InBounds args (code ++ [n]) := by
  intro p m hm
  let P (earlier : Trace) (n : Node) : Prop := ∀ x ∈ n.args, x.InBounds args earlier
  exact forall_getElem?_concat (P := P) h hn p m hm

/-- A gadget of which every projection is in bounds, in its trace and in its output. -/
structure Gadget.InBounds (g : Gadget) : Prop where
  code : Trace.InBounds g.args g.code
  output : ∀ op ∈ g.output, op.InBounds g.args g.code

variable {args : List Argument} {code : Trace}

/-- An operation on values built from operands in bounds records such operands. -/
theorem Operation.node_inBounds {field : ScalarField} {o : Operation} {n : Node}
    (h : o.node field = .ok n)
    (hvalues : ∀ op ∈ Value.operandsAll o.values, op.InBounds args code) :
    ∀ x ∈ n.args, x.InBounds args code := by
  obtain ⟨ops, hops, ⟨a, w, -, rfl⟩ | ⟨-, rfl⟩⟩ := node_eq_ok h
  · intro x hx
    rcases List.mem_append.mp hx with hx | hx
    · exact Value.inBounds_toOperands hvalues hops x hx
    · -- The width is a bare number.
      obtain rfl := List.mem_singleton.mp hx
      exact .of_projections_eq_nil rfl
  · exact Value.inBounds_toOperands hvalues hops

/-- An operation answers with operands that are in bounds once its node is recorded. -/
theorem Operation.result_inBounds {field : ScalarField} {o : Operation} {n : Node}
    (h : o.node field = .ok n) :
    ∀ op ∈ (o.result field code.length).operands, op.InBounds args (code ++ [n]) := by
  obtain ⟨ops, hops, ⟨a, w, rfl, rfl⟩ | ⟨hkind, rfl⟩⟩ := node_eq_ok h
  · -- The bits go up to the width that the node itself carries.
    obtain ⟨x, rfl⟩ := List.length_eq_one_iff.mp (Value.length_toOperands hops)
    exact Value.inBounds_bits (x := x) (by simp)
  · intro op hop
    rcases result_eq field code.length hkind with hnil | ⟨-, hresult⟩
    · simp [hnil, Value.operands] at hop
    · obtain rfl : op = .gate code.length := by simpa [hresult, Value.operands] using hop
      exact .of_projections_eq_nil rfl

/-- A call answers with operands that are in bounds once its node is recorded. -/
theorem Callee.result_inBounds {callee : Callee} {ops : List Operand} :
    ∀ op ∈ (callee.result code.length).operands,
      op.InBounds args (code ++ [⟨.call callee, ops⟩]) := by
  intro op hop
  unfold result at hop
  cases hout : callee.output with
  | none => simp [hout, Value.operands] at hop
  | some output =>
    rw [hout] at hop
    have hnode : (code ++ [⟨.call callee, ops⟩])[code.length]? = some ⟨.call callee, ops⟩ := by simp
    -- The empty chain on the call's own node sees the whole output.
    have hsees : (Operand.gate code.length).Sees (code ++ [⟨.call callee, ops⟩]) output :=
      ⟨rfl, hnode, hout, rfl⟩
    exact Value.inBounds_ofOutput hsees (.of_projections_eq_nil rfl) op hop

/-! ### Runs -/

namespace Machine

/-- A definition of whose trace every projection is in bounds, with everything it was handed. -/
structure Level.InBounds (l : Level) (code : Trace) : Prop where
  trace : Trace.InBounds l.schema.args code
  held : ∀ op ∈ l.operands, op.InBounds l.schema.args code

/-- Every projection of the running trace, of those that wait and of the gadgets is in bounds, each
    over the signals of the record it is recorded for. -/
structure InBounds (m : Machine) : Prop where
  running : m.level.InBounds m.ex.code
  suspended : ∀ f ∈ m.stack, f.level.InBounds f.ex.code
  gadgets : ∀ g ∈ m.ex.gadgets, g.InBounds

/-- Values built from what a definition was handed are in bounds. -/
theorem Level.InBounds.values {l : Level} {code : Trace} (h : l.InBounds code) {vs : List Value}
    (hvs : ∀ v ∈ vs, v.BuiltFrom l.operands) :
    ∀ op ∈ Value.operandsAll vs, op.InBounds l.schema.args code := by
  intro op hop
  rw [Value.operandsAll_eq_flatMap] at hop
  obtain ⟨v, hv, hop⟩ := List.mem_flatMap.mp hop
  exact h.held op (hvs v hv op hop)

/-- A definition stays in bounds when it records a node and is handed its result. -/
theorem Level.InBounds.push {l : Level} {code : Trace} {n : Node} {v : Value} (h : l.InBounds code)
    (hn : ∀ x ∈ n.args, x.InBounds l.schema.args code)
    (hv : ∀ op ∈ v.operands, op.InBounds l.schema.args (code ++ [n])) :
    (l.give v).InBounds (code ++ [n]) := by
  refine ⟨h.trace.append hn, ?_⟩
  intro op hop
  rcases List.mem_append.mp hop with hop | hop
  · exact (h.held op hop).grow [n]
  · exact hv op hop

/-- A definition starts on placeholders, which go into the shapes of its schema. -/
theorem Level.inBounds_ofRecord {r inner : Record}
    (hinner : r.withPlaceholders r.schema = (inner, .ok ())) :
    (Level.ofRecord r.schema inner).InBounds [] := by
  refine ⟨.nil, ?_⟩
  intro op hop
  have hop : op ∈ Value.operandsAll inner.values := hop
  rw [Record.values_withPlaceholders hinner, Value.operandsAll_eq_flatMap] at hop
  obtain ⟨v, hv, hop⟩ := List.mem_flatMap.mp hop
  obtain ⟨⟨arg, j⟩, hj, rfl⟩ := List.mem_map.mp hv
  have harg : r.schema.args[j]? = some arg := by simpa using List.mem_zipIdx_iff_getElem?.mp hj
  -- The whole shape is still ahead of the empty chain.
  have hroot : (Operand.input j).InBounds r.schema.args [] := .of_projections_eq_nil rfl
  exact Value.inBounds_placeholder harg rfl hroot (by simp [Operand.steps]) op hop

theorem Level.InBounds.output {l : Level} {code : Trace} (h : l.InBounds code) {v : Value}
    (hv : v.BuiltFrom l.operands) {output : Option Operand}
    (hout : Extractor.output? v = .ok output) :
    ∀ op ∈ output, op.InBounds l.schema.args code := by
  rintro op rfl
  exact Value.inBounds_toOperand (fun x hx => h.held x (hv x hx)) (Extractor.output?_eq_some hout)

/-- Definitions that only use what they were handed stay in bounds. -/
theorem invariant_inBounds : Invariant Level.InBounds Gadget.InBounds where
  client := ⟨.nil, by simp [Level.client]⟩
  enter hinner := Level.inBounds_ofRecord hinner
  perform h hvalues hnode := by
    have hn := Operation.node_inBounds hnode (h.values hvalues)
    exact h.push hn (Operation.result_inBounds hnode)
  invoke h hvalues _ hops := by
    have hn := Value.inBounds_toOperands (h.values hvalues) hops
    exact h.push hn Callee.result_inBounds
  enroll h hv hout := ⟨h.trace, h.output hv hout⟩

/-- At every point of a session whose definitions only use what they were handed, every projection
    of a trace or of a gadget's output takes an element that is there, and its chain starts at an
    input and goes along its dimensions, at a decomposition and takes one of its bits, or at a call
    and goes along the callee's output, with the sizes that are met there. -/
theorem Reachable.projections_inBounds {field : ScalarField} {m : Machine}
    (hm : Reachable field Honest m) : m.InBounds := by
  obtain ⟨hrunning, hsuspended, hgadgets⟩ := hm.holds invariant_inBounds
  exact ⟨hrunning, hsuspended, hgadgets⟩

/-- A gadget that splits the second of its two signals into two bits, called by a client that adds
    the bits: there are projections of an input, of a decomposition and of a call. -/
theorem Reachable.projections_inBounds_bits :
    ∃ m : Machine, Reachable .bn254 Honest m ∧
      m.ex.code.flatMap (fun n => Operand.projectionsAll n.args) =
        [.proj (.gate 0) 0 2, .proj (.gate 0) 1 2] ∧
      m.ex.gadgets.flatMap (fun g => g.code.flatMap fun n => Operand.projectionsAll n.args) =
        [.proj (.input 0) 1 2] ∧
      m.ex.gadgets.flatMap (fun g => Operand.projectionsAll g.output.toList) =
        [.proj (.gate 0) 0 2, .proj (.gate 0) 1 2] ∧ m.InBounds := by
  let r : Record := ⟨"Split", [⟨"v", .signal (.array [.wire (.int 5), .wire (.int 3)])⟩]⟩
  let body (_ : Record) : Program :=
    .ofOperation (.toBinary (.operand (.proj (.input 0) 1 2)) (some 2))
  let sum : Program :=
    .ofOperation (.add (.operand (.proj (.gate 0) 0 2)) (.operand (.proj (.gate 0) 1 2)) [])
  let p : Program := .define r body fun handle =>
    handle.toOption.elim (.done .unit) fun callee => .invoke callee r fun _ => sum
  have hstart : Reachable .bn254 Honest _ := .resume .start ⟨rfl, .inl ⟨_, rfl⟩⟩ p
  have henter : Reachable .bn254 Honest _ := .step hstart trivial (.enter rfl rfl)
  have hsplit : Reachable .bn254 Honest _ := .step henter (by decide) (.perform rfl)
  have henroll : Reachable .bn254 Honest _ := .step hsplit (by decide) (.enroll rfl rfl)
  have hcall : Reachable .bn254 Honest _ := .step henroll (by decide) (.invoke rfl)
  have hadd : Reachable .bn254 Honest _ := .step hcall (by decide) (.perform rfl)
  exact ⟨_, hadd, by decide, by decide, by decide, projections_inBounds hadd⟩

end Machine

end GateTrace
