import GateTrace.Proofs.Growth
import GateTrace.Record
import GateTrace.Trace
import GateTrace.Value.Conversion

/-! # Layouts

    What a trace by itself says about the arrays behind its operands, before any values are chosen.
    The key idea:

    - An input is laid out as its declared shape.
    - A node is laid out by its operation: a bit decomposition is an array of its width, and a call
      is laid out as the callee's output is written.
    - A projection has a layout only if its base is an array of exactly the size it carries.

    An operand that has a layout refers to inputs that are there and to nodes that have a result,
    and this stays so while the trace grows.
-/

namespace GateTrace

/-- What is known of a value's arrays. A leaf says nothing. -/
inductive Layout where
  | leaf
  | node (items : List Layout)
deriving Inhabited

def Shape.layout : Shape → Layout
  | .scalar => .leaf
  | .array len elem => .node (List.replicate len elem.layout)

/-- The shape that a layout shows. An array takes its inner dimensions from its first item, and the
    items of an empty one count as scalars. -/
def Layout.shape : Layout → Shape
  | .leaf => .scalar
  | .node [] => .array 0 .scalar
  | .node (l :: ls) => .array (ls.length + 1) l.shape

namespace Operand

mutual

/-- The layout an operand shows by the array literals it is written with. -/
def outline : Operand → Layout
  | .array items => .node (outlines items)
  | _ => .leaf

def outlines : List Operand → List Layout
  | [] => []
  | x :: xs => outline x :: outlines xs

end

theorem outlines_eq_map (xs : List Operand) : outlines xs = xs.map outline := by
  induction xs with
  | nil => rfl
  | cons x xs ih => simp [outlines, ih]

@[simp] theorem length_outlines (xs : List Operand) : (outlines xs).length = xs.length := by
  rw [outlines_eq_map, List.length_map]

end Operand

/-- The layout of a node's result, for a node that has one. -/
def Node.layout? (n : Node) : Option Layout :=
  match n.op, n.args with
  | .gate .toBinary, [_, .nat w] => some (.node (List.replicate w.toNat .leaf))
  -- Other primitives yield single elements, of which a layout says nothing.
  | .gate kind, _ => if kind.style = .assertion then none else some .leaf
  | .call callee, _ => callee.output.map Operand.outline

/-- Only nodes that have a result have a layout. -/
theorem Node.hasResult_of_layout? {n : Node} {l : Layout} (h : n.layout? = some l) :
    n.op.hasResult = true := by
  obtain ⟨op, args⟩ := n
  cases op with
  | gate kind =>
    cases kind <;> first | rfl | simp [layout?, GateKind.style] at h
  | call callee =>
    obtain ⟨out, hout, -⟩ := Option.map_eq_some_iff.mp h
    simp [Op.hasResult, hout]

namespace Operand

/-! ### Layouts of operands -/

mutual

/-- The layout of an operand over the given arguments and trace. -/
def layout? (args : List Argument) (code : Trace) : Operand → Option Layout
  | .input j => args[j]?.map fun a => a.shape.layout
  | .gate i => code[i]?.bind Node.layout?
  | .const _ => some .leaf
  -- A bare number is no value, so nothing that has a layout holds one.
  | .nat _ => none
  | .proj base index size =>
    match layout? args code base with
    | some (.node ls) => if ls.length = size then ls[index]? else none
    | _ => none
  | .array items => (layouts? args code items).map .node

def layouts? (args : List Argument) (code : Trace) : List Operand → Option (List Layout)
  | [] => some []
  | x :: xs =>
    match layout? args code x, layouts? args code xs with
    | some l, some ls => some (l :: ls)
    | _, _ => none

end

variable {args : List Argument} {code : Trace}

/-- A projection is laid out as an element of an array of exactly its size. -/
theorem layout?_proj_eq_some_iff {base : Operand} {index size : Nat} {l : Layout} :
    (proj base index size).layout? args code = some l ↔
      ∃ ls, base.layout? args code = some (.node ls) ∧ ls.length = size ∧ ls[index]? = some l := by
  simp only [layout?]
  constructor
  · intro h
    split at h
    · next ls hbase =>
      split at h
      · next hsize => exact ⟨ls, hbase, hsize, h⟩
      · contradiction
    · contradiction
  · rintro ⟨ls, hbase, hsize, hitem⟩
    simp [hbase, hsize, hitem]

theorem layouts?_cons_eq_some_iff {x : Operand} {xs : List Operand} {ks : List Layout} :
    layouts? args code (x :: xs) = some ks ↔
      ∃ l ls, x.layout? args code = some l ∧ layouts? args code xs = some ls ∧ ks = l :: ls := by
  simp only [layouts?]
  constructor
  · intro h
    split at h
    · next l ls hx hxs => exact ⟨l, ls, hx, hxs, (Option.some.inj h).symm⟩
    · contradiction
  · rintro ⟨l, ls, hx, hxs, rfl⟩
    simp [hx, hxs]

theorem layout?_isSome_of_mem {xs : List Operand} {ls : List Layout}
    (h : layouts? args code xs = some ls) {x : Operand} (hx : x ∈ xs) :
    (x.layout? args code).isSome := by
  induction xs generalizing ls with
  | nil => cases hx
  | cons y ys ih =>
    obtain ⟨l, ms, hy, hys, -⟩ := layouts?_cons_eq_some_iff.mp h
    rcases List.mem_cons.mp hx with rfl | hmem
    · simp [hy]
    · exact ih hys hmem

theorem exists_layouts? {xs : List Operand} (h : ∀ x ∈ xs, (x.layout? args code).isSome) :
    ∃ ls, layouts? args code xs = some ls := by
  induction xs with
  | nil => exact ⟨[], rfl⟩
  | cons x xs ih =>
    obtain ⟨l, hl⟩ := Option.isSome_iff_exists.mp (h x (by simp))
    obtain ⟨ls, hls⟩ := ih fun y hy => h y (by simp [hy])
    exact ⟨l :: ls, layouts?_cons_eq_some_iff.mpr ⟨l, ls, hl, hls, rfl⟩⟩

theorem layout?_array_isSome {items : List Operand}
    (h : ∀ x ∈ items, (x.layout? args code).isSome) :
    ((array items).layout? args code).isSome := by
  obtain ⟨ls, hls⟩ := exists_layouts? h
  simp [layout?, hls]

/-! ### Growing traces -/

mutual

/-- A layout is kept when nodes are added to the trace. -/
theorem layout?_append (more : Trace) : ∀ {op : Operand} {l : Layout},
    op.layout? args code = some l → op.layout? args (code ++ more) = some l
  | .input _, _, h => h
  | .gate i, l, h => by
    obtain ⟨n, hn, hl⟩ := Option.bind_eq_some_iff.mp h
    exact Option.bind_eq_some_iff.mpr ⟨n, getElem?_grow hn more, hl⟩
  | .const _, _, h => h
  | .nat _, _, h => by simp [layout?] at h
  | .proj _ _ _, _, h => by
    obtain ⟨ls, hbase, hsize, hitem⟩ := layout?_proj_eq_some_iff.mp h
    exact layout?_proj_eq_some_iff.mpr ⟨ls, layout?_append more hbase, hsize, hitem⟩
  | .array items, _, h => by
    obtain ⟨ls, hls, rfl⟩ := Option.map_eq_some_iff.mp h
    exact Option.map_eq_some_iff.mpr ⟨ls, layouts?_append more hls, rfl⟩

theorem layouts?_append (more : Trace) : ∀ {xs : List Operand} {ls : List Layout},
    layouts? args code xs = some ls → layouts? args (code ++ more) xs = some ls
  | [], _, h => h
  | _ :: _, _, h => by
    obtain ⟨l, ls, hx, hxs, rfl⟩ := layouts?_cons_eq_some_iff.mp h
    exact layouts?_cons_eq_some_iff.mpr
      ⟨l, ls, layout?_append more hx, layouts?_append more hxs, rfl⟩

end

/-! ### What an operand with a layout refers to -/

mutual

def numbers : Operand → List Int
  | .nat v => [v]
  | .proj base _ _ => numbers base
  | .array items => numbersAll items
  | _ => []

def numbersAll : List Operand → List Int
  | [] => []
  | x :: xs => numbers x ++ numbersAll xs

end

/-- An operand that only refers to inputs below `arity` and to nodes of `code` that have a result,
    and holds no bare number. -/
structure Scoped (arity : Nat) (code : Trace) (op : Operand) : Prop where
  gates : ∀ i ∈ op.gates, ∃ n, code[i]? = some n ∧ n.op.hasResult = true
  inputs : ∀ j ∈ op.inputs, j < arity
  numbers : op.numbers = []

mutual

/-- An operand that has a layout stays within its arguments and its trace. -/
theorem scoped_of_layout? : ∀ {op : Operand} {l : Layout},
    op.layout? args code = some l → op.Scoped args.length code
  | .input j, _, h => by
    obtain ⟨a, ha, -⟩ := Option.map_eq_some_iff.mp h
    have hlt : j < args.length := (List.getElem?_eq_some_iff.mp ha).1
    exact ⟨by simp [gates], by simpa [inputs] using hlt, rfl⟩
  | .gate i, _, h => by
    obtain ⟨n, hn, hl⟩ := Option.bind_eq_some_iff.mp h
    have hresult : n.op.hasResult = true := Node.hasResult_of_layout? hl
    exact ⟨by simpa [gates] using ⟨n, hn, hresult⟩, by simp [inputs], rfl⟩
  | .const _, _, _ => ⟨by simp [gates], by simp [inputs], rfl⟩
  -- A bare number has no layout, so this case does not arise.
  | .nat _, _, h => by simp [layout?] at h
  | .proj base _ _, _, h => by
    obtain ⟨ls, hbase, -, -⟩ := layout?_proj_eq_some_iff.mp h
    -- A projection refers to what its base refers to.
    have hscoped := scoped_of_layout? hbase
    exact ⟨hscoped.gates, hscoped.inputs, hscoped.numbers⟩
  | .array items, _, h => by
    obtain ⟨ls, hls, -⟩ := Option.map_eq_some_iff.mp h
    have hscoped := scoped_of_layouts? hls
    exact ⟨hscoped.1, hscoped.2.1, hscoped.2.2⟩

theorem scoped_of_layouts? : ∀ {xs : List Operand} {ls : List Layout},
    layouts? args code xs = some ls →
      (∀ i ∈ gatesAll xs, ∃ n, code[i]? = some n ∧ n.op.hasResult = true) ∧
        (∀ j ∈ inputsAll xs, j < args.length) ∧ numbersAll xs = []
  | [], _, _ => ⟨by simp [gatesAll], by simp [inputsAll], rfl⟩
  | x :: xs, _, h => by
    obtain ⟨l, ls, hx, hxs, -⟩ := layouts?_cons_eq_some_iff.mp h
    have hhead := scoped_of_layout? hx
    obtain ⟨hgates, hinputs, hnumbers⟩ := scoped_of_layouts? hxs
    refine ⟨?_, ?_, ?_⟩
    · intro i hi
      rcases List.mem_append.mp hi with hi | hi
      · exact hhead.gates i hi
      · exact hgates i hi
    · intro j hj
      rcases List.mem_append.mp hj with hj | hj
      · exact hhead.inputs j hj
      · exact hinputs j hj
    · simp [numbersAll, hhead.numbers, hnumbers]

end

/-! ### Projections of an operand with a layout -/

/-- What a chain of projections ends in. -/
def root : Operand → Operand
  | .proj base _ _ => base.root
  | op => op

mutual

def projections : Operand → List Operand
  | .proj base index size => .proj base index size :: projections base
  | .array items => projectionsAll items
  | _ => []

def projectionsAll : List Operand → List Operand
  | [] => []
  | x :: xs => projections x ++ projectionsAll xs

end

theorem projectionsAll_eq_flatMap (xs : List Operand) :
    projectionsAll xs = xs.flatMap projections := by
  induction xs with
  | nil => rfl
  | cons x xs ih => simp [projectionsAll, ih]

mutual

/-- Each projection in an operand that has a layout has one. -/
theorem layout?_of_mem_projections {p : Operand} : ∀ {op : Operand} {l : Layout},
    op.layout? args code = some l → p ∈ op.projections → (p.layout? args code).isSome
  | .proj base index size, l, h, hp => by
    rcases List.mem_cons.mp hp with rfl | hp
    · simp [h]
    · obtain ⟨ls, hbase, -, -⟩ := layout?_proj_eq_some_iff.mp h
      exact layout?_of_mem_projections hbase hp
  | .array items, _, h, hp => by
    obtain ⟨ls, hls, -⟩ := Option.map_eq_some_iff.mp h
    exact layout?_of_mem_projectionsAll hls hp
  | .input _, _, _, hp | .gate _, _, _, hp | .const _, _, _, hp | .nat _, _, _, hp => by
    simp [projections] at hp

theorem layout?_of_mem_projectionsAll {p : Operand} : ∀ {xs : List Operand} {ls : List Layout},
    layouts? args code xs = some ls → p ∈ projectionsAll xs → (p.layout? args code).isSome
  | [], _, _, hp => by simp [projectionsAll] at hp
  | x :: xs, _, h, hp => by
    obtain ⟨l, ls, hx, hxs, -⟩ := layouts?_cons_eq_some_iff.mp h
    rcases List.mem_append.mp hp with hp | hp
    · exact layout?_of_mem_projections hx hp
    · exact layout?_of_mem_projectionsAll hxs hp

end

end Operand

namespace Value

/-! ### Values -/

mutual

/-- The operands a value is built from. -/
def operands : Value → List Operand
  | .operand op => [op]
  | .list items => operandsAll items
  | _ => []

def operandsAll : List Value → List Operand
  | [] => []
  | x :: xs => operands x ++ operandsAll xs

end

theorem operandsAll_eq_flatMap (xs : List Value) : operandsAll xs = xs.flatMap operands := by
  induction xs with
  | nil => rfl
  | cons x xs ih => simp [operandsAll, ih]

variable {args : List Argument} {code : Trace}

/-! ### Values taken apart -/

mutual

/-- The value that stands for `base`, taken apart along a layout: a list for each array, down to
    chains of projections of `base`. -/
def ofLayout : Layout → Operand → Value
  | .leaf, base => .operand base
  | .node ls, base => .list (ofLayouts ls base ls.length 0)

/-- The values that stand for the elements, from position `i` on, of an array `base` of `size`
    elements. -/
def ofLayouts : List Layout → Operand → Nat → Nat → List Value
  | [], _, _, _ => []
  | l :: ls, base, size, i => ofLayout l (.proj base i size) :: ofLayouts ls base size (i + 1)

end

theorem ofLayouts_eq_map (ls : List Layout) (base : Operand) (size i : Nat) :
    ofLayouts ls base size i =
      (ls.zipIdx i).map fun item => ofLayout item.1 (.proj base item.2 size) := by
  induction ls generalizing i with
  | nil => rfl
  | cons l ls ih => rw [ofLayouts, ih, List.zipIdx_cons, List.map_cons]

/-- Elements of one layout are taken apart alike. -/
theorem ofLayouts_replicate (l : Layout) (base : Operand) (size i count : Nat) :
    ofLayouts (List.replicate count l) base size i =
      (List.range' i count).map fun k => ofLayout l (.proj base k size) := by
  induction count generalizing i with
  | zero => rfl
  | succ count ih =>
    rw [List.replicate_succ, ofLayouts, ih, List.range'_succ, List.map_cons]

/-- A placeholder is its root, taken apart as the shape is laid out. -/
theorem placeholder_eq_ofLayout (shape : Shape) (base : Operand) :
    placeholder shape base = ofLayout shape.layout base := by
  induction shape generalizing base with
  | scalar => rfl
  | array len elem ih =>
    simp only [placeholder, Shape.layout, ofLayout, ih]
    rw [ofLayouts_replicate, List.length_replicate, List.range_eq_range']

mutual

/-- What a call site sees of an output is the call, taken apart along the literals that the output is
    written with. -/
theorem ofOutput_eq_ofLayout : ∀ output base : Operand,
    ofOutput output base = ofLayout output.outline base
  | .array items, base => by
    rw [ofOutput, ofOutputItems_eq_ofLayouts, Operand.outline, ofLayout, Operand.length_outlines]
  | .input _, _ | .gate _, _ | .const _, _ | .nat _, _ | .proj _ _ _, _ => rfl

theorem ofOutputItems_eq_ofLayouts : ∀ (items : List Operand) (base : Operand) (size i : Nat),
    ofOutputItems items base size i = ofLayouts (Operand.outlines items) base size i
  | [], _, _, _ => rfl
  | x :: xs, base, size, i => by
    rw [ofOutputItems, ofOutput_eq_ofLayout, ofOutputItems_eq_ofLayouts]
    rfl

end

mutual

/-- Every operand of a value that is taken apart has a layout if its root is laid out so. -/
theorem layout?_ofLayout : ∀ {l : Layout} {base : Operand}, base.layout? args code = some l →
    ∀ op ∈ (ofLayout l base).operands, (op.layout? args code).isSome
  | .leaf, base, h => fun op hop => by
    obtain rfl : op = base := by simpa [ofLayout, operands] using hop
    simp [h]
  | .node ls, base, h => fun op hop => layout?_ofLayouts h rfl (List.drop_zero) op hop

/-- Every operand of the elements of an array has a layout if the array is laid out so. -/
theorem layout?_ofLayouts : ∀ {rest : List Layout} {base : Operand} {size i : Nat}
    {ls : List Layout}, base.layout? args code = some (.node ls) → ls.length = size →
      ls.drop i = rest →
        ∀ op ∈ operandsAll (ofLayouts rest base size i), (op.layout? args code).isSome
  | [], _, _, _, _, _, _, _ => by simp [ofLayouts, operandsAll]
  | l :: rest, base, size, i, ls, h, hsize, hdrop => fun op hop => by
    -- The layouts from position `i` on are those of the elements that are left.
    have hitem : ls[i]? = some l := by
      have hhead : (ls.drop i)[0]? = some l := by rw [hdrop]; rfl
      simpa using hhead
    have hrest : ls.drop (i + 1) = rest := by
      rw [← List.tail_drop, hdrop]; rfl
    rcases List.mem_append.mp hop with hop | hop
    · exact layout?_ofLayout
        (Operand.layout?_proj_eq_some_iff.mpr ⟨ls, h, hsize, hitem⟩) op hop
    · exact layout?_ofLayouts h hsize hrest op hop

end

theorem layout?_placeholder {shape : Shape} {base : Operand}
    (h : base.layout? args code = some shape.layout) :
    ∀ op ∈ (placeholder shape base).operands, (op.layout? args code).isSome := by
  rw [placeholder_eq_ofLayout]
  exact layout?_ofLayout h

theorem layout?_ofOutput {output base : Operand}
    (h : base.layout? args code = some output.outline) :
    ∀ op ∈ (ofOutput output base).operands, (op.layout? args code).isSome := by
  rw [ofOutput_eq_ofLayout]
  exact layout?_ofLayout h

section Reading

variable {P : Operand → Prop}

mutual

/-- What holds of literals, and of arrays of operands of which it holds, holds of the operand that a
    value stands for if it holds of those that the value is built from. -/
theorem forall_toOperand (hconst : ∀ v, P (.const v))
    (harray : ∀ items : List Operand, (∀ x ∈ items, P x) → P (.array items)) :
    ∀ {v : Value} {op : Operand}, (∀ x ∈ v.operands, P x) → v.toOperand = .ok op → P op
  | .nil, _, _, h => by simp [toOperand] at h
  | .operand op, _, hv, h => by
    obtain rfl : op = _ := by simpa [toOperand] using h
    -- An operand is taken over as it is.
    exact hv op (by simp [operands])
  | .int v, _, _, h => by
    obtain rfl : Operand.const v = _ := by simpa [toOperand] using h
    exact hconst v
  | .list items, _, hv, h => by
    cases hops : toOperands items with
    | error e => simp [toOperand, hops, bind, Except.bind] at h
    | ok ops =>
      obtain rfl : Operand.array ops = _ := by
        simpa [toOperand, hops, bind, Except.bind, pure, Except.pure] using h
      -- A list becomes a literal of what its items stand for.
      exact harray ops (forall_toOperands hconst harray hv hops)

/-- The same for the operands that the values of a list stand for. -/
theorem forall_toOperands (hconst : ∀ v, P (.const v))
    (harray : ∀ items : List Operand, (∀ x ∈ items, P x) → P (.array items)) :
    ∀ {vs : List Value} {ops : List Operand}, (∀ x ∈ operandsAll vs, P x) →
      toOperands vs = .ok ops → ∀ op ∈ ops, P op
  | [], _, _, h => by
    obtain rfl : [] = _ := by simpa [toOperands] using h
    simp
  | v :: vs, _, hv, h => by
    cases hop : toOperand v with
    | error e => simp [toOperands, hop, bind, Except.bind] at h
    | ok op =>
      cases hops : toOperands vs with
      | error e => simp [toOperands, hop, hops, bind, Except.bind] at h
      | ok ops =>
        obtain rfl : op :: ops = _ := by
          simpa [toOperands, hop, hops, bind, Except.bind, pure, Except.pure] using h
        have hhead :=
          forall_toOperand hconst harray (fun x hx => hv x (List.mem_append_left _ hx)) hop
        have htail :=
          forall_toOperands hconst harray (fun x hx => hv x (List.mem_append_right _ hx)) hops
        exact List.forall_mem_cons.mpr ⟨hhead, htail⟩

end

end Reading

/-- A value built from operands that have layouts stands for an operand that has one. -/
theorem layout?_toOperand {v : Value} {op : Operand}
    (hv : ∀ x ∈ v.operands, (x.layout? args code).isSome) (h : v.toOperand = .ok op) :
    (op.layout? args code).isSome :=
  forall_toOperand (fun _ => rfl) (fun _ => Operand.layout?_array_isSome) hv h

theorem layouts?_toOperands {vs : List Value} {ops : List Operand}
    (hvs : ∀ x ∈ operandsAll vs, (x.layout? args code).isSome) (h : toOperands vs = .ok ops) :
    ∃ ls, Operand.layouts? args code ops = some ls := by
  have hops : ∀ op ∈ ops, (op.layout? args code).isSome :=
    forall_toOperands (fun _ => rfl) (fun _ => Operand.layout?_array_isSome) hvs h
  exact Operand.exists_layouts? hops

end Value

end GateTrace
