import GateTrace.Proofs.OutputShape
import GateTrace.Proofs.Projections

/-! # Results of calls

    What a call site sees of a callee's output, against the shape that the callee declares for it.
    The key ideas:

    - What is seen goes along the literals that the output is written with, a placeholder along a
      shape. Both are one operand taken apart along a layout, and the layout can be told from the
      result.
    - So both are the same exactly if the output is laid out as the shape that it shows. This takes
      an output whose arrays have elements of one shape each.
    - A path goes through what is seen as it goes through the output, and each array that it passes
      becomes a projection.
-/

namespace GateTrace

namespace Operand

/-! ### Operands of uniform arrays -/

/-- Whether each array literal in an operand has elements of one shape. A projection is no array,
    whatever it takes its element from. -/
inductive Uniform : Operand → Prop
  | leaf {op : Operand} (hop : ∀ items, op ≠ .array items) : Uniform op
  | array {items : List Operand} (hitems : ∀ x ∈ items, Uniform x)
    (hshapes : ∀ x ∈ items, ∀ y ∈ items, x.shape = y.shape) : Uniform (.array items)

theorem HasShape.shape_eq {s : Shape} {x y : Operand} (hx : HasShape s x) (hy : HasShape s y) :
    x.shape = y.shape := by
  induction s generalizing x y with
  | scalar =>
    cases x with
    | array xs => exact hx.elim
    | _ =>
      cases y with
      | array ys => exact hy.elim
      | _ => rfl
  | array len elem ih =>
    cases x with
    | array xs =>
      cases y with
      | array ys =>
        -- Only the length of an array and the shape of its first element show.
        have hlen : xs.length = ys.length := hx.1.trans hy.1.symm
        cases xs with
        | nil =>
          obtain rfl : ys = [] := List.length_eq_zero_iff.mp hlen.symm
          rfl
        | cons a as =>
          cases ys with
          | nil => contradiction
          | cons b bs =>
            have hrest : as.length = bs.length := Nat.succ.inj hlen
            have hfirst : a.shape = b.shape := ih (hx.2 a (.head _)) (hy.2 b (.head _))
            simp only [shape, hrest, hfirst]
      | _ => exact hy.elim
    | _ => exact hx.elim

/-- Arrays are uniform, all the way down, if and only if some shape describes the whole operand. -/
theorem uniform_iff_rectangular {op : Operand} : op.Uniform ↔ op.Rectangular := by
  constructor
  · intro h
    induction h with
    | @leaf op hop =>
      refine ⟨.scalar, ?_⟩
      cases op with
      | array items => exact absurd rfl (hop items)
      | _ => trivial
    | @array items hitems hshapes ih =>
      cases items with
      | nil => exact ⟨.array 0 .scalar, rfl, by simp⟩
      | cons a as =>
        -- All elements have the shape of the first, so that shape describes the whole array.
        refine ⟨.array (as.length + 1) a.shape, rfl, ?_⟩
        intro x hx
        rw [hshapes a (.head _) x hx]
        exact hasShape_shape_iff.mpr (ih x hx)
  · rintro ⟨s, hs⟩
    induction s generalizing op with
    | scalar =>
      refine .leaf ?_
      rintro items rfl
      exact hs
    | array len elem ih =>
      cases op with
      | array items =>
        -- Elements that one shape describes show the same shape.
        exact .array (fun x hx => ih (hs.2 x hx)) fun x hx y hy => (hs.2 x hx).shape_eq (hs.2 y hy)
      | _ => exact hs.elim

/-- A shape describes an operand if and only if the operand is laid out as the shape. -/
theorem outline_eq_layout_iff {s : Shape} {op : Operand} :
    op.outline = s.layout ↔ HasShape s op := by
  induction s generalizing op with
  | scalar => cases op <;> simp [outline, Shape.layout, HasShape]
  | array len elem ih =>
    cases op with
    | array items =>
      simp only [outline, outlines_eq_map, Shape.layout, Layout.node.injEq, List.eq_replicate_iff,
        List.length_map, List.forall_mem_map, HasShape, ih]
    | _ => simp [outline, Shape.layout, HasShape]

/-! ### Chains that go on -/

/-- The chain that goes on from `base` with the given steps. -/
def chain (base : Operand) : List (Nat × Nat) → Operand
  | [] => base
  | (index, size) :: steps => chain (.proj base index size) steps

end Operand

namespace Value

/-! ### Layouts of values -/

theorem length_ofLayouts (ls : List Layout) (base : Operand) (size i : Nat) :
    (ofLayouts ls base size i).length = ls.length := by
  rw [ofLayouts_eq_map, List.length_map, List.length_zipIdx]

mutual

/-- The layout along which an operand was taken apart can be told from the value. -/
theorem ofLayout_injective {base : Operand} : ∀ {l m : Layout},
    ofLayout l base = ofLayout m base → l = m
  | .leaf, .leaf, _ => rfl
  | .leaf, .node _, h | .node _, .leaf, h => by simp [ofLayout] at h
  | .node ls, .node ms, h => by
    have hitems : ofLayouts ls base ls.length 0 = ofLayouts ms base ms.length 0 := Value.list.inj h
    have hlen : ls.length = ms.length := by
      rw [← length_ofLayouts ls base ls.length 0, hitems, length_ofLayouts]
    rw [hlen] at hitems
    rw [ofLayouts_injective hitems]

theorem ofLayouts_injective {base : Operand} {size i : Nat} : ∀ {ls ms : List Layout},
    ofLayouts ls base size i = ofLayouts ms base size i → ls = ms
  | [], [], _ => rfl
  | [], _ :: _, h | _ :: _, [], h => by simp [ofLayouts] at h
  | l :: ls, m :: ms, h => by
    obtain ⟨hfirst, hrest⟩ := List.cons.inj h
    rw [ofLayout_injective hfirst, ofLayouts_injective hrest]

end

/-! ### Paths -/

/-- What is seen of an element is one projection further. -/
theorem getElem?_ofOutputItems (items : List Operand) (base : Operand) (size k : Nat) :
    (ofOutputItems items base size 0)[k]? =
      items[k]?.map fun x => ofOutput x (.proj base k size) := by
  rw [ofOutputItems_eq_ofLayouts, ofLayouts_eq_map, Operand.outlines_eq_map]
  simp [List.getElem?_zipIdx, ofOutput_eq_ofLayout, Function.comp_def]

/-- A path goes on through what is seen of an array, at an element that is there. -/
theorem follow_cons_ofOutput_eq_ok_iff {output base : Operand} {k : Nat} {path : List Nat}
    {v : Value} : (ofOutput output base).follow (k :: path) = .ok v ↔
      ∃ items y, output = .array items ∧ items[k]? = some y ∧
        (ofOutput y (.proj base k items.length)).follow path = .ok v := by
  cases output with
  | array items =>
    have hitem := getElem?_ofOutputItems items base items.length k
    cases hy : items[k]? with
    | none => simp [ofOutput, follow, element, hitem, hy, bind, Except.bind]
    | some y => simp [ofOutput, follow, element, hitem, hy, bind, Except.bind]
  | _ => simp [ofOutput, follow, element, bind, Except.bind]

/-- A path through what a call site sees of an output passes the arrays of the output, and ends at
    what is seen of the part that it leads to. -/
theorem follow_ofOutput_eq_ok_iff {output base : Operand} {path : List Nat} {v : Value} :
    (ofOutput output base).follow path = .ok v ↔
      ∃ steps x, steps.map Prod.fst = path ∧ output.follow? steps = some x ∧
        v = ofOutput x (base.chain steps) := by
  induction path generalizing output base with
  | nil =>
    constructor
    · intro h
      exact ⟨[], output, rfl, rfl, (Except.ok.inj h).symm⟩
    · rintro ⟨steps, x, hpath, hx, rfl⟩
      obtain rfl : steps = [] := List.map_eq_nil_iff.mp hpath
      obtain rfl : output = x := Option.some.inj hx
      rfl
  | cons k path ih =>
    rw [follow_cons_ofOutput_eq_ok_iff]
    constructor
    · rintro ⟨items, y, rfl, hy, h⟩
      obtain ⟨steps, x, rfl, hx, rfl⟩ := ih.mp h
      -- The step into the array carries the number of its elements.
      refine ⟨(k, items.length) :: steps, x, rfl, ?_, rfl⟩
      exact Operand.follow?_cons_eq_some_iff.mpr ⟨items, y, rfl, rfl, hy, hx⟩
    · rintro ⟨steps, x, hpath, hx, rfl⟩
      obtain ⟨⟨index, size⟩, steps, rfl, rfl, rfl⟩ := List.map_eq_cons_iff.mp hpath
      obtain ⟨items, y, rfl, rfl, hy, hx⟩ := Operand.follow?_cons_eq_some_iff.mp hx
      exact ⟨items, y, rfl, hy, ih.mpr ⟨steps, x, rfl, hx, rfl⟩⟩

theorem items?_ofOutput_eq_none_iff {output base : Operand} :
    (ofOutput output base).items? = none ↔ ∀ items, output ≠ .array items := by
  cases output <;> simp [ofOutput, items?]

theorem ofOutput_of_ne_array {output : Operand} (h : ∀ items, output ≠ .array items)
    (base : Operand) : ofOutput output base = .operand base := by
  cases output with
  | array items => exact absurd rfl (h items)
  | _ => rfl

/-- What a call site sees of an output is the placeholder of the shape that the output shows, if and
    only if its arrays are uniform. Whatever the output is, a path ends at a leaf of what is seen if
    and only if it leads to a part of the output that is no array; and this leaf is the chain of
    projections of the call along the path, with the number of elements of each array passed. -/
theorem ofOutput_eq_placeholder_iff (output base : Operand) :
    (ofOutput output base = placeholder output.shape base ↔ output.Uniform) ∧
    ∀ (path : List Nat) (leaf : Value),
      (ofOutput output base).follow path = .ok leaf ∧ leaf.items? = none ↔
        ∃ steps x, steps.map Prod.fst = path ∧ output.follow? steps = some x ∧
          (∀ items, x ≠ .array items) ∧ leaf = .operand (base.chain steps) := by
  constructor
  -- Both sides are `base` taken apart, and the layout can be told from the result.
  · rw [Operand.uniform_iff_rectangular, ← Operand.hasShape_shape_iff,
      ← Operand.outline_eq_layout_iff, ofOutput_eq_ofLayout, placeholder_eq_ofLayout]
    constructor
    · exact ofLayout_injective
    · intro h
      rw [h]
  · intro path leaf
    rw [follow_ofOutput_eq_ok_iff]
    constructor
    · rintro ⟨⟨steps, x, hpath, hx, rfl⟩, hleaf⟩
      -- A path ends at a leaf where the output has no array, and what is seen there is the chain
      -- itself.
      have hop := items?_ofOutput_eq_none_iff.mp hleaf
      exact ⟨steps, x, hpath, hx, hop, ofOutput_of_ne_array hop _⟩
    · rintro ⟨steps, x, hpath, hx, hop, rfl⟩
      exact ⟨⟨steps, x, hpath, hx, (ofOutput_of_ne_array hop _).symm⟩, rfl⟩

/-- Two rows of two elements are seen as the placeholder of their shape. A single element beside a
    row is not, and still each of its elements is seen where it stands. -/
theorem ofOutput_eq_placeholder_iff_rows :
    let grid : Operand := .array [.array [.input 0, .input 1], .array [.const 5, .gate 2]]
    let mixed : Operand := .array [.input 0, .array [.input 1, .const 5]]
    grid.Uniform ∧ ¬ mixed.Uniform ∧
      ∃ steps x, steps.map Prod.fst = [1, 0] ∧ mixed.follow? steps = some x ∧
        (∀ items, x ≠ .array items) ∧
          Value.operand (.proj (.proj (.gate 7) 1 2) 0 2) =
            .operand ((Operand.gate 7).chain steps) := by
  intro grid mixed
  have hgrid := ofOutput_eq_placeholder_iff grid (.gate 7)
  have hmixed := ofOutput_eq_placeholder_iff mixed (.gate 7)
  refine ⟨hgrid.1.mp rfl, ?_, (hmixed.2 [1, 0] _).mp ⟨rfl, rfl⟩⟩
  intro h
  have hseen := hmixed.1.mpr h
  simp [mixed, ofOutput, ofOutputItems, placeholder, Operand.shape, List.range_succ] at hseen

end Value

end GateTrace
