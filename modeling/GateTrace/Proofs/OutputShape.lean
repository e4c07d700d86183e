import GateTrace.Proofs.Handles

/-! # Shapes of outputs

    What the declared output type of a gadget says of its output. The key ideas:

    - The shape of an operand is read off first elements only. It describes the operand at every
      position if any shape does, since operands of one shape all show the same.
    - So the type of a gadget is exact if its output is rectangular, and wrong if it is not: nothing
      between the value that a definition returns and the table entry looks past first elements.
    - A returned value is refused for what is unassigned in it, and for nothing else.
-/

namespace GateTrace

namespace Operand

/-! ### Shapes that describe an operand -/

/-- Whether a shape describes an operand at every position: an array literal of `len` elements of
    one shape stands where the shape has such an array, and no literal stands where it has none. -/
def HasShape : Shape → Operand → Prop
  | .array len elem, .array items => items.length = len ∧ ∀ x ∈ items, HasShape elem x
  | .array _ _, _ => False
  | .scalar, .array _ => False
  | .scalar, _ => True

def decideHasShape : (s : Shape) → (op : Operand) → Decidable (HasShape s op)
  | .array len elem, .array items =>
    have : DecidablePred (HasShape elem) := decideHasShape elem
    inferInstanceAs (Decidable (items.length = len ∧ ∀ x ∈ items, HasShape elem x))
  | .array _ _, .input _ | .array _ _, .gate _ | .array _ _, .const _ | .array _ _, .nat _
  | .array _ _, .proj _ _ _ => isFalse id
  | .scalar, .array _ => isFalse id
  | .scalar, .input _ | .scalar, .gate _ | .scalar, .const _ | .scalar, .nat _
  | .scalar, .proj _ _ _ => isTrue trivial

instance (s : Shape) (op : Operand) : Decidable (HasShape s op) := decideHasShape s op

/-- An operand is rectangular if some shape describes it. -/
def Rectangular (op : Operand) : Prop := ∃ s, HasShape s op

theorem HasShape.shape_of_same {s : Shape} {x y : Operand} (hx : HasShape s x)
    (hy : HasShape s y) : HasShape x.shape y := by
  induction s generalizing x y with
  | scalar =>
    cases x with
    | array items => exact hx.elim
    | _ => exact hy
  | array len elem ih =>
    cases x with
    | array xs =>
      cases y with
      | array ys =>
        cases xs with
        | nil =>
          -- Whatever elements it shows, another array of the shape has none either.
          obtain rfl : ys = [] := List.length_eq_zero_iff.mp (hy.1.trans hx.1.symm)
          exact ⟨rfl, by simp⟩
        | cons a as =>
          have hlen : ys.length = as.length + 1 := hy.1.trans hx.1.symm
          exact ⟨hlen, fun b hb => ih (hx.2 a (by simp)) (hy.2 b hb)⟩
      | _ => exact hy.elim
    | _ => exact hx.elim

/-- An operand has the shape that it shows exactly if it is rectangular. -/
theorem hasShape_shape_iff {op : Operand} : HasShape op.shape op ↔ op.Rectangular := by
  constructor
  · intro h
    exact ⟨op.shape, h⟩
  · intro h
    obtain ⟨s, hs⟩ := h
    exact hs.shape_of_same hs

end Operand

/-! ### Values that are refused -/

/-- What a definition returns is taken as an output, or some part of it is unassigned while it is
    not unassigned as a whole. -/
theorem Extractor.output?_cases (v : Value) :
    ((v = .nil ∨ v.Assigned) ∧ ∃ output, output? v = .ok output) ∨
      (v ≠ .nil ∧ ¬ v.Assigned ∧ output? v = .error (.unsupportedOperand .unassigned)) := by
  by_cases hnil : v = .nil
  · subst hnil
    exact .inl ⟨.inl rfl, none, rfl⟩
  -- Anything but the unassigned value is taken as an operand.
  · have houtput : output? v = v.toOperand.map some := by
      cases v with
      | nil => exact absurd rfl hnil
      | operand _ | int _ | list _ =>
        simp only [output?, bind, Except.bind, pure, Except.pure]
        split
        · next heq => simp [heq, Except.map]
        · next heq => simp [heq, Except.map]
    rcases v.toOperand_cases with ⟨hassigned, op, hop⟩ | ⟨hunassigned, herror⟩
    · exact .inl ⟨.inr hassigned, some op, by rw [houtput, hop]; rfl⟩
    · exact .inr ⟨hnil, hunassigned, by rw [houtput, herror]; rfl⟩

/-! ### Gadgets of a session -/

/-- Whether the declared output type of a gadget describes its output completely. -/
def Gadget.Exact (g : Gadget) : Prop :=
  match g.output, g.outputShape with
  | none, none => True
  | some op, some s => op.HasShape s
  | _, _ => False

/-- A gadget that declares what its output shows is exact if its output is rectangular. -/
theorem Gadget.exact_iff {g : Gadget} (h : g.outputShape = g.output.map Operand.shape) :
    g.Exact ↔ ∀ op ∈ g.output, op.Rectangular := by
  unfold Exact
  rw [h]
  cases g.output with
  | none => simp
  | some op => simp [Operand.hasShape_shape_iff]

namespace Machine

/-- Every gadget declares the shape that its output shows, whatever definitions do. -/
theorem Reachable.outputShape_eq {field : ScalarField} {guard : Machine → Prop} {m : Machine}
    (hm : Reachable field guard m) :
    ∀ g ∈ m.ex.gadgets, g.outputShape = g.output.map Operand.shape := by
  induction hm with
  | start => simp [Extractor.start]
  | step _ _ hstep ih =>
    -- Only the last step of a definition adds an entry, whose shape is read off its output.
    rcases hstep.table_cases with ⟨htable, -⟩ | ⟨f, output, -, htable, -⟩
    · rw [htable]
      exact ih
    · rw [htable]
      intro g hg
      rcases List.mem_append.mp hg with hg | hg
      · exact ih g hg
      · obtain rfl := List.mem_singleton.mp hg
        rfl
  | resume _ _ _ ih | circuit _ _ _ _ _ ih | takeCode _ _ ih | note _ _ _ ih => exact ih

/-- What becomes of a gadget whose definition is done: it is sealed if the value that was returned
    is unassigned as a whole or in no part, and refused otherwise. -/
theorem Step.done_cases {ex : Extractor} {level : Level} {a : Answer} {f : Frame}
    {stack : List Frame} {m' : Machine} (hstep : Step ⟨ex, level, .done a, f :: stack⟩ m') :
    ((a.toValue = .nil ∨ a.toValue.Assigned) ∧ ∃ output, Extractor.output? a.toValue = .ok output ∧
        m'.ex.gadgets = ex.gadgets ++ [level.schema.gadget output ex.code]) ∨
      (a.toValue ≠ .nil ∧ ¬ a.toValue.Assigned ∧ m'.ex.gadgets = ex.gadgets ∧
        m'.program = f.next (.error (.unsupportedOperand .unassigned))) := by
  -- The value that was answered decides which of the two steps this is.
  have hcases := Extractor.output?_cases a.toValue
  cases hstep with
  | enroll hout henrolled =>
    obtain rfl := henrolled
    rcases hcases with ⟨hassigned, -⟩ | ⟨-, -, herror⟩
    · exact .inl ⟨hassigned, _, hout, rfl⟩
    · rw [hout] at herror
      cases herror
  | enrollError hout =>
    rcases hcases with ⟨-, output, hok⟩ | ⟨hnil, hunassigned, herror⟩
    · rw [hout] at hok
      cases hok
    · obtain rfl := Except.error.inj (hout.symm.trans herror)
      exact .inr ⟨hnil, hunassigned, rfl, rfl⟩

/-- At every point of a session, whatever its definitions do, the declared type of a gadget is exact
    if and only if some shape describes the output; and a gadget whose definition is done is refused
    for a part that is unassigned, and for nothing else. -/
theorem Reachable.outputShape_exact_iff {field : ScalarField} {guard : Machine → Prop}
    {m : Machine} (hm : Reachable field guard m) :
    (∀ g ∈ m.ex.gadgets, g.Exact ↔ ∀ op ∈ g.output, op.Rectangular) ∧
      ∀ a f stack m', m.program = .done a → m.stack = f :: stack → Step m m' →
        ((a.toValue = .nil ∨ a.toValue.Assigned) ∧
          ∃ output, Extractor.output? a.toValue = .ok output ∧
            m'.ex.gadgets = m.ex.gadgets ++ [m.entry output]) ∨
        (a.toValue ≠ .nil ∧ ¬ a.toValue.Assigned ∧ m'.ex.gadgets = m.ex.gadgets ∧
          m'.program = f.next (.error (.unsupportedOperand .unassigned))) := by
  refine ⟨fun g hg => Gadget.exact_iff (hm.outputShape_eq g hg), ?_⟩
  intro a f stack m' hprogram hstack hstep
  obtain ⟨ex, level, program, waiting⟩ := m
  obtain rfl : program = .done a := hprogram
  obtain rfl : waiting = f :: stack := hstack
  exact hstep.done_cases

/-- A gadget that returns two rows of two elements, recorded to the end. -/
theorem Reachable.outputShape_exact_iff_grid :
    ∃ m : Machine, Reachable .bn254 (fun _ => True) m ∧ ∃ g, m.ex.gadgets = [g] ∧
      g.outputShape = some (.array 2 (.array 2 .scalar)) ∧ g.Exact := by
  let r : Record := ⟨"Grid", [⟨"x", .signal (.wire .nil)⟩]⟩
  let x : Value := .operand (.input 0)
  let body : Record → Program := fun _ => .done (.value (.list [.list [x, x], .list [x, x]]))
  have hstart : Reachable .bn254 (fun _ => True) _ :=
    .resume .start ⟨rfl, .inl ⟨_, rfl⟩⟩ (.handleOf r body)
  have henter : Reachable .bn254 (fun _ => True) _ := .step hstart trivial (.enter rfl rfl)
  have henroll : Reachable .bn254 (fun _ => True) _ := .step henter trivial (.enroll rfl rfl)
  obtain ⟨hexact, -⟩ := outputShape_exact_iff henroll
  refine ⟨_, henroll, _, rfl, rfl, (hexact _ (List.mem_singleton.mpr rfl)).mpr ?_⟩
  rintro op ⟨⟩
  exact ⟨.array 2 (.array 2 .scalar), by decide⟩

/-- A gadget that returns a row of two elements and a row of one is sealed, and declares two rows of
    two elements. -/
theorem Reachable.not_outputShape_exact :
    ∃ m : Machine, Reachable .bn254 (fun _ => True) m ∧ ∃ g, m.ex.gadgets = [g] ∧
      g.output = some (.array [.array [.input 0, .input 0], .array [.input 0]]) ∧
        g.outputShape = some (.array 2 (.array 2 .scalar)) ∧ ¬ g.Exact := by
  let r : Record := ⟨"Ragged", [⟨"x", .signal (.wire .nil)⟩]⟩
  let x : Value := .operand (.input 0)
  let body : Record → Program := fun _ => .done (.value (.list [.list [x, x], .list [x]]))
  have hstart : Reachable .bn254 (fun _ => True) _ :=
    .resume .start ⟨rfl, .inl ⟨_, rfl⟩⟩ (.handleOf r body)
  have henter : Reachable .bn254 (fun _ => True) _ := .step hstart trivial (.enter rfl rfl)
  have henroll : Reachable .bn254 (fun _ => True) _ := .step henter trivial (.enroll rfl rfl)
  refine ⟨_, henroll, _, rfl, rfl, rfl, ?_⟩
  show ¬ Operand.HasShape (.array 2 (.array 2 .scalar))
    (.array [.array [.input 0, .input 0], .array [.input 0]])
  decide

end Machine

end GateTrace
