import GateTrace.Proofs.Interruption
import GateTrace.Proofs.WholeValues

/-! # Shapes of fields

    Shapes are read off twice: off the storage of a field, for its argument, and off the operand that
    a gadget returns, for its output. The key ideas:

    - Both readings look at first elements, so both are the shape that a layout shows: the lengths of
      the arrays of the storage, and those of the array literals of the operand. Where wires hold
      nothing that is written as a literal, the two layouts are one, ragged or not.
    - After an initialization on its own schema a field stands for its source, spelled out along the
      layout of the declared shape. That shape is one that was read off storage already, so what
      hides behind an empty array was lost before, and is not lost again.
-/

namespace GateTrace

/-! ### Shapes that layouts show -/

theorem Operand.shape_outline : ∀ op : Operand, op.outline.shape = op.shape
  | .array [] => rfl
  | .array (x :: xs) => by
    simp only [outline, outlines, Layout.shape, shape]
    rw [length_outlines, shape_outline x]
  | .input _ | .gate _ | .const _ | .nat _ | .proj _ _ _ => rfl

/-- What is read off storage is read off again from a layout of it. -/
theorem Signal.shape_layout_shape : ∀ s : Signal, s.shape.layout.shape = s.shape
  | .wire _ => rfl
  | .array [] => rfl
  | .array (s :: slots) => by
    rw [shape, Shape.layout, List.replicate_succ, Layout.shape, List.length_replicate,
      shape_layout_shape s]

namespace Operand

mutual

/-- The literals of an operand that is spelled out along a layout show that layout. -/
theorem outline_spell : ∀ (l : Layout) {base : Operand}, (∀ items, base ≠ .array items) →
    (spell l base).outline = l
  | .leaf, base, hbase => by
    cases base with
    | array items => exact absurd rfl (hbase items)
    | _ => rfl
  | .node ls, base, _ => by
    rw [spell, outline, outlines_spellAll]

theorem outlines_spellAll : ∀ (ls : List Layout) (base : Operand) (size i : Nat),
    outlines (spellAll ls base size i) = ls
  | [], _, _, _ => rfl
  | l :: ls, base, size, i => by
    have hproj : ∀ items, proj base i size ≠ .array items := by simp
    rw [spellAll, outlines, outline_spell l hproj, outlines_spellAll]

end

end Operand

/-! ### Elementary signals -/

/-- Whether a value is an integer or an operand that is no array literal. -/
def Value.Elementary : Value → Prop
  | .int _ => True
  | .operand (.array _) => False
  | .operand _ => True
  | .nil | .list _ => False

/-- A signal of which every wire holds an elementary value. -/
inductive Signal.Elementary : Signal → Prop
  | wire {v : Value} (h : v.Elementary) : Elementary (.wire v)
  | array {slots : List Signal} (h : ∀ s ∈ slots, Elementary s) : Elementary (.array slots)

/-- An elementary value stands for an operand that is no array literal. -/
theorem Value.Elementary.toOperand {v : Value} (h : v.Elementary) :
    ∃ op, v.toOperand = .ok op ∧ op.outline = .leaf := by
  cases v with
  | int v => exact ⟨.const v, rfl, rfl⟩
  | operand op =>
    cases op with
    | array items => exact h.elim
    | _ => exact ⟨_, rfl, rfl⟩
  | nil | list _ => exact h.elim

namespace Signal

mutual

/-- An elementary signal stands for an operand with a literal for each of its arrays. -/
theorem outline_of_elementary : ∀ {s : Signal}, s.Elementary →
    ∃ op, s.toValue.toOperand = .ok op ∧ op.outline = s.layout
  | .wire _, .wire hv => hv.toOperand
  | .array _, .array hslots => by
    obtain ⟨ops, hops, houtlines⟩ := outlines_of_elementary hslots
    exact ⟨.array ops, Value.toOperand_list_eq_ok_iff.mpr ⟨ops, hops, rfl⟩,
      congrArg Layout.node houtlines⟩

theorem outlines_of_elementary : ∀ {slots : List Signal}, (∀ s ∈ slots, s.Elementary) →
    ∃ ops, Value.toOperands (toValues slots) = .ok ops ∧ Operand.outlines ops = layouts slots
  | [], _ => ⟨[], rfl, rfl⟩
  | s :: slots, h => by
    obtain ⟨hs, hslots⟩ := List.forall_mem_cons.mp h
    obtain ⟨op, hop, houtline⟩ := outline_of_elementary hs
    obtain ⟨ops, hops, houtlines⟩ := outlines_of_elementary hslots
    refine ⟨op :: ops, Value.toOperands_cons_eq_ok hop hops, ?_⟩
    rw [Operand.outlines, layouts, houtline, houtlines]

end

/-- Whether what a signal holds stands for an operand of the signal's own shape. -/
def KeepsShape (s : Signal) : Prop :=
  ∃ op, s.toValue.toOperand = .ok op ∧ op.shape = s.shape

theorem Elementary.keepsShape {s : Signal} (h : s.Elementary) : s.KeepsShape := by
  obtain ⟨op, hop, houtline⟩ := outline_of_elementary h
  refine ⟨op, hop, ?_⟩
  rw [← op.shape_outline, houtline, s.shape_layout]

/-- A signal that holds the placeholder of its own shape keeps the shape. -/
theorem keepsShape_of_placeholder {s : Signal} {base : Operand}
    (hbase : ∀ items, base ≠ .array items) (h : s.toValue = .placeholder s.shape base) :
    s.KeepsShape := by
  refine ⟨.spell s.shape.layout base, ?_, ?_⟩
  · rw [h, Value.toOperand_placeholder]
  · rw [← Operand.shape_outline, Operand.outline_spell _ hbase, s.shape_layout_shape]

end Signal

/-! ### Fields that hold their placeholders -/

theorem Record.values_eq_map_signals (r : Record) :
    r.values = r.signals.map fun signal => signal.2.toValue := by
  have hvalue : Field.value? = fun f => f.signal?.map fun signal => signal.2.toValue := by
    funext ⟨name, slot⟩
    cases slot <;> rfl
  show r.fields.filterMap Field.value? = _
  rw [hvalue, signals, List.map_filterMap]

/-- An initialization, with whatever schema and however it ends, keeps the schema of the record. -/
theorem Record.schema_withPlaceholders (r : Record) (s : Schema) :
    (r.withPlaceholders s).1.schema = r.schema :=
  schema_eq_of_frame rfl Field.frame_fill

section

variable {r inner : Record} (hinner : r.withPlaceholders r.schema = (inner, .ok ()))
include hinner

/-- On its own schema a record keeps the arguments, which are now those of the filled signals. -/
theorem Record.args_schema_filled :
    r.schema.args = inner.signals.map fun signal => ⟨signal.1, signal.2.shape⟩ := by
  have hschema := r.schema_withPlaceholders r.schema
  rw [hinner] at hschema
  rw [← hschema, args_schema]

/-- A record that was initialized on its own schema holds, in the `j`-th of its signals, the
    placeholder of that signal's shape over input `j`. -/
theorem Record.toValue_filled {j : Nat} {name : String} {s : Signal}
    (hs : inner.signals[j]? = some (name, s)) : s.toValue = .placeholder s.shape (.input j) := by
  have hvalues := values_withPlaceholders hinner
  rw [values_eq_map_signals, args_schema_filled hinner] at hvalues
  have hvalue := congrArg (·[j]?) hvalues
  simpa [hs, List.getElem?_zipIdx] using hvalue

/-- Each signal of a record that was initialized on its own schema keeps its shape. -/
theorem Record.keepsShape_filled {j : Nat} {name : String} {s : Signal}
    (hs : inner.signals[j]? = some (name, s)) : s.KeepsShape :=
  Signal.keepsShape_of_placeholder (by simp) (toValue_filled hinner hs)

end

/-! ### Gadgets that return a field -/

/-- A value that stands for an operand is the output of a gadget whose definition returned it. -/
theorem Extractor.output?_eq_of_toOperand {v : Value} {op : Operand} (h : v.toOperand = .ok op) :
    output? v = .ok (some op) := by
  cases v with
  | nil => contradiction
  | operand _ | int _ | list _ => simp [output?, h, bind, Except.bind, pure, Except.pure]

/-- The operand that a signal stands for has the shape that the storage shows, if every wire holds an
    integer or an operand that is no array literal, whatever the lengths of its arrays. So it is for
    every signal of a record that was initialized on its own schema, the signals being the listed
    arguments still; and a gadget whose definition returns one of them is sealed, with the shape of
    the argument as that of its output. -/
theorem shape_of_storage_eq_shape_of_operand :
    (∀ s : Signal, s.Elementary → s.KeepsShape) ∧
    (∀ r inner : Record, r.withPlaceholders r.schema = (inner, .ok ()) →
      List.Forall₂ (fun signal arg => signal.1 = arg.name ∧ signal.2.shape = arg.shape ∧
        signal.2.KeepsShape) inner.signals r.schema.args) ∧
    ∀ (ex ex' : Extractor) (r inner : Record)
      (run : Record → Extractor → Extractor × Except Stop Value) (j : Nat) (name : String)
      (s : Signal), r.withPlaceholders r.schema = (inner, .ok ()) →
        inner.signals[j]? = some (name, s) →
        run inner { ex.note (.extractingGadget r.schema.uniqueName) with code := [] } =
          (ex', .ok s.toValue) →
        ∃ (g : Gadget) (shape : Shape), (ex.extract r run).1.gadgets = ex'.gadgets ++ [g] ∧
          (ex.extract r run).2 = .ok (g.callee ex'.gadgets.length) ∧ g.args = r.schema.args ∧
          g.args[j]? = some ⟨name, shape⟩ ∧ g.outputShape = some shape := by
  refine ⟨fun s hs => hs.keepsShape, ?_, ?_⟩
  · intro r inner hinner
    -- After the initialization the arguments are those of the filled signals.
    rw [Record.args_schema_filled hinner, List.forall₂_map_right_iff, List.forall₂_same]
    intro ⟨name, s⟩ hmem
    obtain ⟨j, hs⟩ := List.mem_iff_getElem?.mp hmem
    exact ⟨rfl, rfl, Record.keepsShape_filled hinner hs⟩
  · intro ex ex' r inner run j name s hinner hs hrun
    obtain ⟨op, hop, hshape⟩ := Record.keepsShape_filled hinner hs
    -- The definition answers with what the signal holds, which stands for an operand of its shape.
    have hextract : ex.extract r run =
        Extractor.settle r.schema ex.code (ex', .ok s.toValue) := by
      rw [Extractor.extract_eq_settle hinner, hrun]
    have houtput := Extractor.output?_eq_of_toOperand hop
    have harg : r.schema.args[j]? = some ⟨name, s.shape⟩ := by
      rw [Record.args_schema_filled hinner, List.getElem?_map, hs]
      rfl
    refine ⟨r.schema.gadget (some op) ex'.code, s.shape, ?_, ?_, rfl, harg, ?_⟩
    · simp only [hextract, Extractor.settle, houtput, Extractor.enroll_gadgets]
    · simp only [hextract, Extractor.settle, houtput, Extractor.enroll]
    · exact congrArg some hshape

/-- Three rows of different lengths, of which the second is empty, hold literals and results of
    nodes. A gadget with a wire, a parameter and a grid of two rows of three returns the grid. -/
theorem shape_of_storage_eq_shape_of_operand_grid :
    let ragged : Signal := .array [.array [.wire (.int 1), .wire (.operand (.input 0))], .array [],
      .array [.wire (.operand (.proj (.gate 2) 0 4))]]
    let row : Signal := .array [.wire .nil, .wire (.int 7), .wire .nil]
    let r : Record := ⟨"Grid", [⟨"x", .signal (.wire .nil)⟩, ⟨"depth", .parameter 2⟩,
      ⟨"grid", .signal (.array [row, row])⟩]⟩
    let args : List Argument := [⟨"x", .scalar⟩, ⟨"grid", .array 2 (.array 3 .scalar)⟩]
    let run : Record → Extractor → Extractor × Except Stop Value :=
      fun inner ex => (ex, .ok (inner.values.getD 1 .nil))
    (ragged.Elementary ∧ ragged.shape = .array 3 (.array 2 .scalar) ∧ ragged.KeepsShape) ∧
      (r.withPlaceholders r.schema).2 = .ok () ∧
      List.Forall₂ (fun signal arg => signal.2.KeepsShape ∧ signal.2.shape = arg.shape)
        (r.withPlaceholders r.schema).1.signals args ∧
      ∃ g, ((Extractor.start .bn254).extract r run).1.gadgets = [g] ∧
        g.args = args ∧ g.outputShape = some (.array 2 (.array 3 .scalar)) := by
  intro ragged row r args run
  obtain ⟨hstored, hfilled, hreturned⟩ := shape_of_storage_eq_shape_of_operand
  have hragged : ragged.Elementary := by
    refine .array ?_
    simp only [List.forall_mem_cons]
    refine ⟨.array ?_, .array (by simp), .array ?_, by simp⟩
    · exact List.forall_mem_cons.mpr ⟨.wire trivial, List.forall_mem_singleton.mpr (.wire trivial)⟩
    · exact List.forall_mem_singleton.mpr (.wire trivial)
  have hinner : r.withPlaceholders r.schema = ((r.withPlaceholders r.schema).1, .ok ()) := rfl
  refine ⟨⟨hragged, rfl, hstored ragged hragged⟩, rfl, ?_, ?_⟩
  · refine (hfilled r _ hinner).imp ?_
    rintro signal arg ⟨-, hshape, hkeeps⟩
    exact ⟨hkeeps, hshape⟩
  · obtain ⟨g, shape, hgadgets, -, hargs, harg, hshape⟩ :=
      hreturned (.start .bn254) _ r _ run 1 "grid" _ hinner rfl rfl
    have hdeclared : g.args = args := hargs
    refine ⟨g, hgadgets, hdeclared, ?_⟩
    rw [hdeclared] at harg
    obtain rfl : Shape.array 2 (.array 3 .scalar) = shape := by simpa [args] using harg
    exact hshape

end GateTrace
