import GateTrace.Definition
import GateTrace.Extractor
import GateTrace.Proofs.Collapse
import GateTrace.Proofs.Operations
import GateTrace.Proofs.Reading

/-! # Values passed on untouched

    A field, a gadget's result or the bits of a number, handed on as it was received, is written by
    its one name. The key ideas:

    - What a definition is handed is taken apart along a layout: that of a declared shape, or that of
      the output of the callee. As an operand it is the literal that spells out its source along the
      layout, one projection for each step.
    - Collapsing goes the same way back, from the leaves up, and arrives at the source unless it
      meets an empty array, which is a complete run of nothing.
-/

namespace GateTrace

/-! ### Layouts without empty arrays -/

/-- A layout of which no array is empty. -/
inductive Layout.Full : Layout → Prop
  | leaf : Full .leaf
  | node {items : List Layout} (hne : items ≠ []) (hitems : ∀ l ∈ items, Full l) :
    Full (.node items)

theorem Shape.full_layout_iff {s : Shape} : s.layout.Full ↔ ∀ d ∈ s.dims, 1 ≤ d := by
  induction s with
  | scalar => simp [layout, dims, Layout.Full.leaf]
  | array len elem ih =>
    simp only [layout, dims, List.forall_mem_cons]
    constructor
    · intro h
      cases h with
      | node hne hitems =>
        -- An array with elements is not empty.
        have hlen : 1 ≤ len := by
          by_cases hzero : len = 0
          · subst hzero
            exact absurd rfl hne
          · omega
        have helem : elem.layout ∈ List.replicate len elem.layout := by simp; omega
        exact ⟨hlen, ih.mp (hitems _ helem)⟩
    · rintro ⟨hlen, hdims⟩
      refine .node (by simp; omega) ?_
      intro l hl
      obtain rfl := List.eq_of_mem_replicate hl
      exact ih.mpr hdims

namespace Operand

/-! ### Spelling out -/

mutual

/-- The operand that stands for `base` taken apart along a layout and put together again: a literal
    for each array, down to chains of projections of `base`. -/
def spell : Layout → Operand → Operand
  | .leaf, base => base
  | .node items, base => .array (spellAll items base items.length 0)

/-- The elements, from position `i` on, of an array `base` of `size` elements that is taken apart and
    put together again. -/
def spellAll : List Layout → Operand → Nat → Nat → List Operand
  | [], _, _, _ => []
  | l :: ls, base, size, i => spell l (.proj base i size) :: spellAll ls base size (i + 1)

end

mutual

/-- What is spelled out along a layout collapses to its source, or to a literal if some array of the
    layout is empty. -/
theorem collapse_spell_cases : ∀ (l : Layout) {base : Operand}, (∀ items, base ≠ .array items) →
    (l.Full ∧ (spell l base).collapse = base) ∨
      (¬ l.Full ∧ ∃ items, (spell l base).collapse = .array items)
  | .leaf, base, hbase => by
    refine .inl ⟨.leaf, ?_⟩
    cases base with
    | array items => exact absurd rfl (hbase items)
    | _ => rfl
  | .node ls, base, _ => by
    rcases collapseAll_spellAll_cases ls base ls.length 0 with ⟨hfull, hrun⟩ | ⟨hempty, items, hitem⟩
    · by_cases hne : ls = []
      · subst hne
        exact .inr ⟨fun h => by cases h; contradiction, [], rfl⟩
      · refine .inl ⟨.node hne hfull, ?_⟩
        rw [spell, collapse, hrun, wholeVector?_run base (List.length_pos_iff.mpr hne)]
        rfl
    · refine .inr ⟨fun h => by cases h; contradiction, ?_⟩
      -- No element of a complete run is a literal.
      rcases collapse_array (spellAll ls base ls.length 0) with hliteral | ⟨-, hall⟩
      · exact ⟨_, hliteral⟩
      · rw [hall] at hitem
        obtain ⟨k, -, hk⟩ := List.mem_map.mp hitem
        contradiction

/-- Elements that are spelled out collapse to the projections of the array, or one of them to a
    literal if some array in their layouts is empty. -/
theorem collapseAll_spellAll_cases : ∀ (ls : List Layout) (base : Operand) (size i : Nat),
    ((∀ l ∈ ls, l.Full) ∧ collapseAll (spellAll ls base size i) = run base size i ls.length) ∨
      (¬ (∀ l ∈ ls, l.Full) ∧ ∃ items, .array items ∈ collapseAll (spellAll ls base size i))
  | [], _, _, _ => .inl ⟨by simp, rfl⟩
  | l :: ls, base, size, i => by
    have hproj : ∀ items, Operand.proj base i size ≠ .array items := by simp
    -- The first element collapses to its projection, or a literal is left, which is no projection.
    rcases collapse_spell_cases l hproj with ⟨hl, hhead⟩ | ⟨hl, items, hhead⟩
    · rcases collapseAll_spellAll_cases ls base size (i + 1) with ⟨hls, htail⟩ | ⟨hls, items, htail⟩
      · refine .inl ⟨List.forall_mem_cons.mpr ⟨hl, hls⟩, ?_⟩
        rw [spellAll, collapseAll, hhead, htail]
        rfl
      · refine .inr ⟨fun h => hls (List.forall_mem_cons.mp h).2, items, ?_⟩
        rw [spellAll, collapseAll]
        exact List.mem_cons_of_mem _ htail
    · refine .inr ⟨fun h => hl (List.forall_mem_cons.mp h).1, items, ?_⟩
      rw [spellAll, collapseAll, hhead]
      exact List.mem_cons_self

end

/-- What is spelled out along a layout collapses to its source exactly if no array of the layout is
    empty. -/
theorem collapse_spell_iff {l : Layout} {base : Operand} (hbase : ∀ items, base ≠ .array items) :
    (spell l base).collapse = base ↔ l.Full := by
  rcases collapse_spell_cases l hbase with ⟨hfull, hcollapse⟩ | ⟨hempty, items, hcollapse⟩
  · exact ⟨fun _ => hfull, fun _ => hcollapse⟩
  · constructor
    · intro heq
      exact absurd (heq.symm.trans hcollapse) (hbase items)
    · intro hfull
      exact absurd hfull hempty

end Operand

namespace Value

/-! ### Values as operands -/

mutual

/-- A value that is taken apart along a layout stands for the operand that spells it out. -/
theorem toOperand_ofLayout : ∀ (l : Layout) (base : Operand),
    (ofLayout l base).toOperand = .ok (.spell l base)
  | .leaf, _ => rfl
  | .node ls, base =>
    toOperand_list_eq_ok_iff.mpr ⟨_, toOperands_ofLayouts ls base ls.length 0, rfl⟩

theorem toOperands_ofLayouts : ∀ (ls : List Layout) (base : Operand) (size i : Nat),
    toOperands (ofLayouts ls base size i) = .ok (Operand.spellAll ls base size i)
  | [], _, _, _ => rfl
  | l :: ls, base, size, i =>
    toOperands_cons_eq_ok (toOperand_ofLayout l (.proj base i size))
      (toOperands_ofLayouts ls base size (i + 1))

end

theorem toOperand_placeholder (shape : Shape) (base : Operand) :
    (placeholder shape base).toOperand = .ok (.spell shape.layout base) := by
  rw [placeholder_eq_ofLayout, toOperand_ofLayout]

theorem toOperand_ofOutput (output base : Operand) :
    (ofOutput output base).toOperand = .ok (.spell output.outline base) := by
  rw [ofOutput_eq_ofLayout, toOperand_ofLayout]

end Value

/-! ### Bits -/

/-- A decomposition has a bit if it is not asked for none. -/
theorem Operation.bitWidth_pos (field : ScalarField) {width : Option Int}
    (hwidth : ∀ w ∈ width, 1 ≤ w) : 0 < bitWidth field width := by
  cases width with
  | none => exact Nat.succ_pos _
  | some w =>
    have hw : 1 ≤ w := hwidth w rfl
    show 0 < w.toNat
    omega

namespace Extractor

/-- A value that stands for an operand is taken apart into its bits, which are seen as projections of
    the node. -/
theorem perform_toBinary (ex : Extractor) {x : Value} {op : Operand} (hx : x.toOperand = .ok op)
    {width : Option Int} (hwidth : ∀ w ∈ width, 0 ≤ w) :
    ex.perform (.toBinary x width) =
      .ok (ex.push ⟨.gate .toBinary, [op, .nat (Operation.bitWidth ex.field width)]⟩,
        .placeholder (.array (Operation.bitWidth ex.field width) .scalar) (.gate ex.code.length)) := by
  have hposed : (Operation.toBinary x width).WellPosed := by
    cases width with
    | none => trivial
    | some w => exact hwidth w rfl
  unfold perform
  rw [Operation.node_toBinary hposed hx]
  rfl

/-- The bits of a vector that has any are put together as one argument, which spells out the
    vector. -/
theorem perform_fromBinary (ex : Extractor) {n : Nat} (hn : 0 < n) {base : Operand}
    {bits : List Value} (hbits : Value.placeholder (.array n .scalar) base = .list bits) :
    ex.perform (.fromBinary bits) =
      .ok (ex.push ⟨.gate .fromBinary, [.spell (Shape.array n .scalar).layout base]⟩,
        .operand (.gate ex.code.length)) := by
  have hops : Value.toOperands (Operation.fromBinary bits).values =
      .ok [.spell (Shape.array n .scalar).layout base] := by
    have hbit := Value.toOperand_placeholder (.array n .scalar) base
    rw [hbits] at hbit
    exact Value.toOperands_cons_eq_ok hbit rfl
  have hposed : (Operation.fromBinary bits).WellPosed := by
    obtain rfl := Value.list.inj hbits
    refine ⟨by simp; omega, ?_⟩
    intro b hb
    obtain ⟨k, -, rfl⟩ := List.mem_map.mp hb
    rfl
  unfold perform
  rw [Operation.node_eq_of_kind_ne hposed hops nofun]
  rfl

end Extractor

/-! ### Whole values -/

/-- Whether a value, passed on as a whole, is written by a name. -/
def Value.WrittenAs (params : List Argument) (used : List Nat) (x : String) (v : Value) : Prop :=
  ∃ op, v.toOperand = .ok op ∧ Definition.term params used op.collapse = .ok (.var x)

theorem Definition.ne_array_of_term {params : List Argument} {used : List Nat} {base : Operand}
    {x : String} (h : term params used base = .ok (.var x)) (items : List Operand) :
    base ≠ .array items := by
  rintro rfl
  obtain ⟨ts, -, hvec⟩ := term_array_eq_ok h
  contradiction

/-- What is taken apart along a layout without empty arrays is written by the name of its source. -/
theorem Value.writtenAs_ofLayout {params : List Argument} {used : List Nat} {base : Operand}
    {x : String} (h : Definition.term params used base = .ok (.var x)) {l : Layout} (hl : l.Full) :
    (ofLayout l base).WrittenAs params used x := by
  have hcollapse := (Operand.collapse_spell_iff (Definition.ne_array_of_term h)).mpr hl
  exact ⟨_, toOperand_ofLayout l base, by rw [hcollapse, h]⟩

/-- A value that was handed out is its source again when it is passed on as a whole, where the source
    is no literal. A placeholder is, exactly if no dimension of its shape is zero; what a call site
    sees of an output is, exactly if no array literal that the output is made of is empty; and the
    bits of a number, at least one of them, are handed to the operation that puts bits together as
    one argument, which collapses to the node they came from. So a field, a gadget's result or a
    vector of bits is written by one name where its source is. -/
theorem whole_values_collapse :
    (∀ (shape : Shape) (base : Operand), (∀ items, base ≠ .array items) →
      ∃ op, (Value.placeholder shape base).toOperand = .ok op ∧
        (op.collapse = base ↔ ∀ d ∈ shape.dims, 1 ≤ d)) ∧
    (∀ output base : Operand, (∀ items, base ≠ .array items) →
      ∃ op, (Value.ofOutput output base).toOperand = .ok op ∧
        (op.collapse = base ↔ output.outline.Full)) ∧
    (∀ (ex : Extractor) (x : Value) (op : Operand) (width : Option Int), x.toOperand = .ok op →
      (∀ w ∈ width, 1 ≤ w) →
        ∃ bits, ex.perform (.toBinary x width) =
            .ok (ex.push ⟨.gate .toBinary, [op, .nat (Operation.bitWidth ex.field width)]⟩,
              .list bits) ∧
          ∀ later : Extractor, ∃ arg, later.perform (.fromBinary bits) =
              .ok (later.push ⟨.gate .fromBinary, [arg]⟩, .operand (.gate later.code.length)) ∧
            arg.collapse = .gate ex.code.length) ∧
    ∀ (params : List Argument) (used : List Nat) (base : Operand) (x : String),
      Definition.term params used base = .ok (.var x) →
        (∀ shape : Shape, (∀ d ∈ shape.dims, 1 ≤ d) →
          (Value.placeholder shape base).WrittenAs params used x) ∧
        ∀ output : Operand, output.outline.Full →
          (Value.ofOutput output base).WrittenAs params used x := by
  refine ⟨?_, ?_, ?_, ?_⟩
  · intro shape base hbase
    refine ⟨_, Value.toOperand_placeholder shape base, ?_⟩
    rw [Operand.collapse_spell_iff hbase, Shape.full_layout_iff]
  · intro output base hbase
    exact ⟨_, Value.toOperand_ofOutput output base, Operand.collapse_spell_iff hbase⟩
  · intro ex x op width hx hwidth
    -- A width that is asked for is positive, and the default always is.
    have hpos := Operation.bitWidth_pos ex.field hwidth
    have hfull : (Shape.array (Operation.bitWidth ex.field width) .scalar).layout.Full :=
      Shape.full_layout_iff.mpr (by simp [Shape.dims]; omega)
    have hnonneg : ∀ w ∈ width, 0 ≤ w := by
      intro w hw
      have := hwidth w hw
      omega
    -- The bits are put together again at any later point, over whatever was recorded since.
    refine ⟨_, ex.perform_toBinary hx hnonneg, ?_⟩
    intro later
    refine ⟨_, later.perform_fromBinary hpos rfl, ?_⟩
    exact (Operand.collapse_spell_iff (by simp)).mpr hfull
  · intro params used base x hname
    constructor
    · intro shape hdims
      -- Placeholders and outputs are both taken apart along a layout.
      rw [Value.placeholder_eq_ofLayout]
      exact Value.writtenAs_ofLayout hname (Shape.full_layout_iff.mpr hdims)
    · intro output houtput
      rw [Value.ofOutput_eq_ofLayout]
      exact Value.writtenAs_ofLayout hname houtput

/-- A grid of two rows of three, a pair that holds a single and an empty list, three bits of a
    literal, and a field that is a grid. -/
theorem whole_values_collapse_grid :
    (∃ op, (Value.placeholder (.array 2 (.array 3 .scalar)) (.input 0)).toOperand = .ok op ∧
      op.collapse = .input 0) ∧
    (∃ op, (Value.ofOutput (.array [.array [.input 0], .array []]) (.gate 4)).toOperand = .ok op ∧
      op.collapse ≠ .gate 4) ∧
    (∃ bits, (Extractor.start .bn254).perform (.toBinary (.int 5) (some 3)) =
        .ok ((Extractor.start .bn254).push ⟨.gate .toBinary, [.const 5, .nat 3]⟩, .list bits) ∧
      ∃ arg, (Extractor.start .bn254).perform (.fromBinary bits) =
          .ok ((Extractor.start .bn254).push ⟨.gate .fromBinary, [arg]⟩, .operand (.gate 0)) ∧
        arg.collapse = .gate 0) ∧
    (Value.placeholder (.array 2 (.array 3 .scalar)) (.input 0)).WrittenAs
      [⟨"grid", .array 2 (.array 3 .scalar)⟩] [] "grid" := by
  obtain ⟨hplaceholder, houtput, hbits, hwritten⟩ := whole_values_collapse
  refine ⟨?_, ?_, ?_, ?_⟩
  · obtain ⟨op, hop, hcollapse⟩ := hplaceholder (.array 2 (.array 3 .scalar)) (.input 0) (by simp)
    exact ⟨op, hop, hcollapse.mpr (by decide)⟩
  · obtain ⟨op, hop, hcollapse⟩ := houtput (.array [.array [.input 0], .array []]) (.gate 4) (by simp)
    refine ⟨op, hop, ?_⟩
    rw [ne_eq, hcollapse]
    rintro (_ | ⟨-, hitems⟩)
    cases hitems (.node []) (by simp [Operand.outlines, Operand.outline])
    contradiction
  · obtain ⟨bits, hperform, hlater⟩ :=
      hbits (.start .bn254) (.int 5) (.const 5) (some 3) rfl (by simp)
    exact ⟨bits, hperform, hlater (.start .bn254)⟩
  · exact (hwritten _ [] (.input 0) "grid" rfl).1 _ (by decide)

end GateTrace
