import GateTrace.Proofs.Collapse

/-! # The normal form of operands

    What is left once complete runs of projections are collapsed. The key ideas:

    - A literal gives way exactly if its collapsed elements spell out one vector. In any other case
      it stays a literal, with the collapsed elements in their places.
    - Projections are not looked into, so what is spelled out could be a literal with a complete run
      of its own. Where no projection is of a literal in the end, the vector that takes the place of a
      literal holds none, and no complete run is left at any depth.
    - An operand without complete runs is its own collapsed form, so collapsing twice is collapsing
      once.
-/

namespace GateTrace.Operand

/-! ### Literals -/

def isArray : Operand → Bool
  | .array _ => true
  | _ => false

mutual

/-- The array literals in an operand, at any depth, each as its list of elements. -/
def literals : Operand → List (List Operand)
  | .proj base _ _ => literals base
  | .array items => items :: literalsAll items
  | _ => []

def literalsAll : List Operand → List (List Operand)
  | [] => []
  | x :: xs => literals x ++ literalsAll xs

end

theorem literalsAll_eq_flatMap (xs : List Operand) : literalsAll xs = xs.flatMap literals := by
  induction xs with
  | nil => rfl
  | cons x xs ih => simp [literalsAll, ih]

/-! ### Roots of projections -/

/-- Whether no projection in an operand is out of an array literal in the end. -/
def Rooted (op : Operand) : Prop := ∀ p ∈ op.projections, p.root.isArray = false

instance (op : Operand) : Decidable op.Rooted :=
  inferInstanceAs (Decidable (∀ p ∈ op.projections, p.root.isArray = false))

theorem isArray_of_root {op : Operand} (h : op.root.isArray = false) : op.isArray = false := by
  cases op with
  | array items => exact h
  | _ => rfl

/-- Projections hold no literal but one that they are out of. -/
theorem literals_of_root : ∀ {op : Operand}, op.root.isArray = false → op.literals = []
  | .proj base _ _, h => by
    rw [literals]
    exact literals_of_root h
  | .array _, h => by simp [root, isArray] at h
  | .input _, _ | .gate _, _ | .const _, _ | .nat _, _ => rfl

theorem Rooted.head {x : Operand} {xs : List Operand} (h : (array (x :: xs)).Rooted) : x.Rooted :=
  fun p hp => h p (List.mem_append_left _ hp)

theorem Rooted.tail {x : Operand} {xs : List Operand} (h : (array (x :: xs)).Rooted) :
    (array xs).Rooted :=
  fun p hp => h p (List.mem_append_right _ hp)

/-! ### Complete runs -/

/-- Whether operands are all the projections of a vector, in order and as many as there are. -/
def SpellsOut (base : Operand) (items : List Operand) : Prop :=
  0 < items.length ∧ items = run base items.length 0 items.length

theorem wholeVector?_eq_some_iff {base : Operand} {items : List Operand} :
    wholeVector? items = some base ↔ SpellsOut base items := by
  constructor
  · intro h
    obtain ⟨hne, hrun⟩ := eq_run_of_wholeVector? h
    exact ⟨List.length_pos_iff.mpr hne, hrun⟩
  · rintro ⟨hpos, hrun⟩
    rw [hrun]
    exact wholeVector?_run base hpos

/-- A literal whose collapsed elements spell out a vector is that vector when it is collapsed. -/
theorem collapse_of_spellsOut {base : Operand} {items : List Operand}
    (h : SpellsOut base (collapseAll items)) : (array items).collapse = base := by
  rw [Operand.collapse, wholeVector?_eq_some_iff.mpr h]
  rfl

/-- Any other literal stays one, with its collapsed elements in their places. -/
theorem collapse_of_not_spellsOut {items : List Operand}
    (h : ∀ base, ¬ SpellsOut base (collapseAll items)) :
    (array items).collapse = .array (collapseAll items) := by
  have hnone : wholeVector? (collapseAll items) = none := by
    rw [Option.eq_none_iff_forall_ne_some]
    exact fun base hbase => h base (wholeVector?_eq_some_iff.mp hbase)
  rw [Operand.collapse, hnone]
  rfl

/-- The vector that collapsed elements spell out is no projection of a literal, and no literal, if
    no projection was. -/
theorem Rooted.root_of_spellsOut {base : Operand} {items : List Operand}
    (h : (array items).Rooted) (hspell : SpellsOut base (collapseAll items)) :
    base.root.isArray = false := by
  obtain ⟨hpos, hrun⟩ := hspell
  have hmem : proj base 0 (collapseAll items).length ∈ projectionsAll (collapseAll items) := by
    rw [hrun, length_run]
    exact mem_projectionsAll_run hpos List.mem_cons_self
  have hroot := h _ (mem_projectionsAll_of_collapseAll hmem)
  exact hroot

/-! ### Normal operands -/

/-- Whether no literal in an operand, at any depth, is a complete run of projections. -/
def Normal (op : Operand) : Prop := ∀ items ∈ op.literals, ∀ base, ¬ SpellsOut base items

theorem normal_array_iff {items : List Operand} :
    (array items).Normal ↔ (∀ base, ¬ SpellsOut base items) ∧ ∀ x ∈ items, x.Normal := by
  unfold Normal
  rw [literals, List.forall_mem_cons, literalsAll_eq_flatMap]
  simp only [List.mem_flatMap]
  constructor
  · rintro ⟨hitems, hall⟩
    exact ⟨hitems, fun x hx ops hops => hall ops ⟨x, hx, hops⟩⟩
  · rintro ⟨hitems, hall⟩
    exact ⟨hitems, fun ops ⟨x, hx, hops⟩ => hall x hx ops hops⟩

theorem normal_of_root {op : Operand} (h : op.root.isArray = false) : op.Normal := by
  unfold Normal
  rw [literals_of_root h]
  simp

mutual

/-- Collapsing leaves no complete run behind. -/
theorem normal_collapse : ∀ {op : Operand}, op.Rooted → op.collapse.Normal
  | .array items, h => by
    by_cases hspell : ∃ base, SpellsOut base (collapseAll items)
    · -- The vector that takes the place of the literal holds no literal.
      obtain ⟨base, hbase⟩ := hspell
      rw [collapse_of_spellsOut hbase]
      exact normal_of_root (h.root_of_spellsOut hbase)
    · rw [not_exists] at hspell
      rw [collapse_of_not_spellsOut hspell]
      exact normal_array_iff.mpr ⟨hspell, normal_collapseAll h⟩
  | .proj base index size, h => normal_of_root (h (.proj base index size) List.mem_cons_self)
  | .input _, _ | .gate _, _ | .const _, _ | .nat _, _ => normal_of_root rfl

theorem normal_collapseAll : ∀ {xs : List Operand}, (array xs).Rooted →
    ∀ x ∈ collapseAll xs, x.Normal
  | [], _ => by simp [collapseAll]
  | x :: xs, h => by
    rw [collapseAll, List.forall_mem_cons]
    exact ⟨normal_collapse h.head, normal_collapseAll h.tail⟩

end

mutual

/-- Collapsing changes nothing where there is no complete run. -/
theorem collapse_of_normal : ∀ {op : Operand}, op.Normal → op.collapse = op
  | .array items, h => by
    obtain ⟨hspell, hitems⟩ := normal_array_iff.mp h
    have hall := collapseAll_of_normal hitems
    rw [collapse_of_not_spellsOut (by rwa [hall]), hall]
  | .input _, _ | .gate _, _ | .const _, _ | .nat _, _ | .proj _ _ _, _ => rfl

theorem collapseAll_of_normal : ∀ {xs : List Operand}, (∀ x ∈ xs, x.Normal) → collapseAll xs = xs
  | [], _ => rfl
  | x :: xs, h => by
    obtain ⟨hx, hxs⟩ := List.forall_mem_cons.mp h
    rw [collapseAll, collapse_of_normal hx, collapseAll_of_normal hxs]

end

/-! ### The normal form -/

/-- Where no projection is out of an array literal, a literal collapses to something else than a
    literal exactly if its collapsed elements are all the projections of one vector, in order and as
    many as there are, and at least one. Then it collapses to that vector, and otherwise to the
    literal of its collapsed elements. No complete run is left at any depth, and collapsing once more
    changes nothing. Whatever an operand is made of, collapsed it refers to the nodes and inputs that
    it referred to. -/
theorem collapse_normalForm :
    (∀ items : List Operand, (array items).Rooted →
      ((array items).collapse.isArray = false ↔ ∃ base, SpellsOut base (items.map collapse)) ∧
      (∀ base, SpellsOut base (items.map collapse) → (array items).collapse = base) ∧
      ((∀ base, ¬ SpellsOut base (items.map collapse)) →
        (array items).collapse = .array (items.map collapse))) ∧
    (∀ op : Operand, op.Rooted → op.collapse.Normal ∧ op.collapse.collapse = op.collapse) ∧
    ∀ op : Operand, (∀ i, i ∈ op.collapse.gates ↔ i ∈ op.gates) ∧
      ∀ j, j ∈ op.collapse.inputs ↔ j ∈ op.inputs := by
  refine ⟨?_, ?_, ?_⟩
  · intro items h
    rw [← collapseAll_eq_map]
    refine ⟨?_, fun base => collapse_of_spellsOut, collapse_of_not_spellsOut⟩
    constructor
    · intro hliteral
      -- A literal that spells nothing out stays a literal.
      by_contra hspell
      rw [collapse_of_not_spellsOut (not_exists.mp hspell)] at hliteral
      exact absurd hliteral (by simp [isArray])
    · rintro ⟨base, hbase⟩
      rw [collapse_of_spellsOut hbase]
      exact isArray_of_root (h.root_of_spellsOut hbase)
  · intro op h
    -- There is nothing left to collapse after the first time.
    exact ⟨normal_collapse h, collapse_of_normal (normal_collapse h)⟩
  · intro op
    exact ⟨fun i => mem_gates_collapse, fun j => mem_inputs_collapse⟩

/-- Two rows of a matrix element by element, in order and then swapped. -/
theorem collapse_normalForm_rows :
    let m : Operand := .input 0
    let row (i : Nat) : Operand := .array [.proj (.proj m i 2) 0 2, .proj (.proj m i 2) 1 2]
    let op : Operand := .array [.array [row 0, row 1], .array [row 1, row 0]]
    (op.Rooted ∧ op.collapse.Normal ∧ op.collapse.collapse = op.collapse) ∧
      (array [row 0, row 1]).collapse.isArray = false ∧
      (array [row 1, row 0]).collapse = .array [.proj m 1 2, .proj m 0 2] := by
  intro m row op
  obtain ⟨hexact, hnormal, -⟩ := collapse_normalForm
  obtain ⟨hvector, -, -⟩ := hexact [row 0, row 1] (by decide)
  obtain ⟨-, -, hkept⟩ := hexact [row 1, row 0] (by decide)
  refine ⟨⟨by decide, hnormal op (by decide)⟩, hvector.mpr ⟨m, by decide, rfl⟩, hkept ?_⟩
  -- The first of the swapped rows is not the first of any vector.
  rintro base ⟨-, hrun⟩
  have hfirst : Operand.proj m 1 2 = .proj base 0 2 := (List.cons.inj hrun).1
  exact absurd (Operand.proj.inj hfirst).2.1 (by decide)

/-- A projection of a literal can bring a complete run back. -/
example :
    let once : Operand := .array [.proj (.input 0) 0 1]
    let twice : Operand := .array [.proj once 0 1]
    twice.collapse = once ∧ once.collapse = .input 0 := by decide

end GateTrace.Operand
