import GateTrace.Operand.Collapse
import GateTrace.Proofs.Meaning

/-! # Collapsed operands

    Collapsing keeps what an operand stands for. The key ideas:

    - A literal that spells out a whole vector is the run of projections of its base.
    - Where every projection is out of a vector of exactly the size it names, a complete run has the
      elements of its base, and no others. Collapsing brings in no projections, so this holds at
      every level.
    - Layouts carry the sizes: a projection that has a layout is out of such a vector.
-/

namespace GateTrace.Operand

/-! ### Runs of projections -/

/-- The projections of `base` out of `size` at `count` positions, counted from `start`. -/
def run (base : Operand) (size start count : Nat) : List Operand :=
  (List.range' start count).map fun i => .proj base i size

theorem eq_run_of_isRunOf {base : Operand} {size start : Nat} {ops : List Operand}
    (h : isRunOf base size start ops = true) : ops = run base size start ops.length := by
  induction ops generalizing start with
  | nil => rfl
  | cons op ops ih =>
    cases op with
    | proj b index n =>
      simp only [isRunOf, Bool.and_eq_true, decide_eq_true_eq] at h
      -- The first item stands at `start`, so the rest is a run from the position after it.
      obtain ⟨⟨⟨rfl, rfl⟩, rfl⟩, hrest⟩ := h
      have hops := ih hrest
      simp only [run, List.length_cons, List.range'_succ, List.map_cons]
      rw [← run, ← hops]
    | _ => simp [isRunOf] at h

@[simp] theorem length_run (base : Operand) (size start count : Nat) :
    (run base size start count).length = count := by
  simp [run]

theorem isRunOf_run (base : Operand) (size start count : Nat) :
    isRunOf base size start (run base size start count) = true := by
  induction count generalizing start with
  | zero => rfl
  | succ count ih => simpa [run, List.range'_succ, isRunOf] using ih (start + 1)

/-- A complete run of projections spells out the vector that they are out of. -/
theorem wholeVector?_run (base : Operand) {count : Nat} (hcount : 0 < count) :
    wholeVector? (run base count 0 count) = some base := by
  cases count with
  | zero => omega
  | succ n =>
    show (if isRunOf base (run base (n + 1) 0 (n + 1)).length 0 (run base (n + 1) 0 (n + 1)) then
      some base else none) = some base
    rw [length_run, if_pos (isRunOf_run base (n + 1) 0 (n + 1))]

/-- A literal that spells out a whole vector is not empty, and its elements are all projections of
    that vector. -/
theorem eq_run_of_wholeVector? {base : Operand} {ops : List Operand}
    (h : wholeVector? ops = some base) : ops ≠ [] ∧ ops = run base ops.length 0 ops.length := by
  unfold wholeVector? at h
  split at h
  · split at h
    · next hrun =>
      obtain rfl := Option.some.inj h
      exact ⟨by simp, eq_run_of_isRunOf hrun⟩
    · contradiction
  · contradiction

/-- A collapsed literal is the literal of its collapsed elements, or the vector they spell out. -/
theorem collapse_array (items : List Operand) :
    (array items).collapse = .array (collapseAll items) ∨
      (0 < (collapseAll items).length ∧
        collapseAll items = run (array items).collapse (collapseAll items).length 0
          (collapseAll items).length) := by
  rw [collapse]
  cases h : wholeVector? (collapseAll items) with
  | none => exact .inl rfl
  | some base =>
    obtain ⟨hne, hrun⟩ := eq_run_of_wholeVector? h
    exact .inr ⟨List.length_pos_iff.mpr hne, hrun⟩

theorem collapse_wholeRun (base : Operand) {count : Nat} (hcount : 0 < count) :
    (array (run base count 0 count)).collapse = base := by
  have hitems : collapseAll (run base count 0 count) = run base count 0 count := by
    rw [collapseAll_eq_map, run, List.map_map]
    rfl
  rw [collapse, hitems, wholeVector?_run base hcount]
  rfl

/-! ### References of collapsed operands -/

/-- What an operand refers to. -/
inductive Ref where
  | input (j : Nat)
  | gate (i : Nat)
deriving DecidableEq, Inhabited, Repr

mutual

/-- The references of an operand, in the order they are met, with repetitions. -/
def refs : Operand → List Ref
  | .input j => [.input j]
  | .gate i => [.gate i]
  | .const _ | .nat _ => []
  | .proj base _ _ => refs base
  | .array items => refsAll items

def refsAll : List Operand → List Ref
  | [] => []
  | x :: xs => refs x ++ refsAll xs

end

mutual

@[simp] theorem gate_mem_refs {i : Nat} : ∀ {op : Operand}, .gate i ∈ op.refs ↔ i ∈ op.gates
  | .input _ | .gate _ | .const _ | .nat _ => by simp [refs, gates]
  | .proj base _ _ => by
    rw [refs, gates]
    exact gate_mem_refs
  | .array items => by
    rw [refs, gates]
    exact gate_mem_refsAll

@[simp] theorem gate_mem_refsAll {i : Nat} : ∀ {xs : List Operand},
    .gate i ∈ refsAll xs ↔ i ∈ gatesAll xs
  | [] => by simp [refsAll, gatesAll]
  | x :: xs => by
    rw [refsAll, gatesAll, List.mem_append, List.mem_append, gate_mem_refs, gate_mem_refsAll]

end

mutual

@[simp] theorem input_mem_refs {j : Nat} : ∀ {op : Operand}, .input j ∈ op.refs ↔ j ∈ op.inputs
  | .input _ | .gate _ | .const _ | .nat _ => by simp [refs, inputs]
  | .proj base _ _ => by
    rw [refs, inputs]
    exact input_mem_refs
  | .array items => by
    rw [refs, inputs]
    exact input_mem_refsAll

@[simp] theorem input_mem_refsAll {j : Nat} : ∀ {xs : List Operand},
    .input j ∈ refsAll xs ↔ j ∈ inputsAll xs
  | [] => by simp [refsAll, inputsAll]
  | x :: xs => by
    rw [refsAll, inputsAll, List.mem_append, List.mem_append, input_mem_refs, input_mem_refsAll]

end

theorem mem_refsAll_iff {r : Ref} {xs : List Operand} : r ∈ refsAll xs ↔ ∃ x ∈ xs, r ∈ x.refs := by
  induction xs with
  | nil => simp [refsAll]
  | cons x xs ih => simp [refsAll, ih]

/-- The elements of a vector refer to what the vector refers to, and there is one. -/
theorem mem_refsAll_run {base : Operand} {size count : Nat} {r : Ref} (hcount : 0 < count) :
    r ∈ refsAll (run base size 0 count) ↔ r ∈ base.refs := by
  rw [mem_refsAll_iff]
  constructor
  · rintro ⟨x, hx, hr⟩
    obtain ⟨i, -, rfl⟩ := List.mem_map.mp hx
    exact hr
  · intro hr
    exact ⟨.proj base 0 size, List.mem_map.mpr ⟨0, by simp [hcount], rfl⟩, hr⟩

mutual

/-- A collapsed operand refers to what it referred to before. -/
theorem mem_refs_collapse {r : Ref} : ∀ {op : Operand}, r ∈ op.collapse.refs ↔ r ∈ op.refs
  | .array items => by
    have hitems : r ∈ (array items).collapse.refs ↔ r ∈ refsAll (collapseAll items) := by
      rcases collapse_array items with hliteral | ⟨hpos, hrun⟩
      · rw [hliteral, refs]
      · rw [hrun]
        exact (mem_refsAll_run hpos).symm
    rw [hitems, refs]
    exact mem_refsAll_collapseAll
  | .input _ | .gate _ | .const _ | .nat _ | .proj _ _ _ => .rfl

theorem mem_refsAll_collapseAll {r : Ref} : ∀ {xs : List Operand},
    r ∈ refsAll (collapseAll xs) ↔ r ∈ refsAll xs
  | [] => .rfl
  | x :: xs => by
    rw [collapseAll, refsAll, refsAll, List.mem_append, List.mem_append, mem_refs_collapse,
      mem_refsAll_collapseAll]

end

theorem mem_gates_collapse {op : Operand} {i : Nat} : i ∈ op.collapse.gates ↔ i ∈ op.gates := by
  rw [← gate_mem_refs, ← gate_mem_refs, mem_refs_collapse]

theorem mem_gatesAll_collapseAll {xs : List Operand} {i : Nat} :
    i ∈ gatesAll (collapseAll xs) ↔ i ∈ gatesAll xs := by
  rw [← gate_mem_refsAll, ← gate_mem_refsAll, mem_refsAll_collapseAll]

theorem mem_inputs_collapse {op : Operand} {j : Nat} : j ∈ op.collapse.inputs ↔ j ∈ op.inputs := by
  rw [← input_mem_refs, ← input_mem_refs, mem_refs_collapse]

theorem mem_inputsAll_collapseAll {xs : List Operand} {j : Nat} :
    j ∈ inputsAll (collapseAll xs) ↔ j ∈ inputsAll xs := by
  rw [← input_mem_refsAll, ← input_mem_refsAll, mem_refsAll_collapseAll]

/-! ### Projections of collapsed operands -/

/-- A complete run of projections of a vector holds those that the vector holds. -/
theorem mem_projectionsAll_run {base p : Operand} {size count : Nat} (hcount : 0 < count)
    (hp : p ∈ (proj base 0 size).projections) : p ∈ projectionsAll (run base size 0 count) := by
  rw [projectionsAll_eq_flatMap]
  have hfirst : proj base 0 size ∈ run base size 0 count :=
    List.mem_map.mpr ⟨0, by simp [hcount], rfl⟩
  exact List.mem_flatMap.mpr ⟨_, hfirst, hp⟩

mutual

/-- A collapsed operand holds no projections that it did not hold before. -/
theorem mem_projections_of_collapse {p : Operand} : ∀ {op : Operand},
    p ∈ op.collapse.projections → p ∈ op.projections
  | .array items, hp => by
    have hitems : p ∈ projectionsAll (collapseAll items) := by
      rcases collapse_array items with hliteral | ⟨hpos, hrun⟩
      · rw [hliteral] at hp
        exact hp
      · -- What the vector holds is held by each of its elements.
        rw [hrun]
        exact mem_projectionsAll_run hpos (List.mem_cons_of_mem _ hp)
    exact mem_projectionsAll_of_collapseAll hitems
  | .input _, hp | .gate _, hp | .const _, hp | .nat _, hp | .proj _ _ _, hp => hp

theorem mem_projectionsAll_of_collapseAll {p : Operand} : ∀ {xs : List Operand},
    p ∈ projectionsAll (collapseAll xs) → p ∈ projectionsAll xs
  | [], hp => hp
  | x :: xs, hp => by
    rcases List.mem_append.mp hp with hp | hp
    · exact List.mem_append_left _ (mem_projections_of_collapse hp)
    · exact List.mem_append_right _ (mem_projectionsAll_of_collapseAll hp)

end

/-! ### Values of collapsed operands -/

variable {α : Type} {I : Interpretation α} {inputs : List (Datum α)} {σ : Nat → Datum α}

/-- Whether every projection in an operand is out of a vector of exactly the size it names. -/
def Sized (I : Interpretation α) (inputs : List (Datum α)) (σ : Nat → Datum α) (op : Operand) :
    Prop :=
  ∀ base index size, .proj base index size ∈ op.projections →
    ∃ items, base.eval I inputs σ = some (.vec items) ∧ items.length = size

theorem Sized.collapse {op : Operand} (h : op.Sized I inputs σ) : op.collapse.Sized I inputs σ := by
  intro base index size hmem
  exact h base index size (mem_projections_of_collapse hmem)

/-- The projections of a vector have its elements as values. -/
theorem evalAll_run {base : Operand} {size start count : Nat} {items : List (Datum α)}
    (hbase : base.eval I inputs σ = some (.vec items)) (hcount : start + count ≤ items.length) :
    evalAll I inputs σ (run base size start count) = some ((items.drop start).take count) := by
  induction count generalizing start with
  | zero => simp [run, evalAll]
  | succ count ih =>
    have hlt : start < items.length := by omega
    have hrest := @ih (start + 1) (by omega)
    simp only [run, List.range'_succ, List.map_cons]
    refine evalAll_cons_eq_some_iff.mpr ⟨items[start], _, ?_, hrest, ?_⟩
    · simp [eval, hbase, Datum.item?, hlt]
    · rw [List.drop_eq_getElem_cons hlt, List.take_succ_cons]

/-- The projections of a vector at all of its positions have its value when they are put
    together. -/
theorem eval_wholeRun {base : Operand} {items : List (Datum α)}
    (hbase : base.eval I inputs σ = some (.vec items)) :
    (array (run base items.length 0 items.length)).eval I inputs σ = base.eval I inputs σ := by
  rw [eval, evalAll_run hbase (by omega), hbase]
  simp

/-- A complete run of projections stands for what its base stands for if and only if that is a vector
    of exactly as many elements, if it is anything. -/
theorem eval_wholeRun_iff {base : Operand} {count : Nat} (hcount : 0 < count) :
    (array (run base count 0 count)).eval I inputs σ = base.eval I inputs σ ↔
      ∀ d, base.eval I inputs σ = some d → ∃ items, d = .vec items ∧ items.length = count := by
  constructor
  · intro h d hd
    obtain ⟨items, hitems, rfl⟩ := Option.map_eq_some_iff.mp (h.trans hd)
    have hlen := (fitsAll_outlines hitems).length_eq
    exact ⟨items, rfl, by simpa using hlen⟩
  · intro h
    cases hbase : base.eval I inputs σ with
    | none =>
      -- Without a base not even the first of its projections stands for anything.
      obtain ⟨n, rfl⟩ : ∃ n, count = n + 1 := ⟨count - 1, by omega⟩
      simp [run, List.range'_succ, eval, evalAll, hbase]
    | some d =>
      obtain ⟨items, rfl, rfl⟩ := h d hbase
      rw [eval_wholeRun hbase, hbase]

mutual

/-- An operand stands for the same value when it is collapsed, if its projections name the sizes of
    the vectors they are out of. -/
theorem eval_collapse_of_sized : ∀ {op : Operand}, op.Sized I inputs σ →
    op.collapse.eval I inputs σ = op.eval I inputs σ
  | .array items, h => by
    have hitems : evalAll I inputs σ (collapseAll items) = evalAll I inputs σ items :=
      evalAll_collapseAll_of_sized h
    rcases collapse_array items with hliteral | ⟨hpos, hrun⟩
    · rw [hliteral, eval, eval, hitems]
    · -- The first of the run says that the vector has as many elements as the run.
      obtain ⟨es, hes, hsize⟩ := h _ 0 _ (mem_projectionsAll_of_collapseAll (by
        rw [hrun]
        exact mem_projectionsAll_run hpos List.mem_cons_self))
      rw [← eval_wholeRun hes, hsize, ← hrun, eval, eval, hitems]
  | .input _, _ | .gate _, _ | .const _, _ | .nat _, _ | .proj _ _ _, _ => rfl

theorem evalAll_collapseAll_of_sized : ∀ {xs : List Operand}, (array xs).Sized I inputs σ →
    evalAll I inputs σ (collapseAll xs) = evalAll I inputs σ xs
  | [], _ => rfl
  | x :: xs, h => by
    have hx : x.Sized I inputs σ := fun base index size hmem =>
      h base index size (List.mem_append_left _ hmem)
    have hxs : (array xs).Sized I inputs σ := fun base index size hmem =>
      h base index size (List.mem_append_right _ hmem)
    rw [collapseAll, evalAll, evalAll, eval_collapse_of_sized hx, evalAll_collapseAll_of_sized hxs]

end

/-- Under all inputs and values of nodes for which every projection in an operand is out of a vector
    of exactly the size it names, the collapsed operand stands for a value if and only if the operand
    stood for it, and its projections name the sizes again. Of a complete run, the size that it names
    is all that matters: collapsing it keeps what it stands for if and only if its base is a vector
    of that size, if it is anything. -/
theorem collapse_keeps_value (I : Interpretation α) (inputs : List (Datum α)) (σ : Nat → Datum α) :
    (∀ op : Operand, op.Sized I inputs σ → op.collapse.Sized I inputs σ ∧
      ∀ d, op.collapse.eval I inputs σ = some d ↔ op.eval I inputs σ = some d) ∧
    ∀ (base : Operand) (size : Nat), 0 < size →
      ((array (run base size 0 size)).collapse.eval I inputs σ =
          (array (run base size 0 size)).eval I inputs σ ↔
        ∀ d, base.eval I inputs σ = some d → ∃ items, d = .vec items ∧ items.length = size) := by
  constructor
  · intro op h
    refine ⟨h.collapse, ?_⟩
    intro d
    rw [eval_collapse_of_sized h]
  · intro base size hsize
    rw [collapse_wholeRun base hsize, eq_comm, eval_wholeRun_iff hsize]

/-- The rows of a matrix element by element, in order and then swapped: the first literal is the
    matrix, and of the second only the rows are found again. Two elements are not the matrix if a
    third row is there. -/
theorem collapse_keeps_value_rows :
    let m : Operand := .input 0
    let row (i : Nat) : Operand := .array [.proj (.proj m i 2) 0 2, .proj (.proj m i 2) 1 2]
    let op : Operand := .array [.array [row 0, row 1], .array [row 1, row 0]]
    let pair (a b : Int) : Datum Int := .vec [.elem a, .elem b]
    let two : List (Datum Int) := [.vec [pair 1 2, pair 3 4]]
    let three : List (Datum Int) := [.vec [pair 1 2, pair 3 4, pair 5 6]]
    let whole : Operand := .array [.proj m 0 2, .proj m 1 2]
    (op.collapse = .array [m, .array [.proj m 1 2, .proj m 0 2]] ∧
      op.Sized .integers two (fun _ => .elem 0) ∧
      ∀ d, op.collapse.eval .integers two (fun _ => .elem 0) = some d ↔
        op.eval .integers two (fun _ => .elem 0) = some d) ∧
    whole.collapse.eval .integers three (fun _ => .elem 0) ≠
      whole.eval .integers three fun _ => .elem 0 := by
  intro m row op pair two three whole
  have hsized : op.Sized .integers two (fun _ => .elem 0) := by
    intro base index size hmem
    have hcases : (base = .proj m 0 2 ∨ base = .proj m 1 2 ∨ base = m) ∧ size = 2 := by
      simp [op, row, m, projections, projectionsAll] at hmem ⊢
      grind
    obtain ⟨rfl | rfl | rfl, rfl⟩ := hcases
    · exact ⟨[.elem 1, .elem 2], rfl, rfl⟩
    · exact ⟨[.elem 3, .elem 4], rfl, rfl⟩
    · exact ⟨[pair 1 2, pair 3 4], rfl, rfl⟩
  have hkeeps := (collapse_keeps_value .integers two fun _ => .elem 0).1 op hsized
  refine ⟨⟨by decide, hsized, hkeeps.2⟩, ?_⟩
  intro heq
  have hruns := (collapse_keeps_value .integers three fun _ => .elem 0).2 m 2 (by decide)
  obtain ⟨items, hitems, hlen⟩ := hruns.mp heq _ rfl
  obtain rfl := Datum.vec.inj hitems
  exact absurd hlen (by decide)

/-! ### Collapsed operands with a layout -/

variable {args : List Argument} {code : Trace}

/-- Projections in an operand that has a layout name the sizes of the vectors they are out of. -/
theorem sized_of_layout? (hinputs : Datum.HaveShapes args inputs) (hσ : Trace.Fitting σ code)
    {op : Operand} {l : Layout} (h : op.layout? args code = some l) : op.Sized I inputs σ := by
  intro base index size hmem
  obtain ⟨k, hk⟩ := Option.isSome_iff_exists.mp (layout?_of_mem_projections h hmem)
  obtain ⟨ls, hbase, hsize, -⟩ := layout?_proj_eq_some_iff.mp hk
  obtain ⟨d, hd, hfits⟩ := eval_fits (I := I) hinputs hσ hbase
  cases d with
  | elem _ | number _ => simp [Datum.Fits] at hfits
  | vec es => exact ⟨es, hd, (Datum.FitsAll.length_eq hfits).trans hsize⟩

theorem eval_collapse (hinputs : Datum.HaveShapes args inputs) (hσ : Trace.Fitting σ code)
    {op : Operand} {l : Layout} (h : op.layout? args code = some l) :
    op.collapse.eval I inputs σ = op.eval I inputs σ :=
  eval_collapse_of_sized (sized_of_layout? hinputs hσ h)

theorem evalAll_collapseAll (hinputs : Datum.HaveShapes args inputs) (hσ : Trace.Fitting σ code)
    {xs : List Operand} {ls : List Layout} (h : layouts? args code xs = some ls) :
    evalAll I inputs σ (collapseAll xs) = evalAll I inputs σ xs := by
  have harray : (array xs).layout? args code = some (.node ls) := by simp [layout?, h]
  exact evalAll_collapseAll_of_sized (sized_of_layout? hinputs hσ harray)

end GateTrace.Operand
