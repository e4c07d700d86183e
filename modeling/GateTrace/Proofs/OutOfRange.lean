import GateTrace.Definition
import GateTrace.Proofs.Collapse

/-! # Positions out of range

    When a trace can be rendered at all, and what its panic is when it cannot. The key ideas:

    - To render an operand is to check its inputs, as far as panics go, and so it is for lines and
      for a whole trace: what is rendered is forgotten, and the first position that is missing is
      kept.
    - Collapsing leaves out repetitions only, so the first input that is missing stays the first.
    - All nodes that are referred to are checked before any line is written. A rendering that looks
      up every name in a table, and checks each position again, is therefore the same rendering.
-/

namespace GateTrace

/-! ### Inputs of collapsed operands -/

namespace Operand

/-- In the elements of a vector the search for an input ends where it does in the vector. -/
theorem find?_inputsAll_run {base : Operand} {size start count : Nat} (hcount : 0 < count)
    (p : Nat → Bool) : (inputsAll (run base size start count)).find? p = base.inputs.find? p := by
  induction count generalizing start with
  | zero => omega
  | succ count ih =>
    have hcons : inputsAll (run base size start (count + 1)) =
        base.inputs ++ inputsAll (run base size (start + 1) count) := by
      simp only [run, List.range'_succ, List.map_cons, inputsAll, inputs]
    rw [hcons, List.find?_append]
    by_cases hzero : count = 0
    · subst hzero
      simp [run, inputsAll]
    · rw [ih (by omega), Option.or_self]

mutual

/-- The search for an input ends where it does in the collapsed operand. -/
theorem find?_inputs_collapse (p : Nat → Bool) : ∀ op : Operand,
    op.collapse.inputs.find? p = op.inputs.find? p
  | .array items => by
    have hitems : (array items).collapse.inputs.find? p =
        (inputsAll (collapseAll items)).find? p := by
      rcases collapse_array items with hliteral | ⟨hpos, hrun⟩
      · rw [hliteral, inputs]
      · rw [hrun]
        exact (find?_inputsAll_run hpos p).symm
    rw [hitems, inputs]
    exact find?_inputsAll_collapseAll p items
  | .input _ | .gate _ | .const _ | .nat _ | .proj _ _ _ => rfl

theorem find?_inputsAll_collapseAll (p : Nat → Bool) : ∀ xs : List Operand,
    (inputsAll (collapseAll xs)).find? p = (inputsAll xs).find? p
  | [] => rfl
  | x :: xs => by
    rw [collapseAll, inputsAll, inputsAll, List.find?_append, List.find?_append,
      find?_inputs_collapse p x, find?_inputsAll_collapseAll p xs]

end

end Operand

namespace Definition

/-! ### Checking positions -/

/-- The first of some positions that a table of `len` entries does not have is a panic. -/
def checkPositions (len : Nat) (positions : List Nat) : Except Panic Unit :=
  match positions.find? (len ≤ ·) with
  | some i => .error (.outOfRange len i)
  | none => .ok ()

variable {len : Nat} {xs ys : List Nat}

theorem checkPositions_eq_ok_iff : checkPositions len xs = .ok () ↔ ∀ i ∈ xs, i < len := by
  unfold checkPositions
  cases h : xs.find? (len ≤ ·) with
  | some i =>
    have hi : len ≤ i := by simpa using List.find?_some h
    have hmem : i ∈ xs := List.mem_of_find?_eq_some h
    simp only [reduceCtorEq, false_iff]
    intro hall
    have hlt := hall i hmem
    omega
  | none => simpa using h

theorem checkPositions_eq_error_iff {p : Panic} :
    checkPositions len xs = .error p ↔
      ∃ i, xs.find? (len ≤ ·) = some i ∧ p = .outOfRange len i := by
  unfold checkPositions
  cases h : xs.find? (len ≤ ·) with
  | some i => simp [eq_comm]
  | none => simp

theorem checkPositions_append :
    checkPositions len (xs ++ ys) =
      (checkPositions len xs >>= fun _ => checkPositions len ys) := by
  unfold checkPositions
  rw [List.find?_append]
  cases xs.find? (len ≤ ·) <;> rfl

/-- What a rendering says when what is rendered is forgotten: nothing, or its panic. -/
def verdict {α : Type} (x : Except Panic α) : Except Panic Unit := x.map fun _ => ()

/-- A step and what follows it say what they say one after the other, if what follows says the same
    whatever the step yields. -/
theorem verdict_bind {α β : Type} {x : Except Panic α} {f : α → Except Panic β}
    {y : Except Panic Unit} (h : ∀ a, x = .ok a → verdict (f a) = y) :
    verdict (x >>= f) = (verdict x >>= fun _ => y) := by
  cases x with
  | error p => rfl
  | ok a => exact h a rfl

theorem verdict_eq_ok_iff {α : Type} {x : Except Panic α} :
    verdict x = .ok () ↔ ∃ a, x = .ok a := by
  cases x <;> simp [verdict, Except.map]

theorem verdict_eq_error_iff {α : Type} {x : Except Panic α} {p : Panic} :
    verdict x = .error p ↔ x = .error p := by
  cases x <;> simp [verdict, Except.map]

theorem verdict_map {α β : Type} (x : Except Panic α) (f : α → β) :
    verdict (x >>= fun a => pure (f a)) = verdict x := by
  cases x <;> rfl

/-! ### What a rendering checks -/

section Rendering

variable (params : List Argument) (used : List Nat)

mutual

/-- To render an operand is to check its inputs. -/
theorem verdict_term : ∀ op : Operand,
    verdict (term params used op) = checkPositions params.length op.inputs
  | .input i => by
    unfold term checkPositions
    by_cases hi : i < params.length
    · simp [Operand.inputs, List.getElem?_eq_getElem hi, Nat.not_le.mpr hi, verdict, Except.map]
    · simp [Operand.inputs, Nat.not_lt.mp hi, verdict, Except.map]
  | .gate _ | .const _ | .nat _ => rfl
  | .proj base _ _ => by
    rw [term, verdict_map, Operand.inputs]
    exact verdict_term base
  | .array items => by
    rw [term, verdict_map, Operand.inputs]
    exact verdict_terms items

theorem verdict_terms : ∀ xs : List Operand,
    verdict (terms params used xs) = checkPositions params.length (Operand.inputsAll xs)
  | [] => rfl
  | x :: xs => by
    rw [terms, Operand.inputsAll, checkPositions_append, ← verdict_term x]
    refine verdict_bind fun t _ => ?_
    rw [verdict_map]
    exact verdict_terms xs

end

/-- An operand has a term if its inputs are all there, and not otherwise. -/
theorem exists_term_iff {op : Operand} :
    (∃ t, term params used op = .ok t) ↔ ∀ j ∈ op.inputs, j < params.length := by
  rw [← verdict_eq_ok_iff, verdict_term, checkPositions_eq_ok_iff]

/-- Whether an input is missing is seen on collapsed operands as on any others. -/
theorem checkPositions_collapseAll (xs : List Operand) :
    checkPositions len (Operand.inputsAll (Operand.collapseAll xs)) =
      checkPositions len (Operand.inputsAll xs) := by
  unfold checkPositions
  rw [Operand.find?_inputsAll_collapseAll]

/-- The inputs a trace and its output refer to, in the order they are met. -/
def inputReferences (code : Trace) (output : Option Operand) : List Nat :=
  code.flatMap (fun n => Operand.inputsAll n.args) ++ (output.map Operand.inputs).getD []

/-- To render nodes is to check their inputs. -/
theorem verdict_codeLines (i : Nat) (code : Trace) :
    verdict (codeLines params used i code) =
      checkPositions params.length (code.flatMap fun n => Operand.inputsAll n.args) := by
  induction code generalizing i with
  | nil => rfl
  | cons n code ih =>
    rw [codeLines, List.flatMap_cons, checkPositions_append, ← checkPositions_collapseAll,
      ← verdict_terms params used]
    refine verdict_bind fun args _ => ?_
    rw [verdict_map]
    exact ih (i + 1)

end Rendering

/-- To render a trace is to check the nodes it refers to, and then its inputs. -/
theorem verdict_ofTrace (name : String) (params : List Argument) (continuation : Option Shape)
    (code : Trace) (output : Option Operand) :
    verdict (ofTrace name params continuation code output) =
      (checkPositions code.length (references code output) >>= fun _ =>
        checkPositions params.length (inputReferences code output)) := by
  -- The check at the start is the one of positions, whatever it carries.
  have hunit : verdict (checkReferences code output) =
      checkPositions code.length (references code output) := by
    unfold verdict
    show (checkPositions code.length (references code output)).map _ = _
    cases checkPositions code.length (references code output) <;> rfl
  unfold ofTrace
  rw [← hunit]
  refine verdict_bind fun _ _ => ?_
  rw [inputReferences, checkPositions_append,
    ← verdict_codeLines params (references code output) 0 code]
  refine verdict_bind fun lines _ => ?_
  -- The output is read last, collapsed like all other operands.
  cases output with
  | none => rfl
  | some op =>
    have hop : verdict (term params (references code (some op)) op.collapse) =
        checkPositions params.length op.inputs := by
      rw [verdict_term, checkPositions, Operand.find?_inputs_collapse]
      rfl
    show _ = checkPositions params.length op.inputs
    rw [← hop]
    cases hterm : term params (references code (some op)) op.collapse <;>
      simp only [hterm, bind, Except.bind] <;> rfl

/-! ### Rendering by tables -/

section Tables

variable {α : Type}

/-- Entry `i` of a table, which must be there. -/
def entry (table : List α) (i : Nat) : Except Panic α :=
  match table[i]? with
  | some x => .ok x
  | none => .error (.outOfRange table.length i)

/-- The first `n` of some items, which must be there. -/
def firstItems (items : List α) (n : Nat) : Except Panic (List α) :=
  if n ≤ items.length then .ok (items.take n) else .error (.outOfRange items.length n)

/-- The items from position `n` on, before which `n` must be there. -/
def otherItems (items : List α) (n : Nat) : Except Panic (List α) :=
  if n ≤ items.length then .ok (items.drop n) else .error (.outOfRange items.length n)

end Tables

/-- Enter the name of node `i` into the table of names, unless it has one. -/
def mark (names : List (Option String)) (i : Nat) : Except Panic (List (Option String)) := do
  match ← entry names i with
  | some _ => return names
  | none => return names.set i (some ("gate_" ++ i.repr))

/-- The table of names of a trace: no node has one but those referred to. -/
def nameTable (code : Trace) (output : Option Operand) : Except Panic (List (Option String)) :=
  (references code output).foldlM mark (List.replicate code.length none)

mutual

/-- The term of an operand by the tables of inputs and names. -/
def tableTerm (params : List Argument) (names : List (Option String)) :
    Operand → Except Panic Term
  | .input i => do return .var (← entry params i).name
  | .gate i => do return .var ((← entry names i).getD ignored)
  | .const v => .ok (.const v)
  | .nat v => .ok (.nat v)
  | .proj base index _ => do return .get (← tableTerm params names base) index
  | .array items => do return .vec (← tableTerms params names items)

def tableTerms (params : List Argument) (names : List (Option String)) :
    List Operand → Except Panic (List Term)
  | [] => .ok []
  | x :: xs => do
    let t ← tableTerm params names x
    let ts ← tableTerms params names xs
    return t :: ts

end

/-- The lines of an operation, the operands of a chain taken from the list of all. -/
def slicedLines (op : Op) (x? : Option String) (args : List Term) : Except Panic (List Line) :=
  match op with
  | .gate kind =>
    if kind.style = .functional ∧ kind.isVariadic = true ∧ 2 < args.length then do
      let x := x?.getD ignored
      let pair ← firstItems args 2
      let others ← otherItems args 2
      return .equation x kind pair :: others.map fun arg => .equation x kind [.var x, arg]
    else .ok (gateLines kind (x?.getD ignored) args)
  | .call callee => .ok (opLines (.call callee) x? args)

/-- The lines of the nodes from position `i` on, by the tables. -/
def tableLines (params : List Argument) (names : List (Option String)) :
    Nat → Trace → Except Panic (List Line)
  | _, [] => .ok []
  | i, n :: code => do
    let args ← tableTerms params names (Operand.collapseAll n.args)
    let x? ← entry names i
    let lines ← slicedLines n.op x? args
    let others ← tableLines params names (i + 1) code
    return lines ++ others

/-- The definition of a trace by tables: whatever is looked up or taken from a list is checked to be
    there. -/
def ofTables (name : String) (params : List Argument) (continuation : Option Shape) (code : Trace)
    (output : Option Operand) : Except Panic Definition := do
  let names ← nameTable code output
  let lines ← tableLines params names 0 code
  let result ← match output with
    | some op => do pure (some (← tableTerm params names op.collapse))
    | none => pure none
  return { name, params, continuation, lines, result }

/-! ### Both renderings are the same -/

/-- The names of the first `n` nodes where those in `used` are referred to. -/
def namesOf (n : Nat) (used : List Nat) : List (Option String) :=
  (List.range n).map (gateName? used)

@[simp] theorem length_namesOf (n : Nat) (used : List Nat) : (namesOf n used).length = n := by
  simp [namesOf]

theorem getElem?_namesOf {n i : Nat} (used : List Nat) (hi : i < n) :
    (namesOf n used)[i]? = some (gateName? used i) := by
  simp [namesOf, hi]

theorem entry_namesOf {n i : Nat} (used : List Nat) (hi : i < n) :
    entry (namesOf n used) i = .ok (gateName? used i) := by
  rw [entry, getElem?_namesOf used hi]

/-- A node that is marked is one more that is referred to. -/
theorem mark_namesOf {n i : Nat} (used : List Nat) (hi : i < n) :
    mark (namesOf n used) i = .ok (namesOf n (used ++ [i])) := by
  have hentry := entry_namesOf used hi
  -- A name that is in the table already is not entered a second time.
  by_cases hmem : i ∈ used
  · have hsame : namesOf n (used ++ [i]) = namesOf n used := by
      have hiff : ∀ j, j ∈ used ++ [i] ↔ j ∈ used := by
        intro j
        rw [List.mem_append, List.mem_singleton]
        exact ⟨fun h => h.elim id fun hj => hj ▸ hmem, .inl⟩
      have hnames : gateName? (used ++ [i]) = gateName? used := by
        funext j
        simp only [gateName?, hiff]
      rw [namesOf, hnames, namesOf]
    rw [hsame, mark, hentry]
    simp only [gateName?, if_pos hmem]
    rfl
  · rw [mark, hentry]
    simp only [gateName?, if_neg hmem, bind, Except.bind, pure, Except.pure]
    congr 1
    -- Entry by entry, only the one that is marked changes.
    apply List.ext_getElem?
    intro j
    by_cases hj : j < n
    · rw [getElem?_namesOf _ hj, List.getElem?_set, getElem?_namesOf _ hj]
      by_cases hij : i = j
      · subst hij
        simp [gateName?, hi]
      · simp [gateName?, hij, Ne.symm hij]
    · rw [List.getElem?_eq_none (by simp; omega), List.getElem?_eq_none (by simp; omega)]

/-- Nodes are marked in order, up to the first that is missing. -/
theorem foldlM_mark {n : Nat} (used is : List Nat) :
    is.foldlM mark (namesOf n used) =
      (checkPositions n is).map fun _ => namesOf n (used ++ is) := by
  induction is generalizing used with
  | nil => simp [checkPositions, Except.map, pure, Except.pure]
  | cons i is ih =>
    rw [List.foldlM_cons]
    by_cases hi : i < n
    · rw [mark_namesOf used hi]
      show is.foldlM mark (namesOf n (used ++ [i])) = _
      rw [ih, List.append_assoc]
      -- What is there does not stop the check, nor the marking.
      have hrest : checkPositions n (i :: is) = checkPositions n is := by
        simp [checkPositions, Nat.not_le.mpr hi]
      rw [hrest]
      rfl
    -- The first position that is missing stops both, with the same panic.
    · have hmark : mark (namesOf n used) i = .error (.outOfRange n i) := by
        rw [mark, entry, List.getElem?_eq_none (by simp; omega), length_namesOf]
        rfl
      have hfirst : checkPositions n (i :: is) = .error (.outOfRange n i) := by
        simp [checkPositions, Nat.not_lt.mp hi]
      rw [hmark, hfirst]
      rfl

/-- The table of names can be made if every node referred to is there. -/
theorem nameTable_eq (code : Trace) (output : Option Operand) :
    nameTable code output =
      (checkPositions code.length (references code output)).map fun _ =>
        namesOf code.length (references code output) := by
  have hnone : gateName? [] = fun _ => none := by
    funext i
    simp [gateName?]
  have hstart : List.replicate code.length none = namesOf code.length [] := by
    rw [namesOf, hnone, List.map_const', List.length_range]
  rw [nameTable, hstart, foldlM_mark, List.nil_append]

section Lookups

variable (params : List Argument) {used : List Nat} {n : Nat}

mutual

/-- An operand has the term that the tables give it if they have its nodes. -/
theorem tableTerm_eq : ∀ {op : Operand}, (∀ i ∈ op.gates, i < n) →
    tableTerm params (namesOf n used) op = term params used op
  | .input i, _ => by
    rw [tableTerm, term, entry]
    cases params[i]? <;> rfl
  | .gate i, h => by
    rw [tableTerm, entry_namesOf used (h i (by simp [Operand.gates]))]
    rfl
  | .const _, _ | .nat _, _ => rfl
  | .proj base _ _, h => by
    have hbase : tableTerm params (namesOf n used) base = term params used base := tableTerm_eq h
    rw [tableTerm, term, hbase]
  | .array items, h => by
    have hitems : tableTerms params (namesOf n used) items = terms params used items :=
      tableTerms_eq h
    rw [tableTerm, term, hitems]

theorem tableTerms_eq : ∀ {xs : List Operand}, (∀ i ∈ Operand.gatesAll xs, i < n) →
    tableTerms params (namesOf n used) xs = terms params used xs
  | [], _ => rfl
  | x :: xs, h => by
    rw [tableTerms, terms, tableTerm_eq fun i hi => h i (List.mem_append_left _ hi),
      tableTerms_eq fun i hi => h i (List.mem_append_right _ hi)]

end

end Lookups

/-- The operands of a chain are there to be taken. -/
theorem slicedLines_eq (op : Op) (x? : Option String) (args : List Term) :
    slicedLines op x? args = .ok (opLines op x? args) := by
  cases op with
  | call callee => rfl
  | gate kind =>
    rw [slicedLines]
    split
    · next h =>
      obtain ⟨hstyle, hvariadic, hlen⟩ := h
      -- More than two operands are two, a third and the rest.
      match args, hlen with
      | a :: b :: c :: rest, _ =>
        simp only [opLines, gateLines, hstyle, hvariadic]
        rfl
    · rfl

/-- Nodes have the lines that the tables give them if they are there, and so are the nodes that they
    refer to. -/
theorem tableLines_eq (params : List Argument) {used : List Nat} {n i : Nat} {code : Trace}
    (hlen : i + code.length ≤ n) (h : ∀ m ∈ code, ∀ k ∈ m.gates, k < n) :
    tableLines params (namesOf n used) i code = codeLines params used i code := by
  induction code generalizing i with
  | nil => rfl
  | cons m code ih =>
    rw [List.length_cons] at hlen
    have hargs : ∀ k ∈ Operand.gatesAll (Operand.collapseAll m.args), k < n := by
      intro k hk
      rw [Operand.mem_gatesAll_collapseAll, Operand.gatesAll_eq_flatMap] at hk
      exact h m (by simp) k hk
    have hrest : tableLines params (namesOf n used) (i + 1) code =
        codeLines params used (i + 1) code :=
      ih (by omega) fun m' hm' => h m' (by simp [hm'])
    rw [tableLines, codeLines, tableTerms_eq params hargs, entry_namesOf used (by omega), hrest]
    simp only [slicedLines_eq]
    rfl

/-- A rendering that checks each position where it is used is the rendering that checks nodes
    beforehand. -/
theorem ofTables_eq_ofTrace (name : String) (params : List Argument)
    (continuation : Option Shape) (code : Trace) (output : Option Operand) :
    ofTables name params continuation code output =
      ofTrace name params continuation code output := by
  have hcheck : checkReferences code output =
      checkPositions code.length (references code output) := rfl
  rw [ofTables, ofTrace, nameTable_eq, hcheck]
  cases hok : checkPositions code.length (references code output) with
  | error p => rfl
  | ok u =>
    -- All references are to nodes of the trace, so no later look at the tables can fail.
    have hall := checkPositions_eq_ok_iff.mp hok
    have hcode : ∀ n ∈ code, ∀ i ∈ n.gates, i < code.length := fun n hn i hi =>
      hall i (List.mem_append_left _ (List.mem_flatMap.mpr ⟨n, hn, hi⟩))
    have hlines : tableLines params (namesOf code.length (references code output)) 0 code =
        codeLines params (references code output) 0 code :=
      tableLines_eq params (by omega) hcode
    simp only [Except.map, bind, Except.bind]
    rw [hlines]
    cases output with
    | none => rfl
    | some op =>
      have hoperand : ∀ i ∈ op.collapse.gates, i < code.length := fun i hi =>
        hall i (List.mem_append_right _ (Operand.mem_gates_collapse.mp hi))
      have hresult : tableTerm params (namesOf code.length (references code (some op))) op.collapse =
          term params (references code (some op)) op.collapse :=
        tableTerm_eq params hoperand
      simp only [hresult]

/-! ### Panics -/

/-- The panic of a trace that refers to something that is not there: the first node that is missing,
    or else the first input. -/
inductive FirstMissing (params : List Argument) (code : Trace) (output : Option Operand) :
    Panic → Prop
  | node {i : Nat} (h : (references code output).find? (code.length ≤ ·) = some i) :
    FirstMissing params code output (.outOfRange code.length i)
  | input {j : Nat} (hnodes : ∀ i ∈ references code output, i < code.length)
    (h : (inputReferences code output).find? (params.length ≤ ·) = some j) :
    FirstMissing params code output (.outOfRange params.length j)

/-- Whether a rendering of a trace succeeds exactly if all that is referred to is there, and panics
    with the first that is missing otherwise. -/
structure PanicsExactly (params : List Argument) (code : Trace) (output : Option Operand)
    (rendered : Except Panic Definition) : Prop where
  ok_iff : (∃ d, rendered = .ok d) ↔ (∀ i ∈ references code output, i < code.length) ∧
    ∀ j ∈ inputReferences code output, j < params.length
  error_iff : ∀ p, rendered = .error p ↔ FirstMissing params code output p

theorem panicsExactly_ofTrace (name : String) (params : List Argument)
    (continuation : Option Shape) (code : Trace) (output : Option Operand) :
    PanicsExactly params code output (ofTrace name params continuation code output) := by
  have hverdict := verdict_ofTrace name params continuation code output
  cases hnodes : checkPositions code.length (references code output) with
  | error p =>
    -- A node is missing, and no input is looked at.
    rw [hnodes] at hverdict
    have herror := verdict_eq_error_iff.mp hverdict
    obtain ⟨i, hi, rfl⟩ := checkPositions_eq_error_iff.mp hnodes
    have hmissing : ¬ ∀ i ∈ references code output, i < code.length := by
      rw [← checkPositions_eq_ok_iff, hnodes]
      simp
    constructor
    · simp [herror, hmissing]
    · intro p
      rw [herror]
      constructor
      · rintro ⟨⟩
        exact .node hi
      · intro hfirst
        cases hfirst with
        | node h => rw [Option.some.inj (h.symm.trans hi)]
        | input hnodes _ => exact absurd hnodes hmissing
  | ok u =>
    rw [hnodes] at hverdict
    have hverdict : verdict (ofTrace name params continuation code output) =
        checkPositions params.length (inputReferences code output) := hverdict
    have hall := checkPositions_eq_ok_iff.mp hnodes
    constructor
    · rw [← verdict_eq_ok_iff, hverdict, checkPositions_eq_ok_iff]
      exact ⟨fun h => ⟨hall, h⟩, And.right⟩
    · intro p
      rw [← verdict_eq_error_iff, hverdict, checkPositions_eq_error_iff]
      constructor
      · rintro ⟨j, hj, rfl⟩
        exact .input hall hj
      · intro hfirst
        cases hfirst with
        | @node i h =>
          have hlt : i < code.length := hall i (List.mem_of_find?_eq_some h)
          have hle : code.length ≤ i := by simpa using List.find?_some h
          omega
        | input _ h => exact ⟨_, h, rfl⟩

/-- A circuit or gadget, whatever trace, parameters and output it is given, is rendered if and only if
    every node and every input is there that an argument or the output depends on. Otherwise the
    panic is the first node that is missing, in the order in which they are met, or the first input
    if no node is missing. No other position is ever out of range: a rendering that checks each
    position it takes from the tables of inputs and names, and from the operands of a chain, is this
    rendering. -/
theorem rendering_panicsExactly :
    (∀ (name : String) (params : List Argument) (code : Trace),
      PanicsExactly params code none (ofCircuit name params code)) ∧
    (∀ g : Gadget, PanicsExactly g.args g.code g.output (ofGadget g)) ∧
    (∀ (name : String) (params : List Argument) (code : Trace),
      ofTables name params none code none = ofCircuit name params code) ∧
    ∀ g : Gadget, ofTables g.name g.args g.outputShape g.code g.output = ofGadget g := by
  refine ⟨?_, ?_, ?_, ?_⟩
  · intro name params code
    exact panicsExactly_ofTrace name params none code none
  · intro g
    exact panicsExactly_ofTrace g.name g.args g.outputShape g.code g.output
  · intro name params code
    exact ofTables_eq_ofTrace name params none code none
  · intro g
    exact ofTables_eq_ofTrace g.name g.args g.outputShape g.code g.output

/-- A node that is missing comes before an input that is missing, also where it is met later. -/
example :
    ofCircuit "c" [] [⟨.gate .neg, [.input 0]⟩, ⟨.gate .neg, [.gate 5]⟩] =
      .error (.outOfRange 2 5) := rfl

end Definition

end GateTrace
