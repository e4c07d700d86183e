import GateTrace.Proofs.Layout
import Mathlib.Data.List.Forall2
import Mathlib.Data.List.Induction

/-! # What a trace means

    A trace as a system of constraints over chosen inputs. The key ideas:

    - An assignment gives every node a value, and a node is a relation between the values of its
      arguments and its own.
    - A call asks that the gadget's own trace can be satisfied on the arguments, with the call's
      value for its output.
    - Gadgets get their meaning in table order, so that of a gadget is at hand wherever a later
      trace calls it.
-/

namespace GateTrace

/-! ### Data -/

/-- What an operand can stand for. -/
inductive Datum (α : Type) where
  | elem (a : α)
  /-- A bare number. -/
  | number (v : Int)
  | vec (items : List (Datum α))

namespace Datum

variable {α : Type}

def item? : Datum α → Nat → Option (Datum α)
  | .vec items, i => items[i]?
  | _, _ => none

mutual

/-- Whether a datum has the arrays that a layout says. -/
def Fits : Layout → Datum α → Prop
  | .leaf, _ => True
  | .node ls, .vec items => FitsAll ls items
  | .node _, _ => False

def FitsAll : List Layout → List (Datum α) → Prop
  | [], [] => True
  | l :: ls, d :: ds => Fits l d ∧ FitsAll ls ds
  | _, _ => False

end

/-- Whether a datum is of a declared shape. -/
def HasShape : Shape → Datum α → Prop
  | .scalar, .elem _ => True
  -- A declared array is rectangular, however deep.
  | .array len shape, .vec items => items.length = len ∧ ∀ d ∈ items, HasShape shape d
  | _, _ => False

/-- Whether each datum of a list is of the shape its argument declares. -/
def HaveShapes (args : List Argument) (inputs : List (Datum α)) : Prop :=
  List.Forall₂ (fun a d => HasShape a.shape d) args inputs

theorem FitsAll.length_eq {ls : List Layout} {ds : List (Datum α)} (h : FitsAll ls ds) :
    ds.length = ls.length := by
  induction ls generalizing ds with
  | nil =>
    cases ds with
    | nil => rfl
    | cons d ds => simp [FitsAll] at h
  | cons l ls ih =>
    cases ds with
    | nil => simp [FitsAll] at h
    | cons d ds =>
      obtain ⟨-, hds⟩ := h
      simp [ih hds]

/-- An element of a vector fits the layout at its place. -/
theorem FitsAll.getElem? {ls : List Layout} {ds : List (Datum α)} (h : FitsAll ls ds) {i : Nat}
    {l : Layout} (hl : ls[i]? = some l) : ∃ d, ds[i]? = some d ∧ d.Fits l := by
  induction ls generalizing ds i with
  | nil => simp at hl
  | cons k ls ih =>
    cases ds with
    | nil => simp [FitsAll] at h
    | cons d ds =>
      obtain ⟨hd, hds⟩ := h
      cases i with
      | zero =>
        obtain rfl : k = l := by simpa using hl
        exact ⟨d, rfl, hd⟩
      | succ i => exact ih hds (by simpa using hl)

theorem fitsAll_replicate {l : Layout} {ds : List (Datum α)} :
    FitsAll (List.replicate ds.length l) ds ↔ ∀ d ∈ ds, d.Fits l := by
  induction ds with
  | nil => simp [FitsAll]
  | cons d ds ih => simp [List.replicate_succ, FitsAll, ih]

theorem HasShape.fits {s : Shape} {d : Datum α} (h : d.HasShape s) : d.Fits s.layout := by
  induction s generalizing d with
  | scalar => simp [Shape.layout, Fits]
  | array len elem ih =>
    cases d with
    | elem _ | number _ => simp [HasShape] at h
    | vec items =>
      obtain ⟨rfl, hitems⟩ := h
      exact fitsAll_replicate.mpr fun d hd => ih (hitems d hd)

end Datum

/-! ### Interpretations -/

/-- A meaning of the primitive operations: functions and relations on data, of which nothing is
    assumed but that a bit decomposition yields a vector of its width. -/
structure Interpretation (α : Type) where
  /-- The field element a literal stands for. -/
  literal : Int → α
  function : GateKind → List (Datum α) → Datum α
  relation : GateKind → List (Datum α) → Datum α → Prop
  assertion : GateKind → List (Datum α) → Prop
  bits : ∀ {x : Datum α} {w : Nat} {d : Datum α}, relation .toBinary [x, .number w] d →
    ∃ items, d = .vec items ∧ items.length = w

/-- The integers with their own addition, subtraction and multiplication. The value of
    anything else does not matter. -/
def Interpretation.integers : Interpretation Int where
  literal := id
  function
    | .add, [.elem a, .elem b] => .elem (a + b)
    | .sub, [.elem a, .elem b] => .elem (a - b)
    | .mul, [.elem a, .elem b] => .elem (a * b)
    | _, _ => .elem 0
  relation _ _ _ := False
  assertion
    | .assertEq, [.elem a, .elem b] => a = b
    | .assertNotEq, [.elem a, .elem b] => a ≠ b
    | _, _ => False
  bits h := h.elim

section Values

variable {α : Type} (I : Interpretation α) (inputs : List (Datum α)) (σ : Nat → Datum α)

mutual

/-- The value of an operand over inputs and an assignment of values to nodes. -/
def Operand.eval : Operand → Option (Datum α)
  | .input j => inputs[j]?
  | .gate i => some (σ i)
  | .const v => some (.elem (I.literal v))
  | .nat v => some (.number v)
  | .proj base index _ => (eval base).bind (·.item? index)
  | .array items => (evalAll items).map .vec

def Operand.evalAll : List Operand → Option (List (Datum α))
  | [] => some []
  | x :: xs => (eval x).bind fun d => (evalAll xs).map (d :: ·)

end

/-! ### Constraints -/

/-- What a gadget asks of its arguments and of the value it hands back, if it hands one back. -/
abbrev GadgetRelation (α : Type) : Type := List (Datum α) → Option (Datum α) → Prop

/-- What an operation asks of its arguments and its result. Gadgets are looked up by their place in
    the table. -/
def Op.Holds (calls : Nat → Option (GadgetRelation α)) (op : Op) (vs : List (Datum α))
    (d : Datum α) : Prop :=
  match op with
  | .gate kind =>
    match kind.style with
    | .functional => d = I.function kind vs
    | .callback => I.relation kind vs d
    -- An assertion has no result, so any value will do for it.
    | .assertion => I.assertion kind vs
  | .call callee => ∃ rel, calls callee.id = some rel ∧ rel vs (callee.output.map fun _ => d)

/-- What the node at position `p` asks of an assignment. -/
def Node.Holds (calls : Nat → Option (GadgetRelation α)) (p : Nat) (n : Node) : Prop :=
  ∃ vs, Operand.evalAll I inputs σ n.args = some vs ∧ n.op.Holds I calls vs (σ p)

/-- Whether an assignment satisfies every node of a trace. -/
def Trace.Satisfied (calls : Nat → Option (GadgetRelation α)) (code : Trace) : Prop :=
  ∀ (p : Nat) (n : Node), code[p]? = some n → n.Holds I inputs σ calls p

end Values

variable {α : Type}

/-- The relation a gadget stands for: its arguments are of the declared shapes, its trace can be
    satisfied on them, and the value handed back is that of its output. -/
def Gadget.relation (I : Interpretation α) (calls : Nat → Option (GadgetRelation α)) (g : Gadget) :
    GadgetRelation α := fun inputs result =>
  Datum.HaveShapes g.args inputs ∧
    ∃ σ, Trace.Satisfied I inputs σ calls g.code ∧
      g.output.map (Operand.eval I inputs σ) = result.map some

/-- The relations of the gadgets of a table. A gadget only calls those before it. -/
def Gadget.relations (I : Interpretation α) (gadgets : List Gadget) : List (GadgetRelation α) :=
  gadgets.foldl (fun rels g => rels ++ [g.relation I (rels[·]?)]) []

theorem Gadget.relations_append (I : Interpretation α) (gadgets : List Gadget) (g : Gadget) :
    relations I (gadgets ++ [g]) =
      relations I gadgets ++ [g.relation I ((relations I gadgets)[·]?)] := by
  simp [relations, List.foldl_append]

@[simp] theorem Gadget.length_relations (I : Interpretation α) (gadgets : List Gadget) :
    (relations I gadgets).length = gadgets.length := by
  induction gadgets using List.reverseRecOn with
  | nil => rfl
  | append_singleton gadgets g ih => simp [relations_append, ih]

/-! ### Values of laid-out operands -/

/-- An assignment under which every node of a trace has the arrays that its layout says. -/
def Trace.Fitting (σ : Nat → Datum α) (code : Trace) : Prop :=
  ∀ (i : Nat) (n : Node) (l : Layout), code[i]? = some n → n.layout? = some l → (σ i).Fits l

namespace Operand

variable {I : Interpretation α} {inputs : List (Datum α)} {σ : Nat → Datum α}
variable {args : List Argument} {code : Trace}

theorem evalAll_cons_eq_some_iff {x : Operand} {xs : List Operand} {ds : List (Datum α)} :
    evalAll I inputs σ (x :: xs) = some ds ↔
      ∃ e es, x.eval I inputs σ = some e ∧ evalAll I inputs σ xs = some es ∧ ds = e :: es := by
  constructor
  · intro h
    obtain ⟨e, he, h⟩ := Option.bind_eq_some_iff.mp h
    obtain ⟨es, hes, rfl⟩ := Option.map_eq_some_iff.mp h
    exact ⟨e, es, he, hes, rfl⟩
  · rintro ⟨e, es, he, hes, rfl⟩
    simp [evalAll, he, hes]

mutual

/-- An operand that has a layout has a value, which fits it. -/
theorem eval_fits (hinputs : Datum.HaveShapes args inputs) (hσ : Trace.Fitting σ code) :
    ∀ {op : Operand} {l : Layout}, op.layout? args code = some l →
      ∃ d, op.eval I inputs σ = some d ∧ d.Fits l
  | .input j, _, h => by
    obtain ⟨a, ha, rfl⟩ := Option.map_eq_some_iff.mp h
    obtain ⟨hj, rfl⟩ := List.getElem?_eq_some_iff.mp ha
    have hjd : j < inputs.length := by rwa [← hinputs.length_eq]
    refine ⟨inputs[j], List.getElem?_eq_getElem hjd, Datum.HasShape.fits ?_⟩
    exact hinputs.get hj hjd
  | .gate i, _, h => by
    obtain ⟨n, hn, hl⟩ := Option.bind_eq_some_iff.mp h
    exact ⟨σ i, rfl, hσ i n _ hn hl⟩
  | .const v, _, h => by
    obtain rfl : Layout.leaf = _ := by simpa [layout?] using h
    exact ⟨_, rfl, trivial⟩
  | .nat _, _, h => by simp [layout?] at h
  | .proj base index size, _, h => by
    obtain ⟨ls, hbase, -, hitem⟩ := layout?_proj_eq_some_iff.mp h
    obtain ⟨d, hd, hfits⟩ := eval_fits hinputs hσ hbase
    cases d with
    | elem _ | number _ => simp [Datum.Fits] at hfits
    | vec items =>
      -- The base has as many elements as its layout, so the index is one of them.
      obtain ⟨e, he, hefits⟩ := Datum.FitsAll.getElem? hfits hitem
      exact ⟨e, by simp [eval, hd, Datum.item?, he], hefits⟩
  | .array items, _, h => by
    obtain ⟨ls, hls, rfl⟩ := Option.map_eq_some_iff.mp h
    obtain ⟨ds, hds, hfits⟩ := evalAll_fits hinputs hσ hls
    exact ⟨.vec ds, by simp [eval, hds], hfits⟩

theorem evalAll_fits (hinputs : Datum.HaveShapes args inputs) (hσ : Trace.Fitting σ code) :
    ∀ {xs : List Operand} {ls : List Layout}, layouts? args code xs = some ls →
      ∃ ds, evalAll I inputs σ xs = some ds ∧ Datum.FitsAll ls ds
  | [], _, h => by
    obtain rfl : [] = _ := by simpa [layouts?] using h
    exact ⟨[], rfl, trivial⟩
  | x :: xs, _, h => by
    obtain ⟨l, ls, hx, hxs, rfl⟩ := layouts?_cons_eq_some_iff.mp h
    obtain ⟨d, hd, hfits⟩ := eval_fits hinputs hσ hx
    obtain ⟨ds, hds, hfitsAll⟩ := evalAll_fits hinputs hσ hxs
    exact ⟨d :: ds, evalAll_cons_eq_some_iff.mpr ⟨d, ds, hd, hds, rfl⟩, hfits, hfitsAll⟩

end

mutual

/-- A value fits the array literals its operand is written with. -/
theorem fits_outline : ∀ {op : Operand} {d : Datum α},
    op.eval I inputs σ = some d → d.Fits op.outline
  | .array items, _, h => by
    obtain ⟨ds, hds, rfl⟩ := Option.map_eq_some_iff.mp h
    exact fitsAll_outlines hds
  | .input _, _, _ | .gate _, _, _ | .const _, _, _ | .nat _, _, _ | .proj _ _ _, _, _ => trivial

theorem fitsAll_outlines : ∀ {xs : List Operand} {ds : List (Datum α)},
    evalAll I inputs σ xs = some ds → Datum.FitsAll (outlines xs) ds
  | [], _, h => by
    obtain rfl : [] = _ := by simpa [evalAll] using h
    trivial
  | x :: xs, _, h => by
    obtain ⟨e, es, he, hes, rfl⟩ := evalAll_cons_eq_some_iff.mp h
    exact ⟨fits_outline he, fitsAll_outlines hes⟩

end

mutual

/-- The value of an operand depends on no more than the nodes it refers to. -/
theorem eval_congr {τ : Nat → Datum α} : ∀ {op : Operand},
    (∀ i ∈ op.gates, σ i = τ i) → op.eval I inputs σ = op.eval I inputs τ
  | .gate i, h => by rw [eval, eval, h i (by simp [gates])]
  | .proj base index _, h => by
    have hbase : base.eval I inputs σ = base.eval I inputs τ := eval_congr h
    simp only [eval, hbase]
  | .array items, h => by
    have hitems : evalAll I inputs σ items = evalAll I inputs τ items := evalAll_congr h
    simp only [eval, hitems]
  | .input _, _ | .const _, _ | .nat _, _ => rfl

theorem evalAll_congr {τ : Nat → Datum α} : ∀ {xs : List Operand},
    (∀ i ∈ gatesAll xs, σ i = τ i) → evalAll I inputs σ xs = evalAll I inputs τ xs
  | [], _ => rfl
  | x :: xs, h => by
    rw [evalAll, evalAll, eval_congr fun i hi => h i (List.mem_append_left _ hi),
      evalAll_congr fun i hi => h i (List.mem_append_right _ hi)]

end

end Operand

end GateTrace
