import GateTrace.Proofs.Faithful
import GateTrace.Proofs.Memo
import GateTrace.Proofs.Order

/-! # Definitions do not show the table

    A definition is made of a trace, and of a gadget that the trace calls it only tells the name and
    whether there is an output. The key ideas:

    - Traces that agree are rendered the same, each over its own table.
    - Over a coherent family gadgets of one name agree, so the definition of a gadget can be had
      from every table that holds the name.
    - A run of a definition agrees with itself, which is to say that it calls gadgets of its table.
      So a table of the family is ordered.
-/

namespace GateTrace

/-! ### Traces that agree -/

section Agreement

variable {table table' : List Gadget}

/-- Nodes that agree: on the operands, and on the operation up to the places of gadgets. -/
structure Node.Agree (table table' : List Gadget) (n n' : Node) : Prop where
  args : n.args = n'.args
  op : n.op.Agree table table' n'.op

theorem Trace.Agree.nodes {code code' : Trace} (h : Trace.Agree table table' code code') :
    List.Forall₂ (Node.Agree table table') code code' := by
  refine List.forall₂_iff_get.mpr ⟨h.length, fun p hp hp' => ?_⟩
  have hn : code[p]? = some (code.get ⟨p, hp⟩) := List.getElem?_eq_getElem hp
  have hn' : code'[p]? = some (code'.get ⟨p, hp'⟩) := List.getElem?_eq_getElem hp'
  exact ⟨h.args p _ _ hn hn', h.ops p _ _ hn hn'⟩

/-- What a trace that agrees with itself calls are gadgets of the table. -/
theorem Trace.Agree.callsInto {code : Trace} (h : Trace.Agree table table' code code) :
    Trace.CallsInto table code := by
  intro n hn callee hcallee
  obtain ⟨p, hp⟩ := List.mem_iff_getElem?.mp hn
  have hop := h.ops p n n hp hp
  rw [hcallee] at hop
  obtain ⟨g, -, hentry, -, heq, -⟩ := Op.agree_call_iff.mp hop
  exact ⟨g, hentry, heq⟩

namespace Definition

theorem opLines_congr {o o' : Op} (h : o.Agree table table' o') (x? : Option String)
    (args : List Term) : opLines o x? args = opLines o' x? args := by
  cases o with
  | gate kind =>
    cases h
    rfl
  | call c =>
    cases o' with
    | gate kind => cases h
    | call c' =>
      have hsignature : c.toSignature = c'.toSignature := h.signature
      simp only [opLines, hsignature]

variable {code code' : Trace}

theorem references_congr (h : List.Forall₂ (Node.Agree table table') code code')
    (output : Option Operand) : references code output = references code' output := by
  have hgates : code.flatMap Node.gates = code'.flatMap Node.gates := by
    induction h with
    | nil => rfl
    | cons hn _ ih => rw [List.flatMap_cons, List.flatMap_cons, Node.gates, Node.gates, hn.args, ih]
  rw [references, references, hgates]

theorem codeLines_congr (h : List.Forall₂ (Node.Agree table table') code code')
    (params : List Argument) (used : List Nat) (i : Nat) :
    codeLines params used i code = codeLines params used i code' := by
  induction h generalizing i with
  | nil => rfl
  | cons hn _ ih => simp only [codeLines, hn.args, ih, opLines_congr hn.op]

/-- Traces that agree are rendered the same. -/
theorem ofTrace_congr (h : Trace.Agree table table' code code') (name : String)
    (params : List Argument) (continuation : Option Shape) (output : Option Operand) :
    ofTrace name params continuation code output =
      ofTrace name params continuation code' output := by
  simp only [ofTrace, checkReferences, references_congr h.nodes output, h.length,
    codeLines_congr h.nodes]

theorem ofGadget_congr {g g' : Gadget} (h : Gadget.Agree table table' g g') :
    ofGadget g = ofGadget g' := by
  unfold ofGadget
  rw [h.signature]
  exact ofTrace_congr h.code _ _ _ _

end Definition

end Agreement

/-! ### Definitions of tables -/

namespace Definition

/-- The definitions of a rendered table are what its gadgets are rendered as. -/
theorem mem_of_mapM_ofGadget {gadgets : List Gadget} {ds : List Definition}
    (h : gadgets.mapM ofGadget = .ok ds) {d : Definition} :
    d ∈ ds ↔ ∃ g ∈ gadgets, ofGadget g = .ok d := by
  have hdefs := mapM_eq_ok_iff.mp h
  clear h
  induction hdefs with
  | nil => simp
  | @cons g e _ _ he _ ih => simp [ih, he, @eq_comm _ d e]

end Definition

namespace Gadget.Memoized

variable {family : Component → Prop} {field : ScalarField} {table table' : List Gadget}

/-- A gadget whose name is in another table of the family is rendered there as it is here. -/
theorem exists_ofGadget_eq (h : Coherent family field) (htable : Memoized family field table)
    (htable' : Memoized family field table') {g : Gadget} (hg : g ∈ table)
    (hname : g.name ∈ table'.map (·.name)) :
    ∃ g' ∈ table', Definition.ofGadget g' = Definition.ofGadget g := by
  obtain ⟨g', hg', hsame⟩ := List.mem_map.mp hname
  exact ⟨g', hg', Definition.ofGadget_congr (htable'.agree h htable hg' hg hsame)⟩

/-- A table of a coherent family is ordered. -/
theorem ordered (h : Coherent family field) (htable : Memoized family field table) :
    Gadget.Ordered table := by
  intro id g hg
  cases htable.recorded id g hg with
  | @intro c s p start done a output hc hp hfield hcode hstart hrun hdone hout =>
    have hready : start.Ready family field :=
      ⟨⟨hfield, htable.of_prefix (hstart.trans (List.take_prefix id table))⟩, hcode⟩
    -- The run that recorded the gadget is in step with itself.
    have hself := (hp.runAlike h (h.keeps c hc) hready hready).sameEnd
    rw [hrun] at hself
    have hcalls : Trace.CallsInto done.gadgets done.code := hself.code.callsInto
    rwa [hdone] at hcalls

/-- The definitions of a table of a coherent family are ordered, and no two have one name. -/
theorem definitions_ordered (h : Coherent family field) (htable : Memoized family field table)
    {ds : List Definition} (hds : table.mapM Definition.ofGadget = .ok ds) :
    Definition.Ordered ds ∧ (ds.map (·.name)).Nodup := by
  refine ⟨Definition.ordered_of_mapM (htable.ordered h) hds, ?_⟩
  rw [Definition.map_name_of_mapM hds]
  exact htable.nodup

end Gadget.Memoized

end GateTrace
