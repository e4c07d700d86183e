import GateTrace.Proofs.Calls
import GateTrace.Proofs.Faithful
import GateTrace.Proofs.Handles

/-! # Callees before callers

    The order in which gadgets are sealed is an order in which they can be defined. The key ideas:

    - A session that only calls handles that it was handed calls gadgets of the table, so all its
      traces are linked to the table, also those that wait, and also where a gadget failed half-way.
    - The lines of a definition call what the nodes of its trace call, by name and in order. So the
      definitions of a linked table can be read from the first to the last.
-/

namespace GateTrace

/-! ### Names of callees -/

/-- The name of the gadget that a line calls, if it calls one. -/
def Line.callee? : Line → Option String
  | .bind _ gadget _ => some gadget
  | .condition gadget _ => some gadget
  | _ => none

def Definition.callees (d : Definition) : List String := d.lines.filterMap Line.callee?

def Op.callee? : Op → Option String
  | .gate _ => none
  | .call callee => some callee.name

def Trace.callees (code : Trace) : List String := code.filterMap fun n => n.op.callee?

theorem Trace.CallsInto.callees_subset {gadgets : List Gadget} {code : Trace}
    (h : Trace.CallsInto gadgets code) : Trace.callees code ⊆ gadgets.map (·.name) := by
  intro name hname
  obtain ⟨n, hn, hcalls⟩ := List.mem_filterMap.mp hname
  cases hop : n.op with
  | gate kind => simp [Op.callee?, hop] at hcalls
  | call callee =>
    obtain rfl : callee.name = name := by simpa [Op.callee?, hop] using hcalls
    obtain ⟨g, hg, hcallee⟩ := h n hn callee hop
    rw [hcallee]
    exact List.mem_map_of_mem (List.mem_of_getElem? hg)

namespace Definition

/-- A primitive operation calls nothing, in however many lines it is written. -/
theorem gateLines_callees (kind : GateKind) (x : String) (args : List Term) :
    (gateLines kind x args).filterMap Line.callee? = [] := by
  have hnone : ∀ line ∈ gateLines kind x args, line.callee? = none := by
    intro line hline
    unfold gateLines at hline
    split at hline
    · split at hline
      · -- A chain: the first step, and one for each operand after the second.
        rcases List.mem_cons.mp hline with rfl | hline
        · rfl
        · obtain ⟨arg, -, rfl⟩ := List.mem_map.mp hline
          rfl
      · obtain rfl := List.mem_singleton.mp hline
        rfl
    · obtain rfl := List.mem_singleton.mp hline
      rfl
    · obtain rfl := List.mem_singleton.mp hline
      rfl
  exact List.filterMap_eq_nil_iff.mpr hnone

theorem opLines_callees (op : Op) (x? : Option String) (args : List Term) :
    (opLines op x? args).filterMap Line.callee? = op.callee?.toList := by
  cases op with
  | gate kind => exact gateLines_callees kind _ args
  | call callee => cases hout : callee.output <;> simp [opLines, hout, Line.callee?, Op.callee?]

/-- The lines of a trace call what its nodes call. -/
theorem codeLines_callees {params : List Argument} {used : List Nat} {i : Nat} {code : Trace}
    {lines : List Line} (h : codeLines params used i code = .ok lines) :
    lines.filterMap Line.callee? = Trace.callees code := by
  induction code generalizing i lines with
  | nil =>
    obtain rfl : [] = lines := Except.ok.inj h
    rfl
  | cons n code ih =>
    obtain ⟨ts, rest, -, hrest, rfl⟩ := codeLines_cons_eq_ok h
    rw [List.filterMap_append, opLines_callees, ih hrest]
    cases hcallee : n.op.callee? <;> simp [Trace.callees, hcallee]

/-- A definition calls what the trace calls that it was made of. -/
theorem ofTrace_callees {name : String} {params : List Argument} {continuation : Option Shape}
    {code : Trace} {output : Option Operand} {d : Definition}
    (h : ofTrace name params continuation code output = .ok d) :
    d.callees = Trace.callees code := by
  obtain ⟨-, -, -, hlines, -⟩ := ofTrace_eq_ok h
  exact codeLines_callees hlines

/-! ### Order -/

/-- Whether every definition of a list only calls what was defined before it. -/
def Ordered (ds : List Definition) : Prop :=
  ∀ (i : Nat) (d : Definition), ds[i]? = some d → d.callees ⊆ (ds.take i).map (·.name)

theorem map_name_of_mapM {gadgets : List Gadget} {ds : List Definition}
    (h : gadgets.mapM ofGadget = .ok ds) : ds.map (·.name) = gadgets.map (·.name) := by
  have hdefs := mapM_eq_ok_iff.mp h
  clear h
  induction hdefs with
  | nil => rfl
  | cons hd _ ih =>
    obtain ⟨hname, -⟩ := ofTrace_eq_ok hd
    rw [List.map_cons, List.map_cons, hname, ih]

theorem ordered_of_mapM {gadgets : List Gadget} (hordered : Gadget.Ordered gadgets)
    {ds : List Definition} (h : gadgets.mapM ofGadget = .ok ds) : Ordered ds := by
  intro i d hd
  have hlength : ds.length = gadgets.length := by
    simpa using congrArg List.length (map_name_of_mapM h)
  obtain ⟨hi, -⟩ := List.getElem?_eq_some_iff.mp hd
  obtain ⟨g, hg⟩ : ∃ g, gadgets[i]? = some g := ⟨gadgets[i], List.getElem?_eq_getElem (by omega)⟩
  -- The definition at position `i` is that of the gadget there, and so for those before it.
  obtain ⟨hbefore, hget⟩ := mapM_ofGadget_take h i
  obtain ⟨d', hd', hgadget⟩ := hget g hg
  obtain rfl : d = d' := Option.some.inj (hd.symm.trans hd')
  rw [ofTrace_callees hgadget, map_name_of_mapM hbefore]
  exact (hordered i g hg).callees_subset

end Definition

/-! ### Sessions -/

namespace Machine

/-- Whether a handle that is about to be called was handed out in this session. -/
def OwnHandles (handed : Handed) (m : Machine) : Prop :=
  match m.program with
  | .invoke callee _ _ => callee ∈ handed.map Prod.snd
  | _ => True

/-- In a session that only calls what it was handed, every trace calls gadgets of the table, and
    every gadget gadgets before it. -/
theorem Session.linked {field : ScalarField} {handed : Handed} {m : Machine}
    (hm : Session field OwnHandles handed m) : m.Linked := by
  have hreachable : Reachable field CallsOwn m := by
    refine hm.reachable ?_
    rintro handed ⟨ex, level, program, stack⟩ hm hown
    cases program with
    | invoke callee r next =>
      -- What was handed out once is in the table still.
      obtain ⟨x, hx, rfl⟩ := List.mem_map.mp hown
      exact hm.handed_enrolled x hx
    | done | stop | perform | define => trivial
  exact hreachable.linked

end Machine

end GateTrace
