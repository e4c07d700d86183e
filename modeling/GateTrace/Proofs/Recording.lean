import GateTrace.Program
import GateTrace.Proofs.Traversal

/-! # What each request does

    One lemma for each thing a definition can ask of the extractor, saying all that an answer can
    be. The key idea:

    - A request for a gadget that is not in the table runs the gadget's definition from an empty
      trace, and `settle` is what becomes of that run.
-/

namespace GateTrace

/-! ### Values as operands -/

/-- A value of which no part is unassigned. -/
inductive Value.Assigned : Value → Prop
  | operand (op : Operand) : Assigned (.operand op)
  | int (v : Int) : Assigned (.int v)
  | list {items : List Value} (h : ∀ x ∈ items, Assigned x) : Assigned (.list items)

namespace Value

theorem toOperands_eq_ok_iff {vs : List Value} {ops : List Operand} :
    toOperands vs = .ok ops ↔ List.Forall₂ (fun v op => v.toOperand = .ok op) vs ops := by
  rw [toOperands_eq_mapM, mapM_eq_ok_iff]

theorem length_toOperands {vs : List Value} {ops : List Operand} (h : toOperands vs = .ok ops) :
    ops.length = vs.length :=
  (toOperands_eq_ok_iff.mp h).length_eq.symm

theorem toOperands_cons_eq_ok {v : Value} {vs : List Value} {op : Operand} {ops : List Operand}
    (hop : v.toOperand = .ok op) (hops : toOperands vs = .ok ops) :
    toOperands (v :: vs) = .ok (op :: ops) := by
  simp [toOperands, hop, hops, bind, Except.bind, pure, Except.pure]

theorem toOperand_list_eq_ok_iff {vs : List Value} {op : Operand} :
    (Value.list vs).toOperand = .ok op ↔ ∃ ops, toOperands vs = .ok ops ∧ op = .array ops := by
  cases hops : toOperands vs with
  | error e => simp [toOperand, hops, bind, Except.bind]
  | ok ops => simp [toOperand, hops, bind, Except.bind, pure, Except.pure, eq_comm]

mutual

/-- A value stands for an operand, or some part of it is unassigned. -/
theorem toOperand_cases : ∀ v : Value,
    (v.Assigned ∧ ∃ op, v.toOperand = .ok op) ∨
      (¬ v.Assigned ∧ v.toOperand = .error (.unsupportedOperand .unassigned))
  | .nil => .inr ⟨nofun, rfl⟩
  | .operand op => .inl ⟨.operand op, op, rfl⟩
  | .int v => .inl ⟨.int v, _, rfl⟩
  | .list items => by
    rcases toOperands_cases items with ⟨hassigned, ops, hops⟩ | ⟨hunassigned, herror⟩
    · exact .inl ⟨.list hassigned, .array ops, toOperand_list_eq_ok_iff.mpr ⟨ops, hops, rfl⟩⟩
    · refine .inr ⟨?_, ?_⟩
      · intro h
        cases h with
        | list h => exact hunassigned h
      · simp [toOperand, herror, bind, Except.bind]

theorem toOperands_cases : ∀ vs : List Value,
    ((∀ v ∈ vs, v.Assigned) ∧ ∃ ops, toOperands vs = .ok ops) ∨
      (¬ (∀ v ∈ vs, v.Assigned) ∧ toOperands vs = .error (.unsupportedOperand .unassigned))
  | [] => .inl ⟨by simp, [], rfl⟩
  | v :: vs => by
    rcases toOperand_cases v with ⟨hv, op, hop⟩ | ⟨hv, herror⟩
    · rcases toOperands_cases vs with ⟨hvs, ops, hops⟩ | ⟨hvs, herror⟩
      · exact .inl ⟨List.forall_mem_cons.mpr ⟨hv, hvs⟩, op :: ops, toOperands_cons_eq_ok hop hops⟩
      · refine .inr ⟨fun h => hvs (List.forall_mem_cons.mp h).2, ?_⟩
        simp [toOperands, hop, herror, bind, Except.bind]
    · refine .inr ⟨fun h => hv (List.forall_mem_cons.mp h).1, ?_⟩
      simp [toOperands, herror, bind, Except.bind]

end

end Value

/-! ### Operations -/

/-- The node of an operation holds its operands, followed by the width if it is a bit
    decomposition. -/
theorem Operation.node_eq_ok {field : ScalarField} {o : Operation} {n : Node}
    (h : o.node field = .ok n) :
    ∃ ops, Value.toOperands o.values = .ok ops ∧
      ((∃ a w, o = .toBinary a w ∧
          n = ⟨.gate .toBinary, ops ++ [.nat (bitWidth field w)]⟩) ∨
        (o.kind ≠ .toBinary ∧ n = ⟨.gate o.kind, ops⟩)) := by
  unfold node at h
  cases hcheck : o.check with
  | error e => simp [hcheck, bind, Except.bind] at h
  | ok u =>
    cases hops : Value.toOperands o.values with
    | error e => simp [hcheck, hops, bind, Except.bind] at h
    | ok ops =>
      refine ⟨ops, rfl, ?_⟩
      -- The arguments are the values as operands, and for a decomposition the width behind them.
      simp only [hcheck, hops, bind, Except.bind] at h
      cases o with
      | toBinary a w =>
        obtain rfl : _ = n := Except.ok.inj h
        exact .inl ⟨a, w, rfl, rfl⟩
      | _ =>
        obtain rfl : _ = n := Except.ok.inj h
        exact .inr ⟨by simp [kind], rfl⟩

/-- An operation that has a result and is no bit decomposition answers with it. -/
theorem Operation.result_eq (field : ScalarField) (p : Nat) {o : Operation}
    (hkind : o.kind ≠ .toBinary) :
    o.result field p = .nil ∨ (o.kind.style ≠ .assertion ∧ o.result field p = .operand (.gate p)) := by
  cases o <;> simp [result, kind, GateKind.style] at hkind ⊢

/-- A primitive operation that succeeds records its node and answers with its result. -/
theorem Extractor.perform_eq_ok {ex ex' : Extractor} {o : Operation} {v : Value}
    (h : ex.perform o = .ok (ex', v)) :
    ∃ n, o.node ex.field = .ok n ∧ ex' = ex.push n ∧ v = o.result ex.field ex.code.length := by
  unfold perform at h
  cases hnode : o.node ex.field with
  | error e => simp [hnode, bind, Except.bind] at h
  | ok n =>
    simp only [hnode, bind, Except.bind, pure, Except.pure, Except.ok.injEq, Prod.mk.injEq] at h
    obtain ⟨rfl, rfl⟩ := h
    exact ⟨n, rfl, rfl, rfl⟩

/-- What a call recorded at position `p` answers. -/
def Callee.result (callee : Callee) (p : Nat) : Value :=
  match callee.output with
  | some output => .ofOutput output (.gate p)
  | none => .nil

/-- A call is refused if the number of arguments is wrong, and otherwise recorded if every argument
    stands for an operand. -/
theorem Extractor.invoke_eq (ex : Extractor) (callee : Callee) (r : Record) :
    ex.invoke callee r =
      if r.values.length = callee.arity then
        (Value.toOperands r.values).map fun ops =>
          (ex.push ⟨.call callee, ops⟩, callee.result ex.code.length)
      else
        .error (.extraction (.argumentCount callee.name callee.arity r.values.length)) := by
  unfold invoke
  by_cases hlen : r.values.length = callee.arity
  · cases hops : Value.toOperands r.values with
    | error e => simp [hlen, bind, Except.bind, Except.map]
    | ok ops =>
      simp only [hlen, ne_eq, not_true_eq_false, if_false, if_true, bind, Except.bind, pure,
        Except.pure, Except.map]
      rfl
  · simp [hlen, bind, Except.bind, throw, throwThe, MonadExceptOf.throw]

/-- A call that succeeds has one argument for each of the gadget's, records its node, and answers
    with what the call site sees of the output. -/
theorem Extractor.invoke_eq_ok {ex ex' : Extractor} {callee : Callee} {r : Record} {v : Value}
    (h : ex.invoke callee r = .ok (ex', v)) :
    ∃ ops, r.values.length = callee.arity ∧ Value.toOperands r.values = .ok ops ∧
      ex' = ex.push ⟨.call callee, ops⟩ ∧ v = callee.result ex.code.length := by
  rw [invoke_eq] at h
  by_cases hlen : r.values.length = callee.arity
  · rw [if_pos hlen] at h
    cases hops : Value.toOperands r.values with
    | error e => simp [hops, Except.map] at h
    | ok ops =>
      rw [hops] at h
      obtain ⟨rfl, rfl⟩ := Prod.mk.inj (Except.ok.inj h)
      exact ⟨ops, hlen, rfl, rfl, rfl⟩
  · rw [if_neg hlen] at h
    contradiction

/-- The table entry of a gadget that recorded `code` and returned `output`. -/
def Schema.gadget (s : Schema) (output : Option Operand) (code : Trace) : Gadget where
  name := s.uniqueName
  args := s.args
  arity := s.arity
  output := output
  outputShape := output.map Operand.shape
  code := code

/-! ### Gadgets -/

namespace Extractor

/-- A gadget is missing exactly if no entry has its name. -/
theorem find?_eq_none_iff {ex : Extractor} {name : String} :
    ex.find? name = none ↔ ∀ g ∈ ex.gadgets, g.name ≠ name := by
  unfold find?
  rw [Option.map_eq_none_iff, List.find?_eq_none]
  constructor
  · intro h g hg
    obtain ⟨id, hid⟩ := List.mem_iff_getElem?.mp hg
    have hmem : (g, id) ∈ ex.gadgets.zipIdx := List.mem_zipIdx_iff_getElem?.mpr hid
    simpa using h (g, id) hmem
  · intro h x hx
    have hg : x.1 ∈ ex.gadgets := List.mem_of_getElem? (List.mem_zipIdx_iff_getElem?.mp hx)
    simpa using h x.1 hg

/-- A gadget that is found is an entry with its name. -/
theorem find?_eq_some {ex : Extractor} {name : String} {callee : Callee}
    (h : ex.find? name = some callee) :
    ∃ g, ex.gadgets[callee.id]? = some g ∧ g.name = name ∧ callee = g.callee callee.id := by
  obtain ⟨⟨g, id⟩, hfind, rfl⟩ := Option.map_eq_some_iff.mp h
  have hname : g.name = name := by simpa using List.find?_some hfind
  have hid : ex.gadgets[id]? = some g :=
    List.mem_zipIdx_iff_getElem?.mp (List.mem_of_find?_eq_some hfind)
  exact ⟨g, hid, hname, rfl⟩

theorem output?_eq_some {v : Value} {op : Operand} (h : output? v = .ok (some op)) :
    v.toOperand = .ok op := by
  cases v with
  | nil => simp [output?] at h
  | operand _ | int _ | list _ =>
    simp only [output?, bind, Except.bind, pure, Except.pure] at h
    split at h
    · contradiction
    · next hop =>
      obtain rfl : _ = op := by simpa using h
      exact hop

/-- What the request for a gadget of schema `s` answers to a caller with trace `code`, once the
    gadget's definition has ended. -/
def settle (s : Schema) (code : Trace) (done : Extractor × Except Stop Value) :
    Extractor × Except Stop Callee :=
  match done with
  | (ex, .error stop) => ({ ex with code }, .error stop)
  | (ex, .ok v) =>
    match output? v with
    | .error e => ({ ex with code }, .error (.error e))
    | .ok output =>
      let enrolled := Extractor.enroll { ex with code } (s.gadget output ex.code)
      (enrolled.1, .ok enrolled.2)

/-- A request for a gadget that is found answers with its handle, and only the journal shows it. -/
theorem define_of_find?_eq_some {ex : Extractor} {r : Record} {callee : Callee}
    (h : ex.find? r.schema.uniqueName = some callee)
    (run : Record → Extractor → Extractor × Except Stop Value) :
    ex.define r run = (ex.note (.reusedGadget r.schema.uniqueName), .ok callee) := by
  simp only [define, h]

/-- Extracting a gadget comes down to running its definition in a trace of its own. -/
theorem extract_eq_settle {ex : Extractor} {r inner : Record}
    {run : Record → Extractor → Extractor × Except Stop Value}
    (hinner : r.withPlaceholders r.schema = (inner, .ok ())) :
    ex.extract r run =
      settle r.schema ex.code
        (run inner { ex.note (.extractingGadget r.schema.uniqueName) with code := [] }) := by
  unfold extract settle
  simp only [hinner]
  cases hdone : run inner { ex.note (.extractingGadget r.schema.uniqueName) with code := [] } with
  | mk ex' result =>
    cases result with
    | error stop => simp
    | ok v => cases hout : output? v <;> simp [hout, Schema.gadget]

/-- A gadget that is not in the table is extracted. -/
theorem define_of_find?_eq_none {ex : Extractor} {r inner : Record}
    {run : Record → Extractor → Extractor × Except Stop Value}
    (hfind : ex.find? r.schema.uniqueName = none)
    (hinner : r.withPlaceholders r.schema = (inner, .ok ())) :
    ex.define r run =
      settle r.schema ex.code
        (run inner { ex.note (.extractingGadget r.schema.uniqueName) with code := [] }) := by
  simp only [define, hfind]
  exact extract_eq_settle hinner

/-- A request finds its gadget, or the record does not take its placeholders, or the gadget's
    definition is run in a trace of its own. -/
theorem define_cases (ex : Extractor) (r : Record)
    (run : Record → Extractor → Extractor × Except Stop Value) :
    (∃ callee, ex.find? r.schema.uniqueName = some callee ∧
        ex.define r run = (ex.note (.reusedGadget r.schema.uniqueName), .ok callee)) ∨
      (∃ inner e, r.withPlaceholders r.schema = (inner, .error e) ∧
        ex.define r run =
          (ex.note (.extractingGadget r.schema.uniqueName), .error (.error e))) ∨
      ∃ inner, ex.find? r.schema.uniqueName = none ∧
        r.withPlaceholders r.schema = (inner, .ok ()) ∧
          ex.define r run = settle r.schema ex.code
            (run inner { ex.note (.extractingGadget r.schema.uniqueName) with code := [] }) := by
  cases hfind : ex.find? r.schema.uniqueName with
  | some callee => exact .inl ⟨callee, rfl, define_of_find?_eq_some hfind run⟩
  | none =>
    right
    cases hinner : r.withPlaceholders r.schema with
    | mk inner result =>
      cases result with
      | error e =>
        refine .inl ⟨inner, e, rfl, ?_⟩
        simp only [define, extract, hfind, hinner]
      | ok u => exact .inr ⟨inner, rfl, rfl, define_of_find?_eq_none hfind hinner⟩

end Extractor

/-- A request for a gadget goes on with its handle, or with the error that kept it from being
    recorded. -/
theorem Program.run_define {r : Record} {body : Record → Program}
    {next : Except Error Callee → Program} {ex : Extractor} :
    (define r body next).run ex =
      let defined := ex.define r fun inner ex =>
        (((body inner).run ex).1, ((body inner).run ex).2.map Answer.toValue)
      match defined.2 with
      | .ok callee => (next (.ok callee)).run defined.1
      | .error (.error e) => (next (.error e)).run defined.1
      | .error s => (defined.1, .error s) :=
  (run.eq_def (define r body next) ex).trans rfl

/-- A program that asks for a gadget goes on with what the request comes to. -/
theorem Program.run_define_eq {r : Record} {body : Record → Program}
    {next : Except Error Callee → Program} {ex ex' : Extractor} {result : Except Stop Callee} :
    Component.define ⟨r, body⟩ ex = (ex', result) →
      (define r body next).run ex =
        match result with
        | .ok callee => (next (.ok callee)).run ex'
        | .error (.error e) => (next (.error e)).run ex'
        | .error s => (ex', .error s) := by
  intro h
  have hdefine : (ex.define r fun inner ex =>
      (((body inner).run ex).1, ((body inner).run ex).2.map Answer.toValue)) = (ex', result) := h
  cases result with
  | ok callee => simp only [run_define, hdefine]
  | error s => cases s <;> simp only [run_define, hdefine]

end GateTrace
