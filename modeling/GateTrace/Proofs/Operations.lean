import GateTrace.Proofs.Recording

/-! # Operations

    A primitive operation records one node or changes nothing at all. The key ideas:

    - Everything that can go wrong is looked at before the node is recorded: first a width or the bits
      as such, and then the values, of which no part may be unassigned.
    - Operations differ in what they record of their values and in what they answer. Bits are put
      together as one argument, the width of a decomposition is recorded as a bare number, and an
      assertion has nothing to answer. In all other respects they are alike.
-/

namespace GateTrace

namespace Operation

/-! ### What is accepted -/

/-- What an operation demands apart from its values being assigned: that a width is not negative, and
    that bits are at least one and none of them a list. -/
def WellPosed : Operation → Prop
  | toBinary _ (some w) => 0 ≤ w
  | fromBinary bits => bits ≠ [] ∧ ∀ b ∈ bits, b.items? = none
  | _ => True

/-- Whether an operation is accepted: it is well posed, and no part of its values is unassigned. -/
structure Admissible (o : Operation) : Prop where
  wellPosed : o.WellPosed
  assigned : ∀ v ∈ o.values, v.Assigned

theorem check_ok_iff (o : Operation) : o.check = .ok () ↔ o.WellPosed := by
  cases o with
  | toBinary a width =>
    cases width with
    | none => simp [check, WellPosed]
    | some w =>
      by_cases hw : w < 0
      · simp [check, WellPosed, hw]
      · simp [check, WellPosed, hw, Int.not_lt.mp hw]
  | fromBinary bits =>
    cases bits with
    | nil => simp [check, WellPosed]
    | cons b bits =>
      simp only [check, WellPosed]
      -- The check looks for the first bit that is a list.
      cases hlist : (b :: bits).find? (·.items?.isSome) with
      | none =>
        have hbits := List.find?_eq_none.mp hlist
        simpa using hbits
      | some v =>
        have hv := List.find?_some hlist
        have hsome : ¬ ∀ b' ∈ b :: bits, b'.items? = none := by
          intro hnone
          rw [hnone v (List.mem_of_find?_eq_some hlist)] at hv
          contradiction
        exact ⟨nofun, fun h => absurd h.2 hsome⟩
  | _ => simp [check, WellPosed]

/-! ### What is recorded and answered -/

/-- What an operation that is asked for at position `p` records as arguments of its node, and what it
    answers. -/
inductive Records (field : ScalarField) (p : Nat) : Operation → List Operand → Answer → Prop
  | bits {a : Value} {width : Option Int} {x : Operand} (hx : a.toOperand = .ok x) :
    Records field p (.toBinary a width) [x, .nat (bitWidth field width)]
      (.value (.list ((List.range (bitWidth field width)).map fun i =>
        .operand (.proj (.gate p) i (bitWidth field width)))))
  | number {bits : List Value} {xs : List Operand}
    (hxs : List.Forall₂ (fun b x => b.toOperand = .ok x) bits xs) :
    Records field p (.fromBinary bits) [.array xs] (.value (.operand (.gate p)))
  | assertion {o : Operation} {xs : List Operand} (hstyle : o.kind.style = .assertion)
    (hxs : List.Forall₂ (fun v x => v.toOperand = .ok x) o.values xs) :
    Records field p o xs .unit
  | result {o : Operation} {xs : List Operand} (hstyle : o.kind.style ≠ .assertion)
    (hbits : o.kind ≠ .toBinary) (hnumber : o.kind ≠ .fromBinary)
    (hxs : List.Forall₂ (fun v x => v.toOperand = .ok x) o.values xs) :
    Records field p o xs (.value (.operand (.gate p)))

def answer (field : ScalarField) (p : Nat) (o : Operation) : Answer :=
  if o.kind.style = .assertion then .unit else .value (o.result field p)

/-- An operation that asks for its values as they are, and has a result, answers with its node. -/
theorem answer_of_result {field : ScalarField} {p : Nat} {o : Operation}
    (hstyle : o.kind.style ≠ .assertion) (hbits : o.kind ≠ .toBinary) :
    o.answer field p = .value (.operand (.gate p)) := by
  cases o <;> simp_all [answer, kind, result, GateKind.style]

variable {field : ScalarField} {o : Operation} {ops : List Operand}

/-- A decomposition records its width after what its value stands for. -/
theorem node_toBinary {a : Value} {width : Option Int} {x : Operand}
    (hposed : (toBinary a width).WellPosed) (hx : a.toOperand = .ok x) :
    (toBinary a width).node field = .ok ⟨.gate .toBinary, [x, .nat (bitWidth field width)]⟩ := by
  have hops : Value.toOperands (toBinary a width).values = .ok [x] :=
    Value.toOperands_cons_eq_ok hx rfl
  unfold node
  rw [check_ok_iff _ |>.mpr hposed, hops]
  rfl

/-- Any other operation than a decomposition records what its values stand for. -/
theorem node_eq_of_kind_ne (hposed : o.WellPosed) (hops : Value.toOperands o.values = .ok ops)
    (hbits : o.kind ≠ .toBinary) : o.node field = .ok ⟨.gate o.kind, ops⟩ := by
  unfold node
  rw [o.check_ok_iff.mpr hposed, hops]
  cases o with
  | toBinary a width => exact absurd rfl hbits
  | _ => rfl

/-- A well posed operation whose values stand for operands has a node. -/
theorem exists_records (hposed : o.WellPosed) (hops : Value.toOperands o.values = .ok ops) (p : Nat) :
    ∃ args, o.Records field p args (o.answer field p) ∧ o.node field = .ok ⟨.gate o.kind, args⟩ := by
  have hvalues := Value.toOperands_eq_ok_iff.mp hops
  -- Three kinds of operation record or answer otherwise than the rest, and are taken out one by
  -- one.
  by_cases hbits : o.kind = .toBinary
  · obtain ⟨a, width, rfl⟩ : ∃ a width, o = .toBinary a width := by
      cases o <;> simp [kind] at hbits ⊢
    obtain ⟨x, hx, rfl⟩ : ∃ x, a.toOperand = .ok x ∧ ops = [x] := by
      simpa [values, List.forall₂_cons_left_iff] using hvalues
    exact ⟨[x, .nat (bitWidth field width)], .bits hx, node_toBinary hposed hx⟩
  · have hnode := @node_eq_of_kind_ne field _ _ hposed hops hbits
    by_cases hnumber : o.kind = .fromBinary
    · obtain ⟨bits, rfl⟩ : ∃ bits, o = .fromBinary bits := by
        cases o <;> simp [kind] at hnumber ⊢
      obtain ⟨x, hx, rfl⟩ : ∃ x, (Value.list bits).toOperand = .ok x ∧ ops = [x] := by
        simpa [values, List.forall₂_cons_left_iff] using hvalues
      obtain ⟨xs, hxs, rfl⟩ := Value.toOperand_list_eq_ok_iff.mp hx
      exact ⟨_, .number (Value.toOperands_eq_ok_iff.mp hxs), hnode⟩
    · by_cases hstyle : o.kind.style = .assertion
      · have hanswer : o.answer field p = .unit := if_pos hstyle
        rw [hanswer]
        exact ⟨ops, .assertion hstyle hvalues, hnode⟩
      · rw [answer_of_result hstyle hbits]
        exact ⟨ops, .result hstyle hbits hnumber hvalues, hnode⟩

theorem node_error (h : ¬ o.Admissible) : ∃ e, o.node field = .error e := by
  unfold node
  cases hcheck : o.check with
  | error e => exact ⟨e, rfl⟩
  | ok u =>
    rcases Value.toOperands_cases o.values with ⟨hassigned, -⟩ | ⟨-, herror⟩
    · exact absurd ⟨o.check_ok_iff.mp hcheck, hassigned⟩ h
    · rw [herror]
      exact ⟨_, rfl⟩

end Operation

/-! ### All or nothing -/

namespace Program

/-- A definition that asks for an operation is answered once its node is recorded, or told the error
    that kept it from being recorded. -/
theorem run_ofOperation (ex : Extractor) (o : Operation) :
    (ofOperation o).run ex =
      match o.node ex.field with
      | .ok n => (ex.push n, .ok (o.answer ex.field ex.code.length))
      | .error e => (ex, .error (.error e)) := by
  simp only [ofOperation, run, Extractor.perform, bind, Except.bind]
  cases hnode : o.node ex.field with
  | error e => rfl
  | ok n =>
    by_cases hstyle : o.kind.style = .assertion
    · simp [pure, Except.pure, Operation.answer, hstyle, run]
    · simp [pure, Except.pure, Operation.answer, hstyle, run]

/-- At any state, an operation succeeds if and only if it is admissible. Then one node is added at the
    end of the trace, with the operation's kind and the operands that its values stand for, and the
    answer refers to the place of that node; the table of gadgets stays. Otherwise nothing changes at
    all. -/
theorem ofOperation_all_or_nothing (ex : Extractor) (o : Operation) :
    ((∃ a, ((ofOperation o).run ex).2 = .ok a) ↔ o.Admissible) ∧
    (o.Admissible → ∃ args a after, o.Records ex.field ex.code.length args a ∧
      (ofOperation o).run ex = (after, .ok a) ∧
        after.code = ex.code ++ [⟨.gate o.kind, args⟩] ∧ after.gadgets = ex.gadgets) ∧
    (¬ o.Admissible → ∃ e, (ofOperation o).run ex = (ex, .error (.error e))) := by
  have hrun := run_ofOperation ex o
  have hrecorded : o.Admissible → ∃ args, o.Records ex.field ex.code.length args
      (o.answer ex.field ex.code.length) ∧ (ofOperation o).run ex =
        (ex.push ⟨.gate o.kind, args⟩, .ok (o.answer ex.field ex.code.length)) := by
    intro h
    -- What is accepted has no unassigned part, so its values all stand for operands.
    rcases Value.toOperands_cases o.values with ⟨-, ops, hops⟩ | ⟨hunassigned, -⟩
    · obtain ⟨args, hrecords, hnode⟩ := Operation.exists_records h.wellPosed hops ex.code.length
      rw [hnode] at hrun
      exact ⟨args, hrecords, hrun⟩
    · exact absurd h.assigned hunassigned
  have hrefused : ¬ o.Admissible → ∃ e, (ofOperation o).run ex = (ex, .error (.error e)) := by
    intro h
    obtain ⟨e, hnode⟩ := @Operation.node_error ex.field _ h
    rw [hnode] at hrun
    exact ⟨e, hrun⟩
  refine ⟨⟨?_, ?_⟩, ?_, hrefused⟩
  · rintro ⟨a, ha⟩
    by_contra h
    obtain ⟨e, herror⟩ := hrefused h
    rw [herror] at ha
    contradiction
  · intro h
    obtain ⟨args, -, hdone⟩ := hrecorded h
    exact ⟨_, congrArg Prod.snd hdone⟩
  · intro h
    obtain ⟨args, hrecords, hdone⟩ := hrecorded h
    exact ⟨args, _, _, hrecords, hdone, rfl, rfl⟩

/-- At a trace of one node, a sum of an integer, a list and a further operand is recorded as the
    second node. A sum of which a part deep inside a list is unassigned changes nothing. -/
theorem ofOperation_all_or_nothing_sum :
    let ex := (Extractor.start .bn254).push ⟨.gate .neg, [.input 0]⟩
    let sum : Operation := .add (.int 2) (.list [.operand (.gate 0), .list []]) [.operand (.input 1)]
    let missing : Operation := .add (.int 2) (.list [.operand (.gate 0), .list [.nil]]) []
    sum.Admissible ∧ ¬ missing.Admissible ∧
      (∃ args a after, sum.Records .bn254 1 args a ∧ (ofOperation sum).run ex = (after, .ok a) ∧
        after.code = ex.code ++ [⟨.gate .add, args⟩] ∧ after.gadgets = []) ∧
      ∃ e, (ofOperation missing).run ex = (ex, .error (.error e)) := by
  intro ex sum missing
  have hsum : sum.Admissible := by
    refine ⟨trivial, List.forall_mem_cons.mpr ⟨.int 2, List.forall_mem_cons.mpr ⟨.list ?_, ?_⟩⟩⟩
    · exact List.forall_mem_cons.mpr ⟨.operand _, List.forall_mem_singleton.mpr (.list nofun)⟩
    · exact List.forall_mem_singleton.mpr (.operand _)
  have hmissing : ¬ missing.Admissible := by
    intro h
    cases h.assigned (.list [.operand (.gate 0), .list [.nil]]) (.tail _ (.head _)) with
    | list hitems =>
      cases hitems (.list [.nil]) (.tail _ (.head _)) with
      | list hnil => cases hnil .nil (.head _)
  exact ⟨hsum, hmissing, (ofOperation_all_or_nothing ex sum).2.1 hsum,
    (ofOperation_all_or_nothing ex missing).2.2 hmissing⟩

end Program

end GateTrace
