import GateTrace.Proofs.Recording
import Mathlib.Data.List.Permutation

/-! # What a nested recording leaves behind

    A gadget is recorded in the place of the trace that asked for it, and whatever its definition
    does, that trace is there again afterwards. The key ideas:

    - What any run does to an extractor comes down to nodes at the end of the trace and gadgets at
      the end of the table.
    - A request for a gadget ends in one of four ways: the gadget is found, its record does not take
      its placeholders, its definition fails, or its output is read. The trace is put back in each.
    - So all that a request leaves behind is gadgets, also if it fails, and a call leaves exactly
      one node if it answers and none if it fails.
-/

namespace GateTrace

namespace Extractor

/-! ### Growth -/

/-- What becomes of an extractor whose trace gets the nodes `added`, and which keeps its gadgets. -/
structure Gains (ex ex' : Extractor) (added : Trace) : Prop where
  code : ex'.code = ex.code ++ added
  /-- What was sealed before is where it was, and as it was. -/
  gadgets : ex.gadgets <+: ex'.gadgets

theorem Gains.refl (ex : Extractor) : ex.Gains ex [] := ⟨by simp, List.prefix_rfl⟩

theorem Gains.trans {ex ex' ex'' : Extractor} {added more : Trace} (h : ex.Gains ex' added)
    (h' : ex'.Gains ex'' more) : ex.Gains ex'' (added ++ more) := by
  refine ⟨?_, h.gadgets.trans h'.gadgets⟩
  rw [h'.code, h.code, List.append_assoc]

theorem gains_push (ex : Extractor) (n : Node) : ex.Gains (ex.push n) [n] :=
  ⟨rfl, List.prefix_rfl⟩

theorem gains_note (ex : Extractor) (e : Event) : ex.Gains (ex.note e) [] :=
  ⟨by simp, List.prefix_rfl⟩

/-! ### Requests for gadgets -/

/-- However a gadget's definition ended, the caller's trace goes on. -/
theorem settle_code (s : Schema) (code : Trace) (done : Extractor × Except Stop Value) :
    (settle s code done).1.code = code := by
  obtain ⟨ex, result⟩ := done
  cases result with
  | error stop => rfl
  | ok v => cases hout : output? v <;> simp [settle, hout]

/-- However a gadget's definition ended, what it added to the table is kept. -/
theorem prefix_settle (s : Schema) (code : Trace) (done : Extractor × Except Stop Value) :
    done.1.gadgets <+: (settle s code done).1.gadgets := by
  obtain ⟨ex, result⟩ := done
  cases result with
  | error stop => exact List.prefix_rfl
  | ok v => cases hout : output? v <;> simp [settle, hout]

/-- A request for a gadget adds nothing to the trace of the caller, if the gadget's definition only
    adds to the trace that it is given. -/
theorem gains_define (ex : Extractor) (r : Record)
    (run : Record → Extractor → Extractor × Except Stop Value)
    (hrun : ∀ (inner : Record) (start : Extractor),
      ∃ added, start.Gains (run inner start).1 added) :
    ex.Gains (ex.define r run).1 [] := by
  rcases ex.define_cases r run with ⟨callee, -, hdefine⟩ | ⟨inner, e, -, hdefine⟩ |
    ⟨inner, -, -, hdefine⟩
  · rw [hdefine]
    exact gains_note ex _
  · -- The record does not take its placeholders, so nothing was put aside yet.
    rw [hdefine]
    exact gains_note ex _
  · rw [hdefine]
    -- The definition ran on a trace of its own, and the caller's trace was put back.
    let start : Extractor := { ex.note (.extractingGadget r.schema.uniqueName) with code := [] }
    obtain ⟨added, hinside⟩ := hrun inner start
    have htable : start.gadgets <+: (settle r.schema ex.code (run inner start)).1.gadgets :=
      hinside.gadgets.trans (prefix_settle r.schema ex.code (run inner start))
    refine ⟨?_, htable⟩
    rw [settle_code, List.append_nil]

end Extractor

/-- A request for the gadget of a component adds nothing to the trace of the caller, if running its
    definition only adds to the trace that it is given. -/
theorem Component.gains_define {c : Component} {ex ex' : Extractor} {result : Except Stop Callee}
    (hrun : ∀ (inner : Record) (start : Extractor),
      ∃ added, start.Gains ((c.body inner).run start).1 added)
    (h : c.define ex = (ex', result)) : ex.Gains ex' [] := by
  have hdefine := ex.gains_define c.record c.runOn hrun
  obtain rfl : _ = ex' := congrArg Prod.fst h
  exact hdefine

namespace Program

/-! ### Runs -/

/-- A run only adds nodes at the end of the trace and gadgets at the end of the table. -/
theorem exists_gains_run (p : Program) (ex : Extractor) : ∃ added, ex.Gains (p.run ex).1 added := by
  induction p generalizing ex with
  | done a => exact ⟨[], .refl ex⟩
  | stop s => exact ⟨[], .refl ex⟩
  | perform o next ih =>
    simp only [run]
    cases hop : ex.perform o with
    | error e => exact ih (.error e) ex
    | ok answer =>
      obtain ⟨ex', v⟩ := answer
      obtain ⟨n, -, rfl, -⟩ := Extractor.perform_eq_ok hop
      obtain ⟨added, hrest⟩ := ih (.ok v) (ex.push n)
      exact ⟨[n] ++ added, (ex.gains_push n).trans hrest⟩
  | invoke callee r next ih =>
    simp only [run]
    cases hop : ex.invoke callee r with
    | error e => exact ih (.error e) ex
    | ok answer =>
      obtain ⟨ex', v⟩ := answer
      obtain ⟨ops, -, -, rfl, -⟩ := Extractor.invoke_eq_ok hop
      obtain ⟨added, hrest⟩ := ih (.ok v) (ex.push ⟨.call callee, ops⟩)
      exact ⟨[_] ++ added, (ex.gains_push _).trans hrest⟩
  | define r body next ihBody ih =>
    cases hdefine : Component.define ⟨r, body⟩ ex with
    | mk ex' result =>
      -- The gadget's definition is a part of the program, however deep it nests.
      have hrequest : ex.Gains ex' [] := Component.gains_define ihBody hdefine
      rw [run_define_eq hdefine]
      cases result with
      | ok callee =>
        obtain ⟨added, hrest⟩ := ih (.ok callee) ex'
        exact ⟨added, hrequest.trans hrest⟩
      | error s =>
        cases s with
        | error e =>
          obtain ⟨added, hrest⟩ := ih (.error e) ex'
          exact ⟨added, hrequest.trans hrest⟩
        | panic _ | tooDeep => exact ⟨[], hrequest⟩

/-- A request for a gadget adds nothing to the trace of the caller, whatever its definition does. -/
theorem gains_of_define {r : Record} {body : Record → Program} {ex ex' : Extractor}
    {result : Except Stop Callee} (h : Component.define ⟨r, body⟩ ex = (ex', result)) :
    ex.Gains ex' [] :=
  Component.gains_define (fun inner start => exists_gains_run (body inner) start) h

end Program

/-! ### Calls -/

/-- Whether a run from `ex` that ended like this recorded one call if it answered, and nothing if it
    failed. -/
structure Extractor.CallsOnce (ex : Extractor) (done : Extractor × Except Stop Answer) : Prop where
  answered : ∀ a, done.2 = .ok a → ∃ callee args, ex.Gains done.1 [⟨.call callee, args⟩]
  failed : ∀ e, done.2 = .error (.error e) → ex.Gains done.1 []

namespace Program

theorem callsOnce_ofInvoke (callee : Callee) (r : Record) (ex : Extractor) :
    ex.CallsOnce ((ofInvoke callee r).run ex) := by
  simp only [ofInvoke, run]
  cases hop : ex.invoke callee r with
  | error e =>
    constructor
    · intro a ha
      cases ha
    · intro e' _
      exact .refl ex
  | ok answer =>
    obtain ⟨ex', v⟩ := answer
    -- A call that was recorded is one node, and nothing else.
    obtain ⟨ops, -, -, rfl, -⟩ := Extractor.invoke_eq_ok hop
    constructor
    · intro a _
      exact ⟨callee, ops, ex.gains_push _⟩
    · intro e he
      cases he

/-- A call by record leaves the trace to the request for the gadget, which adds nothing to it, and
    then to the call of the handle. -/
theorem callsOnce_call (r : Record) (body : Record → Program) (ex : Extractor) :
    ex.CallsOnce ((call r body).run ex) := by
  cases hdefine : Component.define ⟨r, body⟩ ex with
  | mk ex' result =>
    have hrequest : ex.Gains ex' [] := gains_of_define hdefine
    rw [call, run_define_eq hdefine]
    cases result with
    | ok callee =>
      have hcall := callsOnce_ofInvoke callee r ex'
      constructor
      · intro a ha
        -- What the request did is not seen in the trace, so the call is all there is.
        obtain ⟨callee', args, hadded⟩ := hcall.answered a ha
        exact ⟨callee', args, hrequest.trans hadded⟩
      · intro e he
        exact hrequest.trans (hcall.failed e he)
    | error s =>
      constructor
      · intro a ha
        cases s <;> cases ha
      · intro e he
        cases s with
        | error _ => exact hrequest
        | panic _ | tooDeep => cases he

/-- Not to tell what a call answers does not change what it records. -/
theorem callsOnce_callVoid (r : Record) (body : Record → Program) (ex : Extractor) :
    ex.CallsOnce ((callVoid r body).run ex) := by
  -- The answer is dropped behind the call, when its node has been recorded.
  have hcall := callsOnce_call r body ex
  rw [callVoid, run_attempt]
  cases hresult : ((call r body).run ex).2 with
  | ok answer =>
    constructor
    · intro a _
      exact hcall.answered answer hresult
    · intro e he
      cases he
  | error s =>
    constructor
    · intro a ha
      cases s <;> cases ha
    · intro e he
      cases s with
      | error _ => exact hcall.failed _ hresult
      | panic _ | tooDeep => cases he

/-- From whatever state, for whatever record and definition, however deep it nests and wherever it
    fails: a request for a gadget leaves the caller's trace as it was, a call leaves one more node
    if it answers and none if it fails, and every gadget that was there is still there. -/
theorem nested_recording_restores (ex : Extractor) (r : Record) (body : Record → Program)
    (callee : Callee) :
    (∀ done, Component.define ⟨r, body⟩ ex = done →
      ((∃ callee, done.2 = .ok callee) ∨ ∃ e, done.2 = .error (.error e)) → ex.Gains done.1 []) ∧
    ex.CallsOnce ((ofInvoke callee r).run ex) ∧ ex.CallsOnce ((call r body).run ex) ∧
    ex.CallsOnce ((callVoid r body).run ex) := by
  refine ⟨?_, callsOnce_ofInvoke callee r ex, callsOnce_call r body ex,
    callsOnce_callVoid r body ex⟩
  intro done h _
  exact gains_of_define h

def square : Component where
  record := ⟨"Square", [⟨"x", .signal (.wire .nil)⟩]⟩
  body _ := .ofOperation (.mul (.operand (.input 0)) (.operand (.input 0)) [])

/-- A gadget that asks for the square and then packs no bits, which is an error. -/
def squareThenFail : Component where
  record := ⟨"Failing", [⟨"x", .signal (.wire .nil)⟩]⟩
  body _ := .define square.record square.body fun _ => .ofOperation (.fromBinary [])

/-- A gadget that seals another one and then fails: the other one stays, and the caller's only node
    is still its only node. -/
theorem nested_recording_restores_failing :
    ∃ ex done, ex.code.length = 1 ∧ ex.gadgets.length = 0 ∧ squareThenFail.define ex = done ∧
      done.2 = .error (.error (.emptyInput "from_binary")) ∧
      done.1.gadgets.map (·.name) = ["Square"] ∧ ex.Gains done.1 [] := by
  let ex : Extractor := (Extractor.start .bn254).push ⟨.gate .neg, [.input 0]⟩
  have hrestores :=
    (nested_recording_restores ex squareThenFail.record squareThenFail.body default).1
  have hfailed : (squareThenFail.define
      ((Extractor.start .bn254).push ⟨.gate .neg, [.input 0]⟩)).2 =
        .error (.error (.emptyInput "from_binary")) := by cbv
  have hsealed : (squareThenFail.define
      ((Extractor.start .bn254).push ⟨.gate .neg, [.input 0]⟩)).1.gadgets.map (·.name) =
        ["Square"] := by cbv
  exact ⟨ex, _, rfl, rfl, rfl, hfailed, hsealed, hrestores _ rfl (.inr ⟨_, hfailed⟩)⟩

end Program

end GateTrace
