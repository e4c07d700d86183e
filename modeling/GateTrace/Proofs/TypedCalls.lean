import GateTrace.Proofs.Machine
import GateTrace.Proofs.Restoration
import GateTrace.Proofs.Storage

/-! # Typed calls

    A typed call reads what a call answers as a signal of a type. The key ideas:

    - What a call site sees is laid out as the callee's output is written, and a type only asks for
      arrays. So whether an answer can be read is a matter of the output and the type, and not of
      the place of the call.
    - The answer is read after the call was recorded. A typed call leaves behind what the call
      leaves behind, and only its answer may differ.
    - So it is all or nothing exactly if the type takes what the call answers.
-/

namespace GateTrace

/-! ### Values that a type takes -/

/-- Whether a value of a given layout can be read as a signal of a type. A wire takes any value. An
    array takes a list, of its own length if it has one, whose items its elements take. -/
def SignalType.Admits : SignalType → Layout → Prop
  | .wire, _ => True
  | .vec elem, .node ls => ∀ l ∈ ls, elem.Admits l
  | .array len elem, .node ls => ls.length = len ∧ ∀ l ∈ ls, elem.Admits l
  | .vec _, .leaf | .array _ _, .leaf => False

namespace Signal

/-- Signals can be built from the elements of an array if each element is laid out as their type
    asks. -/
theorem exists_ofValues_ofLayouts_iff {elem : SignalType}
    (h : ∀ (l : Layout) (base : Operand),
      (∃ t, ofValue elem (.ofLayout l base) = .ok t) ↔ elem.Admits l)
    (ls : List Layout) (base : Operand) (size i : Nat) :
    (∃ slots, (Value.ofLayouts ls base size i).mapM (ofValue elem) = .ok slots) ↔
      ∀ l ∈ ls, elem.Admits l := by
  rw [exists_mapM_eq_ok_iff]
  induction ls generalizing i with
  | nil => simp [Value.ofLayouts]
  | cons l ls ih => rw [Value.ofLayouts, List.forall_mem_cons, List.forall_mem_cons, h, ih]

/-- A signal can be built from a value that is taken apart along a layout if its type asks for no
    other layout. -/
theorem exists_ofValue_ofLayout_iff {type : SignalType} (l : Layout) (base : Operand) :
    (∃ t, ofValue type (.ofLayout l base) = .ok t) ↔ type.Admits l := by
  induction type generalizing l base with
  | wire => simp [ofValue, SignalType.Admits]
  | vec elem ih =>
    cases l with
    | leaf => simp [ofValue_vec_eq_ok_iff, Value.ofLayout, SignalType.Admits]
    | node ls =>
      have hslots := exists_ofValues_ofLayouts_iff ih ls base ls.length 0
      simp [ofValue_vec_eq_ok_iff, Value.ofLayout, SignalType.Admits, hslots]
  | array len elem ih =>
    cases l with
    | leaf => simp [ofValue_array_eq_ok_iff, Value.ofLayout, SignalType.Admits]
    | node ls =>
      have hslots := exists_ofValues_ofLayouts_iff ih ls base ls.length 0
      -- There is one element for each item of the layout, whichever way it is read.
      have hlength : ∀ slots,
          (Value.ofLayouts ls base ls.length 0).mapM (ofValue elem) = .ok slots →
            slots.length = ls.length := by
        intro slots h
        have hitems := (mapM_eq_ok_iff.mp h).length_eq
        rw [Value.ofLayouts_eq_map, List.length_map, List.length_zipIdx] at hitems
        exact hitems.symm
      constructor
      -- Only the number of elements is asked for besides.
      · intro h
        obtain ⟨t, ht⟩ := h
        obtain ⟨items, slots, hitems, hok, hlen, -⟩ := ofValue_array_eq_ok_iff.mp ht
        obtain rfl := Value.list.inj hitems
        exact ⟨(hlength slots hok).symm.trans hlen, hslots.mp ⟨slots, hok⟩⟩
      · intro h
        obtain ⟨slots, hok⟩ := hslots.mpr h.2
        have hlen := (hlength slots hok).trans h.1
        exact ⟨_, ofValue_array_eq_ok_iff.mpr ⟨_, slots, rfl, hok, hlen, rfl⟩⟩

end Signal

/-- The layout of what call sites see of a gadget. Of one without an output they see no array. -/
def Signature.outline (s : Signature) : Layout :=
  match s.output with
  | some output => output.outline
  | none => .leaf

/-- What a call answers can be read as a type if the output is written as the type asks. -/
theorem Callee.exists_ofValue_result_iff (callee : Callee) (type : SignalType) (p : Nat) :
    (∃ t, Signal.ofValue type (callee.result p) = .ok t) ↔ type.Admits callee.outline := by
  cases hout : callee.output with
  | some output =>
    simp only [Callee.result, Signature.outline, hout, Value.ofOutput_eq_ofLayout]
    exact Signal.exists_ofValue_ofLayout_iff output.outline (.gate p)
  | none =>
    simp only [Callee.result, Signature.outline, hout]
    cases type with
    | wire => simp [Signal.ofValue, SignalType.Admits]
    | vec elem => simp [Signal.ofValue_vec_eq_ok_iff, SignalType.Admits]
    | array len elem => simp [Signal.ofValue_array_eq_ok_iff, SignalType.Admits]

/-! ### Typed calls -/

/-- Whether a typed call from `ex` that came to `done` was all or nothing, `called` being what the
    call by itself comes to: it recorded one call and answered a signal of the type that holds what
    the call answers, or it failed and recorded nothing. -/
structure Extractor.AllOrNothing (ex : Extractor) (type : SignalType)
    (called done : Extractor × Except Stop Answer) : Prop where
  answered : ∀ a, done.2 = .ok a → (∃ callee args, ex.Gains done.1 [⟨.call callee, args⟩]) ∧
    ∃ t : Signal, t.HasType type ∧ a = .value t.toValue ∧ called.2 = .ok (.value t.toValue)
  failed : ∀ e, done.2 = .error (.error e) → ex.Gains done.1 []

namespace Program

/-- A call answers with what its call site sees of the gadget that was asked for. -/
theorem call_eq_ok {r : Record} {body : Record → Program} {ex : Extractor} {a : Answer}
    (h : ((call r body).run ex).2 = .ok a) :
    ∃ callee p, (Component.define ⟨r, body⟩ ex).2 = .ok callee ∧ a = .value (callee.result p) := by
  cases hdefine : Component.define ⟨r, body⟩ ex with
  | mk ex' result =>
    -- The request and the call both succeeded, or there would be no answer.
    rw [call, run_define_eq hdefine] at h
    cases result with
    | error s => cases s <;> cases h
    | ok callee =>
      simp only [ofInvoke, run] at h
      cases hinvoke : ex'.invoke callee r with
      | error e =>
        rw [hinvoke] at h
        cases h
      | ok answer =>
        obtain ⟨ex'', v⟩ := answer
        obtain ⟨ops, -, -, -, rfl⟩ := Extractor.invoke_eq_ok hinvoke
        rw [hinvoke] at h
        exact ⟨callee, ex'.code.length, rfl, (Except.ok.inj h).symm⟩

/-- A typed call leaves behind what the call leaves behind, and answers what the call answers if the
    type takes it. -/
theorem run_callAs (type : SignalType) (r : Record) (body : Record → Program) (ex : Extractor) :
    (callAs type r body).run ex =
      (((call r body).run ex).1,
        match ((call r body).run ex).2 with
        | .error s => .error s
        | .ok a =>
          match Signal.ofValue type a.toValue with
          | .ok t => .ok (.value t.toValue)
          | .error e => .error (.error e)) := by
  rw [callAs, run_attempt]
  cases ((call r body).run ex).2 with
  | error s => cases s <;> rfl
  | ok a =>
    cases hread : Signal.ofValue type a.toValue <;>
      simp [hread, ofExcept, run, bind, Except.bind, pure, Except.pure]

/-- If a typed call is all or nothing and the call answers, the type takes the gadget's output. -/
theorem admits_of_allOrNothing {type : SignalType} {r : Record} {body : Record → Program}
    {ex : Extractor}
    (h : ex.AllOrNothing type ((call r body).run ex) ((callAs type r body).run ex))
    {callee : Callee} (hcallee : (Component.define ⟨r, body⟩ ex).2 = .ok callee) {a : Answer}
    (ha : ((call r body).run ex).2 = .ok a) : type.Admits callee.outline := by
  rw [run_callAs] at h
  obtain ⟨callee', p, hcallee', rfl⟩ := call_eq_ok ha
  obtain rfl : callee = callee' := Except.ok.inj (hcallee.symm.trans hcallee')
  rw [← callee.exists_ofValue_result_iff type p]
  cases hread : Signal.ofValue type (callee.result p) with
  | ok t => exact ⟨t, rfl⟩
  | error e =>
    -- The call stays recorded, which a failure must not leave behind.
    have hnothing := (h.failed e (by simp only [ha, Answer.toValue, hread])).code
    obtain ⟨callee', args, hgains⟩ := (callsOnce_call r body ex).answered _ ha
    rw [hgains.code] at hnothing
    simp at hnothing

/-- If the type takes the gadget's output whenever the call answers, a typed call is all or
    nothing. -/
theorem allOrNothing_of_admits {type : SignalType} {r : Record} {body : Record → Program}
    {ex : Extractor}
    (h : ∀ callee, (Component.define ⟨r, body⟩ ex).2 = .ok callee →
      (∃ a, ((call r body).run ex).2 = .ok a) → type.Admits callee.outline) :
    ex.AllOrNothing type ((call r body).run ex) ((callAs type r body).run ex) := by
  have hcall := callsOnce_call r body ex
  rw [run_callAs]
  cases hcalled : ((call r body).run ex).2 with
  | error s =>
    constructor
    · intro a ha
      cases ha
    · intro e he
      obtain rfl := Except.error.inj he
      exact hcall.failed e hcalled
  | ok b =>
    obtain ⟨callee, p, hcallee, rfl⟩ := call_eq_ok hcalled
    -- What the gadget's output is written as can be read, so there is no error after the call.
    obtain ⟨t, ht⟩ := (callee.exists_ofValue_result_iff type p).mpr
      (h callee hcallee ⟨_, hcalled⟩)
    obtain ⟨htype, hvalue⟩ := (Signal.ofValue_eq_ok_iff _ t).mp ht
    simp only [Answer.toValue, ht]
    constructor
    · intro a ha
      obtain rfl := Except.ok.inj ha
      exact ⟨hcall.answered _ hcalled, t, htype, rfl, by rw [hcalled, hvalue]⟩
    · intro e he
      cases he

/-- A typed call leaves behind what the call leaves behind, whatever it answers. So it is all or
    nothing if and only if the type takes the output of the gadget, as it is written, in case the
    call answers at all. -/
theorem callAs_allOrNothing_iff (ex : Extractor) (r : Record) (body : Record → Program)
    (type : SignalType) :
    ((callAs type r body).run ex).1 = ((call r body).run ex).1 ∧
    (ex.AllOrNothing type ((call r body).run ex) ((callAs type r body).run ex) ↔
      ∀ callee, (Component.define ⟨r, body⟩ ex).2 = .ok callee →
        (∃ a, ((call r body).run ex).2 = .ok a) → type.Admits callee.outline) := by
  refine ⟨by rw [run_callAs], ?_, allOrNothing_of_admits⟩
  intro h callee hcallee hanswers
  obtain ⟨a, ha⟩ := hanswers
  exact admits_of_allOrNothing h hcallee ha

/-- The square of an input, called as a vector: it is no list, but its call was recorded. A
    definition that handles the error and calls again has two calls in its trace. -/
theorem not_callAs_allOrNothing :
    ∃ (m : Machine) (r : Record) (type : SignalType),
      Machine.Reachable .bn254 (fun _ => True) m ∧ m.ex.code = [] ∧
      (∃ e, ((callAs type r square.body).run m.ex).2 = .error (.error e)) ∧
      ((callAs type r square.body).run m.ex).1.code.length = 1 ∧
      ¬ m.ex.AllOrNothing type ((call r square.body).run m.ex)
        ((callAs type r square.body).run m.ex) ∧
      (((callAs type r square.body).attempt fun _ => call r square.body).run m.ex).1.code.map
        (fun n => (n.op.name, n.args)) = [("Square", [.input 0]), ("Square", [.input 0])] := by
  let r : Record := ⟨"Square", [⟨"x", .signal (.wire (.operand (.input 0)))⟩]⟩
  have herror : ((callAs (.vec .wire) r square.body).run (.start .bn254)).2 =
      .error (.error (.extraction (.notAList (.operand (.gate 0))))) := by cbv
  have hlength : ((callAs (.vec .wire) r square.body).run (.start .bn254)).1.code.length = 1 := by
    cbv
  have htwice : (((callAs (.vec .wire) r square.body).attempt fun _ => call r square.body).run
      (.start .bn254)).1.code.map (fun n => (n.op.name, n.args)) =
        [("Square", [.input 0]), ("Square", [.input 0])] := by cbv
  refine ⟨_, r, .vec .wire, .start, rfl, ⟨_, herror⟩, hlength, ?_, htwice⟩
  intro h
  have hcode := congrArg List.length (h.failed _ herror).code
  rw [hlength] at hcode
  simp [Extractor.start] at hcode

end Program

end GateTrace
