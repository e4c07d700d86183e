import GateTrace.Proofs.Machine
import GateTrace.Proofs.Placeholders

/-! # Well-formed traces

    A definition that only passes on what it was handed records traces that are closed under their
    own numbering. The key ideas:

    - The invariant is about layouts, not about references: every operand of a trace, and every
      operand a definition still holds, has a layout over its own arguments and trace.
    - An operation answers with operands laid out over the trace that its own node extends, so what
      a definition was handed keeps its layouts while it runs.
    - A suspended definition keeps its trace, so it keeps its layouts too, whatever the gadget it
      waits for does.
-/

namespace GateTrace

/-! ### Laid-out traces -/

/-- A node whose arguments have layouts over the nodes before it. A bare number is only the width
    of a bit decomposition. -/
inductive Node.LaidOut (args : List Argument) (earlier : Trace) : Node → Prop
  | toBinary {x : Operand} {w : Nat} (hx : (x.layout? args earlier).isSome) :
    LaidOut args earlier ⟨.gate .toBinary, [x, .nat w]⟩
  | gate {kind : GateKind} {xs : List Operand} {ls : List Layout} (hkind : kind ≠ .toBinary)
    (hxs : Operand.layouts? args earlier xs = some ls) : LaidOut args earlier ⟨.gate kind, xs⟩
  | call {callee : Callee} {xs : List Operand} {ls : List Layout}
    (hlen : xs.length = callee.arity) (hxs : Operand.layouts? args earlier xs = some ls) :
    LaidOut args earlier ⟨.call callee, xs⟩

def Trace.LaidOut (args : List Argument) (code : Trace) : Prop :=
  ∀ (p : Nat) (n : Node), code[p]? = some n → n.LaidOut args (code.take p)

theorem Trace.LaidOut.nil {args : List Argument} : Trace.LaidOut args [] := by
  intro p n hn
  simp at hn

theorem Trace.LaidOut.append {args : List Argument} {code : Trace} {n : Node}
    (h : Trace.LaidOut args code) (hn : n.LaidOut args code) : Trace.LaidOut args (code ++ [n]) := by
  intro p m hm
  exact forall_getElem?_concat h hn p m hm

/-- A gadget whose trace and output are laid out, with as many arguments as it says, and with the
    shape that its output shows. -/
structure Gadget.LaidOut (g : Gadget) : Prop where
  arity : g.arity = g.args.length
  code : Trace.LaidOut g.args g.code
  output : ∀ op ∈ g.output, (op.layout? g.args g.code).isSome
  outputShape : g.outputShape = g.output.map Operand.shape

/-! ### What operations record -/

variable {args : List Argument} {code : Trace}

/-- A gate that is no bit decomposition and has a result is laid out as a single element. -/
theorem Node.layout?_gate {kind : GateKind} {xs : List Operand} (hkind : kind ≠ .toBinary)
    (hstyle : kind.style ≠ .assertion) : Node.layout? ⟨.gate kind, xs⟩ = some .leaf := by
  unfold layout?
  split
  · next heq _ => exact absurd (Op.gate.inj heq) hkind
  · next heq _ =>
    obtain rfl := Op.gate.inj heq
    exact if_neg hstyle
  · next heq => cases heq

/-- An operation on values whose operands have layouts records a node that is laid out. -/
theorem Operation.node_laidOut {field : ScalarField} {o : Operation} {n : Node}
    (h : o.node field = .ok n)
    (hvalues : ∀ op ∈ Value.operandsAll o.values, (op.layout? args code).isSome) :
    n.LaidOut args code := by
  obtain ⟨ops, hops, ⟨a, w, rfl, rfl⟩ | ⟨hkind, rfl⟩⟩ := node_eq_ok h
  · obtain ⟨ls, hls⟩ := Value.layouts?_toOperands hvalues hops
    obtain ⟨x, rfl⟩ := List.length_eq_one_iff.mp (Value.length_toOperands hops)
    exact .toBinary (Operand.layout?_isSome_of_mem hls (by simp))
  · obtain ⟨ls, hls⟩ := Value.layouts?_toOperands hvalues hops
    exact .gate hkind hls

/-- An operation answers with operands that have layouts once its node is recorded. -/
theorem Operation.result_laidOut {field : ScalarField} {o : Operation} {n : Node}
    (h : o.node field = .ok n) :
    ∀ op ∈ (o.result field code.length).operands, (op.layout? args (code ++ [n])).isSome := by
  have hnode : (Operand.gate code.length).layout? args (code ++ [n]) = n.layout? := by
    simp [Operand.layout?]
  obtain ⟨ops, hops, ⟨a, w, rfl, rfl⟩ | ⟨hkind, rfl⟩⟩ := node_eq_ok h
  · obtain ⟨x, rfl⟩ : ∃ x, ops = [x] := by
      simp only [values, Value.toOperands, bind, Except.bind, pure, Except.pure] at hops
      split at hops
      · contradiction
      · exact ⟨_, (Except.ok.inj hops).symm⟩
    -- The bits are handed out as the placeholder of an array over the node itself.
    refine Value.layout?_placeholder (hnode.trans ?_)
    simp [Node.layout?, Shape.layout]
  · intro op hop
    rcases result_eq field code.length hkind with hnil | ⟨hstyle, hresult⟩
    · simp [hnil, Value.operands] at hop
    · obtain rfl : op = .gate code.length := by simpa [hresult, Value.operands] using hop
      rw [hnode, Node.layout?_gate hkind hstyle]
      rfl

theorem Callee.result_laidOut {callee : Callee} {ops : List Operand} :
    ∀ op ∈ (callee.result code.length).operands,
      (op.layout? args (code ++ [⟨.call callee, ops⟩])).isSome := by
  intro op hop
  unfold result at hop
  cases hout : callee.output with
  | none => simp [hout, Value.operands] at hop
  | some output =>
    rw [hout] at hop
    refine Value.layout?_ofOutput ?_ op hop
    simp [Operand.layout?, Node.layout?, hout]

/-! ### Runs that only use what they are handed -/

namespace Machine

/-- Whether what the running definition is about to do only uses values built from its own
    placeholders, literals, lists and the results of its earlier operations. The values of a record
    whose gadget is asked for do not matter: they are overwritten before the gadget runs. -/
def Honest (m : Machine) : Prop :=
  match m.program with
  | .perform o _ => ∀ v ∈ o.values, v.BuiltFrom m.level.operands
  | .invoke _ r _ => ∀ v ∈ r.values, v.BuiltFrom m.level.operands
  | .done a => a.toValue.BuiltFrom m.level.operands
  | .define .. | .stop _ => True

instance (m : Machine) : Decidable m.Honest :=
  match m with
  | ⟨_, level, .perform o _, _⟩ =>
    inferInstanceAs (Decidable (∀ v ∈ o.values, v.BuiltFrom level.operands))
  | ⟨_, level, .invoke _ r _, _⟩ =>
    inferInstanceAs (Decidable (∀ v ∈ r.values, v.BuiltFrom level.operands))
  | ⟨_, level, .done a, _⟩ => inferInstanceAs (Decidable (a.toValue.BuiltFrom level.operands))
  | ⟨_, _, .define .., _⟩ | ⟨_, _, .stop _, _⟩ => isTrue trivial

/-- What definitions keep that only use what they were handed: `Good`, which holds of each of them
    while it runs, and `Fine`, which holds of the gadget that it becomes. -/
structure Invariant (Good : Level → Trace → Prop) (Fine : Gadget → Prop) : Prop where
  client : Good .client []
  enter {r inner : Record} (hinner : r.withPlaceholders r.schema = (inner, .ok ())) :
    Good (.ofRecord r.schema inner) []
  perform {l : Level} {code : Trace} {field : ScalarField} {o : Operation} {n : Node}
    (h : Good l code) (hvalues : ∀ v ∈ o.values, v.BuiltFrom l.operands)
    (hnode : o.node field = .ok n) : Good (l.give (o.result field code.length)) (code ++ [n])
  invoke {l : Level} {code : Trace} {callee : Callee} {vs : List Value} {ops : List Operand}
    (h : Good l code) (hvalues : ∀ v ∈ vs, v.BuiltFrom l.operands)
    (hlen : vs.length = callee.arity) (hops : Value.toOperands vs = .ok ops) :
    Good (l.give (callee.result code.length)) (code ++ [⟨.call callee, ops⟩])
  enroll {l : Level} {code : Trace} {v : Value} {output : Option Operand} (h : Good l code)
    (hv : v.BuiltFrom l.operands) (hout : Extractor.output? v = .ok output) :
    Fine (l.schema.gadget output code)

/-- Whether `Good` holds of every definition in progress, and `Fine` of every gadget. -/
structure Holds (Good : Level → Trace → Prop) (Fine : Gadget → Prop) (m : Machine) : Prop where
  running : Good m.level m.ex.code
  suspended : ∀ f ∈ m.stack, Good f.level f.ex.code
  gadgets : ∀ g ∈ m.ex.gadgets, Fine g

section Invariant

variable {Good : Level → Trace → Prop} {Fine : Gadget → Prop}

/-- A step from a point that only uses what it was handed keeps what such definitions keep. -/
theorem Step.holds {m m' : Machine} (hstep : Step m m') (hinv : Invariant Good Fine)
    (hhonest : m.Honest) (h : m.Holds Good Fine) : m'.Holds Good Fine := by
  obtain ⟨hrunning, hsuspended, hgadgets⟩ := h
  cases hstep with
  | perform hop =>
    obtain ⟨n, hnode, rfl, rfl⟩ := Extractor.perform_eq_ok hop
    exact ⟨hinv.perform hrunning hhonest hnode, hsuspended, hgadgets⟩
  | invoke hop =>
    obtain ⟨ops, hlen, hops, rfl, rfl⟩ := Extractor.invoke_eq_ok hop
    exact ⟨hinv.invoke hrunning hhonest hlen hops, hsuspended, hgadgets⟩
  | performError | invokeError | reuse | refuse => exact ⟨hrunning, hsuspended, hgadgets⟩
  | enter hfind hinner =>
    refine ⟨hinv.enter hinner, ?_, hgadgets⟩
    intro f hf
    rcases List.mem_cons.mp hf with rfl | hf
    · exact hrunning
    · exact hsuspended f hf
  | enroll hout henrolled =>
    -- The caller's trace was put aside whole, and the gadget's own becomes an entry.
    obtain rfl := henrolled
    refine ⟨hsuspended _ (by simp), fun f hf => hsuspended f (by simp [hf]), ?_⟩
    intro g hg
    rcases List.mem_append.mp hg with hg | hg
    · exact hgadgets g hg
    · obtain rfl := List.mem_singleton.mp hg
      exact hinv.enroll hrunning hhonest hout
  | enrollError | fail =>
    exact ⟨hsuspended _ (by simp), fun f hf => hsuspended f (by simp [hf]), hgadgets⟩

/-- What definitions keep that only use what they were handed holds at every point of a session of
    such definitions. -/
theorem Reachable.holds {field : ScalarField} {m : Machine} (hm : Reachable field Honest m)
    (hinv : Invariant Good Fine) : m.Holds Good Fine := by
  induction hm with
  | start => exact ⟨hinv.client, by simp, by simp [Extractor.start]⟩
  | step _ hguard hstep ih => exact hstep.holds hinv hguard ih
  | resume _ _ _ ih => exact ⟨ih.running, ih.suspended, ih.gadgets⟩
  | circuit _ _ hcode c hinner ih =>
    -- The trace is empty, so there is nothing in it that is not the circuit's own.
    refine ⟨?_, by simp, ih.gadgets⟩
    rw [hcode]
    exact hinv.enter hinner
  | takeCode _ _ ih => exact ⟨hinv.client, by simp, ih.gadgets⟩
  | note _ _ _ ih => exact ⟨ih.running, ih.suspended, ih.gadgets⟩

end Invariant

/-- A definition whose trace is laid out, with everything it was handed. -/
structure Level.LaidOut (l : Level) (code : Trace) : Prop where
  trace : Trace.LaidOut l.schema.args code
  held : ∀ op ∈ l.operands, (op.layout? l.schema.args code).isSome

/-- Every definition in progress is laid out, and so is every gadget. -/
structure LaidOut (m : Machine) : Prop where
  running : m.level.LaidOut m.ex.code
  suspended : ∀ f ∈ m.stack, f.level.LaidOut f.ex.code
  gadgets : ∀ g ∈ m.ex.gadgets, g.LaidOut

theorem Level.LaidOut.values {l : Level} {code : Trace} (h : l.LaidOut code) {vs : List Value}
    (hvs : ∀ v ∈ vs, v.BuiltFrom l.operands) :
    ∀ op ∈ Value.operandsAll vs, (op.layout? l.schema.args code).isSome := by
  intro op hop
  rw [Value.operandsAll_eq_flatMap] at hop
  obtain ⟨v, hv, hop⟩ := List.mem_flatMap.mp hop
  exact h.held op (hvs v hv op hop)

theorem Level.LaidOut.push {l : Level} {code : Trace} {n : Node} {v : Value} (h : l.LaidOut code)
    (hn : n.LaidOut l.schema.args code)
    (hv : ∀ op ∈ v.operands, (op.layout? l.schema.args (code ++ [n])).isSome) :
    (l.give v).LaidOut (code ++ [n]) := by
  refine ⟨h.trace.append hn, ?_⟩
  intro op hop
  rcases List.mem_append.mp hop with hop | hop
  · obtain ⟨lay, hlay⟩ := Option.isSome_iff_exists.mp (h.held op hop)
    exact Option.isSome_iff_exists.mpr ⟨lay, Operand.layout?_append [n] hlay⟩
  · exact hv op hop

/-- A definition starts on placeholders, which are laid out as its schema says. -/
theorem Level.laidOut_ofRecord {r inner : Record}
    (hinner : r.withPlaceholders r.schema = (inner, .ok ())) :
    (Level.ofRecord r.schema inner).LaidOut [] := by
  refine ⟨.nil, ?_⟩
  intro op hop
  have hop : op ∈ Value.operandsAll inner.values := hop
  rw [Record.values_withPlaceholders hinner, Value.operandsAll_eq_flatMap] at hop
  obtain ⟨v, hv, hop⟩ := List.mem_flatMap.mp hop
  obtain ⟨⟨arg, j⟩, hj, rfl⟩ := List.mem_map.mp hv
  refine Value.layout?_placeholder ?_ op hop
  have harg : r.schema.args[j]? = some arg := by simpa using List.mem_zipIdx_iff_getElem?.mp hj
  simp [Level.ofRecord, Operand.layout?, harg]

theorem Level.LaidOut.output {l : Level} {code : Trace} (h : l.LaidOut code) {v : Value}
    (hv : v.BuiltFrom l.operands) {output : Option Operand}
    (hout : Extractor.output? v = .ok output) :
    ∀ op ∈ output, (op.layout? l.schema.args code).isSome := by
  rintro op rfl
  exact Value.layout?_toOperand (fun x hx => h.held x (hv x hx)) (Extractor.output?_eq_some hout)

/-- Definitions that only use what they were handed stay laid out. -/
theorem invariant_laidOut : Invariant Level.LaidOut Gadget.LaidOut where
  client := ⟨.nil, by simp [Level.client]⟩
  enter hinner := Level.laidOut_ofRecord hinner
  perform h hvalues hnode := by
    have hn := Operation.node_laidOut hnode (h.values hvalues)
    exact h.push hn (Operation.result_laidOut hnode)
  invoke {l code callee _ ops} h hvalues hlen hops := by
    obtain ⟨ls, hls⟩ := Value.layouts?_toOperands (h.values hvalues) hops
    have hn : Node.LaidOut l.schema.args code ⟨.call callee, ops⟩ :=
      .call ((Value.length_toOperands hops).trans hlen) hls
    exact h.push hn Callee.result_laidOut
  enroll h hv hout := ⟨rfl, h.trace, h.output hv hout, rfl⟩

theorem Reachable.laidOut {field : ScalarField} {m : Machine}
    (hm : Reachable field Honest m) : m.LaidOut := by
  obtain ⟨hrunning, hsuspended, hgadgets⟩ := hm.holds invariant_laidOut
  exact ⟨hrunning, hsuspended, hgadgets⟩

end Machine

/-! ### Well-formedness -/

/-- The node at position `p` of a trace over `arity` inputs stays within its bounds. -/
structure Node.WellFormed (arity : Nat) (code : Trace) (p : Nat) (n : Node) : Prop where
  /-- It refers to earlier nodes only, and to none without a result. -/
  gates : ∀ i ∈ n.gates, i < p ∧ ∃ m, code[i]? = some m ∧ m.op.hasResult = true
  inputs : ∀ j ∈ Operand.inputsAll n.args, j < arity
  arguments : ∀ callee, n.op = .call callee → n.args.length = callee.arity
  /-- A bare number is only the width of a bit decomposition, and that is not negative. -/
  numbers : Operand.numbersAll n.args = [] ∨
    n.op = .gate .toBinary ∧ ∃ x w, n.args = [x, .nat w] ∧ 0 ≤ w ∧ x.numbers = []

/-- A trace over `arity` inputs of which every node stays within its bounds. -/
def Trace.WellFormed (arity : Nat) (code : Trace) : Prop :=
  ∀ (p : Nat) (n : Node), code[p]? = some n → n.WellFormed arity code p

/-- A gadget that is closed under its own numbering, takes the arguments that it lists, and shows
    the shape of its output. -/
structure Gadget.WellFormed (g : Gadget) : Prop where
  arity : g.arity = g.args.length
  code : Trace.WellFormed g.arity g.code
  output : ∀ op ∈ g.output, op.Scoped g.arity g.code
  outputShape : g.outputShape = g.output.map Operand.shape

/-- The running trace, every suspended trace and every gadget are well-formed, each over the signals
    of the record it is recorded for. -/
structure Machine.WellFormed (m : Machine) : Prop where
  running : Trace.WellFormed m.level.schema.arity m.ex.code
  suspended : ∀ f ∈ m.stack, Trace.WellFormed f.level.schema.arity f.ex.code
  gadgets : ∀ g ∈ m.ex.gadgets, g.WellFormed

/-- Arguments that have layouts over the nodes before `p` stay within the bounds of `p`. -/
theorem Node.gates_of_layouts? {p : Nat} {xs : List Operand} {ls : List Layout}
    (h : Operand.layouts? args (code.take p) xs = some ls) :
    ∀ i ∈ Operand.gatesAll xs, i < p ∧ ∃ m, code[i]? = some m ∧ m.op.hasResult = true := by
  intro i hi
  obtain ⟨m, hm, hresult⟩ := (Operand.scoped_of_layouts? h).1 i hi
  have hlt : i < (code.take p).length := (List.getElem?_eq_some_iff.mp hm).1
  have hip : i < p := Nat.lt_of_lt_of_le hlt (List.length_take_le p code)
  rw [List.getElem?_take_of_lt hip] at hm
  exact ⟨hip, m, hm, hresult⟩

theorem Node.LaidOut.wellFormed {p : Nat} {n : Node} (h : n.LaidOut args (code.take p)) :
    n.WellFormed args.length code p := by
  cases h with
  | @toBinary x w hx =>
    obtain ⟨l, hl⟩ := Option.isSome_iff_exists.mp hx
    have hxs : Operand.layouts? args (code.take p) [x] = some [l] := by
      simp [Operand.layouts?, hl]
    -- The width is a bare number, and refers to nothing.
    have hscoped := Operand.scoped_of_layout? hl
    refine ⟨?_, ?_, by simp, .inr ⟨rfl, x, w, rfl, by simp, hscoped.numbers⟩⟩
    · intro i hi
      refine gates_of_layouts? hxs i ?_
      simpa [Node.gates, Operand.gates, Operand.gatesAll] using hi
    · intro j hj
      apply hscoped.inputs j
      simpa [Operand.inputs, Operand.inputsAll] using hj
  | gate hkind hxs =>
    -- Arguments with layouts stay in bounds one by one.
    obtain ⟨-, hinputs, hnumbers⟩ := Operand.scoped_of_layouts? hxs
    refine ⟨?_, hinputs, by simp, .inl hnumbers⟩
    intro i hi
    exact gates_of_layouts? hxs i (by rwa [Operand.gatesAll_eq_flatMap])
  | call hlen hxs =>
    obtain ⟨-, hinputs, hnumbers⟩ := Operand.scoped_of_layouts? hxs
    refine ⟨?_, hinputs, ?_, .inl hnumbers⟩
    · intro i hi
      exact gates_of_layouts? hxs i (by rwa [Operand.gatesAll_eq_flatMap])
    · rintro _ ⟨⟩
      exact hlen

theorem Trace.LaidOut.wellFormed (h : Trace.LaidOut args code) :
    Trace.WellFormed args.length code :=
  fun p n hn => (h p n hn).wellFormed

theorem Gadget.LaidOut.wellFormed {g : Gadget} (h : g.LaidOut) : g.WellFormed := by
  refine ⟨h.arity, ?_, ?_, h.outputShape⟩
  · rw [h.arity]
    exact h.code.wellFormed
  · intro op hop
    rw [h.arity]
    obtain ⟨l, hl⟩ := Option.isSome_iff_exists.mp (h.output op hop)
    exact Operand.scoped_of_layout? hl

end GateTrace
