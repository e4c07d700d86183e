import GateTrace.Proofs.Rendering
import GateTrace.Proofs.Traversal

/-! # Faithful definitions

    A definition, read after those of the gadget table, says that its trace can be satisfied. The
    key ideas:

    - A definition matches its trace if the lines do and the gadgets called resolve.
    - Gadgets resolve by induction on the table, since a gadget only calls those before it. Only the
      gadgets that a trace comes to call matter, directly or through others.
    - What rendering can get wrong is names: an input whose name a result takes, or a gadget whose
      name another gadget takes.
-/

namespace GateTrace

open Definition

variable {α : Type}

/-! ### Definitions and traces -/

/-- Whether what a name stands for says of arguments of the declared shapes that a trace can be
    satisfied on them, handing on the value of its output if it has one. -/
def Meaning.Matches (m : Meaning α) (I : Interpretation α)
    (calls : Nat → Option (GadgetRelation α)) (params : List Argument) (code : Trace)
    (output : Option Operand) : Prop :=
  match output, m with
  | none, .condition holds =>
    ∀ inputs, holds inputs ↔
      Datum.HaveShapes params inputs ∧ ∃ σ, Trace.Satisfied I inputs σ calls code
  | some op, .continued holds =>
    ∀ inputs k, holds inputs k ↔
      Datum.HaveShapes params inputs ∧ ∃ σ, Trace.Satisfied I inputs σ calls code ∧
        ∃ v, op.eval I inputs σ = some v ∧ k v
  | _, _ => False

/-- The first line of a definition reads as: some assignment satisfies the trace. -/
theorem Definition.read_lines {I : Interpretation α} {globals : Globals α}
    {calls : Nat → Option (GadgetRelation α)} {params : List Argument}
    {continuation : Option Shape} {code : Trace} {output : Option Operand}
    (h : Readable globals calls params continuation code output) {inputs : List (Datum α)}
    (hinputs : Datum.HaveShapes params inputs) {d : Definition} (hparams : d.params = params)
    (hcontinuation : d.continuation = continuation)
    (hlines : codeLines params (references code output) 0 code = .ok d.lines)
    {last : Env α → Prop} {S : (Nat → Datum α) → Prop}
    (hlast : ∀ env σ, Agrees params continuation code (references code output) inputs code.length
      env σ → (last env ↔ S σ)) :
    Line.Read I globals last d.lines (d.scope inputs) ↔
      ∃ σ, Trace.Satisfied I inputs σ calls code ∧ S σ := by
  -- Nothing is assigned yet, so any assignment will do to start from.
  have hscope : Agrees params continuation code (references code output) inputs 0
      (d.scope inputs) fun _ => Datum.vec [] := agrees_scope hparams hcontinuation hinputs
  rw [read_codeLines h hinputs hlast (List.drop_zero) (Nat.zero_le _) hlines hscope]
  constructor
  · rintro ⟨σ, -, hσ, hS⟩
    exact ⟨σ, fun p n hn => hσ p n (Nat.zero_le p) hn, hS⟩
  · rintro ⟨σ, hσ, hS⟩
    exact ⟨σ, fun i hi => absurd hi (Nat.not_lt_zero i), fun p n _ hn => hσ p n hn, hS⟩

/-- A definition matches its trace if every input is visible where it is referred to and every
    gadget called resolves. -/
theorem Definition.ofTrace_matches (I : Interpretation α) {globals : Globals α}
    {calls : Nat → Option (GadgetRelation α)} {params : List Argument}
    {continuation : Option Shape} {code : Trace} {output : Option Operand}
    (h : Readable globals calls params continuation code output)
    (houtput : ∀ op ∈ output, (op.layout? params code).isSome)
    (hcontinuation : continuation.isSome = output.isSome) {name : String} {d : Definition}
    (hd : ofTrace name params continuation code output = .ok d) :
    (d.meaning I globals).Matches I calls params code output := by
  obtain ⟨-, hparams, hshape, hlines, hresult⟩ := ofTrace_eq_ok hd
  cases output with
  | none =>
    obtain rfl : continuation = none := by simpa using hcontinuation
    have hmeaning : d.meaning I globals = .condition fun inputs =>
        Datum.HaveShapes params inputs ∧
          Line.Read I globals (fun _ => True) d.lines (d.scope inputs) := by
      simp only [meaning, hshape, hresult, hparams]
    rw [hmeaning]
    intro inputs
    apply and_congr_right
    intro hinputs
    rw [read_lines h hinputs hparams hshape hlines (S := fun _ => True) fun _ _ _ => Iff.rfl]
    simp
  | some op =>
    obtain ⟨t, ht, hresult⟩ := hresult
    obtain ⟨shape, rfl⟩ : ∃ shape, continuation = some shape :=
      Option.isSome_iff_exists.mp (by simpa using hcontinuation)
    have hmeaning : d.meaning I globals = .continued fun inputs k =>
        Datum.HaveShapes params inputs ∧
          Line.Read I globals (fun env => ∃ v, t.eval I env = some v ∧ k v) d.lines
            (d.scope inputs) := by
      simp only [meaning, hshape, hresult, hparams]
    rw [hmeaning]
    intro inputs k
    apply and_congr_right
    intro hinputs
    apply read_lines h hinputs hparams hshape hlines
    intro env σ hagrees
    -- On the last line the term of the output has the value of the output.
    obtain ⟨l, hl⟩ := Option.isSome_iff_exists.mp (houtput op rfl)
    have hfitting : Trace.Fitting σ code := by
      have hall := hagrees.fitting
      rw [List.take_length] at hall
      exact hall
    have hdenotes := hagrees.denotes_output h (Operand.scoped_of_layout? hl)
    rw [eval_term ht hdenotes, Operand.eval_collapse hinputs hfitting hl]

/-! ### Definitions of the gadget table -/

/-- The gadgets that a trace comes to call, directly or through others, by place in the table. -/
inductive Trace.Uses (gadgets : List Gadget) (code : Trace) : Nat → Prop
  | call {n : Node} {callee : Callee} (hn : n ∈ code) (hcallee : n.op = .call callee) :
    Uses gadgets code callee.id
  | through {id : Nat} {g : Gadget} {n : Node} {callee : Callee} (hid : Uses gadgets code id)
    (hg : gadgets[id]? = some g) (hn : n ∈ g.code) (hcallee : n.op = .call callee) :
    Uses gadgets code callee.id

/-- What a trace needs of itself so that its lines keep its meaning: no input is captured, and no
    operation is a chain. -/
structure Trace.Plain (params : List Argument) (continuation : Option Shape) (code : Trace)
    (output : Option Operand) : Prop where
  uncaptured : Uncaptured params continuation code output
  binary : ∀ n ∈ code, n.Binary

/-- What the gadget at place `id` needs so that a call of it keeps its meaning: its trace is plain,
    and it is the only gadget of its name. -/
structure Gadget.Plain (gadgets : List Gadget) (id : Nat) (g : Gadget) : Prop where
  trace : Trace.Plain g.args g.outputShape g.code g.output
  only : ∀ (i : Nat) (g' : Gadget), gadgets[i]? = some g' → g'.name = g.name → i = id

theorem Gadget.LaidOut.isSome_outputShape {g : Gadget} (h : g.LaidOut) :
    g.outputShape.isSome = g.output.isSome := by
  rw [h.outputShape, Option.isSome_map]

/-- A gadget resolves where its definition is given under its name and matches its trace. -/
theorem Meaning.Matches.resolves {I : Interpretation α} {globals : Globals α}
    {calls calls' : Nat → Option (GadgetRelation α)} {m : Meaning α} {g : Gadget} {id : Nat}
    (h : m.Matches I calls g.args g.code g.output) (hname : globals g.name = some m)
    (hrel : calls' id = some (g.relation I calls)) : (g.callee id).Resolves globals calls' := by
  refine ⟨_, hrel, ?_⟩
  have houtput : (g.callee id).output = g.output := rfl
  rw [houtput]
  -- A condition has no value to hand on, and a continued one has.
  cases hout : g.output with
  | none =>
    rw [hout] at h
    cases m with
    | continued _ => exact h.elim
    | condition holds =>
      refine ⟨holds, hname, ?_⟩
      intro vs
      rw [h vs]
      simp [Gadget.relation, hout]
  | some op =>
    rw [hout] at h
    cases m with
    | condition _ => exact h.elim
    | continued holds =>
      refine ⟨?_, holds, hname, fun vs k => ?_⟩
      · intro vs d hd
        obtain ⟨-, σ, -, hd⟩ := hd
        -- The value handed on is that of the output, and so has the arrays it is written with.
        have hvalue : op.eval I vs σ = some d := by simpa [hout] using hd
        exact Operand.fits_outline hvalue
      · rw [h vs k]
        simp only [Gadget.relation, hout, Option.map_some, Option.some.injEq]
        constructor
        · rintro ⟨hvs, σ, hσ, d, hd, hk⟩
          exact ⟨d, ⟨hvs, σ, hσ, hd⟩, hk⟩
        · rintro ⟨d, ⟨hvs, σ, hσ, hd⟩, hk⟩
          exact ⟨hvs, σ, hσ, d, hd, hk⟩

/-- A gadget that resolves goes on to do so while its name and its place mean the same. -/
theorem Callee.Resolves.congr {globals globals' : Globals α}
    {calls calls' : Nat → Option (GadgetRelation α)} {callee : Callee}
    (h : callee.Resolves globals calls) (hname : globals' callee.name = globals callee.name)
    (hrel : calls' callee.id = calls callee.id) : callee.Resolves globals' calls' := by
  obtain ⟨rel, hid, hmatch⟩ := h
  refine ⟨rel, hrel.trans hid, ?_⟩
  cases hout : callee.output with
  | none => simpa only [hout, hname] using hmatch
  | some output => simpa only [hout, hname] using hmatch

/-- The definitions of a longer table are those of the shorter one, and one more. -/
theorem Definition.mapM_ofGadget_append {gadgets : List Gadget} {g : Gadget}
    {ds : List Definition} (h : (gadgets ++ [g]).mapM ofGadget = .ok ds) :
    ∃ ds' d, gadgets.mapM ofGadget = .ok ds' ∧ ofGadget g = .ok d ∧ ds = ds' ++ [d] := by
  rw [List.mapM_append] at h
  simp only [List.mapM_cons, List.mapM_nil, bind, Except.bind, pure, Except.pure] at h
  split at h
  · contradiction
  · next ds' hds' =>
    cases hd : ofGadget g with
    | error e => simp [hd] at h
    | ok d =>
      simp only [hd] at h
      exact ⟨ds', d, hds', rfl, (Except.ok.inj h).symm⟩

theorem Gadget.Ordered.of_append {gadgets more : List Gadget}
    (h : Gadget.Ordered (gadgets ++ more)) : Gadget.Ordered gadgets := by
  intro id g hg
  exact forall_getElem?_of_append (P := fun before g => Trace.CallsInto before g.code) h id g hg

theorem Gadget.Plain.of_append {gadgets more : List Gadget} {id : Nat} {g : Gadget}
    (h : Gadget.Plain (gadgets ++ more) id g) : Gadget.Plain gadgets id g := by
  refine ⟨h.trace, ?_⟩
  intro i g' hg' hname
  exact h.only i g' (getElem?_grow hg' more) hname

/-- What a trace over a table needs so that its lines are read as its nodes. -/
theorem Trace.Plain.readable {globals : Globals α} {gadgets : List Gadget} {I : Interpretation α}
    {params : List Argument} {continuation : Option Shape} {code : Trace} {output : Option Operand}
    (h : Trace.Plain params continuation code output) (hlaid : Trace.LaidOut params code)
    (hcalls : Trace.CallsInto gadgets code)
    (hresolves : ∀ n ∈ code, ∀ callee, n.op = .call callee → ∀ g ∈ gadgets[callee.id]?,
      (g.callee callee.id).Resolves globals ((Gadget.relations I gadgets)[·]?)) :
    Readable globals ((Gadget.relations I gadgets)[·]?) params continuation code output := by
  refine ⟨hlaid, h.uncaptured, h.binary, ?_⟩
  intro n hn callee hcallee
  obtain ⟨g, hg, heq⟩ := hcalls n hn callee hcallee
  rw [heq]
  exact hresolves n hn callee hcallee g hg

/-- Every gadget that a trace comes to call resolves by the definitions of the table. -/
theorem Gadget.resolves {gadgets : List Gadget} (hordered : Gadget.Ordered gadgets)
    (hlaid : ∀ g ∈ gadgets, g.LaidOut) {needed : Nat → Prop}
    (hneeded : ∀ id, needed id → ∀ g ∈ gadgets[id]?, Gadget.Plain gadgets id g ∧
      ∀ n ∈ g.code, ∀ callee, n.op = .call callee → needed callee.id)
    {ds : List Definition} (hds : gadgets.mapM ofGadget = .ok ds) (I : Interpretation α)
    {id : Nat} (hid : needed id) {g : Gadget} (hg : gadgets[id]? = some g) :
    (g.callee id).Resolves (globals I ds) ((relations I gadgets)[·]?) := by
  induction gadgets using List.reverseRecOn generalizing ds id g with
  | nil => simp at hg
  | append_singleton gadgets last ih =>
    obtain ⟨ds', d, hds', hd, rfl⟩ := mapM_ofGadget_append hds
    obtain ⟨hname, -, -, -, -⟩ := ofTrace_eq_ok hd
    -- The gadgets before the last one resolve by the definitions before the last one.
    have hbefore : ∀ {id : Nat}, needed id → ∀ {g : Gadget}, gadgets[id]? = some g →
        (g.callee id).Resolves (globals I ds') ((relations I gadgets)[·]?) := by
      intro id hid g hg
      refine ih hordered.of_append (fun g hg => hlaid g (by simp [hg])) ?_ hds' hid hg
      intro i hi g' hg'
      obtain ⟨hplain, hcalls⟩ := hneeded i hi g' (getElem?_grow hg' [last])
      exact ⟨hplain.of_append, hcalls⟩
    obtain ⟨hplain, hcallees⟩ := hneeded id hid g hg
    have hinto := hordered id g hg
    rcases getElem?_concat_cases hg with ⟨hlast, hg⟩ | ⟨rfl, rfl⟩
    · -- The definition of the last gadget takes neither the name nor the place.
      have hne : g.name ≠ last.name := by
        intro heq
        have hpos := hplain.only gadgets.length last (by simp) heq.symm
        omega
      refine (hbefore hid hg).congr ?_ ?_
      · rw [globals_append, hname]
        exact if_neg hne
      · simp only [relations_append]
        rw [List.getElem?_append_left]
        rw [length_relations]
        exact hlast
    · -- The last gadget calls gadgets before it, and these resolve by induction.
      have hlastLaid : last.LaidOut := hlaid last (by simp)
      have hcalls : Trace.CallsInto gadgets last.code := by
        rw [List.take_left] at hinto
        exact hinto
      have hreadable : Readable (globals I ds') ((relations I gadgets)[·]?) last.args
          last.outputShape last.code last.output :=
        hplain.trace.readable hlastLaid.code hcalls fun n hn callee hcallee g' hg' =>
          hbefore (hcallees n hn callee hcallee) hg'
      have hmatches := ofTrace_matches I hreadable hlastLaid.output hlastLaid.isSome_outputShape hd
      refine hmatches.resolves ?_ ?_
      · rw [globals_append, hname]
        exact if_pos rfl
      · simp only [relations_append]
        rw [List.getElem?_append_right (by simp), length_relations]
        simp

/-! ### Rendered sessions -/

/-- What it takes for the definition of a trace, read after those of a table, to keep its meaning:
    the trace is plain, and so is every gadget that it comes to call. -/
structure Trace.Legible (gadgets : List Gadget) (params : List Argument)
    (continuation : Option Shape) (code : Trace) (output : Option Operand) : Prop where
  trace : Trace.Plain params continuation code output
  gadgets : ∀ id, Trace.Uses gadgets code id → ∀ g ∈ gadgets[id]?, Gadget.Plain gadgets id g

/-- A definition that is read after those of a table matches its trace. -/
theorem Definition.meaning_matches {gadgets : List Gadget} (hordered : Gadget.Ordered gadgets)
    (hlaid : ∀ g ∈ gadgets, g.LaidOut) {ds : List Definition}
    (hds : gadgets.mapM ofGadget = .ok ds) {params : List Argument} {continuation : Option Shape}
    {code : Trace} {output : Option Operand} (hcode : Trace.LaidOut params code)
    (hcalls : Trace.CallsInto gadgets code)
    (houtput : ∀ op ∈ output, (op.layout? params code).isSome)
    (hcontinuation : continuation.isSome = output.isSome)
    (h : Trace.Legible gadgets params continuation code output) {name : String} {d : Definition}
    (hd : ofTrace name params continuation code output = .ok d) (I : Interpretation α) :
    (d.meaning I (globals I ds)).Matches I ((Gadget.relations I gadgets)[·]?) params code output := by
  have hneeded : ∀ id, Trace.Uses gadgets code id → ∀ g ∈ gadgets[id]?,
      Gadget.Plain gadgets id g ∧
        ∀ n ∈ g.code, ∀ callee, n.op = .call callee → Trace.Uses gadgets code callee.id :=
    fun id hid g hg => ⟨h.gadgets id hid g hg, fun n hn callee hcallee => .through hid hg hn hcallee⟩
  have hreadable : Readable (globals I ds) ((Gadget.relations I gadgets)[·]?) params continuation
      code output :=
    h.trace.readable hcode hcalls fun n hn callee hcallee g hg =>
      Gadget.resolves hordered hlaid hneeded hds I (.call hn hcallee) hg
  exact ofTrace_matches I hreadable houtput hcontinuation hd

theorem Definition.mapM_ofGadget_isOk {gadgets : List Gadget} (hlaid : ∀ g ∈ gadgets, g.LaidOut) :
    ∃ ds, gadgets.mapM ofGadget = .ok ds := by
  refine exists_mapM_eq_ok_iff.mpr ?_
  intro g hg
  exact ofTrace_isOk g.outputShape (hlaid g hg).code (hlaid g hg).output g.name

/-- The first definitions of a table are those of its first gadgets. -/
theorem Definition.mapM_ofGadget_take {gadgets : List Gadget} {ds : List Definition}
    (h : gadgets.mapM ofGadget = .ok ds) (i : Nat) :
    (gadgets.take i).mapM ofGadget = .ok (ds.take i) ∧
      ∀ g ∈ gadgets[i]?, ∃ d, ds[i]? = some d ∧ ofGadget g = .ok d := by
  have hdefs := mapM_eq_ok_iff.mp h
  refine ⟨mapM_eq_ok_iff.mpr (List.forall₂_take i hdefs), ?_⟩
  clear h
  induction hdefs generalizing i with
  | nil => simp
  | cons hd _ ih =>
    cases i with
    | zero => simpa using hd
    | succ i => simpa using ih i

/-- At every point of a session whose definitions only use what they were handed, the table and the
    running trace can be rendered. Read one after the other, the definition of the trace says that
    the trace can be satisfied, and so does that of every gadget where it stands, as long as no
    input is captured, no operation is a chain, and no gadget that is called shares its name. -/
theorem Machine.Reachable.definitions_match {field : ScalarField} {m : Machine}
    (hm : Reachable field (fun m => m.Honest ∧ m.CallsOwn) m) :
    ∃ ds, m.ex.gadgets.mapM ofGadget = .ok ds ∧
      (∀ name, ∃ d, ofCircuit name m.level.schema.args m.ex.code = .ok d ∧
        (Trace.Legible m.ex.gadgets m.level.schema.args none m.ex.code none →
          ∀ {α : Type} (I : Interpretation α),
            (d.meaning I (globals I ds)).Matches I ((Gadget.relations I m.ex.gadgets)[·]?)
              m.level.schema.args m.ex.code none)) ∧
      ∀ id, ∀ g ∈ m.ex.gadgets[id]?, ∃ d, ds[id]? = some d ∧ ofGadget g = .ok d ∧
        (Trace.Legible (m.ex.gadgets.take id) g.args g.outputShape g.code g.output →
          ∀ {α : Type} (I : Interpretation α),
            (d.meaning I (globals I (ds.take id))).Matches I
              ((Gadget.relations I (m.ex.gadgets.take id))[·]?) g.args g.code g.output) := by
  obtain ⟨hrunning, -, hgadgets⟩ := (hm.mono fun _ h => h.1).laidOut
  obtain ⟨hcalls, -, hordered⟩ := (hm.mono fun _ h => h.2).linked
  obtain ⟨ds, hds⟩ := mapM_ofGadget_isOk hgadgets
  refine ⟨ds, hds, ?_, ?_⟩
  · intro name
    have hnone : ∀ op ∈ (none : Option Operand),
        (op.layout? m.level.schema.args m.ex.code).isSome := by simp
    obtain ⟨d, hd⟩ := ofTrace_isOk none hrunning.trace hnone name
    refine ⟨d, hd, ?_⟩
    intro h α I
    exact meaning_matches hordered hgadgets hds hrunning.trace hcalls (by simp) rfl h hd I
  · intro id g hg
    obtain ⟨htake, hget⟩ := mapM_ofGadget_take hds id
    obtain ⟨d, hd, hgadget⟩ := hget g hg
    refine ⟨d, hd, hgadget, ?_⟩
    intro h α I
    have hlaid : g.LaidOut := hgadgets g (List.mem_of_getElem? hg)
    -- A gadget only calls those before it, so the table up to it is all it needs.
    have hbefore : Gadget.Ordered (m.ex.gadgets.take id) := by
      rw [← List.take_append_drop id m.ex.gadgets] at hordered
      exact hordered.of_append
    exact meaning_matches hbefore (fun g hg => hgadgets g (List.mem_of_mem_take hg)) htake
      hlaid.code (hordered id g hg) hlaid.output hlaid.isSome_outputShape h hgadget I

/-- A circuit that asks for the double of its first signal, recorded to the end: the definition is
    read as meant by every interpretation. -/
theorem Machine.Reachable.definitions_match_double :
    ∃ m : Machine, Reachable .bn254 (fun m => m.Honest ∧ m.CallsOwn) m ∧
      m.ex.code = [⟨.gate .add, [.input 0, .input 0]⟩, ⟨.gate .assertEq, [.gate 0, .input 1]⟩] ∧
      ∃ d, ofCircuit "circuit" m.level.schema.args m.ex.code = .ok d ∧
        ∀ {α : Type} (I : Interpretation α),
          (d.meaning I fun _ => none).Matches I (fun _ => none) m.level.schema.args m.ex.code
            none := by
  let c : Component :=
    ⟨⟨"Double", [⟨"x", .signal (.wire .nil)⟩, ⟨"out", .signal (.wire .nil)⟩]⟩, fun _ =>
      .perform (.add (.operand (.input 0)) (.operand (.input 0)) []) fun _ =>
        .ofOperation (.assertEqual (.operand (.gate 0)) (.operand (.input 1)))⟩
  have hstart : Reachable .bn254 (fun m => m.Honest ∧ m.CallsOwn) _ :=
    .circuit .start ⟨rfl, .inl ⟨_, rfl⟩⟩ rfl c rfl
  have hadd : Reachable .bn254 (fun m => m.Honest ∧ m.CallsOwn) _ :=
    .step hstart ⟨by decide, trivial⟩ (.perform rfl)
  have hassert : Reachable .bn254 (fun m => m.Honest ∧ m.CallsOwn) _ :=
    .step hadd ⟨by decide, trivial⟩ (.perform rfl)
  obtain ⟨ds, hds, hcircuit, -⟩ := definitions_match hassert
  obtain rfl : [] = ds := Except.ok.inj hds
  obtain ⟨d, hd, hmatches⟩ := hcircuit "circuit"
  have hordinary : Ordinary [⟨"x", .scalar⟩, ⟨"out", .scalar⟩] := by
    refine ⟨by decide, ?_, by decide⟩
    intro a ha i heq
    have hlist := congrArg String.toList heq
    rcases List.mem_pair.mp ha with rfl | rfl <;> simp [resultName] at hlist
  have hplain : Trace.Plain [⟨"x", .scalar⟩, ⟨"out", .scalar⟩] none
      [⟨.gate .add, [.input 0, .input 0]⟩, ⟨.gate .assertEq, [.gate 0, .input 1]⟩] none := by
    refine ⟨hordinary.uncaptured _ _ _, ?_⟩
    intro n hn kind hkind hvariadic
    rcases List.mem_pair.mp hn with rfl | rfl <;> rfl
  exact ⟨_, hassert, rfl, d, hd, @hmatches ⟨hplain, fun id _ g hg => nomatch hg⟩⟩

/-- With a signal that has the name of a result the same circuit is read as something else: the
    binder of the sum covers its own equation, so that over the integers `g = g + g` is left of
    `1 + 1 = 2`. -/
theorem not_definitions_match :
    ∃ m : Machine, Machine.Reachable .bn254 (fun m => m.Honest ∧ m.CallsOwn) m ∧
      (∀ n ∈ m.ex.code, n.Binary) ∧ m.ex.gadgets = [] ∧
        ∃ d, ofCircuit "circuit" m.level.schema.args m.ex.code = .ok d ∧
          ∃ holds, d.meaning .integers (fun _ => none) = .condition holds ∧
            Datum.HaveShapes m.level.schema.args [.elem 1, .elem 2] ∧
            ¬ (holds [.elem 1, .elem 2] ↔
              ∃ σ, Trace.Satisfied .integers [.elem 1, .elem 2] σ (fun _ => none) m.ex.code) := by
  let c : Component :=
    ⟨⟨"Twice", [⟨"gate_0", .signal (.wire .nil)⟩, ⟨"out", .signal (.wire .nil)⟩]⟩, fun _ =>
      .perform (.add (.operand (.input 0)) (.operand (.input 0)) []) fun _ =>
        .ofOperation (.assertEqual (.operand (.gate 0)) (.operand (.input 1)))⟩
  have hstart : Machine.Reachable .bn254 (fun m => m.Honest ∧ m.CallsOwn) _ :=
    .circuit .start ⟨rfl, .inl ⟨_, rfl⟩⟩ rfl c rfl
  have hadd : Machine.Reachable .bn254 (fun m => m.Honest ∧ m.CallsOwn) _ :=
    .step hstart ⟨by decide, trivial⟩ (.perform rfl)
  have hassert : Machine.Reachable .bn254 (fun m => m.Honest ∧ m.CallsOwn) _ :=
    .step hadd ⟨by decide, trivial⟩ (.perform rfl)
  refine ⟨_, hassert, ?_, rfl, _, rfl, _, rfl, ?_, ?_⟩
  -- No operation is a chain: the only thing wrong here is the captured name.
  · intro n hn kind hkind hvariadic
    rcases List.mem_pair.mp hn with rfl | rfl <;> rfl
  · exact .cons trivial (.cons trivial .nil)
  · intro h
    -- With two for the sum, the trace is satisfied by the inputs one and two.
    have hsatisfied : ∃ σ, Trace.Satisfied Interpretation.integers [.elem 1, .elem 2] σ
        (fun _ => none) [⟨.gate .add, [.input 0, .input 0]⟩,
          ⟨.gate .assertEq, [.gate 0, .input 1]⟩] := by
      refine ⟨fun _ => .elem 2, fun p n hn => ?_⟩
      match p with
      | 0 =>
        obtain rfl := Option.some.inj hn
        exact ⟨_, rfl, rfl⟩
      | 1 =>
        obtain rfl := Option.some.inj hn
        exact ⟨_, rfl, rfl⟩
      | p + 2 => simp at hn
    obtain ⟨-, g, vs, hvs, hg, ws, hws, hout, -⟩ := h.mpr hsatisfied
    obtain rfl : [g, g] = vs := Option.some.inj hvs
    obtain rfl : [g, .elem 2] = ws := Option.some.inj hws
    cases g with
    | elem a =>
      -- On the lines, the sum is that of itself with itself, as its name hides the parameter.
      have ha : a = a + a := Datum.elem.inj hg
      have htwo : a = 2 := hout
      omega
    | number _ | vec _ => cases hg

end GateTrace
