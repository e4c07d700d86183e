import GateTrace.Proofs.Calls
import GateTrace.Proofs.OutOfRange
import GateTrace.Proofs.Scoping

/-! # Definitions mean what their traces mean

    A rendered definition, read with lexical scoping, holds exactly if its trace can be satisfied.
    The key ideas:

    - The lines of one node read as: some value satisfies the node, and the rest holds with the
      node's name standing for it. An assignment is what these values make up, line after line.
    - The invariant of that induction ties the names in scope to the assignment: every result named
      so far and every visible input stand for their values.
    - A call is read by the definition given under the gadget's name, which matches the relation at
      the gadget's place in the table by induction on the table.
-/

namespace GateTrace

open Definition

variable {α : Type} {I : Interpretation α} {globals : Globals α}
  {calls : Nat → Option (GadgetRelation α)}

/-- A name stands for a datum from here on, if there is a name. -/
def Env.bind? (env : Env α) : Option String → Datum α → Env α
  | some x, d => env.bind x d
  | none, _ => env

theorem Env.bind?_of_ne {env : Env α} {x? : Option String} {d : Datum α} {y : String}
    (h : ∀ x ∈ x?, y ≠ x) : env.bind? x? d y = env y := by
  cases x? with
  | none => rfl
  | some x => exact Env.bind_of_ne env d (h x rfl)

/-! ### One node -/

/-- Whether the definition given under a gadget's name says what the relation at its place of the
    table says. A value handed back has the arrays that the gadget's output is written with. -/
def Callee.Resolves (globals : Globals α) (calls : Nat → Option (GadgetRelation α))
    (callee : Callee) : Prop :=
  ∃ rel, calls callee.id = some rel ∧
    match callee.output with
    | none =>
      ∃ holds, globals callee.name = some (.condition holds) ∧ ∀ vs, holds vs ↔ rel vs none
    | some output =>
      (∀ vs d, rel vs (some d) → d.Fits output.outline) ∧
        ∃ holds, globals callee.name = some (.continued holds) ∧
          ∀ vs k, holds vs k ↔ ∃ d, rel vs (some d) ∧ k d

/-- Whether a node is no chain: a variadic operation has two operands. -/
def Node.Binary (n : Node) : Prop :=
  ∀ kind, n.op = .gate kind → kind.isVariadic = true → n.args.length = 2

/-- The environment that the arguments of a node are read in, where its own name stands for `d`. -/
def Node.argumentEnv (n : Node) (used : List Nat) (p : Nat) (env : Env α) (d : Datum α) : Env α :=
  match n.op with
  | .gate _ => env.bind? (binder? used p n) d
  | .call _ => env

theorem gateLines_functional {kind : GateKind} (hstyle : kind.style = .functional) {x : String}
    {ts : List Term} (hbinary : kind.isVariadic = true → ts.length = 2) :
    gateLines kind x ts = [.equation x kind ts] := by
  unfold gateLines
  simp only [hstyle]
  split
  · next hvariadic =>
    have hlen := hbinary hvariadic
    simp at hlen
  · rfl

/-- The line of a gate that has a result asks for a value that satisfies the gate. Its name stands
    for that value already where the arguments are read. -/
theorem read_gateLines (calls : Nat → Option (GadgetRelation α)) {kind : GateKind}
    (hstyle : kind.style ≠ .assertion) {x : String} {ts : List Term}
    (hbinary : kind.isVariadic = true → ts.length = 2) {last : Env α → Prop} {env : Env α} :
    Line.Read I globals last (gateLines kind x ts) env ↔
      ∃ d, (∃ vs, Term.evalAll I (env.bind x d) ts = some vs ∧ (Op.gate kind).Holds I calls vs d) ∧
        last (env.bind x d) := by
  -- A gate that is no chain makes one line, read as its style says.
  have hread : Line.Read I globals last (gateLines kind x ts) env ↔
      ∃ d vs, Term.evalAll I (env.bind x d) ts = some vs ∧ (Op.gate kind).Holds I calls vs d ∧
        last (env.bind x d) := by
    cases hkind : kind.style with
    | functional =>
      rw [gateLines_functional hkind hbinary]
      simp only [Line.Read, Line.Holds, Op.Holds, hkind]
    | callback => simp only [gateLines, Line.Read, Line.Holds, Op.Holds, hkind]
    | assertion => contradiction
  rw [hread]
  constructor
  · intro h
    obtain ⟨d, vs, hvs, hd, hlast⟩ := h
    exact ⟨d, ⟨vs, hvs, hd⟩, hlast⟩
  · intro h
    obtain ⟨d, ⟨vs, hvs, hd⟩, hlast⟩ := h
    exact ⟨d, vs, hvs, hd, hlast⟩

/-- The line of a call asks for a value that the callee hands back, or if there is none that the
    callee holds. -/
theorem read_callLine {callee : Callee} (hresolves : callee.Resolves globals calls)
    {used : List Nat} {p : Nat} {args : List Operand} {ts : List Term} {last : Env α → Prop}
    {env : Env α} :
    Line.Read I globals last (opLines (.call callee) (gateName? used p) ts) env ↔
      ∃ d, (∃ vs, Term.evalAll I env ts = some vs ∧ (Op.call callee).Holds I calls vs d) ∧
        last (env.bind? (binder? used p ⟨.call callee, args⟩) d) := by
  obtain ⟨rel, hrel, hmatch⟩ := hresolves
  cases hout : callee.output with
  | none =>
    -- Without an output the call is a condition on its own, and binds no name.
    simp only [hout] at hmatch
    obtain ⟨holds, hglobal, hholds⟩ := hmatch
    simp only [opLines, binder?, hout, Option.map_none, Env.bind?]
    constructor
    · intro h
      obtain ⟨holds', vs, hglobal', hvs, hcall, hlast⟩ := h
      obtain rfl : holds = holds' := by simpa [hglobal] using hglobal'
      refine ⟨.vec [], ⟨vs, hvs, rel, hrel, ?_⟩, hlast⟩
      rw [hout]
      exact (hholds vs).mp hcall
    · intro h
      obtain ⟨d, ⟨vs, hvs, rel', hrel', hcall⟩, hlast⟩ := h
      obtain rfl : rel = rel' := by simpa [hrel] using hrel'
      rw [hout] at hcall
      exact ⟨holds, vs, hglobal, hvs, (hholds vs).mpr hcall, hlast⟩
  | some output =>
    simp only [hout] at hmatch
    -- With an output the rest is read inside the continuation, with the value that is handed on.
    obtain ⟨-, holds, hglobal, hholds⟩ := hmatch
    simp only [opLines, binder?, hout, Option.map_some, Env.bind?]
    constructor
    · intro h
      obtain ⟨holds', vs, hglobal', hvs, hcall⟩ := h
      obtain rfl : holds = holds' := by simpa [hglobal] using hglobal'
      obtain ⟨d, hd, hlast⟩ := (hholds vs _).mp hcall
      refine ⟨d, ⟨vs, hvs, rel, hrel, ?_⟩, hlast⟩
      rw [hout]
      exact hd
    · intro h
      obtain ⟨d, ⟨vs, hvs, rel', hrel', hcall⟩, hlast⟩ := h
      obtain rfl : rel = rel' := by simpa [hrel] using hrel'
      rw [hout] at hcall
      exact ⟨holds, vs, hglobal, hvs, (hholds vs _).mpr ⟨d, hcall, hlast⟩⟩

/-- The lines of a node ask for a value that satisfies it, which its name stands for in the rest. -/
theorem read_opLines {n : Node} {used : List Nat} {p : Nat} {ts : List Term} {env : Env α}
    {last : Env α → Prop} {values : Option (List (Datum α))} (hbinary : n.Binary)
    (hlen : ts.length = n.args.length)
    (hresolves : ∀ callee, n.op = .call callee → callee.Resolves globals calls)
    (hvalues : ∀ d, Term.evalAll I (n.argumentEnv used p env d) ts = values) :
    Line.Read I globals last (opLines n.op (gateName? used p) ts) env ↔
      ∃ d, (∃ vs, values = some vs ∧ n.op.Holds I calls vs d) ∧
        last (env.bind? (binder? used p n) d) := by
  obtain ⟨op, args⟩ := n
  cases op with
  | call callee =>
    have henv : Term.evalAll I env ts = values := hvalues (.vec [])
    rw [← henv]
    exact read_callLine (hresolves callee rfl)
  | gate kind =>
    simp only [Node.argumentEnv, binder?] at hvalues ⊢
    by_cases hstyle : kind.style = .assertion
    · -- An assertion binds no name, and whatever value it is given satisfies it.
      simp only [opLines, gateLines, hstyle, if_true, Env.bind?] at hvalues ⊢
      constructor
      · intro h
        obtain ⟨vs, hvs, hd, hlast⟩ := h
        rw [hvalues (.vec [])] at hvs
        exact ⟨.vec [], ⟨vs, hvs, by simpa [Op.Holds, hstyle] using hd⟩, hlast⟩
      · intro h
        obtain ⟨d, ⟨vs, hvs, hd⟩, hlast⟩ := h
        rw [← hvalues d] at hvs
        exact ⟨vs, hvs, by simpa [Op.Holds, hstyle] using hd, hlast⟩
    -- Any other gate covers its own arguments with its name, which is why these are read under it.
    · simp only [hstyle, if_false, Env.bind?] at hvalues ⊢
      have hvariadic : kind.isVariadic = true → ts.length = 2 :=
        fun hvariadic => hlen.trans (hbinary kind rfl hvariadic)
      apply (read_gateLines calls hstyle hvariadic).trans
      simp only [hvalues]

/-! ### The invariant -/

/-- A gate that is no bit decomposition is laid out as a single element, if at all. -/
theorem Node.eq_leaf_of_layout? {kind : GateKind} {xs : List Operand} (hkind : kind ≠ .toBinary)
    {l : Layout} (h : Node.layout? ⟨.gate kind, xs⟩ = some l) : l = .leaf := by
  by_cases hstyle : kind.style = .assertion
  · have hresult := Node.hasResult_of_layout? h
    simp [Op.hasResult, hstyle] at hresult
  · rw [Node.layout?_gate hkind hstyle] at h
    exact (Option.some.inj h).symm

/-- A value that satisfies a node has the arrays of the node's layout. -/
theorem Node.fits_of_holds {args : List Argument} {earlier : Trace} {n : Node}
    {inputs : List (Datum α)} {σ : Nat → Datum α} (hn : n.LaidOut args earlier)
    (hresolves : ∀ callee, n.op = .call callee → callee.Resolves globals calls)
    {vs : List (Datum α)} (hvs : Operand.evalAll I inputs σ n.args = some vs) {d : Datum α}
    (hd : n.op.Holds I calls vs d) {l : Layout} (hl : n.layout? = some l) : d.Fits l := by
  cases hn with
  | @toBinary x w hx =>
    obtain rfl : Layout.node (List.replicate w .leaf) = l := by simpa [Node.layout?] using hl
    obtain ⟨e, es, he, hes, rfl⟩ := Operand.evalAll_cons_eq_some_iff.mp hvs
    obtain rfl : [Datum.number w] = es := by
      simpa [Operand.evalAll, Operand.eval] using hes
    -- The bits are as many as the width says.
    obtain ⟨items, rfl, rfl⟩ := I.bits hd
    exact Datum.fitsAll_replicate.mpr fun d _ => trivial
  | gate hkind hxs =>
    obtain rfl := Node.eq_leaf_of_layout? hkind hl
    trivial
  | @call callee xs ls hlen hxs =>
    obtain ⟨rel, hrel, hmatch⟩ := hresolves callee rfl
    obtain ⟨rel', hrel', hcall⟩ := hd
    obtain rfl : rel = rel' := by simpa [hrel] using hrel'
    obtain ⟨output, hout, rfl⟩ := Option.map_eq_some_iff.mp hl
    simp only [hout] at hmatch hcall
    -- What a gadget hands back fits its output, by what its name stands for.
    exact hmatch.1 vs d hcall

/-- Collapsing the arguments of a node keeps their values. -/
theorem Node.evalAll_collapse {args : List Argument} {earlier : Trace} {n : Node}
    {inputs : List (Datum α)} {σ : Nat → Datum α} (hn : n.LaidOut args earlier)
    (hinputs : Datum.HaveShapes args inputs) (hσ : Trace.Fitting σ earlier) :
    Operand.evalAll I inputs σ (Operand.collapseAll n.args) = Operand.evalAll I inputs σ n.args := by
  cases hn with
  | toBinary hx =>
    obtain ⟨l, hl⟩ := Option.isSome_iff_exists.mp hx
    simp only [Operand.collapseAll, Operand.evalAll, Operand.eval_collapse hinputs hσ hl]
    rfl
  | gate _ hxs | call _ hxs => exact Operand.evalAll_collapseAll hinputs hσ hxs

/-- What ties the names in scope on the line of the node at position `p` to an assignment. -/
structure Agrees (params : List Argument) (continuation : Option Shape) (code : Trace)
    (used : List Nat) (inputs : List (Datum α)) (p : Nat) (env : Env α) (σ : Nat → Datum α) :
    Prop where
  results : ∀ i, i < p → i ∈ used → ∀ n ∈ code[i]?, n.op.hasResult = true →
    env (resultName i) = some (σ i)
  inputs : ∀ j, Visible params continuation (binders used 0 (code.take p)) j →
    ∀ a ∈ params[j]?, env a.name = inputs[j]?
  fitting : Trace.Fitting σ (code.take p)

section Trace

variable {params : List Argument} {continuation : Option Shape} {code : Trace}
  {output : Option Operand} {inputs : List (Datum α)} {p : Nat} {env : Env α} {σ : Nat → Datum α}

/-- The names in scope say nothing about nodes that are still to come. -/
theorem Agrees.congr {used : List Nat} {τ : Nat → Datum α}
    (h : Agrees params continuation code used inputs p env σ) (hτ : ∀ i, i < p → τ i = σ i) :
    Agrees params continuation code used inputs p env τ := by
  refine ⟨?_, h.inputs, ?_⟩
  · intro i hi hused n hn hresult
    rw [hτ i hi]
    exact h.results i hi hused n hn hresult
  · intro i n l hn hl
    have hi : i < p := by
      have hlt := (List.getElem?_eq_some_iff.mp hn).1
      exact Nat.lt_of_lt_of_le hlt (List.length_take_le p code)
    rw [hτ i hi]
    exact h.fitting i n l hn hl

theorem agrees_scope {used : List Nat} {d : Definition} (hparams : d.params = params)
    (hcontinuation : d.continuation = continuation) (hinputs : Datum.HaveShapes params inputs) :
    Agrees params continuation code used inputs 0 (d.scope inputs) σ := by
  subst hparams hcontinuation
  refine ⟨by simp, ?_, by simp [Trace.Fitting]⟩
  intro j hvisible a ha
  have henv : (Env.empty : Env α).ofParams d.params inputs a.name = inputs[j]? :=
    Env.ofParams_eq hinputs.length_eq ha (hvisible.later a ha)
  have hk := hvisible.continuation a ha
  unfold Definition.scope
  cases hshape : d.continuation with
  | none => exact henv
  | some shape =>
    exact (Env.hide_of_ne _ (hk (by rw [hshape]; rfl))).trans henv

/-- The invariant passes on to the next line, where the node's name stands for a value that fits
    it. -/
theorem Agrees.next {used : List Nat} {n : Node}
    (h : Agrees params continuation code used inputs p env σ) (hn : code[p]? = some n)
    (hfits : ∀ l, n.layout? = some l → (σ p).Fits l) :
    Agrees params continuation code used inputs (p + 1) (env.bind? (binder? used p n) (σ p)) σ := by
  have htake : code.take (p + 1) = code.take p ++ [n] := by
    rw [List.take_add_one, hn]
    rfl
  have hlen : (code.take p).length = p := by
    have hlt := (List.getElem?_eq_some_iff.mp hn).1
    simp [Nat.le_of_lt hlt]
  refine ⟨?_, ?_, ?_⟩
  · intro i hi hused m hm hresult
    -- The node's own name is bound on its line; names of others are not touched by it.
    by_cases hip : i = p
    · subst hip
      obtain rfl : n = m := by simpa [hn] using hm
      rw [binder?_of_mem hused hresult]
      exact Env.bind_self _ _ _
    · rw [Env.bind?_of_ne fun x hx => binder?_ne hx hip]
      exact h.results i (by omega) hused m hm hresult
  · intro j hvisible a ha
    rw [htake, binders_append, hlen] at hvisible
    -- An input that is visible further on was visible before, and has another name than the node.
    have hbound := hvisible.bound a ha
    simp only [binders, List.append_nil, Nat.zero_add, List.mem_append, not_or] at hbound
    rw [Env.bind?_of_ne]
    · refine h.inputs j (hvisible.mono fun x hx => List.mem_append_left _ hx) a ha
    · rintro x hx rfl
      exact hbound.2 (by simpa using hx)
  · intro i m l hm hl
    rw [htake] at hm
    -- The layouts of earlier nodes are known, and that of this one is given.
    rcases getElem?_concat_cases hm with ⟨-, hm⟩ | ⟨hi, rfl⟩
    · exact h.fitting i m l hm hl
    · rw [hi, hlen]
      exact hfits l hl

/-! ### Traces -/

/-- What it takes for the lines of a trace to be read as its nodes, one by one. -/
structure Readable (globals : Globals α) (calls : Nat → Option (GadgetRelation α))
    (params : List Argument) (continuation : Option Shape) (code : Trace)
    (output : Option Operand) : Prop where
  laidOut : Trace.LaidOut params code
  uncaptured : Uncaptured params continuation code output
  binary : ∀ n ∈ code, n.Binary
  resolves : ∀ n ∈ code, ∀ callee, n.op = .call callee → callee.Resolves globals calls

/-- Around the arguments of a node the names in them stand for their values. -/
theorem Agrees.denotes (h : Readable globals calls params continuation code output)
    {n : Node} (hn : code[p]? = some n)
    (hagrees : Agrees params continuation code (references code output) inputs p env σ)
    (d : Datum α) :
    Denotes params (references code output) inputs σ
      (n.argumentEnv (references code output) p env d)
      (Operand.gatesAll (Operand.collapseAll n.args))
      (Operand.inputsAll (Operand.collapseAll n.args)) := by
  have hwf := (h.laidOut p n hn).wellFormed
  refine ⟨?_, ?_⟩
  · intro i hi
    have hi : i ∈ n.gates := by
      rw [Node.gates, ← Operand.gatesAll_eq_flatMap]
      exact Operand.mem_gatesAll_collapseAll.mp hi
    have hused : i ∈ references code output := by
      refine List.mem_append_left _ (List.mem_flatMap.mpr ⟨n, ?_, hi⟩)
      exact List.mem_of_getElem? hn
    obtain ⟨hip, m, hm, hresult⟩ := hwf.gates i hi
    refine ⟨hused, ?_⟩
    -- An earlier result was bound before, and the node's own name is another one.
    have hbefore := hagrees.results i hip hused m hm hresult
    unfold Node.argumentEnv
    cases n.op with
    | gate _ => exact (Env.bind?_of_ne fun x hx => binder?_ne hx (by omega)).trans hbefore
    | call _ => exact hbefore
  · intro j hj a ha
    have hvisible := h.uncaptured.nodes p n hn j (Operand.mem_inputsAll_collapseAll.mp hj)
    unfold boundAround at hvisible
    unfold Node.argumentEnv
    cases hop : n.op with
    | gate _ =>
      simp only [hop] at hvisible
      -- What is visible under the node's own name is visible without it.
      have hbefore := hagrees.inputs j (hvisible.mono fun x hx => List.mem_append_left _ hx) a ha
      refine (Env.bind?_of_ne ?_).trans hbefore
      rintro x hx rfl
      exact hvisible.bound a ha (List.mem_append_right _ (by simpa using hx))
    | call _ =>
      simp only [hop] at hvisible
      exact hagrees.inputs j hvisible a ha

/-- On the last line the names in the output stand for their values. -/
theorem Agrees.denotes_output {op : Operand}
    (h : Readable globals calls params continuation code (some op))
    (hscoped : op.Scoped params.length code)
    (hagrees : Agrees params continuation code (references code (some op)) inputs code.length
      env σ) :
    Denotes params (references code (some op)) inputs σ env op.collapse.gates
      op.collapse.inputs := by
  refine ⟨?_, ?_⟩
  · intro i hi
    have hi : i ∈ op.gates := Operand.mem_gates_collapse.mp hi
    have hused : i ∈ references code (some op) := List.mem_append_right _ hi
    obtain ⟨n, hn, hresult⟩ := hscoped.gates i hi
    have hlt : i < code.length := (List.getElem?_eq_some_iff.mp hn).1
    exact ⟨hused, hagrees.results i hlt hused n hn hresult⟩
  · intro j hj a ha
    refine hagrees.inputs j ?_ a ha
    rw [List.take_length]
    exact h.uncaptured.output op rfl j (Operand.mem_inputs_collapse.mp hj)

/-- The lines of the node at position `p` ask for a value that satisfies it on the assignment so
    far. -/
theorem Agrees.read_node (h : Readable globals calls params continuation code output)
    (hinputs : Datum.HaveShapes params inputs) {n : Node} (hn : code[p]? = some n)
    (hagrees : Agrees params continuation code (references code output) inputs p env σ)
    {ts : List Term}
    (hts : terms params (references code output) (Operand.collapseAll n.args) = .ok ts)
    {last : Env α → Prop} :
    Line.Read I globals last (opLines n.op (gateName? (references code output) p) ts) env ↔
      ∃ d, (∃ vs, Operand.evalAll I inputs σ n.args = some vs ∧ n.op.Holds I calls vs d) ∧
        last (env.bind? (binder? (references code output) p n) d) := by
  have hmem : n ∈ code := List.mem_of_getElem? hn
  have hlen : ts.length = n.args.length := by
    rw [length_terms hts, Operand.collapseAll_eq_map, List.length_map]
  apply read_opLines (h.binary n hmem) hlen (h.resolves n hmem)
  intro d
  rw [evalAll_terms hts (hagrees.denotes h hn d)]
  exact Node.evalAll_collapse (h.laidOut p n hn) hinputs hagrees.fitting

/-- The lines of the nodes from position `p` on read as: the assignment so far extends to one that
    satisfies these nodes. -/
theorem read_codeLines (h : Readable globals calls params continuation code output)
    (hinputs : Datum.HaveShapes params inputs) {last : Env α → Prop} {S : (Nat → Datum α) → Prop}
    (hlast : ∀ env σ, Agrees params continuation code (references code output) inputs code.length
      env σ → (last env ↔ S σ)) {rest : Trace} (hrest : code.drop p = rest) (hp : p ≤ code.length)
    {lines : List Line} (hlines : codeLines params (references code output) p rest = .ok lines)
    (hagrees : Agrees params continuation code (references code output) inputs p env σ) :
    Line.Read I globals last lines env ↔
      ∃ τ : Nat → Datum α, (∀ i, i < p → τ i = σ i) ∧
        (∀ (q : Nat) (n : Node), p ≤ q → code[q]? = some n → n.Holds I inputs τ calls q) ∧ S τ := by
  induction rest generalizing p lines env σ with
  | nil =>
    obtain rfl : [] = lines := Except.ok.inj hlines
    have hlen : code.length ≤ p := List.drop_eq_nil_iff.mp hrest
    obtain rfl : p = code.length := by omega
    constructor
    · intro hread
      refine ⟨σ, fun _ _ => rfl, ?_, (hlast env σ hagrees).mp hread⟩
      intro q n hq hn
      have hlt := (List.getElem?_eq_some_iff.mp hn).1
      omega
    · rintro ⟨τ, hτ, -, hS⟩
      exact (hlast env τ (hagrees.congr hτ)).mpr hS
  | cons n rest ih =>
    have hn : code[p]? = some n := by
      rw [← List.head?_drop, hrest]
      rfl
    have hlt : p < code.length := (List.getElem?_eq_some_iff.mp hn).1
    have htail : code.drop (p + 1) = rest := by rw [← List.tail_drop, hrest]; rfl
    have hlaid := h.laidOut p n hn
    have hresolves := h.resolves n (List.mem_of_getElem? hn)
    have hgates : ∀ i ∈ Operand.gatesAll n.args, i < p := by
      intro i hi
      rw [Operand.gatesAll_eq_flatMap] at hi
      exact (hlaid.wellFormed.gates i hi).1
    obtain ⟨ts, lines', hts, hlines', rfl⟩ := codeLines_cons_eq_ok hlines
    rw [Line.read_append, hagrees.read_node h hinputs hn hts]
    constructor
    · intro hread
      obtain ⟨d, ⟨vs, hvs, hd⟩, hread⟩ := hread
      -- The assignment goes on with the value that the node's line asks for.
      let σ' : Nat → Datum α := fun i => if i = p then d else σ i
      have hσ' : ∀ i, i < p → σ' i = σ i := fun i hi => if_neg (by omega)
      have hp' : σ' p = d := if_pos rfl
      have hnext := (hagrees.congr hσ').next hn fun l hl => by
        rw [hp']
        exact Node.fits_of_holds hlaid hresolves hvs hd hl
      rw [hp'] at hnext
      obtain ⟨τ, hτ, hholds, hS⟩ := (ih htail hlt hlines' hnext).mp hread
      refine ⟨τ, fun i hi => (hτ i (by omega)).trans (hσ' i hi), ?_, hS⟩
      intro q m hq hm
      rcases Nat.eq_or_lt_of_le hq with rfl | hq
      · obtain rfl : n = m := by simpa [hn] using hm
        refine ⟨vs, ?_, ?_⟩
        · rw [← hvs]
          exact Operand.evalAll_congr fun i hi =>
            (hτ i (by have := hgates i hi; omega)).trans (hσ' i (hgates i hi))
        · rw [hτ p (by omega), hp']
          exact hd
      · exact hholds q m hq hm
    · intro hsatisfied
      obtain ⟨τ, hτ, hholds, hS⟩ := hsatisfied
      -- The name of the node stands for what the assignment says.
      obtain ⟨vs, hvs, hd⟩ := hholds p n (Nat.le_refl p) hn
      have hvsσ : Operand.evalAll I inputs σ n.args = some vs := by
        rw [← hvs]
        exact Operand.evalAll_congr fun i hi => (hτ i (hgates i hi)).symm
      have hnext := (hagrees.congr hτ).next hn fun l hl =>
        Node.fits_of_holds hlaid hresolves hvs hd hl
      refine ⟨τ p, ⟨vs, hvsσ, hd⟩, (ih htail hlt hlines' hnext).mpr ?_⟩
      exact ⟨τ, fun _ _ => rfl, fun q m hq hm => hholds q m (by omega) hm, hS⟩

end Trace

/-! ### Definitions -/

namespace Definition

/-- A trace can be rendered if its arguments have layouts: no position is out of range. -/
theorem ofTrace_isOk {params : List Argument} (continuation : Option Shape) {code : Trace}
    {output : Option Operand} (hcode : Trace.LaidOut params code)
    (houtput : ∀ op ∈ output, (op.layout? params code).isSome) (name : String) :
    ∃ d, ofTrace name params continuation code output = .ok d := by
  have hnodes : ∀ n ∈ code, ∃ p, n.WellFormed params.length code p := by
    intro n hn
    obtain ⟨p, hp⟩ := List.mem_iff_getElem?.mp hn
    exact ⟨p, (hcode p n hp).wellFormed⟩
  have hscoped : ∀ op ∈ output, op.Scoped params.length code := by
    intro op hop
    obtain ⟨l, hl⟩ := Option.isSome_iff_exists.mp (houtput op hop)
    exact Operand.scoped_of_layout? hl
  -- Nodes are referred to by nodes and by the output, both of which stay within the trace.
  have hreferences : ∀ i ∈ references code output, i < code.length := by
    intro i hi
    rcases List.mem_append.mp hi with hi | hi
    · obtain ⟨n, hn, hi⟩ := List.mem_flatMap.mp hi
      obtain ⟨p, hwf⟩ := hnodes n hn
      obtain ⟨-, m, hm, -⟩ := hwf.gates i hi
      exact (List.getElem?_eq_some_iff.mp hm).1
    · cases output with
      | none => cases hi
      | some op =>
        obtain ⟨m, hm, -⟩ := (hscoped op rfl).gates i hi
        exact (List.getElem?_eq_some_iff.mp hm).1
  have hinputs : ∀ j ∈ inputReferences code output, j < params.length := by
    intro j hj
    rcases List.mem_append.mp hj with hj | hj
    · obtain ⟨n, hn, hj⟩ := List.mem_flatMap.mp hj
      obtain ⟨p, hwf⟩ := hnodes n hn
      exact hwf.inputs j hj
    · cases output with
      | none => cases hj
      | some op => exact (hscoped op rfl).inputs j hj
  exact (panicsExactly_ofTrace name params continuation code output).ok_iff.mpr
    ⟨hreferences, hinputs⟩

/-- The parts of a rendered trace. -/
theorem ofTrace_eq_ok {name : String} {params : List Argument} {continuation : Option Shape}
    {code : Trace} {output : Option Operand} {d : Definition}
    (h : ofTrace name params continuation code output = .ok d) :
    d.name = name ∧ d.params = params ∧ d.continuation = continuation ∧
      codeLines params (references code output) 0 code = .ok d.lines ∧
        match output with
        | none => d.result = none
        | some op =>
          ∃ t, term params (references code output) op.collapse = .ok t ∧ d.result = some t := by
  -- The rendering went through all its parts, so each of them succeeded.
  simp only [ofTrace, bind, Except.bind, pure, Except.pure] at h
  split at h
  · contradiction
  · split at h
    · contradiction
    · next lines hlines =>
      cases output with
      | none =>
        obtain rfl := Except.ok.inj h
        exact ⟨rfl, rfl, rfl, hlines, rfl⟩
      | some op =>
        simp only at h
        cases ht : term params (references code (some op)) op.collapse with
        | error e => simp [ht] at h
        | ok t =>
          simp only [ht] at h
          obtain rfl := Except.ok.inj h
          exact ⟨rfl, rfl, rfl, hlines, t, ht, rfl⟩

end Definition

end GateTrace
