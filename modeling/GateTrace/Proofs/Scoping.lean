import GateTrace.Proofs.Naming
import GateTrace.Proofs.Reading

/-! # Names in scope

    Which binder a name of a definition resolves to. The key ideas:

    - The names of results are told apart by their positions, so a result is never shadowed by
      another one.
    - The name of a parameter comes from the record, and may also be the name of a result. An input
      is visible at a line if no binder around the line's arguments takes its name.
    - Where every input is visible that is referred to, terms have the values of their operands.
-/

namespace GateTrace

namespace Definition

/-! ### Names of results -/

/-- The name of a result that is referred to. -/
def resultName (i : Nat) : String := "gate_" ++ i.repr

theorem resultName_inj {i j : Nat} (h : resultName i = resultName j) : i = j :=
  repr_cancel ((String.append_right_inj "gate_").mp h)

theorem resultName_ne_ignored {i : Nat} : resultName i ≠ ignored := by
  intro h
  have hlist : (resultName i).toList = ignored.toList := by rw [h]
  simp [resultName, ignored] at hlist

theorem resultName_ne_underscore {i : Nat} : resultName i ≠ "_" := by
  intro h
  have hlist : (resultName i).toList = "_".toList := by rw [h]
  simp [resultName] at hlist

/-- Only names that start like that of a result are the name of one. -/
theorem ne_resultName {x : String} (h : ¬ "gate_".toList <+: x.toList) (i : Nat) :
    x ≠ resultName i := by
  rintro rfl
  apply h
  rw [resultName, String.toList_append]
  exact List.prefix_append _ _

/-- The name that the line of the node at position `p` binds, if it binds one. -/
def binder? (used : List Nat) (p : Nat) (n : Node) : Option String :=
  match n.op with
  | .gate kind =>
    if kind.style = .assertion then none else some ((gateName? used p).getD ignored)
  | .call callee => callee.output.map fun _ => (gateName? used p).getD "_"

/-- The names that the lines of the nodes from position `i` on bind. -/
def binders (used : List Nat) : Nat → Trace → List String
  | _, [] => []
  | i, n :: code => (binder? used i n).toList ++ binders used (i + 1) code

/-- The name a node binds is its own, or one that no result has. -/
theorem binder?_ne {used : List Nat} {p i : Nat} {n : Node} {x : String}
    (hx : binder? used p n = some x) (hi : i ≠ p) : resultName i ≠ x := by
  have hname : x = (gateName? used p).getD ignored ∨ x = (gateName? used p).getD "_" := by
    unfold binder? at hx
    split at hx
    · split at hx
      · contradiction
      · exact .inl (Option.some.inj hx).symm
    · obtain ⟨_, -, rfl⟩ := Option.map_eq_some_iff.mp hx
      exact .inr rfl
  -- Which of the two it is depends on whether anything refers to the node.
  have hgate : ∀ other, resultName i ≠ other → resultName i ≠ (gateName? used p).getD other := by
    intro other hother
    unfold gateName?
    split
    · exact fun h => hi (resultName_inj h)
    · exact hother
  rcases hname with rfl | rfl
  · exact hgate _ resultName_ne_ignored
  · exact hgate _ resultName_ne_underscore

theorem binder?_of_mem {used : List Nat} {p : Nat} {n : Node} (hp : p ∈ used)
    (hn : n.op.hasResult = true) : binder? used p n = some (resultName p) := by
  unfold binder? gateName?
  rw [if_pos hp]
  unfold Op.hasResult at hn
  split
  · next heq => simpa [heq, resultName] using hn
  · next heq =>
    rw [heq] at hn
    obtain ⟨out, hout⟩ := Option.isSome_iff_exists.mp hn
    rw [hout]
    rfl

theorem binders_append {used : List Nat} {i : Nat} {xs ys : Trace} :
    binders used i (xs ++ ys) = binders used i xs ++ binders used (i + xs.length) ys := by
  induction xs generalizing i with
  | nil => simp [binders]
  | cons x xs ih => simp [binders, ih, Nat.add_assoc, Nat.add_comm 1]

/-- The names bound around the arguments of the node at position `p`: those of the lines before
    it, and its own if it is a primitive operation, whose binder covers its arguments. -/
def boundAround (used : List Nat) (code : Trace) (p : Nat) (n : Node) : List String :=
  match n.op with
  | .gate _ => binders used 0 (code.take p) ++ (binder? used p n).toList
  | .call _ => binders used 0 (code.take p)

/-! ### Inputs in scope -/

/-- Whether the name of input `j` stands for it where the names `bound` were bound on top of the
    parameters and the continuation. -/
structure Visible (params : List Argument) (continuation : Option Shape) (bound : List String)
    (j : Nat) : Prop where
  bound : ∀ a ∈ params[j]?, a.name ∉ bound
  /-- No later parameter takes the name. -/
  later : ∀ a ∈ params[j]?, ∀ i, j < i → ∀ b ∈ params[i]?, b.name ≠ a.name
  continuation : ∀ a ∈ params[j]?, continuation.isSome → a.name ≠ continuationName

/-- Whether every input that a definition refers to is visible where it does so. -/
structure Uncaptured (params : List Argument) (continuation : Option Shape) (code : Trace)
    (output : Option Operand) : Prop where
  nodes : ∀ (p : Nat) (n : Node), code[p]? = some n → ∀ j ∈ Operand.inputsAll n.args,
    Visible params continuation (boundAround (references code output) code p n) j
  output : ∀ op ∈ output, ∀ j ∈ op.inputs,
    Visible params continuation (binders (references code output) 0 code) j

/-- What it takes for the name of an input that there is to stand for it. -/
theorem visible_iff {params : List Argument} {continuation : Option Shape} {bound : List String}
    {j : Nat} {a : Argument} (ha : params[j]? = some a) :
    Visible params continuation bound j ↔
      a.name ∉ bound ∧ (∀ i, j < i → ∀ b ∈ params[i]?, b.name ≠ a.name) ∧
        (continuation.isSome → a.name ≠ continuationName) := by
  constructor
  · intro h
    exact ⟨h.bound a ha, h.later a ha, h.continuation a ha⟩
  · intro h
    obtain ⟨hbound, hlater, hcontinuation⟩ := h
    have heq : ∀ b ∈ params[j]?, b = a := fun b hb => Option.some.inj (hb.symm.trans ha)
    exact ⟨fun b hb => heq b hb ▸ hbound, fun b hb => heq b hb ▸ hlater,
      fun b hb => heq b hb ▸ hcontinuation⟩

theorem Visible.mono {params : List Argument} {continuation : Option Shape}
    {bound bound' : List String} {j : Nat} (h : Visible params continuation bound j)
    (hsub : ∀ x ∈ bound', x ∈ bound) : Visible params continuation bound' j :=
  ⟨fun a ha hmem => h.bound a ha (hsub _ hmem), h.later, h.continuation⟩

/-- Only results, and the places of results that nothing refers to, get names. -/
theorem binder?_cases {used : List Nat} {p : Nat} {n : Node} {x : String}
    (hx : binder? used p n = some x) : (∃ i, x = resultName i) ∨ x = ignored ∨ x = "_" := by
  -- A name for a missing one is put in, or it is the node's own.
  have hgate : ∀ other, (gateName? used p).getD other = resultName p ∨
      (gateName? used p).getD other = other := by
    intro other
    unfold gateName?
    split
    · exact .inl rfl
    · exact .inr rfl
  unfold binder? at hx
  split at hx
  · split at hx
    · contradiction
    · obtain rfl := Option.some.inj hx
      exact (hgate ignored).imp (fun h => ⟨p, h⟩) .inl
  · obtain ⟨_, -, rfl⟩ := Option.map_eq_some_iff.mp hx
    exact (hgate "_").imp (fun h => ⟨p, h⟩) .inr

theorem binders_cases {used : List Nat} {i : Nat} {code : Trace} {x : String}
    (hx : x ∈ binders used i code) : (∃ i, x = resultName i) ∨ x = ignored ∨ x = "_" := by
  induction code generalizing i with
  | nil => cases hx
  | cons n code ih =>
    rcases List.mem_append.mp hx with hx | hx
    · exact binder?_cases (Option.mem_toList.mp hx)
    · exact ih hx

theorem position_unique {params : List Argument} (hnodup : (params.map Argument.name).Nodup)
    {i j : Nat} {a b : Argument} (ha : params[i]? = some a) (hb : params[j]? = some b)
    (hname : a.name = b.name) : i = j := by
  have hi : i < (params.map Argument.name).length := by
    simpa using (List.getElem?_eq_some_iff.mp ha).1
  refine (List.getElem?_inj hi hnodup).mp ?_
  rw [List.getElem?_map, List.getElem?_map, ha, hb]
  exact congrArg some hname

/-- Parameters with different names, none of which is a name that a definition makes up. -/
structure Ordinary (params : List Argument) : Prop where
  nodup : (params.map Argument.name).Nodup
  result : ∀ a ∈ params, ∀ i, a.name ≠ resultName i
  other : ∀ a ∈ params, a.name ≠ ignored ∧ a.name ≠ "_" ∧ a.name ≠ continuationName

/-- Ordinary parameters are never captured, whatever the trace. -/
theorem Ordinary.uncaptured {params : List Argument} (h : Ordinary params)
    (continuation : Option Shape) (code : Trace) (output : Option Operand) :
    Uncaptured params continuation code output := by
  -- All names that are bound in a definition are made up, and no parameter has such a name.
  have hvisible : ∀ bound j,
      (∀ x ∈ bound, (∃ i, x = resultName i) ∨ x = ignored ∨ x = "_") →
        Visible params continuation bound j := by
    intro bound j hbound
    refine ⟨?_, ?_, ?_⟩
    · intro a ha hmem
      have hparam : a ∈ params := List.mem_of_getElem? ha
      rcases hbound a.name hmem with ⟨i, hi⟩ | hi | hi
      · exact h.result a hparam i hi
      · exact (h.other a hparam).1 hi
      · exact (h.other a hparam).2.1 hi
    · intro a ha i hji b hb hname
      have heq : i = j := position_unique h.nodup hb ha hname
      omega
    · intro a ha _
      exact (h.other a (List.mem_of_getElem? ha)).2.2
  refine ⟨fun p n _ j _ => hvisible _ j fun x hx => ?_, fun op _ j _ =>
    hvisible _ j fun x hx => binders_cases hx⟩
  -- On the line of a node its own name may be bound as well.
  unfold boundAround at hx
  split at hx
  · rcases List.mem_append.mp hx with hx | hx
    · exact binders_cases hx
    · exact binder?_cases (Option.mem_toList.mp hx)
  · exact binders_cases hx

end Definition

variable {α : Type}

theorem Env.ofParams_of_ne {env : Env α} {args : List Argument} {ds : List (Datum α)} {x : String}
    (hx : ∀ a ∈ args, a.name ≠ x) : env.ofParams args ds x = env x := by
  induction args generalizing env ds with
  | nil => rfl
  | cons a args ih =>
    cases ds with
    | nil => rfl
    | cons d ds =>
      have hrest := @ih (env.bind a.name d) ds fun b hb => hx b (by simp [hb])
      rw [ofParams, hrest, Env.bind_of_ne]
      exact (hx a (by simp)).symm

/-- A parameter that no later one shadows stands for its argument. -/
theorem Env.ofParams_eq {env : Env α} {args : List Argument} {ds : List (Datum α)} {j : Nat}
    {a : Argument} (hlen : args.length = ds.length) (ha : args[j]? = some a)
    (hlater : ∀ i, j < i → ∀ b ∈ args[i]?, b.name ≠ a.name) :
    env.ofParams args ds a.name = ds[j]? := by
  induction args generalizing env ds j with
  | nil => simp at ha
  | cons b args ih =>
    cases ds with
    | nil => simp at hlen
    | cons d ds =>
      cases j with
      | zero =>
        obtain rfl : b = a := by simpa using ha
        have hothers : ∀ c ∈ args, c.name ≠ b.name := by
          intro c hc
          obtain ⟨i, hi⟩ := List.mem_iff_getElem?.mp hc
          exact hlater (i + 1) (by omega) c (by simpa using hi)
        -- The parameters after this one leave its name alone.
        rw [ofParams, Env.ofParams_of_ne hothers]
        simp
      | succ j =>
        rw [ofParams]
        have hlater' : ∀ i, j < i → ∀ c ∈ args[i]?, c.name ≠ a.name := by
          intro i hi c hc
          exact hlater (i + 1) (by omega) c (by simpa using hc)
        have hrest := @ih (env.bind b.name d) ds j (by simpa using hlen) (by simpa using ha) hlater'
        simpa using hrest

namespace Definition

/-! ### Values of terms -/

variable {I : Interpretation α} {params : List Argument} {used : List Nat} {env : Env α}
  {inputs : List (Datum α)} {σ : Nat → Datum α}

/-- Whether the names of an operand's inputs and results stand for their values. -/
structure Denotes (params : List Argument) (used : List Nat) (inputs : List (Datum α))
    (σ : Nat → Datum α) (env : Env α) (gates inputNumbers : List Nat) : Prop where
  gates : ∀ i ∈ gates, i ∈ used ∧ env (resultName i) = some (σ i)
  inputs : ∀ j ∈ inputNumbers, ∀ a ∈ params[j]?, env a.name = inputs[j]?

mutual

/-- A term has the value of its operand if the names in it do. -/
theorem eval_term : ∀ {op : Operand} {t : Term}, term params used op = .ok t →
    Denotes params used inputs σ env op.gates op.inputs →
      t.eval I env = op.eval I inputs σ
  | .input j, t, ht, h => by
    obtain ⟨a, ha, rfl⟩ := term_input_eq_ok ht
    exact h.inputs j (by simp [Operand.inputs]) a ha
  | .gate i, t, ht, h => by
    obtain rfl := Except.ok.inj ht
    -- The name of the node's result is not hidden, so it stands for the node's value.
    obtain ⟨hmem, henv⟩ := h.gates i (by simp [Operand.gates])
    simpa [gateName?, hmem, Term.eval, Operand.eval, resultName] using henv
  | .const v, t, ht, _ | .nat v, t, ht, _ => by
    obtain rfl := Except.ok.inj ht
    rfl
  | .proj base index size, t, ht, h => by
    obtain ⟨t', ht', rfl⟩ := term_proj_eq_ok ht
    have hbase : t'.eval I env = base.eval I inputs σ := eval_term ht' ⟨h.gates, h.inputs⟩
    simp only [Term.eval, Operand.eval, hbase]
  | .array items, t, ht, h => by
    obtain ⟨ts, hts, rfl⟩ := term_array_eq_ok ht
    have hitems : Term.evalAll I env ts = Operand.evalAll I inputs σ items :=
      evalAll_terms hts ⟨h.gates, h.inputs⟩
    simp only [Term.eval, Operand.eval, hitems]

theorem evalAll_terms : ∀ {xs : List Operand} {ts : List Term}, terms params used xs = .ok ts →
    Denotes params used inputs σ env (Operand.gatesAll xs) (Operand.inputsAll xs) →
      Term.evalAll I env ts = Operand.evalAll I inputs σ xs
  | [], ts, hts, _ => by
    obtain rfl := Except.ok.inj hts
    rfl
  | x :: xs, ts, hts, h => by
    obtain ⟨t, ts', ht, hts', rfl⟩ := terms_cons_eq_ok hts
    have hhead : t.eval I env = x.eval I inputs σ := eval_term ht
      ⟨fun i hi => h.gates i (List.mem_append_left _ hi),
        fun j hj => h.inputs j (List.mem_append_left _ hj)⟩
    have htail : Term.evalAll I env ts' = Operand.evalAll I inputs σ xs := evalAll_terms hts'
      ⟨fun i hi => h.gates i (List.mem_append_right _ hi),
        fun j hj => h.inputs j (List.mem_append_right _ hj)⟩
    simp only [Term.evalAll, Operand.evalAll, hhead, htail]

end

end Definition

end GateTrace
