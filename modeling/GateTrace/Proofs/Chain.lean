import GateTrace.Proofs.Reading

/-! # Chains of one operation

    How the lines of an operation on more than two operands read. The key ideas:

    - Every line of the chain is an equation for the node's name `x`, and the binder of `x` covers
      its own equation. So a step is solved by a value that is a fixed point of the operation, and
      never sees the result of the step before.
    - A chain therefore asks that every step has a solution, and goes on with one of the last.
    - This is the left fold of the operands exactly if all steps have solutions and the fold is the
      only solution of the last.
-/

namespace GateTrace

variable {α : Type}

def Interpretation.fold (I : Interpretation α) (kind : GateKind) (v : Datum α)
    (vs : List (Datum α)) : Datum α :=
  vs.foldl (fun acc w => I.function kind [acc, w]) v

namespace Line

/-! ### Steps -/

/-- Whether `x` may stand for `d` in `∃x, x = gate args ∧ …`. -/
def Solves (I : Interpretation α) (gate : GateKind) (x : String) (env : Env α) (args : List Term)
    (d : Datum α) : Prop :=
  ∃ vs, Term.evalAll I (env.bind x d) args = some vs ∧ d = I.function gate vs

/-- A step is solved the same way whatever `x` stood for before it. -/
theorem solves_bind {I : Interpretation α} {gate : GateKind} {x : String} {env : Env α}
    {args : List Term} {d e : Datum α} :
    Solves I gate x (env.bind x e) args d ↔ Solves I gate x env args d := by
  unfold Solves
  rw [Env.bind_bind]

/-- Equations for one name, one after the other, ask that each has a solution, and the last one's
    is what the name stands for afterwards. -/
theorem read_equations {I : Interpretation α} {globals : Globals α} {last : Env α → Prop}
    {gate : GateKind} {x : String} (steps : List (List Term)) (final : List Term) (env : Env α) :
    Line.Read I globals last ((steps ++ [final]).map (equation x gate)) env ↔
      (∀ args ∈ steps, ∃ d, Solves I gate x env args d) ∧
        ∃ d, Solves I gate x env final d ∧ last (env.bind x d) := by
  induction steps generalizing env with
  | nil =>
    constructor
    · rintro ⟨d, vs, hvs, hd, hlast⟩
      exact ⟨by simp, d, ⟨vs, hvs, hd⟩, hlast⟩
    · rintro ⟨-, d, ⟨vs, hvs, hd⟩, hlast⟩
      exact ⟨d, vs, hvs, hd, hlast⟩
  | cons args steps ih =>
    constructor
    · intro h
      obtain ⟨d, vs, hvs, hd, hrest⟩ := h
      -- The rest is read where `x` stands for `d`, which none of its equations can see.
      obtain ⟨hsteps, e, he, hlast⟩ := (ih (env.bind x d)).mp hrest
      refine ⟨?_, e, solves_bind.mp he, by simpa using hlast⟩
      intro args' hargs'
      rcases List.mem_cons.mp hargs' with rfl | hmem
      · exact ⟨d, vs, hvs, hd⟩
      · obtain ⟨d', hd'⟩ := hsteps args' hmem
        exact ⟨d', solves_bind.mp hd'⟩
    · intro h
      obtain ⟨hsteps, e, he, hlast⟩ := h
      obtain ⟨d, vs, hvs, hd⟩ := hsteps args (by simp)
      refine ⟨d, vs, hvs, hd, (ih (env.bind x d)).mpr ⟨?_, e, solves_bind.mpr he, by simpa⟩⟩
      intro args' hargs'
      obtain ⟨d', hd'⟩ := hsteps args' (by simp [hargs'])
      exact ⟨d', solves_bind.mpr hd'⟩

/-- What it takes for equations for `x` to come down to one value `v` of `x`: all have solutions,
    and `v` is the only one of the last. -/
structure Determines (I : Interpretation α) (gate : GateKind) (x : String) (env : Env α)
    (steps : List (List Term)) (final : List Term) (v : Datum α) : Prop where
  steps : ∀ args ∈ steps, ∃ d, Solves I gate x env args d
  final : ∀ d, Solves I gate x env final d ↔ d = v

/-- Equations for `x` read as "`x` stands for `v`", whatever follows them, exactly if they determine
    that value. -/
theorem read_equations_iff_determines {I : Interpretation α} {globals : Globals α}
    {gate : GateKind} {x : String} {steps : List (List Term)} {final : List Term} {env : Env α}
    {v : Datum α} :
    (∀ last : Env α → Prop, Line.Read I globals last ((steps ++ [final]).map (equation x gate)) env ↔
        last (env.bind x v)) ↔
      Determines I gate x env steps final v := by
  constructor
  · intro h
    -- What follows may ask for any one value of `x`, and so tells the solutions apart.
    obtain ⟨hsteps, -⟩ := (read_equations steps final env).mp ((h fun _ => True).mpr trivial)
    refine ⟨hsteps, ?_⟩
    intro d
    have hd : Line.Read I globals (fun env' => env' x = some d)
        ((steps ++ [final]).map (equation x gate)) env ↔ v = d := by
      rw [h]
      simp
    rw [read_equations] at hd
    constructor
    · intro hsolves
      exact (hd.mp ⟨hsteps, d, hsolves, by simp⟩).symm
    · rintro rfl
      obtain ⟨-, e, he, hed⟩ := hd.mpr rfl
      obtain rfl : e = d := by simpa using hed
      exact he
  · rintro ⟨hsteps, hfinal⟩ last
    rw [read_equations]
    constructor
    · rintro ⟨-, d, hd, hlast⟩
      obtain rfl := (hfinal d).mp hd
      exact hlast
    · intro hlast
      exact ⟨hsteps, v, (hfinal v).mpr rfl, hlast⟩

/-- A step of a chain after the first is solved by the fixed points of the operation with the step's
    operand. -/
theorem solves_step_iff {I : Interpretation α} {gate : GateKind} {x : String} {env : Env α}
    {t : Term} (hfresh : x ∉ t.vars) {w : Datum α} (hw : t.eval I env = some w) {d : Datum α} :
    Solves I gate x env [.var x, t] d ↔ d = I.function gate [d, w] := by
  have ht : t.eval I (env.bind x d) = some w := by
    rw [← hw]
    apply Term.eval_congr
    intro y hy
    apply Env.bind_of_ne
    rintro rfl
    exact hfresh hy
  have hvs : Term.evalAll I (env.bind x d) [.var x, t] = some [d, w] := by
    simp [Term.evalAll, Term.eval, ht]
  constructor
  · rintro ⟨vs, hvs', hd⟩
    obtain rfl : [d, w] = vs := by rwa [hvs, Option.some.injEq] at hvs'
    exact hd
  · intro hd
    exact ⟨[d, w], hvs, hd⟩

theorem evalAll_concat_eq_some_iff {I : Interpretation α} {env : Env α} {ts : List Term} {t : Term}
    {ds : List (Datum α)} :
    Term.evalAll I env (ts ++ [t]) = some ds ↔
      ∃ es e, Term.evalAll I env ts = some es ∧ t.eval I env = some e ∧ ds = es ++ [e] := by
  induction ts generalizing ds with
  | nil =>
    rw [List.nil_append, Term.evalAll_cons_eq_some_iff]
    simp [Term.evalAll]
  | cons u ts ih =>
    rw [List.cons_append, Term.evalAll_cons_eq_some_iff]
    constructor
    -- The first term is evaluated apart, and the last value stays the last.
    · rintro ⟨d, rest, hu, hrest, rfl⟩
      obtain ⟨es, e, hts, ht, rfl⟩ := ih.mp hrest
      exact ⟨d :: es, e, Term.evalAll_cons_eq_some_iff.mpr ⟨d, es, hu, hts, rfl⟩, ht, rfl⟩
    · rintro ⟨ds, e, hds, ht, rfl⟩
      obtain ⟨d, es, hu, hts, rfl⟩ := Term.evalAll_cons_eq_some_iff.mp hds
      exact ⟨d, es ++ [e], hu, ih.mpr ⟨es, e, hts, ht, rfl⟩, rfl⟩

/-- Where the name of the chain is not among its operands, every step after the first has a solution
    exactly if the operation has a fixed point with the step's operand. -/
theorem forall_solves_iff {I : Interpretation α} {gate : GateKind} {x : String} {env : Env α}
    {ts : List Term} (hfresh : x ∉ Term.varsAll ts) {ws : List (Datum α)}
    (hts : Term.evalAll I env ts = some ws) :
    (∀ args ∈ ts.map fun t => [.var x, t], ∃ d, Solves I gate x env args d) ↔
      ∀ w ∈ ws, ∃ d, d = I.function gate [d, w] := by
  induction ts generalizing ws with
  | nil =>
    obtain rfl : [] = ws := by simpa [Term.evalAll] using hts
    simp
  | cons t ts ih =>
    obtain ⟨e, es, he, hes, rfl⟩ := Term.evalAll_cons_eq_some_iff.mp hts
    simp only [Term.varsAll, List.mem_append, not_or] at hfresh
    simp only [List.map_cons, List.forall_mem_cons, ih hfresh.2 hes, solves_step_iff hfresh.1 he]

/-- The first equation of a chain does not mention the name on its right, and so always has a
    solution. -/
theorem exists_solves_first {I : Interpretation α} {gate : GateKind} {x : String} {env : Env α}
    {args : List Term} (hfresh : x ∉ Term.varsAll args) {vs : List (Datum α)}
    (hargs : Term.evalAll I env args = some vs) : ∃ d, Solves I gate x env args d := by
  refine ⟨I.function gate vs, vs, ?_, rfl⟩
  rw [← hargs]
  apply Term.evalAll_congr
  intro y hy
  apply Env.bind_of_ne
  rintro rfl
  exact hfresh hy

/-- Where the name of the chain is not among its operands, the chain determines a value exactly if
    the operation has a fixed point with every operand from the third on, and with the last one that
    value and no other. -/
theorem determines_iff_of_fresh {I : Interpretation α} {gate : GateKind} {x : String} {env : Env α}
    {a b z : Term} {mid : List Term} (hfresh : x ∉ Term.varsAll (a :: b :: z :: mid))
    {va vb vz : Datum α} {ws : List (Datum α)}
    (hvalues : Term.evalAll I env (a :: b :: (mid ++ [z])) = some (va :: vb :: (ws ++ [vz])))
    {v : Datum α} :
    Determines I gate x env ([a, b] :: mid.map fun t => [.var x, t]) [.var x, z] v ↔
      (∀ w ∈ ws, ∃ d, d = I.function gate [d, w]) ∧
        ∀ d, d = I.function gate [d, vz] ↔ d = v := by
  obtain ⟨da, rest, ha, hrest, heq⟩ := Term.evalAll_cons_eq_some_iff.mp hvalues
  obtain ⟨rfl, rfl⟩ := List.cons.inj heq
  obtain ⟨db, rest, hb, hlast, heq⟩ := Term.evalAll_cons_eq_some_iff.mp hrest
  obtain ⟨rfl, rfl⟩ := List.cons.inj heq
  obtain ⟨es, e, hmid, hz, heq⟩ := evalAll_concat_eq_some_iff.mp hlast
  obtain ⟨rfl, hvz⟩ := List.append_inj' heq rfl
  obtain rfl : vz = e := List.singleton_inj.mp hvz
  -- Of the equations, only the first has no `x` on its right.
  have hab : Term.evalAll I env [a, b] = some [va, vb] := by simp [Term.evalAll, ha, hb]
  simp only [Term.varsAll, List.mem_append, not_or] at hfresh
  obtain ⟨hxa, hxb, hxz, hxmid⟩ := hfresh
  have hfirst : ∃ d, Solves I gate x env [a, b] d :=
    exists_solves_first (by simp [Term.varsAll, hxa, hxb]) hab
  have hsteps : (∀ args ∈ mid.map fun t => [.var x, t], ∃ d, Solves I gate x env args d) ↔
      ∀ w ∈ ws, ∃ d, d = I.function gate [d, w] := forall_solves_iff hxmid hmid
  constructor
  · rintro ⟨hall, hfinal⟩
    refine ⟨hsteps.mp fun args hargs => hall args (by simp [hargs]), fun d => ?_⟩
    rw [← hfinal d, solves_step_iff hxz hz]
  · rintro ⟨hall, hfinal⟩
    refine ⟨?_, fun d => ?_⟩
    · intro args hargs
      rcases List.mem_cons.mp hargs with rfl | hmem
      · exact hfirst
      · exact hsteps.mpr hall args hmem
    · rw [solves_step_iff hxz hz]
      exact hfinal d

end Line

/-! ### Chains in definitions -/

namespace Definition

/-- A chain is an equation for the first two operands, and then one for each further operand with
    the name itself. -/
theorem gateLines_chain {kind : GateKind} (hkind : kind.isVariadic = true) (x : String)
    (a b z : Term) (mid : List Term) :
    gateLines kind x (a :: b :: (mid ++ [z])) =
      (([a, b] :: mid.map fun t => [.var x, t]) ++ [[.var x, z]]).map (Line.equation x kind) := by
  have hstyle : kind.style = .functional := by
    cases kind <;> first | rfl | simp [GateKind.isVariadic] at hkind
  unfold gateLines
  rw [hstyle, hkind]
  cases mid <;> simp

/-- The lines of a node stand together in those of its trace. -/
theorem codeLines_getElem? {params : List Argument} {used : List Nat} {i : Nat} {code : Trace}
    {lines : List Line} (h : codeLines params used i code = .ok lines) {p : Nat} {n : Node}
    (hn : code[p]? = some n) :
    ∃ before after ts, terms params used (Operand.collapseAll n.args) = .ok ts ∧
      lines = before ++ opLines n.op (gateName? used (i + p)) ts ++ after := by
  induction code generalizing i p lines with
  | nil => simp at hn
  | cons m code ih =>
    obtain ⟨ts, rest, hts, hrest, rfl⟩ := codeLines_cons_eq_ok h
    cases p with
    | zero =>
      obtain rfl : m = n := by simpa using hn
      exact ⟨[], rest, ts, hts, by simp⟩
    | succ p =>
      obtain ⟨before, after, ts', hts', rfl⟩ := ih hrest (by simpa using hn)
      -- What stands before the node are the lines of the nodes passed over.
      refine ⟨opLines m.op (gateName? used i) ts ++ before, after, ts', hts', ?_⟩
      simp [Nat.add_assoc, Nat.add_comm 1]

/-- The lines of a variadic operation on more than two operands read as "the node's name stands for
    the left fold of the operands", whatever follows them, exactly if every step of the chain has a
    solution and the fold is the only solution of the last. Unless an operand is called like the
    node, the solutions of the steps are fixed points of the operation. -/
theorem chain_reads_as_fold_iff {params : List Argument} {used : List Nat} {code : Trace}
    {lines : List Line} (hlines : codeLines params used 0 code = .ok lines) {p : Nat}
    {kind : GateKind} {args : List Operand} (hnode : code[p]? = some ⟨.gate kind, args⟩)
    (hkind : kind.isVariadic = true) (hargs : 2 < args.length) :
    ∃ before chain after a b mid z,
      terms params used (Operand.collapseAll args) = .ok (a :: b :: (mid ++ [z])) ∧
        lines = before ++ chain ++ after ∧ chain.length = args.length - 1 ∧
          ∀ {α : Type} (I : Interpretation α) (globals : Globals α) (env : Env α) (v : Datum α)
            (vs : List (Datum α)),
            Term.evalAll I env (a :: b :: (mid ++ [z])) = some (v :: vs) →
              let x := (gateName? used p).getD ignored
              ((∀ last : Env α → Prop, Line.Read I globals last chain env ↔
                  last (env.bind x (I.fold kind v vs))) ↔
                Line.Determines I kind x env ([a, b] :: mid.map fun t => [.var x, t]) [.var x, z]
                  (I.fold kind v vs)) ∧
              (x ∉ Term.varsAll (a :: b :: z :: mid) →
                ∀ vb (ws : List (Datum α)) vz, vs = vb :: (ws ++ [vz]) →
                (Line.Determines I kind x env ([a, b] :: mid.map fun t => [.var x, t]) [.var x, z]
                    (I.fold kind v vs) ↔
                  (∀ w ∈ ws, ∃ d, d = I.function kind [d, w]) ∧
                    ∀ d, d = I.function kind [d, vz] ↔ d = I.fold kind v vs)) := by
  obtain ⟨before, after, ts, hts, rfl⟩ := codeLines_getElem? hlines hnode
  have hlen : ts.length = args.length := by
    rw [length_terms hts, Operand.collapseAll_eq_map, List.length_map]
  -- With more than two operands, there is a last one behind the first two.
  obtain ⟨a, b, mid, z, rfl⟩ : ∃ a b mid z, ts = a :: b :: (mid ++ [z]) := by
    match ts, hlen with
    | a :: b :: c :: rest, _ =>
      exact ⟨a, b, (c :: rest).dropLast, (c :: rest).getLast (by simp), by
        rw [List.dropLast_append_getLast]⟩
    | [], hlen | [_], hlen | [_, _], hlen => simp at hlen; omega
  simp only [Nat.zero_add]
  refine ⟨before, _, after, a, b, mid, z, hts, rfl, ?_, ?_⟩
  · simp only [opLines]
    rw [gateLines_chain hkind]
    simp at hlen ⊢
    omega
  · intro α I globals env v vs hvalues
    simp only [opLines]
    rw [gateLines_chain hkind]
    refine ⟨Line.read_equations_iff_determines, ?_⟩
    rintro hfresh vb ws vz rfl
    exact Line.determines_iff_of_fresh hfresh hvalues

/-- A product of three arguments, in a definition that has nothing else. Over the integers it reads
    as `2 * 3 * 0`, as `0` is the only fixed point of the product with `0`. -/
theorem chain_reads_as_fold_iff_of_product :
    let env : Env Int := ((Env.empty.bind "a" (.elem 2)).bind "b" (.elem 3)).bind "c" (.elem 0)
    codeLines [⟨"a", .scalar⟩, ⟨"b", .scalar⟩, ⟨"c", .scalar⟩] [] 0
        [⟨.gate .mul, [.input 0, .input 1, .input 2]⟩] =
      .ok [.equation ignored .mul [.var "a", .var "b"],
        .equation ignored .mul [.var ignored, .var "c"]] ∧
    (∀ last : Env Int → Prop,
      Line.Read .integers (fun _ => none) last
          [.equation ignored .mul [.var "a", .var "b"],
            .equation ignored .mul [.var ignored, .var "c"]] env ↔
        last (env.bind ignored (.elem (2 * 3 * 0)))) := by
  intro env
  have hlines : codeLines [⟨"a", .scalar⟩, ⟨"b", .scalar⟩, ⟨"c", .scalar⟩] [] 0
      [⟨.gate .mul, [.input 0, .input 1, .input 2]⟩] =
        .ok [.equation ignored .mul [.var "a", .var "b"],
          .equation ignored .mul [.var ignored, .var "c"]] := rfl
  have hnode : ([⟨.gate .mul, [.input 0, .input 1, .input 2]⟩] : Trace)[0]? =
      some ⟨.gate .mul, [.input 0, .input 1, .input 2]⟩ := rfl
  obtain ⟨before, chain, after, a, b, mid, z, hterms, hsplit, hlength, hreads⟩ :=
    chain_reads_as_fold_iff hlines hnode rfl (by decide)
  refine ⟨hlines, ?_⟩
  -- The chain has as many lines as the definition, and so is all of it.
  obtain ⟨rfl, rfl⟩ : before = [] ∧ after = [] := by
    have hcount := congrArg List.length hsplit
    simp only [List.length_cons, List.length_nil, List.length_append, hlength] at hcount
    exact ⟨List.eq_nil_of_length_eq_zero (by omega), List.eq_nil_of_length_eq_zero (by omega)⟩
  rw [List.nil_append, List.append_nil] at hsplit
  have hoperands : a :: b :: (mid ++ [z]) = [.var "a", .var "b", .var "c"] :=
    (Except.ok.inj hterms).symm
  obtain ⟨rfl, rfl, hmid⟩ : a = .var "a" ∧ b = .var "b" ∧ mid ++ [z] = [.var "c"] := by
    simpa using hoperands
  obtain ⟨rfl, hz⟩ := List.append_inj' (show mid ++ [z] = [] ++ [.var "c"] from hmid) rfl
  obtain rfl : z = .var "c" := List.singleton_inj.mp hz
  obtain ⟨hiff, hfixed⟩ :=
    hreads .integers (fun _ => none) env (.elem 2) [.elem 3, .elem 0] rfl
  rw [hsplit]
  refine hiff.mpr ((hfixed (by decide) (.elem 3) [] (.elem 0) rfl).mpr ⟨by simp, ?_⟩)
  intro d
  cases d with
  | elem n =>
    have hmul : Interpretation.integers.function .mul [.elem n, .elem 0] = .elem (n * 0) := rfl
    rw [hmul, Int.mul_zero]
    exact Iff.rfl
  | number _ | vec _ => exact Iff.rfl

/-- Over the integers the chain for `1 + 1 + 1` has no solution, as `g = g + 1` has none, while the
    fold is `3`. -/
theorem not_chain_reads_as_fold :
    ∃ chain after,
      codeLines [⟨"a", .scalar⟩, ⟨"b", .scalar⟩, ⟨"c", .scalar⟩, ⟨"out", .scalar⟩] [0] 0
          [⟨.gate .add, [.input 0, .input 1, .input 2]⟩, ⟨.gate .assertEq, [.gate 0, .input 3]⟩] =
        .ok (chain ++ after) ∧ chain.length = 2 ∧
      ∃ env : Env Int,
        Term.evalAll .integers env [.var "a", .var "b", .var "c"] =
          some [.elem 1, .elem 1, .elem 1] ∧
        Interpretation.integers.fold .add (.elem 1) [.elem 1, .elem 1] = .elem 3 ∧
        ¬ ∀ last : Env Int → Prop, Line.Read .integers (fun _ => none) last chain env ↔
            last (env.bind "gate_0" (.elem 3)) := by
  let env : Env Int := ((Env.empty.bind "a" (.elem 1)).bind "b" (.elem 1)).bind "c" (.elem 1)
  refine ⟨[.equation "gate_0" .add [.var "a", .var "b"],
      .equation "gate_0" .add [.var "gate_0", .var "c"]],
    [.assertion .assertEq [.var "gate_0", .var "out"]], rfl, rfl, env, rfl, rfl, ?_⟩
  intro h
  -- The fold would make the lines hold with nothing after them, but the last line has no solution.
  obtain ⟨d, _, _, _, g, vs, hvs, hg, -⟩ := (h fun _ => True).mpr trivial
  have hvalues : vs = [g, .elem 1] := by
    simpa [Term.evalAll, Term.eval, env, Env.bind] using hvs.symm
  subst hvalues
  cases g with
  | elem a =>
    have ha : a = a + 1 := Datum.elem.inj hg
    omega
  | number _ | vec _ => cases hg

end Definition

end GateTrace
