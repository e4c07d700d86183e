import GateTrace.Proofs.Table

/-! # Agreement across tables

    What it means that two runs recorded the same, over gadget tables that were filled differently.
    The key ideas:

    - Handles of two tables agree if their gadgets do, and gadgets agree if they have one signature
      and their traces agree, node by node. This is a relation between whole trees of calls, in
      which the places of the gadgets in the tables play no part.
    - A table that grows keeps what agreed before.
-/

namespace GateTrace

/-! ### What agrees -/

/-- Operations of two traces that do the same. Calls do the same if they are of gadgets with one
    signature whose traces agree, each over its own table. -/
inductive Op.Agree (table table' : List Gadget) : Op → Op → Prop
  | gate {kind : GateKind} : Agree table table' (.gate kind) (.gate kind)
  | call {c c' : Callee} {g g' : Gadget} (hentry : table[c.id]? = some g)
    (hentry' : table'[c'.id]? = some g') (hcallee : c = g.callee c.id)
    (hcallee' : c' = g'.callee c'.id) (hsignature : g.toSignature = g'.toSignature)
    (hlength : g.code.length = g'.code.length)
    (hargs : ∀ (p : Nat) (n n' : Node), g.code[p]? = some n → g'.code[p]? = some n' →
      n.args = n'.args)
    (hops : ∀ (p : Nat) (n n' : Node), g.code[p]? = some n → g'.code[p]? = some n' →
      Agree table table' n.op n'.op) :
    Agree table table' (.call c) (.call c')

/-- Traces that agree node by node: on the operands, and on the operations up to the places of
    gadgets. -/
structure Trace.Agree (table table' : List Gadget) (code code' : Trace) : Prop where
  length : code.length = code'.length
  args : ∀ (p : Nat) (n n' : Node), code[p]? = some n → code'[p]? = some n' → n.args = n'.args
  ops : ∀ (p : Nat) (n n' : Node), code[p]? = some n → code'[p]? = some n' →
    n.op.Agree table table' n'.op

/-- Gadgets that agree in name, arguments, output and its shape, and whose traces agree. -/
structure Gadget.Agree (table table' : List Gadget) (g g' : Gadget) : Prop where
  signature : g.toSignature = g'.toSignature
  code : Trace.Agree table table' g.code g'.code

/-- Answers that agree: handles are compared by their gadgets, values are the same. -/
inductive Answer.Agree (table table' : List Gadget) : Answer → Answer → Prop
  | unit : Agree table table' .unit .unit
  | value {v : Value} : Agree table table' (.value v) (.value v)
  | handle {c c' : Callee} (h : Op.Agree table table' (.call c) (.call c')) :
    Agree table table' (.handle c) (.handle c')

/-- Outcomes that agree: both the same failure, or both answers that agree. -/
inductive Answer.SameOutcome (table table' : List Gadget) :
    Except Stop Answer → Except Stop Answer → Prop
  | ok {a a' : Answer} (h : a.Agree table table' a') : SameOutcome table table' (.ok a) (.ok a')
  | error {s : Stop} : SameOutcome table table' (.error s) (.error s)

section Growth

variable {table table' more more' : List Gadget}

theorem Op.Agree.mono {o o' : Op} (h : o.Agree table table' o') (hmore : table <+: more)
    (hmore' : table' <+: more') : o.Agree more more' o' := by
  obtain ⟨added, rfl⟩ := hmore
  obtain ⟨added', rfl⟩ := hmore'
  induction h with
  | gate => exact .gate
  | call hentry hentry' hcallee hcallee' hsignature hlength hargs _ ih =>
    exact .call (getElem?_grow hentry added) (getElem?_grow hentry' added') hcallee hcallee'
      hsignature hlength hargs ih

theorem Trace.Agree.mono {code code' : Trace} (h : Trace.Agree table table' code code')
    (hmore : table <+: more) (hmore' : table' <+: more') : Trace.Agree more more' code code' :=
  ⟨h.length, h.args, fun p n n' hn hn' => (h.ops p n n' hn hn').mono hmore hmore'⟩

end Growth

section Agreement

variable {table table' : List Gadget} {code code' : Trace}

theorem Trace.Agree.nil : Trace.Agree table table' [] [] := ⟨rfl, by simp, by simp⟩

theorem Trace.Agree.push (h : Trace.Agree table table' code code') {n n' : Node}
    (hargs : n.args = n'.args) (hop : n.op.Agree table table' n'.op) :
    Trace.Agree table table' (code ++ [n]) (code' ++ [n']) := by
  have hnodes : ∀ (p : Nat) (m m' : Node), (code ++ [n])[p]? = some m →
      (code' ++ [n'])[p]? = some m' →
        (code[p]? = some m ∧ code'[p]? = some m') ∨ (m = n ∧ m' = n') := by
    -- A position of the longer traces is one of the old ones in both, or the last in both.
    intro p m m' hm hm'
    have hlength := h.length
    rcases getElem?_concat_cases hm with ⟨hp, hm⟩ | ⟨hp, rfl⟩
    · rcases getElem?_concat_cases hm' with ⟨-, hm'⟩ | ⟨hp', -⟩
      · exact .inl ⟨hm, hm'⟩
      · omega
    · rcases getElem?_concat_cases hm' with ⟨hp', -⟩ | ⟨-, rfl⟩
      · omega
      · exact .inr ⟨rfl, rfl⟩
  refine ⟨by simp [h.length], fun p m m' hm hm' => ?_, fun p m m' hm hm' => ?_⟩
  · rcases hnodes p m m' hm hm' with ⟨hm, hm'⟩ | ⟨rfl, rfl⟩
    · exact h.args p m m' hm hm'
    · exact hargs
  · rcases hnodes p m m' hm hm' with ⟨hm, hm'⟩ | ⟨rfl, rfl⟩
    · exact h.ops p m m' hm hm'
    · exact hop

/-- Handles agree exactly if they are of gadgets that agree. -/
theorem Op.agree_call_iff {c c' : Callee} :
    Op.Agree table table' (.call c) (.call c') ↔
      ∃ g g', table[c.id]? = some g ∧ table'[c'.id]? = some g' ∧ c = g.callee c.id ∧
        c' = g'.callee c'.id ∧ Gadget.Agree table table' g g' := by
  constructor
  · intro h
    cases h with
    | call hentry hentry' hcallee hcallee' hsignature hlength hargs hops =>
      exact ⟨_, _, hentry, hentry', hcallee, hcallee', hsignature, hlength, hargs, hops⟩
  · rintro ⟨g, g', hentry, hentry', hcallee, hcallee', hsignature, hlength, hargs, hops⟩
    exact .call hentry hentry' hcallee hcallee' hsignature hlength hargs hops

theorem Op.Agree.signature {c c' : Callee} (h : Op.Agree table table' (.call c) (.call c')) :
    c.toSignature = c'.toSignature := by
  obtain ⟨g, g', -, -, hcallee, hcallee', hagree⟩ := Op.agree_call_iff.mp h
  rw [hcallee, hcallee']
  exact hagree.signature

theorem Answer.Agree.toValue_eq {a a' : Answer} (h : a.Agree table table' a') :
    a.toValue = a'.toValue := by
  cases h <;> rfl

/-- Handles that agree, besides others that agree, cannot be told apart over tables of different
    names. -/
theorem Callee.indistinct {family : Component → Prop} {field field' : ScalarField}
    (htable : Gadget.Memoized family field table) (htable' : Gadget.Memoized family field' table')
    {handles : Handles} (hhandles : ∀ x ∈ handles, Op.Agree table table' (.call x.1) (.call x.2))
    {c c' : Callee} (h : Op.Agree table table' (.call c) (.call c')) : c.Indistinct handles c' := by
  refine ⟨h.signature, ?_⟩
  intro x hx
  obtain ⟨g, g', hentry, hentry', -, -, hagree⟩ := Op.agree_call_iff.mp h
  obtain ⟨k, k', hother, hother', -, -, hothers⟩ := Op.agree_call_iff.mp (hhandles x hx)
  -- Where two handles are one, their gadgets have one name, and so have those of the other table.
  have hname : g.name = g'.name := congrArg Signature.name hagree.signature
  have hnames : k.name = k'.name := congrArg Signature.name hothers.signature
  constructor
  · intro hid
    rw [hid, hother] at hentry
    obtain rfl := Option.some.inj hentry
    exact htable'.id_inj hentry' hother' (hname.symm.trans hnames)
  · intro hid
    rw [hid, hother'] at hentry'
    obtain rfl := Option.some.inj hentry'
    exact htable.id_inj hentry hother (hname.trans hnames.symm)

end Agreement

end GateTrace
