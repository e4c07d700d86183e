import GateTrace.Proofs.WellFormed

/-! # Calls and the gadget table

    A definition that only calls handles of its own extractor records calls of gadgets that are in
    the table already. The key ideas:

    - The table only grows at its end, so a handle that was good stays good.
    - A gadget enters the table after everything its trace calls, so reading the table in order
      meets every gadget before its callers.
-/

namespace GateTrace

/-- Every call in a trace is that of a gadget of the table, by its own handle. -/
def Trace.CallsInto (gadgets : List Gadget) (code : Trace) : Prop :=
  ∀ n ∈ code, ∀ callee, n.op = .call callee →
    ∃ g, gadgets[callee.id]? = some g ∧ callee = g.callee callee.id

/-- Every gadget of a table calls only gadgets before it. -/
def Gadget.Ordered (gadgets : List Gadget) : Prop :=
  ∀ (id : Nat) (g : Gadget), gadgets[id]? = some g → Trace.CallsInto (gadgets.take id) g.code

variable {gadgets : List Gadget} {code : Trace}

theorem Trace.CallsInto.nil : Trace.CallsInto gadgets [] := by
  intro n hn
  cases hn

theorem Trace.CallsInto.grow (h : Trace.CallsInto gadgets code) (more : List Gadget) :
    Trace.CallsInto (gadgets ++ more) code := by
  intro n hn callee hcallee
  obtain ⟨g, hg, heq⟩ := h n hn callee hcallee
  exact ⟨g, getElem?_grow hg more, heq⟩

theorem Trace.CallsInto.gate (h : Trace.CallsInto gadgets code) {n : Node} {kind : GateKind}
    (hn : n.op = .gate kind) : Trace.CallsInto gadgets (code ++ [n]) := by
  intro m hm callee hcallee
  rcases List.mem_append.mp hm with hm | hm
  · exact h m hm callee hcallee
  · obtain rfl := List.mem_singleton.mp hm
    rw [hn] at hcallee
    cases hcallee

theorem Trace.CallsInto.call (h : Trace.CallsInto gadgets code) {callee : Callee}
    {args : List Operand}
    (hcallee : ∃ g, gadgets[callee.id]? = some g ∧ callee = g.callee callee.id) :
    Trace.CallsInto gadgets (code ++ [⟨.call callee, args⟩]) := by
  intro m hm callee' hcallee'
  rcases List.mem_append.mp hm with hm | hm
  · exact h m hm callee' hcallee'
  · obtain rfl := List.mem_singleton.mp hm
    obtain rfl := Op.call.inj hcallee'
    exact hcallee

/-- A gadget that calls only gadgets of an ordered table keeps it ordered when it enters. -/
theorem Gadget.Ordered.append (h : Gadget.Ordered gadgets) {g : Gadget}
    (hg : Trace.CallsInto gadgets g.code) : Gadget.Ordered (gadgets ++ [g]) := by
  intro id g' hg'
  exact forall_getElem?_concat (P := fun before g => Trace.CallsInto before g.code) h hg id g' hg'

namespace Machine

/-- Whether a gadget that is about to be called is one of the extractor's own. -/
def CallsOwn (m : Machine) : Prop :=
  match m.program with
  | .invoke callee _ _ => ∃ g, m.ex.gadgets[callee.id]? = some g ∧ callee = g.callee callee.id
  | _ => True

/-- Every trace calls gadgets of the table, and every gadget gadgets before it. -/
structure Linked (m : Machine) : Prop where
  running : Trace.CallsInto m.ex.gadgets m.ex.code
  suspended : ∀ f ∈ m.stack, Trace.CallsInto m.ex.gadgets f.ex.code
  gadgets : Gadget.Ordered m.ex.gadgets

/-- A step that calls only gadgets of the table keeps everything linked. -/
theorem Step.linked {m m' : Machine} (hstep : Step m m') (hown : m.CallsOwn) (h : m.Linked) :
    m'.Linked := by
  obtain ⟨hrunning, hsuspended, hgadgets⟩ := h
  cases hstep with
  | perform hop =>
    obtain ⟨n, hnode, rfl, -⟩ := Extractor.perform_eq_ok hop
    obtain ⟨kind, hkind⟩ : ∃ kind, n.op = .gate kind := by
      obtain ⟨ops, -, ⟨a, w, -, rfl⟩ | ⟨-, rfl⟩⟩ := Operation.node_eq_ok hnode
      · exact ⟨_, rfl⟩
      · exact ⟨_, rfl⟩
    exact ⟨hrunning.gate hkind, hsuspended, hgadgets⟩
  | invoke hop =>
    obtain ⟨ops, -, -, rfl, -⟩ := Extractor.invoke_eq_ok hop
    exact ⟨hrunning.call hown, hsuspended, hgadgets⟩
  | performError | invokeError | reuse | refuse => exact ⟨hrunning, hsuspended, hgadgets⟩
  | enter =>
    -- The table is as it was, and the caller's trace is now a suspended one.
    refine ⟨.nil, ?_, hgadgets⟩
    intro f hf
    rcases List.mem_cons.mp hf with rfl | hf
    · exact hrunning
    · exact hsuspended f hf
  | enroll hout henrolled =>
    -- What the gadget calls is in the table already, and the gadget comes after it.
    obtain rfl := henrolled
    refine ⟨(hsuspended _ (by simp)).grow _, ?_, hgadgets.append hrunning⟩
    intro f hf
    exact (hsuspended f (by simp [hf])).grow _
  | enrollError | fail =>
    exact ⟨hsuspended _ (by simp), fun f hf => hsuspended f (by simp [hf]), hgadgets⟩

theorem Reachable.linked {field : ScalarField} {m : Machine}
    (hm : Reachable field CallsOwn m) : m.Linked := by
  induction hm with
  | start => exact ⟨.nil, by simp, by simp [Gadget.Ordered, Extractor.start]⟩
  | step _ hguard hstep ih => exact hstep.linked hguard ih
  | circuit _ _ hcode _ _ ih => exact ⟨by rw [hcode]; exact .nil, by simp, ih.gadgets⟩
  | takeCode _ _ ih => exact ⟨.nil, by simp, ih.gadgets⟩
  | resume _ _ _ ih | note _ _ _ ih => exact ⟨ih.running, ih.suspended, ih.gadgets⟩

end Machine

end GateTrace
