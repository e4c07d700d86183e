import GateTrace.Proofs.Order
import GateTrace.Proofs.Restoration
import GateTrace.Proofs.Success

/-! # Files in order

    Every file defines a gadget before it is called. The key ideas:

    - A definition that, whatever it is answered, only calls handles from requests of its own is one
      that a session of own handles can run: what it may call has been handed out by then.
    - An extraction asks for one component after the other, so each extractor that it comes to is
      one between two programs of such a session, and its table is linked.
    - The gadgets of a file are the whole table in its order, and the circuits come after them.
-/

namespace GateTrace

/-! ### Definitions that call their own handles -/

/-- Whether a program only calls handles out of `own`, and handles from requests that it made
    before, whatever its requests are answered. -/
def Program.OwnsCalls (own : List Callee) : Program → Prop
  | .done _ => True
  | .stop _ => True
  | .perform _ next => ∀ x, (next x).OwnsCalls own
  | .define _ body next =>
    (∀ inner, (body inner).OwnsCalls own) ∧
      (∀ callee, (next (.ok callee)).OwnsCalls (callee :: own)) ∧
        ∀ e, (next (.error e)).OwnsCalls own
  | .invoke callee _ next => callee ∈ own ∧ ∀ x, (next x).OwnsCalls own

def Component.OwnsCalls (c : Component) : Prop := ∀ inner, (c.body inner).OwnsCalls []

theorem Program.OwnsCalls.mono {p : Program} {own own' : List Callee} (h : p.OwnsCalls own)
    (hsub : own ⊆ own') : p.OwnsCalls own' := by
  induction p generalizing own own' with
  | done | stop => trivial
  | perform o next ih => exact fun x => ih x (h x) hsub
  | invoke callee r next ih => exact ⟨hsub h.1, fun x => ih x (h.2 x) hsub⟩
  | define r body next ihBody ih =>
    obtain ⟨hbody, hfound, hfailed⟩ := h
    -- Whatever the request is answered, the handle comes on top of what was owned before.
    refine ⟨fun inner => ihBody inner (hbody inner) hsub, ?_, fun e => ih _ (hfailed e) hsub⟩
    intro callee
    exact ih _ (hfound callee) (List.cons_subset_cons callee hsub)

theorem Program.ownsCalls_ofExcept (x : Except Error Answer) (own : List Callee) :
    (ofExcept x).OwnsCalls own := by
  cases x <;> trivial

theorem Program.ownsCalls_ofOperation (o : Operation) (own : List Callee) :
    (ofOperation o).OwnsCalls own := by
  intro x
  cases x with
  | error e => trivial
  | ok v =>
    show Program.OwnsCalls own (if o.kind.style = .assertion then .done .unit else .done (.value v))
    split <;> trivial

theorem Program.ownsCalls_handleOf {r : Record} {body : Record → Program} {own : List Callee}
    (hbody : ∀ inner, (body inner).OwnsCalls own) : (handleOf r body).OwnsCalls own :=
  ⟨hbody, fun _ => ownsCalls_ofExcept _ _, fun _ => ownsCalls_ofExcept _ _⟩

theorem Program.ownsCalls_call {r : Record} {body : Record → Program} {own : List Callee}
    (hbody : ∀ inner, (body inner).OwnsCalls own) : (call r body).OwnsCalls own := by
  refine ⟨hbody, ?_, fun e => trivial⟩
  intro callee
  exact ⟨List.mem_cons_self, fun x => ownsCalls_ofExcept _ _⟩

namespace Machine

/-- Whether a definition that waits for a gadget will only call handles out of `own`, that gadget,
    and handles from requests that it makes from then on. -/
def Frame.OwnsCalls (own : List Callee) (f : Frame) : Prop :=
  (∀ callee, (f.next (.ok callee)).OwnsCalls (callee :: own)) ∧
    ∀ e, (f.next (.error e)).OwnsCalls own

theorem Frame.OwnsCalls.mono {f : Frame} {own own' : List Callee} (h : f.OwnsCalls own)
    (hsub : own ⊆ own') : f.OwnsCalls own' := by
  obtain ⟨hfound, hfailed⟩ := h
  constructor
  · intro callee
    exact (hfound callee).mono (List.cons_subset_cons callee hsub)
  · intro e
    exact (hfailed e).mono hsub

/-- Whether the running definition, and all that wait, only call what was handed out and what they
    will get from requests of their own. -/
structure Owned (handed : Handed) (m : Machine) : Prop where
  running : m.program.OwnsCalls (handed.map Prod.snd)
  waiting : ∀ f ∈ m.stack, f.OwnsCalls (handed.map Prod.snd)

theorem Owned.grow {handed : Handed} {m : Machine} (h : m.Owned handed) (more : Handed) :
    m.Owned (handed ++ more) := by
  have hsub : handed.map Prod.snd ⊆ (handed ++ more).map Prod.snd := by
    rw [List.map_append]
    exact List.subset_append_left _ _
  exact ⟨h.running.mono hsub, fun f hf => (h.waiting f hf).mono hsub⟩

/-- What may call a handle next to those handed out before may do so once it is handed out. -/
theorem ownsCalls_handing {p : Program} {handed : Handed} {callee : Callee}
    (h : p.OwnsCalls (callee :: handed.map Prod.snd)) {handing : Option (String × Callee)}
    {name : String} (hhanding : handing = some (name, callee)) :
    p.OwnsCalls ((handed ++ handing.toList).map Prod.snd) := by
  subst hhanding
  have hsub : callee :: handed.map Prod.snd ⊆ (handed ++ [(name, callee)]).map Prod.snd := by
    intro c hc
    rcases List.mem_cons.mp hc with rfl | hc
    · simp
    · simp [hc]
  exact h.mono hsub

theorem Step.owned {handed : Handed} {m m' : Machine} (hstep : Step m m') (h : m.Owned handed) :
    m'.Owned (handed ++ m.handing?.toList) := by
  have hgrown := h.grow m.handing?.toList
  cases hstep with
  | perform | performError => exact ⟨hgrown.running _, hgrown.waiting⟩
  | invoke | invokeError => exact ⟨hgrown.running.2 _, hgrown.waiting⟩
  | reuse hfind =>
    refine ⟨?_, hgrown.waiting⟩
    exact ownsCalls_handing (h.running.2.1 _) (by simp only [handing?, hfind]; rfl)
  | refuse => exact ⟨hgrown.running.2.2 _, hgrown.waiting⟩
  | enter =>
    -- The caller waits, and goes on with what it owned.
    exact ⟨hgrown.running.1 _, List.forall_mem_cons.mpr ⟨hgrown.running.2, hgrown.waiting⟩⟩
  | enroll hout henrolled =>
    obtain rfl := henrolled
    have hcaller := h.waiting _ List.mem_cons_self
    refine ⟨?_, (List.forall_mem_cons.mp hgrown.waiting).2⟩
    exact ownsCalls_handing (hcaller.1 _) (by simp only [handing?, hout]; rfl)
  | enrollError | fail =>
    obtain ⟨hcaller, hrest⟩ := List.forall_mem_cons.mp hgrown.waiting
    exact ⟨hcaller.2 _, hrest⟩

theorem Owned.ownHandles {handed : Handed} {m : Machine} (h : m.Owned handed) :
    m.OwnHandles handed := by
  obtain ⟨ex, level, program, stack⟩ := m
  cases program with
  | invoke callee r next => exact h.running.1
  | done | stop | perform | define => trivial

/-- A session of own handles can take all steps of definitions that call their own handles. -/
theorem Session.exists_of_steps {field : ScalarField} {handed : Handed} {m m' : Machine}
    (hm : Session field OwnHandles handed m) (howned : m.Owned handed) (hsteps : Steps m m') :
    ∃ handed', Session field OwnHandles handed' m' ∧ m'.Owned handed' := by
  induction hsteps with
  | refl => exact ⟨handed, hm, howned⟩
  | tail _ hstep ih =>
    obtain ⟨handed', hm', howned'⟩ := ih
    exact ⟨_, hm'.step howned'.ownHandles hstep, hstep.owned howned'⟩

end Machine

/-! ### Extractors between programs -/

open Machine

/-- Whether an extractor is one between two programs of a session of own handles. -/
def Extractor.AtRest (field : ScalarField) (ex : Extractor) : Prop :=
  ∃ handed m, Session field OwnHandles handed m ∧ m.Idle ∧ m.ex = ex

namespace Extractor.AtRest

variable {field : ScalarField} {ex ex' : Extractor}

theorem start (field : ScalarField) : (Extractor.start field).AtRest field :=
  ⟨_, _, .start, ⟨rfl, .inl ⟨_, rfl⟩⟩, rfl⟩

theorem note (h : ex.AtRest field) (e : Event) : (ex.note e).AtRest field := by
  obtain ⟨handed, m, hm, hidle, rfl⟩ := h
  exact ⟨_, _, .client hm (.note hidle e), hidle, rfl⟩

theorem takeCode (h : ex.AtRest field) : ex.takeCode.2.AtRest field := by
  obtain ⟨handed, m, hm, hidle, rfl⟩ := h
  exact ⟨_, _, .client hm (.takeCode hidle), ⟨rfl, .inl ⟨_, rfl⟩⟩, rfl⟩

/-- The table is linked, and so is the trace. -/
theorem linked (h : ex.AtRest field) :
    Trace.CallsInto ex.gadgets ex.code ∧ Gadget.Ordered ex.gadgets := by
  obtain ⟨handed, m, hm, -, rfl⟩ := h
  exact ⟨hm.linked.running, hm.linked.gadgets⟩

/-- A program that calls its own handles is run from rest to rest, if it comes to an end. -/
theorem run (h : ex.AtRest field) {p : Program} (hp : p.OwnsCalls [])
    (hend : Ended (p.run ex)) : (p.run ex).1.AtRest field := by
  obtain ⟨handed, m, hm, hidle, rfl⟩ := h
  -- Nothing waits between two programs, so all that has to own its calls is the program itself.
  have hresumed : Session field OwnHandles handed { m with program := p } :=
    .client hm (.resume hidle p)
  have howned : Owned handed { m with program := p } := by
    refine ⟨hp.mono (List.nil_subset _), ?_⟩
    simp [hidle.1]
  obtain ⟨level, -, hsteps⟩ := run_reaches hend m.level m.stack
  obtain ⟨handed', hdone, -⟩ := hresumed.exists_of_steps howned hsteps
  refine ⟨handed', _, hdone, ⟨hidle.1, ?_⟩, rfl⟩
  rcases hend with ⟨a, ha⟩ | ⟨e, he⟩
  · exact .inl ⟨a, by simp [after, ha]⟩
  · exact .inr ⟨e, by simp [after, he]⟩

/-- A request for the gadget of a component that calls its own handles goes from rest to rest. -/
theorem define (h : ex.AtRest field) {c : Component} (hc : c.OwnsCalls) {callee : Callee}
    (hdefine : c.define ex = (ex', .ok callee)) : ex'.AtRest field := by
  have hrun : (Program.handleOf c.record c.body).run ex = (ex', .ok (.handle callee)) :=
    Program.run_define_eq hdefine
  have hdone := h.run (Program.ownsCalls_handleOf hc) (.inl ⟨_, by rw [hrun]⟩)
  rw [hrun] at hdone
  exact hdone

theorem defineAll (h : ex.AtRest field) {cs : List Component} (hcs : ∀ c ∈ cs, c.OwnsCalls)
    (hdefine : Extraction.defineAll ex cs = (ex', .ok ())) : ex'.AtRest field := by
  induction cs generalizing ex with
  | nil =>
    obtain rfl : ex = ex' := congrArg Prod.fst hdefine
    exact h
  | cons c cs ih =>
    cases hfirst : c.define ex with
    | mk ex₁ result =>
      cases result with
      | error s => simp [Extraction.defineAll, hfirst] at hdefine
      | ok callee =>
        simp only [Extraction.defineAll, hfirst] at hdefine
        -- The first request ends at rest, and the others begin there.
        exact ih (h.define (hcs c (by simp)) hfirst) (fun c' hc' => hcs c' (by simp [hc'])) hdefine

/-- A circuit that calls its own handles is recorded from rest to rest, and its definition calls
    gadgets of the table that it leaves. -/
theorem leaves (h : ex.AtRest field) {c : Component} (hc : c.OwnsCalls) {name : String}
    {d : Definition} (hleaves : c.Leaves ex name ex' d) :
    ex'.AtRest field ∧ ex.gadgets <+: ex'.gadgets ∧ d.callees ⊆ ex'.gadgets.map (·.name) := by
  obtain ⟨s, code, hrun, hd⟩ := hleaves
  rw [Definition.ofTrace_callees hd]
  unfold Extraction.runCircuit at hrun
  cases hinner : c.record.withPlaceholders c.record.schema with
  | mk inner result =>
    cases result with
    | error e => simp [hinner] at hrun
    | ok u =>
      cases hdone : (c.body inner).run ex with
      | mk ex₁ outcome =>
        cases outcome with
        | error s => simp [hinner, hdone] at hrun
        | ok a =>
          -- A circuit that was recorded came to an end, so its run goes from rest to rest.
          have hrecorded := h.run (hc inner) (.inl ⟨a, by rw [hdone]⟩)
          obtain ⟨added, hgains⟩ := (c.body inner).exists_gains_run ex
          rw [hdone] at hrecorded hgains
          simp only [hinner, hdone, Prod.mk.injEq, Except.ok.injEq] at hrun
          obtain ⟨rfl, rfl, rfl⟩ := hrun
          exact ⟨((hrecorded.takeCode.note _).note _).note _, hgains.gadgets,
            hrecorded.linked.1.callees_subset⟩

/-- Circuits that call their own handles are recorded from rest to rest, and their definitions call
    gadgets of the table that they leave. -/
theorem runBatch (h : ex.AtRest field) {cs : List Component} (hcs : ∀ c ∈ cs, c.OwnsCalls)
    {seen : List String} {ds : List Definition}
    (hrun : Extraction.runBatch ex seen cs = (ex', .ok ds)) :
    ex'.AtRest field ∧ ex.gadgets <+: ex'.gadgets ∧
      ∀ d ∈ ds, d.callees ⊆ ex'.gadgets.map (·.name) := by
  induction cs generalizing ex seen ds with
  | nil =>
    obtain ⟨rfl, hds⟩ := Prod.mk.inj hrun
    obtain rfl := Except.ok.inj hds
    exact ⟨h, List.prefix_rfl, by simp⟩
  | cons c cs ih =>
    have hrest : ∀ c' ∈ cs, c'.OwnsCalls := fun c' hc' => hcs c' (by simp [hc'])
    by_cases hseen : c.record.schema.uniqueName ∈ seen
    · -- A circuit whose name was met before is left out, and nothing is recorded for it.
      rw [Extraction.runBatch_cons_of_mem hseen] at hrun
      exact ih (h.note _) hrest hrun
    · obtain ⟨mid, d, rest, hleaves, hothers, rfl⟩ :=
        (Extraction.runBatch_cons_eq_ok_iff hseen).mp hrun
      obtain ⟨hmid, hgrows, hcallees⟩ := h.leaves (hcs c (by simp)) hleaves
      obtain ⟨hdone, hgrows', hcallees'⟩ := ih hmid hrest hothers
      refine ⟨hdone, hgrows.trans hgrows', ?_⟩
      -- The table has at most grown since the first circuit was recorded.
      rw [List.forall_mem_cons]
      exact ⟨List.Subset.trans hcallees (hgrows'.map _).subset, hcallees'⟩

end Extractor.AtRest

/-! ### Files -/

/-- Whether a document comes of extracting components. -/
inductive Exports (cfg : Config) : List Component → Document → Prop
  | circuit {c : Component} {doc : Document}
    (h : (Extraction.ofCircuit cfg c).result = .ok doc) : Exports cfg [c] doc
  | circuits {scope : String} {cs : List Component} {doc : Document}
    (h : (Extraction.ofCircuits cfg scope cs).result = .ok doc) : Exports cfg cs doc
  | gadget {c : Component} {doc : Document}
    (h : (Extraction.ofGadget cfg c).result = .ok doc) : Exports cfg [c] doc
  | gadgets {scope : String} {cs : List Component} {doc : Document}
    (h : (Extraction.ofGadgets cfg scope cs).result = .ok doc) : Exports cfg cs doc

/-- Whether a document defines every gadget before it is called, its circuits standing after all
    its gadgets. -/
structure Document.Ordered (doc : Document) : Prop where
  gadgets : Definition.Ordered doc.gadgets
  circuits : ∀ d ∈ doc.circuits, d.callees ⊆ doc.gadgets.map (·.name)

/-- A document that holds a rendered table and circuits that call gadgets of the table is
    ordered. -/
theorem Config.document_ordered {field : ScalarField} {ex : Extractor} (h : ex.AtRest field)
    {ds circuits : List Definition} (hds : ex.gadgets.mapM Definition.ofGadget = .ok ds)
    (hcircuits : ∀ d ∈ circuits, d.callees ⊆ ex.gadgets.map (·.name)) (cfg : Config)
    (scope : String) : (cfg.document scope ds circuits).Ordered := by
  refine ⟨Definition.ordered_of_mapM h.linked.2 hds, ?_⟩
  intro d hd
  show d.callees ⊆ ds.map (·.name)
  rw [Definition.map_name_of_mapM hds]
  exact hcircuits d hd

theorem Exports.ordered {cfg : Config} {cs : List Component} {doc : Document}
    (hcs : ∀ c ∈ cs, c.OwnsCalls) (h : Exports cfg cs doc) : doc.Ordered := by
  have hstart : (Extractor.start cfg.field).AtRest cfg.field := .start _
  cases h with
  | gadget h | gadgets h =>
    obtain ⟨ex, ds, hdefine, hds, rfl⟩ :=
      Extraction.document_eq_ok_iff.mp (Extraction.guarded_eq_ok_iff.mp h)
    exact cfg.document_ordered (hstart.defineAll hcs hdefine) hds (by simp) _
  | circuits h =>
    obtain ⟨ex, circuits, ds, hbatch, hds, rfl⟩ := Extraction.ofCircuits_eq_ok_iff.mp h
    obtain ⟨hrest, -, hcallees⟩ := hstart.runBatch hcs hbatch
    exact cfg.document_ordered hrest hds hcallees _
  | circuit h =>
    obtain ⟨ex, d, ds, hleaves, hds, rfl⟩ := Extraction.ofCircuit_eq_ok_iff.mp h
    obtain ⟨hrest, -, hcallees⟩ := hstart.leaves (hcs _ (by simp)) hleaves
    exact cfg.document_ordered hrest hds (by simpa using hcallees) _

/-- At every point of a session that only calls handles it was handed, the running trace and those
    that wait call gadgets of the table, and every gadget gadgets before it, also where gadgets were
    given up half-way. So the definitions of the table define each gadget before it is called, and
    so does every file of components whose definitions only call handles that they asked for. -/
theorem callees_precede_callers :
    (∀ {field : ScalarField} {handed : Handed} {m : Machine}, Session field OwnHandles handed m →
      m.Linked ∧ ∀ ds, m.ex.gadgets.mapM Definition.ofGadget = .ok ds → Definition.Ordered ds) ∧
    ∀ (cfg : Config) (cs : List Component) (doc : Document), (∀ c ∈ cs, c.OwnsCalls) →
      Exports cfg cs doc → doc.Ordered := by
  constructor
  · intro field handed m hm
    exact ⟨hm.linked, fun ds => Definition.ordered_of_mapM hm.linked.gadgets⟩
  · intro cfg cs doc hcs hexports
    exact hexports.ordered hcs

/-- A gadget that calls the square of its signal. -/
def Program.squareByCall : Component where
  record := ⟨"Outer", [⟨"x", .signal (.wire .nil)⟩]⟩
  body inner := .call ⟨"Square", inner.fields⟩ square.body

/-- A gadget that asks for the square fails, and its caller goes on to call the square; and the file
    of a gadget that calls the square. -/
theorem callees_precede_callers_square :
    (∃ handed m, Session .bn254 OwnHandles handed m ∧ m.ex.gadgets.map (·.name) = ["Square"] ∧
      Trace.callees m.ex.code = ["Square"] ∧ m.Linked) ∧
    ∃ doc, Exports .standard [Program.squareByCall] doc ∧
      doc.gadgets.map (·.name) = ["Square", "Outer"] ∧ doc.Ordered := by
  constructor
  · let p : Program := .define Program.squareThenFail.record Program.squareThenFail.body fun _ =>
      .call ⟨"Square", [⟨"x", .signal (.wire (.int 3))⟩]⟩ Program.square.body
    have hstart : Session .bn254 OwnHandles _ _ :=
      .client .start (.resume ⟨rfl, .inl ⟨_, rfl⟩⟩ p)
    have houter : Session .bn254 OwnHandles _ _ := .step hstart trivial (.enter rfl rfl)
    have hinner : Session .bn254 OwnHandles _ _ := .step houter trivial (.enter rfl rfl)
    have hmul : Session .bn254 OwnHandles _ _ := .step hinner trivial (.perform rfl)
    have hsealed : Session .bn254 OwnHandles _ _ := .step hmul trivial (.enroll rfl rfl)
    have hbits : Session .bn254 OwnHandles _ _ := .step hsealed trivial (.performError rfl)
    have hfailed : Session .bn254 OwnHandles _ _ := .step hbits trivial .fail
    have hfound : Session .bn254 OwnHandles _ _ := .step hfailed trivial (.reuse rfl)
    have hcalled : Session .bn254 OwnHandles _ _ :=
      .step hfound (List.mem_map_of_mem (List.mem_append_right _ (List.mem_singleton.mpr rfl)))
        (.invoke rfl)
    exact ⟨_, _, hcalled, rfl, rfl, (callees_precede_callers.1 hcalled).1⟩
  · have howns : Program.squareByCall.OwnsCalls := fun inner =>
      Program.ownsCalls_call fun _ => Program.ownsCalls_ofOperation _ _
    obtain ⟨doc, hresult, -, hnames⟩ := Extraction.exists_of_map_names (show
      (Extraction.ofGadget .standard Program.squareByCall).result.toOption.map _ =
        some ([], ["Square", "Outer"]) by decide +kernel)
    have hordered := callees_precede_callers.2 .standard [Program.squareByCall] doc
      (by simpa using howns) (.gadget hresult)
    exact ⟨doc, .gadget hresult, hnames, hordered⟩

end GateTrace
