import GateTrace.Extraction

/-! # Extractions that succeed

    An extraction is a chain of steps that each may fail, and it succeeds exactly if all of them do.
    Here each is taken apart once, into what its steps came to. The key ideas:

    - A circuit leaves an extractor and a definition: it was recorded, and its trace was defined.
    - A batch skips the circuits whose names it has met, and records the others over each other's
      tables.
    - A document holds its circuits and the whole table that recording came to, and it is made if
      the table can be rendered.
-/

namespace GateTrace

/-! ### Circuits -/

/-- Whether a circuit, recorded over `ex`, leaves `done` and is defined under `name` as `d`. -/
def Component.Leaves (c : Component) (ex : Extractor) (name : String) (done : Extractor)
    (d : Definition) : Prop :=
  ∃ s code, Extraction.runCircuit ex c = (done, .ok (s, code)) ∧
    Definition.ofCircuit name s.args code = .ok d

/-- A circuit whose recording is known leaves the extractor and the definition that this gives. -/
theorem Component.leaves_iff {c : Component} {ex mid done : Extractor} {s : Schema} {code : Trace}
    (hrun : Extraction.runCircuit ex c = (mid, .ok (s, code))) {name : String} {d : Definition} :
    c.Leaves ex name done d ↔ mid = done ∧ Definition.ofCircuit name s.args code = .ok d := by
  constructor
  · rintro ⟨s', code', hrun', hd⟩
    obtain ⟨rfl, ⟨⟩⟩ := Prod.mk.inj (hrun.symm.trans hrun')
    exact ⟨rfl, hd⟩
  · rintro ⟨rfl, hd⟩
    exact ⟨s, code, hrun, hd⟩

theorem Component.Leaves.unique {c : Component} {ex done done' : Extractor} {name : String}
    {d d' : Definition} (h : c.Leaves ex name done d) (h' : c.Leaves ex name done' d') :
    done = done' ∧ d = d' := by
  obtain ⟨s, code, hrun, hd⟩ := h
  obtain ⟨rfl, hd'⟩ := (Component.leaves_iff hrun).mp h'
  exact ⟨rfl, Except.ok.inj (hd.symm.trans hd')⟩

namespace Extraction

section Circuit

variable {c : Component} {inner : Record} {ex done : Extractor}

end Circuit

/-! ### Batches -/

section Batch

variable {c : Component} {cs : List Component} {seen : List String} {ex done : Extractor}
  {ds : List Definition}

theorem runBatch_cons_of_mem (hseen : c.record.schema.uniqueName ∈ seen) :
    runBatch ex seen (c :: cs) =
      runBatch (ex.note (.skippedCircuit c.record.schema.uniqueName)) seen cs := by
  simp only [runBatch, if_pos hseen]

/-- A batch whose first circuit is new records that one, and then the others over what it leaves. -/
theorem runBatch_cons_eq_ok_iff (hseen : c.record.schema.uniqueName ∉ seen) :
    runBatch ex seen (c :: cs) = (done, .ok ds) ↔
      ∃ mid d rest, c.Leaves ex c.record.schema.uniqueName mid d ∧
        runBatch mid (c.record.schema.uniqueName :: seen) cs = (done, .ok rest) ∧
          d :: rest = ds := by
  constructor
  · intro h
    -- A batch fails with its first failure, so all parts succeeded where the whole did.
    simp only [runBatch, if_neg hseen] at h
    split at h
    · next stop _ => simp at h
    · next mid s code hrun =>
      split at h
      · next p _ => simp at h
      · next d hd =>
        cases hothers : runBatch mid (c.record.schema.uniqueName :: seen) cs with
        | mk ex' others =>
          cases others with
          | error stop => simp [hothers, Except.map] at h
          | ok rest =>
            simp only [hothers, Except.map, Prod.mk.injEq, Except.ok.injEq] at h
            obtain ⟨rfl, hds⟩ := h
            exact ⟨mid, d, rest, ⟨s, code, hrun, hd⟩, hothers, hds⟩
  · rintro ⟨mid, d, rest, ⟨s, code, hrun, hd⟩, hothers, rfl⟩
    simp only [runBatch, if_neg hseen, hrun, hd, hothers, Except.map]

end Batch

/-! ### Documents -/

/-- A document is made if its names are. -/
theorem exists_of_map_names {result : Except Stop Document}
    {circuits gadgets : List String}
    (h : result.toOption.map (fun doc => (doc.circuits.map (·.name), doc.gadgets.map (·.name))) =
      some (circuits, gadgets)) :
    ∃ doc, result = .ok doc ∧ doc.circuits.map (·.name) = circuits ∧
      doc.gadgets.map (·.name) = gadgets := by
  cases result with
  | error s => cases h
  | ok doc =>
    obtain ⟨hcircuits, hgadgets⟩ := Prod.mk.inj (Option.some.inj h)
    exact ⟨doc, rfl, hcircuits, hgadgets⟩

theorem guarded_eq_ok_iff {opening : Event} {done : Extractor × Except Stop Document}
    {doc : Document} : (guarded opening done).result = .ok doc ↔ done.2 = .ok doc := by
  unfold guarded
  split
  · simp
  · rfl

/-- A document is made of a table if the table can be rendered, and holds what it is rendered as. -/
theorem render_eq_ok_iff {cfg : Config} {scope : String} {gadgets : List Gadget}
    {circuits : List Definition} {doc : Document} :
    orPanic (do
      let ds ← gadgets.mapM Definition.ofGadget
      return cfg.document scope ds circuits) = .ok doc ↔
        ∃ ds, gadgets.mapM Definition.ofGadget = .ok ds ∧ cfg.document scope ds circuits = doc := by
  cases hds : gadgets.mapM Definition.ofGadget with
  | error p =>
    show (.error (.panic p) : Except Stop Document) = .ok doc ↔ _
    simp
  | ok ds =>
    show (.ok (cfg.document scope ds circuits) : Except Stop Document) = .ok doc ↔ _
    simp

/-- The document of a batch of gadgets holds the whole table that the batch comes to. -/
theorem document_eq_ok_iff {cfg : Config} {scope : String} {cs : List Component} {doc : Document} :
    (document cfg scope cs).2 = .ok doc ↔
      ∃ ex ds, defineAll (.start cfg.field) cs = (ex, .ok ()) ∧
        ex.gadgets.mapM Definition.ofGadget = .ok ds ∧ cfg.document scope ds [] = doc := by
  unfold document
  cases hdefine : defineAll (.start cfg.field) cs with
  | mk ex result =>
    cases result with
    | error stop => simp
    | ok u => simp only [Extractor.note_gadgets, render_eq_ok_iff, Prod.mk.injEq, and_true,
        exists_and_left, exists_eq_left']

/-- The document of a circuit is made of its definition and the whole table that it leaves. -/
theorem ofCircuit_eq_ok_iff {cfg : Config} {c : Component} {doc : Document} :
    (ofCircuit cfg c).result = .ok doc ↔
      ∃ own d ds, c.Leaves (.start cfg.field) "circuit" own d ∧
        own.gadgets.mapM Definition.ofGadget = .ok ds ∧
          cfg.document (cfg.scopeOr c.record.typeName) ds [d] = doc := by
  unfold ofCircuit
  rw [guarded_eq_ok_iff]
  constructor
  -- Each step of the extraction must have succeeded, in the order in which they are tried.
  · intro hdoc
    split at hdoc
    · next stop _ => simp at hdoc
    · next own s code hrun =>
      cases hd : Definition.ofCircuit "circuit" s.args code with
      | error p =>
        rw [hd] at hdoc
        cases hdoc
      | ok d =>
        simp only [hd] at hdoc
        obtain ⟨ds, hds, hmade⟩ := render_eq_ok_iff.mp hdoc
        exact ⟨own, d, ds, ⟨s, code, hrun, hd⟩, hds, hmade⟩
  · rintro ⟨own, d, ds, ⟨s, code, hrun, hd⟩, hds, hmade⟩
    simp only [hrun, hd]
    exact render_eq_ok_iff.mpr ⟨ds, hds, hmade⟩

/-- The document of a batch of circuits is made of their definitions and the whole table that the
    batch leaves. -/
theorem ofCircuits_eq_ok_iff {cfg : Config} {scope : String} {cs : List Component}
    {doc : Document} :
    (ofCircuits cfg scope cs).result = .ok doc ↔
      ∃ ex circuits ds, runBatch (.start cfg.field) [] cs = (ex, .ok circuits) ∧
        ex.gadgets.mapM Definition.ofGadget = .ok ds ∧
          cfg.document (cfg.scopeOr scope) ds circuits = doc := by
  unfold ofCircuits
  rw [guarded_eq_ok_iff]
  cases hrun : runBatch (.start cfg.field) [] cs with
  | mk ex result =>
    cases result with
    | error stop => simp
    | ok circuits => simp only [render_eq_ok_iff, Prod.mk.injEq, Except.ok.injEq, and_assoc,
        exists_and_left, exists_eq_left']

end Extraction

end GateTrace
