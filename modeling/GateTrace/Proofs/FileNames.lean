import GateTrace.Proofs.CircuitBatch

/-! # Names in a file

    A file of circuits defines gadgets and circuits in one namespace. The batch remembers the names
    of its circuits and the table those of its gadgets, and nothing compares the two. The key ideas:

    - The journal tells every gadget that is sealed, so it tells the names of the table, in order.
    - A gadget is only sealed under a name that a circuit asks for, or the definition of a gadget
      that it comes to, however deep these nest.
    - The circuits of a file have different names. So the only thing that can go wrong is that a
      circuit has the name of a gadget that was sealed, and the journal tells if it does.
-/

namespace GateTrace

/-! ### What the journal tells -/

/-- The name of the gadget that an event tells to be sealed. -/
def Event.sealedName? : Event → Option String
  | .sealedGadget name _ => some name
  | _ => none

/-- The names of the gadgets that a journal tells to be sealed, in order. -/
def Event.sealedNames (journal : List Event) : List String := journal.filterMap Event.sealedName?

namespace Extractor

/-- What becomes of an extractor that seals gadgets of the names `names`: they are at the end of
    the table, and the journal tells them. -/
structure Seals (ex ex' : Extractor) (names : List String) : Prop where
  table : ex'.gadgets.map (·.name) = ex.gadgets.map (·.name) ++ names
  journal : Event.sealedNames ex'.journal = Event.sealedNames ex.journal ++ names

theorem Seals.refl (ex : Extractor) : ex.Seals ex [] := ⟨by simp, by simp⟩

theorem Seals.trans {ex ex' ex'' : Extractor} {names more : List String} (h : ex.Seals ex' names)
    (h' : ex'.Seals ex'' more) : ex.Seals ex'' (names ++ more) := by
  constructor
  · rw [h'.table, h.table, List.append_assoc]
  · rw [h'.journal, h.journal, List.append_assoc]

theorem Seals.note {ex ex' : Extractor} {names : List String} (h : ex.Seals ex' names) {e : Event}
    (he : e.sealedName? = none) : ex.Seals (ex'.note e) names := by
  refine ⟨h.table, ?_⟩
  simpa [Event.sealedNames, Extractor.note, he] using h.journal

theorem Seals.resume {ex ex' : Extractor} {names : List String} (h : ex.Seals ex' names)
    (code : Trace) : ex.Seals { ex' with code } names :=
  ⟨h.table, h.journal⟩

theorem Seals.enroll {ex ex' : Extractor} {names : List String} (h : ex.Seals ex' names)
    (g : Gadget) : ex.Seals (ex'.enroll g).1 (names ++ [g.name]) := by
  constructor
  · simp [h.table]
  · have hjournal := h.journal
    simp only [Event.sealedNames] at hjournal ⊢
    simp [Extractor.enroll, Extractor.note, Event.sealedName?, hjournal]

/-- Whether all gadgets that are sealed on the way from `ex` to `ex'` have names in a set. -/
def SealsWithin (names : String → Prop) (ex ex' : Extractor) : Prop :=
  ∃ new, ex.Seals ex' new ∧ ∀ name ∈ new, names name

namespace SealsWithin

variable {names : String → Prop} {ex ex' ex'' : Extractor}

theorem refl (ex : Extractor) : SealsWithin names ex ex := ⟨[], .refl ex, by simp⟩

theorem trans (h : SealsWithin names ex ex') (h' : SealsWithin names ex' ex'') :
    SealsWithin names ex ex'' := by
  obtain ⟨new, hseals, hnew⟩ := h
  obtain ⟨more, hseals', hmore⟩ := h'
  refine ⟨new ++ more, hseals.trans hseals', ?_⟩
  intro name hname
  exact (List.mem_append.mp hname).elim (hnew name) (hmore name)

theorem note (h : SealsWithin names ex ex') {e : Event} (he : e.sealedName? = none) :
    SealsWithin names ex (ex'.note e) := by
  obtain ⟨new, hseals, hnew⟩ := h
  exact ⟨new, hseals.note he, hnew⟩

theorem resume (h : SealsWithin names ex ex') (code : Trace) :
    SealsWithin names ex { ex' with code } := by
  obtain ⟨new, hseals, hnew⟩ := h
  exact ⟨new, hseals.resume code, hnew⟩

theorem push (h : SealsWithin names ex ex') (n : Node) : SealsWithin names ex (ex'.push n) :=
  (h.note (e := .recorded ex'.code.length n) rfl).resume (ex'.code ++ [n])

theorem enroll (h : SealsWithin names ex ex') {g : Gadget} (hname : names g.name) :
    SealsWithin names ex (ex'.enroll g).1 := by
  obtain ⟨new, hseals, hnew⟩ := h
  refine ⟨new ++ [g.name], hseals.enroll g, ?_⟩
  intro name hmem
  rcases List.mem_append.mp hmem with hmem | hmem
  · exact hnew name hmem
  · exact List.mem_singleton.mp hmem ▸ hname

/-- A gadget whose definition has ended is sealed under the unique name of its schema, if at all. -/
theorem settle {done : Extractor × Except Stop Value} (h : SealsWithin names ex done.1)
    {s : Schema} (hname : names s.uniqueName) (code : Trace) :
    SealsWithin names ex (settle s code done).1 := by
  obtain ⟨ex', result⟩ := done
  unfold Extractor.settle
  split
  · next hdone =>
    obtain ⟨rfl, -⟩ := Prod.mk.inj hdone
    exact h.resume code
  · next hdone =>
    obtain ⟨rfl, -⟩ := Prod.mk.inj hdone
    split
    · exact h.resume code
    · exact (h.resume code).enroll hname

end SealsWithin

/-! ### Requests -/

/-- A request for a gadget seals the gadget, and what its definition seals if that is run. -/
theorem sealsWithin_define {names : String → Prop} (ex : Extractor) {r : Record}
    {run : Record → Extractor → Extractor × Except Stop Value} (hname : names r.schema.uniqueName)
    (hrun : ∀ inner, ex.find? r.schema.uniqueName = none →
      r.withPlaceholders r.schema = (inner, .ok ()) →
        let start := { ex.note (.extractingGadget r.schema.uniqueName) with code := [] }
        SealsWithin names start (run inner start).1) :
    SealsWithin names ex (ex.define r run).1 := by
  have hnoted {e : Event} (he : e.sealedName? = none) : SealsWithin names ex (ex.note e) :=
    .note (.refl ex) he
  -- Only a gadget that is recorded is sealed, and it is so under the name asked for.
  rcases ex.define_cases r run with ⟨callee, -, hdefine⟩ | ⟨inner, e, -, hdefine⟩ |
    ⟨inner, hfind, hinner, hdefine⟩
  · rw [hdefine]
    exact hnoted rfl
  · rw [hdefine]
    exact hnoted rfl
  · rw [hdefine]
    apply SealsWithin.settle _ hname
    have hbegun := (hnoted (e := .extractingGadget r.schema.uniqueName) rfl).resume []
    exact hbegun.trans (hrun inner hfind hinner)

end Extractor

section Sealing

variable {names : String → Prop} {requests : Requests}

/-- A run seals gadgets with the names of its requests and of those that these come to, where the
    names of a closed set are given. -/
theorem Program.sealsWithin_run (hclosed : requests.Closed)
    (hnames : ∀ ex c, requests ex c → names c.record.schema.uniqueName) {p : Program}
    {ex : Extractor} (hp : p.OnlyAsks requests ex) : ex.SealsWithin names (p.run ex).1 := by
  induction p generalizing ex with
  | done a => exact .refl ex
  | stop s => exact .refl ex
  | perform o next ih =>
    unfold OnlyAsks at hp
    simp only [run]
    cases hop : ex.perform o with
    | error e =>
      rw [hop] at hp
      exact ih (.error e) hp
    | ok answer =>
      obtain ⟨ex', v⟩ := answer
      rw [hop] at hp
      obtain ⟨n, -, rfl, -⟩ := Extractor.perform_eq_ok hop
      have hpushed : ex.SealsWithin names (ex.push n) := .push (.refl ex) n
      exact hpushed.trans (ih (.ok v) hp)
  | invoke callee r next ih =>
    unfold OnlyAsks at hp
    simp only [run]
    cases hop : ex.invoke callee r with
    | error e =>
      rw [hop] at hp
      exact ih (.error e) hp
    | ok answer =>
      obtain ⟨ex', v⟩ := answer
      rw [hop] at hp
      obtain ⟨ops, -, -, rfl, -⟩ := Extractor.invoke_eq_ok hop
      have hpushed : ex.SealsWithin names (ex.push ⟨.call callee, ops⟩) := .push (.refl ex) _
      exact hpushed.trans (ih (.ok v) hp)
  | define r body next ihBody ih =>
    cases hdefine : Component.define ⟨r, body⟩ ex with
    | mk ex' result =>
      rw [onlyAsks_define_iff hdefine] at hp
      obtain ⟨hasked, hnext⟩ := hp
      -- If the gadget's definition is run, it makes requests of the set, which is closed.
      have hrequest : ex.SealsWithin names ex' := by
        obtain rfl : _ = ex' := congrArg Prod.fst hdefine
        apply ex.sealsWithin_define (hnames ex _ hasked)
        intro inner hfind hinner
        exact ihBody inner (hclosed ex _ hasked hfind inner hinner)
      rw [run_define_eq hdefine]
      cases result with
      | ok callee => exact hrequest.trans (ih (.ok callee) hnext)
      | error s =>
        cases s with
        | error e => exact hrequest.trans (ih (.error e) hnext)
        | panic _ | tooDeep => exact hrequest

/-! ### Circuits -/

/-- Recording a circuit seals gadgets with the names of its requests and of those that these come
    to. -/
theorem Extraction.sealsWithin_runCircuit (hclosed : requests.Closed)
    (hnames : ∀ ex c, requests ex c → names c.record.schema.uniqueName) {c : Component}
    {ex : Extractor} (hc : c.OnlyAsks requests ex) :
    ex.SealsWithin names (runCircuit ex c).1 := by
  cases hinner : c.record.withPlaceholders c.record.schema with
  | mk inner result =>
    cases result with
    | error e =>
      simp only [runCircuit, hinner]
      exact .refl ex
    | ok u =>
      have hbody : ex.SealsWithin names ((c.body inner).run ex).1 :=
        Program.sealsWithin_run hclosed hnames (hc inner hinner)
      cases hanswer : ((c.body inner).run ex).2 with
      | error stop => simpa only [runCircuit, hinner, hanswer] using hbody
      | ok a =>
        simp only [runCircuit, hinner, hanswer]
        -- What is noted of a circuit that was recorded seals nothing.
        exact (((hbody.resume []).note rfl).note rfl).note rfl

end Sealing

theorem Component.Leaves.name_eq {c : Component} {ex done : Extractor} {name : String}
    {d : Definition} (h : c.Leaves ex name done d) : d.name = name := by
  obtain ⟨s, code, -, hd⟩ := h
  exact (Definition.ofTrace_eq_ok hd).1

namespace Component

/-- The first occurrences have the names of all components, but for those seen before. -/
theorem mem_names_firsts_unseen {seen : List String} {cs : List Component} {name : String} :
    name ∈ (firsts (unseen seen cs)).map (·.record.schema.uniqueName) ↔
      name ∉ seen ∧ ∃ c ∈ cs, c.record.schema.uniqueName = name := by
  induction cs generalizing seen with
  | nil => simp [firsts, unseen]
  | cons c cs ih =>
    by_cases hseen : c.record.schema.uniqueName ∈ seen
    · rw [unseen_cons_of_mem hseen, ih, List.exists_mem_cons_iff]
      -- What is not among the seen names is not the name of a circuit that was seen.
      have hother : name ∉ seen → c.record.schema.uniqueName ≠ name := fun hname heq =>
        hname (heq ▸ hseen)
      tauto
    · rw [firsts_unseen_cons hseen, List.map_cons, List.mem_cons, ih, List.exists_mem_cons_iff,
        List.mem_cons]
      have hown : c.record.schema.uniqueName = name → name ∉ seen := fun heq => heq ▸ hseen
      tauto

theorem mem_names_firsts {cs : List Component} {name : String} :
    name ∈ (firsts cs).map (·.record.schema.uniqueName) ↔
      ∃ c ∈ cs, c.record.schema.uniqueName = name := by
  rw [← unseen_nil cs, mem_names_firsts_unseen, unseen_nil]
  simp

theorem nodup_names_firsts (cs : List Component) :
    ((firsts cs).map (·.record.schema.uniqueName)).Nodup := by
  have hdistinct := (firsts_unseen [] cs).2
  rwa [unseen_nil] at hdistinct

end Component

namespace Extraction

/-- A batch defines its circuits under their unique names, each name once. -/
theorem map_name_of_runBatch {cs : List Component} {seen : List String} {ex done : Extractor}
    {ds : List Definition} (h : runBatch ex seen cs = (done, .ok ds)) :
    ds.map (·.name) =
      (Component.firsts (Component.unseen seen cs)).map (·.record.schema.uniqueName) := by
  induction cs generalizing ex seen ds with
  | nil =>
    obtain ⟨-, hds⟩ := Prod.mk.inj h
    obtain rfl := Except.ok.inj hds
    rfl
  | cons c cs ih =>
    by_cases hseen : c.record.schema.uniqueName ∈ seen
    · -- A circuit of a name that was met before is skipped.
      rw [runBatch_cons_of_mem hseen] at h
      rw [Component.unseen_cons_of_mem hseen]
      exact ih h
    · obtain ⟨mid, d, others, hleaves, hothers, rfl⟩ := (runBatch_cons_eq_ok_iff hseen).mp h
      rw [Component.firsts_unseen_cons hseen, List.map_cons, List.map_cons, hleaves.name_eq,
        ih hothers]

/-- Whether the circuits of a batch only make requests of a set, each over what those before it
    left. -/
def OnlyAsks (requests : Requests) : Extractor → List String → List Component → Prop
  | _, _, [] => True
  | ex, seen, c :: cs =>
    if c.record.schema.uniqueName ∈ seen then
      OnlyAsks requests (ex.note (.skippedCircuit c.record.schema.uniqueName)) seen cs
    else
      c.OnlyAsks requests ex ∧
        OnlyAsks requests (runCircuit ex c).1 (c.record.schema.uniqueName :: seen) cs

variable {names : String → Prop} {requests : Requests} {seen : List String} {ex : Extractor}
  {cs : List Component}

theorem onlyAsks_of_forall (h : ∀ ex c, requests ex c) : OnlyAsks requests ex seen cs := by
  induction cs generalizing ex seen with
  | nil => trivial
  | cons c cs ih =>
    unfold OnlyAsks
    split
    · apply ih
    · refine ⟨fun inner _ => ?_, ih⟩
      apply Program.onlyAsks_of_forall h

/-- A batch seals gadgets with the names of its requests and of those that these come to, however it
    ends. -/
theorem sealsWithin_runBatch (hclosed : requests.Closed)
    (hnames : ∀ ex c, requests ex c → names c.record.schema.uniqueName)
    (hcs : OnlyAsks requests ex seen cs) : ex.SealsWithin names (runBatch ex seen cs).1 := by
  induction cs generalizing ex seen with
  | nil => exact .refl ex
  | cons c cs ih =>
    unfold OnlyAsks at hcs
    by_cases hseen : c.record.schema.uniqueName ∈ seen
    · rw [if_pos hseen] at hcs
      rw [runBatch_cons_of_mem hseen]
      have hskipped : ex.SealsWithin names
          (ex.note (.skippedCircuit c.record.schema.uniqueName)) := .note (.refl ex) rfl
      exact hskipped.trans (ih hcs)
    · rw [if_neg hseen] at hcs
      -- The circuit and the rest of the batch seal within the set, so both after each other do.
      have hfirst := sealsWithin_runCircuit hclosed hnames hcs.1
      have hrest := ih hcs.2
      simp only [runBatch, if_neg hseen]
      cases hrun : runCircuit ex c with
      | mk mid result =>
        rw [hrun] at hfirst hrest
        cases result with
        | error stop => exact hfirst
        | ok recorded =>
          obtain ⟨s, code⟩ := recorded
          cases hd : Definition.ofCircuit c.record.schema.uniqueName s.args code with
          | error p => simpa only [hd] using hfirst
          | ok d => simpa only [hd] using hfirst.trans hrest

end Extraction

/-! ### Files -/

namespace Document

/-- Whether a document defines its circuits under different names, and no gadget under any of
    these. -/
structure NamesApart (doc : Document) : Prop where
  circuits : (doc.circuits.map (·.name)).Nodup
  gadgets : ∀ d ∈ doc.circuits, ∀ g ∈ doc.gadgets, d.name ≠ g.name

/-- Whether a document has circuits of the names `circuits`, and gadgets of the names that a journal
    tells to be sealed. -/
structure Named (doc : Document) (circuits : List String) (journal : List Event) : Prop where
  circuits : doc.circuits.map (·.name) = circuits
  gadgets : doc.gadgets.map (·.name) = Event.sealedNames journal

theorem not_namesApart_of_mem {doc : Document} {name : String}
    (hcircuit : name ∈ doc.circuits.map (·.name)) (hgadget : name ∈ doc.gadgets.map (·.name)) :
    ¬ doc.NamesApart := by
  intro hapart
  obtain ⟨d, hd, hdname⟩ := List.mem_map.mp hcircuit
  obtain ⟨g, hg, hgname⟩ := List.mem_map.mp hgadget
  exact hapart.gadgets d hd g hg (hdname.trans hgname.symm)

/-- Circuits of different names are apart from the gadgets if none of them was sealed. -/
theorem Named.namesApart_iff {doc : Document} {circuits : List String} {journal : List Event}
    (h : doc.Named circuits journal) (hnodup : circuits.Nodup) :
    doc.NamesApart ↔ ∀ name ∈ circuits, name ∉ Event.sealedNames journal := by
  -- The names of both kinds are known, so it is enough to compare these.
  rw [← h.circuits] at hnodup
  constructor
  · intro hapart name hname hsealed
    rw [← h.circuits] at hname
    rw [← h.gadgets] at hsealed
    exact not_namesApart_of_mem hname hsealed hapart
  · intro hunsealed
    refine ⟨hnodup, ?_⟩
    intro d hd g hg hsame
    have hname : d.name ∈ circuits := h.circuits ▸ List.mem_map_of_mem hd
    have hsealed : g.name ∈ Event.sealedNames journal := h.gadgets ▸ List.mem_map_of_mem hg
    exact hunsealed d.name hname (hsame ▸ hsealed)

end Document

/-- What a recording has sealed since its start is its whole table, and its journal tells it. -/
theorem Extractor.SealsWithin.names_eq {names : String → Prop} {field : ScalarField}
    {done : Extractor} (h : (Extractor.start field).SealsWithin names done) :
    done.gadgets.map (·.name) = Event.sealedNames done.journal ∧
      ∀ name ∈ Event.sealedNames done.journal, names name := by
  obtain ⟨new, hseals, hnew⟩ := h
  have htable : done.gadgets.map (·.name) = new := hseals.table
  have hjournal : Event.sealedNames done.journal = new := hseals.journal
  rw [htable, hjournal]
  exact ⟨rfl, hnew⟩

namespace Extraction

/-- The journal of a file that was made is that of the recording behind it, after the opening. -/
theorem sealedNames_guarded {opening : Event} {done : Extractor × Except Stop Document}
    {doc : Document} (hopening : opening.sealedName? = none) (h : done.2 = .ok doc) :
    Event.sealedNames (guarded opening done).journal = Event.sealedNames done.1.journal := by
  obtain ⟨ex, result⟩ := done
  obtain rfl : result = .ok doc := h
  -- Only a panic is noted at the end, and there was none.
  show Event.sealedNames (opening :: ex.journal) = Event.sealedNames ex.journal
  simp [Event.sealedNames, hopening]

/-- The file of a batch has circuits of the unique names of its list, and gadgets of the names that
    the batch seals. -/
theorem named_of_ofCircuits {names : String → Prop} {cfg : Config} {scope : String}
    {cs : List Component} (hseals : Extractor.SealsWithin names (.start cfg.field)
      (runBatch (.start cfg.field) [] cs).1) {doc : Document}
    (hdoc : (ofCircuits cfg scope cs).result = .ok doc) :
    doc.Named ((Component.firsts cs).map (·.record.schema.uniqueName))
        (ofCircuits cfg scope cs).journal ∧
      ∀ name ∈ Event.sealedNames (ofCircuits cfg scope cs).journal, names name := by
  obtain ⟨done, circuits, ds, hrun, hds, hmade⟩ := ofCircuits_eq_ok_iff.mp hdoc
  -- Rendering enters nothing into the journal that tells of a gadget.
  have hjournal : Event.sealedNames (ofCircuits cfg scope cs).journal =
      Event.sealedNames done.journal := by
    unfold ofCircuits at hdoc ⊢
    rw [sealedNames_guarded rfl (guarded_eq_ok_iff.mp hdoc)]
    simp only [hrun]
  have hcircuits := map_name_of_runBatch hrun
  rw [hrun] at hseals
  obtain ⟨htable, hasked⟩ := hseals.names_eq
  rw [Component.unseen_nil] at hcircuits
  rw [hjournal]
  subst hmade
  refine ⟨⟨hcircuits, ?_⟩, hasked⟩
  rw [hjournal, ← htable]
  exact Definition.map_name_of_mapM hds

/-- The file of a circuit has one circuit, `circuit`, and gadgets of the names that the circuit
    seals. -/
theorem named_of_ofCircuit {names : String → Prop} {cfg : Config} {c : Component}
    (hseals : Extractor.SealsWithin names (.start cfg.field) (runCircuit (.start cfg.field) c).1)
    {doc : Document} (hdoc : (ofCircuit cfg c).result = .ok doc) :
    doc.Named ["circuit"] (ofCircuit cfg c).journal ∧
      ∀ name ∈ Event.sealedNames (ofCircuit cfg c).journal, names name := by
  obtain ⟨own, d, ds, hleaves, hds, hmade⟩ := ofCircuit_eq_ok_iff.mp hdoc
  have hname := hleaves.name_eq
  obtain ⟨s, code, hrun, -⟩ := hleaves
  -- Rendering enters nothing into the journal that tells of a gadget.
  have hjournal : Event.sealedNames (ofCircuit cfg c).journal =
      Event.sealedNames own.journal := by
    unfold ofCircuit at hdoc ⊢
    rw [sealedNames_guarded rfl (guarded_eq_ok_iff.mp hdoc)]
    simp only [hrun]
  rw [hrun] at hseals
  obtain ⟨htable, hasked⟩ := hseals.names_eq
  rw [hjournal]
  subst hmade
  refine ⟨⟨?_, ?_⟩, hasked⟩
  · show [d.name] = ["circuit"]
    rw [hname]
  · rw [hjournal, ← htable]
    exact Definition.map_name_of_mapM hds

/-- A file has its circuits under their unique names, or under `circuit`, and its gadgets under the
    names that the journal tells to be sealed. The names of the circuits are different, and apart
    from those of the gadgets exactly if none of them was sealed, as when no circuit on its run, and
    no gadget that it comes to, asks for a gadget of such a name. -/
theorem circuits_apart_iff (cfg : Config) :
    (∀ (scope : String) (cs : List Component) (doc : Document),
      (ofCircuits cfg scope cs).result = .ok doc →
        doc.Named ((Component.firsts cs).map (·.record.schema.uniqueName))
          (ofCircuits cfg scope cs).journal ∧
        (doc.NamesApart ↔ ∀ c ∈ cs,
          c.record.schema.uniqueName ∉ Event.sealedNames (ofCircuits cfg scope cs).journal) ∧
        ∀ requests : Requests, requests.Closed → OnlyAsks requests (.start cfg.field) [] cs →
          (∀ ex asked, requests ex asked →
            ∀ c ∈ cs, c.record.schema.uniqueName ≠ asked.record.schema.uniqueName) →
              doc.NamesApart) ∧
    ∀ (c : Component) (doc : Document), (ofCircuit cfg c).result = .ok doc →
      doc.Named ["circuit"] (ofCircuit cfg c).journal ∧
      (doc.NamesApart ↔ "circuit" ∉ Event.sealedNames (ofCircuit cfg c).journal) ∧
      ∀ requests : Requests, requests.Closed → c.OnlyAsks requests (.start cfg.field) →
        (∀ ex asked, requests ex asked → "circuit" ≠ asked.record.schema.uniqueName) →
          doc.NamesApart := by
  -- The names hold whatever is asked for; only the last part is about some requests.
  let every : Requests := fun _ _ => True
  have hevery : every.Closed := fun _ _ _ _ inner _ =>
    Program.onlyAsks_of_forall (fun _ _ => trivial) _ _
  constructor
  · intro scope cs doc hdoc
    have hseals : Extractor.SealsWithin (fun _ => True) (.start cfg.field)
        (runBatch (.start cfg.field) [] cs).1 :=
      sealsWithin_runBatch hevery (fun _ _ _ => trivial) (onlyAsks_of_forall fun _ _ => trivial)
    obtain ⟨hnamed, -⟩ := named_of_ofCircuits hseals hdoc
    have hiff : doc.NamesApart ↔ ∀ c ∈ cs,
        c.record.schema.uniqueName ∉ Event.sealedNames (ofCircuits cfg scope cs).journal := by
      rw [hnamed.namesApart_iff (Component.nodup_names_firsts cs)]
      simp [Component.mem_names_firsts]
    refine ⟨hnamed, hiff, ?_⟩
    intro requests hclosed hcs hother
    have hseals : Extractor.SealsWithin (fun name => ∀ c ∈ cs, c.record.schema.uniqueName ≠ name)
        (.start cfg.field) (runBatch (.start cfg.field) [] cs).1 :=
      sealsWithin_runBatch hclosed hother hcs
    obtain ⟨-, hasked⟩ := named_of_ofCircuits hseals hdoc
    rw [hiff]
    intro c hc hsealed
    exact hasked _ hsealed c hc rfl
  · intro c doc hdoc
    have hseals : Extractor.SealsWithin (fun _ => True) (.start cfg.field)
        (runCircuit (.start cfg.field) c).1 :=
      sealsWithin_runCircuit hevery (fun _ _ _ => trivial)
        (fun _ _ => Program.onlyAsks_of_forall (fun _ _ => trivial) _ _)
    obtain ⟨hnamed, -⟩ := named_of_ofCircuit hseals hdoc
    have hiff : doc.NamesApart ↔ "circuit" ∉ Event.sealedNames (ofCircuit cfg c).journal := by
      simpa using hnamed.namesApart_iff (List.nodup_singleton "circuit")
    refine ⟨hnamed, hiff, ?_⟩
    intro requests hclosed hc hother
    have hseals : Extractor.SealsWithin ("circuit" ≠ ·) (.start cfg.field)
        (runCircuit (.start cfg.field) c).1 := sealsWithin_runCircuit hclosed hother hc
    obtain ⟨-, hasked⟩ := named_of_ofCircuit hseals hdoc
    rw [hiff]
    intro hsealed
    exact hasked "circuit" hsealed rfl

/-- A circuit that calls the square of its signal, twice in a batch and on its own. -/
theorem circuits_apart_iff_square :
    (∃ doc, (ofCircuits .standard "Squares" [Program.squareByCall, Program.squareByCall]).result =
        .ok doc ∧ doc.circuits.map (·.name) = ["Outer"] ∧
          doc.gadgets.map (·.name) = ["Square"] ∧ doc.NamesApart) ∧
      ∃ doc, (ofCircuit .standard Program.squareByCall).result = .ok doc ∧
        doc.circuits.map (·.name) = ["circuit"] ∧ doc.gadgets.map (·.name) = ["Square"] ∧
          doc.NamesApart := by
  let requests : Requests := fun _ asked =>
    asked.record.schema.uniqueName = "Square" ∧ asked.body = Program.square.body
  -- The square asks for nothing further, so the set is closed.
  have hclosed : requests.Closed := by
    rintro ex ⟨r, body⟩ ⟨-, rfl⟩ _ inner _
    exact Program.onlyAsks_ofOperation _
  -- The circuit is recorded on its one placeholder, and only asks for the square.
  have hasks : ∀ ex, Program.squareByCall.OnlyAsks requests ex := by
    intro ex inner hinner
    obtain rfl : _ = inner := congrArg Prod.fst hinner
    exact Program.onlyAsks_call ⟨by rfl, rfl⟩
  have hname : Program.squareByCall.record.schema.uniqueName = "Outer" := rfl
  obtain ⟨hbatch, halone⟩ := circuits_apart_iff .standard
  constructor
  · obtain ⟨doc, hdoc, hcircuits, hgadgets⟩ := exists_of_map_names (show
      (ofCircuits .standard "Squares" [Program.squareByCall, Program.squareByCall]).result.toOption.map _ =
        some (["Outer"], ["Square"]) by decide +kernel)
    obtain ⟨-, -, hapart⟩ := hbatch _ _ doc hdoc
    -- The second circuit of the batch has the name of the first and is passed over.
    have hcs : OnlyAsks requests (.start Config.standard.field) []
        [Program.squareByCall, Program.squareByCall] := by
      simp [OnlyAsks, hasks]
    refine ⟨doc, hdoc, hcircuits, hgadgets, hapart requests hclosed hcs ?_⟩
    rintro ex asked ⟨hsquare, -⟩
    simp [hsquare, hname]
  · obtain ⟨doc, hdoc, hcircuits, hgadgets⟩ := exists_of_map_names (show
      (ofCircuit .standard Program.squareByCall).result.toOption.map _ =
        some (["circuit"], ["Square"]) by decide +kernel)
    obtain ⟨-, -, hapart⟩ := halone _ doc hdoc
    refine ⟨doc, hdoc, hcircuits, hgadgets, hapart requests hclosed (hasks _) ?_⟩
    rintro ex asked ⟨hsquare, -⟩
    simp [hsquare]

/-- A batch of a circuit that calls the square and of the square itself, which the file then defines
    twice under one name; and a circuit that calls a gadget of the type `circuit`. -/
theorem not_circuits_apart :
    (∃ doc, (ofCircuits .standard "Squares" [Program.squareByCall, Program.square]).result =
        .ok doc ∧ doc.circuits.map (·.name) = ["Outer", "Square"] ∧
          doc.gadgets.map (·.name) = ["Square"] ∧ ¬ doc.NamesApart) ∧
      ∃ c doc, (ofCircuit .standard c).result = .ok doc ∧
        doc.circuits.map (·.name) = ["circuit"] ∧ doc.gadgets.map (·.name) = ["circuit"] ∧
          ¬ doc.NamesApart := by
  constructor
  · obtain ⟨doc, hdoc, hcircuits, hgadgets⟩ := exists_of_map_names (show
      (ofCircuits .standard "Squares" [Program.squareByCall, Program.square]).result.toOption.map _ =
        some (["Outer", "Square"], ["Square"]) by decide +kernel)
    have hcircuit : "Square" ∈ doc.circuits.map (·.name) := by simp [hcircuits]
    have hgadget : "Square" ∈ doc.gadgets.map (·.name) := by simp [hgadgets]
    exact ⟨doc, hdoc, hcircuits, hgadgets, Document.not_namesApart_of_mem hcircuit hgadget⟩
  · let c : Component :=
      ⟨⟨"Main", [⟨"x", .signal (.wire .nil)⟩]⟩, fun inner =>
        .call ⟨"circuit", inner.fields⟩ Program.square.body⟩
    obtain ⟨doc, hdoc, hcircuits, hgadgets⟩ := exists_of_map_names (show
      (ofCircuit .standard c).result.toOption.map _ = some (["circuit"], ["circuit"]) by decide +kernel)
    have hcircuit : "circuit" ∈ doc.circuits.map (·.name) := by simp [hcircuits]
    have hgadget : "circuit" ∈ doc.gadgets.map (·.name) := by simp [hgadgets]
    exact ⟨c, doc, hdoc, hcircuits, hgadgets, Document.not_namesApart_of_mem hcircuit hgadget⟩

end Extraction

end GateTrace