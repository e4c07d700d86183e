import GateTrace.Proofs.Files
import GateTrace.Proofs.Portability
import Mathlib.Data.List.Nodup

/-! # Batches of gadgets

    What a file of several gadgets defines does not depend on the order in which they are asked for,
    nor on how often each is. The key ideas:

    - A request over a table of the family comes out as it does over a new table. It leaves the
      names that were there and those that it leaves over a new table, no others.
    - So a batch can be recorded exactly if each of its gadgets can be on its own, and then the
      names of its table are those of all that the gadgets record on their own.
    - Gadgets of one name are rendered the same from every table, so files of the same names hold
      the same definitions.
-/

namespace GateTrace

variable {family : Component → Prop} {field : ScalarField}

/-! ### Between components -/

theorem Extractor.Ready.start : (Extractor.start field).Ready family field := ⟨⟨rfl, .nil⟩, rfl⟩

/-- A table that grew like a new one has the names that it had, and those of the new one. -/
theorem Gadget.SameGrowth.mem_names_iff {table grown own : List Gadget}
    (h : SameGrowth table [] grown own) (hgrows : table <+: grown) {name : String} :
    name ∈ grown.map (·.name) ↔ name ∈ table.map (·.name) ∨ name ∈ own.map (·.name) := by
  simp only [List.mem_map]
  constructor
  · rintro ⟨g, hg, rfl⟩
    rcases h.left g hg with hold | hnew
    · exact .inl ⟨g, hold, rfl⟩
    · exact .inr hnew
  · rintro (⟨g, hg, rfl⟩ | ⟨g, hg, rfl⟩)
    · exact ⟨g, hgrows.subset hg, rfl⟩
    · rcases h.right g hg with hnone | hthere
      · cases hnone
      · exact hthere

/-! ### Requests -/

/-- A request for a gadget of the family leaves the trace as it is, and adds to the table. -/
theorem Component.define_grows (h : Coherent family field) {c : Component} (hc : family c)
    {ex : Extractor} (hex : ex.Filled family field) :
    (c.define ex).1.code = ex.code ∧
      Extractor.Grows family field (.handleOf c.record c.body) ex (c.define ex).1 := by
  obtain ⟨p, hp⟩ := h.exists_records hc
  obtain ⟨hcode, hgrows, -⟩ :=
    c.define_obtains h hc hp (hp.grows h (h.keeps c hc)) (hp.part _) hex rfl
  exact ⟨hcode, hgrows⟩

/-- A request for a gadget of the family is answered over every table of the family if it is
    answered over a new one, and adds the names that it leaves there. -/
theorem Component.define_ready (h : Coherent family field) {c : Component} (hc : family c)
    {ex : Extractor} (hex : ex.Ready family field) :
    (c.define ex).1.Ready family field ∧
      ((∃ callee, (c.define ex).2 = .ok callee) ↔
        ∃ callee, (c.define (.start field)).2 = .ok callee) ∧
      ∀ name, name ∈ (c.define ex).1.gadgets.map (·.name) ↔
        name ∈ ex.gadgets.map (·.name) ∨
          name ∈ (c.define (.start field)).1.gadgets.map (·.name) := by
  -- A request over any table of the family goes in step with one over no table at all.
  have hstart : (Extractor.start field).Ready family field := .start
  obtain ⟨hcode, hgrows⟩ := c.define_grows h hc hex.toFilled
  obtain ⟨-, hgrowth, houtcome⟩ :=
    (Extractor.InStep.fresh hex hstart).define h hc hc rfl (·.runAlike h (h.keeps c hc)) rfl rfl
  refine ⟨⟨hgrows.filled, hcode.trans hex.code⟩, ?_, fun name => ?_⟩
  · rcases houtcome with ⟨stop, hstop, hstop'⟩ | ⟨callee, callee', hcallee, hcallee', -⟩
    · constructor
      · rintro ⟨callee, hcallee⟩
        exact absurd (hstop.symm.trans hcallee) (by simp)
      · rintro ⟨callee, hcallee⟩
        exact absurd (hstop'.symm.trans hcallee) (by simp)
    · exact ⟨fun _ => ⟨callee', hcallee'⟩, fun _ => ⟨callee, hcallee⟩⟩
  · exact hgrowth.mem_names_iff hgrows.isPrefix

/-- A request that is answered leaves a gadget of the name that it asked for. -/
theorem Component.name_mem_of_define (h : Coherent family field) {c : Component} (hc : family c)
    {ex : Extractor} (hex : ex.Ready family field) {callee : Callee}
    (hcallee : (c.define ex).2 = .ok callee) :
    c.record.schema.uniqueName ∈ (c.define ex).1.gadgets.map (·.name) := by
  -- The request is in step with itself, so its handle agrees with itself.
  obtain ⟨-, -, ⟨stop, hstop, -⟩ | ⟨_, _, -, -, hname, -, hstep⟩⟩ :=
    (Extractor.InStep.fresh hex hex).define h hc hc rfl (·.runAlike h (h.keeps c hc)) rfl rfl
  · exact absurd (hstop.symm.trans hcallee) (by simp)
  · obtain ⟨⟨g, hg, hgname⟩, -⟩ := (hstep.handles _ List.mem_cons_self).exists_mem_name
    exact List.mem_map.mpr ⟨g, hg, hgname.trans hname⟩

namespace Extraction

/-- A batch of gadgets is recorded to its end exactly if each of them can be recorded on its own.
    The names that it adds are those that its gadgets leave on new tables. -/
theorem defineAll_ready (h : Coherent family field) {cs : List Component} (hcs : ∀ c ∈ cs, family c)
    {ex : Extractor} (hex : ex.Ready family field) :
    ((∃ ex', defineAll ex cs = (ex', .ok ())) ↔
      ∀ c ∈ cs, ∃ callee, (c.define (.start field)).2 = .ok callee) ∧
    ∀ ex', defineAll ex cs = (ex', .ok ()) → ex'.Ready family field ∧
      ∀ name, name ∈ ex'.gadgets.map (·.name) ↔ name ∈ ex.gadgets.map (·.name) ∨
        ∃ c ∈ cs, name ∈ (c.define (.start field)).1.gadgets.map (·.name) := by
  induction cs generalizing ex with
  | nil =>
    refine ⟨⟨fun _ => by simp, fun _ => ⟨ex, rfl⟩⟩, ?_⟩
    intro ex' hdone
    obtain rfl : ex = ex' := congrArg Prod.fst hdone
    exact ⟨hex, by simp⟩
  | cons c cs ih =>
    obtain ⟨hready, hiff, hnames⟩ := c.define_ready h (hcs c (by simp)) hex
    have hrest : ∀ c' ∈ cs, family c' := fun c' hc' => hcs c' (by simp [hc'])
    cases hfirst : c.define ex with
    | mk ex₁ result =>
      rw [hfirst] at hready hiff hnames
      cases result with
      | error stop =>
        -- What fails here fails on a new table as well.
        have hfails : ¬ ∃ callee, (c.define (.start field)).2 = .ok callee := by
          rw [← hiff]
          simp
        have hdefine : defineAll ex (c :: cs) = (ex₁, .error stop) := by
          simp only [defineAll, hfirst]
        refine ⟨⟨?_, fun hall => absurd (hall c (by simp)) hfails⟩, ?_⟩
        · rintro ⟨ex', hdone⟩
          simp [hdefine] at hdone
        · intro ex' hdone
          simp [hdefine] at hdone
      | ok callee =>
        have hdefine : defineAll ex (c :: cs) = defineAll ex₁ cs := by
          simp only [defineAll, hfirst]
        obtain ⟨hall, hgrown⟩ := ih hrest hready
        rw [hdefine]
        refine ⟨?_, ?_⟩
        · rw [hall, List.forall_mem_cons]
          exact ⟨fun hothers => ⟨hiff.mp ⟨callee, rfl⟩, hothers⟩, fun hboth => hboth.2⟩
        · intro ex' hdone
          obtain ⟨hready', hnames'⟩ := hgrown ex' hdone
          refine ⟨hready', fun name => ?_⟩
          rw [hnames', hnames, or_assoc, List.exists_mem_cons_iff]

end Extraction

/-! ### Tables that are rendered -/

namespace Gadget.Memoized

variable {table table' : List Gadget}

/-- A gadget whose name is in another table of the family can be rendered if that table can. -/
theorem exists_ofGadget_of_name (h : Coherent family field) (htable : Memoized family field table)
    (htable' : Memoized family field table') {g : Gadget} (hg : g ∈ table)
    (hname : g.name ∈ table'.map (·.name)) {ds' : List Definition}
    (hds' : table'.mapM Definition.ofGadget = .ok ds') :
    ∃ d ∈ ds', Definition.ofGadget g = .ok d := by
  obtain ⟨g', hg', hsame⟩ := htable.exists_ofGadget_eq h htable' hg hname
  obtain ⟨d, hd⟩ := exists_mapM_eq_ok_iff.mp ⟨ds', hds'⟩ g' hg'
  exact ⟨d, (Definition.mem_of_mapM_ofGadget hds').mpr ⟨g', hg', hd⟩, hsame.symm.trans hd⟩

/-- A table of the family can be rendered if one with all its names can. -/
theorem exists_mapM_of_names (h : Coherent family field) (htable : Memoized family field table)
    (htable' : Memoized family field table') (hnames : table.map (·.name) ⊆ table'.map (·.name))
    {ds' : List Definition} (hds' : table'.mapM Definition.ofGadget = .ok ds') :
    ∃ ds, table.mapM Definition.ofGadget = .ok ds := by
  refine exists_mapM_eq_ok_iff.mpr fun g hg => ?_
  obtain ⟨d, -, hd⟩ :=
    htable.exists_ofGadget_of_name h htable' hg (hnames (List.mem_map_of_mem hg)) hds'
  exact ⟨d, hd⟩

/-- What a table of the family defines is defined by one with all its names. -/
theorem definitions_subset_of_names (h : Coherent family field) (htable : Memoized family field table)
    (htable' : Memoized family field table') (hnames : table.map (·.name) ⊆ table'.map (·.name))
    {ds ds' : List Definition} (hds : table.mapM Definition.ofGadget = .ok ds)
    (hds' : table'.mapM Definition.ofGadget = .ok ds') : ds ⊆ ds' := by
  intro d hd
  obtain ⟨g, hg, hrendered⟩ := (Definition.mem_of_mapM_ofGadget hds).mp hd
  obtain ⟨d', hd', hrendered'⟩ :=
    htable.exists_ofGadget_of_name h htable' hg (hnames (List.mem_map_of_mem hg)) hds'
  obtain rfl : d = d' := Except.ok.inj (hrendered.symm.trans hrendered')
  exact hd'

end Gadget.Memoized

/-! ### Files in any order -/

/-- Gadgets of a coherent family that can be put into one file can be put into a file in any order,
    and each as often as one likes. Such a file is the same up to the order of its definitions, of
    which it has one of a name and one for each gadget asked for; and both files define every gadget
    before it is called. -/
theorem Extraction.ofGadgets_perm {cfg : Config} (h : Coherent family cfg.field) {scope : String}
    {cs cs' : List Component} (hcs : ∀ c ∈ cs, family c) (hsame : ∀ c, c ∈ cs' ↔ c ∈ cs)
    {doc : Document} (hdoc : (ofGadgets cfg scope cs).result = .ok doc) :
    ∃ ds, (ofGadgets cfg scope cs').result = .ok { doc with gadgets := ds } ∧
      ds.Perm doc.gadgets ∧ (ds.map (·.name)).Nodup ∧
        (∀ c ∈ cs, c.record.schema.uniqueName ∈ ds.map (·.name)) ∧ doc.Ordered ∧
          Document.Ordered { doc with gadgets := ds } := by
  have hcs' : ∀ c ∈ cs', family c := fun c hc => hcs c ((hsame c).mp hc)
  obtain ⟨ex, ds, hdefine, hds, rfl⟩ := document_eq_ok_iff.mp (guarded_eq_ok_iff.mp hdoc)
  have hstart : (Extractor.start cfg.field).Ready family cfg.field := .start
  obtain ⟨hiff, hgrown⟩ := defineAll_ready h hcs hstart
  obtain ⟨hiff', hgrown'⟩ := defineAll_ready h hcs' hstart
  -- Each gadget can be recorded on its own, so the other batch can be recorded too.
  have halone := hiff.mp ⟨ex, hdefine⟩
  obtain ⟨ex', hdefine'⟩ := hiff'.mpr fun c hc => halone c ((hsame c).mp hc)
  obtain ⟨hready, hnames⟩ := hgrown ex hdefine
  obtain ⟨hready', hnames'⟩ := hgrown' ex' hdefine'
  have hiffNames : ∀ name, name ∈ ex'.gadgets.map (·.name) ↔ name ∈ ex.gadgets.map (·.name) := by
    intro name
    rw [hnames, hnames']
    simp only [hsame]
  have hsub : ex.gadgets.map (·.name) ⊆ ex'.gadgets.map (·.name) :=
    fun name hname => (hiffNames name).mpr hname
  have hsub' : ex'.gadgets.map (·.name) ⊆ ex.gadgets.map (·.name) :=
    fun name hname => (hiffNames name).mp hname
  obtain ⟨ds', hds'⟩ := hready'.table.exists_mapM_of_names h hready.table hsub' hds
  obtain ⟨hordered, hnodup⟩ := hready.table.definitions_ordered h hds
  obtain ⟨hordered', hnodup'⟩ := hready'.table.definitions_ordered h hds'
  refine ⟨ds', ?_, ?_, hnodup', ?_, ⟨hordered, by simp [Config.document]⟩,
    ⟨hordered', by simp [Config.document]⟩⟩
  · exact guarded_eq_ok_iff.mpr (document_eq_ok_iff.mpr ⟨ex', ds', hdefine', hds', rfl⟩)
  · refine (List.perm_ext_iff_of_nodup (List.Nodup.of_map _ hnodup')
      (List.Nodup.of_map _ hnodup)).mpr fun d => ⟨?_, ?_⟩
    · exact fun hd => hready'.table.definitions_subset_of_names h hready.table hsub' hds' hds hd
    · exact fun hd => hready.table.definitions_subset_of_names h hready'.table hsub hds hds' hd
  · intro c hc
    obtain ⟨callee, hcallee⟩ := halone c hc
    have hown := c.name_mem_of_define h (hcs c hc) hstart hcallee
    rw [Definition.map_name_of_mapM hds']
    exact hsub ((hnames _).mpr (.inr ⟨c, hc, hown⟩))

/-- Rows that are swapped twice and a fourth power, and both in the other order with the rows asked
    for twice. Each is a gadget that passes its own signal to another gadget, and then what this
    answers. -/
theorem Extraction.ofGadgets_perm_samples :
    let cs : List Component := [Declaration.swapTwiceOf .nil, Declaration.fourthOf .nil]
    let cs' : List Component :=
      [Declaration.fourthOf .nil, Declaration.swapTwiceOf .nil, Declaration.swapTwiceOf .nil]
    (∀ c, c ∈ cs' ↔ c ∈ cs) ∧
      ∃ doc, (ofGadgets .standard "Samples" cs).result = .ok doc ∧
        doc.gadgets.map (·.name) = ["SwapRows_2_2", "SwapTwice_2_2", "Square", "Fourth"] ∧
          ∃ ds, (ofGadgets .standard "Samples" cs').result = .ok { doc with gadgets := ds } ∧
            ds.Perm doc.gadgets ∧ (ds.map (·.name)).Nodup ∧
              (∀ c ∈ cs, c.record.schema.uniqueName ∈ ds.map (·.name)) ∧ doc.Ordered ∧
                Document.Ordered { doc with gadgets := ds } := by
  intro cs cs'
  have hcs : ∀ c ∈ cs, Declaration.Family Declaration.samples c := by
    simp [cs, Declaration.family_fourthOf, Declaration.family_swapTwiceOf]
  have hsame : ∀ c, c ∈ cs' ↔ c ∈ cs := by
    intro c
    simp only [cs, cs', List.mem_cons, List.not_mem_nil, or_false]
    tauto
  obtain ⟨doc, hdoc, -, hnames⟩ := exists_of_map_names (show
    (ofGadgets .standard "Samples" cs).result.toOption.map _ =
      some ([], ["SwapRows_2_2", "SwapTwice_2_2", "Square", "Fourth"]) by decide +kernel)
  exact ⟨hsame, doc, hdoc, hnames, ofGadgets_perm Declaration.coherent_samples hcs hsame hdoc⟩

end GateTrace
