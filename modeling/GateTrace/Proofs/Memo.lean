import GateTrace.Proofs.Agreement
import GateTrace.Proofs.DeclaredTypes
import GateTrace.Proofs.Restoration

/-! # The gadget table does not show

    Over a coherent family two runs of programs that are alike come out the same, whatever the
    tables held before. The key ideas:

    - The two runs are kept in step: their traces agree, and so do the handles they hold.
    - A request that finds its gadget and one that records it have in common that some run of the
      gadget's definition from an empty trace gave the answer. So the two runs of the definition are
      compared, whenever they took place.
    - What is new in the one table is there in the other, new or not: what a gadget's definition
      asked for when it was recorded is in the table before the gadget.
-/

namespace GateTrace

/-! ### Runs in step -/

/-- Two recordings in step, by programs that hold `handles`. -/
structure Extractor.InStep (family : Component → Prop) (field : ScalarField) (handles : Handles)
    (ex ex' : Extractor) : Prop where
  filled : ex.Filled family field
  filled' : ex'.Filled family field
  code : Trace.Agree ex.gadgets ex'.gadgets ex.code ex'.code
  handles : ∀ x ∈ handles, Op.Agree ex.gadgets ex'.gadgets (.call x.1) (.call x.2)

/-- Runs that come out the same: their traces agree, and so do their outcomes. -/
structure Program.SameEnd (done done' : Extractor × Except Stop Answer) : Prop where
  code : Trace.Agree done.1.gadgets done'.1.gadgets done.1.code done'.1.code
  outcome : Answer.SameOutcome done.1.gadgets done'.1.gadgets done.2 done'.2

/-- Tables that grew alike: what is new in the one has its name in the other. -/
structure Gadget.SameGrowth (table table' grown grown' : List Gadget) : Prop where
  left : ∀ g ∈ grown, g ∈ table ∨ ∃ g' ∈ grown', g'.name = g.name
  right : ∀ g ∈ grown', g ∈ table' ∨ ∃ g' ∈ grown, g'.name = g.name

theorem Gadget.SameGrowth.refl (table table' : List Gadget) :
    SameGrowth table table' table table' :=
  ⟨fun _ hg => .inl hg, fun _ hg => .inl hg⟩

/-- Tables that grew alike, and then grew alike again, grew alike. -/
theorem Gadget.SameGrowth.trans {table table' mid mid' grown grown' : List Gadget}
    (h : SameGrowth table table' mid mid') (h' : SameGrowth mid mid' grown grown')
    (hgrows : mid <+: grown) (hgrows' : mid' <+: grown') :
    SameGrowth table table' grown grown' := by
  constructor
  · intro g hg
    -- What is new at the end was new in the middle, or came after it.
    rcases h'.left g hg with hmid | hother
    · rcases h.left g hmid with hold | ⟨g', hg', hname⟩
      · exact .inl hold
      · exact .inr ⟨g', hgrows'.subset hg', hname⟩
    · exact .inr hother
  · intro g hg
    rcases h'.right g hg with hmid | hother
    · rcases h.right g hmid with hold | ⟨g', hg', hname⟩
      · exact .inl hold
      · exact .inr ⟨g', hgrows.subset hg', hname⟩
    · exact .inr hother

/-- Runs of two programs that come out the same, over tables that grow alike. -/
structure Program.RunAlike (p q : Program) (ex ex' : Extractor) : Prop where
  sameEnd : SameEnd (p.run ex) (q.run ex')
  growth : Gadget.SameGrowth ex.gadgets ex'.gadgets (p.run ex).1.gadgets (q.run ex').1.gadgets

variable {family : Component → Prop} {field : ScalarField} {handles : Handles}
  {ex ex' : Extractor}

namespace Extractor.InStep

/-- Recordings on empty traces are in step before anything is asked for. -/
theorem fresh (h : ex.Ready family field) (h' : ex'.Ready family field) :
    InStep family field [] ex ex' := by
  refine ⟨h.toFilled, h'.toFilled, ?_, by simp⟩
  rw [h.code, h'.code]
  exact .nil

theorem push (h : InStep family field handles ex ex') {n n' : Node} (hargs : n.args = n'.args)
    (hop : n.op.Agree ex.gadgets ex'.gadgets n'.op) :
    InStep family field handles (ex.push n) (ex'.push n') :=
  ⟨⟨h.filled.sameField, h.filled.table⟩, ⟨h.filled'.sameField, h.filled'.table⟩,
    h.code.push hargs hop, h.handles⟩

/-- A primitive operation ends the same in both recordings. -/
theorem perform (h : InStep family field handles ex ex') (o : Operation) :
    (∃ e, ex.perform o = .error e ∧ ex'.perform o = .error e) ∨
      ∃ n v, ex.perform o = .ok (ex.push n, v) ∧ ex'.perform o = .ok (ex'.push n, v) ∧
        InStep family field handles (ex.push n) (ex'.push n) := by
  have hfield : ex.field = ex'.field := h.filled.sameField.trans h.filled'.sameField.symm
  unfold Extractor.perform
  rw [← hfield, ← h.code.length]
  cases hnode : o.node ex.field with
  | error e => exact .inl ⟨e, rfl, rfl⟩
  | ok n =>
    have hgate : n.op.Agree ex.gadgets ex'.gadgets n.op := by
      obtain ⟨ops, -, ⟨_, _, -, rfl⟩ | ⟨-, rfl⟩⟩ := Operation.node_eq_ok hnode
      · exact .gate
      · exact .gate
    exact .inr ⟨n, _, rfl, rfl, h.push rfl hgate⟩

/-- A call of gadgets that agree, on the same values, ends the same in both recordings. -/
theorem invoke (h : InStep family field handles ex ex') {c c' : Callee} {r r' : Record}
    (hcallee : (c, c') ∈ handles) (hvalues : r.values = r'.values) :
    (∃ e, ex.invoke c r = .error e ∧ ex'.invoke c' r' = .error e) ∨
      ∃ n n' v, ex.invoke c r = .ok (ex.push n, v) ∧ ex'.invoke c' r' = .ok (ex'.push n', v) ∧
        InStep family field handles (ex.push n) (ex'.push n') := by
  -- Handles that play one part are of gadgets with one signature, which is all a call looks at.
  have hagree := h.handles _ hcallee
  have hsignature : c.toSignature = c'.toSignature := hagree.signature
  have hname : c.name = c'.name := congrArg Signature.name hsignature
  have harity : c.arity = c'.arity := congrArg Signature.arity hsignature
  have hresult : c.result ex.code.length = c'.result ex'.code.length := by
    unfold Callee.result
    rw [congrArg Signature.output hsignature, h.code.length]
  rw [Extractor.invoke_eq, Extractor.invoke_eq, ← hvalues, ← hresult, ← hname, ← harity]
  by_cases hlen : r.values.length = c.arity
  · rw [if_pos hlen, if_pos hlen]
    cases Value.toOperands r.values with
    | error e => exact .inl ⟨e, rfl, rfl⟩
    | ok ops => exact .inr ⟨⟨.call c, ops⟩, ⟨.call c', ops⟩, _, rfl, rfl, h.push rfl hagree⟩
  · rw [if_neg hlen, if_neg hlen]
    exact .inl ⟨_, rfl, rfl⟩

/-- The handles that a request is answered with go with those that are held. -/
theorem obtained (h : InStep family field handles ex ex') {done done' : Extractor}
    {p p' : Program} (hgrows : Grows family field p ex done)
    (hgrows' : Grows family field p' ex' done') (hcode : done.code = ex.code)
    (hcode' : done'.code = ex'.code) : InStep family field handles done done' := by
  refine ⟨hgrows.filled, hgrows'.filled, ?_, fun x hx => ?_⟩
  · rw [hcode, hcode']
    exact h.code.mono hgrows.isPrefix hgrows'.isPrefix
  · exact (h.handles x hx).mono hgrows.isPrefix hgrows'.isPrefix

end Extractor.InStep

/-- Requests are answered the same if the runs behind the answers come out the same. -/
theorem Extractor.Answers.agree {s : Schema} {done done' : Extractor} {table table' : List Gadget}
    {result result' : Except Stop Answer} {x x' : Except Stop Callee}
    (h : Answers s done table result x) (h' : Answers s done' table' result' x')
    (hsame : Program.SameEnd (done, result) (done', result')) (hgrow : done.gadgets <+: table)
    (hgrow' : done'.gadgets <+: table') :
    (∃ stop, x = .error stop ∧ x' = .error stop) ∨
      ∃ c c', x = .ok c ∧ x' = .ok c' ∧ c.name = s.uniqueName ∧
        Op.Agree table table' (.call c) (.call c') := by
  obtain ⟨hcode, houtcome⟩ := hsame
  -- Both answers go by what the runs answered, so they fail together or are entries together.
  cases houtcome with
  | error =>
    cases h with
    | stopped =>
      cases h' with
      | stopped => exact .inl ⟨_, rfl, rfl⟩
  | ok hanswer =>
    have hvalue := hanswer.toValue_eq
    cases h with
    | unreadable hout =>
      cases h' with
      | unreadable hout' =>
        rw [hvalue, hout'] at hout
        obtain rfl := Except.error.inj hout
        exact .inl ⟨_, rfl, rfl⟩
      | enrolled hout' _ =>
        rw [hvalue, hout'] at hout
        contradiction
    | enrolled hout hentry =>
      cases h' with
      | unreadable hout' =>
        rw [hvalue, hout'] at hout
        contradiction
      | enrolled hout' hentry' =>
        rw [hvalue, hout'] at hout
        obtain rfl := Except.ok.inj hout
        refine .inr ⟨_, _, rfl, rfl, rfl, ?_⟩
        exact Op.agree_call_iff.mpr
          ⟨_, _, hentry, hentry', rfl, rfl, rfl, hcode.mono hgrow hgrow'⟩

/-- What a request adds to the table is in another table too, if that holds what the gadget's
    definition adds, and the gadget if the request is answered. -/
theorem Component.define_adds {c : Component} {p : Program} (hp : c.Records c.record.schema p)
    {mid : Extractor} {result : Except Stop Callee} (hdefined : c.define ex = (mid, result))
    {table : List Gadget}
    (hinside : ∀ g ∈ (p.run
      { ex.note (.extractingGadget c.record.schema.uniqueName) with code := [] }).1.gadgets,
        g ∈ ex.gadgets ∨ ∃ g' ∈ table, g'.name = g.name)
    (hanswer : ∀ callee, result = .ok callee →
      ∃ g' ∈ table, g'.name = c.record.schema.uniqueName) :
    ∀ g ∈ mid.gadgets, g ∈ ex.gadgets ∨ ∃ g' ∈ table, g'.name = g.name := by
  intro g hg
  cases hfind : ex.find? c.record.schema.uniqueName with
  | some callee =>
    -- The request is answered from the table, which stays as it was.
    have hreused := (Extractor.define_of_find?_eq_some hfind c.runOn).symm.trans hdefined
    obtain ⟨rfl, -⟩ := Prod.mk.inj hreused
    exact .inl hg
  | none =>
    obtain ⟨-, inner, hinner, rfl⟩ := hp
    -- The table grows inside the definition, and then at most by the gadget itself.
    have hsettled := (Extractor.define_of_find?_eq_none hfind hinner).symm.trans hdefined
    obtain ⟨-, -, hanswers, htable⟩ := Extractor.settle_answers hsettled
    rcases htable with htable | ⟨a, output, hok, hout, htable⟩
    · rw [htable] at hg
      exact hinside g hg
    · rw [htable] at hg
      rcases List.mem_append.mp hg with hg | hg
      · exact hinside g hg
      · -- The entry at the end is that of the handle that the request is answered with.
        obtain rfl := List.mem_singleton.mp hg
        rw [hok] at hanswers
        cases result with
        | ok callee => exact .inr (hanswer callee rfl)
        | error stop =>
          cases hanswers with
          | unreadable hfails =>
            rw [hout] at hfails
            contradiction

/-- A handle that agrees with one of another table has its name there. -/
theorem Op.Agree.exists_mem_name {table table' : List Gadget} {c c' : Callee}
    (h : Op.Agree table table' (.call c) (.call c')) :
    (∃ g ∈ table, g.name = c.name) ∧ ∃ g' ∈ table', g'.name = c.name := by
  obtain ⟨g, g', hentry, hentry', hcallee, hcallee', -⟩ := Op.agree_call_iff.mp h
  have hname : c'.name = c.name := congrArg Signature.name h.signature.symm
  refine ⟨⟨g, List.mem_of_getElem? hentry, ?_⟩, ⟨g', List.mem_of_getElem? hentry', ?_⟩⟩
  · rw [hcallee]
    rfl
  · rw [← hname, hcallee']
    rfl

/-- Requests for gadgets of one name keep the recordings in step, make the tables grow alike and are
    answered the same, if the gadgets' definition comes out the same whenever it is run. -/
theorem Extractor.InStep.define (hfamily : Coherent family field)
    (h : InStep family field handles ex ex') {c c' : Component} (hc : family c) (hc' : family c')
    (hname : c.record.schema.uniqueName = c'.record.schema.uniqueName)
    (hinside : ∀ {p : Program}, c.Records c.record.schema p → ∀ {start start' : Extractor},
      start.Ready family field → start'.Ready family field → p.RunAlike p start start')
    {mid mid' : Extractor} {result result' : Except Stop Callee}
    (hdefined : c.define ex = (mid, result)) (hdefined' : c'.define ex' = (mid', result')) :
    InStep family field handles mid mid' ∧
      Gadget.SameGrowth ex.gadgets ex'.gadgets mid.gadgets mid'.gadgets ∧
        ((∃ stop, result = .error stop ∧ result' = .error stop) ∨
          ∃ d d', result = .ok d ∧ result' = .ok d' ∧ d.name = c.record.schema.uniqueName ∧
            d.Indistinct handles d' ∧ InStep family field ((d, d') :: handles) mid mid') := by
  -- The two gadgets have one name, so on placeholders they have one definition.
  obtain ⟨p, hp⟩ := hfamily.exists_records hc
  obtain ⟨p', hp'⟩ := hfamily.exists_records hc'
  obtain ⟨hschema, rfl⟩ := hfamily.records_unique hc hc' hp hp' hname
  -- However each request was answered, a run of that definition is behind the answer.
  obtain ⟨hcode, hgrow, start, hstart, hinit, hanswers⟩ :=
    c.define_obtains hfamily hc hp (hp.grows hfamily (hfamily.keeps c hc)) (hp.part default)
      h.filled hdefined
  obtain ⟨hcode', hgrow', start', hstart', hinit', hanswers'⟩ :=
    c'.define_obtains hfamily hc' hp' (hp'.grows hfamily (hfamily.keeps c' hc')) (hp'.part default)
      h.filled' hdefined'
  have hstep := h.obtained hgrow hgrow' hcode hcode'
  rw [← hschema] at hanswers'
  have houtcome := hanswers.agree hanswers' (hinside hp hstart hstart').sameEnd hinit hinit'
  refine ⟨hstep, ⟨?_, ?_⟩, ?_⟩
  · -- A request that runs the definition adds what the run behind the other answer knows.
    have hbegin : Ready family field
        { ex.note (.extractingGadget c.record.schema.uniqueName) with code := [] } :=
      ⟨⟨h.filled.sameField, h.filled.table⟩, rfl⟩
    refine c.define_adds hp hdefined (fun g hg => ?_) (fun callee hcallee => ?_)
    · rcases (hinside hp hbegin hstart').growth.left g hg with hold | ⟨g', hg', hg'name⟩
      · exact .inl hold
      · exact .inr ⟨g', hinit'.subset hg', hg'name⟩
    · rcases houtcome with ⟨stop, hstop, -⟩ | ⟨d, d', -, -, hdname, hagree⟩
      · rw [hstop] at hcallee
        contradiction
      · rw [← hdname]
        exact hagree.exists_mem_name.2
  · have hbegin : Ready family field
        { ex'.note (.extractingGadget c'.record.schema.uniqueName) with code := [] } :=
      ⟨⟨h.filled'.sameField, h.filled'.table⟩, rfl⟩
    refine c'.define_adds hp' hdefined' (fun g hg => ?_) (fun callee hcallee => ?_)
    · rcases (hinside hp hstart hbegin).growth.right g hg with hold | ⟨g', hg', hg'name⟩
      · exact .inl hold
      · exact .inr ⟨g', hinit.subset hg', hg'name⟩
    · rcases houtcome with ⟨stop, -, hstop⟩ | ⟨d, d', -, -, hdname, hagree⟩
      · rw [hstop] at hcallee
        contradiction
      · rw [← hname, ← hdname]
        exact hagree.exists_mem_name.1
  · rcases houtcome with herror | ⟨d, d', hcallee, hcallee', hdname, hagree⟩
    · exact .inl herror
    · have hindistinct :=
        Callee.indistinct hstep.filled.table hstep.filled'.table hstep.handles hagree
      refine .inr ⟨d, d', hcallee, hcallee', hdname, hindistinct, { hstep with handles := ?_ }⟩
      intro x hx
      rcases List.mem_cons.mp hx with rfl | hx
      · exact hagree
      · exact hstep.handles x hx

/-! ### Runs of programs -/

namespace Program

variable {p q : Program}

theorem prefix_run (p : Program) (ex : Extractor) : ex.gadgets <+: (p.run ex).1.gadgets := by
  obtain ⟨added, hgains⟩ := exists_gains_run p ex
  exact hgains.gadgets

/-- Runs come out the same if what they go on with does, from states to which the tables grew
    alike. -/
theorem RunAlike.after {p' q' : Program} {mid mid' : Extractor} (hrest : p'.RunAlike q' mid mid')
    (hgrowth : Gadget.SameGrowth ex.gadgets ex'.gadgets mid.gadgets mid'.gadgets)
    (hp : p.run ex = p'.run mid) (hq : q.run ex' = q'.run mid') : p.RunAlike q ex ex' := by
  refine ⟨?_, ?_⟩
  · rw [hp, hq]
    exact hrest.sameEnd
  · rw [hp, hq]
    exact hgrowth.trans hrest.growth (prefix_run p' mid) (prefix_run q' mid')

/-- Programs that are alike keep the recordings in step and come out the same, over tables that grow
    alike. -/
theorem run_inStep (h : Coherent family field) (hpq : Alike handles p ex q ex')
    (hp : p.OnlyAsks (fun _ => family) ex) (hq : q.OnlyAsks (fun _ => family) ex')
    (hex : ex.InStep family field handles ex') : p.RunAlike q ex ex' := by
  -- The induction is on the program, with the definitions of the gadgets that it asks for as parts.
  induction p generalizing q handles ex ex' with
  | done a =>
    cases hpq with
    | done ha =>
      refine ⟨⟨hex.code, .ok ?_⟩, .refl _ _⟩
      cases ha with
      | unit => exact .unit
      | value => exact .value
      | handle hmem => exact .handle (hex.handles _ hmem)
  | stop s =>
    cases hpq with
    | stop => exact ⟨⟨hex.code, .error⟩, .refl _ _⟩
  | perform o next ih =>
    cases hpq with
    | perform hok herror =>
      rcases hex.perform o with ⟨e, hop, hop'⟩ | ⟨n, v, hop, hop', hpush⟩
      · simp only [OnlyAsks, hop, hop'] at hp hq
        have hrest := ih _ (herror hop hop') hp hq hex
        exact hrest.after (.refl _ _) (by simp only [run, hop]) (by simp only [run, hop'])
      · simp only [OnlyAsks, hop, hop'] at hp hq
        have hrest := ih _ (hok hop hop') hp hq hpush
        exact hrest.after (.refl _ _) (by simp only [run, hop]) (by simp only [run, hop'])
  | invoke callee r next ih =>
    cases hpq with
    | invoke hcallee hvalues hok herror =>
      rcases hex.invoke hcallee hvalues with ⟨e, hop, hop'⟩ | ⟨n, n', v, hop, hop', hpush⟩
      · simp only [OnlyAsks, hop, hop'] at hp hq
        have hrest := ih _ (herror hop hop') hp hq hex
        exact hrest.after (.refl _ _) (by simp only [run, hop]) (by simp only [run, hop'])
      · simp only [OnlyAsks, hop, hop'] at hp hq
        have hrest := ih _ (hok hop hop') hp hq hpush
        exact hrest.after (.refl _ _) (by simp only [run, hop]) (by simp only [run, hop'])
  | define r body next ihBody ih =>
    cases hpq with
    | @define _ _ _ _ r' _ body' _ next' hname hok herror =>
      unfold OnlyAsks at hp hq
      obtain ⟨hc, hp⟩ := hp
      obtain ⟨hc', hq⟩ := hq
      let c : Component := ⟨r, body⟩
      let c' : Component := ⟨r', body'⟩
      -- A run of the gadget's own definition is in step with every other one.
      have hinside : ∀ {p : Program}, c.Records c.record.schema p →
          ∀ {start start' : Extractor}, start.Ready family field → start'.Ready family field →
            p.RunAlike p start start' := by
        intro p hp start start' hstart hstart'
        have halike := hp.alike (h.keeps c hc) hstart hstart'
        have hasks := hp.onlyAsks (h.keeps c hc) hstart
        have hasks' := hp.onlyAsks (h.keeps c hc) hstart'
        obtain ⟨-, inner, -, rfl⟩ := hp
        exact ihBody inner halike hasks hasks' (.fresh hstart hstart')
      cases hdefined : c.define ex with
      | mk mid result =>
        cases hdefined' : c'.define ex' with
        | mk mid' result' =>
          rw [hdefined] at hp
          rw [hdefined'] at hq
          obtain ⟨hstep, hgrowth, houtcome⟩ :=
            hex.define h hc hc' hname hinside hdefined hdefined'
          have hrun := @run_define_eq r body next ex mid result hdefined
          have hrun' := @run_define_eq r' body' next' ex' mid' result' hdefined'
          rcases houtcome with ⟨stop, rfl, rfl⟩ | ⟨d, d', rfl, rfl, -, hindistinct, hnext⟩
          · cases stop with
            | error e =>
              have hrest := ih _ (herror hdefined hdefined') hp hq hstep
              exact hrest.after hgrowth hrun hrun'
            | panic _ | tooDeep =>
              refine ⟨?_, ?_⟩
              · rw [hrun, hrun']
                exact ⟨hstep.code, .error⟩
              · rw [hrun, hrun']
                exact hgrowth
          · have hrest := ih _ (hok hdefined hdefined' hindistinct) hp hq hnext
            exact hrest.after hgrowth hrun hrun'

end Program

/-- The definition of a gadget comes out the same on every table of the family. -/
theorem Component.Records.runAlike (h : Coherent family field) {c : Component}
    (hc : c.Over family field) {s : Schema} {p : Program} (hp : c.Records s p)
    (hex : ex.Ready family field) (hex' : ex'.Ready family field) : p.RunAlike p ex ex' :=
  Program.run_inStep h (hp.alike hc hex hex') (hp.onlyAsks hc hex) (hp.onlyAsks hc hex')
    (.fresh hex hex')

/-! ### Tables -/

/-- Gadgets of one name in two tables of a coherent family agree. -/
theorem Gadget.Memoized.agree (h : Coherent family field) {table table' : List Gadget}
    (htable : Memoized family field table) (htable' : Memoized family field table')
    {g g' : Gadget} (hg : g ∈ table) (hg' : g' ∈ table') (hname : g.name = g'.name) :
    Gadget.Agree table table' g g' := by
  obtain ⟨id, hid⟩ := List.mem_iff_getElem?.mp hg
  obtain ⟨id', hid'⟩ := List.mem_iff_getElem?.mp hg'
  have hbelow : table.take id <+: table := List.take_prefix id table
  have hbelow' : table'.take id' <+: table' := List.take_prefix id' table'
  cases htable.recorded id g hid with
  | @intro c s p start done a output hc hp hfield hcode hstart hrun hdone hout =>
    cases htable'.recorded id' g' hid' with
    | @intro c' s' p' start' done' a' output' hc' hp' hfield' hcode' hstart' hrun' hdone' hout' =>
      -- One definition recorded both, from traces and tables that are in step.
      obtain ⟨rfl, rfl⟩ := h.records_unique hc hc' hp hp' hname
      have hready : start.Ready family field :=
        ⟨⟨hfield, htable.of_prefix (hstart.trans hbelow)⟩, hcode⟩
      have hready' : start'.Ready family field :=
        ⟨⟨hfield', htable'.of_prefix (hstart'.trans hbelow')⟩, hcode'⟩
      obtain ⟨hagree, houtcome⟩ := (hp.runAlike h (h.keeps c hc) hready hready').sameEnd
      rw [hrun, hrun', hdone, hdone'] at hagree houtcome
      cases houtcome with
      | ok hanswer =>
        rw [hanswer.toValue_eq, hout'] at hout
        obtain rfl := Except.ok.inj hout
        exact ⟨rfl, hagree.mono hbelow hbelow'⟩

/-! ### Sessions -/

/-- What was recorded before does not show. From any two points of sessions over a coherent family,
    programs that are alike on their runs from an empty trace, and ask for gadgets of the family on
    these, answer the same or fail the same and record the same trace, and afterwards gadgets of one
    name agree, all up to the places of gadgets in the tables. -/
theorem Machine.Reachable.memo_transparent (h : Coherent family field) {m m' : Machine}
    (hm : Reachable field (AsksFor family) m) (hm' : Reachable field (AsksFor family) m')
    {p q : Program} {start start' : Extractor} (hstart : start = { m.ex with code := [] })
    (hstart' : start' = { m'.ex with code := [] }) (hpq : Program.Alike [] p start q start')
    (hp : p.OnlyAsks (fun _ => family) start) (hq : q.OnlyAsks (fun _ => family) start')
    {done done' : Extractor × Except Stop Answer} (hdone : p.run start = done)
    (hdone' : q.run start' = done') :
    Program.SameEnd done done' ∧ ∀ g ∈ done.1.gadgets, ∀ g' ∈ done'.1.gadgets, g.name = g'.name →
      Gadget.Agree done.1.gadgets done'.1.gadgets g g' := by
  subst hdone hdone' hstart hstart'
  obtain ⟨-, hfilled, -⟩ := hm.kept h
  obtain ⟨-, hfilled', -⟩ := hm'.kept h
  have hfresh : Extractor.InStep family field []
      { m.ex with code := [] } { m'.ex with code := [] } :=
    .fresh ⟨⟨hfilled.sameField, hfilled.table⟩, rfl⟩ ⟨⟨hfilled'.sameField, hfilled'.table⟩, rfl⟩
  refine ⟨(Program.run_inStep h hpq hp hq hfresh).sameEnd, ?_⟩
  intro g hg g' hg' hname
  have hgrows := Program.run_grows h hfresh.filled hp
  have hgrows' := Program.run_grows h hfresh.filled' hq
  exact hgrows.filled.table.agree h hgrows'.filled.table hg hg' hname

/-- Obtain a gadget for one record, and call it on another. -/
def Program.callOn (c : Component) (r : Record) : Program :=
  .define c.record c.body fun
    | .ok callee => .ofInvoke callee r
    | .error e => .stop (.error e)

/-- Rows that are swapped twice, by a gadget that passes its own rows to another gadget and then the
    rows that this answers: asked for over a new table, and after both gadgets were recorded for rows
    of other values. -/
theorem Machine.Reachable.memo_transparent_swapTwice :
    ∃ m m' : Machine, Reachable .bn254 (AsksFor (Declaration.Family Declaration.samples)) m ∧
      Reachable .bn254 (AsksFor (Declaration.Family Declaration.samples)) m' ∧
        m.ex.gadgets.map (·.name) = [] ∧
          m'.ex.gadgets.map (·.name) = ["SwapRows_2_2", "SwapTwice_2_2"] ∧
            ∃ p q : Program,
              let done := p.run { m.ex with code := [] }
              let done' := q.run { m'.ex with code := [] }
              done.1.code.length = 1 ∧ Program.SameEnd done done' ∧
                ∀ g ∈ done.1.gadgets, ∀ g' ∈ done'.1.gadgets, g.name = g'.name →
                  Gadget.Agree done.1.gadgets done'.1.gadgets g g' := by
  let family : Component → Prop := Declaration.Family Declaration.samples
  let p (v : Value) : Program :=
    .callOn (Declaration.swapTwiceOf v) (Declaration.swapTwiceOf (.int 7)).record
  have hasks : ∀ v ex, (p v).OnlyAsks (fun _ => family) ex := by
    intro v ex
    refine (Program.onlyAsks_define_iff rfl).mpr ⟨Declaration.family_swapTwiceOf v, ?_⟩
    split
    · apply Program.onlyAsks_ofInvoke
    · trivial
    · trivial
  have halike : ∀ v w ex ex', Program.Alike [] (p v) ex (p w) ex' := by
    intro v w ex ex'
    refine Program.Alike.define rfl ?_ ?_
    · intro mid mid' c c' _ _ _
      exact .ofInvoke List.mem_cons_self rfl
    · intro mid mid' e _ _
      exact .stop
  have hstart : Reachable .bn254 (AsksFor family) _ := .start
  have hends : ((p (.int 3)).run (.start .bn254)).2.isOk = true := by decide +kernel
  have hend : Ended ((p (.int 3)).run (.start .bn254)) := by
    cases hresult : ((p (.int 3)).run (.start .bn254)).2 with
    | ok a => exact .inl ⟨a, hresult⟩
    | error s => simp [hresult, Except.isOk, Except.toBool] at hends
  obtain ⟨m', hm', -, hex⟩ := hstart.run_onlyAsks Declaration.coherent_samples
    ⟨rfl, .inl ⟨_, rfl⟩⟩ (hasks (.int 3) _) hend
  have hnames : m'.ex.gadgets.map (·.name) = ["SwapRows_2_2", "SwapTwice_2_2"] := by
    rw [hex]
    show ((p (.int 3)).run (.start .bn254)).1.gadgets.map (·.name) = _
    decide +kernel
  have hlength : ((p (.int 5)).run { Extractor.start .bn254 with code := [] }).1.code.length = 1 :=
    by decide +kernel
  exact ⟨_, m', hstart, hm', rfl, hnames, p (.int 5), p (.int 6), hlength,
    hstart.memo_transparent Declaration.coherent_samples hm' rfl rfl (halike _ _ _ _)
      (hasks _ _) (hasks _ _) rfl rfl⟩

end GateTrace
