import GateTrace.Proofs.Handles
import GateTrace.Proofs.Table

/-! # Where gadgets come from

    A request is answered by name, so it matters whose schema a gadget of that name carries. The key
    ideas:

    - A definition in progress carries the schema of the record that it was asked for with. So what
      is sealed has the unique name and the arguments of a record that was asked for, and that took
      its placeholders.
    - A unique name is that of one schema among the records of one type, but not among all records:
      it says nothing of the names of the fields.
-/

namespace GateTrace

theorem Record.length_values (r : Record) : r.values.length = r.schema.args.length := by
  show (r.fields.filterMap Field.value?).length = (r.fields.filterMap Field.argument?).length
  induction r.fields with
  | nil => rfl
  | cons f fs ih =>
    obtain ⟨name, slot⟩ := f
    cases slot with
    | parameter v => exact ih
    | signal s => exact congrArg (· + 1) ih

/-- Whether a record takes the placeholders of its own schema. -/
def Record.TakesPlaceholders (r : Record) : Prop :=
  ∃ inner, r.withPlaceholders r.schema = (inner, .ok ())

/-- A gadget that was recorded for a record: it has the record's unique name, and an argument for
    each of the record's signals. -/
structure Signature.RecordedFor (s : Signature) (r : Record) : Prop where
  name : s.name = r.schema.uniqueName
  arity : s.arity = r.schema.arity
  args : s.args = r.schema.args
  placeholders : r.TakesPlaceholders

theorem Signature.RecordedFor.arity_eq {s : Signature} {r : Record} (h : s.RecordedFor r) :
    s.arity = r.values.length := by
  rw [h.arity, Schema.arity, r.length_values]

theorem Signature.RecordedFor.arity_eq_length {s : Signature} {r : Record}
    (h : s.RecordedFor r) : s.arity = s.args.length := by
  rw [h.arity, h.args]
  rfl

/-- A request is answered with a gadget of the table that has the name asked for, or with one that
    was recorded for the request. -/
theorem Component.define_answers {c : Component} {ex ex' : Extractor} {callee : Callee}
    (h : c.define ex = (ex', .ok callee)) :
    (∃ g ∈ ex.gadgets, g.name = c.record.schema.uniqueName ∧
      callee.toSignature = g.toSignature) ∨ callee.RecordedFor c.record := by
  rcases ex.define_cases c.record c.runOn with ⟨found, hfind, hdefine⟩ | ⟨inner, e, -, hdefine⟩ |
    ⟨inner, -, hinner, hdefine⟩
  -- The handle was found in the table.
  · obtain ⟨g, hg, hname, hcallee⟩ := Extractor.find?_eq_some hfind
    obtain rfl : callee = found := Except.ok.inj (congrArg Prod.snd (h.symm.trans hdefine))
    exact .inl ⟨g, List.mem_of_getElem? hg, hname, by rw [hcallee]; rfl⟩
  · have hrefused := congrArg Prod.snd (h.symm.trans hdefine)
    cases hrefused
  · -- The definition ended with an output that can be read, and was sealed at once.
    have hsettled := hdefine.symm.trans h
    unfold Extractor.settle at hsettled
    split at hsettled
    · simp at hsettled
    · split at hsettled
      · simp at hsettled
      · obtain rfl := Except.ok.inj (congrArg Prod.snd hsettled)
        exact .inr ⟨rfl, rfl, rfl, inner, hinner⟩

namespace Machine

/-! ### Sessions -/

/-- Every gadget of the table was recorded for a record that was asked for, and so will be those
    whose definitions wait. -/
structure Sourced (asked : Component → Prop) (m : Machine) : Prop where
  waiting : ∀ f ∈ m.stack, asked ⟨f.record, f.body⟩
  table : ∀ g ∈ m.ex.gadgets, ∃ c, asked c ∧ g.RecordedFor c.record

/-- A gadget that is about to be sealed was recorded for the record that it was asked for with. -/
theorem Waiting.recordedFor {m : Machine} (h : m.Waiting) {f : Frame} {output : Option Operand}
    (hseals : m.Seals f output) : (m.entry output).RecordedFor f.record := by
  cases hseals with
  | intro hout =>
    cases h.pending with
    | cons hfind hinner hschema hrun hrest =>
      exact ⟨congrArg Schema.uniqueName hschema, congrArg Schema.arity hschema,
        congrArg Schema.args hschema, _, hinner⟩

variable {asked : Component → Prop}

/-- A step that asks for what may be asked for keeps every gadget's source. -/
theorem Step.sourced {m m' : Machine} (hstep : Step m m') (hwaiting : m.Waiting)
    (hasks : m.AsksFor asked) (h : m.Sourced asked) : m'.Sourced asked := by
  constructor
  · intro f hf
    cases hstep with
    | perform | performError | invoke | invokeError | reuse | refuse => exact h.waiting f hf
    | enter =>
      rcases List.mem_cons.mp hf with rfl | hf
      · exact hasks
      · exact h.waiting f hf
    | enroll | enrollError | fail => exact h.waiting f (List.mem_cons_of_mem _ hf)
  · intro g hg
    rcases hstep.table_cases with ⟨htable, -⟩ | ⟨f, output, hseals, htable, -⟩
    · rw [htable] at hg
      exact h.table g hg
    · rw [htable] at hg
      rcases List.mem_append.mp hg with hg | hg
      · exact h.table g hg
      · obtain rfl := List.mem_singleton.mp hg
        -- The gadget that is sealed is the one that the top of the stack waits for.
        have hwaits : f ∈ m.stack := by
          cases hseals
          exact List.mem_cons_self
        exact ⟨_, h.waiting f hwaits, hwaiting.recordedFor hseals⟩

/-- In a session every gadget of the table was recorded for a record that was asked for. -/
theorem Session.sourced {field : ScalarField} {handed : Handed} {m : Machine}
    (hm : Session field (fun _ m => m.AsksFor asked) handed m) : m.Sourced asked := by
  induction hm with
  | start => exact ⟨by simp, by simp [Extractor.start]⟩
  | step hm hasks hstep ih => exact hstep.sourced hm.waiting hasks ih
  | client _ hmove ih =>
    obtain ⟨htable, hstack⟩ := hmove.gadgets_eq
    exact ⟨by simp [hstack], by rw [htable]; exact ih.table⟩

theorem Session.arity_eq {field : ScalarField} {handed : Handed} {m : Machine}
    (hm : Session field (fun _ m => m.AsksFor asked) handed m) :
    ∀ g ∈ m.ex.gadgets, g.arity = g.args.length := by
  intro g hg
  obtain ⟨c, -, hrecorded⟩ := hm.sourced.table g hg
  exact hrecorded.arity_eq_length

/-- At a point of a session a request that is answered with a handle gets a gadget that was recorded
    for a record of the same unique name, which is the record of the request or one that was asked
    for before: the handle has the arguments of that record. If no underscore stands in the names of
    their types, the two records have one type name. If they have one type name, they have the same
    dimensions and parameters; and if they are of one type they have one schema, so the arguments are
    those of the request. -/
theorem Session.define_answers_schema {field : ScalarField} {handed : Handed} {m : Machine}
    (hm : Session field (fun _ m => m.AsksFor asked) handed m) {c : Component} {ex : Extractor}
    {callee : Callee} (h : c.define m.ex = (ex, .ok callee)) :
    ∃ r : Record, (r = c.record ∨ ∃ body, asked ⟨r, body⟩) ∧
      r.schema.uniqueName = c.record.schema.uniqueName ∧ callee.args = r.schema.args ∧
        callee.arity = r.values.length ∧
          ('_' ∉ r.typeName.toList → '_' ∉ c.record.typeName.toList →
            r.typeName = c.record.typeName) ∧
          (r.typeName = c.record.typeName → r.schema.suffixes = c.record.schema.suffixes) ∧
          (r.SameType c.record → r.schema = c.record.schema ∧ callee.args = c.record.schema.args ∧
            callee.arity = c.record.values.length) := by
  obtain ⟨r, hsource, hname, hrecorded⟩ : ∃ r : Record, (r = c.record ∨ ∃ body, asked ⟨r, body⟩) ∧
      r.schema.uniqueName = c.record.schema.uniqueName ∧ callee.RecordedFor r := by
    -- The answer comes from the table, whose gadgets were all asked for, or from this request.
    rcases Component.define_answers h with ⟨g, hg, hname, hcallee⟩ | hnew
    · obtain ⟨⟨r, body⟩, hasked, hrecorded⟩ := hm.sourced.table g hg
      rw [← hcallee] at hrecorded
      exact ⟨r, .inr ⟨body, hasked⟩, hrecorded.name.symm.trans (by rw [hcallee, hname]), hrecorded⟩
    · exact ⟨c.record, .inl rfl, rfl, hnew⟩
  refine ⟨r, hsource, hname, hrecorded.args, hrecorded.arity_eq, ?_, ?_, ?_⟩
  · intro hplain hplain'
    exact (Schema.typeName_eq_of_uniqueName hplain hplain' hname).1
  · intro htype
    exact Schema.suffixes_eq_of_uniqueName htype hname
  · intro htype
    have hschema := Record.schema_eq_of_uniqueName htype hname
    refine ⟨hschema, by rw [hrecorded.args, hschema], ?_⟩
    rw [hrecorded.arity_eq, r.length_values, c.record.length_values, hschema]

/-- Pairs of signals, with a parameter besides: a pair is asked for after another one was recorded,
    and gets a gadget with an argument for its signals. -/
theorem Session.define_answers_schema_pair :
    ∃ (asked : Component → Prop) (handed : Handed) (m : Machine),
      Session .bn254 (fun _ m => m.AsksFor asked) handed m ∧
        m.ex.gadgets.map (·.name) = ["Pair_2_m1"] ∧
          ∃ (c : Component) (ex : Extractor) (callee : Callee), c.define m.ex = (ex, .ok callee) ∧
            callee.args = [⟨"x", .array 2 .scalar⟩] ∧ callee.arity = 1 := by
  let pair (v w : Value) : Record :=
    ⟨"Pair", [⟨"x", .signal (.array [.wire v, .wire w])⟩, ⟨"offset", .parameter (-1)⟩]⟩
  let body (_ : Record) : Program := .done .unit
  let asked (c : Component) : Prop := ∃ v w, c = ⟨pair v w, body⟩
  have hstart : Session .bn254 (fun _ m => m.AsksFor asked) _ _ :=
    .client .start (.resume ⟨rfl, .inl ⟨_, rfl⟩⟩ (.handleOf (pair .nil .nil) body))
  have henter : Session .bn254 (fun _ m => m.AsksFor asked) _ _ :=
    .step hstart ⟨_, _, rfl⟩ (.enter rfl rfl)
  have hseal : Session .bn254 (fun _ m => m.AsksFor asked) _ _ :=
    .step henter trivial (.enroll rfl rfl)
  let c : Component := ⟨pair (.int 3) (.int 4), body⟩
  have hwires : ∀ v w, (Signal.array [.wire v, .wire w]).HasType (.vec .wire) := by
    intro v w
    refine .vec ?_
    simp [Signal.HasType.wire]
  have htype : ∀ r : Record, (r = c.record ∨ ∃ body, asked ⟨r, body⟩) → r.SameType c.record := by
    rintro r (rfl | ⟨_, v, w, h⟩)
    · exact ⟨rfl, .cons (.signal (hwires _ _) (hwires _ _)) (.cons .parameter .nil)⟩
    · obtain ⟨rfl, -⟩ := Component.mk.inj h
      exact ⟨rfl, .cons (.signal (hwires _ _) (hwires _ _)) (.cons .parameter .nil)⟩
  let entry : Gadget := (pair .nil .nil).schema.gadget none []
  let before : Extractor := (Extractor.start .bn254).note (.extractingGadget entry.name)
  have hfind : (before.enroll entry).1.find? c.record.schema.uniqueName = some _ :=
    Extractor.find?_enroll rfl
  have hdefine := Extractor.define_of_find?_eq_some hfind c.runOn
  obtain ⟨r, hsource, -, -, -, -, -, hsame⟩ := hseal.define_answers_schema hdefine
  obtain ⟨-, hargs, harity⟩ := hsame (htype r hsource)
  exact ⟨asked, _, _, hseal, by decide +kernel, c, _, _, hdefine, hargs, harity⟩

/-- After records of a signal `x`, of the types `T` and `A_1`, requests for other records of the same
    unique names are answered with their gadgets: one for a record of type `T` with a signal `y`, and
    one for a record of type `A`, whose array `x` of length 1 puts the number in the name. -/
theorem Session.not_define_answers_schema :
    ∃ (handed : Handed) (m : Machine), Session .bn254 (fun _ _ => True) handed m ∧
      (∃ (c : Component) (ex : Extractor) (callee : Callee), c.define m.ex = (ex, .ok callee) ∧
        c.record.typeName = "T" ∧ callee.name = "T" ∧
          c.record.schema.args = [⟨"y", .scalar⟩] ∧ callee.args = [⟨"x", .scalar⟩]) ∧
      ∃ (c : Component) (ex : Extractor) (callee : Callee), c.define m.ex = (ex, .ok callee) ∧
        c.record.typeName = "A" ∧ callee.name = "A_1" ∧
          c.record.schema.args = [⟨"x", .array 1 .scalar⟩] ∧ callee.args = [⟨"x", .scalar⟩] := by
  let wire : Signal := .wire (.int 1)
  let record (typeName name : String) (s : Signal) : Record := ⟨typeName, [⟨name, .signal s⟩]⟩
  let body (_ : Record) : Program := .done .unit
  have hstart : Session .bn254 (fun _ _ => True) _ _ :=
    .client .start (.resume ⟨rfl, .inl ⟨_, rfl⟩⟩ (.handleOf (record "T" "x" wire) body))
  have henter : Session .bn254 (fun _ _ => True) _ _ := .step hstart trivial (.enter rfl rfl)
  have hseal : Session .bn254 (fun _ _ => True) _ _ := .step henter trivial (.enroll rfl rfl)
  have hnext : Session .bn254 (fun _ _ => True) _ _ :=
    .client hseal (.resume ⟨rfl, .inl ⟨_, rfl⟩⟩ (.handleOf (record "A_1" "x" wire) body))
  have henter' : Session .bn254 (fun _ _ => True) _ _ := .step hnext trivial (.enter rfl rfl)
  have hseal' : Session .bn254 (fun _ _ => True) _ _ := .step henter' trivial (.enroll rfl rfl)
  let c : Component := ⟨record "T" "y" wire, body⟩
  let c' : Component := ⟨record "A" "x" (.array [wire]), body⟩
  exact ⟨_, _, hseal',
    ⟨c, _, _, Extractor.define_of_find?_eq_some rfl c.runOn, rfl, rfl, rfl, rfl⟩,
    ⟨c', _, _, Extractor.define_of_find?_eq_some rfl c'.runOn, rfl, rfl, rfl, rfl⟩⟩

end Machine

end GateTrace
