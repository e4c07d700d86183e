import GateTrace.Proofs.Origins
import GateTrace.Proofs.Restoration

/-! # Ragged arrays

    A schema takes the inner dimensions of an array from its first element, so a record may hold
    arrays of other lengths than its own schema lists. The key ideas:

    - Where the types of two signals agree, the one can only fail to take the placeholder of the
      other's shape at an array of another length, and that is what the error says.
    - So a ragged record is refused before its definition is run, and leaves nothing behind. A
      gadget that is found is answered without placeholders, so there the lengths are not looked at.
    - Only a record that took its placeholders puts a gadget into the table. So the name of ragged
      records stays new as long as no other record is asked for under it.
-/

namespace GateTrace

/-! ### Lengths -/

/-- Whether an array somewhere in a signal has another length than a shape lists for its level. -/
inductive Signal.Differs : Signal → Shape → Prop
  | here {items : List Signal} {len : Nat} {elem : Shape} (hlen : items.length ≠ len) :
    Differs (.array items) (.array len elem)
  | inside {items : List Signal} {len : Nat} {elem : Shape} {s : Signal} (hs : s ∈ items)
    (h : s.Differs elem) : Differs (.array items) (.array len elem)

/-- Whether a field holds an array of another length than its own shape lists. -/
def Field.Ragged (f : Field) : Prop := ∃ s, f.slot = .signal s ∧ s.Differs s.shape

def Record.Ragged (r : Record) : Prop := ∃ f ∈ r.fields, f.Ragged

/-- How an assignment to field `field` ends if nothing but lengths can be wrong: with an error that
    tells two different lengths if they are, and well if they are not. -/
structure ChecksLengths (field : String) (wrong : Prop) (result : Except Error Unit) : Prop where
  accepts : ¬ wrong → result = .ok ()
  refuses : wrong → ∃ expected actual, expected ≠ actual ∧
    result = .error (.schemaMismatch field expected actual)

namespace Signal

theorem not_differs_scalar (s : Signal) : ¬ s.Differs .scalar := by
  intro h
  cases h

theorem differs_array_iff {items : List Signal} {len : Nat} {elem : Shape}
    (hlen : items.length = len) :
    (Signal.array items).Differs (.array len elem) ↔ ∃ s ∈ items, s.Differs elem := by
  constructor
  · intro h
    cases h with
    | here hother => exact absurd hlen hother
    | inside hs h => exact ⟨_, hs, h⟩
  · rintro ⟨s, hs, h⟩
    exact .inside hs h

/-- Slots that each check lengths do so one after the other: the first that differs ends it. -/
theorem assignItems_checksLengths {field : String} {elem : Shape} {base : Operand} {n : Nat}
    {slots : List Signal}
    (h : ∀ s ∈ slots, ∀ b, ChecksLengths field (s.Differs elem)
      (s.assign field (.placeholder elem b)).2)
    (positions : List Nat) (hlen : positions.length = slots.length) :
    ChecksLengths field (∃ s ∈ slots, s.Differs elem)
      (assignItems field slots (positions.map fun k => .placeholder elem (.proj base k n))).2 := by
  induction slots generalizing positions with
  | nil =>
    obtain rfl := List.length_eq_zero_iff.mp hlen
    exact ⟨fun _ => rfl, fun ⟨s, hs, _⟩ => absurd hs (by simp)⟩
  | cons s slots ih =>
    cases positions with
    | nil => simp at hlen
    | cons k positions =>
      have hfirst := h s (by simp) (.proj base k n)
      have hrest := ih (fun t ht => h t (by simp [ht])) positions (by simpa using hlen)
      by_cases hs : s.Differs elem
      -- The first slot that differs decides the error.
      · obtain ⟨expected, actual, hne, herror⟩ := hfirst.refuses hs
        refine ⟨fun hnone => absurd ⟨s, by simp, hs⟩ hnone, fun _ => ⟨expected, actual, hne, ?_⟩⟩
        simp only [List.map_cons, assignItems, herror]
      · -- This slot takes its placeholder, so it is on the others.
        have heq : (assignItems field (s :: slots)
            ((k :: positions).map fun k => .placeholder elem (.proj base k n))).2 =
              (assignItems field slots
                (positions.map fun k => .placeholder elem (.proj base k n))).2 := by
          simp only [List.map_cons, assignItems, hfirst.accepts hs]
        rw [heq]
        constructor
        · intro hnone
          exact hrest.accepts fun ⟨t, ht, hdiffers⟩ => hnone ⟨t, by simp [ht], hdiffers⟩
        · rintro ⟨t, ht, hdiffers⟩
          rcases List.mem_cons.mp ht with rfl | ht
          · exact absurd hdiffers hs
          · exact hrest.refuses ⟨t, ht, hdiffers⟩

/-- A signal takes the placeholder of another signal of its type, unless an array has another length
    there. -/
theorem assign_checksLengths {field : String} {type : SignalType} {s t : Signal}
    (hs : s.HasType type) (ht : t.HasType type) : ∀ base : Operand,
      ChecksLengths field (s.Differs t.shape) (s.assign field (.placeholder t.shape base)).2 := by
  refine HasType.induction₂ ?wire ?array hs ht
  case wire =>
    intro v w base
    exact ⟨fun _ => rfl, fun h => absurd h (not_differs_scalar _)⟩
  case array =>
    intro elem slots items hslots hitems ih base
    -- In either case the placeholder is a list of as many values as there are items.
    obtain ⟨inner, hshape, hinner⟩ : ∃ inner : Shape,
        (Signal.array items).shape = .array items.length inner ∧
          (items.length = slots.length → ∀ s ∈ slots, ∀ b, ChecksLengths field (s.Differs inner)
            (s.assign field (.placeholder inner b)).2) := by
      cases items with
      | nil =>
        refine ⟨.scalar, rfl, ?_⟩
        intro hlen s hs
        obtain rfl : slots = [] := List.length_eq_zero_iff.mp hlen.symm
        simp at hs
      | cons t items =>
        exact ⟨t.shape, rfl, fun _ s hs b => ih s t (hslots s hs) (hitems t (by simp)) b⟩
    rw [hshape]
    simp only [Value.placeholder, assign]
    by_cases hlen : items.length = slots.length
    · rw [if_pos (by simpa using hlen), differs_array_iff hlen.symm]
      exact assignItems_checksLengths (hinner hlen) (List.range items.length) (by simpa using hlen)
    · rw [if_neg (by simpa using hlen)]
      refine ⟨fun hsame => absurd (.here (Ne.symm hlen)) hsame, fun _ => ⟨_, _, ?_, rfl⟩⟩
      simpa using hlen

end Signal

/-! ### Ragged records -/

/-- Fields of which one is ragged do not take the placeholders of their own arguments: the error
    names a ragged one and two different lengths. -/
theorem Field.fill_of_ragged {typeName : String} {fs : List Field}
    (htyped : ∀ f ∈ fs, ∀ s, f.slot = .signal s → ∃ type : SignalType, s.HasType type)
    (hragged : ∃ f ∈ fs, f.Ragged) (j : Nat) :
    ∃ f ∈ fs, f.Ragged ∧ ∃ expected actual, expected ≠ actual ∧
      (fill typeName j (fs.filterMap argument?) fs).2 =
        .error (.schemaMismatch f.name expected actual) := by
  induction fs generalizing j with
  | nil => simp at hragged
  | cons f fs ih =>
    have hrest := ih fun g hg => htyped g (by simp [hg])
    obtain ⟨name, slot⟩ := f
    cases slot with
    | parameter v =>
      -- A parameter is not ragged, so some other field is.
      have htail : ∃ f ∈ fs, f.Ragged := by
        obtain ⟨f, hf, s, hslot, hdiffers⟩ := hragged
        rcases List.mem_cons.mp hf with rfl | hf
        · cases hslot
        · exact ⟨f, hf, s, hslot, hdiffers⟩
      obtain ⟨f, hf, hfragged, expected, actual, hne, herror⟩ := hrest htail j
      refine ⟨f, by simp [hf], hfragged, expected, actual, hne, ?_⟩
      rw [List.filterMap_cons_none rfl, fill_parameter, herror]
    | signal s =>
      have harg : argument? ⟨name, .signal s⟩ = some ⟨name, s.shape⟩ := rfl
      obtain ⟨type, htype⟩ := htyped ⟨name, .signal s⟩ (by simp) s rfl
      have hchecks : ChecksLengths name (s.Differs s.shape) _ :=
        Signal.assign_checksLengths htype htype (.input j)
      rw [List.filterMap_cons_some harg]
      by_cases hs : s.Differs s.shape
      -- This field is the first to refuse its placeholder.
      · obtain ⟨expected, actual, hne, herror⟩ := hchecks.refuses hs
        refine ⟨_, List.mem_cons_self, ⟨s, rfl, hs⟩, expected, actual, hne, ?_⟩
        simp only [fill, assign, if_true, herror]
      -- This field takes its placeholder, so the ragged one comes after it.
      · have htail : ∃ f ∈ fs, f.Ragged := by
          obtain ⟨f, hf, t, hslot, hdiffers⟩ := hragged
          rcases List.mem_cons.mp hf with rfl | hf
          · cases hslot
            exact absurd hdiffers hs
          · exact ⟨f, hf, t, hslot, hdiffers⟩
        obtain ⟨f, hf, hfragged, expected, actual, hne, herror⟩ := hrest htail (j + 1)
        refine ⟨f, by simp [hf], hfragged, expected, actual, hne, ?_⟩
        simp only [fill, assign, if_true, hchecks.accepts hs, herror]

/-- A ragged record does not take the placeholders of its own schema. -/
theorem Record.withPlaceholders_of_ragged {r : Record} (htyped : r.Typed) (hragged : r.Ragged) :
    ∃ f ∈ r.fields, f.Ragged ∧ ∃ inner expected actual, expected ≠ actual ∧
      r.withPlaceholders r.schema = (inner, .error (.schemaMismatch f.name expected actual)) := by
  obtain ⟨f, hf, hfragged, expected, actual, hne, herror⟩ :=
    @Field.fill_of_ragged r.schema.typeName _ htyped hragged 0
  exact ⟨f, hf, hfragged, _, expected, actual, hne, Prod.ext rfl herror⟩

/-! ### Requests -/

/-- Whether a request on behalf of a record was refused for the length of one of the record's
    arrays, and left nothing behind but an entry of the journal. -/
structure Extractor.RefusesLengths {α : Type} (ex : Extractor) (r : Record)
    (done : Extractor × Except Stop α) : Prop where
  unchanged : done.1 = ex.note (.extractingGadget r.schema.uniqueName)
  mismatch : ∃ f ∈ r.fields, f.Ragged ∧ ∃ expected actual, expected ≠ actual ∧
    done.2 = .error (.error (.schemaMismatch f.name expected actual))

variable {ex : Extractor} {r : Record}

/-- A request for a gadget of a new name is refused if the record is ragged. -/
theorem Component.define_of_ragged (htyped : r.Typed) (hragged : r.Ragged)
    (hfind : ex.find? r.schema.uniqueName = none) (body : Record → Program) :
    ex.RefusesLengths r (Component.define ⟨r, body⟩ ex) := by
  obtain ⟨f, hf, hfragged, inner, expected, actual, hne, hinner⟩ :=
    r.withPlaceholders_of_ragged htyped hragged
  have hdefine : Component.define ⟨r, body⟩ ex = (ex.note (.extractingGadget r.schema.uniqueName),
      .error (.error (.schemaMismatch f.name expected actual))) := by
    simp only [Component.define, Extractor.define, Extractor.extract, hfind, hinner]
  rw [hdefine]
  exact ⟨rfl, f, hf, hfragged, expected, actual, hne, rfl⟩

/-- A call is refused if the request for its gadget is. -/
theorem Program.call_refused {body : Record → Program}
    (h : ex.RefusesLengths r (Component.define ⟨r, body⟩ ex)) :
    ex.RefusesLengths r ((Program.call r body).run ex) := by
  obtain ⟨hunchanged, f, hf, hfragged, expected, actual, hne, herror⟩ := h
  have hdefine : Component.define ⟨r, body⟩ ex = (ex.note (.extractingGadget r.schema.uniqueName),
      .error (.error (.schemaMismatch f.name expected actual))) := Prod.ext hunchanged herror
  rw [Program.call, Program.run_define_eq hdefine]
  exact ⟨rfl, f, hf, hfragged, expected, actual, hne, rfl⟩

/-- A call of a gadget that is found goes on with its handle, so it is not refused for a length. -/
theorem Program.not_call_refused {body : Record → Program} {callee : Callee}
    (hfind : ex.find? r.schema.uniqueName = some callee) :
    ¬ ex.RefusesLengths r ((Program.call r body).run ex) := by
  intro h
  have hdefine : Component.define ⟨r, body⟩ ex = _ := Extractor.define_of_find?_eq_some hfind _
  have hunchanged := h.unchanged
  rw [Program.call, Program.run_define_eq hdefine] at hunchanged
  simp only [ofInvoke, run] at hunchanged
  -- What the journal says first is that a gadget was found.
  split at hunchanged
  · next hinvoke =>
    obtain ⟨ops, -, -, rfl, -⟩ := Extractor.invoke_eq_ok hinvoke
    have hjournal := congrArg (fun ex => ex.journal.length) hunchanged
    simp [ofExcept, Except.map, run, Extractor.push, Extractor.note] at hjournal
  · have hjournal := congrArg Extractor.journal hunchanged
    simp [ofExcept, Except.map, run, Extractor.note] at hjournal

/-! ### Sessions -/

/-- Whether a component is ragged, should it have a given unique name. -/
def Component.RaggedUnder (name : String) (c : Component) : Prop :=
  c.record.schema.uniqueName = name → c.record.Typed ∧ c.record.Ragged

/-- A session that asks for none but ragged records under a name never has a gadget of that name. -/
theorem Machine.Session.name_new_of_ragged {field : ScalarField} {handed : Handed} {m : Machine}
    {name : String}
    (hm : Session field (fun _ m => m.AsksFor (Component.RaggedUnder name)) handed m) :
    ∀ g ∈ m.ex.gadgets, g.name ≠ name := by
  intro g hg hname
  -- The gadget would have been recorded for a record that took its placeholders.
  obtain ⟨c, hc, hgname, -, -, inner, hinner⟩ := hm.sourced.table g hg
  obtain ⟨htyped, hragged⟩ := hc (hgname.symm.trans hname)
  obtain ⟨f, -, -, inner', expected, actual, -, herror⟩ :=
    c.record.withPlaceholders_of_ragged htyped hragged
  have hresult := congrArg Prod.snd (hinner.symm.trans herror)
  contradiction

/-- A request for the gadget of a ragged record, and so a call on it, is refused for the length of
    one of its arrays and changes nothing but the journal, if and only if no gadget of the table has
    its unique name. That is so in every session that asked for none but ragged records under that
    name, whatever else it asked for. -/
theorem ragged_refused_iff {r : Record} (htyped : r.Typed) (hragged : r.Ragged)
    (body : Record → Program) :
    (∀ ex : Extractor,
      (ex.RefusesLengths r (Component.define ⟨r, body⟩ ex) ↔
        ∀ g ∈ ex.gadgets, g.name ≠ r.schema.uniqueName) ∧
      (ex.RefusesLengths r ((Program.call r body).run ex) ↔
        ∀ g ∈ ex.gadgets, g.name ≠ r.schema.uniqueName)) ∧
    ∀ {field : ScalarField} {handed : Machine.Handed} {m : Machine},
      Machine.Session field
        (fun _ m => m.AsksFor (Component.RaggedUnder r.schema.uniqueName)) handed m →
        m.ex.RefusesLengths r (Component.define ⟨r, body⟩ m.ex) ∧
          m.ex.RefusesLengths r ((Program.call r body).run m.ex) := by
  have hnew : ∀ ex : Extractor, (∀ g ∈ ex.gadgets, g.name ≠ r.schema.uniqueName) →
      ex.RefusesLengths r (Component.define ⟨r, body⟩ ex) := by
    intro ex hnone
    exact Component.define_of_ragged htyped hragged (Extractor.find?_eq_none_iff.mpr hnone) body
  constructor
  · intro ex
    refine ⟨⟨fun hrefused => ?_, hnew ex⟩, ⟨fun hrefused => ?_, fun hnone => ?_⟩⟩
    · rw [← Extractor.find?_eq_none_iff]
      cases hfind : ex.find? r.schema.uniqueName with
      | none => rfl
      -- A gadget that is found is answered without a look at the record.
      | some callee =>
        have hfound : Component.define ⟨r, body⟩ ex = _ :=
          Extractor.define_of_find?_eq_some hfind _
        obtain ⟨-, f, -, -, expected, actual, -, herror⟩ := hrefused
        rw [hfound] at herror
        contradiction
    · rw [← Extractor.find?_eq_none_iff]
      cases hfind : ex.find? r.schema.uniqueName with
      | none => rfl
      | some callee => exact absurd hrefused (Program.not_call_refused hfind)
    · exact Program.call_refused (hnew ex hnone)
  · intro field handed m hm
    have hrefused := hnew m.ex hm.name_new_of_ragged
    exact ⟨hrefused, Program.call_refused hrefused⟩

/-- A record of two rows, of which the second is one short. -/
def Record.shortRow : Record :=
  ⟨"Rows", [⟨"x", .signal (.array
    [.array [.wire (.int 1), .wire (.int 2)], .array [.wire (.int 3)]])⟩]⟩

theorem Record.shortRow_typed : shortRow.Typed := by
  intro f hf s hs
  obtain rfl := List.mem_singleton.mp hf
  obtain rfl := Slot.signal.inj hs
  refine ⟨.vec (.vec .wire), .vec ?_⟩
  simp [Signal.HasType.wire, Signal.HasType.vec]

theorem Record.shortRow_ragged : shortRow.Ragged :=
  ⟨_, List.mem_cons_self, _, rfl, .inside (List.mem_cons_of_mem _ List.mem_cons_self)
    (.here (by decide))⟩

/-- A short row, after the square was asked for: it is refused. -/
theorem ragged_refused_iff_shortRow :
    Record.shortRow.Typed ∧ Record.shortRow.Ragged ∧
      ∃ (handed : Machine.Handed) (m : Machine),
        Machine.Session .bn254 (fun _ m => m.AsksFor
          (Component.RaggedUnder Record.shortRow.schema.uniqueName)) handed m ∧
        m.ex.gadgets.map (·.name) = ["Square"] ∧ ∀ body : Record → Program,
          m.ex.RefusesLengths .shortRow (Component.define ⟨.shortRow, body⟩ m.ex) ∧
            m.ex.RefusesLengths .shortRow ((Program.call .shortRow body).run m.ex) := by
  have hsquare : Program.square.RaggedUnder Record.shortRow.schema.uniqueName := by
    intro hname
    exact absurd hname (by decide +kernel)
  have hstart : Machine.Session .bn254
      (fun _ m => m.AsksFor (Component.RaggedUnder Record.shortRow.schema.uniqueName)) _ _ :=
    .client .start (.resume ⟨rfl, .inl ⟨_, rfl⟩⟩
      (.handleOf Program.square.record Program.square.body))
  have hsealed := ((hstart.step hsquare (.enter rfl rfl)).step trivial (.perform rfl)).step trivial
    (.enroll rfl rfl)
  refine ⟨Record.shortRow_typed, Record.shortRow_ragged, _, _, hsealed, by decide, ?_⟩
  intro body
  exact (ragged_refused_iff Record.shortRow_typed Record.shortRow_ragged body).2 hsealed

/-- A short row, after two full rows were asked for under the same name: the request is answered,
    and the call is accepted and recorded. -/
theorem not_ragged_refused :
    Record.shortRow.Typed ∧ Record.shortRow.Ragged ∧
      ∃ (handed : Machine.Handed) (m : Machine),
        Machine.Session .bn254 (fun _ _ => True) handed m ∧ m.ex.code = [] ∧
          ∃ body : Record → Program,
            (∃ callee, (Component.define ⟨.shortRow, body⟩ m.ex).2 = .ok callee) ∧
              (∃ a, ((Program.call .shortRow body).run m.ex).2 = .ok a) ∧
                ((Program.call .shortRow body).run m.ex).1.code.length = 1 := by
  let row : Signal := .array [.wire .nil, .wire .nil]
  let full : Record := ⟨"Rows", [⟨"x", .signal (.array [row, row])⟩]⟩
  let body (_ : Record) : Program := .done .unit
  have hstart : Machine.Session .bn254 (fun _ _ => True) _ _ :=
    .client .start (.resume ⟨rfl, .inl ⟨_, rfl⟩⟩ (.handleOf full body))
  have hsealed := (hstart.step trivial (.enter rfl rfl)).step trivial (.enroll rfl rfl)
  let entry : Gadget := full.schema.gadget none []
  let before : Extractor := (Extractor.start .bn254).note (.extractingGadget entry.name)
  -- The short row has the schema of the full rows, and so their unique name.
  have hfind : (before.enroll entry).1.find? Record.shortRow.schema.uniqueName = some _ :=
    Extractor.find?_enroll rfl
  have hdefine : Component.define ⟨.shortRow, body⟩ (before.enroll entry).1 = _ :=
    Extractor.define_of_find?_eq_some hfind _
  have hcall : (Program.call .shortRow body).run (before.enroll entry).1 = _ :=
    Program.run_define_eq hdefine
  exact ⟨Record.shortRow_typed, Record.shortRow_ragged, _, _, hsealed, rfl, body,
    ⟨_, congrArg Prod.snd hdefine⟩, ⟨_, congrArg Prod.snd hcall⟩,
    congrArg (fun done => done.1.code.length) hcall⟩

end GateTrace
