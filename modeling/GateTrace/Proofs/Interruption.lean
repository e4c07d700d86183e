import GateTrace.Proofs.Initialization

/-! # Interrupted initialization

    What an initialization leaves of a record, also where it stops half-way. The key ideas:

    - The schema of a record is made of the names of its fields, the layouts of its signals and the
      values of its parameters. No assignment touches any of these, so neither does initialization,
      whatever schema it is given.
    - Fields are filled in order. Where one refuses its placeholder, those before it were filled as if
      they were all there is, and those after it were not looked at.
-/

namespace GateTrace

/-! ### What makes up a schema -/

/-- Records of one type name have the same schema if their fields only differ in the values of
    wires. -/
theorem Record.schema_eq_of_frame {r r' : Record} (htype : r.typeName = r'.typeName)
    (h : r.fields.map Field.frame = r'.fields.map Field.frame) : r.schema = r'.schema := by
  -- What a field contributes to the schema can be read off its frame.
  have hargument : Field.argument? =
      (fun x : String × Option Layout × Option Int =>
        x.2.1.map fun l => (⟨x.1, l.shape⟩ : Argument)) ∘ Field.frame := by
    funext ⟨name, slot⟩
    cases slot with
    | signal s =>
      show some (⟨name, s.shape⟩ : Argument) = some ⟨name, s.layout.shape⟩
      rw [s.shape_layout]
    | parameter v => rfl
  have hparameter : Field.parameter? = (fun x => x.2.2) ∘ Field.frame := rfl
  have hargs : r.schema.args = r'.schema.args := by
    show r.fields.filterMap Field.argument? = r'.fields.filterMap Field.argument?
    rw [hargument, ← List.filterMap_map, ← List.filterMap_map, h]
  have hparams : r.schema.params = r'.schema.params := by
    show r.fields.filterMap Field.parameter? = r'.fields.filterMap Field.parameter?
    rw [hparameter, ← List.filterMap_map, ← List.filterMap_map, h]
  calc
    r.schema = ⟨r.typeName, r.schema.args, r.schema.params⟩ := rfl
    _ = ⟨r'.typeName, r'.schema.args, r'.schema.params⟩ := by rw [htype, hargs, hparams]
    _ = r'.schema := rfl

/-! ### Where it stops -/

/-- Whether `filled` are the fields `before` once their signals, from input number `j` on, hold the
    placeholders of the arguments `used`. -/
structure Field.Filled (j : Nat) (used : List Argument) (before filled : List Field) : Prop where
  values : filled.filterMap value? = (used.zipIdx j).map fun a => .placeholder a.1.shape (.input a.2)
  frame : filled.map frame = before.map frame

/-- Why an initialization stops at a signal field with input number `j`, and what is left of the
    field. If no argument is listed at its place, or one of another name, that is the field itself;
    otherwise it is what a failed assignment of the placeholder leaves. -/
inductive Field.Refuses (typeName : String) (j : Nat) :
    Option Argument → Field → Field → Error → Prop
  | missing {name : String} {s : Signal} :
    Refuses typeName j none ⟨name, .signal s⟩ ⟨name, .signal s⟩
      (.extraction (.missingFromSchema typeName name))
  | other {arg : Argument} {name : String} {s : Signal} (hname : arg.name ≠ name) :
    Refuses typeName j (some arg) ⟨name, .signal s⟩ ⟨name, .signal s⟩
      (.extraction (.otherField typeName arg.name name))
  | assign {arg : Argument} {s left : Signal} {e : Error}
    (hleft : s.assign arg.name (.placeholder arg.shape (.input j)) = (left, .error e)) :
    Refuses typeName j (some arg) ⟨arg.name, .signal s⟩ ⟨arg.name, .signal left⟩ e

/-- How fields are left by an initialization that fails, given the arguments from input number `j`
    on: it stops at a signal, with the fields before it filled and those after it untouched, or it
    comes to the end of the fields with an argument left. -/
inductive Field.Interrupted (typeName : String) (j : Nat) (args : List Argument) (fs : List Field) :
    List Field → Error → Prop
  | atSignal {before later filled : List Field} {f left : Field} {used rest : List Argument}
    {e : Error} (hfields : fs = before ++ f :: later) (hargs : args = used ++ rest)
    (hfilled : Filled j used before filled)
    (hrefuses : Refuses typeName (j + used.length) rest.head? f left e) :
    Interrupted typeName j args fs (filled ++ left :: later) e
  | pastFields {filled : List Field} {used rest : List Argument} {arg : Argument}
    (hargs : args = used ++ arg :: rest) (hfilled : Filled j used fs filled) :
    Interrupted typeName j args fs filled (.extraction (.missingFromRecord typeName arg.name))

namespace Field

variable {typeName : String} {j : Nat} {args : List Argument} {fs : List Field}

theorem Filled.nil : Filled j [] [] [] := ⟨rfl, rfl⟩

theorem Filled.parameter {before filled : List Field} (h : Filled j args before filled)
    (name : String) (v : Int) :
    Filled j args (⟨name, .parameter v⟩ :: before) (⟨name, .parameter v⟩ :: filled) := by
  refine ⟨?_, ?_⟩
  · rw [List.filterMap_cons_none rfl, h.values]
  · rw [List.map_cons, List.map_cons, h.frame]

/-- A signal that takes its placeholder comes first among the fields that are filled. -/
theorem Filled.signal {before filled : List Field} {arg : Argument} {s t : Signal}
    (h : Filled (j + 1) args before filled)
    (hassign : s.assign arg.name (.placeholder arg.shape (.input j)) = (t, .ok ())) :
    Filled j (arg :: args) (⟨arg.name, .signal s⟩ :: before) (⟨arg.name, .signal t⟩ :: filled) := by
  obtain ⟨hlayout, hvalue⟩ := Signal.assign_eq_ok_iff.mp hassign
  refine ⟨?_, ?_⟩
  · have hfirst : value? ⟨arg.name, .signal t⟩ = some (.placeholder arg.shape (.input j)) := by
      rw [← hvalue]
      rfl
    rw [List.filterMap_cons_some hfirst, h.values]
    rfl
  · rw [List.map_cons, List.map_cons, h.frame]
    simp only [Field.frame, layout?, hlayout]
    rfl

/-- Where the others are interrupted after a first field, which used up the arguments `front`, all of
    them are. -/
theorem Interrupted.cons {f g : Field} (front : List Argument) {done : List Field} {e : Error}
    (h : Interrupted typeName (j + front.length) args fs done e)
    (hfirst : ∀ used before filled, Filled (j + front.length) used before filled →
      Filled j (front ++ used) (f :: before) (g :: filled)) :
    Interrupted typeName j (front ++ args) (f :: fs) (g :: done) e := by
  cases h with
  | @atSignal before later filled f' left used rest _ hfields hargs hfilled hrefuses =>
    have hargs' : front ++ args = (front ++ used) ++ rest := by rw [hargs, List.append_assoc]
    have hfields' : f :: fs = (f :: before) ++ f' :: later := by rw [hfields]; rfl
    refine .atSignal hfields' hargs' (hfirst _ _ _ hfilled) ?_
    rw [List.length_append, ← Nat.add_assoc]
    exact hrefuses
  | @pastFields _ used rest arg hargs hfilled =>
    have hargs' : front ++ args = (front ++ used) ++ arg :: rest := by
      rw [hargs, List.append_assoc]
    exact .pastFields hargs' (hfirst _ _ _ hfilled)

theorem interrupted_of_fill {e : Error} (h : (fill typeName j args fs).2 = .error e) :
    Interrupted typeName j args fs (fill typeName j args fs).1 e := by
  induction fs generalizing j args with
  | nil =>
    cases args with
    | nil => simp [fill] at h
    | cons arg args =>
      obtain rfl := Except.error.inj h
      exact .pastFields rfl .nil
  | cons f fs ih =>
    obtain ⟨name, slot⟩ := f
    cases slot with
    | parameter v =>
      rw [fill_parameter] at h ⊢
      exact Interrupted.cons [] (ih h) fun _ _ _ hfilled => hfilled.parameter name v
    | signal s =>
      cases args with
      | nil =>
        obtain rfl := Except.error.inj h
        exact .atSignal (List.nil_append _).symm (List.nil_append _).symm .nil .missing
      | cons arg args =>
        by_cases hname : arg.name = name
        · subst hname
          cases hfirst : s.assign arg.name (.placeholder arg.shape (.input j)) with
          | mk t result =>
            simp only [fill, assign, if_true, hfirst] at h ⊢
            cases result with
            | error e' =>
              obtain rfl := Except.error.inj h
              exact .atSignal (List.nil_append _).symm (List.nil_append _).symm .nil (.assign hfirst)
            | ok u =>
              -- This field is filled, so it is among the others that one refuses.
              exact Interrupted.cons [arg] (ih h) fun _ _ _ hfilled => hfilled.signal hfirst
        · simp only [fill, if_neg hname] at h ⊢
          obtain rfl := Except.error.inj h
          exact .atSignal (List.nil_append _).symm (List.nil_append _).symm .nil (.other hname)

end Field

/-- However an initialization ends, and with whatever schema, the record has the schema that it had,
    and so has each of its arrays its length, at every level. If it stops at a signal, the signals
    before it hold their placeholders and all fields after it are as they were. -/
theorem Record.withPlaceholders_keeps_schema (r : Record) (s : Schema) :
    (r.withPlaceholders s).1.schema = r.schema ∧
    (r.withPlaceholders s).1.fields.map Field.frame = r.fields.map Field.frame ∧
    ∀ e, (r.withPlaceholders s).2 = .error e →
      Field.Interrupted s.typeName 0 s.args r.fields (r.withPlaceholders s).1.fields e := by
  have hframe : (r.withPlaceholders s).1.fields.map Field.frame = r.fields.map Field.frame :=
    Field.frame_fill
  exact ⟨schema_eq_of_frame rfl hframe, hframe, fun e h => Field.interrupted_of_fill h⟩

/-- A wire, a parameter, two rows of which the second is one short, and another wire. The second row
    refuses its placeholder when the first has taken its own, and the last wire keeps its literal. -/
theorem Record.withPlaceholders_keeps_schema_short :
    let rows (v w : Value) : Signal := .array [.array [.wire v, .wire w], .array [.wire (.int 3)]]
    let record (x : Value) (m : Signal) : Record := ⟨"Rows", [⟨"x", .signal (.wire x)⟩,
      ⟨"n", .parameter (-4)⟩, ⟨"m", .signal m⟩, ⟨"y", .signal (.wire (.int 9))⟩]⟩
    let r : Record := record .nil (rows (.int 1) (.int 2))
    let first (k : Nat) : Value := .operand (.proj (.proj (.input 1) 0 2) k 2)
    let after : Record := record (.operand (.input 0)) (rows (first 0) (first 1))
    r.withPlaceholders r.schema = (after, .error (.schemaMismatch "m" 2 1)) ∧
      after.schema = r.schema ∧ after.fields.map Field.frame = r.fields.map Field.frame ∧
      Field.Interrupted "Rows" 0 r.schema.args r.fields after.fields (.schemaMismatch "m" 2 1) := by
  intro rows record r first after
  have hdone : r.withPlaceholders r.schema = (after, .error (.schemaMismatch "m" 2 1)) := rfl
  have hresult : (r.withPlaceholders r.schema).2 = .error (.schemaMismatch "m" 2 1) := by rw [hdone]
  obtain ⟨hschema, hframe, hinterrupted⟩ := r.withPlaceholders_keeps_schema r.schema
  exact ⟨hdone, hschema, hframe, hinterrupted _ hresult⟩

end GateTrace
