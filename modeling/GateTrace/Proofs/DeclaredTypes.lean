import GateTrace.Proofs.Family
import GateTrace.Proofs.Storage
import Mathlib.Data.List.Nodup

/-! # Declared types

    Gadgets come in types: a type has a name, it declares the fields of its records, and it has one
    definition. The key ideas:

    - Where the names of types are different and have no underscores, a unique name tells the type.
      So the records of the types that are not ragged make a coherent family, if their definitions
      keep to it.
    - A definition gets its record with the fields as they were declared, and what is read as a
      signal of a type is of that type. So a definition knows what it passes on.
    - A type without vectors fixes the shape of its signals. Records of such types are never ragged.
-/

namespace GateTrace

/-! ### Types of gadgets -/

/-- A type of gadgets. -/
structure Declaration where
  typeName : String
  /-- The fields in declaration order, each with its type, or with none if it is a parameter. -/
  fields : List (String × Option SignalType)
  body : Record → Program

/-- A field as it was declared. -/
inductive Field.Declared : String × Option SignalType → Field → Prop
  | signal {name : String} {type : SignalType} {s : Signal} (hs : s.HasType type) :
    Declared (name, some type) ⟨name, .signal s⟩
  | parameter {name : String} {v : Int} : Declared (name, none) ⟨name, .parameter v⟩

def Declaration.component (d : Declaration) (fields : List Field) : Component :=
  ⟨⟨d.typeName, fields⟩, d.body⟩

/-- Whether a component is a gadget of a type, on a record that is not ragged. -/
structure Declaration.Declares (d : Declaration) (c : Component) : Prop where
  typeName : c.record.typeName = d.typeName
  fields : List.Forall₂ Field.Declared d.fields c.record.fields
  rectangular : c.record.Rectangular
  body : c.body = d.body

def Declaration.Family (ds : List Declaration) (c : Component) : Prop := ∃ d ∈ ds, d.Declares c

variable {ds : List Declaration} {d : Declaration} {c : Component} {field : ScalarField}

theorem Field.sameType_of_declared {types : List (String × Option SignalType)} {fs gs : List Field}
    (hfs : List.Forall₂ Declared types fs) (hgs : List.Forall₂ Declared types gs) :
    List.Forall₂ SameType fs gs := by
  induction hfs generalizing gs with
  | nil =>
    cases hgs
    exact .nil
  | cons hf _ ih =>
    cases hgs with
    | cons hg hgs =>
      refine .cons ?_ (ih hgs)
      cases hf with
      | signal hs =>
        cases hg with
        | signal ht => exact .signal hs ht
      | parameter =>
        cases hg with
        | parameter => exact .parameter

/-- Gadgets of types whose names are different and have no underscores make a coherent family, if
    their definitions keep to it. -/
theorem Declaration.coherent (hdistinct : (ds.map (·.typeName)).Nodup)
    (hplain : ∀ d ∈ ds, '_' ∉ d.typeName.toList)
    (hover : ∀ c, Family ds c → c.Over (Family ds) field) : Coherent (Family ds) field := by
  -- A unique name begins with the name of the type, and that goes as far as the first underscore.
  have htype : ∀ d ∈ ds, ∀ d' ∈ ds, ∀ {c c' : Component}, d.Declares c → d'.Declares c' →
      c.record.schema.uniqueName = c'.record.schema.uniqueName → d = d' := by
    intro d hd d' hd' c c' hc hc' hname
    have htypeName : c.record.typeName = c'.record.typeName := by
      refine (Schema.typeName_eq_of_uniqueName ?_ ?_ hname).1
      · show '_' ∉ c.record.typeName.toList
        rw [hc.typeName]
        exact hplain d hd
      · show '_' ∉ c'.record.typeName.toList
        rw [hc'.typeName]
        exact hplain d' hd'
    rw [hc.typeName, hc'.typeName] at htypeName
    exact List.inj_on_of_nodup_map hdistinct hd hd' htypeName
  refine ⟨?_, ?_, ?_, hover⟩
  · rintro c ⟨d, -, hc⟩
    exact hc.rectangular
  · rintro c c' ⟨d, hd, hc⟩ ⟨d', hd', hc'⟩ hname
    obtain rfl := htype d hd d' hd' hc hc' hname
    exact ⟨hc.typeName.trans hc'.typeName.symm, Field.sameType_of_declared hc.fields hc'.fields⟩
  · rintro c c' ⟨d, hd, hc⟩ ⟨d', hd', hc'⟩ hname
    obtain rfl := htype d hd d' hd' hc hc' hname
    exact hc.body.trans hc'.body.symm

/-! ### Placeholders -/

/-- Whether a field is as it was declared shows in its frame. -/
theorem Field.Declared.of_frame {type : String × Option SignalType} {f g : Field}
    (hf : Declared type f) (h : g.frame = f.frame) : Declared type g := by
  obtain ⟨name, slot⟩ := g
  cases hf with
  | signal hs =>
    cases slot with
    | signal t =>
      -- A signal of the same frame has the layout of the one that was declared.
      obtain ⟨rfl, hlayout, -⟩ := Prod.mk.inj h |>.imp_right Prod.mk.inj
      exact .signal (hs.of_layout (Option.some.inj hlayout))
    | parameter w => simp [frame, layout?] at h
  | parameter =>
    cases slot with
    | signal t => simp [frame, layout?] at h
    | parameter w =>
      obtain ⟨rfl, -⟩ := Prod.mk.inj h
      exact .parameter

/-- Fields that hold placeholders are still as they were declared. -/
theorem Record.declared_withPlaceholders {types : List (String × Option SignalType)}
    {r inner : Record} {s : Schema} {result : Except Error Unit}
    (h : List.Forall₂ Field.Declared types r.fields)
    (hinner : r.withPlaceholders s = (inner, result)) :
    List.Forall₂ Field.Declared types inner.fields := by
  -- However the initialization ended, every field has kept its frame.
  have hframe : inner.fields.map Field.frame = r.fields.map Field.frame := by
    obtain rfl : _ = inner := congrArg Prod.fst hinner
    exact Field.frame_fill
  clear hinner
  generalize r.fields = fs at h hframe
  generalize inner.fields = gs at hframe ⊢
  induction h generalizing gs with
  | nil =>
    obtain rfl := List.map_eq_nil_iff.mp hframe
    exact .nil
  | cons hf _ ih =>
    cases gs with
    | nil => cases hframe
    | cons g gs =>
      obtain ⟨hfirst, hrest⟩ := List.cons.inj hframe
      exact .cons (hf.of_frame hfirst) (ih gs hrest)

/-! ### Types without vectors -/

def SignalType.Fixed : SignalType → Prop
  | .wire => True
  | .vec _ => False
  | .array _ elem => elem.Fixed

namespace Signal.HasType

variable {type : SignalType} {s t : Signal}

theorem shape_eq (hs : s.HasType type) (ht : t.HasType type) (htype : type.Fixed) :
    s.shape = t.shape := by
  induction type generalizing s t with
  | wire =>
    cases hs
    cases ht
    rfl
  | vec elem => exact htype.elim
  | array len elem ih =>
    cases hs with
    | @array _ _ slots hlen hslots =>
      cases ht with
      | @array _ _ items hlen' hitems =>
        cases slots with
        | nil =>
          obtain rfl := List.length_eq_zero_iff.mp (hlen'.trans hlen.symm)
          rfl
        | cons x slots =>
          cases items with
          | nil => exact absurd (hlen.trans hlen'.symm) (by simp)
          | cons y items =>
            -- Both arrays have the declared length, and their first elements one shape.
            have hcount : slots.length = items.length := by simpa using hlen.trans hlen'.symm
            simp only [shape]
            rw [hcount, ih (hslots x (by simp)) (hitems y (by simp)) htype]

theorem rectangular (hs : s.HasType type) (htype : type.Fixed) : s.Rectangular := by
  induction hs with
  | wire => exact .wire
  | vec => exact htype.elim
  | array hlen hitems ih =>
    refine .array (fun s hs => ih s hs htype) ?_
    intro s hs t ht
    exact (hitems s hs).shape_eq (hitems t ht) htype

end Signal.HasType

theorem Record.rectangular_of_declared {types : List (String × Option SignalType)} {r : Record}
    (h : List.Forall₂ Field.Declared types r.fields)
    (hfixed : ∀ field ∈ types, ∀ type ∈ field.2, SignalType.Fixed type) : r.Rectangular := by
  unfold Rectangular
  generalize r.fields = fs at h ⊢
  induction h with
  | nil => simp
  | cons hf _ ih =>
    rw [List.forall_mem_cons] at hfixed ⊢
    refine ⟨?_, ih hfixed.2⟩
    cases hf with
    | @signal name type s hs =>
      rintro _ ⟨⟩
      exact hs.rectangular (hfixed.1 type rfl)
    | parameter =>
      rintro _ ⟨⟩

/-- Declared fields make a gadget of a type that declares no vectors. -/
theorem Declaration.declares_component
    (hfixed : ∀ field ∈ d.fields, ∀ type ∈ field.2, SignalType.Fixed type) {fields : List Field}
    (hfields : List.Forall₂ Field.Declared d.fields fields) : d.Declares (d.component fields) :=
  ⟨rfl, hfields, Record.rectangular_of_declared hfields hfixed, rfl⟩

/-! ### Calls whose answers are passed on -/

namespace Program

/-- Call a gadget, read the answer as a signal of a type, and go on with that. -/
def callThen (type : SignalType) (r : Record) (body : Record → Program)
    (next : Signal → Program) : Program :=
  (call r body).attempt fun
    | .ok a =>
      match Signal.ofValue type a.toValue with
      | .ok s => next s
      | .error e => .stop (.error e)
    | .error e => .stop (.error e)

variable {type : SignalType} {ex ex' : Extractor} {r : Record} {body : Record → Program}
  {next : Signal → Program}

theorem onlyAsks_callThen {requests : Requests} (h : requests ex ⟨r, body⟩)
    (hnext : ∀ {s : Signal} {mid : Extractor}, s.HasType type →
      (next s).OnlyAsks requests mid) :
    (callThen type r body next).OnlyAsks requests ex := by
  apply (onlyAsks_call h).attempt
  · intro mid a _
    show OnlyAsks requests (match Signal.ofValue type a.toValue with
      | .ok s => next s
      | .error e => .stop (.error e)) mid
    split
    · next s hs => exact hnext ((Signal.ofValue_eq_ok_iff _ s).mp hs).1
    · trivial
  · intro mid e _
    trivial

/-- Calls of one gadget whose answers are passed on alike are alike. -/
theorem Alike.callThen {handles : Handles}
    (hnext : ∀ {s : Signal} {held : Handles} {mid mid' : Extractor}, s.HasType type →
      Alike held (next s) mid (next s) mid') :
    Alike handles (callThen type r body next) ex (callThen type r body next) ex' := by
  apply Alike.attempt (.call rfl rfl)
  · intro held mid mid' a a' _ _ _ hanswer
    -- What is read of the answers is the same signal, or the same error.
    have hvalue : a.toValue = a'.toValue := by
      cases hanswer <;> rfl
    simp only [hvalue]
    split
    · next s hs => exact hnext ((Signal.ofValue_eq_ok_iff _ s).mp hs).1
    · exact .stop
  · intro held mid mid' e _ _ _
    exact .stop

end Program

/-! ### Gadgets that pass their signals on -/

/-- The rows of a pair, the second first. -/
def Value.swapped (v : Value) : Except Panic Value := do
  return .list [← v.element 1, ← v.element 0]

namespace Declaration

abbrev grid : SignalType := .array 2 (.array 2 .wire)

def square : Declaration where
  typeName := "Square"
  fields := [("x", some .wire)]
  body inner := .ofOperation (.mul (inner.values.headD .nil) (inner.values.headD .nil) [])

def swapRows : Declaration where
  typeName := "SwapRows"
  fields := [("m", some grid)]
  body inner := .ofPanic ((inner.values.headD .nil).swapped.map .value)

/-- A type whose gadgets call a gadget of another type, of one field, on their own field, and then
    once more on what that answers. -/
def twice (d : Declaration) (typeName name : String) (type : SignalType) : Declaration where
  typeName := typeName
  fields := [(name, some type)]
  body inner := .callThen type ⟨d.typeName, inner.fields⟩ d.body fun s =>
    .call ⟨d.typeName, [⟨name, .signal s⟩]⟩ d.body

def fourth : Declaration := square.twice "Fourth" "x" .wire

def swapTwice : Declaration := swapRows.twice "SwapTwice" "m" grid

/-- Types of gadgets that pass on to each other what they hold, and what they are answered. -/
def samples : List Declaration := [square, fourth, swapRows, swapTwice]

theorem family_samples (hd : d ∈ samples) {fields : List Field}
    (hfields : List.Forall₂ Field.Declared d.fields fields) :
    Family samples ⟨⟨d.typeName, fields⟩, d.body⟩ := by
  refine ⟨d, hd, declares_component ?_ hfields⟩
  revert d
  simp [samples, square, fourth, swapRows, swapTwice, twice, SignalType.Fixed]

/-- A gadget or circuit that passes on its own field, and then the answer, keeps to the family: both
    are of the type that is declared. -/
theorem over_twice (hd : d ∈ samples) {typeName name : String} {type : SignalType}
    (hfields : d.fields = [(name, some type)]) (hc : (d.twice typeName name type).Declares c) :
    c.Over (Family samples) field := by
  constructor
  · intro ex _ inner hinner
    have hinner := Record.declared_withPlaceholders hc.fields hinner
    rw [hc.body]
    show (Program.callThen type ⟨d.typeName, inner.fields⟩ d.body _).OnlyAsks _ _
    apply Program.onlyAsks_callThen
    -- The first call passes on the field, which is as it was declared.
    · refine family_samples hd ?_
      rw [hfields]
      exact hinner
    · intro s mid hs
      -- The second call passes on what was read, which is a signal of the declared type.
      apply Program.onlyAsks_call
      refine family_samples hd ?_
      rw [hfields]
      exact .cons (.signal hs) .nil
  · intro ex ex' inner _ _ _
    rw [hc.body]
    show Program.Alike [] (.callThen type ⟨d.typeName, inner.fields⟩ d.body _) _ (.callThen ..) _
    apply Program.Alike.callThen
    intro s held mid mid' _
    exact .call rfl rfl

theorem over_samples (hc : Family samples c) : c.Over (Family samples) field := by
  obtain ⟨d, hd, hc⟩ := hc
  simp only [samples, List.mem_cons, List.not_mem_nil, or_false] at hd
  -- The square and the swap of rows ask for nothing; the other two types go through `over_twice`.
  rcases hd with rfl | rfl | rfl | rfl
  · constructor
    · intro ex _ inner _
      rw [hc.body]
      apply Program.onlyAsks_ofOperation
    · intro ex ex' inner _ _ _
      rw [hc.body]
      exact .ofOperation
  · exact over_twice (d := square) (by simp [samples]) rfl hc
  · constructor
    · intro ex _ inner _
      rw [hc.body]
      apply Program.onlyAsks_ofPanic
    · intro ex ex' inner _ _ _
      rw [hc.body]
      exact .ofPanic
  · exact over_twice (d := swapRows) (by simp [samples]) rfl hc

theorem coherent_samples : Coherent (Family samples) field :=
  coherent (by decide) (by decide) fun _ => over_samples

def fourthOf (v : Value) : Component := fourth.component [⟨"x", .signal (.wire v)⟩]

/-- Two rows of one value, as the field of a gadget or circuit. -/
def rowsOf (v : Value) : Field :=
  ⟨"m", .signal (.array [.array [.wire v, .wire v], .array [.wire v, .wire v]])⟩

theorem declared_rowsOf (v : Value) :
    List.Forall₂ Field.Declared [("m", some grid)] [rowsOf v] := by
  have hrow : (Signal.array [.wire v, .wire v]).HasType (.array 2 .wire) := by
    refine .array rfl ?_
    simp [Signal.HasType.wire]
  refine .cons (.signal (.array rfl ?_)) .nil
  simp [hrow]

def swapTwiceOf (v : Value) : Component := swapTwice.component [rowsOf v]

theorem family_fourthOf (v : Value) : Family samples (fourthOf v) :=
  family_samples (by simp [samples]) (.cons (.signal .wire) .nil)

theorem family_swapTwiceOf (v : Value) : Family samples (swapTwiceOf v) :=
  family_samples (by simp [samples]) (declared_rowsOf v)

end Declaration

end GateTrace
