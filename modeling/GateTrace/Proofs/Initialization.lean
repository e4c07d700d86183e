import GateTrace.Proofs.Storage

/-! # Initialization

    When the signals of a record can be overwritten with placeholders, and what the record holds
    then. The key ideas:

    - The placeholder of a shape fits into storage that has an array only where the shape has one of
      exactly that length. A wire takes whatever is left of the shape, as one value.
    - Fields and listed arguments are gone through side by side, so initialization succeeds exactly
      if they agree in number, names and storage.
    - Storage of a declared type conforms to its own shape exactly if it is rectangular: the shape is
      read off first elements, and what conforms to the shape of the first element has that shape.
-/

namespace GateTrace

namespace Signal

/-! ### Conforming storage -/

/-- Whether the storage of a signal conforms to a shape: an array to one of its own length with an
    element shape that every slot conforms to, and a wire to any shape. -/
def Conforms : Shape → Signal → Prop
  | _, .wire _ => True
  | .array len elem, .array slots => slots.length = len ∧ ∀ s ∈ slots, Conforms elem s
  | .scalar, .array _ => False

def decideConforms : (shape : Shape) → (s : Signal) → Decidable (s.Conforms shape)
  | .scalar, .wire _ | .array _ _, .wire _ => isTrue trivial
  | .array len elem, .array slots =>
    have : DecidablePred (Conforms elem) := decideConforms elem
    inferInstanceAs (Decidable (slots.length = len ∧ ∀ s ∈ slots, Conforms elem s))
  | .scalar, .array _ => isFalse id

instance (shape : Shape) (s : Signal) : Decidable (s.Conforms shape) := decideConforms shape s

/-- Slots that are each given a value take them all if each takes its own. -/
theorem assignItems_ok_iff {field : String} {slots : List Signal} {values : List Value}
    (hlen : values.length = slots.length) :
    (assignItems field slots values).2 = .ok () ↔
      List.Forall₂ (fun s v => (s.assign field v).2 = .ok ()) slots values := by
  induction slots generalizing values with
  | nil =>
    obtain rfl := List.length_eq_zero_iff.mp hlen
    simp [assignItems]
  | cons s slots ih =>
    cases values with
    | nil => simp at hlen
    | cons v values =>
      rw [List.forall₂_cons, ← ih (by simpa using hlen)]
      -- Slots are filled in order, so the first decides whether the rest is looked at.
      cases hfirst : (s.assign field v).2 with
      | ok u => simp [assignItems, hfirst]
      | error e => simp [assignItems, hfirst]

/-- Whether slots take placeholders of one shape does not depend on what these stand for. -/
theorem assignItems_placeholders_ok_iff {field : String} {elem : Shape} {base : Operand} {n : Nat}
    (h : ∀ (s : Signal) b, (s.assign field (.placeholder elem b)).2 = .ok () ↔ s.Conforms elem)
    {slots : List Signal} {positions : List Nat} (hlen : positions.length = slots.length) :
    (assignItems field slots (positions.map fun k => .placeholder elem (.proj base k n))).2 = .ok () ↔
      ∀ s ∈ slots, s.Conforms elem := by
  rw [assignItems_ok_iff (by simpa using hlen), List.forall₂_map_right_iff]
  simp only [h]
  induction slots generalizing positions with
  | nil =>
    obtain rfl := List.length_eq_zero_iff.mp hlen
    simp
  | cons s slots ih =>
    cases positions with
    | nil => simp at hlen
    | cons k positions => rw [List.forall₂_cons, ih (by simpa using hlen), List.forall_mem_cons]

/-- A signal takes the placeholder of a shape exactly if its storage conforms to the shape. -/
theorem assign_ok_iff {field : String} {shape : Shape} (s : Signal) (base : Operand) :
    (s.assign field (.placeholder shape base)).2 = .ok () ↔ s.Conforms shape := by
  induction shape generalizing s base with
  | scalar =>
    cases s with
    | wire v => simp [assign, Conforms]
    | array slots => simp [Value.placeholder, assign, Conforms]
  | array len elem ih =>
    cases s with
    | wire v => simp [assign, Conforms]
    | array slots =>
      simp only [Value.placeholder, assign, List.length_map, List.length_range, Conforms]
      -- An array takes a list of its own length only, and then it is up to the slots.
      by_cases hlen : len = slots.length
      · rw [if_pos hlen, assignItems_placeholders_ok_iff ih (by simpa using hlen)]
        simp [hlen]
      · rw [if_neg hlen]
        simp [Ne.symm hlen]

/-! ### Storage and its own shape -/

/-- A signal conforms to the shape of another of its type only if it has that shape itself. -/
theorem shape_eq_of_conforms {type : SignalType} {s t : Signal} (hs : s.HasType type)
    (ht : t.HasType type) : s.Conforms t.shape → s.shape = t.shape := by
  refine HasType.induction₂ ?wire ?array hs ht
  case wire =>
    intro v w _
    rfl
  case array =>
    intro elem slots items hslots hitems ih h
    cases items with
    | nil =>
      obtain rfl : slots = [] := List.length_eq_zero_iff.mp h.1
      rfl
    | cons t items =>
      cases slots with
      | nil => exact absurd h.1 (by simp)
      | cons s slots =>
        -- Of two arrays of one length, only the shapes of the first elements can still differ.
        have hlen : slots.length = items.length := by simpa using h.1
        have hshape : s.shape = t.shape :=
          ih s t (hslots s (by simp)) (hitems t (by simp)) (h.2 s (by simp))
        simp only [shape]
        rw [hlen, hshape]

/-- An array that conforms to its own shape is rectangular, if that holds of its elements. -/
theorem rectangular_array_of_conforms {elem : SignalType} {items : List Signal}
    (hitems : ∀ s ∈ items, s.HasType elem)
    (ih : ∀ s ∈ items, s.Conforms s.shape → s.Rectangular)
    (h : (Signal.array items).Conforms (Signal.array items).shape) :
    (Signal.array items).Rectangular := by
  cases items with
  | nil => exact .array (by simp) (by simp)
  | cons t items =>
    -- Every element conforms to the shape of the first, and so has it.
    have hshape : ∀ s ∈ t :: items, s.shape = t.shape := fun s hs =>
      shape_eq_of_conforms (hitems s hs) (hitems t (by simp)) (h.2 s hs)
    refine .array ?_ ?_
    · intro s hs
      apply ih s hs
      rw [hshape s hs]
      exact h.2 s hs
    · intro s hs s' hs'
      rw [hshape s hs, hshape s' hs']

/-- A signal of a declared type conforms to its own shape exactly if it is rectangular. -/
theorem conforms_own_iff {type : SignalType} {s : Signal} (hs : s.HasType type) :
    s.Conforms s.shape ↔ s.Rectangular := by
  constructor
  · intro h
    induction hs with
    | wire => exact .wire
    | vec hitems ih => exact rectangular_array_of_conforms hitems ih h
    | array _ hitems ih => exact rectangular_array_of_conforms hitems ih h
  · intro h
    have hassign := @assign_placeholder "" s h (.input 0)
    exact (s.assign_ok_iff (.input 0)).mp (congrArg Prod.snd hassign)

end Signal

/-! ### Signals of a record -/

def Field.signal? (f : Field) : Option (String × Signal) :=
  match f.slot with
  | .signal s => some (f.name, s)
  | .parameter _ => none

/-- The signals of a record by name, in declaration order. -/
def Record.signals (r : Record) : List (String × Signal) := r.fields.filterMap Field.signal?

/-- Whether a record conforms to a schema: its signals have the listed names, in order, and storage
    that conforms to the listed shapes. -/
structure Record.Conforms (r : Record) (s : Schema) : Prop where
  names : r.signals.map Prod.fst = s.args.map Argument.name
  storage : List.Forall₂ (fun signal arg => signal.2.Conforms arg.shape) r.signals s.args

theorem Record.mem_signals_iff {r : Record} {name : String} {s : Signal} :
    (name, s) ∈ r.signals ↔ ⟨name, .signal s⟩ ∈ r.fields := by
  unfold signals
  rw [List.mem_filterMap]
  constructor
  · rintro ⟨⟨name', slot⟩, hf, heq⟩
    cases slot with
    | signal s' =>
      obtain ⟨rfl, rfl⟩ := Prod.mk.inj (Option.some.inj heq)
      exact hf
    | parameter v => contradiction
  · intro hf
    exact ⟨_, hf, rfl⟩

theorem Record.args_schema (r : Record) :
    r.schema.args = r.signals.map fun signal => ⟨signal.1, signal.2.shape⟩ := by
  have hargument : Field.argument? =
      fun f => f.signal?.map fun signal => (⟨signal.1, signal.2.shape⟩ : Argument) := by
    funext ⟨name, slot⟩
    cases slot <;> rfl
  show r.fields.filterMap Field.argument? = _
  rw [hargument, signals, List.map_filterMap]

/-- A record of declared types conforms to its own schema exactly if it is rectangular. -/
theorem Record.conforms_own_iff {r : Record} (htyped : r.Typed) :
    r.Conforms r.schema ↔ r.Rectangular := by
  -- Both conditions are about one signal at a time.
  have hsignal : ∀ name s, (name, s) ∈ r.signals → (s.Conforms s.shape ↔ s.Rectangular) := by
    intro name s hmem
    obtain ⟨type, htype⟩ := htyped _ (mem_signals_iff.mp hmem) s rfl
    exact Signal.conforms_own_iff htype
  constructor
  · intro h
    have hstorage := h.storage
    rw [args_schema, List.forall₂_map_right_iff, List.forall₂_same] at hstorage
    rintro ⟨name, slot⟩ hf s rfl
    have hmem : (name, s) ∈ r.signals := mem_signals_iff.mpr hf
    exact (hsignal name s hmem).mp (hstorage _ hmem)
  · intro h
    refine ⟨by simp [args_schema, Function.comp_def], ?_⟩
    rw [args_schema, List.forall₂_map_right_iff, List.forall₂_same]
    rintro ⟨name, s⟩ hmem
    exact (hsignal name s hmem).mpr (h _ (mem_signals_iff.mp hmem) s rfl)

/-! ### Initialized records -/

/-- Fields take the placeholders of the listed arguments exactly if the signals among them have the
    listed names, in order, and storage that conforms to the listed shapes. -/
theorem Field.fill_ok_iff {typeName : String} {j : Nat} {args : List Argument} {fs : List Field} :
    (fill typeName j args fs).2 = .ok () ↔
      (fs.filterMap signal?).map Prod.fst = args.map Argument.name ∧
        List.Forall₂ (fun signal arg => signal.2.Conforms arg.shape) (fs.filterMap signal?)
          args := by
  induction fs generalizing j args with
  | nil => cases args <;> simp [fill]
  | cons f fs ih =>
    obtain ⟨name, slot⟩ := f
    cases slot with
    | parameter v =>
      -- A parameter has no argument, and is passed over on both sides.
      rw [fill_parameter, List.filterMap_cons_none rfl]
      exact ih
    | signal s =>
      have hsignal : signal? ⟨name, .signal s⟩ = some (name, s) := rfl
      rw [List.filterMap_cons_some hsignal]
      cases args with
      | nil => simp [fill]
      | cons arg args =>
        rw [List.forall₂_cons, List.map_cons, List.map_cons, List.cons.injEq]
        by_cases hname : arg.name = name
        · -- Either this signal is the first to refuse its placeholder, or it is up to the others.
          have hassign := @Signal.assign_ok_iff name arg.shape s (.input j)
          cases hfirst : (s.assign name (.placeholder arg.shape (.input j))).2 with
          | ok u =>
            have hs : s.Conforms arg.shape := hassign.mp hfirst
            simp [fill, assign, hname, hfirst, hs, ih]
          | error e =>
            have hs : ¬ s.Conforms arg.shape := fun hs => by simp [hassign.mpr hs] at hfirst
            simp [fill, assign, hname, hfirst, hs]
        · simp [fill, hname, Ne.symm hname]

/-- Fields keep their names, and parameters their values, whether or not all signals are filled. -/
theorem Field.fill_keeps {typeName : String} {j : Nat} {args : List Argument} {fs : List Field} :
    (fill typeName j args fs).1.map (fun f => (f.name, f.parameter?)) =
      fs.map fun f => (f.name, f.parameter?) := by
  have hframe : (fill typeName j args fs).1.map frame = fs.map frame := frame_fill
  have hkept := congrArg (List.map fun x => (x.1, x.2.2)) hframe
  rw [List.map_map, List.map_map] at hkept
  exact hkept

/-- Initialization succeeds exactly on records that conform to the schema. Then the `j`-th signal
    holds the placeholder of the `j`-th listed shape over input `j`, whatever it held before, and
    every field has the name, and every parameter the value, that it had. On its own schema a record
    of declared types is initialized exactly if no array in it is ragged. -/
theorem Record.withPlaceholders_ok_iff (r : Record) (s : Schema) :
    ((r.withPlaceholders s).2 = .ok () ↔ r.Conforms s) ∧
    (r.Conforms s → (r.withPlaceholders s).1.values =
        s.args.zipIdx.map (fun a => .placeholder a.1.shape (.input a.2)) ∧
      (r.withPlaceholders s).1.fields.map (fun f => (f.name, f.parameter?)) =
        r.fields.map fun f => (f.name, f.parameter?)) ∧
    (r.Typed → ((r.withPlaceholders r.schema).2 = .ok () ↔ r.Rectangular)) := by
  -- The record is filled exactly if its fields are.
  have hok : ∀ s, (r.withPlaceholders s).2 = .ok () ↔ r.Conforms s := by
    intro s
    refine Field.fill_ok_iff.trans ⟨?_, ?_⟩
    · rintro ⟨hnames, hstorage⟩
      exact ⟨hnames, hstorage⟩
    · intro h
      exact ⟨h.names, h.storage⟩
  refine ⟨hok s, ?_, ?_⟩
  · intro h
    have hdone : r.withPlaceholders s = ((r.withPlaceholders s).1, .ok ()) :=
      Prod.ext rfl ((hok s).mpr h)
    exact ⟨values_withPlaceholders hdone, Field.fill_keeps⟩
  · intro htyped
    rw [hok, conforms_own_iff htyped]

/-- A literal on a wire, a parameter, and a grid of two rows. The wire takes a whole pair, and the
    grid the rows that are listed; on its own schema the record is initialized as well. -/
theorem Record.withPlaceholders_ok_iff_widget :
    let row : Signal := .array [.wire .nil]
    let r : Record := ⟨"Widget", [⟨"x", .signal (.wire (.int 7))⟩, ⟨"depth", .parameter 3⟩,
      ⟨"grid", .signal (.array [row, row])⟩]⟩
    let pair : Shape := .array 2 .scalar
    let rows : Shape := .array 2 (.array 1 .scalar)
    let s : Schema := ⟨"Widget", [⟨"x", pair⟩, ⟨"grid", rows⟩], []⟩
    (r.Conforms s ∧ (r.withPlaceholders s).2 = .ok () ∧ (r.withPlaceholders s).1.values =
        [.placeholder pair (.input 0), .placeholder rows (.input 1)]) ∧
      r.Typed ∧ r.Rectangular ∧ (r.withPlaceholders r.schema).2 = .ok () := by
  intro row r pair rows s
  have hconforms : r.Conforms s := ⟨rfl, .cons (by decide) (.cons (by decide) .nil)⟩
  have hrow : row.HasType (.vec .wire) := .vec (by simp [Signal.HasType.wire])
  have hrect : row.Rectangular := .array (by simp [Signal.Rectangular.wire]) (by simp)
  have htyped : r.Typed := by
    simp only [Record.Typed, r, List.forall_mem_cons]
    refine ⟨?_, ?_, ?_, by simp⟩
    · rintro s ⟨⟩
      exact ⟨.wire, .wire⟩
    · rintro s ⟨⟩
    · rintro s ⟨⟩
      exact ⟨.vec (.vec .wire), .vec (by simp [hrow])⟩
  have hrectangular : r.Rectangular := by
    simp only [Record.Rectangular, r, List.forall_mem_cons]
    refine ⟨?_, ?_, ?_, by simp⟩
    · rintro s ⟨⟩
      exact .wire
    · rintro s ⟨⟩
    · rintro s ⟨⟩
      exact .array (by simp [hrect]) (by simp)
  obtain ⟨hok, hvalues, hown⟩ := r.withPlaceholders_ok_iff s
  exact ⟨⟨hconforms, hok.mpr hconforms, (hvalues hconforms).1⟩, htyped, hrectangular,
    (hown htyped).mpr hrectangular⟩

end GateTrace
