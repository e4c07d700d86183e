import GateTrace.Proofs.Layout
import GateTrace.Proofs.Placeholders
import GateTrace.Proofs.Traversal

/-! # Storage

    How reading a signal, assigning to it and building one from a value fit together. The key ideas:

    - The lengths of all its arrays, at every level, are the layout of a signal. An assignment writes
      nothing but wires, so it leaves the layout as it was, wherever it stops.
    - A layout and a value make one signal. So an assignment that succeeds leaves the signal of the old
      layout that holds the new value, and it succeeds if there is such a signal.
    - Building looks at the type in place of a layout, and makes the one signal of the type that holds
      the value.
-/

namespace GateTrace

namespace Signal

variable {field : String}

/-! ### Layouts of storage -/

mutual

/-- The layout of a signal: the length of each of its arrays, at every level. -/
def layout : Signal → Layout
  | .wire _ => .leaf
  | .array slots => .node (layouts slots)

def layouts : List Signal → List Layout
  | [] => []
  | s :: slots => layout s :: layouts slots

end

theorem layouts_eq_map (slots : List Signal) : layouts slots = slots.map layout := by
  induction slots with
  | nil => rfl
  | cons s slots ih => rw [layouts, ih, List.map_cons]

theorem length_eq_of_layouts {slots items : List Signal} (h : layouts items = layouts slots) :
    items.length = slots.length := by
  have hlength := congrArg List.length h
  simpa [layouts_eq_map] using hlength

/-- What a layout decides holds of signals that are laid out as others of which it holds. -/
theorem forall_of_layouts {P : Signal → Prop} {slots items : List Signal}
    (h : layouts items = layouts slots)
    (hslots : ∀ s ∈ slots, ∀ t : Signal, t.layout = s.layout → P t) : ∀ t ∈ items, P t := by
  intro t ht
  have hmem : t.layout ∈ slots.map layout := by
    rw [← layouts_eq_map, ← h, layouts_eq_map]
    exact List.mem_map_of_mem ht
  obtain ⟨s, hs, hlayout⟩ := List.mem_map.mp hmem
  exact hslots s hs t hlayout.symm

theorem shape_layout : ∀ s : Signal, s.layout.shape = s.shape
  | .wire _ => rfl
  | .array [] => rfl
  | .array (s :: slots) => by
    simp only [layout, layouts, Layout.shape, shape]
    rw [layouts_eq_map, List.length_map, shape_layout s]

/-! ### Assigning -/

mutual

/-- An assignment leaves the length of every array as it was, wherever it stops. -/
theorem layout_assign : ∀ (s : Signal) (v : Value), (s.assign field v).1.layout = s.layout
  | .wire _, _ => rfl
  | .array slots, .list items => by
    by_cases hlen : items.length = slots.length
    · simp only [assign, if_pos hlen, layout]
      rw [layouts_assignItems slots items]
    · simp only [assign, if_neg hlen]
  | .array _, .nil | .array _, .operand _ | .array _, .int _ => rfl

theorem layouts_assignItems : ∀ (slots : List Signal) (items : List Value),
    layouts (assignItems field slots items).1 = layouts slots
  | [], _ => by simp only [assignItems]
  | _ :: _, [] => by simp only [assignItems]
  | slot :: slots, item :: items => by
    have hfirst := layout_assign slot item
    cases hdone : (assign field slot item).2 with
    | ok u =>
      simp only [assignItems, hdone, layouts]
      rw [hfirst, layouts_assignItems slots items]
    | error e =>
      simp only [assignItems, hdone, layouts]
      rw [hfirst]

end

mutual

/-- A signal takes what another signal of its layout holds, and is that signal then. -/
theorem assign_toValue : ∀ {s t : Signal}, t.layout = s.layout →
    s.assign field t.toValue = (t, .ok ())
  | .wire _, .wire _, _ => rfl
  | .array slots, .array items, h => by
    have hlayouts : layouts items = layouts slots := Layout.node.inj h
    have hlen : (toValues items).length = slots.length := by
      rw [toValues_eq_map, List.length_map, length_eq_of_layouts hlayouts]
    simp only [toValue, assign, if_pos hlen]
    rw [assignItems_toValues hlayouts]
  | .wire _, .array _, h | .array _, .wire _, h => by cases h

theorem assignItems_toValues : ∀ {slots items : List Signal}, layouts items = layouts slots →
    assignItems field slots (toValues items) = (items, .ok ())
  | [], [], _ => rfl
  | slot :: slots, item :: items, h => by
    obtain ⟨hfirst, hrest⟩ := List.cons.inj h
    simp only [toValues, assignItems, assign_toValue hfirst, assignItems_toValues hrest]
  | [], _ :: _, h | _ :: _, [], h => by cases h

end

/-- An assignment succeeds exactly if some signal of the same layout holds the value, and that is the
    signal it leaves. -/
theorem assign_eq_ok_iff {s t : Signal} {v : Value} :
    s.assign field v = (t, .ok ()) ↔ t.layout = s.layout ∧ t.toValue = v := by
  constructor
  · intro h
    have hok : (s.assign field v).2 = .ok () := by rw [h]
    obtain rfl : (s.assign field v).1 = t := by rw [h]
    exact ⟨layout_assign s v, toValue_of_assign hok⟩
  · rintro ⟨hlayout, rfl⟩
    exact assign_toValue hlayout

/-! ### Building -/

/-- Whether a signal is of a type is decided by its layout. -/
theorem HasType.of_layout {type : SignalType} {s t : Signal} (hs : s.HasType type)
    (h : t.layout = s.layout) : t.HasType type := by
  induction hs generalizing t with
  | wire =>
    cases t with
    | wire w => exact .wire
    | array items => cases h
  | vec _ ih =>
    cases t with
    | wire w => cases h
    | array items => exact .vec (forall_of_layouts (Layout.node.inj h) fun s hs t => ih s hs)
  | array hlen _ ih =>
    cases t with
    | wire w => cases h
    | array items =>
      -- The layouts of the items tell their number, and that each is of the type of its slot.
      have hlayouts := Layout.node.inj h
      refine .array ?_ (forall_of_layouts hlayouts fun s hs t => ih s hs)
      rw [length_eq_of_layouts hlayouts, hlen]

theorem ofValue_vec_eq_ok_iff {elem : SignalType} {v : Value} {s : Signal} :
    ofValue (.vec elem) v = .ok s ↔
      ∃ items slots, v = .list items ∧ items.mapM (ofValue elem) = .ok slots ∧
        s = .array slots := by
  cases v with
  | list items =>
    simp only [ofValue, Value.toList, bind, Except.bind]
    cases hslots : items.mapM (ofValue elem) with
    | error e => simp [hslots]
    | ok slots => simp [hslots, pure, Except.pure, eq_comm]
  | nil | operand _ | int _ => simp [ofValue, Value.toList, bind, Except.bind]

theorem ofValue_array_eq_ok_iff {len : Nat} {elem : SignalType} {v : Value} {s : Signal} :
    ofValue (.array len elem) v = .ok s ↔
      ∃ items slots, v = .list items ∧ items.mapM (ofValue elem) = .ok slots ∧
        slots.length = len ∧ s = .array slots := by
  cases v with
  | list items =>
    simp only [ofValue, Value.toList, bind, Except.bind]
    cases hslots : items.mapM (ofValue elem) with
    | error e => simp [hslots]
    | ok slots =>
      by_cases hlen : slots.length = len
      · simp [hslots, hlen, pure, Except.pure, eq_comm]
      · simp [hslots, hlen, throw, throwThe, MonadExceptOf.throw]
  | nil | operand _ | int _ => simp [ofValue, Value.toList, bind, Except.bind]

/-- Signals built from the values of a list are those of the type that hold them, if that is so of
    each. -/
theorem ofValues_eq_ok_iff {elem : SignalType}
    (h : ∀ v s, ofValue elem v = .ok s ↔ s.HasType elem ∧ s.toValue = v) {items : List Value}
    {slots : List Signal} : items.mapM (ofValue elem) = .ok slots ↔
      (∀ s ∈ slots, s.HasType elem) ∧ toValues slots = items := by
  rw [mapM_eq_ok_iff, toValues_eq_map]
  simp only [h]
  constructor
  · intro hitems
    -- Each item is the value of its slot, so the slots hold the list.
    induction hitems with
    | nil => simp
    | cons hs _ ih =>
      obtain ⟨htype, rfl⟩ := hs
      obtain ⟨htypes, rfl⟩ := ih
      exact ⟨List.forall_mem_cons.mpr ⟨htype, htypes⟩, rfl⟩
  · rintro ⟨htypes, rfl⟩
    rw [List.forall₂_map_left_iff, List.forall₂_same]
    exact fun s hs => ⟨htypes s hs, rfl⟩

/-- What is built from a value is the one signal of the type that holds the value. -/
theorem ofValue_eq_ok_iff {type : SignalType} (v : Value) (s : Signal) :
    ofValue type v = .ok s ↔ s.HasType type ∧ s.toValue = v := by
  induction type generalizing v s with
  | wire =>
    constructor
    · intro h
      obtain rfl : .wire v = s := Except.ok.inj h
      exact ⟨.wire, rfl⟩
    · rintro ⟨htype, rfl⟩
      cases htype
      rfl
  | vec elem ih =>
    rw [ofValue_vec_eq_ok_iff]
    constructor
    · rintro ⟨items, slots, rfl, hslots, rfl⟩
      -- The slots are built from the items one by one, so each is of the type of elements.
      obtain ⟨htypes, rfl⟩ := (ofValues_eq_ok_iff ih).mp hslots
      exact ⟨.vec htypes, rfl⟩
    · rintro ⟨htype, rfl⟩
      cases htype with
      | vec htypes => exact ⟨_, _, rfl, (ofValues_eq_ok_iff ih).mpr ⟨htypes, rfl⟩, rfl⟩
  | array len elem ih =>
    rw [ofValue_array_eq_ok_iff]
    constructor
    · rintro ⟨items, slots, rfl, hslots, hlen, rfl⟩
      obtain ⟨htypes, rfl⟩ := (ofValues_eq_ok_iff ih).mp hslots
      exact ⟨.array hlen htypes, rfl⟩
    · rintro ⟨htype, rfl⟩
      cases htype with
      | array hlen htypes =>
        exact ⟨_, _, rfl, (ofValues_eq_ok_iff ih).mpr ⟨htypes, rfl⟩, hlen, rfl⟩

/-! ### How they agree -/

/-- A signal of a type takes a value exactly if one of its layout can be built from it, and is that
    signal then. -/
theorem HasType.assign_eq_ok_iff_ofValue {type : SignalType} {x y : Signal} (hx : x.HasType type)
    {v : Value} : x.assign field v = (y, .ok ()) ↔
      ofValue type v = .ok y ∧ y.layout = x.layout := by
  rw [assign_eq_ok_iff, ofValue_eq_ok_iff]
  constructor
  · rintro ⟨hlayout, hvalue⟩
    exact ⟨⟨hx.of_layout hlayout, hvalue⟩, hlayout⟩
  · rintro ⟨⟨-, hvalue⟩, hlayout⟩
    exact ⟨hlayout, hvalue⟩

/-- A signal of a type is built back from the value it holds, and takes it without a change. What is
    built from a value holds it; so does a signal that took it, which is then what is built from it;
    and a signal takes every value from which one can be built with the lengths that it has. -/
theorem HasType.assign_agrees_with_ofValue {type : SignalType} {x : Signal} (hx : x.HasType type)
    (field : String) (v : Value) :
    ofValue type x.toValue = .ok x ∧
    (∀ y, ofValue type v = .ok y → y.toValue = v) ∧
    x.assign field x.toValue = (x, .ok ()) ∧
    ((x.assign field v).2 = .ok () →
      (x.assign field v).1.toValue = v ∧ ofValue type v = .ok (x.assign field v).1) ∧
    ∀ y, ofValue type v = .ok y → y.layout = x.layout → (x.assign field v).2 = .ok () := by
  refine ⟨?_, ?_, ?_, ?_, ?_⟩
  · exact (ofValue_eq_ok_iff x.toValue x).mpr ⟨hx, rfl⟩
  · intro y hy
    exact ((ofValue_eq_ok_iff v y).mp hy).2
  · exact assign_toValue rfl
  · intro hok
    -- An assignment that succeeds leaves the one signal of the layout that holds the value.
    have hassign : x.assign field v = ((x.assign field v).1, .ok ()) := Prod.ext rfl hok
    exact ⟨toValue_of_assign hok, (hx.assign_eq_ok_iff_ofValue.mp hassign).1⟩
  · intro y hy hlayout
    have hassign : x.assign field v = (y, .ok ()) :=
      hx.assign_eq_ok_iff_ofValue.mpr ⟨hy, hlayout⟩
    rw [hassign]

/-- A grid of one row, given another row of two: a literal, and a list that goes to one wire. -/
theorem HasType.assign_agrees_with_ofValue_grid :
    let type : SignalType := .vec (.array 2 .wire)
    let grid (v w : Value) : Signal := .array [.array [.wire v, .wire w]]
    let row : Value := .list [.list [.int 3, .list [.nil, .nil]]]
    (grid .nil (.int 1)).HasType type ∧
      ofValue type (grid .nil (.int 1)).toValue = .ok (grid .nil (.int 1)) ∧
      ofValue type row = .ok (grid (.int 3) (.list [.nil, .nil])) ∧
      (grid (.int 3) (.list [.nil, .nil])).toValue = row ∧
      ((grid .nil (.int 1)).assign "rows" row).2 = .ok () ∧
      ((grid .nil (.int 1)).assign "rows" row).1.toValue = row := by
  intro type grid row
  have htype : (grid .nil (.int 1)).HasType type := by
    refine .vec (List.forall_mem_singleton.mpr (.array rfl ?_))
    simp [HasType.wire]
  obtain ⟨hback, hholds, -, htakes, haccepts⟩ := htype.assign_agrees_with_ofValue "rows" row
  have hbuilt : ofValue type row = .ok (grid (.int 3) (.list [.nil, .nil])) := rfl
  have hok := haccepts _ hbuilt rfl
  exact ⟨htype, hback, hbuilt, hholds _ hbuilt, hok, (htakes hok).1⟩

end Signal

/-! ### Fields -/

def Field.layout? (f : Field) : Option Layout :=
  match f.slot with
  | .signal s => some s.layout
  | .parameter _ => none

/-- What of a field no assignment changes: its name, the length of every array in its storage, and
    its value if it is a parameter. -/
def Field.frame (f : Field) : String × Option Layout × Option Int :=
  (f.name, f.layout?, f.parameter?)

/-- An assignment to a field, however it ends, keeps the frame of the field. -/
theorem Field.frame_assign (f : Field) (v : Value) : (f.assign v).1.frame = f.frame := by
  obtain ⟨name, slot⟩ := f
  cases slot with
  | signal s =>
    simp only [assign, frame, layout?, s.layout_assign v]
    rfl
  | parameter w => rfl

/-- An initialization, with whatever arguments and however it ends, keeps the frame of every field. -/
theorem Field.frame_fill {typeName : String} {j : Nat} {args : List Argument} {fs : List Field} :
    (fill typeName j args fs).1.map frame = fs.map frame := by
  induction fs generalizing j args with
  | nil => cases args <;> rfl
  | cons f fs ih =>
    obtain ⟨name, slot⟩ := f
    cases slot with
    | parameter v => rw [fill_parameter, List.map_cons, List.map_cons, ih]
    | signal s =>
      cases args with
      | nil => rfl
      | cons arg args =>
        -- Fields after a failure are left as they are, and so keep their frames.
        have hfirst := frame_assign ⟨name, .signal s⟩ (.placeholder arg.shape (.input j))
        simp only [fill]
        split
        · split
          · rw [List.map_cons, List.map_cons, ih, hfirst]
          · rw [List.map_cons, List.map_cons, hfirst]
        · rfl

end GateTrace
