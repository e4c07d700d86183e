import GateTrace.Proofs.Naming

/-! # Placeholders

    What a record holds once its signals are placeholders. The key ideas:

    - An assignment that succeeds leaves exactly the assigned value behind, so after a successful
      initialization the `j`-th signal holds the placeholder of the `j`-th listed shape over input
      `j`, whatever it held before.
    - A record without ragged arrays always takes the placeholders of its own schema, and then not
      even its storage shows what it held before.
-/

namespace GateTrace

namespace Signal

/-! ### Assigned values -/

mutual

/-- A signal holds the value it was assigned. -/
theorem toValue_of_assign {field : String} : ∀ {s : Signal} {v : Value},
    (s.assign field v).2 = .ok () → (s.assign field v).1.toValue = v
  | .wire _, _, _ => rfl
  | .array slots, .list items, h => by
    simp only [assign] at h ⊢
    split at h
    · next hlen =>
      rw [if_pos hlen]
      simp only [toValue]
      rw [toValues_of_assignItems hlen h]
    · contradiction
  | .array _, .nil, h | .array _, .operand _, h | .array _, .int _, h => by
    simp [assign] at h

theorem toValues_of_assignItems {field : String} : ∀ {slots : List Signal} {items : List Value},
    items.length = slots.length → (assignItems field slots items).2 = .ok () →
      toValues (assignItems field slots items).1 = items
  | [], [], _, _ => rfl
  | [], _ :: _, hlen, _ => by simp at hlen
  | _ :: _, [], hlen, _ => by simp at hlen
  | slot :: slots, item :: items, hlen, h => by
    simp only [assignItems] at h ⊢
    split at h
    · next hfirst =>
      have hrest : items.length = slots.length := by simpa using hlen
      simp only [toValues]
      rw [toValue_of_assign hfirst, toValues_of_assignItems hrest h]
    · contradiction

end

end Signal

/-! ### Initialized records -/

/-- A parameter takes up no argument. -/
theorem Field.fill_parameter {typeName : String} {j : Nat} {args : List Argument} {name : String}
    {v : Int} {fs : List Field} :
    Field.fill typeName j args (⟨name, .parameter v⟩ :: fs) =
      (⟨name, .parameter v⟩ :: (Field.fill typeName j args fs).1,
        (Field.fill typeName j args fs).2) := by
  cases args <;> rfl

/-- Fields that were filled hold the placeholders of the listed arguments, in order. -/
theorem Field.values_fill {typeName : String} {j : Nat} {args : List Argument} {fs : List Field}
    (h : (Field.fill typeName j args fs).2 = .ok ()) :
    (Field.fill typeName j args fs).1.filterMap Field.value? =
      (args.zipIdx j).map fun a => Value.placeholder a.1.shape (.input a.2) := by
  induction fs generalizing j args with
  | nil =>
    cases args with
    | nil => rfl
    | cons arg args => simp [fill] at h
  | cons f fs ih =>
    obtain ⟨name, slot⟩ := f
    cases slot with
    | parameter v =>
      rw [fill_parameter] at h ⊢
      rw [List.filterMap_cons_none rfl]
      exact ih h
    | signal s =>
      cases args with
      | nil => simp [fill] at h
      | cons arg args =>
        simp only [fill] at h ⊢
        split at h
        · next hname =>
          simp only [hname, if_true]
          split at h
          · next hfirst =>
            -- The first field holds its placeholder, and the others were filled after it.
            have hassign : (s.assign name (.placeholder arg.shape (.input j))).2 = .ok () := hfirst
            have hvalue := Signal.toValue_of_assign hassign
            simp only [List.zipIdx_cons, List.map_cons]
            rw [← ih h]
            simp [Field.assign, Field.value?, hvalue]
          · contradiction
        · contradiction

/-- After a successful initialization the signals hold the placeholders of the schema. -/
theorem Record.values_withPlaceholders {r inner : Record} {s : Schema}
    (h : r.withPlaceholders s = (inner, .ok ())) :
    inner.values = s.args.zipIdx.map fun a => Value.placeholder a.1.shape (.input a.2) := by
  have hfill : (Field.fill s.typeName 0 s.args r.fields).2 = .ok () := congrArg Prod.snd h
  obtain rfl : _ = inner := congrArg Prod.fst h
  exact Field.values_fill hfill

/-! ### Rectangular records -/

/-- A signal of which the elements of every array have one shape. -/
inductive Signal.Rectangular : Signal → Prop
  | wire {v : Value} : Rectangular (.wire v)
  | array {items : List Signal} (hitems : ∀ s ∈ items, Rectangular s)
    (hshape : ∀ s ∈ items, ∀ t ∈ items, s.shape = t.shape) : Rectangular (.array items)

def Record.Rectangular (r : Record) : Prop :=
  ∀ f ∈ r.fields, ∀ s, f.slot = .signal s → s.Rectangular

/-- The storage of a placeholder: one layer of slots per array dimension. -/
def Signal.ofShape : Shape → Operand → Signal
  | .scalar, base => .wire (.operand base)
  | .array len elem, base =>
    .array ((List.range len).map fun k => ofShape elem (.proj base k len))

/-- Slots that each take the placeholder of their shape take those of a whole array. -/
theorem Signal.assignItems_placeholders {field : String} {elem : Shape} {base : Operand} {n : Nat}
    {slots : List Signal}
    (h : ∀ s ∈ slots, ∀ b, s.assign field (.placeholder elem b) = (.ofShape elem b, .ok ())) :
    ∀ positions : List Nat, positions.length = slots.length →
      assignItems field slots (positions.map fun k => .placeholder elem (.proj base k n)) =
        (positions.map fun k => .ofShape elem (.proj base k n), .ok ()) := by
  induction slots with
  | nil =>
    intro positions hlen
    obtain rfl := List.length_eq_zero_iff.mp hlen
    rfl
  | cons s slots ih =>
    intro positions hlen
    cases positions with
    | nil => simp at hlen
    | cons k positions =>
      -- The first slot takes its placeholder, and the others take theirs by induction.
      have hrest := ih (fun t ht => h t (by simp [ht])) positions (by simpa using hlen)
      simp only [List.map_cons, assignItems, h s (by simp), hrest]

/-- A rectangular signal takes the placeholder of its own shape, and shows nothing of what it held
    before. -/
theorem Signal.assign_placeholder {field : String} {s : Signal} (h : s.Rectangular)
    (base : Operand) :
    s.assign field (.placeholder s.shape base) = (.ofShape s.shape base, .ok ()) := by
  induction h generalizing base with
  | wire => rfl
  | @array items _ hshape ih =>
    cases items with
    | nil => rfl
    | cons s items =>
      -- The schema only looks at the first element, and the others are of its shape.
      have hslots : ∀ t ∈ s :: items, ∀ b,
          t.assign field (.placeholder s.shape b) = (.ofShape s.shape b, .ok ()) := by
        intro t ht b
        rw [hshape s (by simp) t ht]
        exact ih t ht b
      have hitems := @assignItems_placeholders field s.shape base (items.length + 1) _ hslots
        (List.range (items.length + 1)) (by simp)
      simp only [shape, Value.placeholder, assign, ofShape]
      rw [if_pos (by simp), hitems]

/-- Fields whose signals, from input number `j` on, hold placeholders of their own shapes. -/
def Field.filled : Nat → List Field → List Field
  | _, [] => []
  | j, f :: fs =>
    match f.slot with
    | .parameter _ => f :: filled j fs
    | .signal s => { f with slot := .signal (.ofShape s.shape (.input j)) } :: filled (j + 1) fs

theorem Field.fill_own {typeName : String} {fs : List Field}
    (h : ∀ f ∈ fs, ∀ s, f.slot = .signal s → s.Rectangular) (j : Nat) :
    Field.fill typeName j (fs.filterMap argument?) fs = (filled j fs, .ok ()) := by
  induction fs generalizing j with
  | nil => rfl
  | cons f fs ih =>
    have hrest := ih fun g hg => h g (by simp [hg])
    obtain ⟨name, slot⟩ := f
    cases slot with
    | parameter v =>
      -- A parameter takes up no argument and stays as it is.
      rw [List.filterMap_cons_none rfl, fill_parameter, hrest j]
      rfl
    | signal s =>
      have harg : argument? ⟨name, .signal s⟩ = some ⟨name, s.shape⟩ := rfl
      have hrect : s.Rectangular := h ⟨name, .signal s⟩ (by simp) s rfl
      -- The signal is rectangular, so nothing of what it held is left.
      have hassign : s.assign name _ = _ := Signal.assign_placeholder hrect (.input j)
      rw [List.filterMap_cons_some harg]
      simp only [fill, assign, if_true, hassign, hrest (j + 1), filled]

/-- A rectangular record takes the placeholders of its own schema. -/
theorem Record.withPlaceholders_own {r : Record} (h : r.Rectangular) :
    r.withPlaceholders r.schema = ({ r with fields := Field.filled 0 r.fields }, .ok ()) := by
  have hfill : Field.fill r.schema.typeName 0 r.schema.args r.fields = _ := Field.fill_own h 0
  unfold withPlaceholders
  rw [hfill]

/-- Fields of one type with the same arguments and parameters hold the same once they are filled. -/
theorem Field.filled_eq {fs gs : List Field} (htypes : List.Forall₂ SameType fs gs)
    (hargs : fs.filterMap argument? = gs.filterMap argument?)
    (hparams : fs.filterMap parameter? = gs.filterMap parameter?) (j : Nat) :
    filled j fs = filled j gs := by
  induction htypes generalizing j with
  | nil => rfl
  | @cons f g fs gs hfield _ ih =>
    cases hfield with
    | @signal name type s t hs ht =>
      have hf : argument? ⟨name, .signal s⟩ = some ⟨name, s.shape⟩ := rfl
      have hg : argument? ⟨name, .signal t⟩ = some ⟨name, t.shape⟩ := rfl
      rw [List.filterMap_cons_some hf, List.filterMap_cons_some hg] at hargs
      obtain ⟨harg, hargs⟩ := List.cons.inj hargs
      -- Equal arguments have equal shapes, and the shape decides what the filled signal holds.
      have hshape : s.shape = t.shape := congrArg Argument.shape harg
      simp only [filled]
      rw [hshape, ih hargs hparams]
    | @parameter name v w =>
      have hf : parameter? ⟨name, .parameter v⟩ = some v := rfl
      have hg : parameter? ⟨name, .parameter w⟩ = some w := rfl
      rw [List.filterMap_cons_some hf, List.filterMap_cons_some hg] at hparams
      -- Parameters stay as they are, and these have the same value.
      obtain ⟨hvalue, hrest⟩ := List.cons.inj hparams
      simp only [filled]
      rw [hvalue, ih hargs hrest]

/-- Rectangular records of one type with the same unique name are the same once they hold
    placeholders, whatever they held before. -/
theorem Record.withPlaceholders_eq {r r' : Record} (hr : r.Rectangular) (hr' : r'.Rectangular)
    (htype : r.SameType r') (hname : r.schema.uniqueName = r'.schema.uniqueName) :
    r.withPlaceholders r.schema = r'.withPlaceholders r'.schema := by
  have hschema := schema_eq_of_uniqueName htype hname
  have hfields : Field.filled 0 r.fields = Field.filled 0 r'.fields :=
    Field.filled_eq htype.fields (congrArg Schema.args hschema) (congrArg Schema.params hschema) 0
  rw [withPlaceholders_own hr, withPlaceholders_own hr', hfields, htype.typeName]

end GateTrace
