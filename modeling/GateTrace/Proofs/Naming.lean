import GateTrace.Record
import Mathlib.Data.List.Forall2
import Mathlib.Logic.Function.Basic

/-! # Unique names

    Two records of one type have the same unique name only if they have the same schema. The key
    ideas:

    - A unique name is the type's name and a list of number texts, each after an underscore. No
      number text has an underscore, so the list can be read back.
    - Field by field the type says how many dimensions to read: one for each array, and none below
      an empty one. What is left are the parameters.
-/

namespace GateTrace

/-! ### Words -/

/-- A word goes as far as its characters: what follows it does not begin with one of them. -/
theorem word_cancel {P : Char → Prop} {v w xs ys : List Char} (hv : ∀ c ∈ v, P c)
    (hw : ∀ c ∈ w, P c) (hxs : ∀ c ∈ xs.head?, ¬P c) (hys : ∀ c ∈ ys.head?, ¬P c)
    (h : v ++ xs = w ++ ys) : v = w ∧ xs = ys := by
  -- If one of the words were longer, it would take in the start of what follows the other.
  rcases List.append_eq_append_iff.mp h with ⟨extra, rfl, rfl⟩ | ⟨extra, rfl, rfl⟩
  · cases extra with
    | nil => simp
    | cons c extra => exact absurd (hw c (by simp)) (hxs c (by simp))
  · cases extra with
    | nil => simp
    | cons c extra => exact absurd (hv c (by simp)) (hys c (by simp))

/-- A text without underscores goes as far as the next underscore. -/
theorem underscore_cancel {v w xs ys : List Char} (hv : '_' ∉ v) (hw : '_' ∉ w)
    (hxs : ∀ c ∈ xs.head?, c = '_') (hys : ∀ c ∈ ys.head?, c = '_') (h : v ++ xs = w ++ ys) :
    v = w ∧ xs = ys := by
  have hword : ∀ {z : List Char}, '_' ∉ z → ∀ c ∈ z, c ≠ '_' := fun hz _ hc =>
    ne_of_mem_of_not_mem hc hz
  exact word_cancel (hword hv) (hword hw) (fun c hc => not_not.mpr (hxs c hc))
    (fun c hc => not_not.mpr (hys c hc)) h

/-! ### Number texts -/

theorem repr_cancel {m n : Nat} (h : m.repr = n.repr) : m = n := by
  have hdigits : Nat.toDigits 10 m = Nat.toDigits 10 n := by
    rw [← Nat.toList_repr, ← Nat.toList_repr, h]
  rw [← @Nat.ofDigitChars_ten_toDigits m, ← @Nat.ofDigitChars_ten_toDigits n, hdigits]

theorem isDigit_of_mem_repr {n : Nat} {c : Char} (h : c ∈ n.repr.toList) : c.isDigit = true := by
  rw [Nat.toList_repr] at h
  exact Nat.isDigit_of_mem_toDigits (by omega) (by omega) h

/-- A number can be read back from its text and what follows it, if that does not begin with a
    digit. -/
theorem repr_append_cancel {m n : Nat} {xs ys : List Char} (hxs : ∀ c ∈ xs.head?, ¬c.isDigit)
    (hys : ∀ c ∈ ys.head?, ¬c.isDigit) (h : m.repr.toList ++ xs = n.repr.toList ++ ys) :
    m = n ∧ xs = ys := by
  obtain ⟨hdigits, hrest⟩ := word_cancel (fun _ => isDigit_of_mem_repr)
    (fun _ => isDigit_of_mem_repr) hxs hys h
  exact ⟨repr_cancel (String.toList_inj.mp hdigits), hrest⟩

theorem underscore_not_mem_repr (n : Nat) : '_' ∉ n.repr.toList := fun h =>
  absurd (isDigit_of_mem_repr h) (by decide)

/-- A number with a sign can be read back from its text, if the sign has something other than
    digits. -/
theorem signed_repr_cancel {sign : String} {c : Char} (hc : c ∈ sign.toList)
    (hdigit : c.isDigit = false) {v w : Int}
    (h : (if v < 0 then sign ++ v.natAbs.repr else v.natAbs.repr) =
      if w < 0 then sign ++ w.natAbs.repr else w.natAbs.repr) : v = w := by
  -- The sign has a character that is no digit, so no number without it is written alike.
  have hsign : ∀ m n : Nat, m.repr ≠ sign ++ n.repr := by
    intro m n heq
    have hmem : c ∈ m.repr.toList := by
      rw [heq, String.toList_append]
      exact List.mem_append_left _ hc
    simp [isDigit_of_mem_repr hmem] at hdigit
  split at h <;> split at h
  · have habs : v.natAbs = w.natAbs := repr_cancel ((String.append_right_inj sign).mp h)
    omega
  · exact absurd h.symm (hsign _ _)
  · exact absurd h (hsign _ _)
  · have habs : v.natAbs = w.natAbs := repr_cancel h
    omega

namespace Schema

theorem underscore_not_mem_nameOfInt (v : Int) : '_' ∉ (nameOfInt v).toList := by
  unfold nameOfInt
  split
  · simp
  · exact underscore_not_mem_repr _

theorem nameOfInt_injective : Function.Injective nameOfInt := fun _ _ h =>
  signed_repr_cancel (List.mem_singleton.mpr rfl : 'm' ∈ "m".toList) (by decide) h

/-! ### Lists of number texts -/

/-- Texts with an underscore before each of them begin with an underscore, if with anything. -/
theorem eq_underscore_of_mem_head? {zs : List (List Char)} {c : Char}
    (hc : c ∈ (zs.flatMap fun z => '_' :: z).head?) : c = '_' := by
  cases zs with
  | nil => simp at hc
  | cons z zs => simpa using hc.symm

/-- Texts without underscores can be read back from their concatenation with underscores. -/
theorem flatMap_underscore_cancel {xs ys : List (List Char)} (hxs : ∀ x ∈ xs, '_' ∉ x)
    (hys : ∀ y ∈ ys, '_' ∉ y)
    (h : xs.flatMap (fun x => '_' :: x) = ys.flatMap (fun y => '_' :: y)) : xs = ys := by
  induction xs generalizing ys with
  | nil =>
    cases ys with
    | nil => rfl
    | cons y ys => simp at h
  | cons x xs ih =>
    cases ys with
    | nil => simp at h
    | cons y ys =>
      simp only [List.flatMap_cons, List.cons_append, List.cons.injEq, true_and] at h
      -- The first texts end at the next underscore, and the others follow by induction.
      obtain ⟨rfl, hrest⟩ := underscore_cancel (hxs x (by simp)) (hys y (by simp))
        (fun _ => eq_underscore_of_mem_head?) (fun _ => eq_underscore_of_mem_head?) h
      rw [ih (fun z hz => hxs z (by simp [hz])) (fun z hz => hys z (by simp [hz])) hrest]

theorem underscore_not_mem_suffixes {s : Schema} : ∀ t ∈ s.suffixes, '_' ∉ t.toList := by
  intro t ht
  rcases List.mem_append.mp ht with ht | ht
  · obtain ⟨a, -, ht⟩ := List.mem_flatMap.mp ht
    obtain ⟨n, -, rfl⟩ := List.mem_map.mp ht
    exact underscore_not_mem_repr n
  · obtain ⟨v, -, rfl⟩ := List.mem_map.mp ht
    exact underscore_not_mem_nameOfInt v

theorem toList_uniqueName (s : Schema) :
    s.uniqueName.toList =
      s.typeName.toList ++ (s.suffixes.map String.toList).flatMap fun x => '_' :: x := by
  simp [uniqueName, String.toList_join, List.flatMap_map]

/-- Number texts can be read back from their concatenation with underscores. -/
theorem suffixes_cancel {s t : Schema}
    (h : ((s.suffixes.map String.toList).flatMap fun x => '_' :: x) =
      (t.suffixes.map String.toList).flatMap fun x => '_' :: x) : s.suffixes = t.suffixes := by
  have hchars : s.suffixes.map String.toList = t.suffixes.map String.toList := by
    refine flatMap_underscore_cancel ?_ ?_ h
    · intro x hx
      obtain ⟨u, hu, rfl⟩ := List.mem_map.mp hx
      exact underscore_not_mem_suffixes u hu
    · intro x hx
      obtain ⟨u, hu, rfl⟩ := List.mem_map.mp hx
      exact underscore_not_mem_suffixes u hu
  exact (List.map_inj_right fun _ _ => String.toList_inj.mp).mp hchars

/-- Schemas of one type with the same unique name have the same number texts. -/
theorem suffixes_eq_of_uniqueName {s t : Schema} (htype : s.typeName = t.typeName)
    (h : s.uniqueName = t.uniqueName) : s.suffixes = t.suffixes := by
  have hlist := congrArg String.toList h
  rw [toList_uniqueName, toList_uniqueName, htype] at hlist
  exact suffixes_cancel (List.append_cancel_left hlist)

/-- A unique name tells the type, and the number texts as well, if no underscore stands in the names
    of types. -/
theorem typeName_eq_of_uniqueName {s t : Schema} (hs : '_' ∉ s.typeName.toList)
    (ht : '_' ∉ t.typeName.toList) (h : s.uniqueName = t.uniqueName) :
    s.typeName = t.typeName ∧ s.suffixes = t.suffixes := by
  have hlist := congrArg String.toList h
  rw [toList_uniqueName, toList_uniqueName] at hlist
  obtain ⟨hname, hrest⟩ := underscore_cancel hs ht (fun _ => eq_underscore_of_mem_head?)
    (fun _ => eq_underscore_of_mem_head?) hlist
  exact ⟨String.toList_inj.mp hname, suffixes_cancel hrest⟩

end Schema

/-! ### Types of records -/

/-- A signal of a declared type. -/
inductive Signal.HasType : SignalType → Signal → Prop
  | wire {v : Value} : HasType .wire (.wire v)
  | vec {elem : SignalType} {items : List Signal} (hitems : ∀ s ∈ items, HasType elem s) :
    HasType (.vec elem) (.array items)
  | array {len : Nat} {elem : SignalType} {items : List Signal} (hlen : items.length = len)
    (hitems : ∀ s ∈ items, HasType elem s) : HasType (.array len elem) (.array items)

def Record.Typed (r : Record) : Prop :=
  ∀ f ∈ r.fields, ∀ s, f.slot = .signal s → ∃ type : SignalType, s.HasType type

/-- Fields of one type: both signals of one declared type, or both parameters, under one name. -/
inductive Field.SameType : Field → Field → Prop
  | signal {name : String} {type : SignalType} {s t : Signal} (hs : s.HasType type)
    (ht : t.HasType type) : SameType ⟨name, .signal s⟩ ⟨name, .signal t⟩
  | parameter {name : String} {v w : Int} : SameType ⟨name, .parameter v⟩ ⟨name, .parameter w⟩

/-- Records of one type: the same fields in the same order, whatever they hold. -/
structure Record.SameType (r r' : Record) : Prop where
  typeName : r.typeName = r'.typeName
  fields : List.Forall₂ Field.SameType r.fields r'.fields

/-- What holds of two wires, and of two arrays if it holds of any two signals of the type of their
    elements, holds of any two signals of one type. -/
@[elab_as_elim]
theorem Signal.HasType.induction₂ {P : Signal → Signal → Prop}
    (hwire : ∀ v w : Value, P (.wire v) (.wire w))
    (harray : ∀ {elem : SignalType} {slots items : List Signal}, (∀ s ∈ slots, s.HasType elem) →
      (∀ t ∈ items, t.HasType elem) → (∀ s t : Signal, s.HasType elem → t.HasType elem → P s t) →
        P (.array slots) (.array items))
    {type : SignalType} {s t : Signal} (hs : s.HasType type) (ht : t.HasType type) : P s t := by
  induction type generalizing s t with
  | wire =>
    cases hs
    cases ht
    exact hwire _ _
  | vec elem ih =>
    cases hs with
    | vec hslots =>
      cases ht with
      | vec hitems => exact harray hslots hitems fun s t => ih
  | array len elem ih =>
    cases hs with
    | array _ hslots =>
      cases ht with
      | array _ hitems => exact harray hslots hitems fun s t => ih

/-- The dimensions of a signal can be read back where its type is known. -/
theorem Signal.shape_eq_of_dims {type : SignalType} {s t : Signal} (hs : s.HasType type)
    (ht : t.HasType type) : ∀ xs ys : List String,
      s.shape.dims.map Nat.repr ++ xs = t.shape.dims.map Nat.repr ++ ys →
        s.shape = t.shape ∧ xs = ys := by
  refine HasType.induction₂ ?wire ?array hs ht
  case wire =>
    intro v w xs ys h
    exact ⟨rfl, h⟩
  case array =>
    intro elem slots items hslots hitems ih xs ys h
    -- Either both arrays are empty, and no dimension of an element follows, or neither is.
    cases slots with
    | nil =>
      cases items with
      | nil => exact ⟨rfl, (List.cons.inj h).2⟩
      | cons t items => exact absurd (repr_cancel (List.cons.inj h).1) (by simp)
    | cons s slots =>
      cases items with
      | nil => exact absurd (repr_cancel (List.cons.inj h).1) (by simp)
      | cons t items =>
        obtain ⟨hlen, hrest⟩ := List.cons.inj h
        obtain ⟨hshape, hxs⟩ := ih s t (hslots s (by simp)) (hitems t (by simp)) _ _ hrest
        refine ⟨?_, hxs⟩
        simp only [shape]
        rw [hshape, repr_cancel hlen]

/-- The arguments of records of one type can be read back from their dimensions. -/
theorem Field.arguments_eq_of_dims {fs gs : List Field} (htypes : List.Forall₂ SameType fs gs)
    {xs ys : List String}
    (h : (fs.filterMap argument?).flatMap (fun a => a.shape.dims.map Nat.repr) ++ xs =
      (gs.filterMap argument?).flatMap (fun a => a.shape.dims.map Nat.repr) ++ ys) :
    fs.filterMap argument? = gs.filterMap argument? ∧ xs = ys := by
  induction htypes with
  | nil => exact ⟨rfl, h⟩
  | @cons f g fs gs hfield hfields ih =>
    cases hfield with
    | @signal name type s t hs ht =>
      have hf : argument? ⟨name, .signal s⟩ = some ⟨name, s.shape⟩ := rfl
      have hg : argument? ⟨name, .signal t⟩ = some ⟨name, t.shape⟩ := rfl
      rw [List.filterMap_cons_some hf, List.filterMap_cons_some hg] at h ⊢
      simp only [List.flatMap_cons, List.append_assoc] at h
      -- The type says where the dimensions of this field end.
      obtain ⟨hshape, hrest⟩ := Signal.shape_eq_of_dims hs ht _ _ h
      obtain ⟨hargs, hxs⟩ := ih hrest
      exact ⟨by rw [hshape, hargs], hxs⟩
    | @parameter name v w =>
      have hf : argument? ⟨name, .parameter v⟩ = none := rfl
      have hg : argument? ⟨name, .parameter w⟩ = none := rfl
      rw [List.filterMap_cons_none hf, List.filterMap_cons_none hg] at h ⊢
      exact ih h

/-- Records of one type have the same unique name only if they have the same schema. -/
theorem Record.schema_eq_of_uniqueName {r r' : Record} (htype : r.SameType r')
    (h : r.schema.uniqueName = r'.schema.uniqueName) : r.schema = r'.schema := by
  have hname : r.schema.typeName = r'.schema.typeName := htype.typeName
  have hsuffixes := Schema.suffixes_eq_of_uniqueName hname h
  obtain ⟨hargs, hparams⟩ := Field.arguments_eq_of_dims htype.fields hsuffixes
  have hvalues : r.schema.params = r'.schema.params :=
    (List.map_inj_right fun _ _ hv => Schema.nameOfInt_injective hv).mp hparams
  have hargs : r.schema.args = r'.schema.args := hargs
  calc
    r.schema = ⟨r.schema.typeName, r.schema.args, r.schema.params⟩ := rfl
    _ = ⟨r'.schema.typeName, r'.schema.args, r'.schema.params⟩ := by rw [hname, hargs, hvalues]
    _ = r'.schema := rfl

/-- Number texts say nothing about a schema but its shapes and parameters. -/
theorem Schema.suffixes_congr {s t : Schema}
    (hshapes : s.args.map Argument.shape = t.args.map Argument.shape) (hparams : s.params = t.params) :
    s.suffixes = t.suffixes := by
  have hdims : ∀ args : List Argument, args.flatMap (fun a => a.shape.dims.map Nat.repr) =
      (args.map Argument.shape).flatMap fun shape => shape.dims.map Nat.repr := by
    intro args
    rw [List.flatMap_map]
  unfold suffixes
  rw [hdims, hdims, hshapes, hparams]

/-- Two records of one type, whatever the type is called and whatever fields it declares, have the
    same unique name if and only if their signals have the same shapes and their parameters the same
    values. -/
theorem Record.uniqueName_eq_iff {r r' : Record} (htype : r.SameType r') :
    r.schema.uniqueName = r'.schema.uniqueName ↔
      r.schema.args.map Argument.shape = r'.schema.args.map Argument.shape ∧
        r.schema.params = r'.schema.params := by
  constructor
  · intro hname
    have hschema := schema_eq_of_uniqueName htype hname
    exact ⟨by rw [hschema], by rw [hschema]⟩
  · rintro ⟨hshapes, hparams⟩
    have hsuffixes := Schema.suffixes_congr hshapes hparams
    have htypeName : r.schema.typeName = r'.schema.typeName := htype.typeName
    unfold Schema.uniqueName
    rw [htypeName, hsuffixes]

/-- Ten rows of two and a shift by three to the left, against no rows and a shift by twelve to the
    right. -/
theorem Record.uniqueName_eq_iff_grids :
    let row : Signal := .array [.wire .nil, .wire .nil]
    let grid (rows : List Signal) (shift : Int) : Record :=
      ⟨"Grid", [⟨"cells", .signal (.array rows)⟩, ⟨"shift", .parameter shift⟩]⟩
    (grid (List.replicate 10 row) (-3)).SameType (grid [] 12) ∧
      (grid (List.replicate 10 row) (-3)).schema.uniqueName ≠ (grid [] 12).schema.uniqueName := by
  intro row grid
  have hrow : row.HasType (.array 2 .wire) := .array rfl (by simp [Signal.HasType.wire])
  have hrows : (Signal.array (List.replicate 10 row)).HasType (.vec (.array 2 .wire)) := by
    refine .vec ?_
    intro s hs
    rw [List.eq_of_mem_replicate hs]
    exact hrow
  have hnone : (Signal.array []).HasType (.vec (.array 2 .wire)) := .vec (by simp)
  have htype : (grid (List.replicate 10 row) (-3)).SameType (grid [] 12) :=
    ⟨rfl, .cons (.signal hrows hnone) (.cons .parameter .nil)⟩
  refine ⟨htype, ?_⟩
  rw [ne_eq, uniqueName_eq_iff htype]
  rintro ⟨hshapes, -⟩
  exact absurd hshapes (by decide)

end GateTrace
