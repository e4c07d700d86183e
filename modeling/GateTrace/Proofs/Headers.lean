import GateTrace.Proofs.Spelling

/-! # What a header says

    The header of a definition can be read back: it tells the name of the definition, the names and
    shapes of its parameters in their order, and the shape of what its continuation takes. The key
    ideas:

    - Types are read from the left, with what follows them left open. The first character tells a
      scalar from an array, and in an array that of the elements does: elements that are arrays
      themselves stand in parentheses.
    - A type may end in a number, which goes as far as its digits. A parenthesis or the arrow of a
      continuation follows the type, and neither begins with a digit.
    - Names go as far as the first punctuation, and another entry follows as long as there is a space
      before it.
-/

namespace GateTrace

/-! ### Types -/

namespace Shape

/-- The type of the elements of an array, as it stands in the type of the array. -/
def elementText : Shape → String
  | .scalar => "F"
  | .array len elem => "(" ++ (array len elem).text ++ ")"

/-- The type of an array: first that of the elements, then the length. -/
theorem text_array (len : Nat) (elem : Shape) :
    (array len elem).text = "Vector " ++ elem.elementText ++ " " ++ len.repr := by
  cases elem with
  | scalar => rfl
  | array n e =>
    show "Vector (" ++ (array n e).text ++ ") " ++ len.repr = _
    apply String.toList_inj.mp
    simp [elementText]

theorem toList_text_array (len : Nat) (elem : Shape) : (array len elem).text.toList =
    "Vector ".toList ++ (elem.elementText.toList ++ ' ' :: len.repr.toList) := by
  simp [text_array]

theorem toList_elementText_array (len : Nat) (elem : Shape) :
    (array len elem).elementText.toList = '(' :: ((array len elem).text.toList ++ [')']) := by
  simp [elementText]

/-- Whether a shape can be read back from its type, whatever follows, if that does not begin with a
    digit. -/
def Reads (s : Shape) : Prop :=
  ∀ (t : Shape) (xs ys : List Char), (∀ c ∈ xs.head?, ¬c.isDigit) → (∀ c ∈ ys.head?, ¬c.isDigit) →
    s.text.toList ++ xs = t.text.toList ++ ys → s = t ∧ xs = ys

/-- A shape is read back from its type inside that of an array. -/
theorem Reads.element {s : Shape} (hs : s.Reads) {t : Shape} {xs ys : List Char}
    (h : s.elementText.toList ++ ' ' :: xs = t.elementText.toList ++ ' ' :: ys) :
    s = t ∧ xs = ys := by
  cases s with
  | scalar =>
    cases t with
    | scalar => simpa [elementText] using h
    | array => simp [elementText] at h
  | array len elem =>
    cases t with
    | scalar => simp [elementText] at h
    | array len' elem' =>
      rw [toList_elementText_array, toList_elementText_array] at h
      have hinside : (array len elem).text.toList ++ ')' :: ' ' :: xs =
          (array len' elem').text.toList ++ ')' :: ' ' :: ys := by
        simpa using h
      obtain ⟨hshape, hrest⟩ := hs _ _ _ (by simp) (by simp) hinside
      exact ⟨hshape, by simpa using hrest⟩

theorem reads (s : Shape) : s.Reads := by
  -- Inside an array a space or a parenthesis follows the elements, so what follows stays open.
  induction s with
  | scalar =>
    intro t xs ys hxs hys h
    cases t with
    | scalar => exact ⟨rfl, List.append_cancel_left h⟩
    | array len elem => simp [toList_text_array, text] at h
  | array len elem ih =>
    intro t xs ys hxs hys h
    cases t with
    | scalar => simp [toList_text_array, text] at h
    | array len' elem' =>
      have hinside : elem.elementText.toList ++ ' ' :: (len.repr.toList ++ xs) =
          elem'.elementText.toList ++ ' ' :: (len'.repr.toList ++ ys) := by
        simpa [toList_text_array] using h
      obtain ⟨rfl, hlen⟩ := ih.element hinside
      obtain ⟨rfl, hrest⟩ := repr_append_cancel hxs hys hlen
      exact ⟨rfl, hrest⟩

theorem text_inj {s t : Shape} : s.text = t.text ↔ s = t := by
  refine ⟨fun h => ?_, congrArg text⟩
  exact (s.reads t [] [] (by simp) (by simp) (by rw [h])).1

end Shape

namespace Definition

/-! ### Entries -/

/-- An entry of a header: a parameter, or the continuation with the shape of what it takes. -/
inductive Entry where
  | param (arg : Argument)
  | continuation (shape : Shape)

namespace Entry

/-- What an entry names, and the shape that is given with the name. -/
def argument : Entry → Argument
  | .param arg => arg
  | .continuation shape => ⟨"k", shape⟩

/-- What stands after the type in an entry. -/
def ending : Entry → String
  | .param _ => ")"
  | .continuation _ => " -> Prop)"

def text (e : Entry) : String :=
  "(" ++ e.argument.name ++ ": " ++ e.argument.shape.text ++ e.ending

theorem toList_text (e : Entry) : e.text.toList =
    '(' :: (e.argument.name.toList ++ ':' :: ' ' ::
      (e.argument.shape.text.toList ++ e.ending.toList)) := by
  simp [text]

/-- No ending continues a number. -/
theorem not_isDigit_of_ending (e : Entry) (xs : List Char) :
    ∀ c ∈ (e.ending.toList ++ xs).head?, ¬c.isDigit := by
  cases e <;> simp [ending]

/-- What an entry names and how it ends make the entry. -/
theorem eq_of_ending {e f : Entry} (hargument : e.argument = f.argument) {xs ys : List Char}
    (h : e.ending.toList ++ xs = f.ending.toList ++ ys) : e = f ∧ xs = ys := by
  cases e with
  | param a =>
    cases f with
    | param b =>
      obtain rfl : a = b := hargument
      exact ⟨rfl, List.append_cancel_left h⟩
    | continuation t => simp [ending] at h
  | continuation s =>
    cases f with
    | param b => simp [ending] at h
    | continuation t =>
      obtain rfl : s = t := congrArg Argument.shape hargument
      exact ⟨rfl, List.append_cancel_left h⟩

/-- An entry can be read back from its text and what follows it. -/
theorem text_cancel {e f : Entry} (he : Term.Plain e.argument.name.toList)
    (hf : Term.Plain f.argument.name.toList) {xs ys : List Char}
    (h : e.text.toList ++ xs = f.text.toList ++ ys) : e = f ∧ xs = ys := by
  have hinside : e.argument.name.toList ++ ':' :: ' ' ::
      (e.argument.shape.text.toList ++ (e.ending.toList ++ xs)) =
        f.argument.name.toList ++ ':' :: ' ' ::
          (f.argument.shape.text.toList ++ (f.ending.toList ++ ys)) := by
    simpa [toList_text] using h
  -- Read from the left: the name up to the colon, then the type, then the ending.
  obtain ⟨hname, htype⟩ := word_cancel he hf (by simp [Term.punctuation])
    (by simp [Term.punctuation]) hinside
  obtain ⟨hshape, hend⟩ := e.argument.shape.reads _ _ _ (e.not_isDigit_of_ending xs)
    (f.not_isDigit_of_ending ys) (by simpa using htype)
  have hargument : e.argument = f.argument := calc
    e.argument = ⟨e.argument.name, e.argument.shape⟩ := rfl
    _ = ⟨f.argument.name, f.argument.shape⟩ := by rw [String.toList_inj.mp hname, hshape]
    _ = f.argument := rfl
  exact eq_of_ending hargument hend

end Entry

/-! ### Parameters -/

/-- The entries of a header: the parameters, and the continuation last. -/
def entries (d : Definition) : List Entry :=
  d.params.map .param ++ (d.continuation.map .continuation).toList

theorem paramTexts_eq (d : Definition) : d.paramTexts = d.entries.map Entry.text := by
  have hparams : d.params.map paramText = d.params.map fun a => (Entry.param a).text := rfl
  rw [paramTexts, entries, hparams]
  cases d.continuation with
  | none => simp [Function.comp_def]
  | some shape => simp [Function.comp_def, Entry.text, Entry.argument, Entry.ending]

/-- Parameters come first, so the entries tell where they end. -/
theorem eq_of_entries {ps qs : List Argument} {k l : Option Shape}
    (h : ps.map Entry.param ++ (k.map Entry.continuation).toList =
      qs.map Entry.param ++ (l.map Entry.continuation).toList) : ps = qs ∧ k = l := by
  induction ps generalizing qs with
  | nil =>
    cases qs with
    | nil => cases k <;> cases l <;> simp_all
    | cons q qs => cases k <;> simp at h
  | cons p ps ih =>
    cases qs with
    | nil => cases l <;> simp at h
    | cons q qs =>
      obtain ⟨hfirst, hrest⟩ := List.cons.inj h
      obtain rfl : p = q := Entry.param.inj hfirst
      obtain ⟨rfl, hcontinuation⟩ := ih hrest
      exact ⟨rfl, hcontinuation⟩

theorem entries_inj {d e : Definition} :
    d.entries = e.entries ↔ d.params = e.params ∧ d.continuation = e.continuation := by
  refine ⟨eq_of_entries, ?_⟩
  rintro ⟨hparams, hcontinuation⟩
  rw [entries, entries, hparams, hcontinuation]

/-- Entries as they stand in a header, each after a space. -/
def spaced (es : List Entry) : List Char := es.flatMap fun e => ' ' :: e.text.toList

/-- Punctuation follows the name of a definition: a space before its entries, or else a colon. -/
theorem head_spaced (es : List Entry) :
    ∀ c ∈ (spaced es ++ ": Prop :=".toList).head?, ¬c ∉ Term.punctuation := by
  cases es with
  | nil => simp [spaced, Term.punctuation]
  | cons e es => simp [spaced, Term.punctuation]

/-- Entries can be read back one by one, up to what does not begin with a space. -/
theorem spaced_cancel {es fs : List Entry} (hes : ∀ e ∈ es, Term.Plain e.argument.name.toList)
    (hfs : ∀ f ∈ fs, Term.Plain f.argument.name.toList) {xs ys : List Char}
    (hxs : ' ' ∉ xs.head?) (hys : ' ' ∉ ys.head?) (h : spaced es ++ xs = spaced fs ++ ys) :
    es = fs ∧ xs = ys := by
  induction es generalizing fs with
  | nil =>
    cases fs with
    | nil => exact ⟨rfl, h⟩
    | cons f fs =>
      obtain rfl : xs = spaced (f :: fs) ++ ys := h
      -- What follows the entries does not go on like one.
      simp [spaced] at hxs
  | cons e es ih =>
    cases fs with
    | nil =>
      obtain rfl : spaced (e :: es) ++ xs = ys := h
      simp [spaced] at hys
    | cons f fs =>
      -- The first entries are read off, with all that follows left open.
      have hfirst : e.text.toList ++ (spaced es ++ xs) = f.text.toList ++ (spaced fs ++ ys) := by
        simpa [spaced] using h
      obtain ⟨rfl, hrest⟩ := Entry.text_cancel (hes e (by simp)) (hfs f (by simp)) hfirst
      obtain ⟨rfl, hend⟩ := ih (fun e he => hes e (by simp [he])) (fun f hf => hfs f (by simp [hf]))
        hrest
      exact ⟨rfl, hend⟩

/-- The parameters and the continuation as they stand in a header, each after a space. -/
def paramsText (d : Definition) : String := String.join (d.paramTexts.map (" " ++ ·))

theorem toList_paramsText (d : Definition) : d.paramsText.toList = spaced d.entries := by
  simp [paramsText, paramTexts_eq, spaced, List.flatMap_map]

/-- Where texts are joined, a separator stands before each but the first. -/
theorem intercalate_cons_eq_join (separator x : String) (texts : List String) :
    separator.intercalate (x :: texts) = x ++ String.join (texts.map (separator ++ ·)) := by
  induction texts generalizing x with
  | nil => simp
  | cons y ys ih =>
    rw [String.intercalate_cons_cons, ih, List.map_cons, String.join_cons]
    simp only [String.append_assoc]

theorem header_eq (d : Definition) :
    d.header = "def " ++ d.name ++ d.paramsText ++ ": Prop :=" := by
  rw [header, intercalate_cons_eq_join, paramsText]

theorem toList_header (d : Definition) : d.header.toList =
    "def ".toList ++ (d.name.toList ++ (spaced d.entries ++ ": Prop :=".toList)) := by
  simp [header_eq, toList_paramsText]

/-- The names in a header are those of the parameters, and that of the continuation. -/
theorem plain_entries {d : Definition} (hd : ∀ a ∈ d.params, Term.Plain a.name.toList) :
    ∀ e ∈ d.entries, Term.Plain e.argument.name.toList := by
  intro e he
  rcases List.mem_append.mp he with he | he
  · obtain ⟨a, ha, rfl⟩ := List.mem_map.mp he
    exact hd a ha
  · obtain ⟨shape, -, rfl⟩ := Option.map_eq_some_iff.mp (Option.mem_toList.mp he)
    exact (by decide : Term.Plain "k".toList)

/-- Where the names of parameters are plain, their text tells the parameters in their order and the
    continuation. -/
theorem paramsText_eq_iff {d e : Definition} (hd : ∀ a ∈ d.params, Term.Plain a.name.toList)
    (he : ∀ a ∈ e.params, Term.Plain a.name.toList) :
    d.paramsText = e.paramsText ↔ d.params = e.params ∧ d.continuation = e.continuation := by
  rw [← entries_inj]
  constructor
  · intro h
    have hchars := congrArg String.toList h
    rw [toList_paramsText, toList_paramsText] at hchars
    have hend : spaced d.entries ++ [] = spaced e.entries ++ [] := by rw [hchars]
    exact (spaced_cancel (plain_entries hd) (plain_entries he) (by simp) (by simp) hend).1
  · intro h
    apply String.toList_inj.mp
    rw [toList_paramsText, toList_paramsText, h]

/-- A name with punctuation in it may read like two parameters. -/
example :
    paramsText ⟨"", [⟨"x: F) (y", .scalar⟩], none, [], none⟩ =
      paramsText ⟨"", [⟨"x", .scalar⟩, ⟨"y", .scalar⟩], none, [], none⟩ := by
  decide

/-- Where the names of a definition and of its parameters are plain, its header tells its name, its
    parameters in their order and its continuation. -/
theorem header_eq_iff {d e : Definition} (hdname : Term.Plain d.name.toList)
    (hename : Term.Plain e.name.toList) (hd : ∀ a ∈ d.params, Term.Plain a.name.toList)
    (he : ∀ a ∈ e.params, Term.Plain a.name.toList) :
    d.header = e.header ↔
      d.name = e.name ∧ d.params = e.params ∧ d.continuation = e.continuation := by
  rw [← entries_inj]
  constructor
  · intro h
    have hchars := congrArg String.toList h
    rw [toList_header, toList_header] at hchars
    obtain ⟨hname, hrest⟩ := word_cancel hdname hename (head_spaced d.entries)
      (head_spaced e.entries) (List.append_cancel_left hchars)
    obtain ⟨hentries, -⟩ := spaced_cancel (plain_entries hd) (plain_entries he) (by simp) (by simp)
      hrest
    exact ⟨String.toList_inj.mp hname, hentries⟩
  · rintro ⟨hname, hentries⟩
    apply String.toList_inj.mp
    rw [toList_header, toList_header, hname, hentries]

/-- A type tells its shape, whatever the depth and the lengths. Where the names of parameters are
    plain, as identifiers are, the text of the parameters tells their names and shapes in their
    order, and whether there is a continuation and the shape of what it takes. So does a header,
    which also tells the name of its definition, if that is plain. -/
theorem types_determine_shapes :
    (∀ s t : Shape, s.text = t.text ↔ s = t) ∧
      ∀ d e : Definition, (∀ a ∈ d.params, Term.Plain a.name.toList) →
        (∀ a ∈ e.params, Term.Plain a.name.toList) →
          (d.paramsText = e.paramsText ↔
            d.params = e.params ∧ d.continuation = e.continuation) ∧
          (Term.Plain d.name.toList → Term.Plain e.name.toList →
            (d.header = e.header ↔
              d.name = e.name ∧ d.params = e.params ∧ d.continuation = e.continuation)) := by
  refine ⟨fun s t => Shape.text_inj, ?_⟩
  intro d e hd he
  exact ⟨paramsText_eq_iff hd he, fun hdname hename => header_eq_iff hdname hename hd he⟩

/-- Twelve rows of one against two rows of eleven, and a parameter that is called like the
    continuation against a continuation. -/
theorem types_determine_shapes_grids :
    let cells (rows columns : Nat) : Shape := .array rows (.array columns .scalar)
    let grid (params : List Argument) (continuation : Option Shape) : Definition :=
      ⟨"Grid", ⟨"cells_1", cells 12 1⟩ :: params, continuation, [], none⟩
    let closed := grid [⟨"k", .scalar⟩] none
    let passing := grid [] (some .scalar)
    (cells 12 1).text ≠ (cells 2 11).text ∧
      (∀ a ∈ closed.params, Term.Plain a.name.toList) ∧
      (∀ a ∈ passing.params, Term.Plain a.name.toList) ∧ Term.Plain "Grid".toList ∧
      closed.paramsText ≠ passing.paramsText ∧ closed.header ≠ passing.header := by
  intro cells grid closed passing
  have hclosed : ∀ a ∈ closed.params, Term.Plain a.name.toList := by
    simp only [closed, grid, List.forall_mem_cons]
    exact ⟨.of_identifier (by decide), .of_identifier (by decide), by simp⟩
  have hpassing : ∀ a ∈ passing.params, Term.Plain a.name.toList := by
    simp only [passing, grid, List.forall_mem_cons]
    exact ⟨.of_identifier (by decide), by simp⟩
  have hname : Term.Plain "Grid".toList := .of_identifier (by decide)
  obtain ⟨htypes, htexts⟩ := types_determine_shapes
  obtain ⟨hparams, hheader⟩ := htexts closed passing hclosed hpassing
  refine ⟨?types, hclosed, hpassing, hname, ?params, ?header⟩
  case types =>
    rw [ne_eq, htypes]
    decide
  case params =>
    rw [ne_eq, hparams]
    decide
  case header =>
    rw [ne_eq, hheader hname hname]
    decide

end Definition

end GateTrace
