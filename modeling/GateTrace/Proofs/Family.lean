import GateTrace.Proofs.Placeholders
import GateTrace.Proofs.Requests
import Mathlib.Order.WellFounded

/-! # Families of gadgets

    What gadget definitions have to be like so that a unique name stands for one gadget. The key
    ideas:

    - Records with the same unique name are of one type and have one definition, and none is ragged.
      Such records are the same once they hold placeholders.
    - A definition that runs on placeholders, over a table of the family, asks for members only.
      It may pass its own signals on to them, and what they answered: these are records of the
      family as good as any.
    - A definition can tell handles apart, and read what they say of their gadgets, but not where
      their gadgets are in the table. Two programs are alike if they go on alike for as long as they
      are answered with handles that cannot be told apart this way.
    - A definition asks for gadgets whose definitions are parts of it, so it never comes to ask for
      itself.
-/

namespace GateTrace

namespace Program

/-! ### Parts of programs -/

/-- What a program goes on with, and the definitions of the gadgets it asks for. -/
inductive Part : Program → Program → Prop
  | perform {o : Operation} {next : Except Error Value → Program} (x : Except Error Value) :
    Part (next x) (.perform o next)
  | invoke {callee : Callee} {r : Record} {next : Except Error Value → Program}
    (x : Except Error Value) : Part (next x) (.invoke callee r next)
  | define {r : Record} {body : Record → Program} {next : Except Error Callee → Program}
    (x : Except Error Callee) : Part (next x) (.define r body next)
  | body {r : Record} {body : Record → Program} {next : Except Error Callee → Program}
    (inner : Record) : Part (body inner) (.define r body next)

theorem part_wellFounded : WellFounded Part := by
  -- The parts of a program are what its constructors hold, so induction on programs does it.
  refine ⟨?_⟩
  intro p
  induction p with
  | done a => exact ⟨_, fun q hq => nomatch hq⟩
  | stop s => exact ⟨_, fun q hq => nomatch hq⟩
  | perform o next ih =>
    refine ⟨_, ?_⟩
    intro q hq
    cases hq with
    | perform x => exact ih x
  | invoke callee r next ih =>
    refine ⟨_, ?_⟩
    intro q hq
    cases hq with
    | invoke x => exact ih x
  | define r body next ihBody ih =>
    refine ⟨_, ?_⟩
    intro q hq
    cases hq with
    | define x => exact ih x
    | body inner => exact ihBody inner

/-- What a program comes to, directly or through its parts. -/
abbrev Below : Program → Program → Prop := Relation.TransGen Part

theorem Below.ne {p q : Program} (h : Below p q) : p ≠ q := by
  rintro rfl
  exact part_wellFounded.transGen.irrefl.irrefl p h

end Program

/-! ### Programs that are alike -/

/-- Handles of two runs, each of the first with the one of the second that plays its part. -/
abbrev Handles : Type := List (Callee × Callee)

/-- Whether two handles cannot be told apart: they say the same of their gadgets, and each is the
    same as an earlier handle exactly if the other is. -/
structure Callee.Indistinct (handles : Handles) (c c' : Callee) : Prop where
  signature : c.toSignature = c'.toSignature
  same : ∀ x ∈ handles, c.id = x.1.id ↔ c'.id = x.2.id

inductive Answer.Alike (handles : Handles) : Answer → Answer → Prop
  | unit : Alike handles .unit .unit
  | value {v : Value} : Alike handles (.value v) (.value v)
  | handle {c c' : Callee} (hmem : (c, c') ∈ handles) : Alike handles (.handle c) (.handle c')

/-- Programs that do the same on their runs from two states, as long as their answers cannot be told
    apart and up to which handles they hold. The records whose gadgets they ask for have the same
    unique names, and may hold different values. -/
inductive Program.Alike : Handles → Program → Extractor → Program → Extractor → Prop
  | done {handles : Handles} {ex ex' : Extractor} {a a' : Answer} (ha : a.Alike handles a') :
    Alike handles (.done a) ex (.done a') ex'
  | stop {handles : Handles} {ex ex' : Extractor} {s : Stop} :
    Alike handles (.stop s) ex (.stop s) ex'
  | perform {handles : Handles} {ex ex' : Extractor} {o : Operation}
    {next next' : Except Error Value → Program}
    (hok : ∀ {mid mid' : Extractor} {v : Value}, ex.perform o = .ok (mid, v) →
      ex'.perform o = .ok (mid', v) → Alike handles (next (.ok v)) mid (next' (.ok v)) mid')
    (herror : ∀ {e : Error}, ex.perform o = .error e → ex'.perform o = .error e →
      Alike handles (next (.error e)) ex (next' (.error e)) ex') :
    Alike handles (.perform o next) ex (.perform o next') ex'
  | invoke {handles : Handles} {ex ex' : Extractor} {c c' : Callee} {r r' : Record}
    {next next' : Except Error Value → Program} (hcallee : (c, c') ∈ handles)
    (hvalues : r.values = r'.values)
    (hok : ∀ {mid mid' : Extractor} {v : Value}, ex.invoke c r = .ok (mid, v) →
      ex'.invoke c' r' = .ok (mid', v) → Alike handles (next (.ok v)) mid (next' (.ok v)) mid')
    (herror : ∀ {e : Error}, ex.invoke c r = .error e → ex'.invoke c' r' = .error e →
      Alike handles (next (.error e)) ex (next' (.error e)) ex') :
    Alike handles (.invoke c r next) ex (.invoke c' r' next') ex'
  | define {handles : Handles} {ex ex' : Extractor} {r r' : Record}
    {body body' : Record → Program} {next next' : Except Error Callee → Program}
    (hname : r.schema.uniqueName = r'.schema.uniqueName)
    (hok : ∀ {mid mid' : Extractor} {c c' : Callee},
      Component.define ⟨r, body⟩ ex = (mid, .ok c) →
        Component.define ⟨r', body'⟩ ex' = (mid', .ok c') → c.Indistinct handles c' →
          Alike ((c, c') :: handles) (next (.ok c)) mid (next' (.ok c')) mid')
    (herror : ∀ {mid mid' : Extractor} {e : Error},
      Component.define ⟨r, body⟩ ex = (mid, .error (.error e)) →
        Component.define ⟨r', body'⟩ ex' = (mid', .error (.error e)) →
          Alike handles (next (.error e)) mid (next' (.error e)) mid') :
    Alike handles (.define r body next) ex (.define r' body' next') ex'

namespace Program

variable {handles : Handles} {ex ex' : Extractor}

theorem Alike.ofPanic {x : Except Panic Value} :
    Alike handles (.ofPanic (x.map .value)) ex (.ofPanic (x.map .value)) ex' := by
  cases x with
  | ok v => exact .done .value
  | error p => exact .stop

theorem Alike.ofOperation {o : Operation} :
    Alike handles (.ofOperation o) ex (.ofOperation o) ex' := by
  apply Alike.perform
  · intro mid mid' v _ _
    by_cases hstyle : o.kind.style = .assertion
    · simpa only [hstyle, if_true] using .done .unit
    · simpa only [hstyle, if_false] using .done .value
  · intro e _ _
    exact .stop

/-- Calls of handles that play one part, on the same values, are alike. -/
theorem Alike.ofInvoke {c c' : Callee} {r r' : Record} (hcallee : (c, c') ∈ handles)
    (hvalues : r.values = r'.values) :
    Alike handles (.ofInvoke c r) ex (.ofInvoke c' r') ex' := by
  apply Alike.invoke hcallee hvalues
  · intro mid mid' v _ _
    exact .done .value
  · intro e _ _
    exact .stop

/-- Calls of gadgets of one name on the same values are alike. -/
theorem Alike.call {r r' : Record} {body body' : Record → Program}
    (hname : r.schema.uniqueName = r'.schema.uniqueName) (hvalues : r.values = r'.values) :
    Alike handles (.call r body) ex (.call r' body') ex' := by
  apply Alike.define hname
  · intro mid mid' c c' _ _ _
    exact .ofInvoke List.mem_cons_self hvalues
  · intro mid mid' e _ _
    exact .stop

/-- Programs that go on alike after programs that are alike are alike. -/
theorem Alike.attempt {p p' : Program} {k k' : Except Error Answer → Program}
    (h : Alike handles p ex p' ex')
    (hok : ∀ {held : Handles} {mid mid' : Extractor} {a a' : Answer}, handles ⊆ held →
      p.run ex = (mid, .ok a) → p'.run ex' = (mid', .ok a') → a.Alike held a' →
        Alike held (k (.ok a)) mid (k' (.ok a')) mid')
    (herror : ∀ {held : Handles} {mid mid' : Extractor} {e : Error}, handles ⊆ held →
      p.run ex = (mid, .error (.error e)) → p'.run ex' = (mid', .error (.error e)) →
        Alike held (k (.error e)) mid (k' (.error e)) mid') :
    Alike handles (p.attempt k) ex (p'.attempt k') ex' := by
  induction h with
  | done ha => exact hok (List.Subset.refl _) rfl rfl ha
  | @stop _ _ _ s =>
    cases s with
    | error e => exact herror (List.Subset.refl _) rfl rfl
    | panic _ | tooDeep => exact .stop
  | perform _ _ ihok iherror =>
    simp only [run] at hok herror
    apply Alike.perform
    · intro mid mid' v hop hop'
      rw [hop, hop'] at hok herror
      exact ihok hop hop' hok herror
    · intro e hop hop'
      rw [hop, hop'] at hok herror
      exact iherror hop hop' hok herror
  | invoke hcallee hvalues _ _ ihok iherror =>
    simp only [run] at hok herror
    apply Alike.invoke hcallee hvalues
    · intro mid mid' v hop hop'
      rw [hop, hop'] at hok herror
      exact ihok hop hop' hok herror
    · intro e hop hop'
      rw [hop, hop'] at hok herror
      exact iherror hop hop' hok herror
  | define hname _ _ ihok iherror =>
    apply Alike.define hname
    · intro mid mid' c c' hdefine hdefine' hindistinct
      rw [run_define_eq hdefine, run_define_eq hdefine'] at hok herror
      -- The handle that the gadget is answered with is one more that is held.
      exact ihok hdefine hdefine' hindistinct
        (fun hheld => hok (List.Subset.trans (List.subset_cons_self _ _) hheld))
        (fun hheld => herror (List.Subset.trans (List.subset_cons_self _ _) hheld))
    · intro mid mid' e hdefine hdefine'
      rw [run_define_eq hdefine, run_define_eq hdefine'] at hok herror
      exact iherror hdefine hdefine' hok herror

end Program

/-! ### Tables of a family -/

/-- The definition of a gadget on placeholders, as a program. -/
structure Component.Records (c : Component) (s : Schema) (p : Program) : Prop where
  schema : c.record.schema = s
  placeholders : ∃ inner, c.record.withPlaceholders s = (inner, .ok ()) ∧ c.body inner = p

/-- A gadget that a member of the family recorded from an empty trace, over some of the entries
    `before` it and up to all of them. -/
inductive Gadget.Recorded (family : Component → Prop) (field : ScalarField)
    (before : List Gadget) : Gadget → Prop
  | intro {c : Component} {s : Schema} {p : Program} {start done : Extractor} {a : Answer}
    {output : Option Operand} (hc : family c) (hp : c.Records s p) (hfield : start.field = field)
    (hcode : start.code = []) (hstart : start.gadgets <+: before)
    (hrun : p.run start = (done, .ok a)) (htable : done.gadgets = before)
    (hout : Extractor.output? a.toValue = .ok output) :
    Recorded family field before (s.gadget output done.code)

/-- A table of gadgets of the family, no two of one name, each recorded by its definition. -/
structure Gadget.Memoized (family : Component → Prop) (field : ScalarField)
    (table : List Gadget) : Prop where
  nodup : (table.map (·.name)).Nodup
  recorded : ∀ (id : Nat) (g : Gadget), table[id]? = some g →
    g.Recorded family field (table.take id)

/-- An extractor over a field whose table was filled from the family. -/
structure Extractor.Filled (family : Component → Prop) (field : ScalarField) (ex : Extractor) :
    Prop where
  sameField : ex.field = field
  table : Gadget.Memoized family field ex.gadgets

/-- Such an extractor of which nothing is recorded at its level. -/
structure Extractor.Ready (family : Component → Prop) (field : ScalarField) (ex : Extractor) : Prop
    extends Filled family field ex where
  code : ex.code = []

/-! ### Coherent families -/

/-- Whether a definition on placeholders, over tables of the family, asks for members of the family
    only and does not look where these are in the table. -/
structure Component.Over (family : Component → Prop) (field : ScalarField) (c : Component) :
    Prop where
  asks : ∀ {ex : Extractor}, ex.Ready family field → c.OnlyAsks (fun _ => family) ex
  alike : ∀ {ex ex' : Extractor} {inner : Record}, ex.Ready family field →
    ex'.Ready family field → c.record.withPlaceholders c.record.schema = (inner, .ok ()) →
      Program.Alike [] (c.body inner) ex (c.body inner) ex'

/-- A family in which a unique name stands for one gadget: none of its records is ragged, records
    with the same unique name are of one type with one definition, and the definitions keep to the
    family. -/
structure Coherent (family : Component → Prop) (field : ScalarField) : Prop where
  rectangular : ∀ c, family c → c.record.Rectangular
  sameType : ∀ c c', family c → family c' →
    c.record.schema.uniqueName = c'.record.schema.uniqueName → c.record.SameType c'.record
  sameBody : ∀ c c', family c → family c' →
    c.record.schema.uniqueName = c'.record.schema.uniqueName → c.body = c'.body
  keeps : ∀ c, family c → c.Over family field

variable {family : Component → Prop} {field : ScalarField}

/-- Every member of a coherent family takes its placeholders. -/
theorem Coherent.exists_records (h : Coherent family field) {c : Component} (hc : family c) :
    ∃ p, c.Records c.record.schema p :=
  ⟨_, rfl, _, Record.withPlaceholders_own (h.rectangular c hc), rfl⟩

/-- Members with the same unique name record the same. -/
theorem Coherent.records_unique (h : Coherent family field) {c c' : Component} (hc : family c)
    (hc' : family c') {s s' : Schema} {p p' : Program} (hp : c.Records s p)
    (hp' : c'.Records s' p') (hname : s.uniqueName = s'.uniqueName) : s = s' ∧ p = p' := by
  obtain ⟨rfl, inner, hinner, rfl⟩ := hp
  obtain ⟨rfl, inner', hinner', rfl⟩ := hp'
  have htype := h.sameType c c' hc hc' hname
  have hsame := Record.withPlaceholders_eq (h.rectangular c hc) (h.rectangular c' hc') htype hname
  obtain rfl : inner = inner' := by
    rw [hinner, hinner'] at hsame
    exact congrArg Prod.fst hsame
  exact ⟨Record.schema_eq_of_uniqueName htype hname, by rw [h.sameBody c c' hc hc' hname]⟩

namespace Component.Records

variable {c : Component} {s : Schema} {p : Program} {ex ex' : Extractor}

/-- What a gadget records is a part of every program that asks for the gadget. -/
theorem part (hp : c.Records s p) (next : Except Error Callee → Program) :
    Program.Part p (.define c.record c.body next) := by
  obtain ⟨-, inner, -, rfl⟩ := hp
  exact .body inner

theorem onlyAsks (hp : c.Records s p) (hc : c.Over family field) (hex : ex.Ready family field) :
    p.OnlyAsks (fun _ => family) ex := by
  obtain ⟨rfl, inner, hinner, rfl⟩ := hp
  exact hc.asks hex inner hinner

theorem alike (hp : c.Records s p) (hc : c.Over family field) (hex : ex.Ready family field)
    (hex' : ex'.Ready family field) : Program.Alike [] p ex p ex' := by
  obtain ⟨rfl, inner, hinner, rfl⟩ := hp
  exact hc.alike hex hex' hinner

end Component.Records

end GateTrace
