import GateTrace.Proofs.Catalogue
import GateTrace.Proofs.FileNames

/-! # Hierarchies of gadgets

    Definitions may ask for one another's gadgets through a table, so they are run up to a limit of
    nesting. The key ideas:

    - A definition is finite. So the only way for a recording to go on for ever is to nest without
      end.
    - Where every name that a definition asks for has a lower rank than the name it is run for, the
      nesting is at most as deep as the rank. A limit above it is not met, and all such limits come
      to the same.
    - A definition that is run for a name only seals names of lower ranks. So the name is still
      missing when it is sealed, and it is found from then on.
-/

namespace GateTrace

variable {ι : Type}

/-! ### Requests -/

namespace Body

/-- Whether all that a run from `ex` asks for is in a set, which tells of each request the state
    that it is made in, the place of the definition and the record. -/
def OnlyAsks (defs : ι → Record → Program) (requests : Extractor → ι → Record → Prop) :
    Body ι → Extractor → Prop
  | .done _, _ => True
  | .fail _, _ => True
  | .panic _, _ => True
  | .perform o next, ex =>
    match ex.perform o with
    | .ok (ex, v) => (next (.ok v)).OnlyAsks defs requests ex
    | .error e => (next (.error e)).OnlyAsks defs requests ex
  | .define r d next, ex =>
    requests ex d r ∧
      match Component.define ⟨r, defs d⟩ ex with
      | (ex, .ok callee) => (next (.ok callee)).OnlyAsks defs requests ex
      | (ex, .error (.error e)) => (next (.error e)).OnlyAsks defs requests ex
      | _ => True
  | .invoke callee r next, ex =>
    match ex.invoke callee r with
    | .ok (ex, v) => (next (.ok v)).OnlyAsks defs requests ex
    | .error e => (next (.error e)).OnlyAsks defs requests ex

/-- What a body asks for is what its program asks for. -/
theorem onlyAsks_program_iff {defs : ι → Record → Program} {requests : Requests} {b : Body ι}
    {ex : Extractor} :
    (b.program defs).OnlyAsks requests ex ↔
      b.OnlyAsks defs (fun ex d r => requests ex ⟨r, defs d⟩) ex := by
  induction b generalizing ex with
  | done | fail | panic => exact Iff.rfl
  | perform o next ih =>
    unfold program Program.OnlyAsks OnlyAsks
    cases ex.perform o with
    | ok _ | error _ => exact ih _
  | invoke callee r next ih =>
    unfold program Program.OnlyAsks OnlyAsks
    cases ex.invoke callee r with
    | ok _ | error _ => exact ih _
  | define r d next ih =>
    unfold program Program.OnlyAsks OnlyAsks
    refine and_congr_right fun _ => ?_
    -- After the request both go on with what it answers, unless the run ends there.
    cases Component.define ⟨r, defs d⟩ ex with
    | mk mid result =>
      cases result with
      | ok callee => exact ih _
      | error s =>
        cases s with
        | error e => exact ih _
        | panic _ | tooDeep => exact Iff.rfl

theorem onlyAsks_call {defs : ι → Record → Program} {requests : Extractor → ι → Record → Prop}
    {ex : Extractor} {d : ι} {r : Record} (h : requests ex d r) :
    (call r d).OnlyAsks defs requests ex := by
  simp only [call, OnlyAsks]
  refine ⟨h, ?_⟩
  split
  · split <;> trivial
  · trivial
  · trivial

end Body

namespace Catalogue

/-- Whether a body, run from `ex`, only makes requests of a set, and only asks for names of ranks
    below `bound`. -/
def Below (table : Catalogue ι) (rank : String → Nat) (requests : Extractor → ι → Record → Prop)
    (bound : Nat) (b : Body ι) (ex : Extractor) : Prop :=
  ∀ limit, b.OnlyAsks (table.unfold limit)
    (fun ex d r => requests ex d r ∧ rank r.schema.uniqueName < bound) ex

/-- Whether ranks go down in a set of requests: where one of them is for a gadget that is still to
    be recorded, the gadget's definition only makes requests of the set, for names of lower ranks. -/
def Ranked (table : Catalogue ι) (rank : String → Nat)
    (requests : Extractor → ι → Record → Prop) : Prop :=
  ∀ ex d r inner, requests ex d r → ex.find? r.schema.uniqueName = none →
    r.withPlaceholders r.schema = (inner, .ok ()) →
      table.Below rank requests (rank r.schema.uniqueName) (table d inner)
        { ex.note (.extractingGadget r.schema.uniqueName) with code := [] }

end Catalogue

/-! ### Seals -/

namespace Extractor

/-- Whether no name is sealed twice on the way from `ex` to `ex'`, nor one that was there before,
    and all that are sealed have ranks below `bound`. -/
def SealsOnce (rank : String → Nat) (bound : Nat) (ex ex' : Extractor) : Prop :=
  ∃ names, ex.Seals ex' names ∧ names.Nodup ∧
    ∀ name ∈ names, rank name < bound ∧ name ∉ ex.gadgets.map (·.name)

namespace SealsOnce

variable {rank : String → Nat} {bound : Nat} {ex ex' ex'' : Extractor}

theorem of_seals_nil (h : ex.Seals ex' []) : SealsOnce rank bound ex ex' :=
  ⟨[], h, .nil, by simp⟩

theorem mono (h : SealsOnce rank bound ex ex') {bound' : Nat} (hbound : bound ≤ bound') :
    SealsOnce rank bound' ex ex' := by
  obtain ⟨names, hseals, hnodup, hnames⟩ := h
  refine ⟨names, hseals, hnodup, fun name hname => ?_⟩
  obtain ⟨hrank, hnew⟩ := hnames name hname
  exact ⟨by omega, hnew⟩

theorem trans (h : SealsOnce rank bound ex ex') (h' : SealsOnce rank bound ex' ex'') :
    SealsOnce rank bound ex ex'' := by
  obtain ⟨names, hseals, hnodup, hnames⟩ := h
  obtain ⟨more, hseals', hnodup', hmore⟩ := h'
  -- What was sealed first is in the table when the rest is.
  have hmore' : ∀ name ∈ more, name ∉ ex.gadgets.map (·.name) ∧ name ∉ names := by
    intro name hname
    have hnew := (hmore name hname).2
    rwa [hseals.table, List.mem_append, not_or] at hnew
  refine ⟨names ++ more, hseals.trans hseals', ?_, ?_⟩
  · refine List.nodup_append.mpr ⟨hnodup, hnodup', ?_⟩
    rintro name hname _ hname' rfl
    exact (hmore' name hname').2 hname
  · intro name hname
    rcases List.mem_append.mp hname with hname | hname
    · exact hnames name hname
    · exact ⟨(hmore name hname).1, (hmore' name hname).1⟩

theorem resume (h : SealsOnce rank bound ex ex') (code : Trace) :
    SealsOnce rank bound ex { ex' with code } :=
  h.trans (.of_seals_nil (.resume (.refl ex') code))

/-- A gadget is sealed once if it was missing at first and all that was sealed since then has lower
    ranks. -/
theorem enroll {g : Gadget} (h : SealsOnce rank (rank g.name) ex ex')
    (hmissing : g.name ∉ ex.gadgets.map (·.name)) :
    SealsOnce rank (rank g.name + 1) ex (ex'.enroll g).1 := by
  obtain ⟨names, hseals, hnodup, hnames⟩ := h
  refine ⟨names ++ [g.name], hseals.enroll g, ?_, ?_⟩
  · refine List.nodup_append.mpr ⟨hnodup, List.nodup_singleton _, ?_⟩
    intro name hname _ hname' heq
    -- All that was sealed inside has a lower rank than the gadget, so it has another name.
    have hlower := (hnames name hname).1
    rw [heq, List.mem_singleton.mp hname'] at hlower
    exact Nat.lt_irrefl _ hlower
  · intro name hname
    rcases List.mem_append.mp hname with hname | hname
    · exact ⟨Nat.lt_succ_of_lt (hnames name hname).1, (hnames name hname).2⟩
    · rw [List.mem_singleton.mp hname]
      exact ⟨Nat.lt_succ_self _, hmissing⟩

/-- However the definition of a missing gadget ended, it is sealed once, if at all. -/
theorem settle {done : Extractor × Except Stop Value} {s : Schema}
    (h : SealsOnce rank (rank s.uniqueName) ex done.1) (hmissing : ex.find? s.uniqueName = none)
    (code : Trace) : SealsOnce rank (rank s.uniqueName + 1) ex (settle s code done).1 := by
  have hnew : s.uniqueName ∉ ex.gadgets.map (·.name) := by
    intro hmem
    obtain ⟨g, hg, hname⟩ := List.mem_map.mp hmem
    exact find?_eq_none_iff.mp hmissing g hg hname
  have hresumed := h.resume code
  obtain ⟨ex', result⟩ := done
  -- A gadget is sealed only if its definition answered with something that can be an output.
  cases result with
  | error stop => exact hresumed.mono (Nat.le_succ _)
  | ok v =>
    cases hout : output? v with
    | error e =>
      simp only [Extractor.settle, hout]
      exact hresumed.mono (Nat.le_succ _)
    | ok output =>
      simp only [Extractor.settle, hout]
      exact hresumed.enroll hnew

end SealsOnce

/-- A request only meets the limit of nesting inside the gadget's definition. -/
theorem settle_ne_tooDeep (s : Schema) (code : Trace) (done : Extractor × Except Stop Answer)
    (h : done.2 ≠ .error .tooDeep) :
    (Extractor.settle s code (done.1, done.2.map Answer.toValue)).2 ≠ .error .tooDeep := by
  obtain ⟨ex, result⟩ := done
  cases result with
  | error stop => simpa [Extractor.settle, Except.map] using h
  | ok a =>
    cases hout : output? a.toValue with
    | error e => simp [Extractor.settle, Except.map, hout]
    | ok output => simp [Extractor.settle, Except.map, hout]

/-- What a request comes to either does not depend on the gadget's definition, and then nothing is
    sealed, or it is what is left of a run of the definition. -/
theorem define_uniform (ex : Extractor) (r : Record) :
    (∃ done, done.2 ≠ .error .tooDeep ∧ ex.Seals done.1 [] ∧ ∀ run, ex.define r run = done) ∨
      ex.find? r.schema.uniqueName = none ∧
        ∃ inner, r.withPlaceholders r.schema = (inner, .ok ()) ∧
          ∀ run, ex.define r run = settle r.schema ex.code
            (run inner { ex.note (.extractingGadget r.schema.uniqueName) with code := [] }) := by
  have hnoted {e : Event} (he : e.sealedName? = none) : ex.Seals (ex.note e) [] :=
    .note (.refl ex) he
  -- The table and the record decide whether the definition runs at all.
  cases hfind : ex.find? r.schema.uniqueName with
  | some callee =>
    refine .inl ⟨(ex.note (.reusedGadget r.schema.uniqueName), .ok callee), nofun, hnoted rfl, ?_⟩
    exact define_of_find?_eq_some hfind
  | none =>
    cases hinner : r.withPlaceholders r.schema with
    | mk inner result =>
      cases result with
      | error e =>
        refine .inl ⟨(ex.note (.extractingGadget r.schema.uniqueName), .error (.error e)), nofun,
          hnoted rfl, fun run => ?_⟩
        simp only [define, extract, hfind, hinner]
      | ok u => exact .inr ⟨rfl, inner, rfl, fun run => define_of_find?_eq_none hfind hinner⟩

/-! ### Runs that go through -/

/-- Whether a run from `ex` under a limit of nesting goes through from the limit `n` on: it does not
    meet the limit, always comes to the same, and seals what it seals once, under names of ranks
    below `bound`. -/
structure GoesThrough {α : Type} (rank : String → Nat) (bound : Nat) (ex : Extractor) (n : Nat)
    (run : Nat → Extractor × Except Stop α) : Prop where
  answers : (run n).2 ≠ .error .tooDeep
  same : ∀ limit, n ≤ limit → run limit = run n
  seals : SealsOnce rank bound ex (run n).1

namespace GoesThrough

variable {α β : Type} {rank : String → Nat} {bound n : Nat} {ex : Extractor}

/-- A run that nests nothing goes through under every limit. -/
theorem of_eq (done : Extractor × Except Stop α) {run : Nat → Extractor × Except Stop α}
    (h : ∀ limit, run limit = done) (hanswers : done.2 ≠ .error .tooDeep)
    (hseals : ex.Seals done.1 []) : GoesThrough rank bound ex n run where
  answers := by rwa [h]
  same limit _ := by rw [h, h]
  seals := by
    rw [h]
    exact .of_seals_nil hseals

theorem mono {run : Nat → Extractor × Except Stop α} (h : GoesThrough rank bound ex n run)
    {bound' : Nat} (hbound : bound ≤ bound') : GoesThrough rank bound' ex n run :=
  ⟨h.answers, h.same, h.seals.mono hbound⟩

/-- Where a run goes on from another that goes through, both go through together. -/
theorem after {first : Nat → Extractor × Except Stop α} {ex' : Extractor} {result : Except Stop α}
    (hfirst : GoesThrough rank bound ex n first) (hdone : first n = (ex', result))
    {rest run : Nat → Extractor × Except Stop β} (hrest : GoesThrough rank bound ex' n rest)
    (h : ∀ limit, first limit = (ex', result) → run limit = rest limit) :
    GoesThrough rank bound ex n run := by
  have hrun : ∀ limit, n ≤ limit → run limit = rest limit := fun limit hlimit =>
    h limit ((hfirst.same limit hlimit).trans hdone)
  constructor
  · rw [hrun n le_rfl]
    exact hrest.answers
  · intro limit hlimit
    rw [hrun limit hlimit, hrun n le_rfl, hrest.same limit hlimit]
  · have hseals := hfirst.seals
    rw [hdone] at hseals
    rw [hrun n le_rfl]
    exact hseals.trans hrest.seals

/-- Where a run takes one limit for itself and nests another that goes through, it goes through, if
    what it makes of the other's end is an answer and seals once. -/
theorem nested {start : Extractor} {bound' : Nat} {inner : Nat → Extractor × Except Stop α}
    (hinner : GoesThrough rank bound start n inner)
    {conclude : Extractor × Except Stop α → Extractor × Except Stop β}
    (hanswers : ∀ done, done.2 ≠ .error .tooDeep → (conclude done).2 ≠ .error .tooDeep)
    (hseals : ∀ done, SealsOnce rank bound start done.1 →
      SealsOnce rank bound' ex (conclude done).1)
    {run : Nat → Extractor × Except Stop β}
    (h : ∀ limit, run (limit + 1) = conclude (inner limit)) :
    GoesThrough rank bound' ex (n + 1) run := by
  constructor
  · rw [h]
    exact hanswers _ hinner.answers
  · intro limit hlimit
    obtain ⟨limit, rfl⟩ := Nat.exists_eq_add_of_le' (Nat.le_of_add_left_le hlimit)
    rw [h, h, hinner.same limit (by omega)]
  · rw [h]
    exact hseals _ hinner.seals

theorem after_push {node : Node} {run : Nat → Extractor × Except Stop α}
    (h : GoesThrough rank bound (ex.push node) n run) : GoesThrough rank bound ex n run := by
  have hpush : ex.Seals (ex.push node) [] :=
    .resume (.note (.refl ex) (e := .recorded ex.code.length node) rfl) (ex.code ++ [node])
  exact ⟨h.answers, h.same, .trans (.of_seals_nil hpush) h.seals⟩

end GoesThrough

end Extractor

open Extractor

/-! ### Bodies -/

section Bodies

variable {table : Catalogue ι} {rank : String → Nat} {requests : Extractor → ι → Record → Prop}

/-- A body that only asks for names of lower ranks goes through, if requests for these do. The
    induction is on the body: it is finite, whatever it asks for. -/
theorem Body.goesThrough {n bound : Nat} (hbound : bound ≤ n)
    (hdefine : ∀ ex d r, requests ex d r → rank r.schema.uniqueName < n →
      GoesThrough rank (rank r.schema.uniqueName + 1) ex n
        fun limit => Component.define ⟨r, table.unfold limit d⟩ ex)
    (b : Body ι) {ex : Extractor}
    (hb : b.OnlyAsks (table.unfold n)
      (fun ex d r => requests ex d r ∧ rank r.schema.uniqueName < bound) ex) :
    GoesThrough rank bound ex n fun limit => (b.program (table.unfold limit)).run ex := by
  induction b generalizing ex with
  | done a => exact .of_eq _ (fun _ => rfl) nofun (.refl ex)
  | fail e => exact .of_eq _ (fun _ => rfl) nofun (.refl ex)
  | panic p => exact .of_eq _ (fun _ => rfl) nofun (.refl ex)
  | perform o next ih =>
    simp only [OnlyAsks] at hb
    simp only [program, Program.run]
    cases hop : ex.perform o with
    | error e =>
      rw [hop] at hb
      exact ih _ hb
    | ok answer =>
      obtain ⟨ex', v⟩ := answer
      rw [hop] at hb
      obtain ⟨node, -, rfl, -⟩ := Extractor.perform_eq_ok hop
      exact (ih _ hb).after_push
  | invoke callee r next ih =>
    simp only [OnlyAsks] at hb
    simp only [program, Program.run]
    cases hop : ex.invoke callee r with
    | error e =>
      rw [hop] at hb
      exact ih _ hb
    | ok answer =>
      obtain ⟨ex', v⟩ := answer
      rw [hop] at hb
      obtain ⟨ops, -, -, rfl, -⟩ := Extractor.invoke_eq_ok hop
      exact (ih _ hb).after_push
  | define r d next ih =>
    simp only [OnlyAsks] at hb
    obtain ⟨⟨hrequest, hrank⟩, hnext⟩ := hb
    -- The request comes to the same under every limit, so the rest goes on from one state.
    have hfirst := (hdefine ex d r hrequest (by omega)).mono hrank
    cases hdone : Component.define ⟨r, table.unfold n d⟩ ex with
    | mk ex' result =>
      rw [hdone] at hnext
      cases result with
      | ok callee => exact hfirst.after hdone (ih _ hnext) fun _ => Program.run_define_eq
      | error stop =>
        cases stop with
        | error e => exact hfirst.after hdone (ih _ hnext) fun _ => Program.run_define_eq
        | panic p =>
          have hrest : GoesThrough (α := Answer) rank bound ex' n fun _ => (ex', .error (.panic p)) :=
            .of_eq _ (fun _ => rfl) (by simp) (.refl ex')
          exact hfirst.after hdone hrest fun _ => Program.run_define_eq
        | tooDeep => exact absurd (congrArg Prod.snd hdone) hfirst.answers

/-- A request of the set goes through under every limit above the rank of its name. The induction is
    on the limit: what is asked for inside has a lower rank and one limit less. -/
theorem Catalogue.Ranked.define_goesThrough (h : table.Ranked rank requests) {n : Nat} :
    ∀ ex d r, requests ex d r → rank r.schema.uniqueName < n →
      GoesThrough rank (rank r.schema.uniqueName + 1) ex n
        fun limit => Component.define ⟨r, table.unfold limit d⟩ ex := by
  induction n with
  -- No name has a rank below zero.
  | zero =>
    intro ex d r _ hrank
    exact absurd hrank (Nat.not_lt_zero _)
  | succ n ih =>
    intro ex d r hrequest hrank
    rcases ex.define_uniform r with ⟨done, hanswers, hseals, hdefine⟩ |
      ⟨hmissing, inner, hinner, hdefine⟩
    · exact .of_eq done (fun _ => hdefine _) hanswers hseals
    · -- The definition has one limit less, which is enough for what it asks for.
      have hbelow := h ex d r inner hrequest hmissing hinner n
      have hbody := (table d inner).goesThrough (Nat.le_of_lt_succ hrank) ih hbelow
      have hbegun := (Seals.refl ex).note (e := .extractingGadget r.schema.uniqueName) rfl
      refine hbody.nested (settle_ne_tooDeep r.schema ex.code) ?_ fun limit => hdefine _
      intro done hseals
      exact .settle (.trans (.of_seals_nil (hbegun.resume [])) hseals) hmissing ex.code

/-! ### Circuits -/

/-- What is left of a circuit of schema `s`, once its definition has ended. -/
def Extraction.conclude (s : Schema) (done : Extractor × Except Stop Answer) :
    Extractor × Except Stop (Schema × Trace) :=
  match done.2 with
  | .error stop => (done.1, .error stop)
  | .ok _ =>
    let ex := done.1.takeCode.2.note (.circuitRecorded s.uniqueName done.1.code.length)
    let ex := ex.note (.counted done.1.code ex.gadgets)
    (ex.note (.graphed s.uniqueName done.1.code), .ok (s, done.1.code))

theorem Extraction.runCircuit_eq_conclude {c : Component} {inner : Record} {ex : Extractor}
    (hinner : c.record.withPlaceholders c.record.schema = (inner, .ok ())) :
    runCircuit ex c = conclude c.record.schema ((c.body inner).run ex) := by
  simp only [runCircuit, hinner]
  rfl

theorem Extraction.conclude_ne_tooDeep (s : Schema) (done : Extractor × Except Stop Answer)
    (h : done.2 ≠ .error .tooDeep) : (conclude s done).2 ≠ .error .tooDeep := by
  obtain ⟨ex, result⟩ := done
  cases result with
  | error stop => simpa [conclude] using h
  | ok a => nofun

/-- A circuit that was recorded leaves the gadgets to those after it. -/
theorem Extraction.seals_conclude (s : Schema) (done : Extractor × Except Stop Answer) :
    done.1.Seals (conclude s done).1 [] := by
  obtain ⟨ex, result⟩ := done
  cases result with
  | error stop => exact .refl ex
  | ok a =>
    have htaken : ex.Seals ex.takeCode.2 [] := .resume (.refl ex) []
    exact ((htaken.note rfl).note rfl).note rfl

/-- A circuit whose definition only asks for names of lower ranks goes through under every limit
    above the rank of its own. -/
theorem Catalogue.Ranked.runCircuit_goesThrough (h : table.Ranked rank requests) {ex : Extractor}
    {d : ι} {r : Record}
    (hcircuit : ∀ inner, r.withPlaceholders r.schema = (inner, .ok ()) →
      table.Below rank requests (rank r.schema.uniqueName) (table d inner) ex) :
    GoesThrough rank (rank r.schema.uniqueName) ex (rank r.schema.uniqueName + 1)
      fun limit => Extraction.runCircuit ex ⟨r, table.unfold limit d⟩ := by
  cases hinner : r.withPlaceholders r.schema with
  | mk inner result =>
    cases result with
    | error e =>
      refine .of_eq (ex, .error (.error e)) (fun limit => ?_) nofun (.refl ex)
      simp only [Extraction.runCircuit, hinner]
    | ok u =>
      -- Nothing is looked up for a circuit, and nothing is sealed under its own name.
      have hbelow := hcircuit inner hinner (rank r.schema.uniqueName)
      have hbody := (table d inner).goesThrough le_rfl h.define_goesThrough hbelow
      refine hbody.nested (Extraction.conclude_ne_tooDeep r.schema) ?_ fun limit =>
        Extraction.runCircuit_eq_conclude hinner
      intro done hseals
      exact hseals.trans (.of_seals_nil (Extraction.seals_conclude r.schema done))

/-! ### Hierarchies -/

/-- Where ranks go down, requests for gadgets, calls of records and circuits go through under every
    limit above the rank of the name, from every state that they are made in. Each comes to an
    answer, an error or a panic, always to the same, and seals no name twice and none that was
    there. -/
theorem Catalogue.Ranked.hierarchy_goesThrough (h : table.Ranked rank requests) :
    (∀ ex d r, requests ex d r →
      let above := rank r.schema.uniqueName + 1
      GoesThrough rank above ex above (fun limit =>
        Component.define ⟨r, table.unfold limit d⟩ ex) ∧
      GoesThrough rank above ex above (fun limit =>
        (Program.call r (table.unfold limit d)).run ex)) ∧
      ∀ ex d r, (∀ inner, r.withPlaceholders r.schema = (inner, .ok ()) →
        table.Below rank requests (rank r.schema.uniqueName) (table d inner) ex) →
          GoesThrough rank (rank r.schema.uniqueName) ex (rank r.schema.uniqueName + 1)
            fun limit => Extraction.runCircuit ex ⟨r, table.unfold limit d⟩ := by
  constructor
  · intro ex d r hrequest above
    have hdefine := h.define_goesThrough (n := above)
    refine ⟨hdefine ex d r hrequest (Nat.lt_succ_self _), ?_⟩
    have hcall := (Body.call r d).goesThrough le_rfl hdefine
      (Body.onlyAsks_call ⟨hrequest, Nat.lt_succ_self (rank r.schema.uniqueName)⟩)
    simpa only [Body.program_call] using hcall
  · exact fun ex d r => h.runCircuit_goesThrough

end Bodies

/-- Gadgets for powers of a signal. -/
inductive Power where
  | square
  | fourth

def Power.record (d : Power) (v : Value) : Record where
  typeName :=
    match d with
    | .square => "Square"
    | .fourth => "Fourth"
  fields := [⟨"x", .signal (.wire v)⟩]

/-- The fourth power passes its signal to the square, and then what this answers. -/
def powers : Catalogue Power
  | .square, inner =>
    .perform (.mul (inner.values.headD .nil) (inner.values.headD .nil) []) fun
      | .ok v => .done (.value v)
      | .error e => .fail e
  | .fourth, inner =>
    .define ⟨"Square", inner.fields⟩ .square fun
      | .ok callee => .invoke callee ⟨"Square", inner.fields⟩ fun
        | .ok v => .call (Power.square.record v) .square
        | .error e => .fail e
      | .error e => .fail e

/-- The fourth power has a higher rank than the square. -/
def powerRank (name : String) : Nat := if name = "Fourth" then 1 else 0

theorem ranked_powers : powers.Ranked powerRank fun _ d r => ∃ v, r = d.record v := by
  rintro ex d _ inner ⟨v, rfl⟩ _ hinner limit
  obtain rfl : _ = inner := congrArg Prod.fst hinner
  cases d with
  | square =>
    simp only [powers, Body.OnlyAsks]
    split <;> trivial
  | fourth =>
    -- The square has a lower rank, whatever value it is asked for.
    have hlower : ∀ w, powerRank (Power.square.record w).schema.uniqueName <
        powerRank (Power.fourth.record v).schema.uniqueName := by
      intro w
      show powerRank "Square" < powerRank "Fourth"
      decide
    simp only [powers, Body.OnlyAsks]
    refine ⟨⟨⟨_, rfl⟩, hlower _⟩, ?_⟩
    -- The second request is only made where the first was answered with a value.
    split
    · split
      · exact Body.onlyAsks_call ⟨⟨_, rfl⟩, hlower _⟩
      · trivial
    · trivial
    · trivial

/-- The square is sealed once and then the fourth power, under every limit but the lowest. -/
theorem hierarchy_goesThrough_powers :
    powers.Ranked powerRank (fun _ d r => ∃ v, r = d.record v) ∧
      (Component.define ⟨Power.fourth.record .nil, powers.unfold 2 .fourth⟩
        (.start .bn254)).1.gadgets.map (·.name) = ["Square", "Fourth"] ∧
      ∀ limit, 2 ≤ limit →
        Component.define ⟨Power.fourth.record .nil, powers.unfold limit .fourth⟩ (.start .bn254) =
          Component.define ⟨Power.fourth.record .nil, powers.unfold 2 .fourth⟩ (.start .bn254) := by
  have hfourth := (Catalogue.Ranked.hierarchy_goesThrough ranked_powers).1 (.start .bn254) .fourth
    (Power.fourth.record .nil) ⟨_, rfl⟩
  have hrank : powerRank (Power.fourth.record .nil).schema.uniqueName = 1 := by
    show powerRank "Fourth" = 1
    decide
  rw [hrank] at hfourth
  exact ⟨ranked_powers, by cbv, hfourth.1.same⟩

end GateTrace
