import GateTrace.Proofs.Growth
import GateTrace.Proofs.Machine

/-! # Handles and names

    What a session may rely on about the handles that the extractor hands out. The key ideas:

    - A point of a run decides which handle its next step hands out, so a session can be told
      together with all handles that were handed out on the way.
    - The table only grows at its end, and a request only waits if nothing in the table had its
      name. So a name can come to stand in the table twice in one way only: a gadget is sealed after
      another one of its name was sealed while it was being recorded.
    - Where that never happens, names are different, and a handle is found again for good.
-/

namespace GateTrace

/-! ### Finding gadgets -/

namespace Extractor

theorem find?_of_prefix {ex ex' : Extractor} {name : String} {callee : Callee}
    (h : ex.find? name = some callee) (hgrows : ex.gadgets <+: ex'.gadgets) :
    ex'.find? name = some callee := by
  obtain ⟨more, hmore⟩ := hgrows
  obtain ⟨x, hx, hcallee⟩ := Option.map_eq_some_iff.mp h
  unfold find?
  rw [← hmore, List.zipIdx_append, List.find?_append, hx, Option.some_or, Option.map_some, hcallee]

theorem find?_enroll {ex : Extractor} {g : Gadget} (h : ex.find? g.name = none) :
    (ex.enroll g).1.find? g.name = some (ex.enroll g).2 := by
  have hnone : ex.gadgets.zipIdx.find? (·.1.name == g.name) = none := Option.map_eq_none_iff.mp h
  unfold find?
  rw [enroll_gadgets, List.zipIdx_append, List.find?_append, hnone, Option.none_or]
  simp [enroll]

end Extractor

namespace Machine

/-! ### Sessions -/

/-- What a client may do while nothing is in progress: run a program, start a circuit on an empty
    trace, take the trace away, or enter an event into the journal. -/
inductive Client : Machine → Machine → Prop
  | resume {m : Machine} (hidle : m.Idle) (p : Program) : Client m { m with program := p }
  | circuit {m : Machine} (hidle : m.Idle) (hcode : m.ex.code = []) (c : Component) {inner : Record}
    (hinner : c.record.withPlaceholders c.record.schema = (inner, .ok ())) :
    Client m ⟨m.ex, .ofRecord c.record.schema inner, c.body inner, []⟩
  | takeCode {m : Machine} (hidle : m.Idle) : Client m ⟨m.ex.takeCode.2, .client, .done .unit, []⟩
  | note {m : Machine} (hidle : m.Idle) (e : Event) : Client m { m with ex := m.ex.note e }

/-- Handles, each with the unique name that it was asked for under. -/
abbrev Handed : Type := List (String × Callee)

/-- The handle that the next step hands out, if it hands one out: that of a gadget that is found, or
    of one whose definition is done. -/
def handing? (m : Machine) : Option (String × Callee) :=
  match m.program, m.stack with
  | .define r _ _, _ => (m.ex.find? r.schema.uniqueName).map (r.schema.uniqueName, ·)
  | .done a, f :: _ =>
    match Extractor.output? a.toValue with
    | .ok output =>
      some (f.record.schema.uniqueName,
        (m.level.schema.gadget output m.ex.code).callee m.ex.gadgets.length)
    | .error _ => none
  | _, _ => none

/-- The points of a session, with the handles that were handed out on the way to them, if every step
    is taken from a point that satisfies `guard` together with those handles. -/
inductive Session (field : ScalarField) (guard : Handed → Machine → Prop) : Handed → Machine → Prop
  | start : Session field guard [] ⟨.start field, .client, .done .unit, []⟩
  | step {handed : Handed} {m m' : Machine} (hm : Session field guard handed m)
    (hguard : guard handed m) (hstep : Step m m') :
    Session field guard (handed ++ m.handing?.toList) m'
  | client {handed : Handed} {m m' : Machine} (hm : Session field guard handed m)
    (hmove : Client m m') : Session field guard handed m'

/-- The points of a session are reachable. -/
theorem Session.reachable {field : ScalarField} {guard : Handed → Machine → Prop}
    {guard' : Machine → Prop}
    (hsub : ∀ handed m, Session field guard handed m → guard handed m → guard' m)
    {handed : Handed} {m : Machine} (hm : Session field guard handed m) :
    Reachable field guard' m := by
  induction hm with
  | start => exact .start
  | step hm hguard hstep ih => exact ih.step (hsub _ _ hm hguard) hstep
  | client _ hmove ih =>
    cases hmove with
    | resume hidle p => exact ih.resume hidle p
    | circuit hidle hcode c hinner => exact ih.circuit hidle hcode c hinner
    | takeCode hidle => exact ih.takeCode hidle
    | note hidle e => exact ih.note hidle e

/-- A client leaves the table alone, and nothing waits. -/
theorem Client.gadgets_eq {m m' : Machine} (h : Client m m') :
    m'.ex.gadgets = m.ex.gadgets ∧ m'.stack = [] := by
  cases h with
  | resume hidle p => exact ⟨rfl, hidle.1⟩
  | circuit hidle hcode c hinner => exact ⟨rfl, rfl⟩
  | takeCode hidle => exact ⟨rfl, rfl⟩
  | note hidle e => exact ⟨rfl, hidle.1⟩

/-! ### Steps and the table -/

/-- Whether the gadget that `f` waits for is about to be sealed, with a given output. -/
inductive Seals : Machine → Frame → Option Operand → Prop
  | intro {ex : Extractor} {level : Level} {a : Answer} {f : Frame} {stack : List Frame}
    {output : Option Operand} (hout : Extractor.output? a.toValue = .ok output) :
    Seals ⟨ex, level, .done a, f :: stack⟩ f output

/-- The table entry of the gadget that is being recorded, if it returns `output`. -/
def entry (m : Machine) (output : Option Operand) : Gadget := m.level.schema.gadget output m.ex.code

/-- A step leaves the table alone and hands out at most a handle that is found there, or it seals a
    gadget at the end of the table and hands out its handle. -/
theorem Step.table_cases {m m' : Machine} (h : Step m m') :
    (m'.ex.gadgets = m.ex.gadgets ∧ ∀ x ∈ m.handing?, m.ex.find? x.1 = some x.2) ∨
      ∃ f output, m.Seals f output ∧ m'.ex.gadgets = m.ex.gadgets ++ [m.entry output] ∧
        m.handing? = some (f.record.schema.uniqueName,
          (m.entry output).callee m.ex.gadgets.length) := by
  cases h with
  -- Most steps leave the table alone, and hand out at most what they find in it.
  | perform hop =>
    obtain ⟨n, -, rfl, -⟩ := Extractor.perform_eq_ok hop
    exact .inl ⟨rfl, by simp [handing?]⟩
  | invoke hop =>
    obtain ⟨ops, -, -, rfl, -⟩ := Extractor.invoke_eq_ok hop
    exact .inl ⟨rfl, by simp [handing?]⟩
  | performError | invokeError | fail => exact .inl ⟨rfl, by simp [handing?]⟩
  | reuse hfind => exact .inl ⟨rfl, by simp [handing?, hfind]⟩
  | refuse hfind | enter hfind => exact .inl ⟨rfl, by simp [handing?, hfind]⟩
  | enrollError hout => exact .inl ⟨rfl, by simp [handing?, hout]⟩
  | enroll hout henrolled =>
    -- The definition is done: its gadget enters the table, and its handle is handed out.
    obtain rfl := henrolled
    exact .inr ⟨_, _, .intro hout, rfl, by simp [handing?, hout, entry]⟩

/-- A step keeps the table and at most adds to its end. -/
theorem Step.prefix_gadgets {m m' : Machine} (h : Step m m') : m.ex.gadgets <+: m'.ex.gadgets := by
  rcases h.table_cases with ⟨heq, -⟩ | ⟨f, output, -, heq, -⟩
  · simp [heq]
  · simp [heq]

/-- What is known of the definitions that wait: how each of their requests will end, and that the
    table it was made on is still there. -/
structure Waiting (m : Machine) : Prop where
  pending : Pending (m.program.run m.ex) m.level m.stack
  tables : ∀ f ∈ m.stack, f.ex.gadgets <+: m.ex.gadgets

theorem Step.waiting {m m' : Machine} (h : Step m m') (hwaiting : m.Waiting) : m'.Waiting := by
  refine ⟨h.pending hwaiting.pending, ?_⟩
  have hgrows := h.prefix_gadgets
  have hkept : ∀ f ∈ m.stack, f.ex.gadgets <+: m'.ex.gadgets := fun f hf =>
    (hwaiting.tables f hf).trans hgrows
  intro f hf
  -- A step takes a frame away, adds one with the present table, or leaves the frames as they are.
  cases h with
  | perform | performError | invoke | invokeError | reuse | refuse => exact hkept f hf
  | enter =>
    rcases List.mem_cons.mp hf with rfl | hf
    · exact hgrows
    · exact hkept f hf
  | enroll | enrollError | fail => exact hkept f (by simp [hf])

theorem Session.waiting {field : ScalarField} {guard : Handed → Machine → Prop} {handed : Handed}
    {m : Machine} (hm : Session field guard handed m) : m.Waiting := by
  induction hm with
  | start => exact ⟨.nil, by simp⟩
  | step _ _ hstep ih => exact hstep.waiting ih
  | client _ hmove _ =>
    obtain ⟨-, hstack⟩ := hmove.gadgets_eq
    exact ⟨by rw [hstack]; exact .nil, by simp [hstack]⟩

/-- A gadget that is about to be sealed was not in the table when it was asked for, and is sealed
    under the name that it was asked for. -/
theorem Waiting.seals {m : Machine} (h : m.Waiting) {f : Frame} {output : Option Operand}
    (hseals : m.Seals f output) :
    (m.entry output).name = f.record.schema.uniqueName ∧
      f.ex.find? f.record.schema.uniqueName = none ∧ f.ex.gadgets <+: m.ex.gadgets := by
  cases hseals with
  | intro hout =>
    cases h.pending with
    | cons hfind hinner hschema hrun hrest =>
      have hname := congrArg Schema.uniqueName hschema
      exact ⟨hname, hfind, h.tables f (by simp)⟩

/-! ### Handles that stay good -/

/-- Every handle that was handed out is that of a gadget of the table. -/
theorem Session.handed_enrolled {field : ScalarField} {guard : Handed → Machine → Prop}
    {handed : Handed} {m : Machine} (hm : Session field guard handed m) :
    ∀ x ∈ handed, ∃ g, m.ex.gadgets[x.2.id]? = some g ∧ x.2 = g.callee x.2.id := by
  induction hm with
  | start => simp
  | client _ hmove ih =>
    rw [hmove.gadgets_eq.1]
    exact ih
  | @step handed m m' _ _ hstep ih =>
    intro x hx
    rcases List.mem_append.mp hx with hx | hx
    · -- The table has at most grown since.
      obtain ⟨g, hg, hcallee⟩ := ih x hx
      obtain ⟨more, hmore⟩ := hstep.prefix_gadgets
      exact ⟨g, by rw [← hmore]; exact getElem?_grow hg more, hcallee⟩
    · rw [Option.mem_toList] at hx
      -- A handle is handed out for an entry that was found, or for the one that has just been
      -- added.
      rcases hstep.table_cases with ⟨htable, hfound⟩ | ⟨f, output, -, htable, hhanding⟩
      · obtain ⟨g, hg, -, hcallee⟩ := Extractor.find?_eq_some (hfound x hx)
        exact ⟨g, by rw [htable]; exact hg, hcallee⟩
      · obtain rfl : _ = x := Option.some.inj (hhanding.symm.trans hx)
        exact ⟨m.entry output, by simp [htable, Gadget.callee], rfl⟩

/-- Whether a gadget that is about to be sealed is the first of its name to be sealed since it was
    asked for. -/
def SealsFirst (m : Machine) : Prop :=
  ∀ f output, m.Seals f output →
    ∀ g ∈ m.ex.gadgets.drop f.ex.gadgets.length, g.name ≠ f.record.schema.uniqueName

/-- The names in the table are different, and every handle that was handed out is the one that is
    found under its name. -/
structure Settled (handed : Handed) (m : Machine) : Prop where
  names : (m.ex.gadgets.map (·.name)).Nodup
  found : ∀ x ∈ handed, m.ex.find? x.1 = some x.2

/-- A gadget that is the first of its name to be sealed since it was asked for is the first of its
    name at all. -/
theorem Waiting.find?_eq_none {m : Machine} (h : m.Waiting) (hfirst : m.SealsFirst) {f : Frame}
    {output : Option Operand} (hseals : m.Seals f output) :
    m.ex.find? (m.entry output).name = none := by
  obtain ⟨hname, hfind, hgrows⟩ := h.seals hseals
  obtain ⟨more, hmore⟩ := hgrows
  rw [hname, Extractor.find?_eq_none_iff]
  intro g hg
  -- Either `g` was there when the gadget was asked for, or it was sealed since.
  rw [← hmore, List.mem_append] at hg
  rcases hg with hg | hg
  · exact Extractor.find?_eq_none_iff.mp hfind g hg
  · apply hfirst f output hseals g
    rw [← hmore, List.drop_left]
    exact hg

/-- A step keeps names and handles settled, if what it seals is the first of its name. -/
theorem Step.settled {handed : Handed} {m m' : Machine} (hstep : Step m m') (hwaiting : m.Waiting)
    (hfirst : m.SealsFirst) (h : m.Settled handed) :
    m'.Settled (handed ++ m.handing?.toList) := by
  have hkept : ∀ (name : String) (callee : Callee),
      m.ex.find? name = some callee → m'.ex.find? name = some callee :=
    fun _ _ hfind => Extractor.find?_of_prefix hfind hstep.prefix_gadgets
  -- The table stays as it is, or it grows by a gadget whose name is new by `hfirst`.
  rcases hstep.table_cases with ⟨htable, hfound⟩ | ⟨f, output, hseals, htable, hhanding⟩
  · refine ⟨by rw [htable]; exact h.names, ?_⟩
    intro x hx
    rcases List.mem_append.mp hx with hx | hx
    · exact hkept _ _ (h.found x hx)
    · exact hkept _ _ (hfound x (Option.mem_toList.mp hx))
  · have hnew := hwaiting.find?_eq_none hfirst hseals
    constructor
    · rw [htable]
      exact nodup_map_concat h.names (Extractor.find?_eq_none_iff.mp hnew)
    · intro x hx
      rcases List.mem_append.mp hx with hx | hx
      · exact hkept _ _ (h.found x hx)
      · -- The new gadget is found under the name that it was asked for.
        obtain rfl : _ = x := Option.some.inj (hhanding.symm.trans (Option.mem_toList.mp hx))
        obtain ⟨hname, -, -⟩ := hwaiting.seals hseals
        rw [← hname]
        exact Extractor.find?_of_prefix (Extractor.find?_enroll hnew) (by simp [htable])

theorem Session.settled {field : ScalarField} {handed : Handed} {m : Machine}
    (hm : Session field (fun _ m => m.SealsFirst) handed m) : m.Settled handed := by
  induction hm with
  | start => exact ⟨by simp [Extractor.start], by simp⟩
  | step hm hfirst hstep ih => exact hstep.settled hm.waiting hfirst ih
  | client _ hmove ih =>
    have htable := hmove.gadgets_eq.1
    refine ⟨by rw [htable]; exact ih.names, ?_⟩
    intro x hx
    exact Extractor.find?_of_prefix (ih.found x hx) (by simp [htable])

/-- A step only ends in a table of different names if what it seals is the first of its name. -/
theorem Step.sealsFirst {m m' : Machine} (hstep : Step m m') (hwaiting : m.Waiting)
    (hnodup : (m'.ex.gadgets.map (·.name)).Nodup) : m.SealsFirst := by
  intro f output hseals g hg hsame
  obtain ⟨hname, -, -⟩ := hwaiting.seals hseals
  have hmem : g ∈ m.ex.gadgets := List.mem_of_mem_drop hg
  cases hseals with
  | intro hout =>
    cases hstep with
    | enrollError hfails => rw [hout] at hfails; contradiction
    | enroll hout' henrolled =>
      -- The entry that is added would have the name of `g`, which stands before it.
      obtain rfl := henrolled
      obtain rfl := Except.ok.inj (hout.symm.trans hout')
      rw [Extractor.enroll_gadgets, List.map_append, List.nodup_append] at hnodup
      obtain ⟨-, -, hapart⟩ := hnodup
      exact hapart g.name (List.mem_map_of_mem hmem) _ (List.mem_singleton.mpr rfl)
        (hsame.trans hname.symm)

/-- A session that ends in a table of different names never sealed a second gadget of a name. -/
theorem Session.sealsFirst {field : ScalarField} {handed : Handed} {m : Machine}
    (hm : Session field (fun _ _ => True) handed m) (hnodup : (m.ex.gadgets.map (·.name)).Nodup) :
    Session field (fun _ m => m.SealsFirst) handed m := by
  induction hm with
  | start => exact .start
  | step hm _ hstep ih =>
    -- The table before the step is a prefix of the one after it.
    have hbefore := (hstep.prefix_gadgets.map (·.name)).sublist.nodup hnodup
    exact .step (ih hbefore) (hstep.sealsFirst hm.waiting hnodup) hstep
  | client _ hmove ih =>
    rw [hmove.gadgets_eq.1] at hnodup
    exact .client (ih hnodup) hmove

/-- At a point of a session the names in the table are different if and only if no gadget was ever
    sealed after another of its name was sealed while it was being recorded. If so, a handle that
    was handed out for a name is what every request under that name answers from then on, and such a
    request changes nothing but the journal. -/
theorem Session.names_differ_iff_and_handles_stay {field : ScalarField} {handed : Handed}
    {m : Machine} (hm : Session field (fun _ _ => True) handed m) :
    ((m.ex.gadgets.map (·.name)).Nodup ↔ Session field (fun _ m => m.SealsFirst) handed m) ∧
      (Session field (fun _ m => m.SealsFirst) handed m →
        ∀ name callee, (name, callee) ∈ handed → ∀ r : Record, r.schema.uniqueName = name → ∀ run,
          m.ex.define r run = (m.ex.note (.reusedGadget name), .ok callee)) := by
  refine ⟨⟨hm.sealsFirst, fun hfirst => hfirst.settled.names⟩, ?_⟩
  rintro hfirst name callee hmem r rfl run
  exact Extractor.define_of_find?_eq_some (hfirst.settled.found _ hmem) run

/-- A gadget that splits its signal into bits, asked for on a new table: asked for again it is the
    same. -/
theorem Session.names_differ_iff_and_handles_stay_bits :
    ∃ handed m, Session .bn254 (fun _ _ => True) handed m ∧
      m.ex.gadgets.map (·.name) = ["Bits"] ∧ ∃ callee, handed = [("Bits", callee)] ∧
        ∀ v run, m.ex.define ⟨"Bits", [⟨"x", .signal (.wire v)⟩]⟩ run =
          (m.ex.note (.reusedGadget "Bits"), .ok callee) := by
  let r : Record := ⟨"Bits", [⟨"x", .signal (.wire .nil)⟩]⟩
  let body (_ : Record) : Program := .ofOperation (.toBinary (.operand (.input 0)) (some 2))
  have hstart : Session .bn254 (fun _ _ => True) _ _ :=
    .client .start (.resume ⟨rfl, .inl ⟨_, rfl⟩⟩ (.handleOf r body))
  have henter : Session .bn254 (fun _ _ => True) _ _ := .step hstart trivial (.enter rfl rfl)
  have hsplit : Session .bn254 (fun _ _ => True) _ _ := .step henter trivial (.perform rfl)
  have hseal : Session .bn254 (fun _ _ => True) _ _ := .step hsplit trivial (.enroll rfl rfl)
  refine ⟨_, _, hseal, by decide, _, rfl, ?_⟩
  intro v run
  have hboth := names_differ_iff_and_handles_stay hseal
  exact hboth.2 (hboth.1.mp (by decide)) "Bits" _
    (List.mem_append_right _ (List.mem_singleton.mpr rfl)) _ rfl run

/-- A gadget that calls another one of its name while it is being recorded: both are sealed, and the
    handle that its own request gets is not what the next request under that name answers. -/
theorem Session.not_names_differ :
    ∃ handed m, Session .bn254 (fun _ _ => True) handed m ∧
      m.ex.gadgets.map (·.name) = ["Nest", "Nest"] ∧
        ∃ callee, ("Nest", callee) ∈ handed ∧
          ∀ run, m.ex.define ⟨"Nest", [⟨"x", .signal (.wire (.int 1))⟩]⟩ run ≠
            (m.ex.note (.reusedGadget "Nest"), .ok callee) := by
  let r : Record := ⟨"Nest", [⟨"x", .signal (.wire (.int 1))⟩]⟩
  let last (_ : Record) : Program := .done (.value (.operand (.input 0)))
  let body (_ : Record) : Program := .call r last
  have hstart : Session .bn254 (fun _ _ => True) _ _ :=
    .client .start (.resume ⟨rfl, .inl ⟨_, rfl⟩⟩ (.handleOf r body))
  have houter : Session .bn254 (fun _ _ => True) _ _ := .step hstart trivial (.enter rfl rfl)
  have hinner : Session .bn254 (fun _ _ => True) _ _ := .step houter trivial (.enter rfl rfl)
  have hsealed : Session .bn254 (fun _ _ => True) _ _ := .step hinner trivial (.enroll rfl rfl)
  have hcalled : Session .bn254 (fun _ _ => True) _ _ := .step hsealed trivial (.invoke rfl)
  have hboth : Session .bn254 (fun _ _ => True) _ _ := .step hcalled trivial (.enroll rfl rfl)
  refine ⟨_, _, hboth, by decide, _, List.mem_append_right _ (List.mem_singleton.mpr rfl), ?_⟩
  intro run hsame
  -- The request finds the inner gadget, the first of the table; the handle is that of the second.
  have hanswers := hsame.symm.trans (Extractor.define_of_find?_eq_some rfl run)
  have hcallee := Except.ok.inj (congrArg Prod.snd hanswers)
  exact absurd (congrArg Callee.id hcallee) (by decide)

end Machine

end GateTrace
