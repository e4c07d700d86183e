import GateTrace.Proofs.Family
import GateTrace.Proofs.Growth
import GateTrace.Proofs.Machine
import Mathlib.Data.List.Nodup

/-! # What the gadget table holds

    Over a coherent family every entry of the table is what its definition records. The key ideas:

    - An entry remembers the run that recorded it: from an empty trace, over a table that was there
      before, to the table right below the entry.
    - A run only adds entries whose definitions are parts of the running program. So no gadget is
      recorded while it is being recorded, and names stay different.
    - Whether a request finds an entry or records one, its answer is that of some run of the
      gadget's definition from an empty trace.
-/

namespace GateTrace

/-! ### Entries -/

variable {family : Component → Prop} {field : ScalarField}

namespace Gadget.Memoized

theorem nil : Memoized family field [] := ⟨by simp, by simp⟩

theorem of_prefix {table table' : List Gadget} (h : Memoized family field table')
    (hinit : table <+: table') : Memoized family field table := by
  obtain ⟨more, rfl⟩ := hinit
  refine ⟨?_, forall_getElem?_of_append h.recorded⟩
  have hnodup := h.nodup
  rw [List.map_append] at hnodup
  exact (List.nodup_append.mp hnodup).1

theorem append {table : List Gadget} (h : Memoized family field table) {g : Gadget}
    (hg : g.Recorded family field table) (hname : ∀ g' ∈ table, g'.name ≠ g.name) :
    Memoized family field (table ++ [g]) :=
  ⟨nodup_map_concat h.nodup hname, forall_getElem?_concat h.recorded hg⟩

/-- Two entries of one name are one entry. -/
theorem id_inj {table : List Gadget} (h : Memoized family field table) {i j : Nat}
    {g g' : Gadget} (hg : table[i]? = some g) (hg' : table[j]? = some g')
    (hname : g.name = g'.name) : i = j := by
  have hi : i < (table.map (·.name)).length := by
    simpa using (List.getElem?_eq_some_iff.mp hg).1
  refine (List.getElem?_inj hi h.nodup).mp ?_
  rw [List.getElem?_map, List.getElem?_map, hg, hg', Option.map_some, Option.map_some, hname]

end Gadget.Memoized

/-! ### Growth -/

/-- What a run of `p` does to the table: it only adds entries, and only of gadgets whose definitions
    are parts of `p`. -/
structure Extractor.Grows (family : Component → Prop) (field : ScalarField) (p : Program)
    (ex ex' : Extractor) : Prop where
  filled : ex'.Filled family field
  entries : ∃ more, ex'.gadgets = ex.gadgets ++ more ∧
    ∀ g ∈ more, ∃ c s q, family c ∧ c.Records s q ∧ g.name = s.uniqueName ∧ Program.Below q p

namespace Extractor.Grows

variable {p : Program} {ex ex' ex'' : Extractor}

theorem refl (h : ex.Filled family field) (hfield : ex'.field = ex.field)
    (hgadgets : ex'.gadgets = ex.gadgets) : Grows family field p ex ex' := by
  refine ⟨⟨hfield.trans h.sameField, ?_⟩, [], by simpa using hgadgets, by simp⟩
  rw [hgadgets]
  exact h.table

theorem trans (h : Grows family field p ex ex') (h' : Grows family field p ex' ex'') :
    Grows family field p ex ex'' := by
  obtain ⟨more, hmore, hparts⟩ := h.entries
  obtain ⟨more', hmore', hparts'⟩ := h'.entries
  refine ⟨h'.filled, more ++ more', ?_, ?_⟩
  · rw [hmore', hmore, List.append_assoc]
  · intro g hg
    rcases List.mem_append.mp hg with hg | hg
    · exact hparts g hg
    · exact hparts' g hg

/-- What a part of a program adds to the table counts as added by the program. -/
theorem of_part {q : Program} (h : Grows family field q ex ex') (hq : Program.Part q p) :
    Grows family field p ex ex' := by
  obtain ⟨more, hmore, hparts⟩ := h.entries
  refine ⟨h.filled, more, hmore, ?_⟩
  intro g hg
  obtain ⟨c, s, q', hc, hq', hname, hbelow⟩ := hparts g hg
  exact ⟨c, s, q', hc, hq', hname, hbelow.tail hq⟩

theorem isPrefix (h : Grows family field p ex ex') : ex.gadgets <+: ex'.gadgets := by
  obtain ⟨more, hmore, -⟩ := h.entries
  exact ⟨more, hmore.symm⟩

end Extractor.Grows

/-! ### Requests -/

/-- What a request for a gadget of schema `s` answers, in terms of how the gadget's definition ended
    with `done`. A handle is that of an entry of the table. -/
inductive Extractor.Answers (s : Schema) (done : Extractor) (table : List Gadget) :
    Except Stop Answer → Except Stop Callee → Prop
  | stopped {stop : Stop} : Answers s done table (.error stop) (.error stop)
  | unreadable {a : Answer} {e : Error} (hout : output? a.toValue = .error e) :
    Answers s done table (.ok a) (.error (.error e))
  | enrolled {a : Answer} {output : Option Operand} {id : Nat}
    (hout : output? a.toValue = .ok output)
    (hentry : table[id]? = some (s.gadget output done.code)) :
    Answers s done table (.ok a) (.ok ((s.gadget output done.code).callee id))

/-- A request that finds its gadget answers what some run of the gadget's definition answered. -/
theorem Extractor.find?_obtains (h : Coherent family field) {c : Component} (hc : family c)
    {s : Schema} {p : Program} (hp : c.Records s p) {ex : Extractor} (hex : ex.Filled family field)
    {callee : Callee} (hfind : ex.find? s.uniqueName = some callee) :
    ∃ start : Extractor, start.Ready family field ∧ (p.run start).1.gadgets <+: ex.gadgets ∧
      Answers s (p.run start).1 ex.gadgets (p.run start).2 (.ok callee) := by
  obtain ⟨g, hg, hname, hcallee⟩ := find?_eq_some hfind
  obtain ⟨hc', hp', hfield, hcode, hstart, hrun, htable, hout⟩ := hex.table.recorded callee.id g hg
  obtain ⟨rfl, rfl⟩ := h.records_unique hc hc' hp hp' hname.symm
  refine ⟨_, ⟨⟨hfield, ?_⟩, hcode⟩, ?_, ?_⟩
  · exact hex.table.of_prefix (hstart.trans (List.take_prefix callee.id ex.gadgets))
  · rw [hrun, htable]
    exact List.take_prefix callee.id ex.gadgets
  · rw [hrun, hcallee]
    exact .enrolled hout hg

/-- The end of a gadget's definition answers the request for it, and adds the gadget to the table if
    there is one. -/
theorem Extractor.settle_answers {s : Schema} {code : Trace} {done : Extractor}
    {result : Except Stop Answer} {settled : Extractor × Except Stop Callee}
    (h : settle s code (done, result.map Answer.toValue) = settled) :
    settled.1.field = done.field ∧ settled.1.code = code ∧
      Answers s done settled.1.gadgets result settled.2 ∧
        (settled.1.gadgets = done.gadgets ∨
          ∃ a output, result = .ok a ∧ output? a.toValue = .ok output ∧
            settled.1.gadgets = done.gadgets ++ [s.gadget output done.code]) := by
  -- The gadget enters the table if its definition answered with something that can be an output.
  subst h
  cases result with
  | error stop =>
    refine ⟨rfl, rfl, ?_, .inl rfl⟩
    exact .stopped
  | ok a =>
    cases hout : output? a.toValue with
    | error e =>
      have hsettled : settle s code (done, (Except.ok a).map Answer.toValue) =
          ({ done with code }, .error (.error e)) := by
        simp only [settle, Except.map, hout]
      rw [hsettled]
      exact ⟨rfl, rfl, .unreadable hout, .inl rfl⟩
    | ok output =>
      have hsettled : settle s code (done, (Except.ok a).map Answer.toValue) =
          ((Extractor.enroll { done with code } (s.gadget output done.code)).1,
            .ok (Extractor.enroll { done with code } (s.gadget output done.code)).2) := by
        simp only [settle, Except.map, hout]
      rw [hsettled]
      refine ⟨rfl, rfl, .enrolled hout ?_, .inr ⟨a, output, rfl, hout, rfl⟩⟩
      simp

/-- A gadget enters the table if its definition ran from an empty trace while nothing in the table
    had its name. -/
theorem Extractor.Grows.enroll (h : Coherent family field) {c : Component} (hc : family c)
    {s : Schema} {p : Program} (hp : c.Records s p) {start done settled : Extractor}
    (hstart : start.Ready family field) (hgrows : Grows family field p start done)
    (hnew : ∀ g ∈ start.gadgets, g.name ≠ s.uniqueName) {a : Answer} {output : Option Operand}
    (hrun : p.run start = (done, .ok a)) (hout : output? a.toValue = .ok output)
    {whole : Program} (hpart : Program.Part p whole) (hfield : settled.field = done.field)
    (htable : settled.gadgets = done.gadgets ++ [s.gadget output done.code]) :
    Grows family field whole done settled := by
  -- Nothing that the definition added has the gadget's name, as no definition is a part of itself.
  have hname : ∀ g ∈ done.gadgets, g.name ≠ s.uniqueName := by
    intro g hg heq
    obtain ⟨more, hmore, hparts⟩ := hgrows.entries
    rw [hmore] at hg
    rcases List.mem_append.mp hg with hg | hg
    · exact hnew g hg heq
    · obtain ⟨c', s', q, hc', hq, hgname, hbelow⟩ := hparts g hg
      obtain ⟨-, rfl⟩ := h.records_unique hc hc' hp hq (heq.symm.trans hgname)
      exact hbelow.ne rfl
  have hrecorded : Gadget.Recorded family field done.gadgets (s.gadget output done.code) :=
    .intro hc hp hstart.sameField hstart.code hgrows.isPrefix hrun rfl hout
  refine ⟨⟨hfield.trans hgrows.filled.sameField, ?_⟩, _, htable, ?_⟩
  · rw [htable]
    exact hgrows.filled.table.append hrecorded hname
  · intro g hg
    obtain rfl := List.mem_singleton.mp hg
    exact ⟨c, s, p, hc, hp, rfl, .single hpart⟩

/-- A request for a gadget of the family leaves the caller's trace alone, adds at most parts of the
    requesting program to the table, and answers what some run of the gadget's definition from an
    empty trace answers. -/
theorem Component.define_obtains (h : Coherent family field) {c : Component} (hc : family c)
    {p : Program} (hp : c.Records c.record.schema p)
    (hgrows : ∀ {start : Extractor}, start.Ready family field →
      Extractor.Grows family field p start (p.run start).1)
    {whole : Program} (hpart : Program.Part p whole) {ex ex' : Extractor}
    (hex : ex.Filled family field) {result : Except Stop Callee}
    (hdefined : c.define ex = (ex', result)) :
    ex'.code = ex.code ∧ Extractor.Grows family field whole ex ex' ∧
      ∃ start : Extractor, start.Ready family field ∧ (p.run start).1.gadgets <+: ex'.gadgets ∧
        Extractor.Answers c.record.schema (p.run start).1 ex'.gadgets (p.run start).2 result := by
  cases hfind : ex.find? c.record.schema.uniqueName with
  | some callee =>
    have hreused := (Extractor.define_of_find?_eq_some hfind c.runOn).symm.trans hdefined
    obtain ⟨rfl, rfl⟩ := Prod.mk.inj hreused
    exact ⟨rfl, .refl hex rfl rfl, Extractor.find?_obtains h hc hp hex hfind⟩
  | none =>
    obtain ⟨-, inner, hinner, hbody⟩ := id hp
    obtain rfl : c.body inner = p := hbody
    let start : Extractor :=
      { ex.note (.extractingGadget c.record.schema.uniqueName) with code := [] }
    have hready : start.Ready family field := ⟨⟨hex.sameField, hex.table⟩, rfl⟩
    -- The definition runs from an empty trace over the table as it is, and is settled at its end.
    have hsettled : Extractor.settle c.record.schema ex.code
        (((c.body inner).run start).1, ((c.body inner).run start).2.map Answer.toValue) =
          (ex', result) :=
      (Extractor.define_of_find?_eq_none hfind hinner).symm.trans hdefined
    have hrun := hgrows hready
    obtain ⟨hfield, hcode, hanswers, htable⟩ := Extractor.settle_answers hsettled
    have hinit : ((c.body inner).run start).1.gadgets <+: ex'.gadgets := by
      rcases htable with htable | ⟨a, output, -, -, htable⟩
      · exact htable.symm ▸ List.prefix_rfl
      · rw [htable]
        exact List.prefix_append _ _
    refine ⟨hcode, ?_, start, hready, hinit, hanswers⟩
    have hbegin : Extractor.Grows family field whole ex start := .refl hex rfl rfl
    have hwhole := hbegin.trans (hrun.of_part hpart)
    rcases htable with htable | ⟨a, output, hok, hout, htable⟩
    · exact hwhole.trans (.refl hrun.filled hfield htable)
    · refine hwhole.trans (hrun.enroll h hc hp hready ?_ ?_ hout hpart hfield htable)
      · exact Extractor.find?_eq_none_iff.mp hfind
      · rw [← hok]

/-! ### Runs -/

/-- A run that asks for gadgets of the family only adds parts of the program to the table. -/
theorem Program.run_grows (h : Coherent family field) {p : Program} {ex : Extractor}
    (hex : ex.Filled family field) (hp : p.OnlyAsks (fun _ => family) ex) :
    Extractor.Grows family field p ex (p.run ex).1 := by
  induction p generalizing ex with
  | done a => exact .refl hex rfl rfl
  | stop s => exact .refl hex rfl rfl
  | perform o next ih =>
    cases hop : ex.perform o with
    | ok answer =>
      obtain ⟨ex', v⟩ := answer
      simp only [OnlyAsks, hop] at hp
      obtain ⟨n, -, rfl, -⟩ := Extractor.perform_eq_ok hop
      have hpushed : Extractor.Grows family field (.perform o next) ex (ex.push n) :=
        .refl hex rfl rfl
      simp only [run, hop]
      exact hpushed.trans ((ih (.ok v) hpushed.filled hp).of_part (.perform _))
    | error e =>
      simp only [OnlyAsks, hop] at hp
      simp only [run, hop]
      exact (ih (.error e) hex hp).of_part (.perform _)
  | invoke callee r next ih =>
    cases hop : ex.invoke callee r with
    | ok answer =>
      obtain ⟨ex', v⟩ := answer
      simp only [OnlyAsks, hop] at hp
      obtain ⟨ops, -, -, rfl, -⟩ := Extractor.invoke_eq_ok hop
      have hpushed : Extractor.Grows family field (.invoke callee r next) ex
          (ex.push ⟨.call callee, ops⟩) := .refl hex rfl rfl
      simp only [run, hop]
      exact hpushed.trans ((ih (.ok v) hpushed.filled hp).of_part (.invoke _))
    | error e =>
      simp only [OnlyAsks, hop] at hp
      simp only [run, hop]
      exact (ih (.error e) hex hp).of_part (.invoke _)
  | define r body next ihBody ih =>
    unfold OnlyAsks at hp
    obtain ⟨hc, hnext⟩ := hp
    obtain ⟨p, hp⟩ := h.exists_records hc
    -- The gadget's definition is a member's, so over placeholders it keeps to the family.
    have hgrows : ∀ {start : Extractor}, start.Ready family field →
        Extractor.Grows family field p start (p.run start).1 := by
      intro start hstart
      have hasks := hp.onlyAsks (h.keeps _ hc) hstart
      obtain ⟨-, inner, -, rfl⟩ := hp
      exact ihBody inner hstart.toFilled hasks
    have hpart : Part p (.define r body next) := hp.part next
    -- Whatever the request added to the table is there when the program goes on.
    cases hdefined : Component.define ⟨r, body⟩ ex with
    | mk ex' result =>
      rw [hdefined] at hnext
      obtain ⟨-, hrequest, -⟩ := Component.define_obtains h hc hp hgrows hpart hex hdefined
      rw [run_define_eq hdefined]
      cases result with
      | ok callee =>
        exact hrequest.trans ((ih (.ok callee) hrequest.filled hnext).of_part (.define _))
      | error s =>
        cases s with
        | error e =>
          exact hrequest.trans ((ih (.error e) hrequest.filled hnext).of_part (.define _))
        | panic _ | tooDeep => exact hrequest

/-- A gadget of the family only adds parts of its definition to the table. -/
theorem Component.Records.grows (h : Coherent family field) {c : Component}
    (hc : c.Over family field) {s : Schema} {p : Program} (hp : c.Records s p) {ex : Extractor}
    (hex : ex.Ready family field) :
    Extractor.Grows family field p ex (p.run ex).1 :=
  Program.run_grows h hex.toFilled (hp.onlyAsks hc hex)

/-! ### Sessions -/

namespace Machine

/-- Whether a gadget that is about to be asked for is one of a family. -/
def AsksFor (family : Component → Prop) (m : Machine) : Prop :=
  match m.program with
  | .define r body _ => family ⟨r, body⟩
  | _ => True

/-- The table, and the one at every request that is still waiting, hold gadgets of the family. The
    definitions in progress are those that were asked for. -/
structure Kept (family : Component → Prop) (field : ScalarField) (m : Machine) : Prop where
  pending : Pending (m.program.run m.ex) m.level m.stack
  filled : m.ex.Filled family field
  waiting : ∀ f ∈ m.stack, family ⟨f.record, f.body⟩ ∧ f.ex.Filled family field

/-- A request that waits comes to what the run of its gadget's definition comes to. -/
theorem Frame.define_eq {f : Frame} {inner : Record}
    (hfind : f.ex.find? f.record.schema.uniqueName = none)
    (hinner : f.record.withPlaceholders f.record.schema = (inner, .ok ()))
    {outcome : Extractor × Except Stop Answer} (hrun : (f.body inner).run f.begin = outcome) :
    Component.define ⟨f.record, f.body⟩ f.ex =
      Extractor.settle f.record.schema f.ex.code (outcome.1, outcome.2.map Answer.toValue) := by
  subst hrun
  exact Extractor.define_of_find?_eq_none hfind hinner

/-- A gadget that is done enters a table that stays one of the family. -/
theorem Kept.enroll (h : Coherent family field) {ex : Extractor} {level : Level} {a : Answer}
    {f : Frame} {stack : List Frame} (hkept : Kept family field ⟨ex, level, .done a, f :: stack⟩)
    {output : Option Operand} (hout : Extractor.output? a.toValue = .ok output) :
    Gadget.Memoized family field (ex.gadgets ++ [level.schema.gadget output ex.code]) := by
  obtain ⟨hc, hfilled⟩ := hkept.waiting f (by simp)
  cases hkept.pending with
  | @cons _ _ _ _ inner hfind hinner hschema hrun _ =>
    -- The frame knows the run that ended here, so this is the end of its request.
    let c : Component := ⟨f.record, f.body⟩
    have hp : c.Records f.record.schema (f.body inner) := ⟨rfl, inner, hinner, rfl⟩
    obtain ⟨-, hgrows, -⟩ := c.define_obtains h hc hp (hp.grows h (h.keeps c hc))
      (.body inner : Program.Part (f.body inner) f.request) hfilled
      (Frame.define_eq hfind hinner hrun)
    have htable := hgrows.filled.table
    rw [← hschema] at htable
    simpa only [Extractor.settle, Program.run, Except.map, hout, Extractor.enroll_gadgets]
      using htable

/-- A step that asks for gadgets of the family keeps the table. -/
theorem Step.kept (h : Coherent family field) {m m' : Machine} (hstep : Step m m')
    (hasks : m.AsksFor family) (hkept : Kept family field m) : Kept family field m' := by
  have hpending := hstep.pending hkept.pending
  obtain ⟨-, ⟨hfield, htable⟩, hwaiting⟩ := id hkept
  cases hstep with
  | perform hop =>
    obtain ⟨n, -, rfl, -⟩ := Extractor.perform_eq_ok hop
    exact ⟨hpending, ⟨hfield, htable⟩, hwaiting⟩
  | invoke hop =>
    obtain ⟨ops, -, -, rfl, -⟩ := Extractor.invoke_eq_ok hop
    exact ⟨hpending, ⟨hfield, htable⟩, hwaiting⟩
  | performError | invokeError | reuse | refuse => exact ⟨hpending, ⟨hfield, htable⟩, hwaiting⟩
  | enter =>
    refine ⟨hpending, ⟨hfield, htable⟩, ?_⟩
    -- The frame that is added waits for the gadget that has just been asked for.
    intro f hf
    rcases List.mem_cons.mp hf with rfl | hf
    · exact ⟨hasks, hfield, htable⟩
    · exact hwaiting f hf
  | enroll hout henrolled =>
    -- The gadget that is sealed is the one that the frame on top waits for.
    obtain rfl := henrolled
    exact ⟨hpending, ⟨hfield, hkept.enroll h hout⟩, fun f hf => hwaiting f (by simp [hf])⟩
  | enrollError | fail =>
    exact ⟨hpending, ⟨hfield, htable⟩, fun f hf => hwaiting f (by simp [hf])⟩

/-- Over a coherent family the table keeps what its definitions record, at every point of a session
    that asks for no other gadgets. -/
theorem Reachable.kept (h : Coherent family field) {m : Machine}
    (hm : Reachable field (AsksFor family) m) : Kept family field m := by
  induction hm with
  | start => exact ⟨.nil, ⟨rfl, .nil⟩, by simp⟩
  | step _ hguard hstep ih => exact hstep.kept h hguard ih
  -- Between programs nothing waits, so only the table matters.
  | resume _ hidle _ ih =>
    refine ⟨?_, ih.filled, ih.waiting⟩
    rw [hidle.1]
    exact .nil
  | circuit _ _ _ _ _ ih => exact ⟨.nil, ih.filled, by simp⟩
  | takeCode _ _ ih => exact ⟨.nil, ⟨ih.filled.sameField, ih.filled.table⟩, by simp⟩
  | note _ hidle _ ih =>
    refine ⟨?_, ⟨ih.filled.sameField, ih.filled.table⟩, ih.waiting⟩
    rw [hidle.1]
    exact .nil

/-- Whether what runs, and what waits, only asks for gadgets of the family from here on. -/
structure Asking (family : Component → Prop) (m : Machine) : Prop where
  running : m.program.OnlyAsks (fun _ => family) m.ex
  waiting : ∀ f ∈ m.stack, f.request.OnlyAsks (fun _ => family) f.ex

theorem Asking.asksFor {m : Machine} (h : m.Asking family) : m.AsksFor family := by
  have hrunning := h.running
  unfold AsksFor
  split
  · next hprogram =>
    rw [hprogram, Program.onlyAsks_define_iff rfl] at hrunning
    exact hrunning.1
  · trivial

/-- A definition that waits is gone on with according to what its request comes to. -/
theorem Frame.onlyAsks_next {requests : Requests} {f : Frame} {inner : Record}
    (h : f.request.OnlyAsks requests f.ex) (hfind : f.ex.find? f.record.schema.uniqueName = none)
    (hinner : f.record.withPlaceholders f.record.schema = (inner, .ok ()))
    {outcome : Extractor × Except Stop Answer} (hrun : (f.body inner).run f.begin = outcome)
    {x : Except Error Callee} {ex : Extractor}
    (hsettled : Extractor.settle f.record.schema f.ex.code
      (outcome.1, outcome.2.map Answer.toValue) = (ex, x.mapError .error)) :
    (f.next x).OnlyAsks requests ex := by
  have hdefine := (Frame.define_eq hfind hinner hrun).trans hsettled
  unfold Frame.request at h
  rw [Program.onlyAsks_define_iff hdefine] at h
  cases x with
  | ok callee => exact h.2
  | error e => exact h.2

/-- A step keeps to the family if what runs and what waits does. -/
theorem Step.asking (h : Coherent family field) {m m' : Machine} (hstep : Step m m')
    (hkept : Kept family field m) (hasking : m.Asking family) : m'.Asking family := by
  obtain ⟨hrunning, hwaiting⟩ := id hasking
  cases hstep with
  | perform hop | performError hop | invoke hop | invokeError hop =>
    simp only [Program.OnlyAsks, hop] at hrunning
    exact ⟨hrunning, hwaiting⟩
  | @reuse ex level r body next stack callee hfind =>
    have hdefine := Extractor.define_of_find?_eq_some hfind (Component.runOn ⟨r, body⟩)
    exact ⟨((Program.onlyAsks_define_iff hdefine).mp hrunning).2, hwaiting⟩
  | @refuse ex level r body next stack inner e hfind hinner =>
    have hdefine : Component.define ⟨r, body⟩ ex =
        (ex.note (.extractingGadget r.schema.uniqueName), .error (.error e)) := by
      simp only [Component.define, Extractor.define, Extractor.extract, hfind, hinner]
    exact ⟨((Program.onlyAsks_define_iff hdefine).mp hrunning).2, hwaiting⟩
  | @enter ex level r body next stack inner hfind hinner =>
    have hc : family ⟨r, body⟩ := ((Program.onlyAsks_define_iff rfl).mp hrunning).1
    -- The definition of the gadget starts from an empty trace, on a table of the family.
    have hbegin : (Frame.begin ⟨level, ex, r, body, next⟩).Ready family field :=
      ⟨⟨hkept.filled.sameField, hkept.filled.table⟩, rfl⟩
    refine ⟨(h.keeps _ hc).asks hbegin inner hinner, ?_⟩
    intro f hf
    rcases List.mem_cons.mp hf with rfl | hf
    · exact hrunning
    · exact hwaiting f hf
  | @enroll ex level a f stack output enrolled hout henrolled =>
    refine ⟨?_, fun f hf => hwaiting f (by simp [hf])⟩
    cases hkept.pending with
    | cons hfind hinner hschema hrun _ =>
      apply Frame.onlyAsks_next (hwaiting f (by simp)) hfind hinner hrun
      rw [← hschema]
      simp only [Program.run, Extractor.settle, Except.map, hout, henrolled, Except.mapError]
  | @enrollError ex level a f stack e hout =>
    refine ⟨?_, fun f hf => hwaiting f (by simp [hf])⟩
    cases hkept.pending with
    | cons hfind hinner hschema hrun _ =>
      apply Frame.onlyAsks_next (hwaiting f (by simp)) hfind hinner hrun
      simp only [Program.run, Extractor.settle, Except.map, hout, Except.mapError]
  | @fail ex level e f stack =>
    refine ⟨?_, fun f hf => hwaiting f (by simp [hf])⟩
    cases hkept.pending with
    | cons hfind hinner hschema hrun _ =>
      apply Frame.onlyAsks_next (hwaiting f (by simp)) hfind hinner hrun
      rfl

/-- The steps of a program that only asks for gadgets of the family are those of a session that asks
    for no others. So such a session comes to where the run of the program ends. -/
theorem Reachable.run_onlyAsks (h : Coherent family field) {m : Machine}
    (hm : Reachable field (AsksFor family) m) (hidle : m.Idle) {p : Program}
    (hp : p.OnlyAsks (fun _ => family) m.ex) (hend : Ended (p.run m.ex)) :
    ∃ m', Reachable field (AsksFor family) m' ∧ m'.Idle ∧ m'.ex = (p.run m.ex).1 := by
  -- Every step of the run asks for what the run asks for.
  have hwithin : ∀ {m' : Machine}, Steps { m with program := p } m' →
      Reachable field (AsksFor family) m' ∧ m'.Asking family := by
    intro m' hsteps
    induction hsteps with
    | refl =>
      refine ⟨hm.resume hidle p, hp, ?_⟩
      intro f hf
      rw [show m.stack = [] from hidle.1] at hf
      contradiction
    | tail _ hstep ih =>
      obtain ⟨hreachable, hasking⟩ := ih
      exact ⟨hreachable.step hasking.asksFor hstep,
        hstep.asking h (hreachable.kept h) hasking⟩
  obtain ⟨level, -, hsteps⟩ := run_reaches hend m.level m.stack
  refine ⟨_, (hwithin hsteps).1, ⟨hidle.1, ?_⟩, rfl⟩
  rcases hend with ⟨a, ha⟩ | ⟨e, he⟩
  · exact .inl ⟨a, by simp [after, ha]⟩
  · exact .inr ⟨e, by simp [after, he]⟩

end Machine

end GateTrace
