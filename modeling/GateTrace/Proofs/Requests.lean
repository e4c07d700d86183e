import GateTrace.Proofs.Recording

/-! # What a run asks for

    A definition is a tree with a branch for every answer, and a run goes along one of them. So what
    a definition asks for is what its run comes by. The key ideas:

    - A set of requests tells which gadgets are asked for, each in which state. Whether a run keeps
      to it is a recursion that goes where the run goes.
    - A run is answered for by its own requests; those of the gadgets' definitions are others'. A
      set is closed if the definitions that its requests come to run keep to it as well.
-/

namespace GateTrace

/-- A set of requests: gadgets that may be asked for, each in a state of the extractor. -/
abbrev Requests : Type := Extractor → Component → Prop

namespace Program

variable {requests : Requests} {ex : Extractor}

/-- Whether all that a run from `ex` asks for is in a set of requests. -/
def OnlyAsks (requests : Requests) : Program → Extractor → Prop
  | .done _, _ => True
  | .stop _, _ => True
  | .perform o next, ex =>
    match ex.perform o with
    | .ok (ex, v) => (next (.ok v)).OnlyAsks requests ex
    | .error e => (next (.error e)).OnlyAsks requests ex
  | .define r body next, ex =>
    requests ex ⟨r, body⟩ ∧
      match Component.define ⟨r, body⟩ ex with
      | (ex, .ok callee) => (next (.ok callee)).OnlyAsks requests ex
      | (ex, .error (.error e)) => (next (.error e)).OnlyAsks requests ex
      | _ => True
  | .invoke callee r next, ex =>
    match ex.invoke callee r with
    | .ok (ex, v) => (next (.ok v)).OnlyAsks requests ex
    | .error e => (next (.error e)).OnlyAsks requests ex

/-- A request for a gadget is in the set, and so is what is asked for after it came to its end. -/
theorem onlyAsks_define_iff {r : Record} {body : Record → Program}
    {next : Except Error Callee → Program} {mid : Extractor} {result : Except Stop Callee}
    (hdefine : Component.define ⟨r, body⟩ ex = (mid, result)) :
    (define r body next).OnlyAsks requests ex ↔ requests ex ⟨r, body⟩ ∧
      match result with
      | .ok callee => (next (.ok callee)).OnlyAsks requests mid
      | .error (.error e) => (next (.error e)).OnlyAsks requests mid
      | .error _ => True := by
  cases result with
  | ok callee => simp only [OnlyAsks, hdefine]
  | error s => cases s <;> simp only [OnlyAsks, hdefine]

theorem onlyAsks_of_forall (h : ∀ ex c, requests ex c) (p : Program) (ex : Extractor) :
    p.OnlyAsks requests ex := by
  induction p generalizing ex with
  | done a => trivial
  | stop s => trivial
  | perform o next ih =>
    unfold OnlyAsks
    split
    -- Whatever the operation answers, the rest of the program is covered by induction.
    · apply ih
    · apply ih
  | invoke callee r next ih =>
    unfold OnlyAsks
    split
    · apply ih
    · apply ih
  | define r body next _ ih =>
    unfold OnlyAsks
    refine ⟨h _ _, ?_⟩
    split
    · apply ih
    · apply ih
    · trivial

theorem onlyAsks_ofExcept (x : Except Error Answer) : (ofExcept x).OnlyAsks requests ex := by
  cases x <;> trivial

theorem onlyAsks_ofPanic (x : Except Panic Answer) : (ofPanic x).OnlyAsks requests ex := by
  cases x <;> trivial

theorem onlyAsks_ofOperation (o : Operation) : (ofOperation o).OnlyAsks requests ex := by
  unfold ofOperation OnlyAsks
  split
  · show OnlyAsks requests (if o.kind.style = .assertion then .done .unit else .done (.value _)) _
    split <;> trivial
  · trivial

theorem onlyAsks_ofInvoke (callee : Callee) (r : Record) :
    (ofInvoke callee r).OnlyAsks requests ex := by
  unfold ofInvoke OnlyAsks
  split
  · apply onlyAsks_ofExcept
  · apply onlyAsks_ofExcept

/-- A call asks for its gadget, and for no other. -/
theorem onlyAsks_call {r : Record} {body : Record → Program} (h : requests ex ⟨r, body⟩) :
    (call r body).OnlyAsks requests ex := by
  unfold call OnlyAsks
  refine ⟨h, ?_⟩
  split
  · apply onlyAsks_ofInvoke
  · trivial
  · trivial

/-- To go on after a program is to make its requests, and then those of the rest. -/
theorem OnlyAsks.attempt {p : Program} {k : Except Error Answer → Program}
    (h : p.OnlyAsks requests ex)
    (hok : ∀ {mid : Extractor} {a : Answer}, p.run ex = (mid, .ok a) →
      (k (.ok a)).OnlyAsks requests mid)
    (herror : ∀ {mid : Extractor} {e : Error}, p.run ex = (mid, .error (.error e)) →
      (k (.error e)).OnlyAsks requests mid) : (p.attempt k).OnlyAsks requests ex := by
  induction p generalizing ex with
  | done a => exact hok rfl
  | stop s =>
    cases s with
    | error e => exact herror rfl
    | panic _ | tooDeep => trivial
  | perform o next ih =>
    unfold OnlyAsks at h
    unfold Program.attempt OnlyAsks
    simp only [run] at hok herror
    -- The operation is answered the same with and without `k` behind the program.
    cases hop : ex.perform o with
    | ok _ | error _ =>
      rw [hop] at h
      simp only [hop] at hok herror
      exact ih _ h hok herror
  | invoke callee r next ih =>
    unfold OnlyAsks at h
    unfold Program.attempt OnlyAsks
    simp only [run] at hok herror
    cases hop : ex.invoke callee r with
    | ok _ | error _ =>
      rw [hop] at h
      simp only [hop] at hok herror
      exact ih _ h hok herror
  | define r body next _ ih =>
    unfold Program.attempt
    cases hdefine : Component.define ⟨r, body⟩ ex with
    | mk mid result =>
      -- The request itself is the same, and what it answers decides how the program goes on.
      rw [onlyAsks_define_iff hdefine] at h ⊢
      rw [run_define_eq hdefine] at hok herror
      refine ⟨h.1, ?_⟩
      obtain ⟨-, h⟩ := h
      cases result with
      | ok callee => exact ih _ h hok herror
      | error s =>
        cases s with
        | error e => exact ih _ h hok herror
        | panic _ | tooDeep => trivial

end Program

/-- Whether the definition of a component, run from `ex` on placeholders, only makes requests of a
    set. -/
def Component.OnlyAsks (requests : Requests) (c : Component) (ex : Extractor) : Prop :=
  ∀ inner, c.record.withPlaceholders c.record.schema = (inner, .ok ()) →
    (c.body inner).OnlyAsks requests ex

/-- Whether a set of requests is closed: where one of them is for a gadget that is still to be
    recorded, the gadget's definition only makes requests of the set. -/
def Requests.Closed (requests : Requests) : Prop :=
  ∀ ex c, requests ex c → ex.find? c.record.schema.uniqueName = none →
    c.OnlyAsks requests
      { ex.note (.extractingGadget c.record.schema.uniqueName) with code := [] }

end GateTrace
