import GateTrace.Proofs.Traversal
import GateTrace.Script

/-! # Tables of definitions

    Definitions that ask for one another's gadgets through a table. The key ideas:

    - A definition of a table is a finite tree, as a program is, but it tells the definitions of the
      gadgets that it asks for by their places. So definitions may come back to themselves.
    - Up to a limit of nesting the places can be replaced by what they stand for, which makes
      programs of definitions.
    - The bodies of scripts do not look at the definitions that they hand on, so they are
      definitions of a table.
-/

namespace GateTrace

/-! ### Tables of definitions -/

/-- A definition whose gadgets are defined in a table: it is a program but for the definitions of
    the gadgets that it asks for, which it tells by their places. -/
inductive Body (ι : Type) where
  | done (a : Answer)
  | fail (e : Error)
  | panic (p : Panic)
  | perform (o : Operation) (next : Except Error Value → Body ι)
  | define (r : Record) (d : ι) (next : Except Error Callee → Body ι)
  | invoke (callee : Callee) (r : Record) (next : Except Error Value → Body ι)

/-- The definitions of a table, by their places. -/
abbrev Catalogue (ι : Type) := ι → Record → Body ι

variable {ι : Type}

namespace Body

/-- The program of a body, if the table's definitions are the programs `defs`. -/
def program (defs : ι → Record → Program) : Body ι → Program
  | .done a => .done a
  | .fail e => .stop (.error e)
  | .panic p => .stop (.panic p)
  | .perform o next => .perform o fun x => (next x).program defs
  | .define r d next => .define r (defs d) fun x => (next x).program defs
  | .invoke callee r next => .invoke callee r fun x => (next x).program defs

/-- Ask for a gadget and call it on the same record. -/
def call (r : Record) (d : ι) : Body ι :=
  .define r d fun
    | .ok callee => .invoke callee r fun
      | .ok v => .done (.value v)
      | .error e => .fail e
    | .error e => .fail e

theorem program_call (defs : ι → Record → Program) (r : Record) (d : ι) :
    (call r d).program defs = .call r (defs d) := by
  simp only [call, program, Program.call, Program.define.injEq, true_and]
  funext x
  cases x with
  | error e => rfl
  | ok callee =>
    simp only [program, Program.ofInvoke, Program.invoke.injEq, true_and]
    funext y
    cases y <;> rfl

end Body

namespace Catalogue

/-- Definition `d` of a table, with at most `limit` definitions inside one another. -/
def unfold (table : Catalogue ι) : (limit : Nat) → ι → Record → Program
  | 0, _, _ => .stop .tooDeep
  | limit + 1, d, r => (table d r).program (table.unfold limit)

end Catalogue

/-! ### Programs that hand definitions on -/

/-- Whether a program that takes definitions is the program of one body, whatever they are. -/
def OfBody (p : (ι → Record → Program) → Program) : Prop :=
  ∃ b : Body ι, ∀ defs, b.program defs = p defs

namespace OfBody

theorem done (a : Answer) : OfBody fun _ : ι → Record → Program => .done a :=
  ⟨.done a, fun _ => rfl⟩

theorem fail (e : Error) : OfBody fun _ : ι → Record → Program => .stop (.error e) :=
  ⟨.fail e, fun _ => rfl⟩

theorem panic (p : Panic) : OfBody fun _ : ι → Record → Program => .stop (.panic p) :=
  ⟨.panic p, fun _ => rfl⟩

theorem ofExcept (x : Except Error Answer) :
    OfBody fun _ : ι → Record → Program => .ofExcept x := by
  cases x with
  | error e => exact fail e
  | ok a => exact done a

theorem perform (o : Operation) {next : Except Error Value → (ι → Record → Program) → Program}
    (h : ∀ x, OfBody (next x)) : OfBody fun defs => .perform o fun x => next x defs := by
  choose bs hbs using h
  exact ⟨.perform o bs, fun defs => by simp only [Body.program, hbs]⟩

theorem define (r : Record) (d : ι) {next : Except Error Callee → (ι → Record → Program) → Program}
    (h : ∀ x, OfBody (next x)) : OfBody fun defs => .define r (defs d) fun x => next x defs := by
  choose bs hbs using h
  exact ⟨.define r d bs, fun defs => by simp only [Body.program, hbs]⟩

theorem invoke (callee : Callee) (r : Record)
    {next : Except Error Value → (ι → Record → Program) → Program} (h : ∀ x, OfBody (next x)) :
    OfBody fun defs => .invoke callee r fun x => next x defs := by
  choose bs hbs using h
  exact ⟨.invoke callee r bs, fun defs => by simp only [Body.program, hbs]⟩

theorem attempt {p : (ι → Record → Program) → Program} (hp : OfBody p)
    {k : Except Error Answer → (ι → Record → Program) → Program} (hk : ∀ x, OfBody (k x)) :
    OfBody fun defs => (p defs).attempt fun x => k x defs := by
  obtain ⟨b, hb⟩ := hp
  obtain rfl : (fun defs => b.program defs) = p := funext hb
  clear hb
  -- The rest goes where the body ends, at each of its ends.
  induction b with
  | done a => exact hk (.ok a)
  | fail e => exact hk (.error e)
  | panic p => exact panic p
  | perform o next ih => exact perform o ih
  | define r d next ih => exact define r d ih
  | invoke callee r next ih => exact invoke callee r ih

theorem ofOperation (o : Operation) : OfBody fun _ : ι → Record → Program => .ofOperation o := by
  refine perform o fun x => ?_
  cases x with
  | error e => exact fail e
  | ok v =>
    by_cases hstyle : o.kind.style = .assertion
    · simp only [if_pos hstyle]
      exact done .unit
    · simp only [if_neg hstyle]
      exact done (.value v)

theorem ofInvoke (callee : Callee) (r : Record) :
    OfBody fun _ : ι → Record → Program => .ofInvoke callee r :=
  invoke callee r fun _ => ofExcept _

theorem handleOf (r : Record) (d : ι) : OfBody fun defs => .handleOf r (defs d) :=
  define r d fun _ => ofExcept _

theorem call (r : Record) (d : ι) : OfBody fun defs => .call r (defs d) :=
  ⟨.call r d, fun defs => Body.program_call defs r d⟩

theorem callVoid (r : Record) (d : ι) : OfBody fun defs => .callVoid r (defs d) := by
  refine attempt (call r d) fun x => ?_
  cases x with
  | error e => exact fail e
  | ok a => exact done .unit

theorem callAs (type : SignalType) (r : Record) (d : ι) :
    OfBody fun defs => .callAs type r (defs d) := by
  refine attempt (call r d) fun x => ?_
  cases x with
  | error e => exact fail e
  | ok a => exact ofExcept _

end OfBody

namespace Script

/-! ### Scripts -/

theorem RecordSpec.build_ne_tooDeep {s : Scope} {r : RecordSpec} :
    r.build s ≠ .error .tooDeep := by
  have hslot : ∀ f : FieldSpec, f.slot s ≠ .error .tooDeep := by
    intro f
    simp only [FieldSpec.slot]
    cases f.init.eval s with
    | error p => nofun
    | ok v =>
      cases f.type with
      | parameter => nofun
      | signal type =>
        simp only [Except.mapError, bind, Except.bind]
        cases Signal.ofValue type v <;> nofun
  -- Fields are built one after the other, so the first failure is that of a slot.
  have hfields : ∀ fs : List FieldSpec,
      (fs.mapM fun f => do return (⟨f.name, ← f.slot s⟩ : Field)) ≠ .error .tooDeep := by
    intro fs
    induction fs with
    | nil => nofun
    | cons f fs ih =>
      have hf := hslot f
      simp only [List.mapM_cons, bind, Except.bind, pure, Except.pure] at ih ⊢
      cases hslots : f.slot s with
      | error stop =>
        rw [hslots] at hf
        simpa using hf
      | ok slot =>
        simp only
        split
        · next hrest =>
          rw [hrest] at ih
          simpa using ih
        · nofun
  simp only [build]
  cases hbuilt : (r.fields.mapM fun f => do return (⟨f.name, ← f.slot s⟩ : Field)) with
  | error stop =>
    intro h
    exact hfields r.fields (hbuilt.trans (by simpa [bind, Except.bind] using h))
  | ok fields => nofun

theorem ofBody_withRecord (s : Scope) (r : RecordSpec)
    {p : Record → (ι → Record → Program) → Program} (h : ∀ built, OfBody (p built)) :
    OfBody fun defs => withRecord s r fun built => p built defs := by
  cases hbuild : r.build s with
  | ok built =>
    simp only [withRecord, hbuild]
    exact h built
  | error stop =>
    simp only [withRecord, hbuild]
    cases stop with
    | error e => exact .fail e
    | panic p => exact .panic p
    | tooDeep => exact absurd hbuild RecordSpec.build_ne_tooDeep

/-- An action does not look at the definitions that it hands on. -/
theorem ofBody_action (table : Table) (s : Scope) (args : List Value) (action : Action) :
    OfBody fun unfold => action.program table unfold s args := by
  -- Only actions that ask for a gadget are given definitions, and they hand these on as they are.
  cases action with
  | bind | finish | constant => exact .done _
  | gate kind => exact .ofOperation _
  | toBinary width =>
    simp only [Action.program]
    cases widthOf s width with
    | ok width => exact .ofOperation _
    | error p => exact .panic p
  | call r => exact ofBody_withRecord s r fun built => .call built _
  | callVoid r => exact ofBody_withRecord s r fun built => .callVoid built _
  | callAs type r => exact ofBody_withRecord s r fun built => .callAs type built _
  | define r => exact ofBody_withRecord s r fun built => .handleOf built _
  | invoke handle r =>
    refine ofBody_withRecord s r fun built => ?_
    cases s.handles.lookup handle with
    | some callee => exact .ofInvoke callee built
    | none => exact .done .unit
  | panic p => exact .panic p
  | fail e => exact .fail e

theorem ofBody_stmt (table : Table) (s : Scope) (stmt : Stmt) :
    OfBody fun unfold => stmt.program table unfold s := by
  obtain ⟨action, args, target, tolerant⟩ := stmt
  simp only [Stmt.program]
  cases evalItems s args with
  | ok args => exact ofBody_action table s args action
  | error p => exact .panic p

theorem ofBody_sequence (table : Table) (s : Scope) (stmts : List Stmt) :
    OfBody fun unfold => sequence table unfold s stmts := by
  induction stmts generalizing s with
  | nil => exact .done _
  | cons stmt rest ih =>
    obtain ⟨action, args, target, tolerant⟩ := stmt
    have hstmt := ofBody_stmt table s (.mk action args target tolerant)
    cases action with
    -- What comes after the end is not looked at.
    | finish => exact hstmt
    | _ =>
      refine .attempt hstmt fun x => ?_
      cases x with
      | ok a => exact ih _
      | error e =>
        cases tolerant with
        | true => exact ih _
        | false => exact .fail e

/-- The bodies of scripts are definitions of a table. -/
theorem exists_catalogue (table : Table) :
    ∃ definitions : Catalogue (List Stmt), bodyProgram table = definitions.unfold := by
  -- One body for each list of statements and record, whatever the limit will be.
  choose bodies hbodies using fun stmts r => ofBody_sequence table (.ofRecord r) stmts
  refine ⟨bodies, funext fun limit => ?_⟩
  induction limit with
  | zero => rfl
  | succ limit ih =>
    funext stmts r
    rw [bodyProgram, ih, Catalogue.unfold, hbodies]

end Script

end GateTrace
