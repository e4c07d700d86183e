import GateTrace.Definition
import GateTrace.Proofs.Meaning

/-! # How a definition reads

    The lines of a definition as one proposition with lexical scoping. The key ideas:

    - A line is read together with everything after it, which is handed to it as `rest`.
    - `∃x, …` and `fun x => …` bind `x` on all lines that follow, and an `∃x` also on the rest of
      its own line. An inner binder of a name shadows the outer ones.
    - The name of a gadget stands for the definition that was given under it before.
-/

namespace GateTrace

variable {α : Type}

/-! ### Environments -/

/-- The data that the names in scope stand for. -/
abbrev Env (α : Type) : Type := String → Option (Datum α)

namespace Env

def empty : Env α := fun _ => none

def bind (env : Env α) (x : String) (d : Datum α) : Env α :=
  fun y => if y = x then some d else env y

/-- A name stands for something that is no datum from here on. -/
def hide (env : Env α) (x : String) : Env α := fun y => if y = x then none else env y

/-- The parameters of a definition stand for its arguments, a later parameter shadowing an earlier
    one of its name. -/
def ofParams : Env α → List Argument → List (Datum α) → Env α
  | env, a :: args, d :: ds => ofParams (env.bind a.name d) args ds
  | env, _, _ => env

@[simp] theorem bind_self (env : Env α) (x : String) (d : Datum α) : env.bind x d x = some d := by
  simp [bind]

@[simp] theorem bind_of_ne (env : Env α) {x y : String} (d : Datum α) (h : y ≠ x) :
    env.bind x d y = env y := by
  simp [bind, h]

@[simp] theorem bind_bind (env : Env α) (x : String) (d e : Datum α) :
    (env.bind x d).bind x e = env.bind x e := by
  funext y
  by_cases h : y = x <;> simp [bind, h]

@[simp] theorem hide_of_ne (env : Env α) {x y : String} (h : y ≠ x) : env.hide x y = env y := by
  simp [hide, h]

end Env

/-- What the name of a definition stands for. -/
inductive Meaning (α : Type) where
  /-- A proposition about arguments. -/
  | condition (holds : List (Datum α) → Prop)
  /-- A proposition about arguments and a continuation. -/
  | continued (holds : List (Datum α) → (Datum α → Prop) → Prop)

/-- The definitions given so far, by name. -/
abbrev Globals (α : Type) : Type := String → Option (Meaning α)

def Globals.give (globals : Globals α) (name : String) (m : Meaning α) : Globals α :=
  fun y => if y = name then some m else globals y

/-! ### Terms and lines -/

section Terms

variable (I : Interpretation α) (env : Env α)

mutual

def Term.eval : Term → Option (Datum α)
  | .var x => env x
  | .const v => some (.elem (I.literal v))
  | .nat v => some (.number v)
  | .get vector index => (eval vector).bind (·.item? index)
  | .vec items => (evalAll items).map .vec

def Term.evalAll : List Term → Option (List (Datum α))
  | [] => some []
  | x :: xs => (eval x).bind fun d => (evalAll xs).map (d :: ·)

end

end Terms

mutual

def Term.vars : Term → List String
  | .var x => [x]
  | .const _ | .nat _ => []
  | .get vector _ => vars vector
  | .vec items => varsAll items

def Term.varsAll : List Term → List String
  | [] => []
  | x :: xs => vars x ++ varsAll xs

end

mutual

theorem Term.eval_congr {I : Interpretation α} {env env' : Env α} : ∀ {t : Term},
    (∀ x ∈ t.vars, env x = env' x) → t.eval I env = t.eval I env'
  | .var x, h => h x (by simp [vars])
  | .const _, _ | .nat _, _ => rfl
  | .get vector index, h => by
    have hvector : vector.eval I env = vector.eval I env' := eval_congr h
    simp only [eval, hvector]
  | .vec items, h => by
    have hitems : evalAll I env items = evalAll I env' items := evalAll_congr h
    simp only [eval, hitems]

theorem Term.evalAll_congr {I : Interpretation α} {env env' : Env α} : ∀ {ts : List Term},
    (∀ x ∈ varsAll ts, env x = env' x) → evalAll I env ts = evalAll I env' ts
  | [], _ => rfl
  | t :: ts, h => by
    rw [evalAll, evalAll, eval_congr fun x hx => h x (List.mem_append_left _ hx),
      evalAll_congr fun x hx => h x (List.mem_append_right _ hx)]

end

theorem Term.evalAll_cons_eq_some_iff {I : Interpretation α} {env : Env α} {t : Term}
    {ts : List Term} {ds : List (Datum α)} :
    evalAll I env (t :: ts) = some ds ↔
      ∃ e es, t.eval I env = some e ∧ evalAll I env ts = some es ∧ ds = e :: es := by
  constructor
  · intro h
    obtain ⟨e, he, h⟩ := Option.bind_eq_some_iff.mp h
    obtain ⟨es, hes, rfl⟩ := Option.map_eq_some_iff.mp h
    exact ⟨e, es, he, hes, rfl⟩
  · rintro ⟨e, es, he, hes, rfl⟩
    simp [evalAll, he, hes]

/-- A line, read with the proposition `rest` that the lines after it make up. -/
def Line.Holds (I : Interpretation α) (globals : Globals α) (rest : Env α → Prop) (env : Env α) :
    Line → Prop
  -- The binder of an equation covers both its sides.
  | .equation x gate args =>
    ∃ d vs, Term.evalAll I (env.bind x d) args = some vs ∧ d = I.function gate vs ∧
      rest (env.bind x d)
  | .relation x gate args =>
    ∃ d vs, Term.evalAll I (env.bind x d) args = some vs ∧ I.relation gate vs d ∧
      rest (env.bind x d)
  | .assertion gate args =>
    ∃ vs, Term.evalAll I env args = some vs ∧ I.assertion gate vs ∧ rest env
  -- Here the arguments stand before the binder.
  | .bind x gadget args =>
    ∃ holds vs, globals gadget = some (.continued holds) ∧ Term.evalAll I env args = some vs ∧
      holds vs fun d => rest (env.bind x d)
  | .condition gadget args =>
    ∃ holds vs, globals gadget = some (.condition holds) ∧ Term.evalAll I env args = some vs ∧
      holds vs ∧ rest env

/-- Lines, read with a proposition that follows them. -/
def Line.Read (I : Interpretation α) (globals : Globals α) (last : Env α → Prop) :
    List Line → Env α → Prop
  | [] => last
  | line :: lines => fun env => line.Holds I globals (Line.Read I globals last lines) env

theorem Line.read_append (I : Interpretation α) (globals : Globals α) (last : Env α → Prop)
    (xs ys : List Line) :
    Line.Read I globals last (xs ++ ys) = Line.Read I globals (Line.Read I globals last ys) xs := by
  induction xs with
  | nil => rfl
  | cons x xs ih => simp [Line.Read, ih]

/-! ### Definitions -/

namespace Definition

/-- The term of an input is the name of its parameter. -/
theorem term_input_eq_ok {params : List Argument} {used : List Nat} {j : Nat} {t : Term}
    (h : term params used (.input j) = .ok t) : ∃ a, params[j]? = some a ∧ t = .var a.name := by
  simp only [term] at h
  split at h
  · next a ha => exact ⟨a, ha, (Except.ok.inj h).symm⟩
  · contradiction

/-- The term of a projection is an element of the term of its base. -/
theorem term_proj_eq_ok {params : List Argument} {used : List Nat} {base : Operand}
    {index size : Nat} {t : Term} (h : term params used (.proj base index size) = .ok t) :
    ∃ u, term params used base = .ok u ∧ t = .get u index := by
  simp only [term, bind, Except.bind, pure, Except.pure] at h
  split at h
  · contradiction
  · next u hu => exact ⟨u, hu, (Except.ok.inj h).symm⟩

/-- The term of a literal is made of the terms of its elements. -/
theorem term_array_eq_ok {params : List Argument} {used : List Nat} {items : List Operand}
    {t : Term} (h : term params used (.array items) = .ok t) :
    ∃ ts, terms params used items = .ok ts ∧ t = .vec ts := by
  simp only [term, bind, Except.bind, pure, Except.pure] at h
  split at h
  · contradiction
  · next ts hts => exact ⟨ts, hts, (Except.ok.inj h).symm⟩

theorem terms_cons_eq_ok {params : List Argument} {used : List Nat} {x : Operand}
    {xs : List Operand} {ts : List Term} (h : terms params used (x :: xs) = .ok ts) :
    ∃ t rest, term params used x = .ok t ∧ terms params used xs = .ok rest ∧ ts = t :: rest := by
  simp only [terms, bind, Except.bind, pure, Except.pure] at h
  split at h
  · contradiction
  · next t ht =>
    split at h
    · contradiction
    · next rest hrest => exact ⟨t, rest, ht, hrest, (Except.ok.inj h).symm⟩

theorem length_terms {params : List Argument} {used : List Nat} {xs : List Operand}
    {ts : List Term} (h : terms params used xs = .ok ts) : ts.length = xs.length := by
  induction xs generalizing ts with
  | nil =>
    obtain rfl : [] = ts := by simpa [terms] using h
    rfl
  | cons x xs ih =>
    obtain ⟨t, rest, -, hrest, rfl⟩ := terms_cons_eq_ok h
    simp [ih hrest]

/-- The lines of a trace are those of its first node and those of the rest. -/
theorem codeLines_cons_eq_ok {params : List Argument} {used : List Nat} {i : Nat} {n : Node}
    {code : Trace} {lines : List Line} (h : codeLines params used i (n :: code) = .ok lines) :
    ∃ ts rest, terms params used (Operand.collapseAll n.args) = .ok ts ∧
      codeLines params used (i + 1) code = .ok rest ∧
        lines = opLines n.op (gateName? used i) ts ++ rest := by
  simp only [codeLines, bind, Except.bind, pure, Except.pure] at h
  split at h
  · contradiction
  · next ts hts =>
    split at h
    · contradiction
    · next rest hrest => exact ⟨ts, rest, hts, hrest, (Except.ok.inj h).symm⟩

def continuationName : String := "k"

/-- The names in scope on the first line of a definition. The continuation is the last parameter,
    and no datum. -/
def scope (d : Definition) (inputs : List (Datum α)) : Env α :=
  let env := Env.empty.ofParams d.params inputs
  match d.continuation with
  | some _ => env.hide continuationName
  | none => env

/-- What a definition stands for. Its arguments are of the declared shapes. A definition that names
    a result but takes no continuation to hand it to says nothing that holds. -/
def meaning (I : Interpretation α) (globals : Globals α) (d : Definition) : Meaning α :=
  match d.continuation, d.result with
  | none, none =>
    .condition fun inputs => Datum.HaveShapes d.params inputs ∧
      Line.Read I globals (fun _ => True) d.lines (d.scope inputs)
  | none, some _ => .condition fun _ => False
  | some _, none =>
    .continued fun inputs _ => Datum.HaveShapes d.params inputs ∧
      Line.Read I globals (fun _ => True) d.lines (d.scope inputs)
  | some _, some t =>
    .continued fun inputs k => Datum.HaveShapes d.params inputs ∧
      Line.Read I globals (fun env => ∃ v, t.eval I env = some v ∧ k v) d.lines (d.scope inputs)

/-- What the names of definitions stand for that are given one after the other. -/
def globals (I : Interpretation α) (ds : List Definition) : Globals α :=
  ds.foldl (fun globals d => globals.give d.name (d.meaning I globals)) fun _ => none

theorem globals_append (I : Interpretation α) (ds : List Definition) (d : Definition) :
    globals I (ds ++ [d]) = (globals I ds).give d.name (d.meaning I (globals I ds)) := by
  simp [globals, List.foldl_append]

end Definition

end GateTrace
