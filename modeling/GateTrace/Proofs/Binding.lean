import GateTrace.Proofs.Rendering

/-! # Binders of a definition

    Which binder a name in a definition resolves to. The key ideas:

    - Names are looked up from the inside out: on the lines before, from the last one, then among
      the continuation and the parameters, from the last one.
    - Every line is written for some operands of one node, so each name in it is written for one of
      their references, whatever name that is given.
    - A name that a line has bound is looked up no further, and so hides a parameter of that name.
      Exactly these inputs are lost.
-/

namespace GateTrace

open Operand (Ref refs refsAll)

/-! ### Scopes -/

/-- What introduces a name in a definition. -/
inductive Binder where
  | param (j : Nat)
  | continuation
  /-- The binder on line `l`. -/
  | line (l : Nat)
deriving DecidableEq, Inhabited, Repr

/-- The names in scope somewhere in a definition, innermost first. -/
abbrev Scope : Type := List (String × Binder)

namespace Scope

def resolve (s : Scope) (x : String) : Option Binder := s.lookup x

/-- The scope of a binder, which introduces a name or none. -/
def enter (s : Scope) (x? : Option String) (b : Binder) : Scope :=
  match x? with
  | some x => (x, b) :: s
  | none => s

/-- The scope of binders, the last of which is the innermost. -/
def enterAll (s : Scope) : List (Option String × Binder) → Scope
  | [] => s
  | (x?, b) :: bs => (s.enter x? b).enterAll bs

theorem resolve_enter (s : Scope) (x? : Option String) (b : Binder) (x : String) :
    (s.enter x? b).resolve x = if x? = some x then some b else s.resolve x := by
  cases x? with
  | none => rfl
  | some y =>
    by_cases h : x = y
    · simp [enter, resolve, h]
    · have hne : (x == y) = false := by simpa using h
      simp [enter, resolve, List.lookup_cons, hne, Ne.symm h]

theorem resolve_enterAll_of_ne {s : Scope} {bs : List (Option String × Binder)} {x : String}
    (h : ∀ e ∈ bs, e.1 ≠ some x) : (s.enterAll bs).resolve x = s.resolve x := by
  induction bs generalizing s with
  | nil => rfl
  | cons e bs ih =>
    unfold enterAll
    rw [ih fun e' he' => h e' (by simp [he']), resolve_enter, if_neg (h e (by simp))]

/-- A name resolves to the last binder that introduces it. -/
theorem exists_resolve_enterAll {s : Scope} {bs : List (Option String × Binder)} {x : String}
    (h : ∃ e ∈ bs, e.1 = some x) :
    ∃ (i : Nat) (b : Binder), bs[i]? = some (some x, b) ∧ (s.enterAll bs).resolve x = some b ∧
      ∀ k, i < k → ∀ y? b', bs[k]? = some (y?, b') → y? ≠ some x := by
  induction bs generalizing s with
  | nil => simp at h
  | cons e bs ih =>
    unfold enterAll
    -- The last binder of the name is among the later ones, or it is the first.
    by_cases hlater : ∃ e ∈ bs, e.1 = some x
    · obtain ⟨i, b, hi, hresolve, hlast⟩ := @ih (s.enter e.1 e.2) hlater
      refine ⟨i + 1, b, by simpa using hi, hresolve, ?_⟩
      intro k hk y? b' he'
      obtain ⟨k, rfl⟩ : ∃ j, k = j + 1 := ⟨k - 1, by omega⟩
      exact hlast k (by omega) y? b' (by simpa using he')
    · have hothers : ∀ e ∈ bs, e.1 ≠ some x := fun e' he' heq => hlater ⟨e', he', heq⟩
      have hx : e.1 = some x := by
        obtain ⟨e', he', heq⟩ := h
        rcases List.mem_cons.mp he' with rfl | he'
        · exact heq
        · exact absurd heq (hothers e' he')
      refine ⟨0, e.2, by rw [← hx]; rfl, ?_, ?_⟩
      · rw [resolve_enterAll_of_ne hothers, resolve_enter, if_pos hx]
      · intro k hk y? b' he'
        obtain ⟨k, rfl⟩ : ∃ j, k = j + 1 := ⟨k - 1, by omega⟩
        exact hothers (y?, b') (List.mem_of_getElem? (by simpa using he'))

end Scope

/-! ### Scopes in definitions -/

namespace Line

/-- The name that a line introduces on the lines after it. -/
def binder? : Line → Option String
  | equation x _ _ | relation x _ _ | bind x _ _ => some x
  | assertion _ _ | condition _ _ => none

/-- The name that a line introduces on itself: an `∃x` covers the rest of its own line, while the
    arguments of a call stand before `fun x`. -/
def ownBinder? : Line → Option String
  | equation x _ _ | relation x _ _ => some x
  | bind _ _ _ | assertion _ _ | condition _ _ => none

def args : Line → List Term
  | equation _ _ args | relation _ _ args | assertion _ args | bind _ _ args | condition _ args =>
    args

end Line

namespace Definition

/-- The scope of the first line: the parameters, and the continuation behind them. -/
def topScope (d : Definition) : Scope :=
  (Scope.enterAll [] (d.params.mapIdx fun j a => (some a.name, .param j))).enter
    (d.continuation.map fun _ => continuationName) .continuation

/-- The scope behind the first `l` lines. -/
def scopeBehind (d : Definition) (l : Nat) : Scope :=
  d.topScope.enterAll ((d.lines.take l).mapIdx fun i line => (line.binder?, .line i))

/-- The scope of the arguments on line `l`, and past the last line that of the result. -/
def scopeAt (d : Definition) (l : Nat) : Scope :=
  (d.scopeBehind l).enter (d.lines[l]?.bind Line.ownBinder?) (.line l)

/-- Whether a name is bound around the arguments on line `l`, by a line before it or by itself. -/
def BoundAt (d : Definition) (l : Nat) (x : String) : Prop :=
  (∃ i line, i < l ∧ d.lines[i]? = some line ∧ line.binder? = some x) ∨
    d.lines[l]?.bind Line.ownBinder? = some x

theorem binder?_of_ownBinder? {line : Line} {x : String} (h : line.ownBinder? = some x) :
    line.binder? = some x := by
  cases line <;> first | exact h | cases h

/-- A name that no line around binds resolves as on the first line. -/
theorem resolve_scopeAt_of_not_boundAt {d : Definition} {l : Nat} {x : String}
    (h : ¬ d.BoundAt l x) : (d.scopeAt l).resolve x = d.topScope.resolve x := by
  obtain ⟨hbehind, hown⟩ := not_or.mp h
  unfold scopeAt scopeBehind
  rw [Scope.resolve_enter, if_neg hown, Scope.resolve_enterAll_of_ne]
  intro e he heq
  obtain ⟨i, hi, rfl⟩ := List.mem_mapIdx.mp he
  rw [List.length_take] at hi
  apply hbehind
  refine ⟨i, d.lines[i], by omega, List.getElem?_eq_getElem (by omega), ?_⟩
  rwa [List.getElem_take] at heq

theorem exists_resolve_of_boundAt {d : Definition} {l : Nat} {x : String} (h : d.BoundAt l x) :
    ∃ i line, d.lines[i]? = some line ∧ line.binder? = some x ∧
      (d.scopeAt l).resolve x = some (.line i) := by
  unfold scopeAt scopeBehind
  rw [Scope.resolve_enter]
  -- The line's own binder is innermost, and after it the last line before that binds the name.
  by_cases hown : d.lines[l]?.bind Line.ownBinder? = some x
  · obtain ⟨line, hline, hx⟩ := Option.bind_eq_some_iff.mp hown
    exact ⟨l, line, hline, binder?_of_ownBinder? hx, if_pos hown⟩
  · rw [if_neg hown]
    obtain ⟨i, line, hi, hline, hx⟩ := h.resolve_right hown
    have hentry : ((d.lines.take l).mapIdx fun i line => (line.binder?, Binder.line i))[i]? =
        some (some x, .line i) := by
      rw [List.getElem?_mapIdx, List.getElem?_take_of_lt hi, hline, ← hx]
      rfl
    obtain ⟨k, b, hk, hresolve, -⟩ := Scope.exists_resolve_enterAll (s := d.topScope)
      ⟨_, List.mem_of_getElem? hentry, rfl⟩
    obtain ⟨line', hline', heq⟩ := Option.map_eq_some_iff.mp (List.getElem?_mapIdx ▸ hk)
    obtain ⟨hx', rfl⟩ := Prod.mk.injEq .. ▸ heq
    have hlines := getElem?_grow hline' (d.lines.drop l)
    rw [List.take_append_drop] at hlines
    exact ⟨k, line', hlines, hx', hresolve⟩

/-- The name of a parameter resolves to it at first, unless a later parameter or the continuation
    takes the name. -/
theorem resolve_topScope_iff {d : Definition} {j : Nat} {a : Argument}
    (ha : d.params[j]? = some a) :
    d.topScope.resolve a.name = some (.param j) ↔
      (∀ i, j < i → ∀ b ∈ d.params[i]?, b.name ≠ a.name) ∧
        (d.continuation.isSome → a.name ≠ continuationName) := by
  have hentry : (d.params.mapIdx fun i b => (some b.name, Binder.param i))[j]? =
      some (some a.name, .param j) := by
    rw [List.getElem?_mapIdx, ha]
    rfl
  -- The last parameter of the name is one like `a` itself.
  obtain ⟨i, b, hi, hresolve, hlast⟩ := Scope.exists_resolve_enterAll (s := [])
    ⟨_, List.mem_of_getElem? hentry, rfl⟩
  obtain ⟨c, hc, heq⟩ := Option.map_eq_some_iff.mp (List.getElem?_mapIdx ▸ hi)
  obtain ⟨hname, rfl⟩ := Prod.mk.injEq .. ▸ heq
  have hlater : ∀ k, i < k → ∀ e ∈ d.params[k]?, e.name ≠ a.name := by
    intro k hk e he hsame
    refine hlast k hk (some e.name) (.param k) ?_ (by rw [hsame])
    rw [List.getElem?_mapIdx, Option.mem_def.mp he]
    rfl
  have hhidden : (d.continuation.map fun _ => continuationName) = some a.name ↔
      ¬ (d.continuation.isSome → a.name ≠ continuationName) := by
    cases d.continuation <;> simp [eq_comm]
  unfold topScope
  rw [Scope.resolve_enter, hresolve]
  by_cases hk : d.continuation.isSome → a.name ≠ continuationName
  · rw [if_neg fun h => hhidden.mp h hk]
    simp only [Option.some.injEq, Binder.param.injEq, and_iff_left hk]
    constructor
    · rintro rfl
      exact hlater
    · intro hfirst
      have hij : ¬ j < i := fun h => hfirst i h c hc (Option.some.inj hname)
      have hji : ¬ i < j := fun h => hlater j h a ha rfl
      omega
  · rw [if_pos (hhidden.mpr hk)]
    simp [hk]

/-! ### What lines are written for -/

/-- What a line of a definition is written for. -/
structure Source where
  /-- The position of the node. -/
  position : Nat
  node : Node
  /-- Whether the line goes on with a chain, and so takes the result so far as its first argument. -/
  continues : Bool
  /-- The operands that the other arguments are written for. -/
  operands : List Operand

/-- The terms on a line that are written for operands. -/
def Source.terms (s : Source) (line : Line) : List Term :=
  if s.continues then line.args.tail else line.args

/-- What the lines of the node at position `p` are written for. -/
def nodeSources (p : Nat) (n : Node) : List Source :=
  match n.op, Operand.collapseAll n.args with
  | .gate kind, a :: b :: c :: rest =>
    if kind.isVariadic then
      ⟨p, n, false, [a, b]⟩ :: (c :: rest).map fun x => ⟨p, n, true, [x]⟩
    else [⟨p, n, false, a :: b :: c :: rest⟩]
  | _, ops => [⟨p, n, false, ops⟩]

/-- What the lines of the nodes from position `i` on are written for. -/
def sources : Nat → Trace → List Source
  | _, [] => []
  | i, n :: code => nodeSources i n ++ sources (i + 1) code

/-- Whether a line is what is written for a source. -/
structure Source.Gives (params : List Argument) (used : List Nat) (s : Source) (line : Line) :
    Prop where
  binder : line.binder? = binder? used s.position s.node
  /-- The binder of a primitive operation covers its own arguments, that of a call does not. -/
  own : line.ownBinder? =
    match s.node.op with
    | .gate _ => line.binder?
    | .call _ => none
  terms : Definition.terms params used s.operands = .ok (s.terms line)
  /-- The result so far goes by the name that the line itself binds. -/
  chain : s.continues = true → ∃ x, line.binder? = some x ∧ line.args = .var x :: s.terms line

section Sources

variable {params : List Argument} {used : List Nat}

theorem terms_eq_ok_iff {xs : List Operand} {ts : List Term} :
    terms params used xs = .ok ts ↔
      List.Forall₂ (fun x t => term params used x = .ok t) xs ts := by
  rw [terms_eq_mapM, mapM_eq_ok_iff]

/-- The first line of a node takes its operands as they are. -/
theorem gives_first {p : Nat} {n : Node} {ops : List Operand} {line : Line}
    (hbinder : line.binder? = binder? used p n)
    (hown : line.ownBinder? = match n.op with | .gate _ => line.binder? | .call _ => none)
    (hts : terms params used ops = .ok line.args) :
    Source.Gives params used ⟨p, n, false, ops⟩ line :=
  ⟨hbinder, hown, hts, by simp⟩

theorem isVariadic_functional {kind : GateKind} (h : kind.isVariadic = true) :
    kind.style = .functional := by
  cases kind <;> first | rfl | cases h

/-- A chain has a line for the first two operands, and one for each operand after them. -/
theorem gives_chain {p : Nat} {n : Node} {kind : GateKind} (hop : n.op = .gate kind)
    (hstyle : kind.style = .functional) {a b : Operand} {ta tb : Term}
    (hab : terms params used [a, b] = .ok [ta, tb]) {rest : List Operand} {ts : List Term}
    (hrest : terms params used rest = .ok ts) :
    let x := (gateName? used p).getD ignored
    List.Forall₂ (Source.Gives params used)
      (⟨p, n, false, [a, b]⟩ :: rest.map fun op => ⟨p, n, true, [op]⟩)
      (.equation x kind [ta, tb] :: ts.map fun t => .equation x kind [.var x, t]) := by
  intro x
  have hbinder : some x = binder? used p n := by
    unfold binder?
    simp [hop, hstyle, x]
  refine .cons (gives_first hbinder (by rw [hop]; rfl) hab) ?_
  -- The lines of the other operands go on with the result so far.
  rw [List.forall₂_map_left_iff, List.forall₂_map_right_iff]
  refine (terms_eq_ok_iff.mp hrest).imp ?_
  intro op t ht
  refine ⟨hbinder, by rw [hop]; rfl, ?_, fun _ => ⟨x, rfl, rfl⟩⟩
  exact terms_eq_ok_iff.mpr (.cons ht .nil)

/-- A call has one line. -/
theorem gives_call {p : Nat} {callee : Callee} {args ops : List Operand} {ts : List Term}
    (hts : terms params used ops = .ok ts) :
    List.Forall₂ (Source.Gives params used) [⟨p, ⟨.call callee, args⟩, false, ops⟩]
      (opLines (.call callee) (gateName? used p) ts) := by
  simp only [opLines]
  split
  · next hout =>
    refine .cons (gives_first ?_ rfl hts) .nil
    simp [binder?, Line.binder?, hout]
  · next hout =>
    refine .cons (gives_first ?_ rfl hts) .nil
    simp [binder?, Line.binder?, hout]

/-- A primitive operation on at most two operands has one line, and so has every other one that is
    no chain. -/
theorem gives_gate {p : Nat} {kind : GateKind} {args ops : List Operand} {ts : List Term}
    (hts : terms params used ops = .ok ts) (hchain : kind.isVariadic = true → ts.length < 3) :
    List.Forall₂ (Source.Gives params used) [⟨p, ⟨.gate kind, args⟩, false, ops⟩]
      (opLines (.gate kind) (gateName? used p) ts) := by
  simp only [opLines, gateLines]
  split
  · next hstyle =>
    split
    -- Three operands or more would be a chain, which has more lines than one.
    · next hvariadic =>
      have hlen := hchain hvariadic
      simp at hlen
      omega
    · refine .cons (gives_first ?_ rfl hts) .nil
      simp [binder?, Line.binder?, hstyle]
  · next hstyle =>
    refine .cons (gives_first ?_ rfl hts) .nil
    simp [binder?, Line.binder?, hstyle]
  · next hstyle =>
    refine .cons (gives_first ?_ rfl hts) .nil
    simp [binder?, Line.binder?, hstyle]

/-- The lines of a node are what is written for its sources. -/
theorem gives_opLines {p : Nat} {n : Node} {ts : List Term}
    (hts : terms params used (Operand.collapseAll n.args) = .ok ts) :
    List.Forall₂ (Source.Gives params used) (nodeSources p n)
      (opLines n.op (gateName? used p) ts) := by
  have hlen := length_terms hts
  obtain ⟨op, args⟩ := n
  unfold nodeSources
  split
  · next kind a b c rest hop hops =>
    obtain rfl : op = .gate kind := hop
    simp only at hops
    rw [hops] at hts
    obtain ⟨ta, _, ha, hbc, rfl⟩ := terms_cons_eq_ok hts
    obtain ⟨tb, _, hb, hc, rfl⟩ := terms_cons_eq_ok hbc
    obtain ⟨tc, _, -, -, rfl⟩ := terms_cons_eq_ok hc
    -- Three operands or more make a chain of a variadic operation, and one line of any other.
    by_cases hvariadic : kind.isVariadic = true
    · have hstyle := isVariadic_functional hvariadic
      rw [if_pos hvariadic]
      have hab : terms params used [a, b] = .ok [ta, tb] :=
        terms_eq_ok_iff.mpr (.cons ha (.cons hb .nil))
      have hlines := gives_chain (p := p) (n := ⟨.gate kind, args⟩) rfl hstyle hab hc
      simpa [opLines, gateLines, hstyle, hvariadic] using hlines
    · rw [if_neg hvariadic]
      exact gives_gate hts fun h => absurd h hvariadic
  · next hshort =>
    cases op with
    | call callee => exact gives_call hts
    | gate kind =>
      refine gives_gate hts fun _ => ?_
      rw [hlen]
      rcases hops : Operand.collapseAll args with _ | ⟨a, _ | ⟨b, _ | ⟨c, rest⟩⟩⟩
      · simp
      · simp
      · simp
      · exact absurd hops (hshort kind a b c rest rfl)

/-- The lines of a trace are what is written for its sources, one by one. -/
theorem gives_codeLines {i : Nat} {code : Trace} {lines : List Line}
    (h : codeLines params used i code = .ok lines) :
    List.Forall₂ (Source.Gives params used) (sources i code) lines := by
  induction code generalizing i lines with
  | nil =>
    obtain rfl : [] = lines := Except.ok.inj h
    exact .nil
  | cons n code ih =>
    obtain ⟨ts, rest, hts, hrest, rfl⟩ := codeLines_cons_eq_ok h
    exact List.rel_append (gives_opLines hts) (ih hrest)

/-- A source is of its node, and only primitive operations have chains. -/
theorem of_mem_nodeSources {p : Nat} {n : Node} {s : Source} (h : s ∈ nodeSources p n) :
    s.position = p ∧ s.node = n ∧ (s.continues = true → ∃ kind, n.op = .gate kind) := by
  unfold nodeSources at h
  split at h
  · next kind a b c rest hop hops =>
    split at h
    -- All lines of a chain but the first go on with it, and only a gate has a chain.
    · rcases List.mem_cons.mp h with rfl | h
      · exact ⟨rfl, rfl, by simp⟩
      · obtain ⟨x, -, rfl⟩ := List.mem_map.mp h
        exact ⟨rfl, rfl, fun _ => ⟨kind, hop⟩⟩
    · obtain rfl := List.mem_singleton.mp h
      exact ⟨rfl, rfl, by simp⟩
  · obtain rfl := List.mem_singleton.mp h
    exact ⟨rfl, rfl, by simp⟩

/-- Each reference of a node is on one of its lines, and there are no others. -/
theorem mem_nodeSources_refs {p : Nat} {n : Node} {r : Ref} :
    (∃ s ∈ nodeSources p n, r ∈ refsAll s.operands) ↔ r ∈ refsAll n.args := by
  rw [← Operand.mem_refsAll_collapseAll]
  unfold nodeSources
  split
  · next kind a b c rest hop hops =>
    rw [hops]
    split
    · simp [refsAll, Operand.mem_refsAll_iff, or_assoc]
    · simp
  · simp

theorem nodeSources_ne_nil {p : Nat} {n : Node} : nodeSources p n ≠ [] := by
  unfold nodeSources
  split
  · split <;> simp
  · simp

/-- Lines of a node behind its first line go on with a chain. -/
theorem nodeSources_pairwise {p : Nat} {n : Node} :
    (nodeSources p n).Pairwise fun _ t => t.continues = true := by
  unfold nodeSources
  split
  · split
    · refine .cons (by simp) ?_
      rw [List.pairwise_map]
      exact List.pairwise_of_forall fun _ _ => rfl
    · simp
  · simp

/-- What holds at some position of a list holds at the first, or at one of those after it. -/
theorem exists_getElem?_cons_iff {α : Type} {x : α} {xs : List α} {P : Nat → α → Prop} :
    (∃ p y, (x :: xs)[p]? = some y ∧ P p y) ↔
      P 0 x ∨ ∃ p y, xs[p]? = some y ∧ P (p + 1) y := by
  constructor
  · rintro ⟨p, y, hy, h⟩
    cases p with
    | zero =>
      obtain rfl : x = y := by simpa using hy
      exact .inl h
    | succ p => exact .inr ⟨p, y, by simpa using hy, h⟩
  · rintro (h | ⟨p, y, hy, h⟩)
    · exact ⟨0, x, rfl, h⟩
    · exact ⟨p + 1, y, by simpa using hy, h⟩

theorem mem_sources_iff {i : Nat} {code : Trace} {s : Source} :
    s ∈ sources i code ↔ ∃ p n, code[p]? = some n ∧ s ∈ nodeSources (i + p) n := by
  induction code generalizing i with
  | nil => simp [sources]
  | cons m code ih =>
    rw [sources, List.mem_append, ih, exists_getElem?_cons_iff]
    simp only [Nat.add_zero, Nat.add_assoc, Nat.add_comm 1]

/-- Lines stand in the order of their nodes. -/
theorem sources_pairwise {i : Nat} {code : Trace} :
    (sources i code).Pairwise fun s t =>
      s.position < t.position ∨ s.position = t.position ∧ t.continues = true := by
  induction code generalizing i with
  | nil => exact .nil
  | cons n code ih =>
    unfold sources
    refine List.pairwise_append.mpr ⟨?_, ih, ?_⟩
    -- Two lines of one node are of its chain, and two of different nodes stand in their order.
    · refine nodeSources_pairwise.imp_of_mem ?_
      intro s t hs ht hcontinues
      rw [(of_mem_nodeSources hs).1, (of_mem_nodeSources ht).1]
      exact .inr ⟨rfl, hcontinues⟩
    · intro s hs t ht
      obtain ⟨p, m, -, ht⟩ := mem_sources_iff.mp ht
      rw [(of_mem_nodeSources hs).1, (of_mem_nodeSources ht).1]
      omega

theorem mem_binders_iff {i : Nat} {code : Trace} {x : String} :
    x ∈ binders used i code ↔ ∃ p n, code[p]? = some n ∧ binder? used (i + p) n = some x := by
  induction code generalizing i with
  | nil => simp [binders]
  | cons m code ih =>
    rw [binders, List.mem_append, Option.mem_toList, ih, exists_getElem?_cons_iff]
    simp only [Nat.add_zero, Nat.add_assoc, Nat.add_comm 1]

/-- Only the lines of earlier nodes, and of the chain that a line goes on with, stand before it. -/
theorem getElem?_sources_lt {code : Trace} {l l' : Nat} {s s' : Source}
    (hs : (sources 0 code)[l]? = some s) (hs' : (sources 0 code)[l']? = some s') (hlt : l' < l) :
    s'.position < s.position ∨ s'.position = s.position ∧ s.continues = true := by
  obtain ⟨hl, rfl⟩ := List.getElem?_eq_some_iff.mp hs
  obtain ⟨hl', rfl⟩ := List.getElem?_eq_some_iff.mp hs'
  exact List.pairwise_iff_getElem.mp sources_pairwise l' l hl' hl hlt

theorem of_getElem?_sources {code : Trace} {l : Nat} {s : Source}
    (hs : (sources 0 code)[l]? = some s) :
    code[s.position]? = some s.node ∧ (s.continues = true → ∃ kind, s.node.op = .gate kind) := by
  obtain ⟨p, n, hn, hmem⟩ := mem_sources_iff.mp (List.mem_of_getElem? hs)
  obtain ⟨hposition, hnode, hcontinues⟩ := of_mem_nodeSources hmem
  rw [hposition, hnode, Nat.zero_add]
  exact ⟨hn, hcontinues⟩

theorem exists_getElem?_sources {code : Trace} {p : Nat} {n : Node} (hn : code[p]? = some n)
    {s : Source} (hs : s ∈ nodeSources p n) : ∃ l : Nat, (sources 0 code)[l]? = some s := by
  refine List.mem_iff_getElem?.mp (mem_sources_iff.mpr ⟨p, n, hn, ?_⟩)
  rwa [Nat.zero_add]

theorem exists_source_of_node {code : Trace} {p : Nat} {n : Node} (hn : code[p]? = some n) :
    ∃ (l : Nat) (s : Source), (sources 0 code)[l]? = some s ∧ s.position = p ∧ s.node = n := by
  obtain ⟨s, hs⟩ := List.exists_mem_of_ne_nil _ (nodeSources_ne_nil (p := p) (n := n))
  obtain ⟨hposition, hnode, -⟩ := of_mem_nodeSources hs
  obtain ⟨l, hl⟩ := exists_getElem?_sources hn hs
  exact ⟨l, s, hl, hposition, hnode⟩

/-! ### Names bound around a line -/

variable {code : Trace} {d : Definition}

theorem Source.exists_line (h : List.Forall₂ (Source.Gives params used) (sources 0 code) d.lines)
    {l : Nat} {s : Source} (hs : (sources 0 code)[l]? = some s) :
    ∃ line, d.lines[l]? = some line ∧ s.Gives params used line := by
  obtain ⟨hlen, hget⟩ := List.forall₂_iff_get.mp h
  obtain ⟨hl, rfl⟩ := List.getElem?_eq_some_iff.mp hs
  have hl' : l < d.lines.length := by omega
  exact ⟨d.lines[l], List.getElem?_eq_getElem hl', hget l hl hl'⟩

theorem exists_source_of_line
    (h : List.Forall₂ (Source.Gives params used) (sources 0 code) d.lines) {l : Nat} {line : Line}
    (hline : d.lines[l]? = some line) :
    ∃ s : Source, (sources 0 code)[l]? = some s ∧ s.Gives params used line := by
  obtain ⟨hlen, hget⟩ := List.forall₂_iff_get.mp h
  obtain ⟨hl, rfl⟩ := List.getElem?_eq_some_iff.mp hline
  have hl' : l < (sources 0 code).length := by omega
  exact ⟨(sources 0 code)[l], List.getElem?_eq_getElem hl', hget l hl' hl⟩

theorem mem_boundAround_iff {p : Nat} {n : Node} {x : String} :
    x ∈ boundAround used code p n ↔
      (∃ q m, q < p ∧ code[q]? = some m ∧ binder? used q m = some x) ∨
        (∃ kind, n.op = .gate kind) ∧ binder? used p n = some x := by
  -- What is bound before node `p` comes from the nodes before it, whose positions do not change.
  have hbefore : x ∈ binders used 0 (code.take p) ↔
      ∃ q m, q < p ∧ code[q]? = some m ∧ binder? used q m = some x := by
    rw [mem_binders_iff]
    constructor
    · rintro ⟨q, m, hm, hx⟩
      rw [List.getElem?_take] at hm
      split at hm
      · next hq => exact ⟨q, m, hq, hm, by rwa [Nat.zero_add] at hx⟩
      · contradiction
    · rintro ⟨q, m, hq, hm, hx⟩
      exact ⟨q, m, by rwa [List.getElem?_take_of_lt hq], by rwa [Nat.zero_add]⟩
  unfold boundAround
  split
  · next kind hop => simp [hbefore, hop]
  · next callee hop => simp [hbefore, hop]

/-- The names bound around a line are those that its node's arguments are read in. -/
theorem boundAt_iff (h : List.Forall₂ (Source.Gives params used) (sources 0 code) d.lines)
    {l : Nat} {s : Source} (hs : (sources 0 code)[l]? = some s) {x : String} :
    d.BoundAt l x ↔ x ∈ boundAround used code s.position s.node := by
  obtain ⟨hnode, hcontinues⟩ := of_getElem?_sources hs
  obtain ⟨line, hline, hgives⟩ := Source.exists_line h hs
  rw [mem_boundAround_iff]
  constructor
  · rintro (⟨l', line', hlt, hline', hx⟩ | hown)
    · obtain ⟨s', hs', hgives'⟩ := exists_source_of_line h hline'
      obtain ⟨hnode', -⟩ := of_getElem?_sources hs'
      rw [hgives'.binder] at hx
      rcases getElem?_sources_lt hs hs' hlt with hbefore | ⟨hsame, hchain⟩
      · exact .inl ⟨s'.position, s'.node, hbefore, hnode', hx⟩
      · -- An earlier line of the same chain binds the name of the chain.
        have heq : s'.node = s.node := by
          rw [hsame, hnode] at hnode'
          exact (Option.some.inj hnode').symm
        rw [hsame, heq] at hx
        exact .inr ⟨hcontinues hchain, hx⟩
    · rw [hline] at hown
      have hown : line.ownBinder? = some x := hown
      have hbinder := binder?_of_ownBinder? hown
      rw [hgives.own] at hown
      split at hown
      · next kind hop => exact .inr ⟨⟨kind, hop⟩, by rwa [← hgives.binder]⟩
      · contradiction
  · rintro (⟨q, m, hq, hm, hx⟩ | ⟨⟨kind, hop⟩, hx⟩)
    · obtain ⟨l', s', hs', rfl, rfl⟩ := exists_source_of_node hm
      obtain ⟨line', hline', hgives'⟩ := Source.exists_line h hs'
      refine .inl ⟨l', line', ?_, hline', hgives'.binder.trans hx⟩
      -- A line of an earlier node that stood here or later would break the order of the lines.
      by_contra hlt
      rcases Nat.eq_or_lt_of_le (Nat.le_of_not_lt hlt) with rfl | hgt
      · obtain rfl : s = s' := by rwa [hs, Option.some.injEq] at hs'
        omega
      · have horder := getElem?_sources_lt hs' hs hgt
        omega
    · refine .inr ?_
      rw [hline]
      show line.ownBinder? = some x
      rw [hgives.own, hop]
      exact hgives.binder.trans hx

/-- The names bound around the result are those of all lines. -/
theorem boundAt_end_iff (h : List.Forall₂ (Source.Gives params used) (sources 0 code) d.lines)
    {x : String} : d.BoundAt d.lines.length x ↔ x ∈ binders used 0 code := by
  -- Past the last line there is no line of its own, so the name comes from one of the lines.
  have hend : d.lines[d.lines.length]? = none := List.getElem?_eq_none (Nat.le_refl _)
  unfold BoundAt
  rw [hend, mem_binders_iff]
  simp only [Option.bind_none, reduceCtorEq, or_false, Nat.zero_add]
  constructor
  · rintro ⟨l, line, -, hline, hx⟩
    obtain ⟨s, hs, hgives⟩ := exists_source_of_line h hline
    exact ⟨s.position, s.node, (of_getElem?_sources hs).1, by rwa [← hgives.binder]⟩
  · rintro ⟨p, n, hn, hx⟩
    obtain ⟨l, s, hs, rfl, rfl⟩ := exists_source_of_node hn
    obtain ⟨line, hline, hgives⟩ := Source.exists_line h hs
    exact ⟨l, line, (List.getElem?_eq_some_iff.mp hline).1, hline, hgives.binder.trans hx⟩

end Sources

/-! ### Names written for references -/

/-- The name that a reference is written with. -/
def refName? (params : List Argument) (used : List Nat) : Ref → Option String
  | .input j => params[j]?.map Argument.name
  | .gate i => some ((gateName? used i).getD ignored)

mutual

/-- The names in a term are written for the references of its operand, one by one. -/
theorem vars_term {params : List Argument} {used : List Nat} : ∀ {op : Operand} {t : Term},
    term params used op = .ok t → t.vars.map some = op.refs.map (refName? params used)
  | .input j, t, ht => by
    obtain ⟨a, ha, rfl⟩ := term_input_eq_ok ht
    simp [Term.vars, refs, refName?, ha]
  | .gate i, t, ht => by
    obtain rfl := Except.ok.inj ht
    simp [Term.vars, refs, refName?]
  | .const v, t, ht | .nat v, t, ht => by
    obtain rfl := Except.ok.inj ht
    simp [Term.vars, refs]
  | .proj base index size, t, ht => by
    obtain ⟨t', ht', rfl⟩ := term_proj_eq_ok ht
    rw [Term.vars, refs]
    exact vars_term ht'
  | .array items, t, ht => by
    obtain ⟨ts, hts, rfl⟩ := term_array_eq_ok ht
    rw [Term.vars, refs]
    exact varsAll_terms hts

theorem varsAll_terms {params : List Argument} {used : List Nat} :
    ∀ {xs : List Operand} {ts : List Term}, terms params used xs = .ok ts →
      (Term.varsAll ts).map some = (refsAll xs).map (refName? params used)
  | [], ts, hts => by
    obtain rfl := Except.ok.inj hts
    rfl
  | x :: xs, ts, hts => by
    obtain ⟨t, ts', ht, hts', rfl⟩ := terms_cons_eq_ok hts
    rw [Term.varsAll, refsAll, List.map_append, List.map_append, vars_term ht, varsAll_terms hts']

end

/-- Where the definition of a trace is written with the name `x` for the reference `r`: in an
    operand on line `l` or, past the last line, in the result. -/
inductive Occurs (d : Definition) (code : Trace) (output : Option Operand) :
    Nat → Ref → String → Prop
  | line {l k : Nat} {line : Line} {s : Source} {r : Ref} {x : String}
    (hline : d.lines[l]? = some line) (hs : (sources 0 code)[l]? = some s)
    (hr : (refsAll s.operands)[k]? = some r) (hx : (Term.varsAll (s.terms line))[k]? = some x) :
    Occurs d code output l r x
  | result {k : Nat} {op : Operand} {t : Term} {r : Ref} {x : String} (hop : output = some op)
    (ht : d.result = some t) (hr : op.collapse.refs[k]? = some r) (hx : t.vars[k]? = some x) :
    Occurs d code output d.lines.length r x

section Definition

variable {name : String} {params : List Argument} {continuation : Option Shape} {code : Trace}
  {output : Option Operand} {d : Definition}

/-- The lines of a definition are what is written for the sources of its trace. -/
theorem gives_ofTrace (hd : ofTrace name params continuation code output = .ok d) :
    List.Forall₂ (Source.Gives params (references code output)) (sources 0 code) d.lines := by
  obtain ⟨-, -, -, hlines, -⟩ := ofTrace_eq_ok hd
  exact gives_codeLines hlines

theorem gives_of_getElem? (hd : ofTrace name params continuation code output = .ok d) {l : Nat}
    {line : Line} {s : Source} (hline : d.lines[l]? = some line)
    (hs : (sources 0 code)[l]? = some s) : s.Gives params (references code output) line := by
  obtain ⟨line', hline', hgives⟩ := Source.exists_line (gives_ofTrace hd) hs
  obtain rfl := Option.some.inj (hline.symm.trans hline')
  exact hgives

/-- The `k`-th name of the terms of operands is that of their `k`-th reference. -/
theorem refName?_of_getElem? {rs : List Ref} {xs : List String} {used : List Nat}
    (h : xs.map some = rs.map (refName? params used)) {k : Nat} {r : Ref} (hr : rs[k]? = some r) :
    ∃ x, xs[k]? = some x ∧ refName? params used r = some x := by
  have hk : (xs.map some)[k]? = some (refName? params used r) := by
    rw [h, List.getElem?_map, hr]
    rfl
  rw [List.getElem?_map] at hk
  obtain ⟨x, hx, heq⟩ := Option.map_eq_some_iff.mp hk
  exact ⟨x, hx, heq.symm⟩

/-- A name is written as its reference says. -/
theorem Occurs.refName?_eq (hd : ofTrace name params continuation code output = .ok d) {l : Nat}
    {r : Ref} {x : String} (h : d.Occurs code output l r x) :
    refName? params (references code output) r = some x := by
  cases h with
  | line hline hs hr hx =>
    -- Up to the last line the terms are those of the source, and behind it that of the output.
    have hgives := gives_of_getElem? hd hline hs
    obtain ⟨y, hy, hname⟩ := refName?_of_getElem? (varsAll_terms hgives.terms) hr
    rw [hname, ← hx, hy]
  | result hop ht hr hx =>
    obtain ⟨-, -, -, -, hresult⟩ := ofTrace_eq_ok hd
    subst hop
    obtain ⟨t', ht', heq⟩ := hresult
    obtain rfl := Option.some.inj (ht.symm.trans heq)
    obtain ⟨y, hy, hname⟩ := refName?_of_getElem? (vars_term ht') hr
    rw [hname, ← hx, hy]

theorem mem_refs_of_source {l : Nat} {s : Source} (hs : (sources 0 code)[l]? = some s) {r : Ref}
    (hr : r ∈ refsAll s.operands) : r ∈ refsAll s.node.args := by
  obtain ⟨p, n, -, hmem⟩ := mem_sources_iff.mp (List.mem_of_getElem? hs)
  rw [(of_mem_nodeSources hmem).2.1]
  exact mem_nodeSources_refs.mp ⟨s, hmem, hr⟩

/-- What a name is written for is a reference of a node, or of the output. -/
theorem Occurs.reference {l : Nat} {r : Ref} {x : String} (h : d.Occurs code output l r x) :
    (∃ s : Source, (sources 0 code)[l]? = some s ∧ r ∈ refsAll s.node.args) ∨
      (∃ op, output = some op ∧ l = d.lines.length ∧ r ∈ op.refs) := by
  cases h with
  | line hline hs hr hx =>
    exact .inl ⟨_, hs, mem_refs_of_source hs (List.mem_of_getElem? hr)⟩
  | result hop ht hr hx =>
    exact .inr ⟨_, hop, rfl, Operand.mem_refs_collapse.mp (List.mem_of_getElem? hr)⟩

/-- Every reference of a node is written on one of its lines. -/
theorem exists_occurs_of_node (hd : ofTrace name params continuation code output = .ok d) {p : Nat}
    {n : Node} (hn : code[p]? = some n) {r : Ref} (hr : r ∈ refsAll n.args) :
    ∃ (l : Nat) (s : Source) (x : String), (sources 0 code)[l]? = some s ∧ s.position = p ∧
      d.Occurs code output l r x := by
  obtain ⟨s, hs, hr⟩ := mem_nodeSources_refs (p := p).mpr hr
  obtain ⟨hposition, -, -⟩ := of_mem_nodeSources hs
  obtain ⟨l, hl⟩ := exists_getElem?_sources hn hs
  obtain ⟨k, hk⟩ := List.mem_iff_getElem?.mp hr
  obtain ⟨line, hline, hgives⟩ := Source.exists_line (gives_ofTrace hd) hl
  obtain ⟨x, hx, -⟩ := refName?_of_getElem? (varsAll_terms hgives.terms) hk
  exact ⟨l, s, x, hl, hposition, .line hline hl hk hx⟩

/-- Every reference of the output is written in the result. -/
theorem exists_occurs_of_output (hd : ofTrace name params continuation code output = .ok d)
    {op : Operand} (hop : output = some op) {r : Ref} (hr : r ∈ op.refs) :
    ∃ x, d.Occurs code output d.lines.length r x := by
  obtain ⟨-, -, -, -, hresult⟩ := ofTrace_eq_ok hd
  subst hop
  obtain ⟨t, ht, hresult⟩ := hresult
  obtain ⟨k, hk⟩ := List.mem_iff_getElem?.mp (Operand.mem_refs_collapse.mpr hr)
  obtain ⟨x, hx, -⟩ := refName?_of_getElem? (vars_term ht) hk
  exact ⟨x, .result rfl hresult hk hx⟩

/-- Where an input is written, its name resolves to its parameter exactly if the input is visible
    under the names bound there. -/
theorem Occurs.resolve_iff (hd : ofTrace name params continuation code output = .ok d) {l j : Nat}
    {x : String} (h : d.Occurs code output l (.input j) x) {bound : List String}
    (hbound : ∀ y, d.BoundAt l y ↔ y ∈ bound) :
    (d.scopeAt l).resolve x = some (.param j) ↔ Visible params continuation bound j := by
  obtain ⟨-, hparams, hcontinuation, -, -⟩ := ofTrace_eq_ok hd
  obtain ⟨a, ha, rfl⟩ := Option.map_eq_some_iff.mp (h.refName?_eq hd)
  have htop := resolve_topScope_iff (hparams ▸ ha)
  rw [hparams, hcontinuation] at htop
  rw [visible_iff ha, ← hbound, ← htop]
  -- A name that a line around binds resolves to a line; any other resolves as at the top.
  by_cases hline : d.BoundAt l a.name
  · obtain ⟨i, _, -, -, hbinder⟩ := exists_resolve_of_boundAt hline
    simp [hline, hbinder]
  · simp [hline, resolve_scopeAt_of_not_boundAt hline]

/-- Inputs that resolve to their parameters wherever they are written are not captured. -/
theorem uncaptured_of_inputs_resolve
    (hd : ofTrace name params continuation code output = .ok d)
    (h : ∀ l j x, d.Occurs code output l (.input j) x →
      (d.scopeAt l).resolve x = some (.param j)) :
    Uncaptured params continuation code output := by
  have hgives := gives_ofTrace hd
  refine ⟨?_, ?_⟩
  · intro p n hn j hj
    obtain ⟨l, s, x, hs, hposition, hoccurs⟩ :=
      exists_occurs_of_node hd hn (Operand.input_mem_refsAll.mpr hj)
    -- A line tells the position of its node, and the position tells the node.
    have hnode : s.node = n := by
      have hsource := (of_getElem?_sources hs).1
      rw [hposition, hn] at hsource
      exact (Option.some.inj hsource).symm
    rw [← hposition, ← hnode]
    exact (hoccurs.resolve_iff hd fun y => boundAt_iff hgives hs).mp (h l j x hoccurs)
  · intro op hop j hj
    obtain ⟨x, hoccurs⟩ := exists_occurs_of_output hd hop (Operand.input_mem_refs.mpr hj)
    exact (hoccurs.resolve_iff hd fun y => boundAt_end_iff hgives).mp (h _ j x hoccurs)

/-- Inputs that are not captured resolve to their parameters wherever they are written. -/
theorem Uncaptured.resolve_input (h : Uncaptured params continuation code output)
    (hd : ofTrace name params continuation code output = .ok d) {l j : Nat} {x : String}
    (hoccurs : d.Occurs code output l (.input j) x) :
    (d.scopeAt l).resolve x = some (.param j) := by
  have hgives := gives_ofTrace hd
  rcases hoccurs.reference with ⟨s, hs, hj⟩ | ⟨op, hop, rfl, hj⟩
  · apply (hoccurs.resolve_iff hd fun y => boundAt_iff hgives hs).mpr
    exact h.nodes _ _ (of_getElem?_sources hs).1 j (Operand.input_mem_refsAll.mp hj)
  · apply (hoccurs.resolve_iff hd fun y => boundAt_end_iff hgives).mpr
    exact h.output op hop j (Operand.input_mem_refs.mp hj)

/-- The inputs of a trace all resolve to their parameters, wherever they are written, exactly if
    none of them is captured: where it is read, no line around binds its name, no later parameter
    has it, and it is not that of a continuation. That is so for all traces over parameters with
    different names that a definition never makes up itself. -/
theorem inputs_resolve_iff_uncaptured
    (hd : ofTrace name params continuation code output = .ok d) :
    ((∀ l j x, d.Occurs code output l (.input j) x →
        (d.scopeAt l).resolve x = some (.param j)) ↔
      Uncaptured params continuation code output) ∧
      (Ordinary params → ∀ l j x, d.Occurs code output l (.input j) x →
        (d.scopeAt l).resolve x = some (.param j)) := by
  refine ⟨⟨uncaptured_of_inputs_resolve hd, ?_⟩, ?_⟩
  · intro h l j x hoccurs
    exact h.resolve_input hd hoccurs
  · intro h l j x hoccurs
    exact (h.uncaptured continuation code output).resolve_input hd hoccurs

end Definition

/-- A gadget that hands on the product of its signals: each resolves to its parameter. -/
theorem inputs_resolve_iff_uncaptured_product :
    ∃ d, ofTrace "Product" [⟨"x", .scalar⟩, ⟨"y", .scalar⟩] (some .scalar)
        [⟨.gate .mul, [.input 0, .input 1]⟩] (some (.gate 0)) = .ok d ∧
      ∀ l j x, d.Occurs [⟨.gate .mul, [.input 0, .input 1]⟩] (some (.gate 0)) l (.input j) x →
        (d.scopeAt l).resolve x = some (.param j) := by
  have hd : ofTrace "Product" [⟨"x", .scalar⟩, ⟨"y", .scalar⟩] (some .scalar)
      [⟨.gate .mul, [.input 0, .input 1]⟩] (some (.gate 0)) = .ok _ := rfl
  have hnames : ∀ a ∈ [(⟨"x", .scalar⟩ : Argument), ⟨"y", .scalar⟩],
      ¬ "gate_".toList <+: a.name.toList := by decide
  have hordinary : Ordinary [⟨"x", .scalar⟩, ⟨"y", .scalar⟩] :=
    ⟨by decide, fun a ha => ne_resultName (hnames a ha), by decide⟩
  exact ⟨_, hd, (inputs_resolve_iff_uncaptured hd).2 hordinary⟩

/-- A gadget that hands on the product of its signals `x` and `k`: what is written for the second
    signal is the continuation. -/
theorem not_inputs_resolve :
    ∃ m : Machine, Machine.Reachable .bn254 Machine.Honest m ∧
      ∃ g, m.ex.gadgets = [g] ∧ g.args.map Argument.name = ["x", "k"] ∧
        ∃ d, ofGadget g = .ok d ∧ d.Occurs g.code g.output 0 (.input 1) "k" ∧
          (d.scopeAt 0).resolve "k" = some .continuation := by
  let r : Record := ⟨"Scale", [⟨"x", .signal (.wire .nil)⟩, ⟨"k", .signal (.wire .nil)⟩]⟩
  let body : Record → Program := fun _ =>
    .ofOperation (.mul (.operand (.input 0)) (.operand (.input 1)) [])
  have hstart : Machine.Reachable .bn254 Machine.Honest _ :=
    .resume .start ⟨rfl, .inl ⟨_, rfl⟩⟩ (.handleOf r body)
  have henter : Machine.Reachable .bn254 Machine.Honest _ := .step hstart trivial (.enter rfl rfl)
  have hmul : Machine.Reachable .bn254 Machine.Honest _ :=
    .step henter (by decide) (.perform rfl)
  have henroll : Machine.Reachable .bn254 Machine.Honest _ :=
    .step hmul (by decide) (.enroll rfl rfl)
  refine ⟨_, henroll, _, rfl, rfl, _, rfl, ?_, by decide⟩
  exact .line (k := 1) rfl rfl rfl rfl

end Definition

end GateTrace
