import GateTrace.Proofs.OutOfRange
import GateTrace.Proofs.Scoping
import GateTrace.Proofs.Spelling

/-! # Texts of operands

    When two operands are written alike. The key ideas:

    - The names of parameters and results are words, so an operand's text tells its term.
    - A name stands for one parameter or one node, and every other part of a term for a part of the
      operand, so a term tells its operand, up to the sizes of projections. Sizes are not written.
    - Operands are collapsed before they are written, so it is the collapsed operands that a text
      tells apart.
-/

namespace GateTrace

/-! ### Operands without sizes -/

namespace Operand

mutual

/-- An operand without the sizes that its projections carry. -/
def eraseSizes : Operand → Operand
  | .proj base index _ => .proj (eraseSizes base) index 0
  | .array items => .array (eraseSizesAll items)
  | op => op

def eraseSizesAll : List Operand → List Operand
  | [] => []
  | x :: xs => eraseSizes x :: eraseSizesAll xs

end

/-- Whether the inputs of an operand are among the parameters, and its nodes among those that have a
    name. -/
structure Named (params : List Argument) (used : List Nat) (op : Operand) : Prop where
  inputs : ∀ j ∈ op.inputs, j < params.length
  gates : ∀ i ∈ op.gates, i ∈ used

theorem Named.collapse {params : List Argument} {used : List Nat} {op : Operand}
    (h : op.Named params used) : op.collapse.Named params used :=
  ⟨fun j hj => h.inputs j (mem_inputs_collapse.mp hj),
    fun i hi => h.gates i (mem_gates_collapse.mp hi)⟩

theorem Named.head {params : List Argument} {used : List Nat} {x : Operand} {xs : List Operand}
    (h : (array (x :: xs)).Named params used) : x.Named params used :=
  ⟨fun j hj => h.inputs j (List.mem_append_left _ hj),
    fun i hi => h.gates i (List.mem_append_left _ hi)⟩

theorem Named.tail {params : List Argument} {used : List Nat} {x : Operand} {xs : List Operand}
    (h : (array (x :: xs)).Named params used) : (array xs).Named params used :=
  ⟨fun j hj => h.inputs j (List.mem_append_right _ hj),
    fun i hi => h.gates i (List.mem_append_right _ hi)⟩

end Operand

namespace Definition

/-! ### Terms of operands -/

section

variable {params : List Argument} {used : List Nat}

mutual

/-- No size is written. -/
theorem term_eraseSizes : ∀ op : Operand,
    term params used op.eraseSizes = term params used op
  | .proj base _ _ => by
    rw [Operand.eraseSizes, term, term, term_eraseSizes base]
  | .array items => by
    rw [Operand.eraseSizes, term, term, terms_eraseSizesAll items]
  | .input _ | .gate _ | .const _ | .nat _ => rfl

theorem terms_eraseSizesAll : ∀ xs : List Operand,
    terms params used (Operand.eraseSizesAll xs) = terms params used xs
  | [] => rfl
  | x :: xs => by
    rw [Operand.eraseSizesAll, terms, terms, term_eraseSizes x, terms_eraseSizesAll xs]

end

/-- What an operand is that has a given term: a name is that of a parameter or of a node. -/
theorem exists_of_term {op : Operand} {t : Term} (h : term params used op = .ok t) :
    match t with
    | .var x => (∃ j a, op = .input j ∧ params[j]? = some a ∧ x = a.name) ∨
        ∃ i, op = .gate i ∧ x = (gateName? used i).getD ignored
    | .const v => op = .const v
    | .nat v => op = .nat v
    | .get u index => ∃ base size, op = .proj base index size ∧ term params used base = .ok u
    | .vec us => ∃ items, op = .array items ∧ terms params used items = .ok us := by
  cases op with
  | input j =>
    obtain ⟨a, ha, rfl⟩ := term_input_eq_ok h
    exact .inl ⟨j, a, rfl, ha, rfl⟩
  | gate i =>
    obtain rfl := Except.ok.inj h
    exact .inr ⟨i, rfl, rfl⟩
  | const v | nat v =>
    obtain rfl := Except.ok.inj h
    rfl
  | proj base index size =>
    obtain ⟨u, hu, rfl⟩ := term_proj_eq_ok h
    exact ⟨base, size, rfl, hu⟩
  | array items =>
    obtain ⟨us, hus, rfl⟩ := term_array_eq_ok h
    exact ⟨items, rfl, hus⟩

theorem eq_nil_of_terms {xs : List Operand} (h : terms params used xs = .ok []) : xs = [] := by
  cases xs with
  | nil => rfl
  | cons x xs =>
    obtain ⟨t, ts, -, -, hnil⟩ := terms_cons_eq_ok h
    contradiction

theorem exists_of_terms_cons {xs : List Operand} {t : Term} {ts : List Term}
    (h : terms params used xs = .ok (t :: ts)) :
    ∃ x rest, xs = x :: rest ∧ term params used x = .ok t ∧ terms params used rest = .ok ts := by
  cases xs with
  | nil => exact absurd (Except.ok.inj h) (by simp)
  | cons x rest =>
    obtain ⟨u, us, hu, hus, hcons⟩ := terms_cons_eq_ok h
    obtain ⟨rfl, rfl⟩ := List.cons.inj hcons
    exact ⟨x, rest, rfl, hu, hus⟩

end

/-! ### Names -/

/-- Parameters with different names, each of them a word and none of them the name of a result. -/
structure Legible (params : List Argument) : Prop where
  nodup : (params.map Argument.name).Nodup
  word : ∀ a ∈ params, Term.Word a.name
  result : ∀ a ∈ params, ∀ i, a.name ≠ resultName i

theorem word_resultName (i : Nat) : Term.Word (resultName i) := by
  have hchars : (resultName i).toList = ['g', 'a', 't', 'e', '_'] ++ i.repr.toList := by
    simp [resultName]
  refine ⟨by simp [hchars, Term.startsNumber], ?_⟩
  rw [hchars]
  intro c hc
  rcases List.mem_append.mp hc with hc | hc
  · exact (by decide : Term.Plain ['g', 'a', 't', 'e', '_']) c hc
  · exact Term.not_mem_punctuation_of_isDigit (isDigit_of_mem_repr hc)

theorem word_ignored : Term.Word ignored := ⟨by decide, by decide⟩

section

variable {params : List Argument} {used : List Nat}

mutual

/-- The names in a term are those of parameters and nodes, so they are words. -/
theorem legible_term (hparams : Legible params) : ∀ {t : Term} {op : Operand},
    term params used op = .ok t → t.Legible
  | .var x, op, h => by
    rcases exists_of_term h with ⟨j, a, rfl, ha, rfl⟩ | ⟨i, rfl, rfl⟩
    · exact .var (hparams.word a (List.mem_of_getElem? ha))
    · refine .var ?_
      unfold gateName?
      -- A node is written by the name of its result, or by the one for results without a name.
      split
      · exact word_resultName i
      · exact word_ignored
  | .const _, _, _ => .const
  | .nat _, _, _ => .nat
  | .get _ _, _, h => by
    obtain ⟨base, size, rfl, hbase⟩ := exists_of_term h
    exact .get (legible_term hparams hbase)
  | .vec _, _, h => by
    obtain ⟨items, rfl, hitems⟩ := exists_of_term h
    exact .vec (legible_terms hparams hitems)

theorem legible_terms (hparams : Legible params) : ∀ {ts : List Term} {xs : List Operand},
    terms params used xs = .ok ts → ∀ t ∈ ts, t.Legible
  | [], _, _ => by simp
  | _ :: _, _, h => by
    obtain ⟨x, rest, rfl, hx, hrest⟩ := exists_of_terms_cons h
    exact List.forall_mem_cons.mpr ⟨legible_term hparams hx, legible_terms hparams hrest⟩

end

theorem gateName?_of_mem {i : Nat} (hi : i ∈ used) : gateName? used i = some (resultName i) :=
  if_pos hi

/-- A name stands for one operand. -/
theorem Legible.eq_of_var (hparams : Legible params) {x : String} {a b : Operand}
    (ha : a.Named params used) (hb : b.Named params used)
    (hta : term params used a = .ok (.var x)) (htb : term params used b = .ok (.var x)) :
    a = b := by
  rcases exists_of_term hta with ⟨i, p, rfl, hp, hpx⟩ | ⟨i, rfl, hi⟩ <;>
    rcases exists_of_term htb with ⟨j, q, rfl, hq, hqx⟩ | ⟨j, rfl, hj⟩
  · obtain rfl := position_unique hparams.nodup hp hq (hpx.symm.trans hqx)
    rfl
  -- A parameter is not called like the result of a node.
  · rw [gateName?_of_mem (hb.gates j (by simp [Operand.gates]))] at hj
    exact absurd (hpx.symm.trans hj) (hparams.result p (List.mem_of_getElem? hp) j)
  · rw [gateName?_of_mem (ha.gates i (by simp [Operand.gates]))] at hi
    exact absurd (hqx.symm.trans hi) (hparams.result q (List.mem_of_getElem? hq) i)
  · rw [gateName?_of_mem (ha.gates i (by simp [Operand.gates]))] at hi
    rw [gateName?_of_mem (hb.gates j (by simp [Operand.gates]))] at hj
    obtain rfl := resultName_inj (hi.symm.trans hj)
    rfl

mutual

/-- Operands with the same term are the same but for sizes. -/
theorem Legible.eraseSizes_eq (hparams : Legible params) : ∀ {t : Term} {a b : Operand},
    a.Named params used → b.Named params used → term params used a = .ok t →
      term params used b = .ok t → a.eraseSizes = b.eraseSizes
  | .var _, _, _, ha, hb, hta, htb => by rw [hparams.eq_of_var ha hb hta htb]
  | .const v, a, b, _, _, hta, htb => by
    have ha : a = .const v := exists_of_term hta
    have hb : b = .const v := exists_of_term htb
    rw [ha, hb]
  | .nat v, a, b, _, _, hta, htb => by
    have ha : a = .nat v := exists_of_term hta
    have hb : b = .nat v := exists_of_term htb
    rw [ha, hb]
  | .get _ index, _, _, ha, hb, hta, htb => by
    obtain ⟨x, m, rfl, hx⟩ := exists_of_term hta
    obtain ⟨y, n, rfl, hy⟩ := exists_of_term htb
    -- The term of a projection has its index, and leaves out the size.
    have hbase : x.eraseSizes = y.eraseSizes :=
      hparams.eraseSizes_eq ⟨ha.inputs, ha.gates⟩ ⟨hb.inputs, hb.gates⟩ hx hy
    rw [Operand.eraseSizes, Operand.eraseSizes, hbase]
  | .vec _, _, _, ha, hb, hta, htb => by
    obtain ⟨xs, rfl, hxs⟩ := exists_of_term hta
    obtain ⟨ys, rfl, hys⟩ := exists_of_term htb
    rw [Operand.eraseSizes, Operand.eraseSizes, hparams.eraseSizesAll_eq ha hb hxs hys]

theorem Legible.eraseSizesAll_eq (hparams : Legible params) :
    ∀ {ts : List Term} {xs ys : List Operand}, (Operand.array xs).Named params used →
      (Operand.array ys).Named params used → terms params used xs = .ok ts →
        terms params used ys = .ok ts → Operand.eraseSizesAll xs = Operand.eraseSizesAll ys
  | [], _, _, _, _, hxs, hys => by rw [eq_nil_of_terms hxs, eq_nil_of_terms hys]
  | _ :: _, _, _, ha, hb, hxs, hys => by
    obtain ⟨x, xs, rfl, hx, hxs⟩ := exists_of_terms_cons hxs
    obtain ⟨y, ys, rfl, hy, hys⟩ := exists_of_terms_cons hys
    rw [Operand.eraseSizesAll, Operand.eraseSizesAll, hparams.eraseSizes_eq ha.head hb.head hx hy,
      hparams.eraseSizesAll_eq ha.tail hb.tail hxs hys]

end

end

/-! ### Texts of operands -/

/-- An operand as it stands among the arguments of a line: collapsed, and then written out. -/
def operandText (params : List Argument) (used : List Nat) (op : Operand) : Except Panic String :=
  (term params used op.collapse).map Term.text

/-- Where parameters have different names, each a word and none the name of a result, operands that
    refer to parameters and to named nodes only are written alike exactly if they are the same once
    they are collapsed, but for the sizes of projections. -/
theorem operandText_eq_iff {params : List Argument} {used : List Nat} {a b : Operand}
    (hparams : Legible params) (ha : a.Named params used) (hb : b.Named params used) :
    ∃ x y, operandText params used a = .ok x ∧ operandText params used b = .ok y ∧
      (x = y ↔ a.collapse.eraseSizes = b.collapse.eraseSizes) := by
  obtain ⟨t, ht⟩ := (exists_term_iff params used).mpr ha.collapse.inputs
  obtain ⟨u, hu⟩ := (exists_term_iff params used).mpr hb.collapse.inputs
  refine ⟨t.text, u.text, by rw [operandText, ht]; rfl, by rw [operandText, hu]; rfl, ?_⟩
  rw [(legible_term hparams ht).text_inj (legible_term hparams hu)]
  constructor
  · rintro rfl
    exact hparams.eraseSizes_eq ha.collapse hb.collapse ht hu
  · intro h
    rw [← term_eraseSizes, h, term_eraseSizes, hu] at ht
    exact (Except.ok.inj ht).symm

/-- A literal of an element of a vector and a five, with the vector named like the mark of a literal.
    The size of the element is not seen, and whether the five is a field element or a bare number
    is. -/
theorem operandText_eq_iff_five :
    let params : List Argument := [⟨"vec", .array 4 .scalar⟩, ⟨"x_1", .scalar⟩]
    let pair (size : Nat) (five : Operand) : Operand := .array [.proj (.input 0) 0 size, five]
    Legible params ∧
      (∃ x y, operandText params [] (pair 4 (.const 5)) = .ok x ∧
        operandText params [] (pair 7 (.const 5)) = .ok y ∧ x = y) ∧
      ∃ x y, operandText params [] (pair 4 (.const 5)) = .ok x ∧
        operandText params [] (pair 4 (.nat 5)) = .ok y ∧ x ≠ y := by
  intro params pair
  have hparams : Legible params := by
    refine ⟨by decide, ?_, ?_⟩
    · simp only [params, List.forall_mem_cons]
      exact ⟨.of_identifier (by decide) (by decide), .of_identifier (by decide) (by decide),
        by simp⟩
    · simp only [params, List.forall_mem_cons]
      exact ⟨ne_resultName (by decide), ne_resultName (by decide), by simp⟩
  have hfour : (pair 4 (.const 5)).Named params [] := ⟨by decide, by decide⟩
  have hseven : (pair 7 (.const 5)).Named params [] := ⟨by decide, by decide⟩
  have hnumber : (pair 4 (.nat 5)).Named params [] := ⟨by decide, by decide⟩
  refine ⟨hparams, ?_, ?_⟩
  · obtain ⟨x, y, hx, hy, hiff⟩ := operandText_eq_iff hparams hfour hseven
    exact ⟨x, y, hx, hy, hiff.mpr (by decide)⟩
  · obtain ⟨x, y, hx, hy, hiff⟩ := operandText_eq_iff hparams hfour hnumber
    exact ⟨x, y, hx, hy, fun h => absurd (hiff.mp h) (by decide)⟩

end Definition

end GateTrace
