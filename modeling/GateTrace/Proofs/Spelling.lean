import GateTrace.Definition.Text
import GateTrace.Proofs.Naming
import Mathlib.Data.List.Induction

/-! # Spelling of terms

    A term can be read back from its text, whatever text it ends. The key ideas:

    - Terms are read from the right, since an index stands after its vector, and what it yields may
      be indexed again. A term is told from what stands before it if that ends in punctuation, or is
      nothing.
    - The last character says what is there: a parenthesis, a bracket, or else a name or a number,
      which goes back to the nearest punctuation before it.
    - A bracket closes an index or a literal. An index is read like a number, and then a literal with
      that number as its last element would have its mark or a separator before it, while no vector
      ends like either.
-/

namespace GateTrace

namespace Term

/-! ### Words -/

/-- The characters by which the parts of a term are told apart. -/
def punctuation : List Char := ['(', ')', ':', '[', ']', ',', ' ', '!']

def Plain (w : List Char) : Prop := ∀ c ∈ w, c ∉ punctuation

instance (w : List Char) : Decidable (Plain w) := List.decidableBAll (· ∉ punctuation) w

/-- Whether a plain text can follow a text and still be told apart from it. -/
def Delimited (r : List Char) : Prop := ∀ c ∈ r.getLast?, c ∈ punctuation

theorem Delimited.nil : Delimited [] := by simp [Delimited]

theorem Delimited.concat {c : Char} (h : c ∈ punctuation) (r : List Char) :
    Delimited (r ++ [c]) := by
  simpa [Delimited] using h

/-- A plain text goes back to the nearest punctuation. -/
theorem Plain.cancel {v w r s : List Char} (hv : Plain v) (hw : Plain w) (hr : Delimited r)
    (hs : Delimited s) (h : r ++ v = s ++ w) : r = s ∧ v = w := by
  have hback : v.reverse ++ r.reverse = w.reverse ++ s.reverse := by
    rw [← List.reverse_append, h, List.reverse_append]
  obtain ⟨hplain, hbefore⟩ := word_cancel (P := (· ∉ punctuation))
    (fun c hc => hv c (List.mem_reverse.mp hc)) (fun c hc => hw c (List.mem_reverse.mp hc))
    (by simpa [Delimited] using hr) (by simpa [Delimited] using hs) hback
  exact ⟨List.reverse_injective hbefore, List.reverse_injective hplain⟩

/-- Whether a character can begin a number. -/
def startsNumber (c : Char) : Bool := c.isDigit || c == '-'

/-- Whether a name is read as one: it is not empty, begins like no number, and is free of
    punctuation. -/
structure Word (x : String) : Prop where
  start : x.toList.head?.map startsNumber = some false
  plain : Plain x.toList

def inIdentifier (c : Char) : Bool := c.isAlphanum || c == '_'

/-- Letters, digits and underscores are no punctuation. -/
theorem Plain.of_identifier {w : List Char} (h : w.all inIdentifier = true) : Plain w := by
  intro c hc hmem
  have hnone : punctuation.all (fun p => !inIdentifier p) = true := by decide
  have hc' : inIdentifier c = true := List.all_eq_true.mp h c hc
  simpa [hc'] using List.all_eq_true.mp hnone c hmem

/-- A name that is made of letters, digits and underscores, and does not begin with a digit, is a
    word. -/
theorem Word.of_identifier {x : String} (hstart : x.toList.head?.map Char.isDigit = some false)
    (hchars : x.toList.all inIdentifier = true) : Word x := by
  refine ⟨?_, .of_identifier hchars⟩
  obtain ⟨c, hc, hdigit⟩ := Option.map_eq_some_iff.mp hstart
  have hminus : c ≠ '-' := by
    rintro rfl
    exact absurd (List.all_eq_true.mp hchars '-' (List.mem_of_mem_head? hc)) (by decide)
  simp [hc, startsNumber, hdigit, hminus]

theorem not_mem_punctuation_of_isDigit {c : Char} (h : c.isDigit = true) : c ∉ punctuation := by
  intro hmem
  simp only [punctuation, List.mem_cons, List.not_mem_nil, or_false] at hmem
  rcases hmem with rfl | rfl | rfl | rfl | rfl | rfl | rfl | rfl <;> contradiction

theorem int_repr_eq (v : Int) :
    v.repr = if v < 0 then "-" ++ v.natAbs.repr else v.natAbs.repr := by
  rw [Int.repr_eq_if]
  by_cases hv : v < 0
  · have habs : (-v).toNat = v.natAbs := by omega
    rw [if_neg (by omega), if_pos hv, habs]
  · have habs : v.toNat = v.natAbs := by omega
    rw [if_pos (by omega), if_neg hv, habs]

theorem plain_repr (v : Int) : Plain v.repr.toList := by
  intro c hc
  rw [int_repr_eq] at hc
  split at hc
  · rw [String.toList_append, List.mem_append] at hc
    rcases hc with hsign | hdigit
    · obtain rfl : c = '-' := by simpa using hsign
      decide
    · exact not_mem_punctuation_of_isDigit (isDigit_of_mem_repr hdigit)
  · exact not_mem_punctuation_of_isDigit (isDigit_of_mem_repr hc)

theorem startsNumber_repr (v : Int) : v.repr.toList.head?.map startsNumber = some true := by
  rw [int_repr_eq]
  split
  · simp [startsNumber]
  · obtain ⟨c, rest, hdigits⟩ := List.exists_cons_of_ne_nil (@Nat.toDigits_ne_nil v.natAbs 10)
    have hchars : v.natAbs.repr.toList = c :: rest := by rw [Nat.toList_repr, hdigits]
    have hdigit : c.isDigit = true := isDigit_of_mem_repr (by rw [hchars]; exact List.mem_cons_self)
    simp [hchars, startsNumber, hdigit]

theorem int_repr_cancel {v w : Int} (h : v.repr = w.repr) : v = w := by
  rw [int_repr_eq, int_repr_eq] at h
  exact signed_repr_cancel (List.mem_singleton.mpr rfl : '-' ∈ "-".toList) (by decide) h

/-! ### Texts of terms -/

/-- A term of which every name is a word. -/
inductive Legible : Term → Prop
  | var {x : String} (h : Word x) : Legible (.var x)
  | const {v : Int} : Legible (.const v)
  | nat {v : Int} : Legible (.nat v)
  | get {vector : Term} {index : Nat} (h : Legible vector) : Legible (.get vector index)
  | vec {items : List Term} (h : ∀ t ∈ items, Legible t) : Legible (.vec items)

def chars (t : Term) : List Char := t.text.toList

theorem chars_const (v : Int) : (const v).chars = '(' :: v.repr.toList ++ [':', 'F', ')'] := by
  simp [chars, text, String.toList_append]

/-- An index is written as the number that it is. -/
theorem chars_get (vector : Term) (index : Nat) :
    (get vector index).chars = vector.chars ++ ['['] ++ (nat index).chars ++ [']'] := by
  simp only [chars, text, String.toList_append]
  rfl

/-- The terms of a list, each followed by a separator. -/
def separated (ts : List Term) : List Char := ts.flatMap fun t => t.chars ++ [',', ' ']

theorem separated_nil : separated [] = [] := rfl

theorem separated_concat (ts : List Term) (t : Term) :
    separated (ts ++ [t]) = separated ts ++ t.chars ++ [','] ++ [' '] := by
  simp [separated]

/-- A separator stands before the last of several elements, and no bracket. -/
theorem separated_concat_ne {ts : List Term} {t : Term} {r s : List Char} :
    r ++ separated (ts ++ [t]) ≠ s ++ ['['] := by
  intro h
  rw [separated_concat, ← List.append_assoc] at h
  obtain ⟨-, hlast⟩ := List.append_inj' h rfl
  simp at hlast

theorem toList_intercalate_concat (ts : List Term) (t : Term) :
    (", ".intercalate (texts (ts ++ [t]))).toList = separated ts ++ t.chars := by
  rw [String.toList_intercalate, texts_eq_map, List.map_map]
  induction ts with
  | nil => simp [separated, chars]
  | cons u ts ih =>
    have hne : ∃ x xs, (ts ++ [t]).map (String.toList ∘ text) = x :: xs := by
      cases ts <;> simp
    obtain ⟨x, xs, hxs⟩ := hne
    rw [hxs] at ih
    rw [List.cons_append, List.map_cons, hxs, List.intercalate_cons_cons, ih]
    simp [separated, chars]

/-- What stands before the bracket that opens a literal. -/
def mark : List Char := ['v', 'e', 'c', '!']

theorem chars_vec_nil : (vec []).chars = mark ++ ['['] ++ [']'] := rfl

theorem chars_vec_concat (ts : List Term) (t : Term) :
    (vec (ts ++ [t])).chars = mark ++ ['['] ++ separated ts ++ t.chars ++ [']'] := by
  rw [chars, text, String.toList_append, String.toList_append, toList_intercalate_concat]
  simp [mark]

/-! ### Last characters -/

/-- The bracket or parenthesis at the end of a term, unless it is a name or a number. -/
def closing? : Term → Option Char
  | .const _ => some ')'
  | .get _ _ | .vec _ => some ']'
  | .var _ | .nat _ => none

theorem eq_of_closing? {t : Term} {c : Char} (h : t.closing? = some c) : c = ')' ∨ c = ']' := by
  cases t with
  | const => exact .inl (Option.some.inj h).symm
  | get | vec => exact .inr (Option.some.inj h).symm
  | var | nat => contradiction

theorem Legible.plain {t : Term} (ht : t.Legible) (h : t.closing? = none) : Plain t.chars := by
  cases ht with
  | var hx => exact hx.plain
  | nat => exact plain_repr _
  | const | get | vec => contradiction

/-- A term ends in the character that closes it, or else in one that is not punctuation. -/
theorem Legible.exists_chars_eq {t : Term} (ht : t.Legible) :
    ∃ front c, t.chars = front ++ [c] ∧ t.closing? = if c ∈ punctuation then some c else none := by
  have hplain : ∀ b, t.closing? = none → t.chars.head?.map startsNumber = some b →
      ∃ front c, t.chars = front ++ [c] ∧ t.closing? = if c ∈ punctuation then some c else none := by
    intro b hnone hstart
    -- A term has a first character, so it has a last one.
    rcases List.eq_nil_or_concat' t.chars with hnil | ⟨front, c, hchars⟩
    · simp [hnil] at hstart
    · have hc : c ∉ punctuation := ht.plain hnone c (by simp [hchars])
      exact ⟨front, c, hchars, by rw [hnone, if_neg hc]⟩
  cases ht with
  | var hx => exact hplain false rfl hx.start
  | nat => exact hplain true rfl (startsNumber_repr _)
  -- All other terms are closed by a character that ends nothing else.
  | @const v => exact ⟨'(' :: v.repr.toList ++ [':', 'F'], ')', by simp [chars_const], rfl⟩
  | get => exact ⟨_, ']', chars_get _ _, rfl⟩
  | @vec items =>
    rcases List.eq_nil_or_concat' items with rfl | ⟨ts, t, rfl⟩
    · exact ⟨_, ']', chars_vec_nil, rfl⟩
    · exact ⟨_, ']', chars_vec_concat ts t, rfl⟩

/-- Where texts are the same, whatever stands before them, they are closed by the same character. -/
theorem Legible.closing?_eq {t u : Term} (ht : t.Legible) (hu : u.Legible) {r s : List Char}
    (h : r ++ t.chars = s ++ u.chars) : t.closing? = u.closing? := by
  obtain ⟨front, c, htext, htclosing⟩ := ht.exists_chars_eq
  obtain ⟨front', d, hutext, huclosing⟩ := hu.exists_chars_eq
  rw [htext, hutext, ← List.append_assoc, ← List.append_assoc] at h
  obtain ⟨-, hlast⟩ := List.append_inj' h rfl
  obtain rfl : c = d := by simpa using hlast
  rw [htclosing, huclosing]

/-- No term ends like the opening of a literal, nor like a separator. -/
theorem Legible.chars_ne {t : Term} (ht : t.Legible) {c : Char} (hc : c = '[' ∨ c = ' ' ∨ c = '!')
    {r s : List Char} : r ++ t.chars ≠ s ++ [c] := by
  intro h
  obtain ⟨front, d, htext, hclosing⟩ := ht.exists_chars_eq
  rw [htext, ← List.append_assoc] at h
  obtain ⟨-, hlast⟩ := List.append_inj' h rfl
  obtain rfl : d = c := by simpa using hlast
  have hmem : d ∈ punctuation := by rcases hc with rfl | rfl | rfl <;> decide
  rw [if_pos hmem] at hclosing
  have hend := eq_of_closing? hclosing
  rcases hc with rfl | rfl | rfl <;> simp at hend

/-! ### Reading from the right -/

/-- Whether a term is found at the end of every text that ends with it: what is written like it is
    the same term, and the same stands before it. -/
def Reads (t : Term) : Prop :=
  ∀ (u : Term) (r s : List Char), u.Legible → Delimited r → Delimited s →
    r ++ t.chars = s ++ u.chars → r = s ∧ t = u

/-- Names and numbers are told apart by their first characters. -/
theorem Legible.eq_of_plain {t u : Term} (ht : t.Legible) (hu : u.Legible)
    (htclosing : t.closing? = none) (huclosing : u.closing? = none) (h : t.chars = u.chars) :
    t = u := by
  -- A number begins with a digit or a minus sign, and a name with neither.
  have hstart := congrArg (fun w => w.head?.map startsNumber) h
  cases ht with
  | @var x hx =>
    cases hu with
    | @var y hy =>
      obtain rfl : x = y := String.toList_inj.mp h
      rfl
    | nat => exact absurd (hx.start.symm.trans (hstart.trans (startsNumber_repr _))) (by simp)
    | const | get | vec => contradiction
  | @nat v =>
    cases hu with
    | var hy => exact absurd ((startsNumber_repr _).symm.trans (hstart.trans hy.start)) (by simp)
    | @nat w =>
      obtain rfl : v = w := int_repr_cancel (String.toList_inj.mp h)
      rfl
    | const | get | vec => contradiction
  | const | get | vec => contradiction

theorem Legible.reads_of_plain {t : Term} (ht : t.Legible) (h : t.closing? = none) :
    t.Reads := by
  intro u r s hu hr hs htext
  have huclosing : u.closing? = none := (ht.closing?_eq hu htext).symm.trans h
  obtain ⟨hbefore, hchars⟩ := (ht.plain h).cancel (hu.plain huclosing) hr hs htext
  exact ⟨hbefore, ht.eq_of_plain hu h huclosing hchars⟩

theorem reads_nat (v : Int) : (nat v).Reads := Legible.nat.reads_of_plain rfl

theorem reads_const (v : Int) : (const v).Reads := by
  intro u r s hu hr hs h
  have hclosing := Legible.const.closing?_eq hu h
  cases u with
  | const w =>
    -- Inside the parentheses is a number, and its type after it.
    have hinside : r ++ ['('] ++ (nat v).chars ++ [':', 'F', ')'] =
        s ++ ['('] ++ (nat w).chars ++ [':', 'F', ')'] := by
      rw [chars_const, chars_const] at h
      simpa only [chars, text, List.append_assoc, List.cons_append, List.nil_append] using h
    obtain ⟨hbefore, hnat⟩ := reads_nat v (.nat w) _ _ .nat (.concat (by decide) r)
      (.concat (by decide) s) (List.append_cancel_right hinside)
    obtain rfl : v = w := nat.inj hnat
    exact ⟨List.append_cancel_right hbefore, rfl⟩
  | var | nat | get | vec => simp [closing?] at hclosing

/-- What stands before the next element of a literal, or before the first. -/
theorem delimited_separated (r : List Char) (ts : List Term) :
    Delimited (r ++ ['['] ++ separated ts) := by
  rcases List.eq_nil_or_concat' ts with rfl | ⟨ts, t, rfl⟩
  · simpa [separated] using Delimited.concat (c := '[') (by decide) r
  · rw [separated_concat, ← List.append_assoc]
    exact .concat (by decide) _

/-- An indexed vector is never written like a literal: what stands before the last bracket of a
    literal is its mark or a separator, or else no number stands after it. -/
theorem chars_get_ne_vec {vector : Term} (hv : vector.Legible) {index : Nat} {items : List Term}
    (hitems : ∀ t ∈ items, t.Legible) {r s : List Char} :
    r ++ (get vector index).chars ≠ s ++ (vec items).chars := by
  intro h
  rw [chars_get] at h
  -- The literal ends with its last element, if there is one, and with its opening otherwise.
  rcases List.eq_nil_or_concat' items with rfl | ⟨ts, t, rfl⟩
  · rw [chars_vec_nil] at h
    have hinside : r ++ vector.chars ++ ['['] ++ (nat index).chars ++ [']'] =
        s ++ mark ++ ['['] ++ [']'] := by
      simpa only [List.append_assoc] using h
    exact Legible.nat.chars_ne (.inl rfl) (List.append_cancel_right hinside)
  · rw [chars_vec_concat] at h
    have hinside : r ++ vector.chars ++ ['['] ++ (nat index).chars ++ [']'] =
        s ++ mark ++ ['['] ++ separated ts ++ t.chars ++ [']'] := by
      simpa only [List.append_assoc] using h
    obtain ⟨hbefore, -⟩ := reads_nat index t _ _ (hitems t (by simp)) (.concat (by decide) _)
      (delimited_separated _ ts) (List.append_cancel_right hinside)
    rcases List.eq_nil_or_concat' ts with rfl | ⟨ts, u, rfl⟩
    · -- The number is the only element, and no vector ends like the mark of a literal.
      have hmark : r ++ vector.chars ++ ['['] = s ++ ['v', 'e', 'c'] ++ ['!'] ++ ['['] := by
        simpa [separated, mark] using hbefore
      exact hv.chars_ne (.inr (.inr rfl)) (List.append_cancel_right hmark)
    -- A separator stands before the last of several elements, where the index has its bracket.
    · exact separated_concat_ne hbefore.symm

theorem Reads.get {vector : Term} (hvector : vector.Reads) (hlegible : vector.Legible)
    (index : Nat) : (get vector index).Reads := by
  intro u r s hu hr hs h
  -- The last character tells which kind of term `u` is.
  have hclosing := hlegible.get.closing?_eq hu h
  cases hu with
  | @get other index' hother =>
    have hinside : r ++ vector.chars ++ ['['] ++ (nat index).chars ++ [']'] =
        s ++ other.chars ++ ['['] ++ (nat index').chars ++ [']'] := by
      rw [chars_get, chars_get] at h
      simpa only [List.append_assoc] using h
    -- Read from the right: first the index, then the vector before the bracket.
    obtain ⟨hbracket, hindex⟩ := reads_nat index (.nat index') _ _ .nat (.concat (by decide) _)
      (.concat (by decide) _) (List.append_cancel_right hinside)
    obtain rfl : index = index' := Int.ofNat.inj (nat.inj hindex)
    obtain ⟨hbefore, rfl⟩ := hvector other r s hother hr hs (List.append_cancel_right hbracket)
    exact ⟨hbefore, rfl⟩
  | vec hitems => exact absurd h (chars_get_ne_vec hlegible hitems)
  | var | const | nat => simp [closing?] at hclosing

/-- Separated terms are read one by one, back to the bracket that opens the literal. -/
theorem separated_cancel {ts us : List Term} (hts : ∀ t ∈ ts, t.Reads)
    (hus : ∀ u ∈ us, u.Legible) {r s : List Char}
    (h : r ++ ['['] ++ separated ts = s ++ ['['] ++ separated us) : r = s ∧ ts = us := by
  induction ts using List.reverseRecOn generalizing us with
  | nil =>
    rw [separated_nil, List.append_nil] at h
    rcases List.eq_nil_or_concat' us with rfl | ⟨us, u, rfl⟩
    · rw [separated_nil, List.append_nil] at h
      exact ⟨List.append_cancel_right h, rfl⟩
    · exact absurd h.symm separated_concat_ne
  | append_singleton ts t ih =>
    rcases List.eq_nil_or_concat' us with rfl | ⟨us, u, rfl⟩
    · rw [separated_nil, List.append_nil] at h
      exact absurd h separated_concat_ne
    -- Both lists have a last element, which is read first.
    · have hlast : r ++ ['['] ++ separated ts ++ t.chars ++ [','] ++ [' '] =
          s ++ ['['] ++ separated us ++ u.chars ++ [','] ++ [' '] := by
        rw [separated_concat, separated_concat] at h
        simpa only [List.append_assoc] using h
      obtain ⟨hbefore, rfl⟩ := hts t (by simp) u _ _ (hus u (by simp)) (delimited_separated _ _)
        (delimited_separated _ _) (List.append_cancel_right (List.append_cancel_right hlast))
      obtain ⟨hr, rfl⟩ := ih (fun t ht => hts t (by simp [ht])) (fun u hu => hus u (by simp [hu]))
        hbefore
      exact ⟨hr, rfl⟩

/-- An element stands before the last bracket of a literal that is not empty. -/
theorem chars_vec_nil_ne {ts : List Term} {t : Term} (ht : t.Legible) {r s : List Char} :
    r ++ (vec []).chars ≠ s ++ (vec (ts ++ [t])).chars := by
  intro h
  rw [chars_vec_nil, chars_vec_concat] at h
  have hinside : s ++ mark ++ ['['] ++ separated ts ++ t.chars ++ [']'] =
      r ++ mark ++ ['['] ++ [']'] := by
    simpa only [List.append_assoc] using h.symm
  exact ht.chars_ne (.inl rfl) (List.append_cancel_right hinside)

theorem Reads.vec {items : List Term} (hitems : ∀ t ∈ items, t.Reads)
    (hlegible : ∀ t ∈ items, t.Legible) : (vec items).Reads := by
  intro u r s hu hr hs h
  -- The last character tells which kind of term `u` is.
  have hclosing := (Legible.vec hlegible).closing?_eq hu h
  cases hu with
  | get hother => exact absurd h.symm (chars_get_ne_vec hother hlegible)
  | @vec others hothers =>
    rcases List.eq_nil_or_concat' items with rfl | ⟨ts, t, rfl⟩ <;>
      rcases List.eq_nil_or_concat' others with rfl | ⟨us, u, rfl⟩
    · exact ⟨List.append_cancel_right h, rfl⟩
    · exact absurd h (chars_vec_nil_ne (hothers u (by simp)))
    · exact absurd h.symm (chars_vec_nil_ne (hlegible t (by simp)))
    · rw [chars_vec_concat, chars_vec_concat] at h
      have hinside : r ++ mark ++ ['['] ++ separated ts ++ t.chars ++ [']'] =
          s ++ mark ++ ['['] ++ separated us ++ u.chars ++ [']'] := by
        simpa only [List.append_assoc] using h
      -- The last elements are read first, then those before them, and then the mark.
      obtain ⟨hbefore, rfl⟩ := hitems t (by simp) u _ _ (hothers u (by simp))
        (delimited_separated _ ts) (delimited_separated _ us) (List.append_cancel_right hinside)
      obtain ⟨hmark, rfl⟩ := separated_cancel (fun t ht => hitems t (by simp [ht]))
        (fun u hu => hothers u (by simp [hu])) hbefore
      exact ⟨List.append_cancel_right hmark, rfl⟩
  | var | const | nat => simp [closing?] at hclosing

/-- A term of which every name is a word is found at the end of every text that ends with it. -/
theorem Legible.reads {t : Term} (h : t.Legible) : t.Reads := by
  induction h with
  | var hx => exact (Legible.var hx).reads_of_plain rfl
  | const => exact reads_const _
  | nat => exact reads_nat _
  | get hvector ih => exact ih.get hvector _
  | vec hitems ih => exact .vec ih hitems

/-- Terms of which every name is a word are written differently, unless they are the same. -/
theorem Legible.text_inj {t u : Term} (ht : t.Legible) (hu : u.Legible) :
    t.text = u.text ↔ t = u := by
  refine ⟨fun h => ?_, congrArg text⟩
  exact (ht.reads u [] [] hu .nil .nil (congrArg String.toList h)).2

end Term

end GateTrace
