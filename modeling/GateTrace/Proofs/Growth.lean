import Mathlib.Data.List.Basic

/-! # Lists that grow at the end

    Traces and gadget tables only ever grow at the end, and what holds of an element mostly speaks
    of those before it. The lemmas here say what that comes to when the list grows, and when it is
    cut off again.
-/

namespace GateTrace

variable {α : Type} {xs ys : List α} {x y : α} {i : Nat}

theorem getElem?_grow (h : xs[i]? = some x) (ys : List α) : (xs ++ ys)[i]? = some x := by
  have hlt : i < xs.length := (List.getElem?_eq_some_iff.mp h).1
  rw [List.getElem?_append_left hlt]
  exact h

/-- An element of a list that grew by one was there before, or is the last. -/
theorem getElem?_concat_cases (h : (xs ++ [x])[i]? = some y) :
    (i < xs.length ∧ xs[i]? = some y) ∨ (i = xs.length ∧ x = y) := by
  have hlt : i < (xs ++ [x]).length := (List.getElem?_eq_some_iff.mp h).1
  by_cases hi : i < xs.length
  · rw [List.getElem?_append_left hi] at h
    exact .inl ⟨hi, h⟩
  · have hlast : i = xs.length := by
      simp only [List.length_append, List.length_singleton] at hlt
      omega
    subst hlast
    exact .inr ⟨rfl, by simpa using h⟩

/-- Different images stay different when an element with a new one is added. -/
theorem nodup_map_concat {β : Type} {f : α → β} (h : (xs.map f).Nodup)
    (hnew : ∀ y ∈ xs, f y ≠ f x) : ((xs ++ [x]).map f).Nodup := by
  rw [List.map_append, List.nodup_append]
  refine ⟨h, by simp, ?_⟩
  intro a ha b hb
  obtain ⟨y, hy, rfl⟩ := List.mem_map.mp ha
  obtain rfl : b = f x := by simpa using hb
  exact hnew y hy

section Earlier

variable {P : List α → α → Prop}

/-- What holds of every element and those before it holds on when an element is added that it holds
    of as well. -/
theorem forall_getElem?_concat (h : ∀ (i : Nat) (y : α), xs[i]? = some y → P (xs.take i) y)
    (hx : P xs x) (i : Nat) (y : α) (hy : (xs ++ [x])[i]? = some y) :
    P ((xs ++ [x]).take i) y := by
  rcases getElem?_concat_cases hy with ⟨hi, hy⟩ | ⟨rfl, rfl⟩
  · rw [List.take_append_of_le_length (Nat.le_of_lt hi)]
    exact h i y hy
  · rw [List.take_left']
    · exact hx
    · rfl

/-- What holds of every element and those before it held before the list grew. -/
theorem forall_getElem?_of_append
    (h : ∀ (i : Nat) (y : α), (xs ++ ys)[i]? = some y → P ((xs ++ ys).take i) y) (i : Nat) (y : α)
    (hy : xs[i]? = some y) : P (xs.take i) y := by
  have hlt : i < xs.length := (List.getElem?_eq_some_iff.mp hy).1
  have hgrown := h i y (getElem?_grow hy ys)
  rw [List.take_append_of_le_length (Nat.le_of_lt hlt)] at hgrown
  exact hgrown

end Earlier

end GateTrace
