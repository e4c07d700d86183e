import Mathlib.Data.List.Forall2

/-! # Traversals

    What comes of a list that is gone through with a function that may fail. The key idea:

    - A traversal succeeds exactly if every item does, and what it yields stands item by item for what
      it was given. The first failure ends it.
-/

namespace GateTrace

variable {α β ε : Type} {f : α → Except ε β}

/-- A traversal yields what its items yield, one by one. -/
theorem mapM_eq_ok_iff {xs : List α} {ys : List β} :
    xs.mapM f = .ok ys ↔ List.Forall₂ (fun x y => f x = .ok y) xs ys := by
  constructor
  · intro h
    induction xs generalizing ys with
    | nil =>
      obtain rfl : [] = ys := Except.ok.inj h
      exact .nil
    | cons x xs ih =>
      -- The traversal stops at the first item that fails, so none of them did.
      simp only [List.mapM_cons, bind, Except.bind, pure, Except.pure] at h
      split at h
      · contradiction
      · next y hy =>
        split at h
        · contradiction
        · next zs hzs =>
          obtain rfl := Except.ok.inj h
          exact .cons hy (ih hzs)
  · intro h
    induction h with
    | nil => rfl
    | cons hy _ ih => simp [List.mapM_cons, hy, ih, bind, Except.bind, pure, Except.pure]

theorem exists_mapM_eq_ok_iff {xs : List α} :
    (∃ ys, xs.mapM f = .ok ys) ↔ ∀ x ∈ xs, ∃ y, f x = .ok y := by
  simp only [mapM_eq_ok_iff]
  constructor
  · rintro ⟨ys, hys⟩ x hx
    induction hys with
    | nil => simp at hx
    | cons hy _ ih =>
      rcases List.mem_cons.mp hx with rfl | hx
      · exact ⟨_, hy⟩
      · exact ih hx
  · intro h
    induction xs with
    | nil => exact ⟨[], .nil⟩
    | cons x xs ih =>
      obtain ⟨y, hy⟩ := h x (by simp)
      obtain ⟨ys, hys⟩ := ih fun z hz => h z (by simp [hz])
      exact ⟨y :: ys, .cons hy hys⟩

end GateTrace
