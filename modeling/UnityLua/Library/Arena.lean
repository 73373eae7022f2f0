import Mathlib.Data.List.Basic

/-!
# Arenas

A list that only grows, whose elements are named by their positions: what is found at a
position after an element was added at the end or changed in place.
-/

namespace Library

universe u

variable {α : Type u}

/-- Adding at the end makes one new position. -/
theorem getElem?_concat_eq_some {l : List α} {x y : α} {k : ℕ} :
    (l ++ [x])[k]? = some y ↔ l[k]? = some y ∨ k = l.length ∧ y = x := by
  rcases Nat.lt_trichotomy k l.length with hk | rfl | hk
  · simp only [List.getElem?_append_left hk, Nat.ne_of_lt hk, false_and, or_false]
  · simp only [List.getElem?_concat_length, List.getElem?_eq_none (Nat.le_refl l.length),
      Option.some.injEq, reduceCtorEq, true_and, false_or, eq_comm]
  · have hlen : (l ++ [x]).length ≤ k := by
      rw [List.length_append, List.length_singleton]
      exact hk
    simp only [List.getElem?_eq_none hlen, List.getElem?_eq_none (Nat.le_of_lt hk),
      reduceCtorEq, Nat.ne_of_gt hk, false_and, or_false]

/-- A change in place is seen at its position only. -/
theorem getElem?_modify_eq_some {l : List α} {f : α → α} {y : α} {k j : ℕ} :
    (l.modify k f)[j]? = some y ↔ ∃ x, l[j]? = some x ∧ y = if k = j then f x else x := by
  simp only [List.getElem?_modify, Option.map_eq_map, Option.map_eq_some_iff,
    eq_comm (a := y)]

/-- Setting the element behind a prefix. -/
theorem set_length_append {pre : List α} {i : ℕ} (h : pre.length = i) (v w : α)
    (vs : List α) : (pre ++ v :: vs).set i w = pre ++ w :: vs := by
  rw [← h, List.set_append_right _ _ (Nat.le_refl _), Nat.sub_self, List.set_cons_zero]

end Library
