import Mathlib.Logic.Basic

/-!
# Paths through a store of cells

A store has a value in each cell, and a cell is a node with a key. Some values stand for
nodes, so that a list of keys leads from a value through cells to another value. Nodes may be
shared and the store may have cycles.

## Main results

* `follow_congr`: where keys lead depends only on the cells they go through.
* `follow_concat_of_eq`: after a write to a cell that the way to its node avoids, the way
  through this cell leads to what was written.
-/

namespace Library.CellPaths

variable {A K V : Type} (node : V → Option A) (cells cells' : A → K → V)

/-- The value at which following the keys ends, and the keys that are left, which are none
unless the value is no node. -/
def follow : V → List K → V × List K
  | v, [] => (v, [])
  | v, k :: ks =>
      match node v with
      | none => (v, k :: ks)
      | some a => follow (cells a k) ks

/-- The cells that the keys go through. -/
def visits : V → List K → List (A × K)
  | _, [] => []
  | v, k :: ks =>
      match node v with
      | none => []
      | some a => (a, k) :: visits (cells a k) ks

variable {node} {cells cells'}

@[simp] theorem follow_nil (v : V) : follow node cells v [] = (v, []) := rfl

theorem follow_cons {v : V} {a : A} (h : node v = some a) (k : K) (ks : List K) :
    follow node cells v (k :: ks) = follow node cells (cells a k) ks := by
  rw [follow, h]

/-- At a value that is no node the keys are left over. -/
theorem follow_of_none {v : V} (h : node v = none) (ks : List K) :
    follow node cells v ks = (v, ks) := by
  cases ks with
  | nil => rfl
  | cons k ks => rw [follow, h]

theorem visits_cons {v : V} {a : A} (h : node v = some a) (k : K) (ks : List K) :
    visits node cells v (k :: ks) = (a, k) :: visits node cells (cells a k) ks := by
  rw [visits, h]

theorem follow_append {v u : V} {ks : List K} (h : follow node cells v ks = (u, []))
    (ls : List K) : follow node cells v (ks ++ ls) = follow node cells u ls := by
  induction ks generalizing v with
  | nil =>
      rw [follow_nil] at h
      injection h with hv _
      rw [hv, List.nil_append]
  | cons k ks ih =>
      cases hv : node v with
      | none =>
          rw [follow_of_none hv] at h
          injection h with _ hks
          cases hks
      | some a =>
          rw [follow_cons hv] at h
          rw [List.cons_append, follow_cons hv]
          exact ih h

/-- **The frame rule of paths.** -/
theorem follow_congr {v : V} {ks : List K}
    (h : ∀ c ∈ visits node cells v ks, cells' c.1 c.2 = cells c.1 c.2) :
    follow node cells' v ks = follow node cells v ks := by
  induction ks generalizing v with
  | nil => rfl
  | cons k ks ih =>
      cases hv : node v with
      | none => rw [follow_of_none hv, follow_of_none hv]
      | some a =>
          rw [visits_cons hv] at h
          have hcell : cells' a k = cells a k := h (a, k) List.mem_cons_self
          rw [follow_cons hv, follow_cons hv, hcell]
          exact ih fun c hc => h c (List.mem_cons_of_mem _ hc)

/-- The way to a node and through one of its cells. -/
theorem follow_concat {v u : V} {a : A} {ks : List K} (h : follow node cells v ks = (u, []))
    (hu : node u = some a) (k : K) :
    follow node cells v (ks ++ [k]) = (cells a k, []) := by
  rw [follow_append h, follow_cons hu, follow_nil]

/-- A cell off the way to its node is read after a write as it was written. -/
theorem follow_concat_of_eq {v u : V} {a : A} {ks : List K}
    (h : follow node cells v ks = (u, [])) (hu : node u = some a)
    (hsame : ∀ c ∈ visits node cells v ks, cells' c.1 c.2 = cells c.1 c.2) (k : K) :
    follow node cells' v (ks ++ [k]) = (cells' a k, []) :=
  follow_concat ((follow_congr hsame).trans h) hu k

/-- On the way to a node every cell gone through stands for a node. -/
theorem node_of_mem_visits {v u : V} {ks : List K} (h : follow node cells v ks = (u, []))
    (hu : node u ≠ none) {c : A × K} (hc : c ∈ visits node cells v ks) :
    node (cells c.1 c.2) ≠ none := by
  induction ks generalizing v with
  | nil => cases hc
  | cons k ks ih =>
      cases hv : node v with
      | none =>
          rw [follow_of_none hv] at h
          injection h with _ hks
          cases hks
      | some a =>
          rw [follow_cons hv] at h
          rw [visits_cons hv, List.mem_cons] at hc
          obtain rfl | hc := hc
          · intro hnone
            rw [follow_of_none hnone] at h
            injection h with hsame _
            exact hu (hsame ▸ hnone)
          · exact ih h hc

/-- A set of nodes that the store does not lead out of is not left. -/
theorem visits_closed {P : A → Prop} (hclosed : ∀ a k b, node (cells a k) = some b → P b) {v : V}
    (hv : ∀ a, node v = some a → P a) {ks : List K} {c : A × K}
    (hc : c ∈ visits node cells v ks) : P c.1 := by
  induction ks generalizing v with
  | nil => cases hc
  | cons k ks ih =>
      cases hnode : node v with
      | none =>
          rw [visits, hnode] at hc
          cases hc
      | some a =>
          rw [visits_cons hnode, List.mem_cons] at hc
          obtain rfl | hc := hc
          · exact hv a hnode
          · exact ih (hclosed a k) hc

/-- What is reached is where one started or the value of a cell gone through. -/
theorem follow_mem (v : V) (ks : List K) :
    (follow node cells v ks).1 = v ∨
    ∃ c ∈ visits node cells v ks, (follow node cells v ks).1 = cells c.1 c.2 := by
  induction ks generalizing v with
  | nil => exact .inl rfl
  | cons k ks ih =>
      cases hv : node v with
      | none =>
          rw [follow_of_none hv]
          exact .inl rfl
      | some a =>
          right
          rw [follow_cons hv, visits_cons hv]
          obtain hsame | ⟨c, hc, hvalue⟩ := ih (cells a k)
          · exact ⟨(a, k), List.mem_cons_self, hsame⟩
          · exact ⟨c, List.mem_cons_of_mem _ hc, hvalue⟩

end Library.CellPaths
