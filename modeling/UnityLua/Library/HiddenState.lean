import UnityLua.Library.Program

/-!
# Programs beside a hidden state

A program over the states `κ × σ` has a hidden part `κ`, such as a cache, beside the part `σ`
that its results are about. It implements a program over `σ` alone if it gives the same
result and the same visible state, and keeps an invariant of the hidden part.

## Main results

* `ImplementsAt.bind`, `.read`, `.write`, `.attempt`, `.beside`: the rules of composition.
* `ImplementsAt.invariant`: the hidden state that is left has the invariant.
-/

namespace Library

variable {κ σ ε ε' α β γ : Type}

namespace Prog

/-- Runs a program and hands over its exception as a value. -/
def attempt (x : Prog σ ε α) : Prog σ ε' (Except ε α) := fun s => (.ok (x s).1, (x s).2)

/-- A program over the visible part of the state. -/
def beside (x : Prog σ ε α) : Prog (κ × σ) ε α := fun s => ((x s.2).1, (s.1, (x s.2).2))

/-- Reads the hidden part of the state. -/
def consult (f : κ → β) : Prog (κ × σ) ε β := gets fun s => f s.1

/-- Changes the hidden part of the state. -/
def record (u : κ → κ) : Prog (κ × σ) ε Unit := modify fun s => (u s.1, s.2)

theorem consult_bind (f : κ → β) (x : β → Prog (κ × σ) ε α) (k : κ) (s : σ) :
    (consult f >>= x) (k, s) = x (f k) (k, s) := rfl

theorem beside_gets_bind (f : σ → β) (x : β → Prog (κ × σ) ε α) (k : κ) (s : σ) :
    (beside (gets f) >>= x) (k, s) = x (f s) (k, s) := rfl

end Prog

open Prog

/-- From the hidden state `k` the program `x` does what `y` does, and leaves a hidden state
with the invariant. -/
def ImplementsAt (I : κ → Prop) (k : κ) (x : Prog (κ × σ) ε α) (y : Prog σ ε α) : Prop :=
  ∀ s, ∃ k', I k' ∧ x (k, s) = ((y s).1, (k', (y s).2))

namespace ImplementsAt

variable {I : κ → Prop} {k k' : κ} {x : Prog (κ × σ) ε α} {y : Prog σ ε α}

theorem beside (hk : I k) : ImplementsAt I k (Prog.beside y) y := fun _ => ⟨k, hk, rfl⟩

theorem pure (hk : I k) {a : α} :
    ImplementsAt I k (Pure.pure a : Prog (κ × σ) ε α) (Pure.pure a) := fun _ => ⟨k, hk, rfl⟩

theorem throw (hk : I k) {e : ε} :
    ImplementsAt I k (Prog.throw e : Prog (κ × σ) ε α) (Prog.throw e) := fun _ => ⟨k, hk, rfl⟩

theorem read {f : κ → β} {x : β → Prog (κ × σ) ε α} (h : ImplementsAt I k (x (f k)) y) :
    ImplementsAt I k (consult f >>= x) y := h

theorem write {u : κ → κ} {x : Unit → Prog (κ × σ) ε α} (h : ImplementsAt I (u k) (x ()) y) :
    ImplementsAt I k (record u >>= x) y := h

/-- The rule of sequence. What follows may use that the visible program has returned its
value. -/
theorem bind {f : α → Prog (κ × σ) ε β} {g : α → Prog σ ε β} (h : ImplementsAt I k x y)
    (hf : ∀ a k', I k' → (∃ s, (y s).1 = .ok a) → ImplementsAt I k' (f a) (g a)) :
    ImplementsAt I k (x >>= f) (y >>= g) := by
  intro s
  obtain ⟨k', hk', hx⟩ := h s
  cases hy : y s with
  | mk r s' =>
      rw [hy] at hx
      cases r with
      | ok a =>
          rw [bind_ok hx, bind_ok hy]
          exact hf a k' hk' ⟨s, by rw [hy]⟩ s'
      | error e =>
          rw [bind_error hx, bind_error hy]
          exact ⟨k', hk', rfl⟩

theorem attempt (h : ImplementsAt I k x y) :
    ImplementsAt I k (Prog.attempt x : Prog (κ × σ) ε' (Except ε α)) (Prog.attempt y) := by
  intro s
  obtain ⟨k', hk', hx⟩ := h s
  refine ⟨k', hk', ?_⟩
  rw [Prog.attempt, hx]
  rfl

/-- The hidden state that is left has the invariant. -/
theorem invariant (h : ImplementsAt I k x y) (s : σ) : I (x (k, s)).2.1 := by
  obtain ⟨k', hk', hx⟩ := h s
  rw [hx]
  exact hk'

end ImplementsAt

namespace Triple

variable {I : κ → Prop}

/-- A program over the visible part leaves the hidden part alone. -/
theorem beside {x : Prog σ ε α} :
    Triple (fun s => I s.1) (Prog.beside x) (fun _ s => I s.1) (fun _ s => I s.1) := by
  intro s hs
  rw [Prog.beside]
  cases (x s.2).1 with
  | ok a => exact hs
  | error e => exact hs

/-- An exception that is handed over as a value is none. -/
theorem attempt {P : σ → Prop} {x : Prog σ ε α} {E : ε' → σ → Prop} :
    Triple P (Prog.attempt x) (fun _ _ => True) E := fun _ _ => trivial

/-- A change of the hidden part that keeps its invariant. -/
theorem record {u : κ → κ} {E : ε → κ × σ → Prop} (h : ∀ k, I k → I (u k)) :
    Triple (fun s => I s.1) (Prog.record u) (fun _ s => I s.1) E :=
  modify fun s hs => h s.1 hs

end Triple

end Library
