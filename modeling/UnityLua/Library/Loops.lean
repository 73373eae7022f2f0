import Mathlib.Data.Nat.Notation
import Mathlib.Logic.Relation

/-!
# Loops

A loop repeats a step until the step ends it or fails. It takes fuel, and what it does with
enough fuel is what it does.

## Main results

* `Returns.unique`: a computation has one outcome.
* `Returns.next`, `Returns.last`, `Returns.fail`: what a loop does by what its step does.
* `Counts.returns`, `Counts.visits`: a loop that goes through a sequence of states returns, and
  is in no other states.
* `Returns.of_measure`: a loop ends whose steps make a measure smaller.
-/

namespace Library

variable {σ ε α β : Type}

/-- A computation that may fail and may run out of fuel. -/
abbrev Fueled (ε α : Type) := ℕ → Option (Except ε α)

/-- With enough fuel the outcome is `r`. -/
def Returns (f : Fueled ε α) (r : Except ε α) : Prop :=
  ∃ n, ∀ fuel, n ≤ fuel → f fuel = some r

/-- Repeats a step: `inl` goes on, `inr` ends the loop. -/
def loop (step : σ → Except ε (σ ⊕ α)) (s : σ) : Fueled ε α
  | 0 => none
  | fuel + 1 =>
      match step s with
      | .error e => some (.error e)
      | .ok (.inl s') => loop step s' fuel
      | .ok (.inr a) => some (.ok a)

/-- What is done with the result of a computation. -/
def Fueled.andThen (f : Fueled ε α) (k : α → Except ε β) : Fueled ε β :=
  fun fuel => (f fuel).map fun r => r.bind k

namespace Returns

theorem unique {f : Fueled ε α} {r r' : Except ε α} (h : Returns f r) (h' : Returns f r') :
    r = r' := by
  obtain ⟨n, hn⟩ := h
  obtain ⟨m, hm⟩ := h'
  have h₁ := hn (max n m) (by omega)
  have h₂ := hm (max n m) (by omega)
  rw [h₁] at h₂
  exact Option.some.inj h₂

theorem iff_eq {f : Fueled ε α} {r r' : Except ε α} (h : Returns f r) :
    Returns f r' ↔ r' = r :=
  ⟨fun h' => h'.unique h, fun hr => hr ▸ h⟩

/-- What takes no fuel. -/
theorem const (r : Except ε α) : Returns (fun _ => some r) r := ⟨0, fun _ _ => rfl⟩

theorem andThen {f : Fueled ε α} {r : Except ε α} (h : Returns f r) (k : α → Except ε β) :
    Returns (f.andThen k) (r.bind k) := by
  obtain ⟨n, hn⟩ := h
  refine ⟨n, fun fuel hfuel => ?_⟩
  rw [Fueled.andThen, hn fuel hfuel, Option.map_some]

section Loop

variable {step : σ → Except ε (σ ⊕ α)} {s s' : σ} {r : Except ε α}

/-- A step that does not end the loop. -/
theorem next (hstep : step s = .ok (.inl s')) (h : Returns (loop step s') r) :
    Returns (loop step s) r := by
  obtain ⟨n, hn⟩ := h
  refine ⟨n + 1, fun fuel hfuel => ?_⟩
  obtain ⟨m, rfl⟩ := Nat.exists_eq_succ_of_ne_zero (by omega : fuel ≠ 0)
  rw [loop, hstep]
  exact hn m (by omega)

/-- The step that ends the loop. -/
theorem last {a : α} (hstep : step s = .ok (.inr a)) : Returns (loop step s) (.ok a) := by
  refine ⟨1, fun fuel hfuel => ?_⟩
  obtain ⟨m, rfl⟩ := Nat.exists_eq_succ_of_ne_zero (by omega : fuel ≠ 0)
  rw [loop, hstep]

/-- A step that fails. -/
theorem fail {e : ε} (hstep : step s = .error e) : Returns (loop step s) (.error e) := by
  refine ⟨1, fun fuel hfuel => ?_⟩
  obtain ⟨m, rfl⟩ := Nat.exists_eq_succ_of_ne_zero (by omega : fuel ≠ 0)
  rw [loop, hstep]

/-- A loop ends whose steps keep an invariant and make a measure smaller. -/
theorem of_measure (I : σ → Prop) (μ : σ → ℕ) {Q : α → Prop}
    (hstep : ∀ s, I s → (∃ s', step s = .ok (.inl s') ∧ I s' ∧ μ s' < μ s) ∨
      ∃ a, step s = .ok (.inr a) ∧ Q a) (hs : I s) :
    ∃ a, Returns (loop step s) (.ok a) ∧ Q a := by
  induction hn : μ s using Nat.strongRecOn generalizing s with
  | ind n ih =>
      rcases hstep s hs with ⟨s', hnext, hs', hlt⟩ | ⟨a, hlast, hQ⟩
      · obtain ⟨a, ha, hQ⟩ := ih (μ s') (hn ▸ hlt) hs' rfl
        exact ⟨a, ha.next hnext, hQ⟩
      · exact ⟨a, last hlast, hQ⟩

end Loop

end Returns

section Counts

variable {step : σ → Except ε (σ ⊕ α)} {state : ℕ → σ} {n : ℕ} {a : α}

/-- From one state the loop comes to the other. -/
def Visits (step : σ → Except ε (σ ⊕ α)) : σ → σ → Prop :=
  Relation.ReflTransGen fun s s' => step s = .ok (.inl s')

/-- The steps go through a sequence of states, and end the loop at its `n`th. -/
structure Counts (step : σ → Except ε (σ ⊕ α)) (state : ℕ → σ) (n : ℕ) (a : α) : Prop where
  next : ∀ k < n, step (state k) = .ok (.inl (state (k + 1)))
  last : step (state n) = .ok (.inr a)

/-- From any state of the sequence the loop ends. -/
theorem Counts.returns_from (h : Counts step state n a) {k m : ℕ} (hk : k + m = n) :
    Returns (loop step (state k)) (.ok a) := by
  induction m generalizing k with
  | zero =>
      obtain rfl : k = n := hk
      exact Returns.last h.last
  | succ m ih => exact (ih (by omega)).next (h.next k (by omega))

theorem Counts.returns (h : Counts step state n a) : Returns (loop step (state 0)) (.ok a) :=
  h.returns_from (Nat.zero_add n)

/-- The loop is in no state that is not of the sequence. -/
theorem Counts.visits (h : Counts step state n a) {s : σ} (hs : Visits step (state 0) s) :
    ∃ k ≤ n, s = state k := by
  induction hs with
  | refl => exact ⟨0, Nat.zero_le n, rfl⟩
  | tail _ hstep ih =>
      obtain ⟨k, hk, rfl⟩ := ih
      rcases Nat.lt_or_eq_of_le hk with hlt | rfl
      · rw [h.next k hlt] at hstep
        exact ⟨k + 1, hlt, (Sum.inl.inj (Except.ok.inj hstep)).symm⟩
      · rw [h.last] at hstep
        exact absurd hstep (by simp)

end Counts

end Library
