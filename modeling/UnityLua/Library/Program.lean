/-!
# Programs with a state and exceptions

A program takes a state to a result or an exception, and leaves a state in either case: what
was done before an exception stays done. A triple speaks of both exits.

## Main results

* `Triple.bind`, `Triple.pure`, `Triple.throw`, `Triple.weaken`: the rules of the triples.
* `Triple.forEach`: a loop over a list, with an invariant that counts the rounds.
-/

namespace Library

variable {σ ε α β : Type}

/-- A program over the states `σ` with exceptions `ε`. -/
def Prog (σ ε α : Type) := σ → Except ε α × σ

namespace Prog

instance : Monad (Prog σ ε) where
  pure a := fun s => (.ok a, s)
  bind x f := fun s =>
    match x s with
    | (.ok a, s') => f a s'
    | (.error e, s') => (.error e, s')

/-- Raises an exception. -/
def throw (e : ε) : Prog σ ε α := fun s => (.error e, s)

/-- Reads the state. -/
def gets (f : σ → α) : Prog σ ε α := fun s => (.ok (f s), s)

/-- Changes the state. -/
def modify (f : σ → σ) : Prog σ ε Unit := fun s => (.ok (), f s)

/-- Runs the body for each element in turn. -/
def forEach (f : β → Prog σ ε Unit) : List β → Prog σ ε Unit
  | [] => pure ()
  | b :: bs => do
      f b
      forEach f bs

theorem bind_ok {x : Prog σ ε α} {f : α → Prog σ ε β} {a : α} {s s' : σ}
    (h : x s = (.ok a, s')) : (x >>= f) s = f a s' := by
  change (match x s with | (.ok a, s') => f a s' | (.error e, s') => (.error e, s')) = _
  rw [h]

theorem bind_error {x : Prog σ ε α} {f : α → Prog σ ε β} {e : ε} {s s' : σ}
    (h : x s = (.error e, s')) : (x >>= f) s = (.error e, s') := by
  change (match x s with | (.ok a, s') => f a s' | (.error e, s') => (.error e, s')) = _
  rw [h]

theorem pure_apply (a : α) (s : σ) : (pure a : Prog σ ε α) s = (.ok a, s) := rfl

theorem gets_bind (f : σ → α) (k : α → Prog σ ε β) (s : σ) : (gets f >>= k) s = k (f s) s := rfl

theorem ite_apply {c : Prop} [Decidable c] (x y : Prog σ ε α) (s : σ) :
    (if c then x else y) s = if c then x s else y s := by
  split <;> rfl

theorem map_apply (f : α → β) (x : Prog σ ε α) (s : σ) :
    (f <$> x) s = ((x s).1.map f, (x s).2) := by
  cases h : x s with
  | mk r s' =>
      cases r with
      | ok a => exact bind_ok (f := pure ∘ f) h
      | error e => exact bind_error (f := pure ∘ f) h

end Prog

/-- What holds at the exit of a program: `Q` if it returns, `E` if it raises an exception. -/
def Exits (Q : α → σ → Prop) (E : ε → σ → Prop) : Except ε α × σ → Prop
  | (.ok a, s) => Q a s
  | (.error e, s) => E e s

/-- From a state with `P` the program returns with `Q` or raises an exception with `E`. -/
def Triple (P : σ → Prop) (x : Prog σ ε α) (Q : α → σ → Prop) (E : ε → σ → Prop) : Prop :=
  ∀ s, P s → Exits Q E (x s)

namespace Triple

variable {P P' : σ → Prop} {E E' : ε → σ → Prop}

theorem pure {a : α} {Q : α → σ → Prop} (h : ∀ s, P s → Q a s) :
    Triple P (Pure.pure a : Prog σ ε α) Q E := fun s hs => h s hs

theorem throw {e : ε} {Q : α → σ → Prop} (h : ∀ s, P s → E e s) :
    Triple P (Prog.throw e) Q E := fun s hs => h s hs

theorem gets {f : σ → α} {Q : α → σ → Prop} (h : ∀ s, P s → Q (f s) s) :
    Triple P (Prog.gets f) Q E := fun s hs => h s hs

theorem modify {f : σ → σ} {Q : Unit → σ → Prop} (h : ∀ s, P s → Q () (f s)) :
    Triple P (Prog.modify f) Q E := fun s hs => h s hs

/-- The rule of sequence: both parts may leave by the same exceptions. -/
theorem bind {x : Prog σ ε α} {f : α → Prog σ ε β} {R : α → σ → Prop} {Q : β → σ → Prop}
    (hx : Triple P x R E) (hf : ∀ a, Triple (R a) (f a) Q E) : Triple P (x >>= f) Q E := by
  intro s hs
  have hexit := hx s hs
  cases hrun : x s with
  | mk r s' =>
      rw [hrun] at hexit
      cases r with
      | ok a =>
          rw [Prog.bind_ok hrun]
          exact hf a s' hexit
      | error e =>
          rw [Prog.bind_error hrun]
          exact hexit

theorem map {x : Prog σ ε α} {f : α → β} {R : α → σ → Prop} {Q : β → σ → Prop}
    (hx : Triple P x R E) (hf : ∀ a s, R a s → Q (f a) s) : Triple P (f <$> x) Q E :=
  bind hx fun a => pure (hf a)

/-- Any program, as far as nothing is said of its exits. -/
theorem any {x : Prog σ ε α} : Triple P x (fun _ _ => True) (fun _ _ => True) := by
  intro s _
  generalize x s = out
  rcases out with ⟨e | a, s'⟩ <;> trivial

/-- The rule of consequence. -/
theorem weaken {x : Prog σ ε α} {Q Q' : α → σ → Prop} (h : Triple P x Q E)
    (hP : ∀ s, P' s → P s) (hQ : ∀ a s, Q a s → Q' a s) (hE : ∀ e s, E e s → E' e s) :
    Triple P' x Q' E' := by
  intro s hs
  have hexit := h s (hP s hs)
  generalize x s = r at hexit ⊢
  rcases r with ⟨r | r, s'⟩
  · exact hE r s' hexit
  · exact hQ r s' hexit

/-- A fact that is no matter of the state may be assumed. -/
theorem assume {φ : Prop} {x : Prog σ ε α} {Q : α → σ → Prop} (h : φ → Triple P x Q E) :
    Triple (fun s => φ ∧ P s) x Q E := fun s hs => h hs.1 s hs.2

/-- An existential in front of the state may be opened. -/
theorem ofExists {ι : Type} {P : ι → σ → Prop} {x : Prog σ ε α} {Q : α → σ → Prop}
    (h : ∀ i, Triple (P i) x Q E) : Triple (fun s => ∃ i, P i s) x Q E :=
  fun s ⟨i, hs⟩ => h i s hs

/-- **The rule of loops over a list.** The invariant knows how many rounds were made. -/
theorem forEach {f : β → Prog σ ε Unit} {I : Nat → σ → Prop} {bs : List β}
    (h : ∀ b ∈ bs, ∀ k, Triple (I k) (f b) (fun _ => I (k + 1)) E) (k : Nat) :
    Triple (I k) (Prog.forEach f bs) (fun _ => I (k + bs.length)) E := by
  induction bs generalizing k with
  | nil => exact pure fun s hs => hs
  | cons b bs ih =>
      refine bind (h b List.mem_cons_self k) fun _ => ?_
      have hrest := ih (fun b hb => h b (List.mem_cons_of_mem _ hb)) (k + 1)
      refine hrest.weaken (fun _ hs => hs) (fun _ s hs => ?_) fun _ _ hs => hs
      rw [List.length_cons, Nat.add_comm bs.length 1, ← Nat.add_assoc]
      exact hs

end Triple

end Library
