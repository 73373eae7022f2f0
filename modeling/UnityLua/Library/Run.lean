import Mathlib.Data.List.Infix

/-!
# Runs of an event-driven machine

A machine is a partial step function `step : σ → ε → Option σ`: an event that is not
enabled in a state has no successor. This module fixes what a run is and how a fact
about one step becomes a fact about every run.

## Main results

* `run_append`: a run is split at any point of its event list.
* `run_invariant`: a predicate preserved by every step holds after every run.
* `run_invariant_of`: the same when only the runs whose steps all satisfy a side
  condition are considered; the condition may look at the state before the step.
* `throughout_iff_allSteps`: a predicate that a step establishes exactly when it meets the
  side condition holds in every state of a run exactly when all steps meet it.
-/

namespace Library

universe u v

variable {σ : Type u} {ε : Type v}

/-- The state reached from `s` by the events of the list, in order; `none` when some
event is not enabled in the state it meets. -/
def run (step : σ → ε → Option σ) : σ → List ε → Option σ
  | s, [] => some s
  | s, e :: es => (step s e).bind fun s' => run step s' es

@[simp] theorem run_nil (step : σ → ε → Option σ) (s : σ) : run step s [] = some s := rfl

@[simp] theorem run_cons (step : σ → ε → Option σ) (s : σ) (e : ε) (es : List ε) :
    run step s (e :: es) = (step s e).bind fun s' => run step s' es := rfl

/-- A run over a concatenation is a run over the first part followed by a run over the
second. -/
theorem run_append (step : σ → ε → Option σ) (s : σ) (es es' : List ε) :
    run step s (es ++ es') = (run step s es).bind fun s' => run step s' es' := by
  induction es generalizing s with
  | nil => simp
  | cons e es ih => simp [ih, Option.bind_assoc]

/-- Every event of the run, together with the state it meets, satisfies `ok`. -/
def AllSteps (step : σ → ε → Option σ) (ok : σ → ε → Prop) : σ → List ε → Prop
  | _, [] => True
  | s, e :: es => ok s e ∧ ∀ s', step s e = some s' → AllSteps step ok s' es

/-- A side condition that the events meet in any state is met along every run. -/
theorem allSteps_of_forall {step : σ → ε → Option σ} {ok : σ → ε → Prop} {es : List ε}
    (h : ∀ e ∈ es, ∀ s, ok s e) (s : σ) : AllSteps step ok s es := by
  induction es generalizing s with
  | nil => trivial
  | cons e es ih =>
      obtain ⟨he, hes⟩ := List.forall_mem_cons.mp h
      exact ⟨he s, fun s' _ => ih hes s'⟩

theorem allSteps_and {step : σ → ε → Option σ} {P Q : σ → ε → Prop} {es : List ε} {s : σ} :
    AllSteps step (fun s e => P s e ∧ Q s e) s es ↔ AllSteps step P s es ∧ AllSteps step Q s es := by
  induction es generalizing s with
  | nil => exact (and_self_iff).symm
  | cons e es ih =>
      simp only [AllSteps, ih]
      constructor
      · rintro ⟨⟨hP, hQ⟩, h⟩
        exact ⟨⟨hP, fun s' hs => (h s' hs).1⟩, hQ, fun s' hs => (h s' hs).2⟩
      · rintro ⟨⟨hP, hes⟩, hQ, hes'⟩
        exact ⟨⟨hP, hQ⟩, fun s' hs => ⟨hes s' hs, hes' s' hs⟩⟩

/-- **The guarded run rule.** An invariant kept by every step that meets the side
condition holds after every run whose steps all meet it. -/
theorem run_invariant_of {step : σ → ε → Option σ} (ok : σ → ε → Prop) {I : σ → Prop}
    (hstep : ∀ s e s', I s → ok s e → step s e = some s' → I s')
    {es : List ε} {s s' : σ} (hok : AllSteps step ok s es)
    (hrun : run step s es = some s') (hI : I s) : I s' := by
  induction es generalizing s with
  | nil =>
      simp only [run_nil, Option.some.injEq] at hrun
      exact hrun ▸ hI
  | cons e es ih =>
      simp only [run_cons, Option.bind_eq_some_iff] at hrun
      obtain ⟨m, hm, hrun⟩ := hrun
      exact ih (hok.2 m hm) hrun (hstep s e m hI hok.1 hm)

/-- **The run rule.** An invariant kept by every step holds after every run. -/
theorem run_invariant {step : σ → ε → Option σ} {I : σ → Prop}
    (hstep : ∀ s e s', I s → step s e = some s' → I s')
    {es : List ε} {s s' : σ} (hrun : run step s es = some s') (hI : I s) : I s' :=
  run_invariant_of (fun _ _ => True) (fun s e s' hI _ h => hstep s e s' hI h)
    (allSteps_of_forall (fun _ _ _ => trivial) s) hrun hI

/-- A bound that no step brings about holds before a run when it holds after it. -/
theorem run_bound {step : σ → ε → Option σ} {B : σ → Prop}
    (hB : ∀ s e s', step s e = some s' → B s' → B s) {es : List ε} {s t : σ}
    (hrun : run step s es = some t) (ht : B t) : B s := by
  induction es generalizing s with
  | nil => exact Option.some.inj hrun ▸ ht
  | cons e es ih =>
      simp only [run_cons, Option.bind_eq_some_iff] at hrun
      obtain ⟨m, hm, hrun⟩ := hrun
      exact hB s e m hm (ih hrun)

/-- `P` holds in every state that the run meets, the first and the last included. -/
def Throughout (step : σ → ε → Option σ) (P : σ → Prop) (s : σ) (es : List ε) : Prop :=
  ∀ p s', p <+: es → run step s p = some s' → P s'

theorem throughout_nil {step : σ → ε → Option σ} {P : σ → Prop} {s : σ} :
    Throughout step P s [] ↔ P s := by
  constructor
  · exact fun h => h [] s (List.prefix_refl _) rfl
  · intro h p s' hp hrun
    obtain rfl := List.prefix_nil.mp hp
    exact Option.some.inj hrun ▸ h

theorem throughout_cons {step : σ → ε → Option σ} {P : σ → Prop} {s : σ} {e : ε}
    {es : List ε} :
    Throughout step P s (e :: es) ↔
      P s ∧ ∀ s', step s e = some s' → Throughout step P s' es := by
  constructor
  · intro h
    refine ⟨h [] s (List.nil_prefix) rfl, fun s' hs p s'' hp hrun => ?_⟩
    refine h (e :: p) s'' (List.cons_prefix_cons.mpr ⟨rfl, hp⟩) ?_
    rw [run_cons, hs, Option.bind_some, hrun]
  · rintro ⟨hP, h⟩ p s' hp hrun
    cases p with
    | nil => exact Option.some.inj hrun ▸ hP
    | cons e' p =>
        obtain ⟨rfl, hrest⟩ := List.cons_prefix_cons.mp hp
        simp only [run_cons, Option.bind_eq_some_iff] at hrun
        obtain ⟨m, hm, hrun⟩ := hrun
        exact h m hm p s' hrest hrun

/-- **The exactness rule.** From a state with the invariant `I`, a step that meets the
condition keeps `I` and leads to a state with `P`, and one that does not leads to a state
without it; then `P` holds throughout a run exactly when all its steps meet the
condition. `A` is assumed of all steps, and `B` is a bound on the last state that no step
can bring about. -/
theorem throughout_iff_allSteps_of {step : σ → ε → Option σ} {A ok : σ → ε → Prop}
    {I P B : σ → Prop} {es : List ε} {s t : σ} (hP : ∀ s, I s → P s)
    (hB : ∀ s e s', step s e = some s' → B s' → B s)
    (hkeep : ∀ s e s', A s e → I s → ok s e → step s e = some s' → B s' → I s')
    (hbreak : ∀ s e s', A s e → I s → ¬ ok s e → step s e = some s' → B s' → ¬ P s')
    (hrun : run step s es = some t) (hA : AllSteps step A s es) (hI : I s) (ht : B t) :
    Throughout step P s es ↔ AllSteps step ok s es := by
  induction es generalizing s with
  | nil => exact throughout_nil.trans (iff_true_intro (hP s hI))
  | cons e es ih =>
      simp only [run_cons, Option.bind_eq_some_iff] at hrun
      obtain ⟨m, hm, hrun⟩ := hrun
      obtain ⟨hAe, hA⟩ := hA
      have hBm : B m := run_bound hB hrun ht
      rw [throughout_cons]
      constructor
      · rintro ⟨-, h⟩
        have hPm : P m := h m hm [] m List.nil_prefix rfl
        have hok : ok s e := by
          by_contra hnot
          exact hbreak s e m hAe hI hnot hm hBm hPm
        refine ⟨hok, fun s' hs => ?_⟩
        obtain rfl := Option.some.inj (hm.symm.trans hs)
        exact (ih hrun (hA m hm) (hkeep s e m hAe hI hok hm hBm)).mp (h m hm)
      · rintro ⟨hok, h⟩
        refine ⟨hP s hI, fun s' hs => ?_⟩
        obtain rfl := Option.some.inj (hm.symm.trans hs)
        exact (ih hrun (hA m hm) (hkeep s e m hAe hI hok hm hBm)).mpr (h m hm)

/-- The exactness rule where the assumption is one on the events. -/
theorem throughout_iff_allSteps {step : σ → ε → Option σ} {ok : σ → ε → Prop}
    {I P B : σ → Prop} {A : ε → Prop} {es : List ε} {s t : σ} (hP : ∀ s, I s → P s)
    (hB : ∀ s e s', step s e = some s' → B s' → B s)
    (hkeep : ∀ s e s', A e → I s → ok s e → step s e = some s' → B s' → I s')
    (hbreak : ∀ s e s', A e → I s → ¬ ok s e → step s e = some s' → B s' → ¬ P s')
    (hrun : run step s es = some t) (hA : ∀ e ∈ es, A e) (hI : I s) (ht : B t) :
    Throughout step P s es ↔ AllSteps step ok s es :=
  throughout_iff_allSteps_of hP hB hkeep hbreak hrun
    (allSteps_of_forall (fun e he _ => hA e he) s) hI ht

/-- **The exactness rule for what a step does.** Where the invariant holds, a step does what is
asked of it exactly when it meets the condition, and it then keeps the invariant; then all steps
of a run do what is asked exactly when all meet the condition. -/
theorem allSteps_iff_allSteps {step : σ → ε → Option σ} {P ok : σ → ε → Prop} {I : σ → Prop}
    (hiff : ∀ s e, I s → (P s e ↔ ok s e))
    (hkeep : ∀ s e s', I s → ok s e → step s e = some s' → I s') {es : List ε} {s : σ}
    (hI : I s) : AllSteps step P s es ↔ AllSteps step ok s es := by
  induction es generalizing s with
  | nil => exact Iff.rfl
  | cons e es ih =>
      constructor
      · rintro ⟨hP, h⟩
        have hok := (hiff s e hI).mp hP
        exact ⟨hok, fun s' hs => (ih (hkeep s e s' hI hok hs)).mp (h s' hs)⟩
      · rintro ⟨hok, h⟩
        exact ⟨(hiff s e hI).mpr hok, fun s' hs => (ih (hkeep s e s' hI hok hs)).mpr (h s' hs)⟩

end Library
