/-!
# Nested activations over a shared state

A call is entered, which answers it at once or starts a body. The body may make further calls
over the same state before it is left. Which calls those are is part of the call tree and may
depend on what the body was given, so that a tree stands for any behaviour of the bodies.

## Main results

* `runAll_rule`: a relation between states that entering and leaving keep to holds between the
  states before and after any calls, along with the marks that the calls make.
* `everywhereAll_imp`: what one condition says of a call, another says of every call in turn.
-/

namespace Library

/-- A call with the calls that its body makes. -/
inductive CallTree (α β : Type)
  | call (a : α) (nested : β → List (CallTree α β))

/-- How a single call goes: it is answered, or a body is started and left later on. -/
structure Caller (σ α β ρ μ : Type) where
  enter : α → σ → (ρ ⊕ β) × σ
  leave : β → σ → ρ × σ
  /-- What entering a call is marked with. -/
  mark : α → σ → List μ

variable {σ α β ρ μ : Type}

theorem CallTree.induct {P : CallTree α β → Prop}
    (call : ∀ a nested, (∀ b, ∀ t ∈ nested b, P t) → P (.call a nested)) (t : CallTree α β) :
    P t := by
  refine @CallTree.rec α β P (fun ts => ∀ t ∈ ts, P t) call ?_ ?_ t
  · intro t ht
    cases ht
  · intro t ts ht hts t' ht'
    cases ht' with
    | head => exact ht
    | tail _ hmem => exact hts t' hmem

namespace Caller

variable (c : Caller σ α β ρ μ)

mutual

/-- The answer to a call and the state after it. -/
def run : CallTree α β → σ → ρ × σ
  | .call a nested, s =>
      match c.enter a s with
      | (.inl r, s) => (r, s)
      | (.inr b, s) => c.leave b (runAll (nested b) s)

/-- The state after calls that are made one after the other. -/
def runAll : List (CallTree α β) → σ → σ
  | [], s => s
  | t :: ts, s => runAll ts (run t s).2

end

mutual

/-- The marks that a call and the calls inside it make. -/
def marks : CallTree α β → σ → List μ
  | .call a nested, s =>
      c.mark a s ++
        match c.enter a s with
        | (.inl _, _) => []
        | (.inr b, s) => marksAll (nested b) s

def marksAll : List (CallTree α β) → σ → List μ
  | [], _ => []
  | t :: ts, s => marks t s ++ marksAll ts (c.run t s).2

end

mutual

/-- A condition holds of a call and of all calls inside it, each in the state it meets. -/
def Everywhere (P : α → (β → List (CallTree α β)) → σ → Prop) : CallTree α β → σ → Prop
  | .call a nested, s =>
      P a nested s ∧
        match c.enter a s with
        | (.inl _, _) => True
        | (.inr b, s) => EverywhereAll P (nested b) s

def EverywhereAll (P : α → (β → List (CallTree α β)) → σ → Prop) :
    List (CallTree α β) → σ → Prop
  | [], _ => True
  | t :: ts, s => Everywhere P t s ∧ EverywhereAll P ts (c.run t s).2

end

/-- A relation between states, labelled with the marks made in between, that single steps keep
to from states with the invariant. -/
structure Keeps (I : σ → Prop) (R : List μ → σ → σ → Prop) : Prop where
  refl : ∀ s, I s → R [] s s
  trans : ∀ {l l' s s' s''}, R l s s' → R l' s' s'' → R (l ++ l') s s''
  enter : ∀ a s, I s → I (c.enter a s).2 ∧ R (c.mark a s) s (c.enter a s).2
  leave : ∀ a s b l s', I s → (c.enter a s).1 = .inr b → I s' → R l (c.enter a s).2 s' →
    I (c.leave b s').2 ∧ R [] s' (c.leave b s').2

variable {c} {I : σ → Prop} {R : List μ → σ → σ → Prop}

theorem runAll_rule_of {ts : List (CallTree α β)} (hrefl : ∀ s, I s → R [] s s)
    (htrans : ∀ {l l' s s' s''}, R l s s' → R l' s' s'' → R (l ++ l') s s'')
    (h : ∀ t ∈ ts, ∀ s, I s → I (c.run t s).2 ∧ R (c.marks t s) s (c.run t s).2) {s : σ} (hs : I s) :
    I (c.runAll ts s) ∧ R (c.marksAll ts s) s (c.runAll ts s) := by
  induction ts generalizing s with
  | nil =>
      rw [runAll, marksAll]
      exact ⟨hs, hrefl s hs⟩
  | cons t ts ih =>
      rw [runAll, marksAll]
      obtain ⟨hs', hR⟩ := h t List.mem_cons_self s hs
      obtain ⟨hs'', hR'⟩ := ih (fun t ht => h t (List.mem_cons_of_mem _ ht)) hs'
      exact ⟨hs'', htrans hR hR'⟩

/-- **The rule of calls.** -/
theorem run_rule (h : c.Keeps I R) (t : CallTree α β) {s : σ} (hs : I s) :
    I (c.run t s).2 ∧ R (c.marks t s) s (c.run t s).2 := by
  induction t using CallTree.induct generalizing s with
  | call a nested ih =>
      obtain ⟨hentered, henter⟩ := h.enter a s hs
      rw [run, marks]
      cases hstep : c.enter a s with
      | mk next s' =>
          rw [hstep] at hentered henter
          cases next with
          | inl r =>
              rw [List.append_nil]
              exact ⟨hentered, henter⟩
          | inr b =>
              obtain ⟨hbody, hR⟩ := runAll_rule_of h.refl h.trans (fun t ht s => ih b t ht) hentered
              have hnext : (c.enter a s).1 = .inr b := by rw [hstep]
              have hR' : R (c.marksAll (nested b) s') (c.enter a s).2
                  (c.runAll (nested b) s') := by
                rw [hstep]
                exact hR
              obtain ⟨hleft, hleave⟩ := h.leave a s b _ _ hs hnext hbody hR'
              refine ⟨hleft, ?_⟩
              have hlast := h.trans (h.trans henter hR) hleave
              rw [List.append_nil] at hlast
              exact hlast

theorem runAll_rule (h : c.Keeps I R) (ts : List (CallTree α β)) {s : σ} (hs : I s) :
    I (c.runAll ts s) ∧ R (c.marksAll ts s) s (c.runAll ts s) :=
  runAll_rule_of h.refl h.trans (fun t _ _ => run_rule h t) hs

theorem everywhereAll_imp_of {P Q : α → (β → List (CallTree α β)) → σ → Prop}
    {ts : List (CallTree α β)} (hrun : ∀ t s, I s → I (c.run t s).2)
    (h : ∀ t ∈ ts, ∀ s, I s → c.Everywhere P t s → c.Everywhere Q t s) {s : σ} (hs : I s)
    (hP : c.EverywhereAll P ts s) : c.EverywhereAll Q ts s := by
  induction ts generalizing s with
  | nil => trivial
  | cons t ts ih =>
      rw [EverywhereAll] at hP ⊢
      refine ⟨h t List.mem_cons_self s hs hP.1, ?_⟩
      exact ih (fun t ht => h t (List.mem_cons_of_mem _ ht)) (hrun t s hs) hP.2

/-- What one condition says of a call, another says of every call in turn. -/
theorem everywhere_imp {P Q : α → (β → List (CallTree α β)) → σ → Prop}
    (henter : ∀ a s, I s → I (c.enter a s).2) (hrun : ∀ t s, I s → I (c.run t s).2)
    (h : ∀ a nested s, I s → P a nested s → Q a nested s) (t : CallTree α β) {s : σ} (hs : I s)
    (hP : c.Everywhere P t s) : c.Everywhere Q t s := by
  induction t using CallTree.induct generalizing s with
  | call a nested ih =>
      rw [Everywhere] at hP ⊢
      refine ⟨h a nested s hs hP.1, ?_⟩
      have hentered := henter a s hs
      have hinner := hP.2
      cases hstep : c.enter a s with
      | mk next s' =>
          rw [hstep] at hentered hinner
          cases next with
          | inl r => trivial
          | inr b => exact everywhereAll_imp_of hrun (fun t ht s => ih b t ht) hentered hinner

theorem everywhereAll_imp {P Q : α → (β → List (CallTree α β)) → σ → Prop} (h : c.Keeps I R)
    (hPQ : ∀ a nested s, I s → P a nested s → Q a nested s) (ts : List (CallTree α β)) {s : σ}
    (hs : I s) (hP : c.EverywhereAll P ts s) : c.EverywhereAll Q ts s := by
  have hrun (t : CallTree α β) (s : σ) (hs : I s) : I (c.run t s).2 := (run_rule h t hs).1
  exact everywhereAll_imp_of hrun
    (fun t _ s => everywhere_imp (fun a s hs => (h.enter a s hs).1) hrun hPQ t) hs hP

end Caller

end Library
