import Mathlib.Algebra.GroupWithZero.Nat
import Mathlib.Data.Nat.Notation
import Mathlib.Logic.Function.Basic

/-!
# Stack code with forward branches

Code of a stack machine over any instructions `ι`, with labels that are branched to from
before. It is run by a single pass: a branch skips what comes before its label. Before it runs
it is checked, in a single pass as well: no instruction takes more values than there are, the
depths agree where branches meet, and the short branches reach their labels.

## Main results

* `exec_straight`, `exec_skip`: running over straight code, and skipping it.
* `check_straight`, `check_underflow`: the check of straight code, by what the instructions take
  and leave.
* `check_sound`: code that passes the check returns the values it should, or raises an
  exception, but does not run out of values or code.
-/

namespace Library

variable {ι φ : Type}

/-- An operation of the code. -/
inductive Op (ι : Type)
  | plain (i : ι)
  | brtrue (label : ℕ)
  | br (label : ℕ)
  | mark (label : ℕ)
  | ret
  deriving DecidableEq, Repr

/-- How a run ends: with `ret`, with an exception, or where no code or value is left. -/
inductive Exit (φ : Type)
  | returned (f : φ)
  | raised (f : φ)
  | stuck (f : φ)

/-- The frame at the end. -/
def Exit.frame : Exit φ → φ
  | .returned f | .raised f | .stuck f => f

/-- The frame after an instruction, whether it has raised an exception or not. -/
def frameOf : Except φ φ → φ
  | .ok f | .error f => f

/-- The meaning of the instructions over the frames `φ`: an instruction may raise an exception,
and a test takes a value from the stack, if there is one. -/
structure Sem (ι φ : Type) where
  step : ι → φ → Except φ φ
  test : φ → Option (Bool × φ)

namespace Sem

variable (m : Sem ι φ)

/-- Runs code. While a label is looked for, everything but that label is skipped. -/
def exec : List (Op ι) → Option ℕ → φ → Exit φ
  | [], _, f => .stuck f
  | .mark l :: c, skip, f => exec c (if skip = some l then none else skip) f
  | .plain i :: c, none, f =>
      match m.step i f with
      | .ok f => exec c none f
      | .error f => .raised f
  | .brtrue l :: c, none, f =>
      match m.test f with
      | some (b, f) => exec c (if b then some l else none) f
      | none => .stuck f
  | .br l :: c, none, f => exec c (some l) f
  | .ret :: _, none, f => .returned f
  | .plain _ :: c, some l, f => exec c (some l) f
  | .brtrue _ :: c, some l, f => exec c (some l) f
  | .br _ :: c, some l, f => exec c (some l) f
  | .ret :: c, some l, f => exec c (some l) f

/-- Runs straight code. -/
def steps : List ι → φ → Except φ φ
  | [], f => .ok f
  | i :: is, f =>
      match m.step i f with
      | .ok f => steps is f
      | .error f => .error f

variable {m}

@[simp] theorem exec_mark (l : ℕ) (c : List (Op ι)) (skip : Option ℕ) (f : φ) :
    m.exec (.mark l :: c) skip f = m.exec c (if skip = some l then none else skip) f := by rw [exec]

@[simp] theorem steps_nil (f : φ) : m.steps [] f = .ok f := by rw [steps]

theorem steps_cons {i : ι} {is : List ι} {f f' : φ} (h : m.step i f = .ok f') :
    m.steps (i :: is) f = m.steps is f' := by
  rw [steps, h]

theorem exec_straight {is : List ι} {c : List (Op ι)} {f f' : φ} (h : m.steps is f = .ok f') :
    m.exec (is.map .plain ++ c) none f = m.exec c none f' := by
  induction is generalizing f with
  | nil =>
      rw [steps_nil, Except.ok.injEq] at h
      rw [h, List.map_nil, List.nil_append]
  | cons i is ih =>
      rw [steps] at h
      rw [List.map_cons, List.cons_append, exec]
      cases hstep : m.step i f with
      | ok g =>
          rw [hstep] at h
          exact ih h
      | error g =>
          rw [hstep] at h
          cases h

/-- While a label is looked for, everything else is skipped. -/
theorem exec_cons_of_ne {op : Op ι} {c : List (Op ι)} {l : ℕ} {f : φ} (h : op ≠ .mark l) :
    m.exec (op :: c) (some l) f = m.exec c (some l) f := by
  cases op with
  | mark l' =>
      have hl : (some l : Option ℕ) ≠ some l' := fun hl => h (by rw [Option.some.inj hl])
      rw [exec_mark, if_neg hl]
  | _ => rfl

/-- Code without the label is skipped. -/
theorem exec_skip {c c' : List (Op ι)} {l : ℕ} {f : φ} (h : .mark l ∉ c) :
    m.exec (c ++ .mark l :: c') (some l) f = m.exec c' none f := by
  induction c with
  | nil => rw [List.nil_append, exec_mark, if_pos rfl]
  | cons op c ih =>
      have hop : op ≠ .mark l := fun hop => h (hop ▸ List.mem_cons_self)
      rw [List.cons_append, exec_cons_of_ne hop]
      exact ih fun hc => h (List.mem_cons_of_mem op hc)

/-- What every instruction keeps, exception or not, straight code keeps. -/
theorem steps_invariant {P : φ → Prop} {is : List ι} {f : φ}
    (h : ∀ i ∈ is, ∀ f, P f → P (frameOf (m.step i f))) (hf : P f) :
    P (frameOf (m.steps is f)) := by
  induction is generalizing f with
  | nil => exact hf
  | cons i is ih =>
      obtain ⟨hi, his⟩ := List.forall_mem_cons.mp h
      have hg := hi f hf
      rw [steps]
      cases hstep : m.step i f with
      | ok g =>
          rw [hstep] at hg
          exact ih his hg
      | error g =>
          rw [hstep] at hg
          exact hg

/-- Straight code up to `ret`. -/
theorem exec_ret (is : List ι) (c : List (Op ι)) (f : φ) :
    (m.exec (is.map .plain ++ .ret :: c) none f).frame = frameOf (m.steps is f) := by
  induction is generalizing f with
  | nil => rfl
  | cons i is ih =>
      rw [List.map_cons, List.cons_append, exec, steps]
      cases m.step i f with
      | ok g => exact ih g
      | error g => rfl

end Sem

/-! ### The check -/

section Check

variable (effect : ι → ℕ × ℕ) (size : ι → ℕ)

/-- The depth at a label, once it is known, may not change. -/
def joins (labels : ℕ → Option ℕ) (l d : ℕ) : Bool :=
  match labels l with
  | some d' => d == d'
  | none => true

/-- Checks the depth of the stack, which is `none` where no run comes to. `effect` says how many
values an instruction takes and leaves, and `out` how many `ret` takes. -/
def check (out : ℕ) : List (Op ι) → Option ℕ → (ℕ → Option ℕ) → Bool
  | [], depth, _ => depth.isNone
  | .mark l :: c, some d, labels => joins labels l d && check out c (some d) labels
  | .mark l :: c, none, labels => check out c (labels l) labels
  | .plain i :: c, some d, labels =>
      decide ((effect i).1 ≤ d) && check out c (some (d - (effect i).1 + (effect i).2)) labels
  | .brtrue l :: c, some d, labels =>
      decide (1 ≤ d) && joins labels l (d - 1) &&
        check out c (some (d - 1)) (Function.update labels l (some (d - 1)))
  | .br l :: c, some d, labels =>
      joins labels l d && check out c none (Function.update labels l (some d))
  | .ret :: c, some d, labels => d == out && check out c none labels
  | .plain _ :: c, none, labels => check out c none labels
  | .brtrue _ :: c, none, labels => check out c none labels
  | .br _ :: c, none, labels => check out c none labels
  | .ret :: c, none, labels => check out c none labels

/-- The depth after straight code, if nothing takes more values than there are. -/
def depthAfter : List ι → ℕ → Option ℕ
  | [], d => some d
  | i :: is, d => if (effect i).1 ≤ d then depthAfter is (d - (effect i).1 + (effect i).2) else none

/-- The bytes up to a label. -/
def distance (l : ℕ) : List (Op ι) → ℕ
  | [] => 0
  | .mark l' :: c => if l' = l then 0 else distance l c
  | .plain i :: c => size i + distance l c
  | .brtrue _ :: c => 2 + distance l c
  | .br _ :: c => 2 + distance l c
  | .ret :: c => 1 + distance l c

/-- The distance of every branch fits a signed byte. -/
def reaches : List (Op ι) → Bool
  | [] => true
  | .brtrue l :: c => decide (distance size l c ≤ 127) && reaches c
  | .br l :: c => decide (distance size l c ≤ 127) && reaches c
  | .mark _ :: c => reaches c
  | .plain _ :: c => reaches c
  | .ret :: c => reaches c

variable {effect size} {is : List ι} {c : List (Op ι)} {d d' out : ℕ} {labels : ℕ → Option ℕ}

@[simp] theorem distance_plain (l : ℕ) (i : ι) :
    distance size l (.plain i :: c) = size i + distance size l c := by rw [distance]

@[simp] theorem check_plain (i : ι) : check effect out (.plain i :: c) (some d) labels =
    (decide ((effect i).1 ≤ d) &&
      check effect out c (some (d - (effect i).1 + (effect i).2)) labels) := by rw [check]

@[simp] theorem depthAfter_cons (i : ι) : depthAfter effect (i :: is) d =
    if (effect i).1 ≤ d then depthAfter effect is (d - (effect i).1 + (effect i).2) else none := by
  rw [depthAfter]

theorem depthAfter_append {js : List ι} (h : depthAfter effect is d = some d') :
    depthAfter effect (is ++ js) d = depthAfter effect js d' := by
  induction is generalizing d with
  | nil =>
      obtain rfl := Option.some.inj h
      rfl
  | cons i is ih =>
      rw [depthAfter_cons] at h
      rw [List.cons_append, depthAfter_cons]
      split at h
      · rename_i hd
        rw [if_pos hd]
        exact ih h
      · cases h

theorem check_straight (h : depthAfter effect is d = some d') :
    check effect out (is.map .plain ++ c) (some d) labels =
      check effect out c (some d') labels := by
  induction is generalizing d with
  | nil =>
      obtain rfl := Option.some.inj h
      rfl
  | cons i is ih =>
      rw [depthAfter_cons] at h
      rw [List.map_cons, List.cons_append, check_plain]
      split at h
      · rename_i hd
        rw [decide_eq_true hd, Bool.true_and]
        exact ih h
      · cases h

theorem check_underflow (h : depthAfter effect is d = none) :
    check effect out (is.map .plain ++ c) (some d) labels = false := by
  induction is generalizing d with
  | nil => cases h
  | cons i is ih =>
      rw [depthAfter_cons] at h
      rw [List.map_cons, List.cons_append, check_plain]
      split at h
      · rw [ih h, Bool.and_false]
      · rename_i hd
        rw [decide_eq_false hd, Bool.false_and]

theorem distance_straight {l : ℕ} :
    distance size l (is.map .plain ++ c) = (is.map size).sum + distance size l c := by
  induction is with
  | nil => exact (Nat.zero_add _).symm
  | cons i is ih =>
      rw [List.map_cons, List.cons_append, distance_plain, ih, List.map_cons, List.sum_cons,
        Nat.add_assoc]

theorem reaches_straight : reaches size (is.map .plain ++ c) = reaches size c := by
  induction is with
  | nil => rfl
  | cons i is ih => exact ih

/-- Every branch has its label behind it. -/
def closed : List (Op ι) → Prop
  | [] => True
  | .brtrue l :: c => .mark l ∈ c ∧ closed c
  | .br l :: c => .mark l ∈ c ∧ closed c
  | .mark _ :: c => closed c
  | .plain _ :: c => closed c
  | .ret :: c => closed c

theorem closed_straight : closed (is.map .plain ++ c) ↔ closed c := by
  induction is with
  | nil => rfl
  | cons i is ih => exact ih

/-! ### Soundness of the check -/

variable {m : Sem ι φ} {depth : φ → ℕ}

/-- The instructions and the test take and leave as many values as is said of them. -/
structure Respects (m : Sem ι φ) (effect : ι → ℕ × ℕ) (depth : φ → ℕ) : Prop where
  step : ∀ i f g, (effect i).1 ≤ depth f → m.step i f = .ok g →
    depth g = depth f - (effect i).1 + (effect i).2
  test : ∀ f, 1 ≤ depth f → ∃ b g, m.test f = some (b, g) ∧ depth g = depth f - 1

/-- What a run that was checked ends with. -/
def Exit.Fits (depth : φ → ℕ) (out : ℕ) : Exit φ → Prop
  | .returned g => depth g = out
  | .raised _ => True
  | .stuck _ => False

/-- The depth that the check knows for a run: that of its frame, or while a label is looked
for, that of the label. -/
def Known (depth : φ → ℕ) (c : List (Op ι)) (d : Option ℕ) (labels : ℕ → Option ℕ) (f : φ) :
    Option ℕ → Prop
  | none => d = some (depth f)
  | some l => labels l = some (depth f) ∧ .mark l ∈ c

theorem eq_of_joins {l d d' : ℕ} (h : joins labels l d = true) (hl : labels l = some d') :
    d = d' := by
  rw [joins, hl] at h
  exact beq_iff_eq.mp h

/-- A label that is looked for keeps its depth when another branch, or one to the same label,
is met. -/
theorem update_of_joins {l l' d d' : ℕ} (h : joins labels l' d = true) (hl : labels l = some d') :
    Function.update labels l' (some d) l = some d' := by
  by_cases hll : l = l'
  · subst hll
    rw [Function.update_self, eq_of_joins h hl]
  · rw [Function.update_of_ne hll, hl]

theorem mem_of_mem_cons_ne {l : ℕ} {op : Op ι} (h : .mark l ∈ op :: c) (hop : op ≠ .mark l) :
    .mark l ∈ c := (List.mem_cons.mp h).resolve_left fun heq => hop heq.symm

theorem closed_of_cons {op : Op ι} (h : closed (op :: c)) : closed c := by
  cases op with
  | brtrue l => exact h.2
  | br l => exact h.2
  | _ => exact h

/-- The check of an operation that is skipped keeps the depth of the label that is looked for. -/
theorem check_of_cons_ne {op : Op ι} {depth : Option ℕ} {l k : ℕ}
    (h : check effect out (op :: c) depth labels = true) (hl : labels l = some k)
    (hop : op ≠ .mark l) :
    ∃ depth' labels', check effect out c depth' labels' = true ∧ labels' l = some k := by
  cases depth with
  | none => cases op <;> exact ⟨_, _, h, hl⟩
  | some d =>
      cases op with
      | brtrue l' =>
          rw [check, Bool.and_eq_true, Bool.and_eq_true] at h
          exact ⟨_, _, h.2, update_of_joins h.1.2 hl⟩
      | br l' =>
          rw [check, Bool.and_eq_true] at h
          exact ⟨_, _, h.2, update_of_joins h.1 hl⟩
      | _ =>
          rw [check, Bool.and_eq_true] at h
          exact ⟨_, _, h.2, hl⟩

/-- At the label that is looked for the check goes on with its depth. -/
theorem check_of_mark {depth : Option ℕ} {l k : ℕ}
    (h : check effect out (.mark l :: c) depth labels = true) (hl : labels l = some k) :
    check effect out c (some k) labels = true := by
  cases depth with
  | none =>
      rw [check, hl] at h
      exact h
  | some d =>
      rw [check, Bool.and_eq_true] at h
      rw [← eq_of_joins h.1 hl]
      exact h.2

/-- **The check is sound.** -/
theorem check_sound (hm : Respects m effect depth) {d : Option ℕ} {skip : Option ℕ} {f : φ}
    (hcheck : check effect out c d labels = true) (hclosed : closed c)
    (hknown : Known depth c d labels f skip) : (m.exec c skip f).Fits depth out := by
  induction c generalizing d labels skip f with
  | nil =>
      cases skip with
      | none =>
          obtain rfl : d = _ := hknown
          cases hcheck
      | some l => cases hknown.2
  | cons op c ih =>
      have hrest := closed_of_cons hclosed
      cases skip with
      | some l =>
          obtain ⟨hl, hmem⟩ := hknown
          by_cases hop : op = .mark l
          · subst hop
            rw [Sem.exec_mark, if_pos rfl]
            exact ih (check_of_mark hcheck hl) hrest rfl
          · obtain ⟨d', labels', hcheck', hl'⟩ := check_of_cons_ne hcheck hl hop
            rw [Sem.exec_cons_of_ne hop]
            exact ih hcheck' hrest ⟨hl', mem_of_mem_cons_ne hmem hop⟩
      | none =>
          obtain rfl : d = _ := hknown
          cases op with
          | plain i =>
              rw [check_plain, Bool.and_eq_true, decide_eq_true_eq] at hcheck
              rw [Sem.exec]
              cases hstep : m.step i f with
              | ok g => exact ih hcheck.2 hrest (by rw [Known, hm.step i f g hcheck.1 hstep])
              | error g => trivial
          | brtrue l =>
              rw [check, Bool.and_eq_true, Bool.and_eq_true, decide_eq_true_eq] at hcheck
              obtain ⟨b, g, htest, hdepth⟩ := hm.test f hcheck.1.1
              simp only [Sem.exec, htest]
              cases b with
              | true =>
                  refine ih hcheck.2 hrest ⟨?_, hclosed.1⟩
                  rw [Function.update_self, hdepth]
              | false =>
                  refine ih hcheck.2 hrest ?_
                  rw [← hdepth]
                  rfl
          | br l =>
              rw [check, Bool.and_eq_true] at hcheck
              exact ih hcheck.2 hrest ⟨Function.update_self .., hclosed.1⟩
          | mark l =>
              rw [check, Bool.and_eq_true] at hcheck
              exact ih hcheck.2 hrest rfl
          | ret =>
              rw [check, Bool.and_eq_true] at hcheck
              exact beq_iff_eq.mp hcheck.1

end Check

end Library
