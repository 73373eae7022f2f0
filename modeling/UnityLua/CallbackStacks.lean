import Mathlib.Logic.Function.Basic
import Mathlib.Data.List.Infix
import UnityLua.MethodWrapper

/-!
# The stacks of a callback

A state and its coroutines have a stack each and share a translator. `LuaMethodWrapper.call` is
called on one of them, which it passes on to nearly everything that it does. What does not get it
takes the state of an interpreter: `SetPendingException` and the enumeration of a table that of the
translator, and a `LuaFunction` without a reference the one that it was made with.

## Main results

* `framed_iff_answersOn`: what a result does to the other stacks.
* `framed_iff_staysOn`: exactly which calls keep to the state that they were called on.
-/

namespace UnityLua

variable {N Obj : Type}

/-- A stack slot: what Lua put there, or what is pushed from C#. -/
inductive StackSlot (N Obj : Type)
  | lua (v : LuaValue N)
  | clr (v : Option (ClrValue N Obj))
  | error (e : LuaError)

/-- The states of a translator, by their handles, which are numbers. -/
structure States (N Obj : Type) where
  /-- `translator.interpreter.L`. -/
  interpreter : ℕ
  /-- `_Interpreter.L` of a `LuaFunction` made of a `LuaCSFunction`; `none` of anything else. -/
  functionHome : Obj → Option ℕ
  /-- The key without a CLR value at which `GetTableDict` of a table ends, and its value. -/
  stuckAt : LuaValue N → LuaValue N × LuaValue N

/-- The stacks, top first, the state on which an error was raised, and whether an exception left
the callback. -/
structure Stacks (N Obj : Type) where
  stack : ℕ → List (StackSlot N Obj)
  raised : Option ℕ
  escaped : Bool

namespace Stacks

/-- A slot on top of the stack of a state. -/
def onto (s : Stacks N Obj) (l : ℕ) (x : StackSlot N Obj) : Stacks N Obj :=
  { s with stack := Function.update s.stack l (x :: s.stack l) }

/-- `throwError`, on a state: the exception is pushed and raised. -/
def ThrowError (s : Stacks N Obj) (l : ℕ) (e : LuaError) : Stacks N Obj :=
  { s.onto l (.error e) with raised := some l }

variable (states : States N Obj)

/-- `SetPendingException`, of an exception that is not `null`. -/
def SetPendingException (s : Stacks N Obj) (e : LuaError) : Stacks N Obj :=
  s.ThrowError states.interpreter e

/-- Where `push(luaState, v)` puts its slot. -/
def home (l : ℕ) : Option (ClrValue N Obj) → ℕ
  | some (.object o) => (states.functionHome o).getD l
  | _ => l

/-- `ObjectTranslator.push(luaState, v)`. -/
def push (l : ℕ) (s : Stacks N Obj) (v : Option (ClrValue N Obj)) : Stacks N Obj :=
  s.onto (home states l v) (.clr v)

/-- What an enumeration that fails leaves behind: the table, the key and the value. -/
def leaveBehind (s : Stacks N Obj) (table : LuaValue N) : Stacks N Obj :=
  ((s.onto states.interpreter (.lua table)).onto states.interpreter
    (.lua (states.stuckAt table).1)).onto states.interpreter (.lua (states.stuckAt table).2)

/-- How the result of a call comes about: the values are pushed, messages are thrown on the state
of the call, and exceptions go through `SetPendingException` or leave the callback. -/
def answer (l : ℕ) (s : Stacks N Obj) : CallResult N Obj → Stacks N Obj
  | .values vs => vs.foldl (push states l) s
  | .error (.message m) => s.ThrowError l (.message m)
  | .error (.exception e) => SetPendingException states s (.exception e)
  | .exception _ => { s with escaped := true }

end Stacks

/-- The table, if any, whose enumeration ends the conversion of an argument. -/
def MethodArgs.stuck (env : LuaEnv N Obj) (a : MethodArgs) (slot : LuaValue N) :
    Option (LuaValue N) :=
  match a.isParamsArray, (a.extractValue.extract env slot).1 with
  | true, .ok (some (.luaTable table)) =>
      match env.tableValues table with
      | .error _ => some table
      | .ok _ => none
  | _, _ => none

/-- The table whose enumeration ends the fast path. The conversions go as in `fastArgs`. -/
def fastStuck (env : LuaEnv N Obj) :
    List MethodArgs → List (LuaValue N) → Option (LuaValue N)
  | type :: types, slot :: slots =>
      match type.stuck env slot with
      | some table => some table
      | none =>
          match type.convert env slot with
          | (.error _, _) => none
          | (.ok v, slot) =>
              if v.isNone ∧ slot.luaType ≠ .LUA_TNIL then none else fastStuck env types slots
  | _, _ => none

namespace LuaMethodWrapper

/-- The table whose enumeration is cut off in a call that goes on after it: only the fast path
catches the exception. -/
def stuckTable (env : CallEnv N Obj) (w : LuaMethodWrapper N Obj)
    (cache : Option (MethodCache N Obj)) (slots : List (LuaValue N)) : Option (LuaValue N) :=
  match w.method, w.receiver env slots, cache with
  | none, .ok _, some c =>
      if w.numArgsPassed slots = c.argTypes.length then
        fastStuck env.toLuaEnv c.argTypes (w.arguments slots)
      else none
  | _, _, _ => none

/-- `call` on a state, of whose slots `rest` are left when the answer is given. -/
def callOn (env : CallEnv N Obj) (states : States N Obj) (w : LuaMethodWrapper N Obj)
    (cache : Option (MethodCache N Obj)) (slots : List (LuaValue N)) (l : ℕ)
    (stack : ℕ → List (StackSlot N Obj)) (rest : List (StackSlot N Obj)) : Stacks N Obj :=
  let s : Stacks N Obj :=
    { stack := Function.update stack l rest, raised := none, escaped := false }
  let s := ((w.stuckTable env cache slots).map (s.leaveBehind states)).getD s
  s.answer states l (w.call env cache slots).1.result

end LuaMethodWrapper

/-- The callback kept to the state `l`: the other stacks are as before, and the results are on the
stack of `l`, or an error was raised on it. -/
structure Framed (l : ℕ) (stack : ℕ → List (StackSlot N Obj)) (result : CallResult N Obj)
    (s : Stacks N Obj) : Prop where
  others : ∀ l', l' ≠ l → s.stack l' = stack l'
  answers : s.escaped = false ∧
    match result with
    | .values vs => (vs.map StackSlot.clr).reverse <+: s.stack l
    | _ => s.raised = some l

/-! ### Which calls keep to their state -/

section StaysOn

variable (env : CallEnv N Obj) (states : States N Obj) (l : ℕ)

/-- The method that was matched returns nothing that belongs to another state, or its exception is
raised on this one. -/
def InvokesOn (isStatic : Bool) (target : Option (ClrValue N Obj)) (c : MethodCache N Obj) : Prop :=
  match env.invoke c.cachedMethod (if isStatic || c.cachedMethod.isConstructor then none else target)
      (inputs c.cachedMethod.parameters c.args) with
  | .returned value parameters =>
      ∀ v ∈ returnValues
          { c with args := writeBack parameters 0 c.cachedMethod.parameters c.args } value,
        Stacks.home states l v = l
  | _ => states.interpreter = l

/-- Behind a cache miss: the conversions throw nothing, and what matches keeps to the state. -/
def SlowOn (w : LuaMethodWrapper N Obj) (target : Option (ClrValue N Obj))
    (args : List (LuaValue N)) : Prop :=
  w.isStatic = false ∧ target.isNone ∨
    match matchMembers env.toLuaEnv w.members args with
    | .error _ => False
    | .ok (none, _) => True
    | .ok (some c, _) => InvokesOn env states l w.isStatic target c

/-- The rest of a fast path that failed. -/
def MissOn (w : LuaMethodWrapper N Obj) (target : Option (ClrValue N Obj))
    (args : List (LuaValue N)) : Prop :=
  if w.members.length = 1 then states.interpreter = l else SlowOn env states l w target args

/-- The fast path. -/
def FastOn (w : LuaMethodWrapper N Obj) (c : MethodCache N Obj) (target : Option (ClrValue N Obj))
    (args : List (LuaValue N)) : Prop :=
  match fastArgs env.toLuaEnv 0 c.argTypes args c.args with
  | (some _, args, _) => MissOn env states l w target args
  | (none, args, converted) =>
      match env.invoke c.cachedMethod
          (if w.isStatic || c.cachedMethod.isConstructor then none else target)
          (inputs c.cachedMethod.parameters converted) with
      | .refused _ => MissOn env states l w target args
      | _ => InvokesOn env states l w.isStatic target { c with args := converted }

/-- A call by name. -/
def NameOn (w : LuaMethodWrapper N Obj) (cache : Option (MethodCache N Obj))
    (slots : List (LuaValue N)) : Prop :=
  match w.receiver env slots, cache with
  | .error _, _ => False
  | .ok target, none => SlowOn env states l w target (w.arguments slots)
  | .ok target, some c =>
      if w.numArgsPassed slots = c.argTypes.length then
        FastOn env states l w c target (w.arguments slots)
      else SlowOn env states l w target (w.arguments slots)

/-- A call of an open generic method: nothing around it catches an exception. -/
def GenericOn (w : LuaMethodWrapper N Obj) (m : MethodBase N Obj)
    (cache : Option (MethodCache N Obj)) (slots : List (LuaValue N)) : Prop :=
  match matchParameters env.toLuaEnv slots m with
  | .error _ => False
  | .ok (found, _) =>
      m.isGenericMethodDefinition = true →
        ∃ c concreteMethod value parameters, found.or cache = some c ∧
          typeArgs env c.args >>= env.makeGenericMethod m = .ok concreteMethod ∧
          env.invoke concreteMethod w.target (inputs m.parameters c.args) =
            .returned value parameters ∧
          ∀ v ∈ returnValues { c with args := writeBack parameters 0 m.parameters c.args } value,
            Stacks.home states l v = l

/-- A call of any other given method. -/
def MethodOn (w : LuaMethodWrapper N Obj) (m : MethodBase N Obj) (slots : List (LuaValue N)) :
    Prop :=
  let (target, args) :=
    if m.isStatic = false ∧ m.isConstructor = false ∧ w.target.isNone then
      ((w.extractTarget.extract env.toLuaEnv (slots.headD .nil)).1, slots.tail)
    else (.ok w.target, slots)
  match target with
  | .error _ => False
  | .ok target =>
      match matchParameters env.toLuaEnv args m with
      | .error _ => False
      | .ok (none, _) => True
      | .ok (some c, _) => InvokesOn env states l w.isStatic target c

/-- The condition on a call: an exception that goes through the translator meets its interpreter on
this state, no exception leaves the callback, and no function that belongs to another state is
among the results. -/
def StaysOn (w : LuaMethodWrapper N Obj) (cache : Option (MethodCache N Obj))
    (slots : List (LuaValue N)) : Prop :=
  ((w.stuckTable env cache slots).isSome → states.interpreter = l) ∧
    match w.method with
    | none => NameOn env states l w cache slots
    | some m =>
        if m.containsGenericParameters then GenericOn env states l w m cache slots
        else MethodOn env states l w m slots

end StaysOn

/-! ### Results and stacks -/

section Answers

variable {env : CallEnv N Obj} {states : States N Obj} {l l' : ℕ} {s : Stacks N Obj}
  {result : CallResult N Obj} {vs : List (Option (ClrValue N Obj))}

open Stacks

/-- A result comes about on the state `l` alone. -/
def AnswersOn (states : States N Obj) (l : ℕ) : CallResult N Obj → Prop
  | .values vs => ∀ v ∈ vs, home states l v = l
  | .error (.message _) => True
  | .error (.exception _) => states.interpreter = l
  | .exception _ => False

/-- The values on each stack. -/
theorem stack_pushes :
    (vs.foldl (push states l) s).stack l' =
      ((vs.filter fun v => home states l v = l').map StackSlot.clr).reverse ++ s.stack l' := by
  induction vs generalizing s with
  | nil => rfl
  | cons v vs ih =>
      rw [List.foldl_cons, ih]
      by_cases hv : home states l v = l'
      · subst hv
        simp [push, onto]
      · have hv' : l' ≠ home states l v := fun heq => hv heq.symm
        simp [push, onto, hv, Function.update_of_ne hv']

theorem raised_pushes : (vs.foldl (push states l) s).raised = s.raised ∧
    (vs.foldl (push states l) s).escaped = s.escaped := by
  induction vs generalizing s with
  | nil => exact ⟨rfl, rfl⟩
  | cons v vs ih => exact ih

theorem stack_onto_of_ne {x : StackSlot N Obj} (h : l' ≠ l) : (s.onto l x).stack l' = s.stack l' :=
  Function.update_of_ne h ..

@[simp] theorem stack_onto_self {x : StackSlot N Obj} : (s.onto l x).stack l = x :: s.stack l :=
  Function.update_self ..

/-- No stack gets shorter. -/
theorem length_answer (states : States N Obj) (l l' : ℕ) (s : Stacks N Obj)
    (result : CallResult N Obj) :
    (s.stack l').length ≤ ((s.answer states l result).stack l').length := by
  have honto : ∀ (m : ℕ) (x : StackSlot N Obj),
      (s.stack l').length ≤ ((s.onto m x).stack l').length := by
    intro m x
    by_cases hm : l' = m
    · subst hm
      simp
    · rw [stack_onto_of_ne hm]
  match result with
  | .values vs =>
      rw [answer, stack_pushes, List.length_append]
      omega
  | .error (.message m) => exact honto l _
  | .error (.exception e) => exact honto states.interpreter _
  | .exception e => exact le_refl _

/-- **What a result does to the stacks.** -/
theorem framed_iff_answersOn {stack : ℕ → List (StackSlot N Obj)} (hs : s.escaped = false)
    (hstack : ∀ l', l' ≠ l → s.stack l' = stack l') :
    Framed l stack result (s.answer states l result) ↔ AnswersOn states l result := by
  match result with
  | .values vs =>
      constructor
      · intro hframed v hv
        by_contra hne
        have hother := hframed.others _ hne
        rw [answer, stack_pushes, hstack _ hne, List.append_left_eq_self, List.reverse_eq_nil_iff,
          List.map_eq_nil_iff, List.filter_eq_nil_iff] at hother
        exact hother v hv (by simp)
      · intro hhome
        have hall : vs.filter (fun v => home states l v = l) = vs :=
          List.filter_eq_self.mpr fun v hv => by simpa using hhome v hv
        refine ⟨fun l' hl' => ?_, ?_, ?_⟩
        · have hnone : vs.filter (fun v => home states l v = l') = [] :=
            List.filter_eq_nil_iff.mpr fun v hv => by simpa [hhome v hv] using hl'.symm
          rw [answer, stack_pushes, hnone, ← hstack l' hl']
          rfl
        · rw [answer, raised_pushes.2, hs]
        · dsimp only
          rw [answer, stack_pushes, hall]
          exact List.prefix_append _ _
  | .error (.message m) =>
      refine iff_of_true ⟨fun l' hl' => ?_, hs, rfl⟩ trivial
      exact (stack_onto_of_ne hl').trans (hstack l' hl')
  | .error (.exception e) =>
      constructor
      · intro hframed
        exact Option.some.inj hframed.answers.2
      · rintro rfl
        exact ⟨fun l' hl' => (stack_onto_of_ne hl').trans (hstack l' hl'), hs, rfl⟩
  | .exception e =>
      refine iff_of_false (fun hframed => ?_) id
      exact absurd hframed.answers.1 (by simp [answer])

theorem stack_leaveBehind_of_ne {table : LuaValue N} (h : l' ≠ states.interpreter) :
    (s.leaveBehind states table).stack l' = s.stack l' := by
  rw [leaveBehind, stack_onto_of_ne h, stack_onto_of_ne h, stack_onto_of_ne h]

theorem length_leaveBehind {table : LuaValue N} :
    ((s.leaveBehind states table).stack states.interpreter).length =
      (s.stack states.interpreter).length + 3 := by
  rw [leaveBehind, stack_onto_self, stack_onto_self, stack_onto_self]
  rfl

variable {w : LuaMethodWrapper N Obj} {cache : Option (MethodCache N Obj)}
  {slots : List (LuaValue N)} {stack : ℕ → List (StackSlot N Obj)} {rest : List (StackSlot N Obj)}

/-- A call, with the enumeration that it may leave unfinished. -/
theorem framed_callOn :
    Framed l stack (w.call env cache slots).1.result (w.callOn env states cache slots l stack rest) ↔
      ((w.stuckTable env cache slots).isSome → states.interpreter = l) ∧
        AnswersOn states l (w.call env cache slots).1.result := by
  have hfirst : ∀ l', l' ≠ l → Function.update stack l rest l' = stack l' :=
    fun l' hl' => Function.update_of_ne hl' ..
  unfold LuaMethodWrapper.callOn
  cases hstuck : w.stuckTable env cache slots with
  | none => exact (framed_iff_answersOn rfl hfirst).trans (by simp)
  | some table =>
      by_cases hl : states.interpreter = l
      · refine (framed_iff_answersOn rfl fun l' hl' => ?_).trans (by simp [hl])
        exact (stack_leaveBehind_of_ne (hl ▸ hl')).trans (hfirst l' hl')
      · refine iff_of_false (fun hframed => ?_) fun hcond => hl (hcond.1 rfl)
        have hother := congrArg List.length (hframed.others states.interpreter hl)
        have hanswer := length_answer states l states.interpreter
          (Stacks.leaveBehind states ⟨Function.update stack l rest, none, false⟩ table)
          (w.call env cache slots).1.result
        rw [length_leaveBehind] at hanswer
        dsimp only [Option.map_some, Option.getD_some] at hother hanswer
        rw [hfirst _ hl] at hanswer
        omega

/-! ### The branches of a call -/

theorem answersOn_invokeCached {isStatic : Bool} {target : Option (ClrValue N Obj)}
    {c c' : MethodCache N Obj} {o : Outcome N Obj}
    (h : invokeCached env isStatic target c = .ok (o, c')) :
    AnswersOn states l o.result ↔ InvokesOn env states l isStatic target c := by
  unfold invokeCached at h
  unfold InvokesOn
  dsimp only at h
  split at h
  · next hinvoke =>
    rw [hinvoke]
    obtain ⟨rfl, -⟩ := Prod.mk.inj (Except.ok.inj h)
    exact Iff.rfl
  · next hinvoke =>
    rw [hinvoke]
    obtain ⟨rfl, -⟩ := Prod.mk.inj (Except.ok.inj h)
    exact Iff.rfl
  · cases h

theorem invokesOn_of_error {isStatic : Bool} {target : Option (ClrValue N Obj)}
    {c : MethodCache N Obj} {e : Exn} (h : invokeCached env isStatic target c = .error e) :
    InvokesOn env states l isStatic target c ↔ states.interpreter = l := by
  unfold invokeCached at h
  unfold InvokesOn
  dsimp only at h
  split at h
  · cases h
  · cases h
  · next hinvoke => rw [hinvoke]

theorem answersOn_invokeMatched {isStatic : Bool} {target : Option (ClrValue N Obj)}
    {c : MethodCache N Obj} :
    AnswersOn states l (invokeMatched env isStatic target c).1.result ↔
      InvokesOn env states l isStatic target c := by
  unfold invokeMatched
  split
  · next h => exact answersOn_invokeCached h
  · next h => exact (invokesOn_of_error h).symm

theorem answersOn_slowPath {target : Option (ClrValue N Obj)} {args : List (LuaValue N)} :
    AnswersOn states l (slowPath env w cache target args).1.result ↔
      SlowOn env states l w target args := by
  unfold slowPath SlowOn
  split
  · next h => exact iff_of_true trivial (Or.inl h)
  · next h =>
    rw [or_iff_right h]
    rcases matchMembers env.toLuaEnv w.members args with e | ⟨_ | c, args'⟩
    · exact Iff.rfl
    · exact Iff.rfl
    · exact answersOn_invokeMatched

theorem answersOn_miss {c : MethodCache N Obj} {e : Exn} {target : Option (ClrValue N Obj)}
    {args : List (LuaValue N)} :
    AnswersOn states l (if w.members.length = 1 then
        (⟨[], .error (.exception e)⟩, some c)
      else slowPath env w (some c) target args).1.result ↔
      MissOn env states l w target args := by
  unfold MissOn
  split
  · exact Iff.rfl
  · exact answersOn_slowPath

theorem answersOn_fastPath {c : MethodCache N Obj} {target : Option (ClrValue N Obj)}
    {args : List (LuaValue N)} :
    AnswersOn states l (fastPath env w c target args).1.result ↔
      FastOn env states l w c target args := by
  unfold fastPath tryCached FastOn
  rcases fastArgs env.toLuaEnv 0 c.argTypes args c.args with ⟨_ | e, args', converted⟩
  · dsimp only
    cases hinvoked : invokeCached env w.isStatic target { c with args := converted } with
    | ok r =>
        refine (answersOn_invokeCached hinvoked).trans ?_
        unfold invokeCached at hinvoked
        dsimp only at hinvoked
        split
        · next hrefused =>
          rw [hrefused] at hinvoked
          cases hinvoked
        · exact Iff.rfl
    | error e =>
        unfold invokeCached at hinvoked
        dsimp only at hinvoked
        split at hinvoked
        · cases hinvoked
        · cases hinvoked
        · next hrefused =>
          rw [hrefused]
          exact answersOn_miss
  · exact answersOn_miss

theorem answersOn_callByName :
    AnswersOn states l (callByName env w cache slots).1.result ↔
      NameOn env states l w cache slots := by
  unfold callByName NameOn
  cases w.receiver env slots with
  | error e => exact Iff.rfl
  | ok target =>
      cases cache with
      | none => exact answersOn_slowPath
      | some c =>
          dsimp only
          split
          · exact answersOn_fastPath
          · exact answersOn_slowPath

theorem answersOn_callGeneric {m : MethodBase N Obj} :
    AnswersOn states l (callGeneric env w m cache slots).1.result ↔
      GenericOn env states l w m cache slots := by
  unfold callGeneric GenericOn
  rcases matchParameters env.toLuaEnv slots m with e | ⟨found, args'⟩
  · exact Iff.rfl
  · dsimp only
    by_cases hgeneric : m.isGenericMethodDefinition = true
    · rw [if_pos hgeneric, forall_prop_of_true hgeneric]
      cases found.or cache with
      | none => exact iff_of_false id (by simp)
      | some c =>
          dsimp only
          cases htypes : typeArgs env c.args >>= env.makeGenericMethod m with
          | error e =>
              refine iff_of_false id ?_
              rintro ⟨c', concreteMethod, value, parameters, hc, hok, -⟩
              obtain rfl := Option.some.inj hc
              cases htypes.symm.trans hok
          | ok concreteMethod =>
              dsimp only
              constructor
              · intro hanswers
                split at hanswers
                · next value parameters hinvoke =>
                  exact ⟨c, concreteMethod, value, parameters, rfl, htypes, hinvoke, hanswers⟩
                · exact hanswers.elim
                · exact hanswers.elim
              · rintro ⟨c', concreteMethod', value, parameters, hc, hok, hinvoke, hhome⟩
                obtain rfl := Option.some.inj hc
                obtain rfl := Except.ok.inj (htypes.symm.trans hok)
                rw [hinvoke]
                exact hhome
    · rw [if_neg hgeneric]
      exact iff_of_true trivial fun h => absurd h hgeneric

theorem answersOn_callMethod {m : MethodBase N Obj} :
    AnswersOn states l (callMethod env w m cache slots).1.result ↔
      MethodOn env states l w m slots := by
  unfold callMethod MethodOn
  generalize (if m.isStatic = false ∧ m.isConstructor = false ∧ w.target.isNone then
      ((w.extractTarget.extract env.toLuaEnv (slots.headD .nil)).1, slots.tail)
    else (.ok w.target, slots)) = receiver
  obtain ⟨e | target, args⟩ := receiver
  · exact Iff.rfl
  · dsimp only
    rcases matchParameters env.toLuaEnv args m with e | ⟨_ | c, args'⟩
    · exact Iff.rfl
    · exact Iff.rfl
    · exact answersOn_invokeMatched

/-- **A callback keeps to the state that it was called on exactly** when no exception of it goes
through the interpreter of another state or leaves it, and nothing that it pushes belongs to
another state. -/
theorem framed_iff_staysOn (env : CallEnv N Obj) (states : States N Obj)
    (w : LuaMethodWrapper N Obj) (cache : Option (MethodCache N Obj)) (slots : List (LuaValue N))
    (l : ℕ) (stack : ℕ → List (StackSlot N Obj)) (rest : List (StackSlot N Obj)) :
    Framed l stack (w.call env cache slots).1.result
        (w.callOn env states cache slots l stack rest) ↔
      StaysOn env states l w cache slots := by
  refine framed_callOn.trans (and_congr_right fun _ => ?_)
  unfold LuaMethodWrapper.call
  cases w.method with
  | none => exact answersOn_callByName
  | some m =>
      dsimp only
      split
      · exact answersOn_callGeneric
      · exact answersOn_callMethod

end Answers

/-! ### A method that throws -/

/-- Every method throws. -/
def throwingEnv : CallEnv ℤ ℕ where
  toLuaEnv := LuaEnv.plain
  invoke _ _ _ := .threw 0
  getType _ := .object
  makeGenericMethod m _ := .ok m

/-- A static method without parameters. -/
def noParameters : LuaMethodWrapper ℤ ℕ where
  method := none
  members := [{ id := 0, name := "f", reflectedType := "T", parameters := [], isStatic := true }]
  methodName := "f"
  target := none
  extractTarget := .getAsNetObject
  isStatic := true

/-- The interpreter of the translator is a coroutine. -/
def onCoroutine : States ℤ ℕ where
  interpreter := 1
  functionHome _ := none
  stuckAt _ := (.nil, .nil)

/-- A call on the state itself raises its error on the coroutine. -/
theorem framed_fails :
    (noParameters.callOn throwingEnv onCoroutine none [] 0 (fun _ => []) []).raised = some 1 ∧
      ¬ Framed 0 (fun _ => []) (noParameters.call throwingEnv none []).1.result
        (noParameters.callOn throwingEnv onCoroutine none [] 0 (fun _ => []) []) := by
  refine ⟨rfl, fun hframed => ?_⟩
  have hraised : some 1 = some 0 := hframed.answers.2
  cases hraised

end UnityLua
