import UnityLua.Library.Arena
import UnityLua.GenerateMethod

/-!
# What an override does

The code that `GenerateMethod` emits, from the check to the calls that it makes.

## Main results

* `compiles_eq`: the code of an override passes the check exactly when the method is abstract,
  or returns a value and has less than twenty parameters.
* `fits_override`: an override that passes the check returns what its method returns, or raises
  an exception.
* `exec_of_function`: with a function in the table, the function is called with the table in
  front of the arguments.
* `exec_of_no_function`: without one, the base method is called.
-/

namespace UnityLua

open Library

variable {N Obj : Type} {method : MethodInfo} {i d : ℕ}

/-! ### The check -/

theorem depthAfter_storeArg (p : Parameter) (i j k : ℕ) :
    depthAfter Instr.effect (p.storeArg i j k) 0 = some 0 := by
  rw [Parameter.storeArg, Parameter.toObject]
  cases p.isByRef with
  | true =>
      cases p.parameterType.elementType.isValueType with
      | true => cases p.isInArg <;> rfl
      | false => cases p.isInArg <;> rfl
  | false =>
      cases p.parameterType.isValueType with
      | true => cases p.isInArg <;> rfl
      | false => cases p.isInArg <;> rfl

theorem depthAfter_storeArgs (ps : List Parameter) (i j k : ℕ) :
    depthAfter Instr.effect (Parameter.storeArgs ps i j k) 0 = some 0 := by
  induction ps generalizing i j k with
  | nil => rfl
  | cons p ps ih =>
      rw [Parameter.storeArgs, depthAfter_append (depthAfter_storeArg p i j k)]
      exact ih _ _ _

theorem depthAfter_setRefs (ps : List Parameter) (i : ℕ) :
    depthAfter Instr.effect (Parameter.setRefs ps i) 0 = some 0 := by
  induction ps generalizing i with
  | nil => rfl
  | cons p ps ih =>
      have hp : depthAfter Instr.effect (if p.isByRef then p.setRef i else []) 0 = some 0 := by
        rw [Parameter.setRef]
        cases p.isByRef with
        | true => cases p.parameterType.elementType.isValueType <;> rfl
        | false => rfl
      rw [Parameter.setRefs, depthAfter_append hp]
      exact ih _

theorem depthAfter_ldargs (is : List ℕ) (d : ℕ) :
    depthAfter Instr.effect (is.map .Ldarg) d = some (d + is.length) := by
  induction is generalizing d with
  | nil => rfl
  | cons i is ih =>
      rw [List.map_cons, depthAfter]
      simp only [Instr.effect, Nat.zero_le, if_true, Nat.sub_zero]
      rw [ih (d + 1), List.length_cons, Nat.add_assoc, Nat.add_comm 1]

/-- The call of the base method leaves its value. -/
theorem depthAfter_callMethod :
    depthAfter Instr.effect
      ([Instr.Ldarg_0] ++ (List.range method.parameters.length).map .Ldarg ++
        [Instr.CallMethod method]) 0 =
        some (if method.isVoid then 0 else 1) := by
  have hargs : depthAfter Instr.effect
      ([Instr.Ldarg_0] ++ (List.range method.parameters.length).map .Ldarg) 0 =
        some (1 + method.parameters.length) := by
    have h := depthAfter_ldargs (List.range method.parameters.length) 1
    rw [List.length_range] at h
    exact h
  rw [depthAfter_append hargs, depthAfter, Instr.effect, if_pos (by omega), Nat.add_comm 1,
    Nat.sub_self, Nat.zero_add]
  rfl

/-- A base method without a value leaves nothing to pop. -/
theorem depthAfter_callBase :
    depthAfter Instr.effect method.callBase 0 = if method.isVoid then none else some 1 := by
  rw [MethodInfo.callBase, depthAfter_append depthAfter_callMethod]
  cases method.isVoid <;> rfl

theorem depthAfter_finish :
    depthAfter Instr.effect method.finish 1 = some (if method.isVoid then 0 else 1) := by
  have hstore : depthAfter Instr.effect method.storeReturn 1 = some 0 := by
    rw [MethodInfo.storeReturn]
    cases method.isVoid with
    | true => rfl
    | false => cases method.returnType.isValueType <;> rfl
  rw [MethodInfo.finish, List.append_assoc, depthAfter_append hstore,
    depthAfter_append (depthAfter_setRefs _ _)]
  cases method.isVoid <;> rfl

/-- The depth where the search for the function ends. -/
theorem depthAfter_begin :
    depthAfter Instr.effect
      (method.initLocals ++ Parameter.storeArgs method.parameters 0 1 0 ++ method.findFunction) 0 =
        some 2 := by
  have hinit : depthAfter Instr.effect method.initLocals 0 = some 0 := rfl
  rw [List.append_assoc, depthAfter_append hinit, depthAfter_append (depthAfter_storeArgs _ _ _ _)]
  rfl

/-- The check from the second label on. -/
theorem check_end (labels : ℕ → Option ℕ) (h : joins labels 2 1 = true) :
    check Instr.effect (if method.isVoid then 0 else 1)
      ([Op.mark 2] ++ (emit method.finish ++ [Op.ret])) (some 1) labels = true := by
  rw [List.singleton_append, check, h, Bool.true_and, emit, check_straight depthAfter_finish, check,
    beq_self_eq_true, Bool.true_and, check]
  rfl

/-- The check from the first label on. -/
theorem check_withFunction (methodIndex : ℕ) (labels : ℕ → Option ℕ) (h1 : labels 1 = some 1)
    (h2 : joins labels 2 1 = true) :
    check Instr.effect (if method.isVoid then 0 else 1)
      ([Op.mark 1] ++ (emit (MethodInfo.withFunction methodIndex) ++ ([Op.mark 2] ++
        (emit method.finish ++ [Op.ret])))) none labels = true := by
  have hcall : depthAfter Instr.effect (MethodInfo.withFunction methodIndex) 1 = some 1 := rfl
  rw [List.singleton_append, check, h1, emit, check_straight hcall]
  exact check_end labels h2

theorem withoutFunction_of_abstract (h : method.isAbstract = true) :
    method.withoutFunction = emit [.Ldnull] := if_pos h

theorem withoutFunction_of_not_abstract (h : method.isAbstract = false) :
    method.withoutFunction = emit method.callBase ++ ([Op.ret] ++ emit [.Ldnull]) := by
  rw [MethodInfo.withoutFunction, h, List.append_assoc]
  rfl

/-- Only the call of a base method without a result takes what is not there. -/
theorem check_override (methodIndex : ℕ) :
    check Instr.effect (if method.isVoid then 0 else 1) (method.override methodIndex) (some 0)
      (fun _ => none) = (method.isAbstract || !method.isVoid) := by
  have hpop : depthAfter Instr.effect [.Pop] 1 = some 0 := rfl
  have hnull : depthAfter Instr.effect [.Ldnull] 0 = some 1 := rfl
  rw [MethodInfo.override, emit, check_straight depthAfter_begin, List.singleton_append, check,
    emit, check_straight hpop]
  cases habstract : method.isAbstract with
  | true =>
      rw [withoutFunction_of_abstract habstract, emit, check_straight hnull, List.singleton_append,
        check]
      exact check_withFunction methodIndex _ rfl rfl
  | false =>
      rw [withoutFunction_of_not_abstract habstract, List.append_assoc, List.append_assoc, emit]
      cases hvoid : method.isVoid with
      | true =>
          rw [check_underflow (by rw [depthAfter_callBase, hvoid]; rfl)]
          rfl
      | false =>
          have hbase : depthAfter Instr.effect method.callBase 0 = some 1 := by
            rw [depthAfter_callBase, hvoid]
            rfl
          have hend : check Instr.effect (if method.isVoid then 0 else 1) _ none _ = true :=
            check_withFunction methodIndex (Function.update (fun _ => none) 1 (some 1)) rfl rfl
          rw [hvoid] at hend
          rw [check_straight hbase, List.singleton_append, check]
          exact hend

theorem distance_callBase (c : List (Op Instr)) :
    distance Instr.size 1 (emit method.callBase ++ c) =
      6 + 6 * method.parameters.length + (if method.isVoid then 1 else 0) +
        distance Instr.size 1 c := by
  have hargs (is : List ℕ) : ((is.map Instr.Ldarg).map Instr.size).sum = 6 * is.length := by
    induction is with
    | nil => rfl
    | cons i is ih =>
        rw [List.map_cons, List.map_cons, List.sum_cons, ih, List.length_cons]
        simp only [Instr.size]
        omega
  rw [emit, distance_straight, MethodInfo.callBase]
  simp only [List.map_append, List.sum_append, hargs, List.length_range]
  cases method.isVoid with
  | true => simp [Instr.size]; omega
  | false => simp [Instr.size]; omega

/-- The bytes that the test for the function branches over. -/
theorem distance_lab1 (c : List (Op Instr)) :
    distance Instr.size 1
        (emit [.Pop] ++ (method.withoutFunction ++ ([Op.br 2] ++ ([Op.mark 1] ++ c)))) =
      if method.isAbstract then 4
      else 11 + 6 * method.parameters.length + if method.isVoid then 1 else 0 := by
  have hpop : (([.Pop] : List Instr).map Instr.size).sum = 1 := rfl
  have hnull : (([.Ldnull] : List Instr).map Instr.size).sum = 1 := rfl
  have hend : distance Instr.size 1 ([Op.br 2] ++ ([Op.mark 1] ++ c)) = 2 := rfl
  rw [emit, distance_straight, hpop]
  cases habstract : method.isAbstract with
  | true =>
      rw [withoutFunction_of_abstract habstract, emit, distance_straight, hnull, hend]
      rfl
  | false =>
      rw [withoutFunction_of_not_abstract habstract, List.append_assoc, List.append_assoc,
        distance_callBase, List.singleton_append, distance, emit, distance_straight, hnull, hend]
      simp only [Bool.false_eq_true, if_false]
      omega

/-- The first branch is the one that may be too short. -/
theorem reaches_override (methodIndex : ℕ) :
    reaches Instr.size (method.override methodIndex) =
      (method.isAbstract ||
        decide (11 + 6 * method.parameters.length + (if method.isVoid then 1 else 0) ≤ 127)) := by
  have htail : reaches Instr.size ([Op.br 2] ++ ([Op.mark 1] ++
      (emit (MethodInfo.withFunction methodIndex) ++ ([Op.mark 2] ++
        (emit method.finish ++ [Op.ret]))))) = true := by
    have hlab2 : distance Instr.size 2 ([Op.mark 1] ++
        (emit (MethodInfo.withFunction methodIndex) ++ ([Op.mark 2] ++
          (emit method.finish ++ [Op.ret])))) = 20 := rfl
    rw [List.singleton_append, reaches, hlab2, List.singleton_append, reaches, emit,
      reaches_straight, List.singleton_append, reaches, emit, reaches_straight]
    rfl
  have hwithout (c : List (Op Instr)) :
      reaches Instr.size (method.withoutFunction ++ c) = reaches Instr.size c := by
    cases habstract : method.isAbstract with
    | true => rw [withoutFunction_of_abstract habstract, emit, reaches_straight]
    | false =>
        rw [withoutFunction_of_not_abstract habstract, List.append_assoc, List.append_assoc, emit,
          reaches_straight, List.singleton_append, reaches, emit, reaches_straight]
  rw [MethodInfo.override, emit, reaches_straight, List.singleton_append, reaches, distance_lab1,
    emit, reaches_straight, hwithout, htail, Bool.and_true]
  cases method.isAbstract <;> rfl

/-- **The code of an override is taken** unless it calls a base method that returns no value,
or one with twenty parameters or more. -/
theorem compiles_eq (methodIndex : ℕ) :
    method.compiles (method.override methodIndex) =
      (method.isAbstract || (!method.isVoid && decide (method.parameters.length < 20))) := by
  rw [MethodInfo.compiles, check_override, reaches_override]
  cases method.isAbstract with
  | true => rfl
  | false =>
      cases method.isVoid with
      | true => rfl
      | false =>
          simp only [Bool.false_or, Bool.not_false, Bool.true_and, Bool.false_eq_true, if_false]
          rw [decide_eq_decide]
          omega

/-! ### What the check is good for -/

variable {o : CallContext N Obj} {f : Frame N Obj} {p : Parameter} {is : List Instr}

theorem length_callMethod {g : Frame N Obj} (h : Instr.step o (.CallMethod method) f = .ok g) :
    g.stack.length =
      f.stack.length - (method.parameters.length + 1) + if method.isVoid then 0 else 1 := by
  delta Instr.step at h
  dsimp only at h
  cases hbase : o.base method (f.stack.take (method.parameters.length + 1)).reverse with
  | none => simp [hbase] at h
  | some x =>
      cases hvoid : method.isVoid with
      | true =>
          simp only [hbase, hvoid, if_true, Except.ok.injEq] at h
          rw [← h]
          exact List.length_drop
      | false =>
          simp only [hbase, hvoid, Bool.false_eq_true, if_false, Except.ok.injEq] at h
          rw [← h]
          exact congrArg (· + 1) List.length_drop

theorem length_step {j : Instr} {g : Frame N Obj} (h : Instr.step o j f = .ok g) :
    g.stack.length = f.stack.length - j.effect.1 + j.effect.2 := by
  by_cases hj : ∃ m, j = .CallMethod m
  · obtain ⟨m, rfl⟩ := hj
    exact length_callMethod h
  · revert h
    fun_cases Instr.step o j f
    all_goals intro h
    -- an instruction has raised an exception, or what it takes is seen on the stack
    all_goals first
      | cases h; done
      | exact absurd ⟨_, rfl⟩ hj
      | obtain rfl := Except.ok.inj h
        clear h
        simp [*, Instr.effect, Frame.push]

/-- The instructions take and leave as many values as the check counts. -/
theorem respects (o : CallContext N Obj) :
    Respects o.sem Instr.effect fun f => f.stack.length where
  step _ _ _ _ := length_step
  test f hd := by
    change ∃ b g, Frame.test f = some (b, g) ∧ _
    fun_cases Frame.test f with
    | case1 hst => rw [hst] at hd; cases hd
    | case2 st hst => exact ⟨_, _, rfl, by rw [hst]; rfl⟩
    | case3 x st _ hst => exact ⟨_, _, rfl, by rw [hst]; rfl⟩

/-- The branches of an override have their labels behind them. -/
theorem closed_override (methodIndex : ℕ) : closed (method.override methodIndex) := by
  have hbranch (c : List (Op Instr)) : closed (method.withoutFunction ++ c) ↔ closed c := by
    cases habstract : method.isAbstract with
    | true => rw [withoutFunction_of_abstract habstract, emit, closed_straight]
    | false =>
        rw [withoutFunction_of_not_abstract habstract, List.append_assoc, List.append_assoc, emit,
          closed_straight, List.singleton_append, closed, emit, closed_straight]
  have hend : closed (emit (MethodInfo.withFunction methodIndex) ++ ([Op.mark 2] ++
      (emit method.finish ++ [Op.ret]))) := by
    rw [emit, closed_straight, List.singleton_append, closed, emit, closed_straight]
    trivial
  rw [MethodInfo.override, emit, closed_straight, List.singleton_append, closed]
  refine ⟨by simp, ?_⟩
  rw [emit, closed_straight, hbranch, List.singleton_append, closed]
  exact ⟨by simp, hend⟩

/-- **An override that is taken** returns a value if its method does, or raises an
exception. -/
theorem fits_override {methodIndex : ℕ}
    (h : method.compiles (method.override methodIndex) = true)
    (cells : List (Option (ClrValue N Obj))) :
    (o.sem.exec (method.override methodIndex) none (.start cells)).Fits
      (fun f => f.stack.length) (if method.isVoid then 0 else 1) := by
  rw [MethodInfo.compiles, Bool.and_eq_true] at h
  exact check_sound (respects o) h.1 (closed_override methodIndex) rfl

/-! ### Storing the arguments -/

theorem steps_load (hp : o.parameters[i]? = some p) :
    o.sem.steps (.Ldarg i :: (p.toObject ++ is)) f = o.sem.steps is (f.push (item f.cells i)) := by
  have harg : o.sem.step (.Ldarg i) f =
      .ok (f.push (if p.isByRef then .address i else item f.cells i)) := by
    rw [step_Ldarg, passed, hp]
  rw [Parameter.toObject]
  cases hbyRef : p.isByRef with
  | true =>
      rw [hbyRef, if_pos rfl] at harg
      rw [if_pos rfl, Sem.steps_cons harg]
      cases p.parameterType.elementType.isValueType with
      | true =>
          rw [if_pos rfl, List.cons_append, Sem.steps_cons rfl, List.singleton_append,
            Sem.steps_cons rfl]
          rfl
      | false =>
          rw [if_neg (by decide), List.singleton_append, Sem.steps_cons rfl]
          rfl
  | false =>
      rw [hbyRef, if_neg (by decide)] at harg
      rw [if_neg (by decide), Sem.steps_cons harg]
      cases p.parameterType.isValueType with
      | true =>
          rw [if_pos rfl, List.singleton_append, Sem.steps_cons rfl]
          rfl
      | false => rfl

/-- An argument is stored into an array. -/
theorem steps_storeItem {k a n : ℕ} (hp : o.parameters[i]? = some p)
    (hk : f.locals k = .array a) (hn : n < (f.array a).length) :
    o.sem.steps ([Instr.Ldloc k, .Ldc_I4 n, .Ldarg i] ++ p.toObject ++ [Instr.Stelem_Ref] ++ is) f =
      o.sem.steps is { f with heap := f.heap.set a ((f.array a).set n (item f.cells i)) } := by
  simp only [List.append_assoc, List.cons_append, List.nil_append]
  rw [Sem.steps_cons rfl, Sem.steps_cons rfl, steps_load hp]
  have hstack : item f.cells i :: .int n :: f.locals k :: f.stack =
      item f.cells i :: .int n :: .array a :: f.stack := by rw [hk]
  exact Sem.steps_cons (step_Stelem_Ref hstack hn)

/-- The place of an argument is stored into an array. -/
theorem steps_storeIndex {k a n j : ℕ} (hk : f.locals k = .array a)
    (hn : n < (f.array a).length) :
    o.sem.steps ([Instr.Ldloc k, .Ldc_I4 n, .Ldc_I4 j, .Stelem_I4] ++ is) f =
      o.sem.steps is { f with heap := f.heap.set a ((f.array a).set n (.int j)) } := by
  simp only [List.cons_append, List.nil_append]
  rw [Sem.steps_cons rfl, Sem.steps_cons rfl, Sem.steps_cons rfl]
  have hstack : .int j :: .int n :: f.locals k :: f.stack =
      .int j :: .int n :: .array a :: f.stack := by rw [hk]
  exact Sem.steps_cons (step_Stelem_I4 hstack hn)

/-- The frame in the loop that stores the arguments, by its three arrays. -/
def Frame.storing (locals : ℕ → Item N Obj) (cells : List (Option (ClrValue N Obj)))
    (args ins outs : List (Item N Obj)) : Frame N Obj where
  stack := []
  locals := locals
  heap := [args, ins, outs]
  cells := cells
  trace := []

variable {locals : ℕ → Item N Obj} {cells : List (Option (ClrValue N Obj))}
  {args args' ins ins' outs outs' : List (Item N Obj)}

theorem steps_storeFirst {B C : List (Item N Obj)} (hp : o.parameters[i]? = some p)
    (h0 : locals 0 = .array 0) (hargs : args.length = i) :
    o.sem.steps ([Instr.Ldloc 0, .Ldc_I4 i, .Ldarg i] ++ p.toObject ++ [Instr.Stelem_Ref] ++ is)
        (.storing locals cells (args ++ Item.null :: args') B C) =
      o.sem.steps is (.storing locals cells (args ++ item cells i :: args') B C) := by
  have hn : i < (args ++ Item.null :: args').length := by
    rw [List.length_append, List.length_cons, hargs]
    omega
  rw [steps_storeItem (a := 0) hp h0 hn, ← set_length_append hargs .null (item cells i) args']
  rfl

theorem steps_storeSecond {j : ℕ} {A C : List (Item N Obj)} (hp : o.parameters[i]? = some p)
    (h1 : locals 1 = .array 1) (hins : ins.length = j) :
    o.sem.steps ([Instr.Ldloc 1, .Ldc_I4 j, .Ldarg i] ++ p.toObject ++ [Instr.Stelem_Ref] ++ is)
        (.storing locals cells A (ins ++ Item.null :: ins') C) =
      o.sem.steps is (.storing locals cells A (ins ++ item cells i :: ins') C) := by
  have hn : j < (ins ++ Item.null :: ins').length := by
    rw [List.length_append, List.length_cons, hins]
    omega
  rw [steps_storeItem (a := 1) hp h1 hn, ← set_length_append hins .null (item cells i) ins']
  rfl

theorem steps_storeThird {k : ℕ} {A B : List (Item N Obj)} (h2 : locals 2 = .array 2)
    (houts : outs.length = k) :
    o.sem.steps ([Instr.Ldloc 2, .Ldc_I4 k, .Ldc_I4 i, .Stelem_I4] ++ is)
        (.storing locals cells A B (outs ++ .int 0 :: outs')) =
      o.sem.steps is (.storing locals cells A B (outs ++ .int i :: outs')) := by
  have hn : k < (outs ++ Item.int 0 :: outs').length := by
    rw [List.length_append, List.length_cons, houts]
    omega
  rw [steps_storeIndex (a := 2) h2 hn, ← set_length_append houts (.int 0) (.int i) outs']
  rfl

/-- One round of the loop, with the room that it takes in the arrays. -/
theorem steps_storeArg {j k : ℕ} (hp : o.parameters[i]? = some p)
    (h0 : locals 0 = .array 0) (h1 : locals 1 = .array 1) (h2 : locals 2 = .array 2)
    (hargs : args.length = i) (hins : ins.length = j) (houts : outs.length = k) :
    o.sem.steps (p.storeArg i j k ++ is)
        (.storing locals cells (args ++ Item.null :: args')
          (ins ++ if p.isInArg then .null :: ins' else ins')
          (outs ++ if p.isByRef then .int 0 :: outs' else outs')) =
      o.sem.steps is
        (.storing locals cells (args ++ item cells i :: args')
          (ins ++ if p.isInArg then item cells i :: ins' else ins')
          (outs ++ if p.isByRef then .int i :: outs' else outs')) := by
  rw [Parameter.storeArg, List.append_assoc, List.append_assoc, steps_storeFirst hp h0 hargs]
  cases hbyRef : p.isByRef with
  | true =>
      rw [if_pos rfl, if_pos rfl, if_pos rfl, steps_storeThird h2 houts]
      cases hin : p.isInArg with
      | true => exact steps_storeSecond hp h1 hins
      | false => rfl
  | false =>
      cases hin : p.isInArg with
      | true => exact steps_storeSecond hp h1 hins
      | false => rfl

/-- The arguments that the Lua function gets, those of the parameters from number `i` on. -/
def inItems (cells : List (Option (ClrValue N Obj))) : List Parameter → ℕ → List (Item N Obj)
  | [], _ => []
  | p :: ps, i => (if p.isInArg then [item cells i] else []) ++ inItems cells ps (i + 1)

/-- All arguments of the parameters from number `i` on. -/
def allItems (cells : List (Option (ClrValue N Obj))) : List Parameter → ℕ → List (Item N Obj)
  | [], _ => []
  | _ :: ps, i => item cells i :: allItems cells ps (i + 1)

/-- Room for those elements of a list that are counted. -/
theorem replicate_filter (test : Parameter → Bool) (p : Parameter) (ps : List Parameter)
    (x : Item N Obj) :
    List.replicate ((p :: ps).filter test).length x =
      if test p then x :: List.replicate (ps.filter test).length x
      else List.replicate (ps.filter test).length x := by
  rw [List.filter_cons]
  split
  · rfl
  · rfl

theorem append_ite_cons {α : Type} (b : Bool) (xs ys : List α) (x : α) :
    (xs ++ if b then x :: ys else ys) = (xs ++ if b then [x] else []) ++ ys := by
  cases b with
  | true => rw [if_pos rfl, if_pos rfl, List.append_assoc, List.singleton_append]
  | false => simp

/-- The whole loop, from arrays with room for what is left. -/
theorem steps_storeArgs {ps qs : List Parameter} {j k : ℕ} (hps : o.parameters = qs ++ ps)
    (h0 : locals 0 = .array 0) (h1 : locals 1 = .array 1) (h2 : locals 2 = .array 2)
    (hargs : args.length = qs.length) (hins : ins.length = j) (houts : outs.length = k) :
    o.sem.steps (Parameter.storeArgs ps qs.length j k ++ is)
        (.storing locals cells (args ++ List.replicate ps.length Item.null)
          (ins ++ List.replicate (ps.filter Parameter.isInArg).length Item.null)
          (outs ++ List.replicate (ps.filter Parameter.isByRef).length (Item.int 0))) =
      o.sem.steps is
        (.storing locals cells (args ++ allItems cells ps qs.length)
          (ins ++ inItems cells ps qs.length)
          (outs ++ (Parameter.refArgs ps qs.length).map .int)) := by
  induction ps generalizing qs j k args ins outs with
  | nil => rfl
  | cons p ps ih =>
      have hp : o.parameters[qs.length]? = some p := by
        rw [hps, List.getElem?_append_right (Nat.le_refl _), Nat.sub_self]
        rfl
      have hps' : o.parameters = (qs ++ [p]) ++ ps := by
        rw [hps, List.append_assoc, List.singleton_append]
      rw [Parameter.storeArgs, List.append_assoc, replicate_filter, replicate_filter,
        List.length_cons, List.replicate_succ, steps_storeArg hp h0 h1 h2 hargs hins houts,
        append_ite_cons p.isInArg ins, append_ite_cons p.isByRef outs,
        List.append_cons args]
      have hlen : qs.length + 1 = (qs ++ [p]).length := by
        rw [List.length_append, List.length_singleton]
      rw [hlen, ih hps', ← hlen, List.append_assoc, List.append_assoc, List.append_assoc, allItems,
        inItems, Parameter.refArgs, List.map_append, List.singleton_append]
      · cases p.isByRef <;> rfl
      · rw [List.length_append, List.length_singleton, hargs, hlen]
      · cases p.isInArg <;> simp [hins]
      · cases p.isByRef <;> simp [houts]

/-! ### The beginning -/

/-- The local variables with the three arrays. -/
def arrayLocals : ℕ → Item N Obj :=
  Function.update (Function.update (Function.update (fun _ => .null) 0 (.array 0)) 1 (.array 1)) 2
    (.array 2)

theorem length_inArgs (ps : List Parameter) :
    ps.length - (ps.filter fun p => !p.isIn && p.isOut).length =
      (ps.filter Parameter.isInArg).length := by
  have hsplit : (ps.filter fun p => !p.isIn && p.isOut).length +
      (ps.filter Parameter.isInArg).length = ps.length := by
    induction ps with
    | nil => rfl
    | cons p ps ih =>
        rw [List.filter_cons, List.filter_cons, List.length_cons, Parameter.isInArg]
        cases p.isIn <;> cases p.isOut <;> simp <;> omega
  omega

/-- The table goes to the front of its array. -/
theorem steps_storeTable {A B C : List (Item N Obj)} (h1 : locals 1 = .array 1) :
    o.sem.steps ([Instr.Ldloc 1, .Ldc_I4_0, .Ldarg_0, .LdfldLuaTable, .Stelem_Ref] ++ is)
        (.storing locals cells A (.null :: B) C) =
      o.sem.steps is (.storing locals cells A (.value (.luaTable o.luaTable) :: B) C) := by
  simp only [List.cons_append, List.nil_append]
  rw [Sem.steps_cons rfl, Sem.steps_cons rfl, Sem.steps_cons rfl, Sem.steps_cons rfl]
  have hstack : [.value (.luaTable o.luaTable), .int 0, locals 1] =
      [.value (.luaTable o.luaTable), .int 0, .array 1] := by rw [h1]
  exact (Sem.steps_cons (step_Stelem_Ref hstack (Nat.succ_pos _))).trans rfl

theorem steps_initLocals :
    o.sem.steps (method.initLocals ++ is) (.start cells) =
      o.sem.steps is (.storing arrayLocals cells (List.replicate method.parameters.length Item.null)
        ([Item.value (.luaTable o.luaTable)] ++
          List.replicate (method.parameters.filter Parameter.isInArg).length Item.null)
        (List.replicate (method.parameters.filter Parameter.isByRef).length (.int 0))) := by
  have hins : method.parameters.length - method.nOutParams =
      (method.parameters.filter Parameter.isInArg).length := length_inArgs method.parameters
  have hcreate : o.sem.steps (method.initLocals ++ is) (.start cells) = o.sem.steps
      ([Instr.Ldloc 1, .Ldc_I4_0, .Ldarg_0, .LdfldLuaTable, .Stelem_Ref] ++ is)
      (.storing arrayLocals cells (List.replicate method.parameters.length Item.null)
        (.null :: List.replicate (method.parameters.filter Parameter.isInArg).length Item.null)
        (List.replicate method.nOutAndRefParams (.int 0))) := by
    rw [← hins]
    rfl
  have h1 : (arrayLocals : ℕ → Item N Obj) 1 = .array 1 := rfl
  rw [hcreate, steps_storeTable h1]
  rfl

/-- The arrays are filled. -/
def Frame.filled (o : CallContext N Obj) (cells : List (Option (ClrValue N Obj))) : Frame N Obj :=
  .storing arrayLocals cells (allItems cells o.parameters 0)
    (.value (.luaTable o.luaTable) :: inItems cells o.parameters 0)
    ((Parameter.refArgs o.parameters 0).map .int)

theorem steps_fill (hparameters : o.parameters = method.parameters) :
    o.sem.steps (method.initLocals ++ (Parameter.storeArgs method.parameters 0 1 0 ++ is))
      (.start cells) = o.sem.steps is (.filled o cells) := by
  rw [steps_initLocals]
  have hloop : o.sem.steps (Parameter.storeArgs method.parameters ([] : List Parameter).length 1 0
        ++ is)
      (.storing arrayLocals cells ([] ++ List.replicate method.parameters.length Item.null)
        ([Item.value (.luaTable o.luaTable)] ++
          List.replicate (method.parameters.filter Parameter.isInArg).length Item.null)
        ([] ++
          List.replicate (method.parameters.filter Parameter.isByRef).length (Item.int 0))) = _ :=
    steps_storeArgs hparameters rfl rfl rfl rfl rfl rfl
  rw [Frame.filled, hparameters]
  exact hloop

/-- What was found in the table, as an item. -/
def foundItem (found : Option (LuaValue N)) : Item N Obj :=
  match found with
  | some g => .value (.luaFunction g)
  | none => .null

theorem steps_begin (hparameters : o.parameters = method.parameters) :
    o.sem.steps (method.initLocals ++ Parameter.storeArgs method.parameters 0 1 0 ++
        method.findFunction) (.start cells) =
      .ok (((Frame.filled o cells).push
        (foundItem (LuaClassHelper.getTableFunction o o.luaTable method.name))).push
        (foundItem (LuaClassHelper.getTableFunction o o.luaTable method.name))) := by
  have hcall (g : Frame N Obj) (st : List (Item N Obj)) :
      o.sem.step .CallGetTableFunction
          { g with stack := .string method.name :: .value (.luaTable o.luaTable) :: st } =
        .ok (Frame.push (foundItem (LuaClassHelper.getTableFunction o o.luaTable method.name))
          { g with stack := st }) := by
    delta CallContext.sem Instr.step
    dsimp only
    cases LuaClassHelper.getTableFunction o o.luaTable method.name with
    | some g => rfl
    | none => rfl
  rw [List.append_assoc, steps_fill hparameters, MethodInfo.findFunction, Sem.steps_cons rfl,
    Sem.steps_cons rfl, Sem.steps_cons rfl]
  exact (Sem.steps_cons (hcall (.filled o cells) [])).trans rfl

/-! ### The two branches -/

/-- The run up to the branch. -/
theorem exec_begin (hparameters : o.parameters = method.parameters) (methodIndex : ℕ) :
    o.sem.exec (method.override methodIndex) none (.start cells) =
      o.sem.exec ([Op.brtrue 1] ++ (emit [.Pop] ++ (method.withoutFunction ++ ([Op.br 2] ++
        ([Op.mark 1] ++ (emit (MethodInfo.withFunction methodIndex) ++ ([Op.mark 2] ++
          (emit method.finish ++ [Op.ret])))))))) none
        (((Frame.filled o cells).push
          (foundItem (LuaClassHelper.getTableFunction o o.luaTable method.name))).push
          (foundItem (LuaClassHelper.getTableFunction o o.luaTable method.name))) := by
  rw [MethodInfo.override, emit, Sem.exec_straight (steps_begin hparameters)]

/-- No label is inside the branch for a function that does not exist. -/
theorem mark_not_mem :
    Op.mark 1 ∉ emit [.Pop] ++ (method.withoutFunction ++ [Op.br 2]) := by
  cases habstract : method.isAbstract with
  | true =>
      rw [withoutFunction_of_abstract habstract]
      simp [emit]
  | false =>
      rw [withoutFunction_of_not_abstract habstract]
      simp [emit]

/-- Instructions that make no call leave the trace alone. -/
theorem trace_step {j : Instr} (h1 : j ≠ .CallCallFunction) (h2 : ∀ m, j ≠ .CallMethod m)
    (f : Frame N Obj) : (frameOf (o.sem.step j f)).trace = f.trace := by
  change (frameOf (Instr.step o j f)).trace = f.trace
  fun_cases Instr.step o j f
  all_goals first
    | rfl
    | exact absurd rfl h1
    | exact absurd rfl (h2 _)

/-- An instruction that is no call of a function. -/
def Instr.isSilent : Instr → Bool
  | .CallCallFunction | .CallMethod _ => false
  | _ => true

theorem trace_steps (h : is.all Instr.isSilent = true) (f : Frame N Obj) :
    (frameOf (o.sem.steps is f)).trace = f.trace := by
  refine Sem.steps_invariant (P := fun g : Frame N Obj => g.trace = f.trace)
    (fun j hj g hg => ?_) rfl
  have hsilent := List.all_eq_true.mp h j hj
  rw [trace_step (fun h1 => by rw [h1] at hsilent; cases hsilent)
    (fun m h2 => by rw [h2] at hsilent; cases hsilent), hg]

theorem isSilent_setRefs (ps : List Parameter) (i : ℕ) :
    (Parameter.setRefs ps i).all Instr.isSilent = true := by
  induction ps generalizing i with
  | nil => rfl
  | cons p ps ih =>
      rw [Parameter.setRefs, List.all_append, ih, Bool.and_true, Parameter.setRef]
      cases p.isByRef with
      | true => cases p.parameterType.elementType.isValueType <;> rfl
      | false => rfl

theorem isSilent_finish : method.finish.all Instr.isSilent = true := by
  rw [MethodInfo.finish, List.all_append, List.all_append, isSilent_setRefs, Bool.and_true,
    MethodInfo.storeReturn]
  cases method.isVoid with
  | true => rfl
  | false => cases method.returnType.isValueType <;> rfl

/-- Behind the call of the function no other call is made. -/
theorem trace_call (j : Instr) (f : Frame N Obj) :
    (o.sem.exec (emit [j] ++ ([Op.mark 2] ++ (emit method.finish ++ [Op.ret])))
        none f).frame.trace =
      (frameOf (o.sem.step j f)).trace := by
  rw [emit, List.map_singleton, List.singleton_append, Sem.exec]
  cases o.sem.step j f with
  | error g => rfl
  | ok g =>
      have hmark : (none : Option ℕ) ≠ some 2 := fun h => by cases h
      simp only [List.singleton_append, Sem.exec, if_neg hmark]
      rw [emit, Sem.exec_ret, trace_steps isSilent_finish]
      rfl

/-- The call of the function is recorded, whatever comes of it. -/
theorem trace_callFunction {g : LuaValue N} {ts : Option (List ClrType)} {a b c : ℕ}
    {st : List (Item N Obj)} {f : Frame N Obj}
    (hst : f.stack =
      .array c :: .array b :: .types ts :: .array a :: .value (.luaFunction g) :: st) :
    (frameOf (o.sem.step .CallCallFunction f)).trace =
      f.trace ++ [Event.function g (f.array b) ts (f.array c)] := by
  obtain ⟨stack, locals, heap, cells, trace⟩ := f
  obtain rfl : stack = _ := hst
  delta CallContext.sem Instr.step
  dsimp only
  split
  · rfl
  · rfl

/-- **With a function in the table** the override calls it with the table in front of the
arguments. -/
theorem exec_of_function {g : LuaValue N} {methodIndex : ℕ} {types : Option (List ClrType)}
    (hparameters : o.parameters = method.parameters)
    (hg : LuaClassHelper.getTableFunction o o.luaTable method.name = some g)
    (htypes : o.returnTypes[methodIndex]? = some types) :
    (o.sem.exec (method.override methodIndex) none (.start cells)).frame.trace =
      [.function g (.value (.luaTable o.luaTable) :: inItems cells method.parameters 0) types
        ((Parameter.refArgs method.parameters 0).map .int)] := by
  have hcode (c : List (Op Instr)) :
      emit [.Pop] ++ (method.withoutFunction ++ ([Op.br 2] ++ ([Op.mark 1] ++ c))) =
        (emit [.Pop] ++ (method.withoutFunction ++ [Op.br 2])) ++ Op.mark 1 :: c := by
    simp only [List.append_assoc, List.singleton_append]
  have htest (f : Frame N Obj) :
      o.sem.test ((f.push (.value (.luaFunction g))).push (.value (.luaFunction g))) =
        some (true, f.push (.value (.luaFunction g))) := rfl
  rw [exec_begin hparameters, hg, List.singleton_append, Sem.exec, foundItem, htest]
  simp only [if_true]
  rw [hcode, Sem.exec_skip mark_not_mem]
  have hload : o.sem.steps [.Ldloc 0, .Ldarg_0, .LdfldReturnTypes, .Ldc_I4 methodIndex, .Ldelem_Ref,
      .Ldloc 1, .Ldloc 2] ((Frame.filled o cells).push (.value (.luaFunction g))) =
      .ok { Frame.filled o cells with
              stack := [.array 2, .array 1, .types types, .array 0, .value (.luaFunction g)] } := by
    rw [Sem.steps_cons rfl, Sem.steps_cons rfl, Sem.steps_cons rfl, Sem.steps_cons rfl,
      Sem.steps_cons (step_Ldelem_Ref_types rfl htypes)]
    rfl
  have hsplit : emit (MethodInfo.withFunction methodIndex) =
      emit [.Ldloc 0, .Ldarg_0, .LdfldReturnTypes, .Ldc_I4 methodIndex, .Ldelem_Ref, .Ldloc 1,
        .Ldloc 2] ++ emit [.CallCallFunction] := rfl
  rw [hsplit, List.append_assoc, emit, Sem.exec_straight hload, trace_call,
    trace_callFunction rfl]
  simp only [Frame.filled, Frame.storing, Frame.array, hparameters]
  rfl

/-! ### Without a function -/

theorem steps_ldargs (ns : List ℕ) (f : Frame N Obj) :
    o.sem.steps (ns.map .Ldarg ++ is) f = o.sem.steps is
      { f with stack := (ns.map (passed o.parameters f.cells)).reverse ++ f.stack } := by
  induction ns generalizing f with
  | nil => rfl
  | cons n ns ih =>
      have hstep : o.sem.step (.Ldarg n) f = .ok (f.push (passed o.parameters f.cells n)) := rfl
      rw [List.map_cons, List.cons_append, Sem.steps_cons hstep, ih, List.map_cons,
        List.reverse_cons, List.append_assoc, List.singleton_append]
      rfl

/-- The call of the base method is recorded, whatever comes of it. -/
theorem trace_callMethod (f : Frame N Obj) :
    (frameOf (o.sem.step (.CallMethod method) f)).trace =
      f.trace ++ [Event.base method (f.stack.take (method.parameters.length + 1)).reverse] := by
  delta CallContext.sem Instr.step
  dsimp only
  split
  · split
    · rfl
    · rfl
  · rfl

/-- **Without a function in the table** the override calls the base method with the arguments
of the call. -/
theorem exec_of_no_function {methodIndex : ℕ} (hparameters : o.parameters = method.parameters)
    (habstract : method.isAbstract = false)
    (hg : LuaClassHelper.getTableFunction o o.luaTable method.name = none) :
    (o.sem.exec (method.override methodIndex) none (.start cells)).frame.trace =
      [.base method
        (.this :: (List.range method.parameters.length).map (passed method.parameters cells))] := by
  have htest (f : Frame N Obj) :
      o.sem.test ((f.push .null).push .null) = some (false, f.push .null) := rfl
  have hpop : o.sem.steps [.Pop] ((Frame.filled o cells).push .null) = .ok (.filled o cells) := rfl
  have hcode (c : List (Op Instr)) : emit method.callBase ++ ([Op.ret] ++ c) =
      emit ([Instr.Ldarg_0] ++ (List.range method.parameters.length).map .Ldarg) ++
        (.plain (.CallMethod method) :: (emit (if method.isVoid then [.Pop] else []) ++
          .ret :: c)) := by
    rw [MethodInfo.callBase]
    simp [emit]
  have hload : o.sem.steps ([Instr.Ldarg_0] ++ (List.range method.parameters.length).map .Ldarg)
      (.filled o cells) = .ok { Frame.filled o cells with
        stack := ((List.range method.parameters.length).map
          (passed method.parameters cells)).reverse ++ [.this] } := by
    have hrun : o.sem.steps ((List.range method.parameters.length).map .Ldarg ++ [])
        ((Frame.filled o cells).push .this) = _ := steps_ldargs _ _
    rw [List.append_nil, hparameters] at hrun
    exact (Sem.steps_cons rfl).trans hrun
  have hsilent : (if method.isVoid then [Instr.Pop] else []).all Instr.isSilent = true := by
    cases method.isVoid <;> rfl
  rw [exec_begin hparameters, hg, List.singleton_append, Sem.exec, foundItem, htest]
  simp only [Bool.false_eq_true, if_false]
  rw [emit, Sem.exec_straight hpop, withoutFunction_of_not_abstract habstract, List.append_assoc,
    List.append_assoc, hcode, emit, Sem.exec_straight hload, Sem.exec]
  have hcall : (frameOf (o.sem.step (.CallMethod method) _)).trace = _ :=
    trace_callMethod { Frame.filled o cells with stack :=
      ((List.range method.parameters.length).map (passed method.parameters cells)).reverse ++
        [.this] }
  have htake :
      (((List.range method.parameters.length).map (passed method.parameters cells)).reverse ++
      [Item.this]).take (method.parameters.length + 1) =
        ((List.range method.parameters.length).map (passed method.parameters cells)).reverse ++
          [Item.this] := by
    apply List.take_of_length_le
    simp
  simp only [htake, List.reverse_append, List.reverse_reverse, List.reverse_singleton] at hcall
  cases hstep : o.sem.step (.CallMethod method) { Frame.filled o cells with
      stack := ((List.range method.parameters.length).map
        (passed method.parameters cells)).reverse ++ [.this] } with
  | error g =>
      rw [hstep] at hcall
      exact hcall
  | ok g =>
      rw [hstep] at hcall
      simp only [emit]
      rw [Sem.exec_ret, trace_steps hsilent]
      exact hcall

end UnityLua
