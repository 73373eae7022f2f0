import UnityLua.GenerateDelegate

/-!
# What a delegate does

The code that `GenerateDelegate` emits, for every signature.

## Main results

* `verifiable_generateDelegate`: no path underflows, and the value is left at the end.
* `exec_generateDelegate`: the call of `callFunction`, and the way its results take.
* `generateDelegate_correct`: both together.
-/

namespace UnityLua

open Library

variable {N Obj : Type} {m : MethodInfo} {d : ℕ}

/-! ### The paths -/

theorem depthAfter_shared (is : List Instr) (d : ℕ) :
    depthAfter DelegateInstr.effect (is.map .shared) d = depthAfter Instr.effect is d := by
  induction is generalizing d with
  | nil => rfl
  | cons i is ih =>
      rw [List.map_cons, depthAfter, depthAfter, DelegateInstr.effect, ih]

theorem depthAfter_beginDelegate :
    depthAfter Instr.effect m.beginDelegate 0 = some 4 := by
  have hinit : depthAfter Instr.effect m.initDelegateLocals 0 = some 0 := rfl
  rw [MethodInfo.beginDelegate, List.append_assoc, depthAfter_append hinit,
    depthAfter_append (depthAfter_storeArgs _ _ _ _)]
  rfl

/-- **The code of a delegate is verifiable**, whatever the signature. -/
theorem verifiable_generateDelegate (m : MethodInfo) :
    Verifiable DelegateInstr.effect (if m.isVoid then 0 else 1) (GenerateDelegate m) := by
  have hbegin : depthAfter DelegateInstr.effect (m.beginDelegate.map .shared) 0 = some 4 := by
    rw [depthAfter_shared, depthAfter_beginDelegate]
  have hfinish : depthAfter DelegateInstr.effect (m.finish.map .shared) 1 =
      some (if m.isVoid then 0 else 1) := by
    rw [depthAfter_shared, depthAfter_finish]
  refine verifiable_of_check ?_ ?_ ?_
  · rw [GenerateDelegate, emitShared, check_straight hbegin, List.singleton_append, check,
      decide_eq_true (by decide), Bool.true_and, emitShared]
    change check _ _ _ (some 1) _ = true
    rw [check_straight hfinish, check, beq_self_eq_true]
    rfl
  · rw [GenerateDelegate, emitShared, forward_straight, List.singleton_append, forward, emitShared,
      forward_straight]
    trivial
  · rw [GenerateDelegate, emitShared, closed_straight, List.singleton_append, closed, emitShared,
      closed_straight]
    trivial

/-! ### The shared instructions -/

variable {o : DelegateContext N Obj} {args cells : List (Option (ClrValue N Obj))}

/-- Shared instructions run as in an override, and make no call. -/
theorem steps_shared (is : List Instr) (f : Frame N Obj) (calls : List (DelegateCall N Obj)) :
    (o.sem m).steps (is.map .shared) ⟨f, calls⟩ =
      match (o.shared m).sem.steps is f with
      | .ok g => .ok ⟨g, calls⟩
      | .error g => .error ⟨g, calls⟩ := by
  induction is generalizing f with
  | nil => rfl
  | cons i is ih =>
      rw [List.map_cons, Sem.steps, Sem.steps]
      simp only [DelegateContext.sem, CallContext.sem, DelegateInstr.step] at ih ⊢
      cases Instr.step (o.shared m) i f with
      | ok g => exact ih g
      | error g => rfl

/-! ### The call -/

/-- The arguments as the boxed values of all parameters. -/
def boxed (args : List (Option (ClrValue N Obj))) : List (Item N Obj) := args.map .ofOption

/-- The boxed values of the parameters that are in or not out. -/
def boxedIn (m : MethodInfo) (args : List (Option (ClrValue N Obj))) : List (Item N Obj) :=
  ((m.parameters.zip args).filter fun p => p.1.isInArg).map fun p => .ofOption p.2

/-- The positions of the parameters passed by reference, in ascending order. -/
def refPositions (m : MethodInfo) : List ℕ :=
  (List.range m.parameters.length).filter fun i => (m.parameters[i]?).any Parameter.isByRef

/-- The call that a delegate makes. -/
def delegateCall (m : MethodInfo) (args : List (Option (ClrValue N Obj))) : DelegateCall N Obj where
  args := boxed args
  inArgs := boxedIn m args
  outArgs := (refPositions m).map .int

theorem item_append (before after : List (Option (ClrValue N Obj))) (x : Option (ClrValue N Obj)) :
    item (before ++ x :: after) before.length = .ofOption x := by
  rw [item, List.getD_eq_getElem?_getD, List.getElem?_append_right (Nat.le_refl _), Nat.sub_self]
  rfl

theorem allItems_eq_boxed {ps : List Parameter} {before after : List (Option (ClrValue N Obj))}
    (h : after.length = ps.length) :
    allItems (before ++ after) ps before.length = boxed after := by
  induction ps generalizing before after with
  | nil =>
      obtain rfl := List.length_eq_zero_iff.mp h
      rfl
  | cons p ps ih =>
      cases after with
      | nil => cases h
      | cons x after =>
          have hrest := @ih (before ++ [x]) after (Nat.succ.inj h)
          rw [List.append_assoc, List.length_append, List.length_singleton] at hrest
          rw [allItems, item_append]
          exact congrArg (Item.ofOption x :: ·) hrest

theorem inItems_eq_boxedIn {ps : List Parameter} {before after : List (Option (ClrValue N Obj))}
    (h : after.length = ps.length) :
    inItems (before ++ after) ps before.length =
      ((ps.zip after).filter fun p => p.1.isInArg).map fun p => .ofOption p.2 := by
  induction ps generalizing before after with
  | nil => rfl
  | cons p ps ih =>
      cases after with
      | nil => cases h
      | cons x after =>
          have hrest := @ih (before ++ [x]) after (Nat.succ.inj h)
          rw [List.append_assoc, List.length_append, List.length_singleton] at hrest
          rw [inItems, item_append, List.singleton_append] at *
          rw [hrest, List.zip_cons_cons, List.filter_cons]
          cases p.isInArg <;> rfl

theorem refArgs_eq_filter (ps : List Parameter) (i : ℕ) : Parameter.refArgs ps i =
    (List.range' i ps.length).filter fun j => (ps[j - i]?).any Parameter.isByRef := by
  induction ps generalizing i with
  | nil => rfl
  | cons p ps ih =>
      rw [Parameter.refArgs, ih, List.length_cons, List.range'_succ, List.filter_cons, Nat.sub_self,
        List.getElem?_cons_zero, Option.any_some]
      have hrest : (List.range' (i + 1) ps.length).filter
            (fun j => (ps[j - (i + 1)]?).any Parameter.isByRef) =
          (List.range' (i + 1) ps.length).filter
            fun j => ((p :: ps)[j - i]?).any Parameter.isByRef := by
        apply List.filter_congr
        intro j hj
        have hle : i + 1 ≤ j := (List.mem_range'_1.mp hj).1
        obtain ⟨k, rfl⟩ := Nat.exists_eq_add_of_le hle
        rw [Nat.add_sub_cancel_left, Nat.add_assoc, Nat.add_sub_cancel_left, Nat.add_comm 1,
          List.getElem?_cons_succ]
      rw [hrest]
      cases p.isByRef <;> rfl

theorem refArgs_eq_refPositions : Parameter.refArgs m.parameters 0 = refPositions m := by
  rw [refArgs_eq_filter, refPositions, List.range_eq_range']
  rfl

/-- The frame in which `callFunction` is called. -/
def Frame.calling (m : MethodInfo) (args : List (Option (ClrValue N Obj))) : Frame N Obj :=
  { Frame.storing arrayLocals args (delegateCall m args).args (delegateCall m args).inArgs
      (delegateCall m args).outArgs with
    stack := [.array 2, .array 1, .array 0, .this] }

theorem steps_beginDelegate (hlen : args.length = m.parameters.length) :
    (o.shared m).sem.steps m.beginDelegate (.start args) =
      .ok (.calling m args) := by
  have hargs : allItems args m.parameters 0 = boxed args := @allItems_eq_boxed _ _ _ [] args hlen
  have hins : inItems args m.parameters 0 = boxedIn m args := @inItems_eq_boxedIn _ _ _ [] args hlen
  have hcreate (is : List Instr) : (o.shared m).sem.steps (m.initDelegateLocals ++ is) (.start args) =
      (o.shared m).sem.steps is
        (.storing arrayLocals args (List.replicate m.parameters.length .null)
          (List.replicate (m.parameters.filter Parameter.isInArg).length .null)
          (List.replicate (m.parameters.filter Parameter.isByRef).length (.int 0))) := by
    rw [← length_inArgs]
    rfl
  have hloop : (o.shared m).sem.steps
      (Parameter.storeArgs m.parameters ([] : List Parameter).length 0 0 ++
        [.Ldarg_0, .Ldloc 0, .Ldloc 1, .Ldloc 2])
      (.storing arrayLocals args ([] ++ List.replicate m.parameters.length .null)
        ([] ++ List.replicate (m.parameters.filter Parameter.isInArg).length .null)
        ([] ++ List.replicate (m.parameters.filter Parameter.isByRef).length (.int 0))) = _ :=
    steps_storeArgs rfl rfl rfl rfl rfl rfl rfl
  rw [MethodInfo.beginDelegate, List.append_assoc, hcreate]
  refine hloop.trans ?_
  rw [List.nil_append, List.nil_append, List.nil_append, List.length_nil, hargs, hins,
    refArgs_eq_refPositions]
  rfl

/-! ### The results -/

/-- A value is of the type. Only a reference may be `null`. -/
def DelegateContext.Fits (o : DelegateContext N Obj) (t : ClrType) : Item N Obj → Prop
  | .value v => o.isInstance t (.value v) = true
  | .null => t.isValueType = false
  | _ => False

/-- What is stored for an item. -/
def Item.stored : Item N Obj → Option (ClrValue N Obj)
  | .value v => some v
  | _ => none

variable {f : Frame N Obj} {x y : Item N Obj} {st : List (Item N Obj)} {is : List Instr}

/-- A value of a value type is unboxed, and then it is there as before. -/
theorem steps_unbox {t : ClrType} (hst : f.stack = x :: st) (hx : o.Fits t x)
    (hvalue : t.isValueType = true) :
    (o.shared m).sem.steps (.Unbox t :: .Ldobj t :: is) f = (o.shared m).sem.steps is f := by
  obtain ⟨stack, locals, heap, cells, trace⟩ := f
  obtain rfl : stack = x :: st := hst
  cases x with
  | value v =>
      have hunbox : (o.shared m).sem.step (.Unbox t) ⟨.value v :: st, locals, heap, cells, trace⟩ =
          .ok ⟨.value v :: st, locals, heap, cells, trace⟩ := if_pos hx
      rw [Sem.steps_cons hunbox, Sem.steps_cons rfl]
  | null => exact absurd (hvalue.symm.trans hx) (by decide)
  | _ => cases hx

/-- A reference is cast. -/
theorem steps_castclass {t : ClrType} (hst : f.stack = x :: st) (hx : o.Fits t x) :
    (o.shared m).sem.steps (.Castclass t :: is) f = (o.shared m).sem.steps is f := by
  obtain ⟨stack, locals, heap, cells, trace⟩ := f
  obtain rfl : stack = x :: st := hst
  cases x with
  | value v =>
      have hcast : (o.shared m).sem.step (.Castclass t) ⟨.value v :: st, locals, heap, cells, trace⟩ =
          .ok ⟨.value v :: st, locals, heap, cells, trace⟩ := if_pos hx
      rw [Sem.steps_cons hcast]
  | null => rw [Sem.steps_cons rfl]
  | _ => cases hx

/-- The result is stored, unboxed or cast. -/
theorem steps_storeReturn (hst : f.stack = x :: st) (hx : m.isVoid = false → o.Fits m.returnType x) :
    (o.shared m).sem.steps (m.storeReturn ++ is) f =
      (o.shared m).sem.steps is
        { f with stack := st
                 locals := Function.update f.locals 3 (if m.isVoid then .null else x) } := by
  have hstore : (o.shared m).sem.step (.Stloc 3) f =
      .ok { f with stack := st, locals := Function.update f.locals 3 x } := step_Stloc hst
  rw [MethodInfo.storeReturn]
  cases hvoid : m.isVoid with
  | true =>
      have hpop : (o.shared m).sem.step .Pop f = .ok { f with stack := st } := step_Pop hst
      simp only [if_true, List.cons_append, List.nil_append]
      rw [Sem.steps_cons hpop, Sem.steps_cons rfl, Sem.steps_cons rfl]
      rfl
  | false =>
      cases hvalue : m.returnType.isValueType with
      | true =>
          simp only [Bool.false_eq_true, if_false, if_true, List.cons_append, List.nil_append]
          rw [steps_unbox hst (hx hvoid) hvalue, Sem.steps_cons hstore]
      | false =>
          simp only [Bool.false_eq_true, if_false, List.cons_append, List.nil_append]
          rw [steps_castclass hst (hx hvoid), Sem.steps_cons hstore]

/-- A parameter is set from the array. -/
theorem steps_setRef {p : Parameter} {i a : ℕ} (hp : m.parameters[i]? = some p)
    (hbyRef : p.isByRef = true) (hlocal : f.locals 0 = .array a) (hst : f.stack = [])
    (hy : (f.array a)[i]? = some y) (hfits : o.Fits p.parameterType.elementType y) :
    (o.shared m).sem.steps (p.setRef i ++ is) f =
      (o.shared m).sem.steps is { f with cells := f.cells.set i y.stored } := by
  have hload : (o.shared m).sem.step (.Ldarg i) f = .ok (f.push (.address i)) := by
    have hpassed : passed (o.shared m).parameters f.cells i = .address i := by
      rw [passed, show (o.shared m).parameters[i]? = some p from hp]
      exact if_pos hbyRef
    rw [step_Ldarg, hpassed]
  have hget : (o.shared m).sem.steps
      (p.setRef i ++ is) f =
        (o.shared m).sem.steps ((if p.parameterType.elementType.isValueType then
          [.Unbox p.parameterType.elementType, .Ldobj p.parameterType.elementType,
            .Stobj p.parameterType.elementType]
          else [.Castclass p.parameterType.elementType, .Stind_Ref]) ++ is)
          { f with stack := [y, .address i] } := by
    simp only [Parameter.setRef, List.cons_append, List.nil_append]
    rw [Sem.steps_cons hload, Sem.steps_cons rfl, Sem.steps_cons rfl]
    have hstack : .int i :: f.locals 0 :: .address i :: f.stack =
        [.int i, .array a, .address i] := by rw [hlocal, hst]
    exact Sem.steps_cons (step_Ldelem_Ref hstack hy)
  rw [hget]
  cases hvalue : p.parameterType.elementType.isValueType with
  | true =>
      simp only [if_true, List.cons_append, List.nil_append]
      rw [steps_unbox rfl hfits hvalue]
      cases y with
      | value v =>
          rw [Sem.steps_cons rfl, ← hst]
          rfl
      | null => exact absurd (hvalue.symm.trans hfits) (by decide)
      | _ => cases hfits
  | false =>
      simp only [Bool.false_eq_true, if_false, List.cons_append, List.nil_append]
      rw [steps_castclass rfl hfits]
      cases y with
      | value v | null =>
          rw [Sem.steps_cons rfl, ← hst]
          rfl
      | _ => cases hfits

/-- What the parameters from number `i` on hold after the loop. -/
def storedCells (array : List (Item N Obj)) :
    List Parameter → ℕ → List (Option (ClrValue N Obj)) → List (Option (ClrValue N Obj))
  | [], _, cells => cells
  | p :: ps, i, cells =>
      storedCells array ps (i + 1)
        (if p.isByRef then cells.set i (array.getD i .null).stored else cells)

/-- The array has a value of its type for every parameter passed by reference. -/
def DelegateContext.FitsRefs (o : DelegateContext N Obj) (m : MethodInfo)
    (array : List (Item N Obj)) : Prop :=
  ∀ (i : ℕ) (p : Parameter), m.parameters[i]? = some p → p.isByRef = true →
    ∃ y, array[i]? = some y ∧ o.Fits p.parameterType.elementType y

/-- The loop over the parameters passed by reference. -/
theorem steps_setRefs {ps qs : List Parameter} {a : ℕ} (hps : m.parameters = qs ++ ps)
    (hlocal : f.locals 0 = .array a) (hst : f.stack = []) (hfits : o.FitsRefs m (f.array a)) :
    (o.shared m).sem.steps (Parameter.setRefs ps qs.length ++ is) f =
      (o.shared m).sem.steps is
        { f with cells := storedCells (f.array a) ps qs.length f.cells } := by
  induction ps generalizing qs f with
  | nil => rfl
  | cons p ps ih =>
      have hp : m.parameters[qs.length]? = some p := by
        rw [hps, List.getElem?_append_right (Nat.le_refl _), Nat.sub_self]
        rfl
      have hps' : m.parameters = (qs ++ [p]) ++ ps := by
        rw [hps, List.append_assoc, List.singleton_append]
      have hlen : qs.length + 1 = (qs ++ [p]).length := by
        rw [List.length_append, List.length_singleton]
      rw [Parameter.setRefs, storedCells, List.append_assoc, hlen]
      cases hbyRef : p.isByRef with
      | true =>
          obtain ⟨y, hy, hfit⟩ := hfits qs.length p hp hbyRef
          have hstored : ((f.array a).getD qs.length .null).stored = y.stored := by
            rw [List.getD_eq_getElem?_getD, hy]
            rfl
          rw [if_pos rfl, if_pos rfl, steps_setRef hp hbyRef hlocal hst hy hfit, hstored]
          exact ih hps' hlocal hst hfits
      | false =>
          rw [if_neg (by decide), if_neg (by decide), List.nil_append]
          exact ih hps' hlocal hst hfits

theorem getElem?_storedCells {array : List (Item N Obj)} {ps : List Parameter} {i k : ℕ} :
    (storedCells array ps i cells)[k]? =
      if i ≤ k ∧ (ps[k - i]?).any Parameter.isByRef = true ∧ k < cells.length then
        some (array.getD k .null).stored
      else cells[k]? := by
  induction ps generalizing i cells with
  | nil =>
      rw [storedCells, if_neg]
      rintro ⟨-, h, -⟩
      cases h
  | cons p ps ih =>
      have hset (x : Option (ClrValue N Obj)) : (if p.isByRef then cells.set i x else cells)[k]? =
          if i = k ∧ p.isByRef = true ∧ k < cells.length then some x else cells[k]? := by
        cases p.isByRef with
        | true => rw [if_pos rfl, List.getElem?_set]; grind
        | false => simp
      have hlen (x : Option (ClrValue N Obj)) :
          (if p.isByRef then cells.set i x else cells).length = cells.length := by
        cases p.isByRef with
        | true => exact List.length_set
        | false => rfl
      rw [storedCells, ih, hset, hlen]
      rcases Nat.lt_trichotomy k i with hlt | rfl | hlt
      · simp [show ¬ i + 1 ≤ k by omega, show ¬ i ≤ k by omega, show i ≠ k by omega]
      · simp [show ¬ k + 1 ≤ k by omega]
      · have hk : k - i = (k - (i + 1)) + 1 := by omega
        rw [hk, List.getElem?_cons_succ]
        simp [show i + 1 ≤ k by omega, show i ≤ k by omega, show i ≠ k by omega]

/-! ### The whole run -/

/-- The frame before the result is loaded. -/
def Frame.stored (f : Frame N Obj) (m : MethodInfo) (x : Item N Obj) (array : List (Item N Obj)) :
    Frame N Obj :=
  { f with stack := []
           locals := Function.update f.locals 3 (if m.isVoid then .null else x)
           cells := storedCells array m.parameters 0 f.cells }

theorem steps_finish {a : ℕ} (hlocal : f.locals 0 = .array a) (hst : f.stack = [x])
    (hx : m.isVoid = false → o.Fits m.returnType x) (hfits : o.FitsRefs m (f.array a)) :
    ∃ g, (o.shared m).sem.steps m.finish f = .ok g ∧
      g.stack = (if m.isVoid then [] else [x]) ∧
      g.cells = storedCells (f.array a) m.parameters 0 f.cells := by
  have hrefs (is : List Instr) : (o.shared m).sem.steps
      (Parameter.setRefs m.parameters ([] : List Parameter).length ++ is)
      { f with stack := [], locals := Function.update f.locals 3 (if m.isVoid then .null else x) } =
        (o.shared m).sem.steps is (f.stored m x (f.array a)) :=
    steps_setRefs rfl hlocal rfl hfits
  rw [List.length_nil] at hrefs
  rw [MethodInfo.finish, List.append_assoc, steps_storeReturn hst hx, hrefs]
  cases hvoid : m.isVoid with
  | true => exact ⟨f.stored m x (f.array a), rfl, rfl, rfl⟩
  | false =>
      have hresult : (f.stored m x (f.array a)).locals 3 = x := by
        change Function.update f.locals 3 (if m.isVoid then .null else x) 3 = x
        rw [hvoid]
        exact Function.update_self ..
      refine ⟨{ f.stored m x (f.array a) with stack := [x] }, ?_, rfl, rfl⟩
      rw [if_neg Bool.false_ne_true, Sem.steps_cons rfl, hresult]
      rfl

theorem step_callFunction_none {o : DelegateContext N Obj}
    (hcall : o.callFunction (delegateCall m args) = none) :
    (o.sem m).step .CallCallFunction ⟨.calling m args, []⟩ =
      .error ⟨.calling m args, [delegateCall m args]⟩ := by
  have harrays : o.callFunction ⟨(Frame.calling m args).array 0, (Frame.calling m args).array 1,
      (Frame.calling m args).array 2⟩ = none := hcall
  simp only [DelegateContext.sem, DelegateInstr.step, Frame.calling] at harrays ⊢
  rw [harrays]
  rfl

theorem step_callFunction_some {o : DelegateContext N Obj} {x : Item N Obj}
    {array : List (Item N Obj)}
    (hcall : o.callFunction (delegateCall m args) = some (x, array)) :
    (o.sem m).step .CallCallFunction ⟨.calling m args, []⟩ =
      .ok ⟨{ Frame.calling m args with
              stack := [x]
              heap := [array, (delegateCall m args).inArgs, (delegateCall m args).outArgs] },
            [delegateCall m args]⟩ := by
  have harrays : o.callFunction ⟨(Frame.calling m args).array 0, (Frame.calling m args).array 1,
      (Frame.calling m args).array 2⟩ = some (x, array) := hcall
  simp only [DelegateContext.sem, DelegateInstr.step, Frame.calling] at harrays ⊢
  rw [harrays]
  rfl

/-- **The run of a delegate**: it makes one call, and returns and stores what the call has
left, if that is of the types of the signature. -/
theorem exec_generateDelegate (o : DelegateContext N Obj) (hlen : args.length = m.parameters.length) :
    ((o.sem m).exec (GenerateDelegate m) none (.start args)).frame.calls = [delegateCall m args] ∧
      ∀ x array, o.callFunction (delegateCall m args) = some (x, array) →
        (m.isVoid = false → o.Fits m.returnType x) → o.FitsRefs m array →
        ∃ f, (o.sem m).exec (GenerateDelegate m) none (.start args) = .returned f ∧
          f.frame.stack = (if m.isVoid then [] else [x]) ∧
          f.frame.cells = storedCells array m.parameters 0 args := by
  have hbegin := steps_shared m.beginDelegate (.start args) [] (m := m) (o := o)
  rw [steps_beginDelegate hlen] at hbegin
  rw [GenerateDelegate, emitShared, DelegateFrame.start, Sem.exec_straight hbegin,
    List.singleton_append, Sem.exec]
  cases hcall : o.callFunction (delegateCall m args) with
  | none =>
      rw [step_callFunction_none hcall]
      exact ⟨rfl, fun x array h => by cases h⟩
  | some r =>
      obtain ⟨x, array⟩ := r
      rw [step_callFunction_some hcall]
      dsimp only
      rw [emitShared]
      refine ⟨?_, ?_⟩
      · rw [Sem.exec_ret, steps_shared]
        cases (o.shared m).sem.steps m.finish _ with
        | ok g => rfl
        | error g => rfl
      · rintro x' array' h hx hfits
        obtain ⟨rfl, rfl⟩ := Prod.mk.inj (Option.some.inj h)
        obtain ⟨g, hg, hstack, hcells⟩ := @steps_finish N Obj m o
          { Frame.calling m args with
            stack := [x]
            heap := [array, (delegateCall m args).inArgs, (delegateCall m args).outArgs] }
          x 0 rfl rfl hx hfits
        have hfinish := steps_shared m.finish { Frame.calling m args with
          stack := [x]
          heap := [array, (delegateCall m args).inArgs, (delegateCall m args).outArgs] }
          [delegateCall m args] (m := m) (o := o)
        rw [hg] at hfinish
        rw [Sem.exec_straight hfinish]
        exact ⟨_, rfl, hstack, hcells⟩

/-- A delegate type `int Rename(ref string name, int times)`. -/
def rename : MethodInfo where
  token := 0
  name := "Invoke"
  isPrivate := false
  isFinal := false
  isVirtual := true
  isAbstract := false
  returnType := .integral .int
  parameters := [⟨.byRef .string, false, false⟩, ⟨.integral .int, false, false⟩]

/-- A function that gives 3 and the name `b`. -/
def renamer : DelegateContext ℕ ℕ where
  callFunction call := some (.value (.integral .int 3), call.args.set 0 (.value (.string "b")))
  isInstance
    | .integral .int, .value (.integral .int _) => true
    | .string, .value (.string _) => true
    | _, _ => false

end UnityLua
