import UnityLua.Library.Arena
import UnityLua.MethodWrapper
import UnityLua.StackNeutrality

/-!
# Lua functions as delegates

A delegate made of a Lua function calls it with the incoming parameters and distributes what
it returns: the first value is the result, the following ones go to the parameters passed by
reference. Three places count along: the return types of `GetDelegate`, `popValues`, and
`LuaDelegate.callFunction`.

## Main results

* `getAsTypes_convertAll`: `popValues` converts value by value while there are types.
* `invoke_adjusts_iff`: the delegate follows Lua's adjustment exactly when the function returns
  as many values as there are places, and none of the conversions throws.
-/

namespace UnityLua

open Library LuaLib LuaState

variable {N Obj W : Type}

/-- The `Invoke` method of a delegate type. -/
structure DelegateType (N Obj : Type) where
  returnType : ClrType
  parameters : List (ParameterInfo N Obj)

namespace DelegateType

/-- The types of the parameters passed by reference. -/
def refTypes (d : DelegateType N Obj) : List ClrType :=
  (d.parameters.filter fun p => p.parameterType.isByRef).map ParameterInfo.parameterType

/-- The `returnTypes` that `GetDelegate` sets. -/
def returnTypes (d : DelegateType N Obj) : List ClrType := d.returnType :: d.refTypes

/-- The indexes of the parameters passed by reference, the first parameter being number
`i`. -/
def outArgs : ℕ → List (ParameterInfo N Obj) → List ℕ
  | _, [] => []
  | i, p :: ps => (if p.parameterType.isByRef then [i] else []) ++ outArgs (i + 1) ps

/-- The arguments without those for `out` parameters. -/
def inArgs (d : DelegateType N Obj) (args : List (Option (ClrValue N Obj))) :
    List (Option (ClrValue N Obj)) :=
  ((d.parameters.zip args).filter fun p => p.1.isIn || !p.1.isOut).map Prod.snd

end DelegateType

namespace LuaDelegate

/-- An element of an array that may be `null`. -/
def item {α : Type} (array : Option (List α)) (i : ℕ) : LuaM N Obj W α :=
  match array with
  | none => Prog.throw (.clr .nullReference)
  | some vs =>
      match vs[i]? with
      | none => Prog.throw (.clr .indexOutOfRange)
      | some v => pure v

/-- The assignment to an element of the argument array. -/
def assignItem (args : List (Option (ClrValue N Obj))) (i : ℕ) (v : Option (ClrValue N Obj)) :
    LuaM N Obj W (List (Option (ClrValue N Obj))) :=
  if i < args.length then pure (args.set i v) else Prog.throw (.clr .indexOutOfRange)

/-- The loop of `callFunction` over the parameters passed by reference. -/
def storeOuts (returnValues : Option (List (Option (ClrValue N Obj)))) :
    List ℕ → ℕ → List (Option (ClrValue N Obj)) →
      LuaM N Obj W (List (Option (ClrValue N Obj)))
  | [], _, args => pure args
  | out :: outArgs, iRefArgs, args => do
      let v ← item returnValues iRefArgs
      let args ← assignItem args out v
      storeOuts returnValues outArgs (iRefArgs + 1) args

/-- The result and the index of the first value behind it. -/
def takeResult (returnTypes : List ClrType)
    (returnValues : Option (List (Option (ClrValue N Obj)))) :
    LuaM N Obj W (Option (ClrValue N Obj) × ℕ) := do
  let first ← item (some returnTypes) 0
  if first = .void then pure (none, 0)
  else
    let returnValue ← item returnValues 0
    pure (returnValue, 1)

/-- `LuaDelegate.callFunction`: the result and the argument array. -/
def callFunction (vm : Vm N Obj W) (function : ClrValue N Obj) (returnTypes : List ClrType)
    (args inArgs : List (Option (ClrValue N Obj))) (outArgs : List ℕ) :
    LuaM N Obj W (Option (ClrValue N Obj) × List (Option (ClrValue N Obj))) := do
  let returnValues ← LuaState.callFunction vm (some function) (some inArgs) (some returnTypes)
  let (returnValue, iRefArgs) ← takeResult returnTypes returnValues
  let args ← storeOuts returnValues outArgs iRefArgs args
  pure (returnValue, args)

/-- The call that the generated `CallFunction` of the delegate type makes. -/
def invoke (vm : Vm N Obj W) (d : DelegateType N Obj) (function : ClrValue N Obj)
    (args : List (Option (ClrValue N Obj))) :
    LuaM N Obj W (Option (ClrValue N Obj) × List (Option (ClrValue N Obj))) :=
  callFunction vm function d.returnTypes args (d.inArgs args) (DelegateType.outArgs 0 d.parameters)

end LuaDelegate

/-! ### Lua's adjustment -/

namespace DelegateType

/-- The types of the values that the delegate has a place for. -/
def expected (d : DelegateType N Obj) : List ClrType :=
  if d.returnType = .void then d.refTypes else d.returnType :: d.refTypes

/-- The result among the converted values. -/
def result (d : DelegateType N Obj) (cs : List (Option (ClrValue N Obj))) :
    Option (ClrValue N Obj) :=
  if d.returnType = .void then none else cs.headD none

/-- The converted values for the parameters passed by reference. -/
def outs (d : DelegateType N Obj) (cs : List (Option (ClrValue N Obj))) :
    List (Option (ClrValue N Obj)) :=
  if d.returnType = .void then cs else cs.tail

/-- The arguments, with the values stored into the parameters passed by reference in
declared order. -/
def stored : List (ParameterInfo N Obj) → List (Option (ClrValue N Obj)) →
    List (Option (ClrValue N Obj)) → List (Option (ClrValue N Obj))
  | p :: ps, a :: args, outs =>
      if p.parameterType.isByRef then outs.headD none :: stored ps args outs.tail
      else a :: stored ps args outs
  | _, args, _ => args

end DelegateType

/-- The values of a list, converted to the types in turn: a missing value is `null`, and
values without a type are ignored. -/
def convertAll (vm : Vm N Obj W) :
    W → List ClrType → List (LuaValue N) → Except Exn (List (Option (ClrValue N Obj)) × W)
  | w, [], _ => .ok ([], w)
  | w, _ :: types, [] => do
      let (cs, w) ← convertAll vm w types []
      .ok (none :: cs, w)
  | w, type :: types, v :: vs => do
      let c ← (UnityLua.getAsType (vm.env w) v type).1
      let (cs, w) ← convertAll vm (((wrapped c).map (vm.ref w)).getD w) types vs
      .ok (c :: cs, w)

/-! ### The typed `popValues` -/

section PopValues

variable (vm : Vm N Obj W)

/-- A conversion in the lowest slot above `base`. -/
theorem getAsType_apply (above base : List (LuaValue N)) (callee v : LuaValue N) (w : W)
    (type : ClrType) :
    LuaState.getAsType vm (base.length + 1) type ⟨callee, above ++ v :: base, w⟩ =
      match UnityLua.getAsType (vm.env w) v type with
      | (.error e, slot) => (.error (.clr e), ⟨callee, above ++ slot :: base, w⟩)
      | (.ok c, slot) =>
          (.ok c, ⟨callee, above ++ slot :: base, ((wrapped c).map (vm.ref w)).getD w⟩) := by
  have hoffset : (above ++ v :: base).length - (base.length + 1) = above.length := by
    simp
  have hvalue : Machine.value vm ⟨callee, above ++ v :: base, w⟩ (.rel ((base.length + 1 : ℕ) : ℤ)) =
      v := by
    change (if base.length + 1 ≤ (above ++ v :: base).length
      then ((above ++ v :: base)[(above ++ v :: base).length - (base.length + 1)]?).getD .nil
      else .nil) = v
    rw [if_pos (by simp), hoffset, List.getElem?_append_right (Nat.le_refl _),
      Nat.sub_self]
    rfl
  have hset (slot : LuaValue N) :
      (above ++ v :: base).set (Machine.offset ⟨callee, above ++ v :: base, w⟩
        ((base.length + 1 : ℕ) : ℤ)) slot = above ++ slot :: base := by
    change (above ++ v :: base).set ((above ++ v :: base).length - (base.length + 1)) slot = _
    rw [hoffset]
    exact set_length_append rfl v slot base
  rw [LuaState.getAsType]
  rw [hvalue]
  generalize UnityLua.getAsType (vm.env w) v type = converted
  obtain ⟨r, slot⟩ := converted
  cases r with
  | error e => simp only [hset]
  | ok c => simp only [hset]

theorem getElem?_of_drop {α : Type} {l rest : List α} {i : ℕ} {a : α} (h : l.drop i = a :: rest) :
    l[i]? = some a ∧ l.drop (i + 1) = rest := by
  constructor
  · rw [← List.head?_drop, h, List.head?_cons]
  · rw [← List.tail_drop, h, List.tail_cons]

/-- A round of the loop of `popValues`, for which there is a type. -/
theorem getAsTypes_step {popTypes : List ClrType} {iTypes : ℕ} {type : ClrType}
    (htype : popTypes[iTypes]? = some type) (v : LuaValue N) (values base : List (LuaValue N))
    (callee : LuaValue N) (w : W) :
    getAsTypes vm popTypes (base.length + 1) iTypes (v :: values).length
        ⟨callee, (v :: values).reverse ++ base, w⟩ =
      match UnityLua.getAsType (vm.env w) v type with
      | (.error e, slot) => (.error (.clr e), ⟨callee, values.reverse ++ slot :: base, w⟩)
      | (.ok c, slot) =>
          (getAsTypes vm popTypes ((slot :: base).length + 1) (iTypes + 1) values.length >>=
            fun cs => pure (c :: cs))
              ⟨callee, values.reverse ++ slot :: base, ((wrapped c).map (vm.ref w)).getD w⟩ := by
  have happly := getAsType_apply vm values.reverse base callee v w type
  have hstack : (v :: values).reverse ++ base = values.reverse ++ v :: base := by simp
  rw [hstack, List.length_cons, getAsTypes]
  simp only [htype]
  cases hconvert : UnityLua.getAsType (vm.env w) v type with
  | mk r slot =>
  rw [hconvert] at happly
  cases r with
  | error e => exact Prog.bind_error happly
  | ok c => exact Prog.bind_ok happly

/-- `popValues` converts value by value, as long as there are types. -/
theorem getAsTypes_convertAll {popTypes types : List ClrType} {iTypes : ℕ}
    (htypes : popTypes.drop iTypes = types) (values base : List (LuaValue N))
    (hlen : values.length ≤ types.length) (callee : LuaValue N) (w : W) :
    match convertAll vm w (types.take values.length) values with
    | .ok (cs, w') => ∃ slots,
        getAsTypes vm popTypes (base.length + 1) iTypes values.length
          ⟨callee, values.reverse ++ base, w⟩ = (.ok cs, ⟨callee, slots ++ base, w'⟩)
    | .error _ => ∃ e m',
        getAsTypes vm popTypes (base.length + 1) iTypes values.length
          ⟨callee, values.reverse ++ base, w⟩ = (.error (.clr e), m') := by
  induction values generalizing types iTypes base w with
  | nil => cases types <;> exact ⟨[], rfl⟩
  | cons v values ih =>
      cases types with
      | nil => simp at hlen
      | cons type types =>
          obtain ⟨htype, hdrop⟩ := getElem?_of_drop htypes
          rw [getAsTypes_step vm htype, List.length_cons, List.take_succ_cons, convertAll]
          cases UnityLua.getAsType (vm.env w) v type with
          | mk r slot =>
          cases r with
          | error e => exact ⟨e, _, rfl⟩
          | ok c =>
              have hrest := ih hdrop (slot :: base) (by simpa using hlen)
                (((wrapped c).map (vm.ref w)).getD w)
              simp only [bind, Except.bind]
              cases hall : convertAll vm (((wrapped c).map (vm.ref w)).getD w)
                  (types.take values.length) values with
              | error e =>
                  rw [hall] at hrest
                  obtain ⟨e', m', hrun⟩ := hrest
                  exact ⟨e', m', Prog.bind_error hrun⟩
              | ok r =>
                  rw [hall] at hrest
                  obtain ⟨slots, hrun⟩ := hrest
                  refine ⟨slots ++ [slot], ?_⟩
                  rw [List.append_assoc]
                  exact (Prog.bind_ok hrun).trans rfl

/-- With a value too many there is no type for it. -/
theorem getAsTypes_surplus {popTypes types : List ClrType} {iTypes : ℕ}
    (htypes : popTypes.drop iTypes = types) (values base : List (LuaValue N))
    (hlen : types.length < values.length) (callee : LuaValue N) (w : W) :
    ∃ e m', getAsTypes vm popTypes (base.length + 1) iTypes values.length
      ⟨callee, values.reverse ++ base, w⟩ = (.error (.clr e), m') := by
  induction values generalizing types iTypes base w with
  | nil => simp at hlen
  | cons v values ih =>
      cases types with
      | nil =>
          have htype : popTypes[iTypes]? = none := by
            rw [← List.head?_drop, htypes, List.head?_nil]
          rw [List.length_cons, getAsTypes]
          simp only [htype]
          exact ⟨_, _, rfl⟩
      | cons type types =>
          obtain ⟨htype, hdrop⟩ := getElem?_of_drop htypes
          rw [getAsTypes_step vm htype]
          cases UnityLua.getAsType (vm.env w) v type with
          | mk r slot =>
          cases r with
          | error e => exact ⟨e, _, rfl⟩
          | ok c =>
              obtain ⟨e, m', hrun⟩ := ih hdrop (slot :: base) (by simpa using hlen)
                (((wrapped c).map (vm.ref w)).getD w)
              exact ⟨e, m', Prog.bind_error hrun⟩

/-- The types that `popValues` goes through are those the delegate expects. -/
theorem expected_eq_drop (d : DelegateType N Obj) :
    d.returnTypes.drop (if d.returnType = .void then 1 else 0) = d.expected := by
  rw [DelegateType.expected, DelegateType.returnTypes]
  split <;> rfl

theorem LuaSetTop_apply (slots base : List (LuaValue N)) (callee : LuaValue N) (w : W) :
    (LuaSetTop (base.length : ℕ) : LuaM N Obj W Unit) ⟨callee, slots ++ base, w⟩ =
      (.ok (), ⟨callee, base, w⟩) := by
  simp [LuaSetTop, Prog.modify]

/-- When there are values, `popValues` converts them and sets the top back. -/
theorem popValuesAs_apply (d : DelegateType N Obj) {values : List (LuaValue N)}
    (hvalues : values ≠ []) (base : List (LuaValue N)) (callee : LuaValue N) (w : W) :
    popValuesAs vm base.length d.returnTypes ⟨callee, values.reverse ++ base, w⟩ =
      (do
        let cs ← getAsTypes vm d.returnTypes (base.length + 1)
          (if d.returnType = .void then 1 else 0) values.length
        LuaSetTop base.length
        pure (some cs) : LuaM N Obj W _) ⟨callee, values.reverse ++ base, w⟩ := by
  have htop : (values.reverse ++ base).length = base.length + values.length := by
    simp [Nat.add_comm]
  have hne : base.length ≠ base.length + values.length := by
    have := List.length_pos_of_ne_nil hvalues
    omega
  rw [popValuesAs]
  refine (Prog.bind_ok (rfl : LuaGetTop _ = (.ok _, _))).trans ?_
  simp only [htop, if_neg hne, Nat.add_sub_cancel_left]
  rfl

/-- `popValues` for a delegate: the values, converted, as long as there are not too many. -/
theorem popValuesAs_delegate (d : DelegateType N Obj) (values base : List (LuaValue N))
    (hlen : values.length ≤ d.expected.length) (callee : LuaValue N) (w : W) :
    match convertAll vm w (d.expected.take values.length) values with
    | .ok (cs, w') =>
        popValuesAs vm base.length d.returnTypes ⟨callee, values.reverse ++ base, w⟩ =
          (.ok (if values = [] then none else some cs), ⟨callee, base, w'⟩)
    | .error _ => ∃ e m',
        popValuesAs vm base.length d.returnTypes ⟨callee, values.reverse ++ base, w⟩ =
          (.error (.clr e), m') := by
  by_cases hvalues : values = []
  · subst hvalues
    have hempty : popValuesAs vm base.length d.returnTypes ⟨callee, base, w⟩ =
        (.ok none, ⟨callee, base, w⟩) := by
      rw [popValuesAs]
      exact (Prog.bind_ok (rfl : LuaGetTop _ = (.ok _, _))).trans (by rw [if_pos rfl]; rfl)
    rw [List.length_nil, List.take_zero, convertAll]
    simpa using hempty
  · have hloop := getAsTypes_convertAll vm (expected_eq_drop d) values base hlen callee w
    rw [popValuesAs_apply vm d hvalues]
    cases hall : convertAll vm w (d.expected.take values.length) values with
    | error e =>
        rw [hall] at hloop
        obtain ⟨e', m', hrun⟩ := hloop
        exact ⟨e', m', Prog.bind_error hrun⟩
    | ok r =>
        rw [hall] at hloop
        obtain ⟨slots, hrun⟩ := hloop
        simp only [if_neg hvalues]
        exact (Prog.bind_ok hrun).trans
          ((Prog.bind_ok (LuaSetTop_apply slots base callee r.2)).trans rfl)

theorem popValuesAs_surplus (d : DelegateType N Obj) (values base : List (LuaValue N))
    (hlen : d.expected.length < values.length) (callee : LuaValue N) (w : W) :
    ∃ e m', popValuesAs vm base.length d.returnTypes ⟨callee, values.reverse ++ base, w⟩ =
      (.error (.clr e), m') := by
  obtain ⟨e, m', hrun⟩ := getAsTypes_surplus vm (expected_eq_drop d) values base hlen callee w
  have hvalues : values ≠ [] := fun h => by simp [h] at hlen
  rw [popValuesAs_apply vm d hvalues]
  exact ⟨e, m', Prog.bind_error hrun⟩

end PopValues

/-! ### Distributing the values -/

namespace LuaDelegate

variable {array : Option (List (Option (ClrValue N Obj)))} {m : Machine N W}

theorem item_ok {α : Type} {array : Option (List α)} {i : ℕ} {v : α}
    (h : (array.getD [])[i]? = some v) : (item array i : LuaM N Obj W α) m = (.ok v, m) := by
  cases array with
  | none => simp at h
  | some vs =>
      have h : vs[i]? = some v := h
      simp only [item, h]
      rfl

theorem item_error {α : Type} {array : Option (List α)} {i : ℕ}
    (h : (array.getD []).length ≤ i) :
    ∃ e, (item array i : LuaM N Obj W α) m = (.error (.clr e), m) := by
  cases array with
  | none => exact ⟨_, rfl⟩
  | some vs =>
      have h : vs[i]? = none := List.getElem?_eq_none h
      refine ⟨.indexOutOfRange, ?_⟩
      simp only [item, h]
      rfl

/-- The number of parameters passed by reference. -/
def refCount (ps : List (ParameterInfo N Obj)) : ℕ :=
  (ps.filter fun p => p.parameterType.isByRef).length

/-- A round of the loop, for which there is a value. -/
theorem storeOuts_step {p : ParameterInfo N Obj} (href : p.parameterType.isByRef = true)
    (ps : List (ParameterInfo N Obj)) {pre : List (Option (ClrValue N Obj))} {i k : ℕ}
    (hpre : pre.length = i) (a : Option (ClrValue N Obj)) (args : List (Option (ClrValue N Obj)))
    {v : Option (ClrValue N Obj)} (hitem : (array.getD [])[k]? = some v) :
    storeOuts array (DelegateType.outArgs i (p :: ps)) k (pre ++ a :: args) m =
      storeOuts array (DelegateType.outArgs (i + 1) ps) (k + 1) ((pre ++ [v]) ++ args) m := by
  have hassign : (assignItem (pre ++ a :: args) i v : LuaM N Obj W _) m =
      (.ok ((pre ++ [v]) ++ args), m) := by
    rw [assignItem]
    rw [if_pos (by simp [hpre]), set_length_append hpre, List.append_assoc, List.singleton_append]
    rfl
  simp only [DelegateType.outArgs, href, if_true, List.singleton_append, storeOuts]
  exact (Prog.bind_ok (item_ok hitem)).trans (Prog.bind_ok hassign)

/-- With a value for each parameter passed by reference, they are stored in declared
order. -/
theorem storeOuts_ok (ps : List (ParameterInfo N Obj))
    {pre args vs : List (Option (ClrValue N Obj))} {i k : ℕ} (hpre : pre.length = i)
    (hvs : (array.getD []).drop k = vs) (hargs : args.length = ps.length)
    (hcount : refCount ps ≤ vs.length) :
    storeOuts array (DelegateType.outArgs i ps) k (pre ++ args) m =
      (.ok (pre ++ DelegateType.stored ps args vs), m) := by
  induction ps generalizing pre args vs i k with
  | nil =>
      obtain rfl := List.length_eq_zero_iff.mp hargs
      rfl
  | cons p ps ih =>
      cases args with
      | nil => simp at hargs
      | cons a args =>
          have hpre' (b : Option (ClrValue N Obj)) : (pre ++ [b]).length = i + 1 := by
            rw [List.length_append, hpre, List.length_singleton]
          cases href : p.parameterType.isByRef with
          | false =>
              have hrest := ih (hpre' a) hvs (Nat.succ.inj hargs)
                (by simpa [refCount, href] using hcount)
              simpa [DelegateType.outArgs, DelegateType.stored, href] using hrest
          | true =>
              cases vs with
              | nil => simp [refCount, href] at hcount
              | cons v vs =>
                  obtain ⟨hitem, hdrop⟩ := getElem?_of_drop hvs
                  rw [storeOuts_step href ps hpre a args hitem,
                    ih (hpre' v) hdrop (Nat.succ.inj hargs) (by simpa [refCount, href] using hcount)]
                  simp [DelegateType.stored, href]

/-- With a value too few, the loop runs out of the array. -/
theorem storeOuts_error (ps : List (ParameterInfo N Obj))
    {pre args vs : List (Option (ClrValue N Obj))} {i k : ℕ} (hpre : pre.length = i)
    (hvs : (array.getD []).drop k = vs) (hargs : args.length = ps.length)
    (hcount : vs.length < refCount ps) :
    ∃ e m', storeOuts array (DelegateType.outArgs i ps) k (pre ++ args) m =
      (.error (.clr e), m') := by
  induction ps generalizing pre args vs i k with
  | nil => simp [refCount] at hcount
  | cons p ps ih =>
      cases args with
      | nil => simp at hargs
      | cons a args =>
          have hpre' (b : Option (ClrValue N Obj)) : (pre ++ [b]).length = i + 1 := by
            rw [List.length_append, hpre, List.length_singleton]
          cases href : p.parameterType.isByRef with
          | false =>
              have hrest := ih (hpre' a) hvs (Nat.succ.inj hargs)
                (by simpa [refCount, href] using hcount)
              simpa [DelegateType.outArgs, href] using hrest
          | true =>
              cases vs with
              | nil =>
                  obtain ⟨e, herr⟩ := item_error (m := m) (List.drop_eq_nil_iff.mp hvs)
                  simp only [DelegateType.outArgs, href, if_true, List.singleton_append, storeOuts]
                  exact ⟨e, m, Prog.bind_error herr⟩
              | cons v vs =>
                  obtain ⟨hitem, hdrop⟩ := getElem?_of_drop hvs
                  rw [storeOuts_step href ps hpre a args hitem]
                  exact ih (hpre' v) hdrop (Nat.succ.inj hargs)
                    (by simpa [refCount, href] using hcount)

/-- The end of `callFunction`, after `popValues`. -/
def distribute (d : DelegateType N Obj) (args : List (Option (ClrValue N Obj)))
    (returnValues : Option (List (Option (ClrValue N Obj)))) :
    LuaM N Obj W (Option (ClrValue N Obj) × List (Option (ClrValue N Obj))) := do
  let (returnValue, iRefArgs) ← takeResult d.returnTypes returnValues
  let args ← storeOuts returnValues (DelegateType.outArgs 0 d.parameters) iRefArgs args
  pure (returnValue, args)

theorem length_expected (d : DelegateType N Obj) :
    d.expected.length = refCount d.parameters + if d.returnType = .void then 0 else 1 := by
  rw [DelegateType.expected, DelegateType.refTypes, refCount]
  split <;> simp

theorem takeResult_void {d : DelegateType N Obj} (h : d.returnType = .void) :
    (takeResult d.returnTypes array : LuaM N Obj W _) m = (.ok (none, 0), m) := by
  have hfirst : (item (some d.returnTypes) 0 : LuaM N Obj W _) m = (.ok d.returnType, m) := rfl
  rw [takeResult]
  refine (Prog.bind_ok hfirst).trans ?_
  rw [if_pos h]
  rfl

theorem takeResult_value {d : DelegateType N Obj} (h : d.returnType ≠ .void) :
    (takeResult d.returnTypes array : LuaM N Obj W _) m =
      (item array 0 >>= fun returnValue => pure (returnValue, 1) : LuaM N Obj W _) m := by
  have hfirst : (item (some d.returnTypes) 0 : LuaM N Obj W _) m = (.ok d.returnType, m) := rfl
  rw [takeResult]
  refine (Prog.bind_ok hfirst).trans ?_
  rw [if_neg h]

/-- With a value for each place, each gets its value. -/
theorem distribute_ok (d : DelegateType N Obj) {args cs : List (Option (ClrValue N Obj))}
    (hcs : array.getD [] = cs) (hargs : args.length = d.parameters.length)
    (hlen : cs.length = d.expected.length) :
    distribute d args array m =
      (.ok (d.result cs, DelegateType.stored d.parameters args (d.outs cs)), m) := by
  rw [length_expected] at hlen
  rw [distribute, DelegateType.result, DelegateType.outs]
  by_cases hvoid : d.returnType = .void
  · rw [if_pos hvoid] at hlen
    rw [if_pos hvoid, if_pos hvoid]
    have hstore := @storeOuts_ok _ _ _ array m d.parameters [] args cs 0 0 rfl
      (by rw [hcs, List.drop_zero]) hargs (Nat.le_of_eq hlen.symm)
    exact (Prog.bind_ok (takeResult_void hvoid)).trans ((Prog.bind_ok hstore).trans rfl)
  · rw [if_neg hvoid] at hlen
    rw [if_neg hvoid, if_neg hvoid]
    cases cs with
    | nil => simp at hlen
    | cons c cs =>
        have hitem : (array.getD [])[0]? = some c := by rw [hcs, List.getElem?_cons_zero]
        have hdrop : (array.getD []).drop 1 = cs := by rw [hcs, List.drop_succ_cons, List.drop_zero]
        have htake : (takeResult d.returnTypes array : LuaM N Obj W _) m = (.ok (c, 1), m) :=
          (takeResult_value hvoid).trans ((Prog.bind_ok (item_ok hitem)).trans rfl)
        have hstore := @storeOuts_ok _ _ _ array m d.parameters [] args cs 0 1 rfl hdrop hargs
          (Nat.le_of_eq (Nat.succ.inj hlen).symm)
        exact (Prog.bind_ok htake).trans ((Prog.bind_ok hstore).trans rfl)

/-- With a value too few, an index or the array is missing. -/
theorem distribute_error (d : DelegateType N Obj) {args cs : List (Option (ClrValue N Obj))}
    (hcs : array.getD [] = cs) (hargs : args.length = d.parameters.length)
    (hlen : cs.length < d.expected.length) :
    ∃ e m', distribute d args array m = (.error (.clr e), m') := by
  rw [length_expected] at hlen
  rw [distribute]
  by_cases hvoid : d.returnType = .void
  · rw [if_pos hvoid] at hlen
    obtain ⟨e, m', hstore⟩ := @storeOuts_error _ _ _ array m d.parameters [] args cs 0 0 rfl
      (by rw [hcs, List.drop_zero]) hargs hlen
    exact ⟨e, m', (Prog.bind_ok (takeResult_void hvoid)).trans (Prog.bind_error hstore)⟩
  · rw [if_neg hvoid] at hlen
    cases cs with
    | nil =>
        obtain ⟨e, herr⟩ := item_error (m := m) (i := 0) (Nat.le_of_eq (congrArg List.length hcs))
        exact ⟨e, m, Prog.bind_error ((takeResult_value hvoid).trans (Prog.bind_error herr))⟩
    | cons c cs =>
        have hitem : (array.getD [])[0]? = some c := by rw [hcs, List.getElem?_cons_zero]
        have hdrop : (array.getD []).drop 1 = cs := by rw [hcs, List.drop_succ_cons, List.drop_zero]
        have htake : (takeResult d.returnTypes array : LuaM N Obj W _) m = (.ok (c, 1), m) :=
          (takeResult_value hvoid).trans ((Prog.bind_ok (item_ok hitem)).trans rfl)
        obtain ⟨e, m', hstore⟩ := @storeOuts_error _ _ _ array m d.parameters [] args cs 0 1 rfl
          hdrop hargs (Nat.lt_of_succ_lt_succ hlen)
        exact ⟨e, m', (Prog.bind_ok htake).trans (Prog.bind_error hstore)⟩

end LuaDelegate

/-! ### When the delegate follows the adjustment -/

theorem length_convertAll (vm : Vm N Obj W) {w : W} {types : List ClrType}
    {values : List (LuaValue N)} {r : List (Option (ClrValue N Obj)) × W}
    (h : convertAll vm w types values = .ok r) : r.1.length = types.length := by
  induction types generalizing w values r with
  | nil =>
      obtain rfl := by simpa [convertAll] using h
      rfl
  | cons type types ih =>
      cases values with
      | nil =>
          cases hrest : convertAll vm w types [] with
          | error e => simp [convertAll, hrest, bind, Except.bind] at h
          | ok r' =>
              obtain rfl := by simpa [convertAll, hrest, bind, Except.bind] using h
              exact congrArg Nat.succ (ih hrest)
      | cons v values =>
          cases hv : (UnityLua.getAsType (vm.env w) v type).1 with
          | error e => simp [convertAll, hv, bind, Except.bind] at h
          | ok c =>
              cases hrest : convertAll vm (((wrapped c).map (vm.ref w)).getD w) types values with
              | error e => simp [convertAll, hv, hrest, bind, Except.bind] at h
              | ok r' =>
                  obtain rfl := by simpa [convertAll, hv, hrest, bind, Except.bind] using h
                  exact congrArg Nat.succ (ih hrest)

/-- What Lua's adjustment asks of a call of the delegate that gets `results`: the converted
values are distributed, and the stack is as before. -/
def Adjusts (vm : Vm N Obj W) (d : DelegateType N Obj) (args : List (Option (ClrValue N Obj)))
    (results : List (LuaValue N)) (w : W) (m : Machine N W)
    (r : Except (LuaFault Obj) (Option (ClrValue N Obj) × List (Option (ClrValue N Obj))) ×
      Machine N W) : Prop :=
  ∃ cs w', convertAll vm w d.expected results = .ok (cs, w') ∧
    r = (.ok (d.result cs, DelegateType.stored d.parameters args (d.outs cs)),
      { m with world := w' })

/-- After the call, what is left is to pop the values and to distribute them. -/
theorem invoke_apply (vm : Vm N Obj W) {d : DelegateType N Obj} {function : ClrValue N Obj}
    {args : List (Option (ClrValue N Obj))} {m m' : Machine N W}
    (hcall : protectedCall vm (some function) (d.inArgs args) m = (.ok 0, m')) :
    LuaDelegate.invoke vm d function args m =
      (popValuesAs vm m.stack.length d.returnTypes >>= LuaDelegate.distribute d args) m' := by
  have hfunction : LuaState.callFunction vm (some function) (some (d.inArgs args))
      (some d.returnTypes) m = popValuesAs vm m.stack.length d.returnTypes m' := by
    rw [LuaState.callFunction]
    exact (Prog.bind_ok (rfl : LuaGetTop m = (.ok m.stack.length, m))).trans (Prog.bind_ok hcall)
  rw [LuaDelegate.invoke, LuaDelegate.callFunction]
  cases hpop : popValuesAs vm m.stack.length d.returnTypes m' with
  | mk r m'' =>
  rw [hpop] at hfunction
  cases r with
  | error e => exact (Prog.bind_error hfunction).trans (Prog.bind_error hpop).symm
  | ok returnValues =>
      have hdistribute : (popValuesAs vm m.stack.length d.returnTypes >>=
          LuaDelegate.distribute d args) m' = LuaDelegate.distribute d args returnValues m'' :=
        Prog.bind_ok hpop
      exact (Prog.bind_ok hfunction).trans hdistribute.symm

/-- **The delegate follows Lua's adjustment exactly when** the function returns as many
values as the delegate has places for, and none of the conversions throws. -/
theorem invoke_adjusts_iff (vm : Vm N Obj W) (d : DelegateType N Obj) (function : ClrValue N Obj)
    (args : List (Option (ClrValue N Obj))) (results : List (LuaValue N)) (w : W)
    (m : Machine N W) (hargs : args.length = d.parameters.length)
    (hcall : protectedCall vm (some function) (d.inArgs args) m =
      (.ok 0, { m with stack := results.reverse ++ m.stack, world := w })) :
    Adjusts vm d args results w m (LuaDelegate.invoke vm d function args m) ↔
      results.length = d.expected.length ∧
        ∃ r, convertAll vm w d.expected results = .ok r := by
  rw [invoke_apply vm hcall]
  by_cases hsurplus : d.expected.length < results.length
  · obtain ⟨e, m', hpop⟩ := popValuesAs_surplus vm d results m.stack hsurplus m.callee w
    refine iff_of_false ?_ fun h => absurd h.1 (by omega)
    rintro ⟨cs, w', -, hrun⟩
    rw [Prog.bind_error hpop] at hrun
    exact nomatch (Prod.mk.inj hrun).1
  · have hpop := popValuesAs_delegate vm d results m.stack (by omega) m.callee w
    cases hconvert : convertAll vm w (d.expected.take results.length) results with
    | error e =>
        rw [hconvert] at hpop
        obtain ⟨e', m', hpop⟩ := hpop
        refine iff_of_false ?_ ?_
        · rintro ⟨cs, w', -, hrun⟩
          rw [Prog.bind_error hpop] at hrun
          exact nomatch (Prod.mk.inj hrun).1
        · rintro ⟨hlen, r, hall⟩
          rw [hlen, List.take_length, hall] at hconvert
          exact nomatch hconvert
    | ok r =>
        obtain ⟨cs, w'⟩ := r
        rw [hconvert] at hpop
        have hcs : cs.length = results.length := by
          rw [length_convertAll vm hconvert, List.length_take]
          omega
        have harray : (if results = [] then none else some cs).getD [] = cs := by
          split
          · rename_i hempty
            rw [hempty] at hcs
            exact (List.length_eq_zero_iff.mp hcs).symm
          · rfl
        rw [Prog.bind_ok hpop]
        by_cases hlen : results.length = d.expected.length
        · rw [LuaDelegate.distribute_ok d harray hargs (hcs.trans hlen)]
          rw [hlen, List.take_length] at hconvert
          exact iff_of_true ⟨cs, w', hconvert, rfl⟩ ⟨hlen, _, hconvert⟩
        · obtain ⟨e, m', herr⟩ := @LuaDelegate.distribute_error _ _ _ _
            { m with stack := m.stack, world := w' } d args cs harray hargs (by omega)
          refine iff_of_false ?_ fun h => hlen h.1
          rintro ⟨cs', w'', -, hrun⟩
          rw [herr] at hrun
          exact nomatch (Prod.mk.inj hrun).1

/-! ### A function that returns nothing -/

/-- A state whose function returns a number, for a delegate with an `int` result. -/
theorem invoke_adjusts_iff_number :
    Adjusts { plainVm with pcall := fun _ _ _ _ => (.ok [.number 7], ()) }
        ⟨.integral .int, []⟩ [] [.number 7] () ⟨.nil, [], ()⟩
        (LuaDelegate.invoke { plainVm with pcall := fun _ _ _ _ => (.ok [.number 7], ()) }
          ⟨.integral .int, []⟩ (.luaFunction (.function 1)) [] ⟨.nil, [], ()⟩) :=
  (invoke_adjusts_iff _ _ _ _ _ _ _ rfl rfl).mpr ⟨rfl, _, rfl⟩

/-- A function that returns nothing, as a delegate with an `int` result: the array of the
values is `null`. -/
theorem invoke_adjusts_fails :
    ¬ ∀ (d : DelegateType ℤ ℕ) (function : ClrValue ℤ ℕ) (args : List (Option (ClrValue ℤ ℕ)))
        (results : List (LuaValue ℤ)) (m : Machine ℤ Unit),
        args.length = d.parameters.length →
        protectedCall plainVm (some function) (d.inArgs args) m =
          (.ok 0, { m with stack := results.reverse ++ m.stack }) →
        Adjusts plainVm d args results () m (LuaDelegate.invoke plainVm d function args m) := by
  intro h
  obtain ⟨cs, w', -, hrun⟩ := h ⟨.integral .int, []⟩ (.luaFunction (.function 1)) [] []
    ⟨.nil, [], ()⟩ rfl rfl
  exact nomatch (Prod.mk.inj hrun).1

end UnityLua
