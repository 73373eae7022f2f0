import Mathlib.Tactic.ByContra
import UnityLua.LuaState

/-!
# Stack neutrality

Every function of the interface leaves the Lua stack as it found it, whether it returns or
throws a `LuaScriptException`; with one exception, which is found and described exactly.

## Main results

* `push_above`, `getObject_above`, `popValues_above`: the effect of the translator's functions.
* `ThrowExceptionFromError_above`: an error leaves nothing above the saved top.
* `DoFile_leaves_handler`: `DoFile` leaves its message handler when it throws.
* `stackKept_iff`: a call is neutral exactly when it is not a `DoFile` of a file that is
  missing, does not load or does not run through.
-/

namespace UnityLua.LuaState

open Library LuaLib

variable {N Obj W : Type} {s : List (LuaValue N)} {n : ℕ} {R : Machine N W → Prop}

/-! ### The translator -/

section Translator

variable (vm : Vm N Obj W)

theorem gets_above {α : Type} (f : Machine N W → α) :
    Triple (Above s n) (Prog.gets f : LuaM N Obj W α) (fun _ => Above s n) (OnScript R) :=
  .gets fun _ hm => hm

theorem getReference_above (wrap : LuaValue N → ClrValue N Obj) (i : ℤ) :
    Triple (Above s n) (getReference vm wrap i) (fun _ => Above s n) (OnScript R) :=
  .bind (gets_above _) fun _ => .bind (LuaPushValue_above vm i) fun _ =>
    .bind (LuaLRef_above vm) fun _ => .pure fun _ hm => hm

theorem getObject_above (i : ℤ) :
    Triple (Above s n) (getObject vm i) (fun _ => Above s n) (OnScript R) := by
  refine .bind (gets_above _) fun v => ?_
  cases v with
  | table id => exact .map (getReference_above vm _ i) fun _ _ hm => hm
  | function id => exact .map (getReference_above vm _ i) fun _ _ hm => hm
  | userdata id =>
      refine .bind (gets_above _) fun o => ?_
      cases o with
      | some o => exact .pure fun _ hm => hm
      | none => exact .map (getReference_above vm _ i) fun _ _ hm => hm
  | _ => exact .pure fun _ hm => hm

theorem getObjects_above (i k : ℕ) :
    Triple (Above s n) (getObjects vm i k) (fun _ => Above s n) (OnScript R) := by
  induction k generalizing i with
  | zero => exact .pure fun _ hm => hm
  | succ k ih =>
      exact .bind (getObject_above vm i) fun _ => .bind (ih (i + 1)) fun _ => .pure fun _ hm => hm

/-- What is above the saved top is popped. -/
theorem popValues_above :
    Triple (Above s n) (popValues vm s.length) (fun _ => Above s 0) (OnScript R) := by
  refine .bind LuaGetTop_above fun newTop => .assume fun htop => ?_
  split
  · refine .pure fun m hm => ?_
    obtain rfl : n = 0 := by omega
    exact hm
  · exact .bind (getObjects_above vm _ _) fun _ => .bind LuaSetTop_above fun _ =>
      .pure fun _ hm => hm

/-- A conversion changes at most a slot that is to be popped. -/
theorem getAsType_above {i : ℕ} (type : ClrType) (hi : s.length < i) (hn : i ≤ n + s.length) :
    Triple (Above s n) (getAsType vm i type) (fun _ => Above s n) (OnScript R) := by
  intro m hm
  rw [getAsType]
  generalize UnityLua.getAsType (vm.env m.world) _ type = r
  obtain ⟨r, slot⟩ := r
  cases r with
  | error e => trivial
  | ok v =>
      have hlen := hm.length
      obtain ⟨vs, hvs, hstack⟩ := hm
      have hoffset : m.offset i < vs.length := by
        change m.stack.length - i < vs.length
        omega
      refine ⟨vs.set (m.offset i) slot, by rw [List.length_set, hvs], ?_⟩
      change m.stack.set (m.offset i) slot = _
      rw [hstack, List.set_append_left _ _ hoffset]

theorem getAsTypes_above (popTypes : List ClrType) {i : ℕ} (iTypes : ℕ) {k : ℕ}
    (hi : s.length < i) (hn : i + k = n + s.length + 1) :
    Triple (Above s n) (getAsTypes vm popTypes i iTypes k) (fun _ => Above s n)
      (OnScript R) := by
  induction k generalizing i iTypes with
  | zero => exact .pure fun _ hm => hm
  | succ k ih =>
      rw [getAsTypes]
      cases popTypes[iTypes]? with
      | none => exact .throw fun _ _ => trivial
      | some type =>
          exact .bind (getAsType_above vm type hi (by omega)) fun _ =>
            .bind (ih (iTypes + 1) (by omega) (by omega)) fun _ => .pure fun _ hm => hm

theorem popValuesAs_above (popTypes : List ClrType) :
    Triple (Above s n) (popValuesAs vm s.length popTypes) (fun _ => Above s 0)
      (OnScript R) := by
  refine .bind LuaGetTop_above fun newTop => .assume fun htop => ?_
  split
  · refine .pure fun m hm => ?_
    obtain rfl : n = 0 := by omega
    exact hm
  · cases popTypes.head? with
    | none => exact .throw fun _ _ => trivial
    | some first =>
        exact .bind (getAsTypes_above vm popTypes _ (by omega) (by omega)) fun _ =>
          .bind LuaSetTop_above fun _ => .pure fun _ hm => hm

theorem setMetaFunction_above (name : String) (f : CFunction) :
    Triple (Above s (n + 1)) (setMetaFunction vm name f) (fun _ => Above s (n + 1))
      (OnScript R) :=
  .bind (LuaLib.push_above _) fun _ => .bind (LuaLib.push_above _) fun _ => LuaRawSet_above vm _

/-- The metatable for the type is made, if it is not there yet, in one slot. -/
theorem getTypeMetatable_above (o : ClrValue N Obj) :
    Triple (Above s n) (getTypeMetatable vm o) (fun _ => Above s (n + 1)) (OnScript R) := by
  refine .bind (LuaLGetMetaTable_above vm _) fun _ => .bind (LuaType_above vm _) fun type => ?_
  split
  · exact .bind (LuaPop_above 1) fun _ => .bind (LuaLNewMetaTable_above vm _) fun _ =>
      .bind (LuaLib.push_above _) fun _ => .bind (LuaNewTable_above vm) fun _ =>
      .bind (LuaRawSet_above vm _) fun _ => .bind (LuaLib.push_above _) fun _ =>
      .bind (LuaLib.push_above _) fun _ => .bind (LuaRawSet_above vm _) fun _ =>
      .bind (LuaLib.push_above _) fun _ => .bind (LuaLib.push_above _) fun _ =>
      .bind (Lua_RawGet_above vm _) fun _ => .bind (LuaRawSet_above vm _) fun _ =>
      .bind (setMetaFunction_above vm _ _) fun _ => .bind (setMetaFunction_above vm _ _) fun _ =>
      setMetaFunction_above vm _ _
  · exact .pure fun _ hm => hm

theorem getMetatable_above (o : ClrValue N Obj) (metatable : String) :
    Triple (Above s n) (getMetatable vm o metatable) (fun _ => Above s (n + 1)) (OnScript R) := by
  rw [getMetatable]
  split
  · exact getTypeMetatable_above vm o
  · exact LuaLGetMetaTable_above vm _

/-- The metatable and the list of objects are removed; the userdata remains. -/
theorem pushNewObject_above (o : ClrValue N Obj) (index : ℕ) (metatable : String) :
    Triple (Above s n) (pushNewObject vm o index metatable) (fun _ => Above s (n + 1))
      (OnScript R) :=
  .bind (getMetatable_above vm o metatable) fun _ => .bind (LuaLGetMetaTable_above vm _) fun _ =>
    .bind (LuaNetNewUdata_above vm _) fun _ => .bind (LuaPushValue_above vm _) fun _ =>
    .bind (LuaRemove_above (k := 3) (by omega)) fun _ => .bind (LuaSetMetaTable_above vm _) fun _ =>
    .bind (LuaPushValue_above vm _) fun _ => .bind (LuaRawSetI_above vm _ _) fun _ =>
    LuaRemove_above (k := 1) (by omega)

theorem modify_above {f : Machine N W → Machine N W} (hf : ∀ m, (f m).stack = m.stack) :
    Triple (Above s n) (Prog.modify f : LuaM N Obj W Unit) (fun _ => Above s n) (OnScript R) :=
  .modify fun m ⟨vs, hvs, hm⟩ => ⟨vs, hvs, (hf m).trans hm⟩

theorem addAndPush_above (o : ClrValue N Obj) (metatable : String) :
    Triple (Above s n) (addAndPush vm o metatable) (fun _ => Above s (n + 1)) (OnScript R) :=
  .bind (gets_above _) fun _ => .bind (modify_above fun _ => rfl) fun _ =>
    pushNewObject_above vm o _ metatable

theorem pushObject_above (o : ClrValue N Obj) (metatable : String) :
    Triple (Above s n) (pushObject vm o metatable) (fun _ => Above s (n + 1)) (OnScript R) := by
  refine .bind (gets_above _) fun found => ?_
  cases found with
  | none => exact addAndPush_above vm o metatable
  | some index =>
      refine .bind (LuaLGetMetaTable_above vm _) fun _ => .bind (LuaRawGetI_above vm _ _) fun _ =>
        .bind (LuaType_above vm _) fun type => ?_
      split
      · exact LuaRemove_above (k := 1) (by omega)
      · exact .bind (LuaRemove_above (k := 0) (by omega)) fun _ =>
          .bind (LuaRemove_above (k := 0) (by omega)) fun _ =>
          .bind (modify_above fun _ => rfl) fun _ => addAndPush_above vm o metatable

/-- Every value is pushed into one slot. -/
theorem push_above (v : Option (ClrValue N Obj)) :
    Triple (Above s n) (push vm v) (fun _ => Above s (n + 1)) (OnScript R) := by
  match v with
  | none => exact LuaLib.push_above _
  | some v =>
      cases v with
      | object o =>
          simp only [push]
          cases vm.kind o with
          | destroyed => exact LuaLib.push_above _
          | generated luaTable =>
              cases luaTable with
              | none => exact .throw fun _ _ => trivial
              | some v => exact LuaLib.push_above _
          | csFunction => exact pushObject_above vm _ _
          | plain => exact pushObject_above vm _ _
      | luaUserData v => exact pushObject_above vm _ _
      | delegate type v => exact pushObject_above vm _ _
      | array element values => exact pushObject_above vm _ _
      | _ => exact LuaLib.push_above _

/-- An error leaves the stack that was there when the top was saved. -/
theorem ThrowExceptionFromError_above {α : Type} {Q : α → Machine N W → Prop} :
    Triple (Above s n) (ThrowExceptionFromError vm s.length : LuaM N Obj W α) Q
      (OnScript (Above s 0)) := by
  refine .bind (getObject_above vm _) fun err => .bind LuaSetTop_above fun _ => ?_
  match err with
  | none => exact .throw fun _ hm => hm
  | some v =>
      cases v with
      | object o =>
          dsimp only
          split
          · exact .throw fun _ hm => hm
          · exact .throw fun _ hm => hm
      | _ => exact .throw fun _ hm => hm

end Translator

/-! ### The interface -/

/-- The program leaves the stack as it found it, if it returns or throws a
`LuaScriptException`. -/
def Neutral {α : Type} (x : LuaM N Obj W α) : Prop :=
  ∀ s, Triple (Above s 0) x (fun _ => Above s 0) (OnScript (Above s 0))

section Interface

variable (vm : Vm N Obj W)

/-- A program that saves the top, works above it and sets it back. -/
theorem saved_above {α : Type} {x : ℕ → LuaM N Obj W α}
    (h : Triple (Above s 0) (x s.length) (fun _ => Above s 0) (OnScript R)) :
    Triple (Above s 0) (do let oldTop ← LuaGetTop; x oldTop) (fun _ => Above s 0)
      (OnScript R) := by
  refine .bind LuaGetTop_zero fun oldTop => .assume fun htop => ?_
  subst htop
  exact h

/-- What is above `s` may be taken for the stack that was there. -/
theorem rebase_above {α : Type} {x : LuaM N Obj W α}
    (h : ∀ s, Triple (Above s 0) x (fun _ => Above s 0) (OnScript R)) :
    Triple (Above s n) x (fun _ => Above s n) (OnScript R) := by
  intro m hm
  obtain ⟨vs, hvs, hstack⟩ := hm
  have hexit := h (vs ++ s) m (above_zero.mpr hstack)
  generalize x m = r at hexit ⊢
  rcases r with ⟨r | a, m'⟩
  · exact hexit
  · exact ⟨vs, hvs, above_zero.mp hexit⟩

theorem setEnv_above (env : Option (LuaValue N)) :
    Triple (Above s (n + 1)) (setEnv vm env) (fun _ => Above s (n + 1)) (OnScript R) := by
  cases env with
  | none => exact .pure fun _ hm => hm
  | some env => exact .bind (LuaLib.push_above _) fun _ => LuaSetFEnv_above vm _

theorem loadString_neutral (chunk name : String) (env : Option (LuaValue N)) :
    Neutral (LoadString vm chunk name env) := by
  intro s
  refine saved_above ?_
  refine .bind (LuaL_LoadBuffer_above vm _ _ _) fun status => ?_
  split
  · exact ThrowExceptionFromError_above vm
  · exact .bind (setEnv_above vm env) fun _ => .bind (getReference_above vm _ _) fun _ =>
      .bind (popValues_above vm) fun _ => .pure fun _ hm => hm

theorem loadFile_neutral (fileName : String) : Neutral (LoadFile vm fileName) := by
  intro s
  refine saved_above ?_
  cases vm.resources fileName with
  | none => exact ThrowExceptionFromError_above vm
  | some file =>
      refine .bind (LuaL_LoadBuffer_above vm _ _ _) fun status => ?_
      split
      · exact ThrowExceptionFromError_above vm
      · exact .bind (getReference_above vm _ _) fun _ => .bind (popValues_above vm) fun _ =>
          .pure fun _ hm => hm

theorem doString_neutral (chunk chunkName : String) (env : Option (LuaValue N)) :
    Neutral (DoString vm chunk chunkName env) := by
  intro s
  refine saved_above ?_
  refine .bind (LuaL_LoadBuffer_above vm _ _ _) fun status => ?_
  split
  · refine .bind (setEnv_above vm env) fun _ => .bind (LuaPCall_above vm 0 0) fun status => ?_
    split
    · exact .ofExists fun k => popValues_above vm
    · exact .ofExists fun k => ThrowExceptionFromError_above vm
  · exact ThrowExceptionFromError_above vm

/-- Going down a path leaves a table for each step that was made. -/
theorem getObjectAt_above (returnValue : Option (ClrValue N Obj)) (remainingPath : List String) :
    Triple (Above s (n + 1)) (getObjectAt vm returnValue remainingPath)
      (fun _ m => ∃ k, Above s k m) (OnScript R) := by
  induction remainingPath generalizing n returnValue with
  | nil => exact .pure fun _ hm => ⟨_, hm⟩
  | cons field remainingPath ih =>
      refine .bind (LuaLib.push_above _) fun _ => .bind (LuaGetTable_above vm _) fun _ =>
        .bind (getObject_above vm _) fun v => ?_
      cases v with
      | none => exact .pure fun _ hm => ⟨_, hm⟩
      | some v => exact ih (some v)

theorem getPath_above (path : List String) :
    Triple (Above s n) (getPath vm path) (fun _ m => ∃ k, Above s k m) (OnScript R) := by
  refine .bind (LuaGetGlobal_above vm _) fun _ => .bind (getObject_above vm _) fun v => ?_
  split
  · exact getObjectAt_above vm none _
  · exact .pure fun _ hm => ⟨_, hm⟩

/-- The getter throws no `LuaScriptException` at all. -/
theorem getItem_above (fullPath : String) :
    Triple (Above s n) (getItem vm fullPath) (fun _ => Above s n) (OnScript R) :=
  rebase_above fun _ => saved_above <| .bind (getPath_above vm _) fun _ =>
    .ofExists fun _ => .bind LuaSetTop_above fun _ => .pure fun _ hm => hm

theorem getFields_above (fields : List String) :
    Triple (Above s (n + 1)) (getFields vm fields) (fun _ => Above s (n + 1 + fields.length))
      (OnScript R) := by
  have hloop := @Triple.forEach _ _ _ (OnScript R)
    (fun field => do LuaPushString field; LuaGetTable vm (.rel (-2)))
    (fun k => Above s (n + 1 + k)) fields
    (fun field _ k => .bind (LuaLib.push_above _) fun _ => LuaGetTable_above vm _) 0
  rw [Nat.zero_add] at hloop
  exact hloop

theorem setObject_above (remainingPath : List String) (val : Option (ClrValue N Obj)) :
    Triple (Above s (n + 1)) (setObject vm remainingPath val)
      (fun _ => Above s (n + 1 + remainingPath.dropLast.length)) (OnScript R) :=
  .bind (getFields_above vm _) fun _ => .bind (LuaLib.push_above _) fun _ =>
    .bind (push_above vm _) fun _ => LuaSetTable_above vm _

theorem setPath_above (fullPath : String) (path : List String) (val : Option (ClrValue N Obj)) :
    Triple (Above s n) (setPath vm fullPath path val) (fun _ m => ∃ k, Above s k m)
      (OnScript R) := by
  rw [setPath]
  split
  · exact .bind (push_above vm _) fun _ =>
      (LuaSetGlobal_above vm _).weaken (fun _ hm => hm) (fun _ _ hm => ⟨_, hm⟩) fun _ _ hm => hm
  · exact .bind (LuaGetGlobal_above vm _) fun _ =>
      (setObject_above vm _ _).weaken (fun _ hm => hm) (fun _ _ hm => ⟨_, hm⟩) fun _ _ hm => hm

/-- Neither does the setter. -/
theorem setItem_above (fullPath : String) (val : Option (ClrValue N Obj)) :
    Triple (Above s n) (setItem vm fullPath val) (fun _ => Above s n) (OnScript R) :=
  rebase_above fun _ => saved_above <| .bind (setPath_above vm _ _ _) fun _ =>
    .ofExists fun _ => LuaSetTop_above

theorem newTablePath_above (fullPath : String) (path : List String) :
    Triple (Above s n) (newTablePath vm fullPath path) (fun _ m => ∃ k, Above s k m)
      (OnScript R) := by
  rw [newTablePath]
  split
  · exact .bind (LuaNewTable_above vm) fun _ =>
      (LuaSetGlobal_above vm _).weaken (fun _ hm => hm) (fun _ _ hm => ⟨_, hm⟩) fun _ _ hm => hm
  · exact .bind (LuaGetGlobal_above vm _) fun _ => .bind (getFields_above vm _) fun _ =>
      .bind (LuaLib.push_above _) fun _ => .bind (LuaNewTable_above vm) fun _ =>
      (LuaSetTable_above vm _).weaken (fun _ hm => hm) (fun _ _ hm => ⟨_, hm⟩) fun _ _ hm => hm

theorem newTableAt_neutral (fullPath : String) : Neutral (NewTableAt vm fullPath) :=
  fun _ => saved_above <| .bind (newTablePath_above vm _ _) fun _ =>
    .ofExists fun _ => LuaSetTop_above

theorem newTable_neutral : Neutral (NewTable vm) :=
  fun _ => saved_above <| .bind (LuaNewTable_above vm) fun _ =>
    .bind (getObject_above vm _) fun _ => .bind LuaSetTop_above fun _ => .pure fun _ hm => hm

/-- The loop takes the key from the stack and leaves only the table. -/
theorem tableEntries_above (entries : List (LuaValue N × LuaValue N)) :
    Triple (Above s (n + 1)) (tableEntries vm entries) (fun _ => Above s n) (OnScript R) := by
  induction entries with
  | nil => exact .bind LuaNext_nil_above fun _ => .pure fun _ hm => hm
  | cons e rest ih =>
      refine .bind (LuaNext_cons_above e rest) fun _ => .bind (getObject_above vm _) fun key =>
        .bind (getObject_above vm _) fun val => ?_
      cases key with
      | none => exact .throw fun _ _ => trivial
      | some key => exact .bind (LuaPop_above 1) fun _ => .bind ih fun _ => .pure fun _ hm => hm

theorem getTableDict_neutral (table : Option (ClrValue N Obj)) :
    Neutral (GetTableDict vm table) := by
  intro s
  refine saved_above ?_
  refine .bind (push_above vm table) fun _ => .bind (LuaLib.push_above _) fun _ =>
    .bind (gets_above _) fun entries => ?_
  cases entries with
  | none => exact .throw fun _ _ => trivial
  | some entries =>
      exact .bind (tableEntries_above vm entries) fun _ => .bind LuaSetTop_above fun _ =>
        .pure fun _ hm => hm

/-- The arguments of a call take a slot each. -/
theorem pushArgs_above (args : List (Option (ClrValue N Obj))) :
    Triple (Above s n) (Prog.forEach (push vm) args) (fun _ => Above s (n + args.length))
      (OnScript R) := by
  have hloop := @Triple.forEach _ _ _ (OnScript R) (push vm) (fun k => Above s (n + k)) args
    (fun v _ k => push_above vm v) 0
  rw [Nat.zero_add] at hloop
  exact hloop

theorem protectedCall_above (function : Option (ClrValue N Obj))
    (args : List (Option (ClrValue N Obj))) :
    Triple (Above s n) (protectedCall vm function args) (fun _ m => ∃ k, Above s (n + k) m)
      (OnScript R) := by
  refine .bind (LuaCheckStack_above vm _) fun fits => ?_
  split
  · refine .bind (push_above vm _) fun _ => .bind (pushArgs_above vm args) fun _ => ?_
    rw [Nat.add_assoc, Nat.add_comm 1]
    exact LuaPCall_above vm _ _
  · exact .throw fun _ _ => trivial

theorem callFunction_neutral (function : Option (ClrValue N Obj))
    (args : Option (List (Option (ClrValue N Obj)))) (returnTypes : Option (List ClrType)) :
    Neutral (callFunction vm function args returnTypes) := by
  intro s
  refine saved_above ?_
  cases args with
  | none => exact .throw fun _ _ => trivial
  | some args =>
      refine .bind (protectedCall_above vm function args) fun status => .ofExists fun k => ?_
      split
      · exact ThrowExceptionFromError_above vm
      · cases returnTypes with
        | some returnTypes => exact popValuesAs_above vm returnTypes
        | none => exact popValues_above vm

theorem asFunction_above (obj : Option (ClrValue N Obj)) :
    Triple (Above s n) (asFunction vm obj) (fun _ => Above s n) (OnScript R) := by
  match obj with
  | none => exact .pure fun _ hm => hm
  | some v =>
      cases v with
      | luaFunction v => exact .pure fun _ hm => hm
      | object o =>
          simp only [asFunction]
          cases vm.kind o with
          | csFunction => exact .pure fun _ hm => hm
          | _ => exact .throw fun _ _ => trivial
      | _ => exact .throw fun _ _ => trivial

theorem GetFunction_above (fullPath : String) :
    Triple (Above s n) (GetFunction vm fullPath) (fun _ => Above s n) (OnScript R) :=
  .bind (getItem_above vm fullPath) fun obj => asFunction_above vm obj

theorem registerFunction_neutral (path : String) (wrapper : Obj) :
    Neutral (RegisterFunction vm path wrapper) := by
  intro s
  refine saved_above ?_
  exact .bind (push_above vm _) fun _ => .bind (getObject_above vm _) fun obj =>
    .bind (setItem_above vm path obj) fun _ => .bind (GetFunction_above vm path) fun _ =>
    .bind LuaSetTop_above fun _ => .pure fun _ hm => hm

theorem createFunction_neutral (wrapper : Obj) : Neutral (CreateFunction vm wrapper) := by
  intro s
  refine saved_above ?_
  exact .bind (push_above vm _) fun _ => .bind (getObject_above vm _) fun obj =>
    .bind (asFunction_above vm obj) fun _ => .bind LuaSetTop_above fun _ => .pure fun _ hm => hm

/-- `DoFile` saves the top behind its message handler: the handler stays when it throws. -/
theorem DoFile_leaves_handler (fileName : String) (env : Option (LuaValue N)) :
    Triple (Above s 0) (DoFile vm fileName env) (fun _ => Above s 0)
      (OnScript (Above (vm.cFunction .tracebackFunction :: s) 0)) := by
  have hpush : Triple (Above s 0) (LuaPushStdCallCFunction vm .tracebackFunction)
      (fun _ => Above (vm.cFunction .tracebackFunction :: s) 0)
      (OnScript (Above (vm.cFunction .tracebackFunction :: s) 0) : LuaFault Obj → _) :=
    .modify fun m hm => above_zero.mpr (congrArg _ (above_zero.mp hm))
  refine .bind hpush fun _ => .bind LuaGetTop_zero fun oldTop => .assume fun htop => ?_
  subst htop
  cases vm.resources fileName with
  | none => exact ThrowExceptionFromError_above vm
  | some file =>
      refine .bind (LuaL_LoadBuffer_above vm _ _ _) fun status => ?_
      split
      · refine .bind (setEnv_above vm env) fun _ => .bind (LuaPCall_above vm 0 _) fun status => ?_
        split
        · refine .ofExists fun k => .bind (popValues_above vm) fun _ => .bind ?_ fun _ =>
            .pure fun _ hm => hm
          exact (LuaPop_above 1).weaken (fun m hm => ⟨[_], rfl, above_zero.mp hm⟩)
            (fun _ _ hm => hm) fun _ _ hm => hm
        · exact .ofExists fun k => ThrowExceptionFromError_above vm
      · exact ThrowExceptionFromError_above vm

end Interface

/-! ### Which exit `DoFile` takes -/

section DoFile

variable (vm : Vm N Obj W)

/-- The program returns. -/
def Returns {α : Type} (x : LuaM N Obj W α) : Prop :=
  Triple (fun _ => True) x (fun _ _ => True) (fun _ _ => False)

theorem Returns.apply {α : Type} {x : LuaM N Obj W α} (h : Returns x) (m : Machine N W) :
    ∃ a m', x m = (.ok a, m') := by
  have hexit := h m trivial
  generalize x m = r at hexit ⊢
  rcases r with ⟨r | a, m'⟩
  · exact hexit.elim
  · exact ⟨a, m', rfl⟩

theorem getObject_returns (i : ℤ) : Returns (getObject vm i) := by
  refine .bind (R := fun _ _ => True) (.gets fun _ _ => trivial) fun v => ?_
  cases v with
  | userdata id =>
      refine .bind (R := fun _ _ => True) (.gets fun _ _ => trivial) fun o => ?_
      cases o with
      | some o => exact .pure fun _ _ => trivial
      | none => exact fun _ _ => trivial
  | _ => exact fun _ _ => trivial

theorem getObjects_returns (i k : ℕ) : Returns (getObjects vm i k) := by
  induction k generalizing i with
  | zero => exact .pure fun _ _ => trivial
  | succ k ih =>
      exact .bind (getObject_returns vm i) fun _ => .bind (ih (i + 1)) fun _ =>
        .pure fun _ _ => trivial

theorem popValues_returns (oldTop : ℕ) : Returns (popValues vm oldTop) := by
  refine .bind (R := fun _ _ => True) (.gets fun _ _ => trivial) fun newTop => ?_
  split
  · exact .pure fun _ _ => trivial
  · exact .bind (getObjects_returns vm _ _) fun _ =>
      .bind (R := fun _ _ => True) (.modify fun _ _ => trivial) fun _ => .pure fun _ _ => trivial

/-- An error always comes out as a `LuaScriptException`. -/
theorem ThrowExceptionFromError_throws {α : Type} (oldTop : ℕ) (m : Machine N W) :
    ∃ e m', (ThrowExceptionFromError vm oldTop : LuaM N Obj W α) m = (.error (.script e), m') := by
  obtain ⟨err, m', herr⟩ := (getObject_returns vm (-1)).apply m
  rw [ThrowExceptionFromError]
  rw [Prog.bind_ok herr]
  match err with
  | none => exact ⟨_, _, rfl⟩
  | some v =>
      cases v with
      | object o =>
          dsimp only
          by_cases hscript : vm.isScriptException o = true
          · rw [if_pos hscript]
            exact ⟨_, _, rfl⟩
          · rw [if_neg hscript]
            exact ⟨_, _, rfl⟩
      | _ => exact ⟨_, _, rfl⟩

/-- The world after the environment of the chunk `f` has been set. -/
def worldWithEnv (w : W) (f : LuaValue N) : Option (LuaValue N) → W
  | none => w
  | some env => vm.setfenv w f env

/-- The file is there, it loads, and its chunk runs without an error. -/
def FileRuns (w : W) (fileName : String) (env : Option (LuaValue N)) : Prop :=
  ∃ file f w₁ results w₂,
    vm.resources fileName = some file ∧
    vm.loadbuffer w file.text file.bytes fileName = (.ok f, w₁) ∧
    vm.pcall (worldWithEnv vm w₁ f env) f [] (some (vm.cFunction .tracebackFunction)) =
      (.ok results, w₂)

theorem setEnv_apply (f : LuaValue N) (env : Option (LuaValue N)) (stack : List (LuaValue N))
    (callee : LuaValue N) (w : W) :
    setEnv vm env ⟨callee, f :: stack, w⟩ =
      (.ok (), ⟨callee, f :: stack, worldWithEnv vm w f env⟩) := by
  cases env with
  | none => rfl
  | some env => rfl

section Exit

variable {fileName : String} {env : Option (LuaValue N)} {callee : LuaValue N}
  {stack : List (LuaValue N)} {w : W}

/-- A missing file: the handler itself is taken for the error. -/
theorem DoFile_missing (hfile : vm.resources fileName = none) :
    DoFile vm fileName env ⟨callee, stack, w⟩ =
      ThrowExceptionFromError vm (stack.length + 1)
        ⟨callee, vm.cFunction .tracebackFunction :: stack, w⟩ := by
  rw [DoFile]
  refine (Prog.bind_ok rfl).trans ((Prog.bind_ok rfl).trans ?_)
  rw [hfile]
  rfl

/-- The steps of `DoFile` up to the loaded chunk. -/
theorem DoFile_loaded {file : TextAsset} {r : Except (LuaValue N) (LuaValue N)} {w₁ : W}
    (hfile : vm.resources fileName = some file)
    (hload : vm.loadbuffer w file.text file.bytes fileName = (r, w₁)) :
    DoFile vm fileName env ⟨callee, stack, w⟩ =
      match r with
      | .error e => ThrowExceptionFromError vm (stack.length + 1)
          ⟨callee, e :: vm.cFunction .tracebackFunction :: stack, w₁⟩
      | .ok f => (do
          if (← LuaPCall vm 0 (-2)) = 0 then
            let results ← popValues vm (stack.length + 1)
            LuaPop 1
            pure results
          else ThrowExceptionFromError vm (stack.length + 1) : LuaM N Obj W _)
            ⟨callee, f :: vm.cFunction .tracebackFunction :: stack, worldWithEnv vm w₁ f env⟩ := by
  rw [DoFile]
  refine (Prog.bind_ok rfl).trans ((Prog.bind_ok rfl).trans ?_)
  rw [hfile]
  cases r with
  | error e =>
      have hstatus : LuaL_LoadBuffer vm file.text file.bytes fileName
          ⟨callee, vm.cFunction .tracebackFunction :: stack, w⟩ =
            (.ok 3, ⟨callee, e :: vm.cFunction .tracebackFunction :: stack, w₁⟩) := by
        simp only [LuaL_LoadBuffer, hload]
        rfl
      exact Prog.bind_ok hstatus
  | ok f =>
      have hstatus : LuaL_LoadBuffer vm file.text file.bytes fileName
          ⟨callee, vm.cFunction .tracebackFunction :: stack, w⟩ =
            (.ok 0, ⟨callee, f :: vm.cFunction .tracebackFunction :: stack, w₁⟩) := by
        simp only [LuaL_LoadBuffer, hload]
        rfl
      exact (Prog.bind_ok hstatus).trans (Prog.bind_ok (setEnv_apply vm f env _ callee w₁))

/-- The call of the loaded chunk, which has no arguments and the handler below it. -/
theorem LuaPCall_chunk (f handler : LuaValue N) :
    LuaPCall vm 0 (-2) ⟨callee, f :: handler :: stack, w⟩ =
      match vm.pcall w f [] (some handler) with
      | (.ok results, w) => (.ok 0, ⟨callee, results.reverse ++ handler :: stack, w⟩)
      | (.error e, w) => (.ok 2, ⟨callee, e :: handler :: stack, w⟩) := rfl

/-- `DoFile` returns when the chunk runs through. -/
theorem DoFile_returns {m : Machine N W} (h : FileRuns vm m.world fileName env) :
    ∃ r m', DoFile vm fileName env m = (.ok r, m') := by
  obtain ⟨callee, stack, w⟩ := m
  obtain ⟨file, f, w₁, results, w₂, hfile, hload, hcall⟩ := h
  rw [DoFile_loaded vm hfile hload]
  have hrun := @LuaPCall_chunk _ _ _ vm callee stack (worldWithEnv vm w₁ f env) f
    (vm.cFunction .tracebackFunction)
  rw [hcall] at hrun
  obtain ⟨r, m', hpop⟩ := (popValues_returns vm (stack.length + 1)).apply
    ⟨callee, results.reverse ++ vm.cFunction .tracebackFunction :: stack, w₂⟩
  exact ⟨r, _, (Prog.bind_ok hrun).trans ((Prog.bind_ok hpop).trans (Prog.bind_ok rfl))⟩

/-- Otherwise it throws a `LuaScriptException`. -/
theorem DoFile_throws {m : Machine N W} (h : ¬ FileRuns vm m.world fileName env) :
    ∃ e m', DoFile vm fileName env m = (.error (.script e), m') := by
  obtain ⟨callee, stack, w⟩ := m
  cases hfile : vm.resources fileName with
  | none =>
      rw [DoFile_missing vm hfile]
      exact ThrowExceptionFromError_throws vm _ _
  | some file =>
      cases hload : vm.loadbuffer w file.text file.bytes fileName with
      | mk r w₁ =>
      rw [DoFile_loaded vm hfile hload]
      cases r with
      | error e => exact ThrowExceptionFromError_throws vm _ _
      | ok f =>
          have hrun := @LuaPCall_chunk _ _ _ vm callee stack (worldWithEnv vm w₁ f env) f
            (vm.cFunction .tracebackFunction)
          cases hcall : vm.pcall (worldWithEnv vm w₁ f env) f []
              (some (vm.cFunction .tracebackFunction)) with
          | mk r w₂ =>
          cases r with
          | ok results => exact absurd ⟨file, f, w₁, results, w₂, hfile, hload, hcall⟩ h
          | error e =>
              rw [hcall] at hrun
              obtain ⟨e', m', hthrow⟩ := @ThrowExceptionFromError_throws _ _ _ vm
                (Option (List (Option (ClrValue N Obj)))) (stack.length + 1)
                ⟨callee, e :: vm.cFunction .tracebackFunction :: stack, w₂⟩
              exact ⟨e', m', (Prog.bind_ok hrun).trans hthrow⟩

end Exit

end DoFile

/-! ### All functions of the interface -/

/-- A call of one of the functions. -/
inductive ApiCall (N Obj : Type)
  | DoString (chunk chunkName : String) (env : Option (LuaValue N))
  | DoFile (fileName : String) (env : Option (LuaValue N))
  | LoadString (chunk name : String) (env : Option (LuaValue N))
  | LoadFile (fileName : String)
  | getItem (fullPath : String)
  | setItem (fullPath : String) (val : Option (ClrValue N Obj))
  | NewTableAt (fullPath : String)
  | NewTable
  | GetTableDict (table : Option (ClrValue N Obj))
  | callFunction (function : Option (ClrValue N Obj))
      (args : Option (List (Option (ClrValue N Obj)))) (returnTypes : Option (List ClrType))
  | RegisterFunction (path : String) (wrapper : Obj)
  | CreateFunction (wrapper : Obj)

/-- Runs a call and forgets its answer. -/
def ApiCall.run (vm : Vm N Obj W) : ApiCall N Obj → LuaM N Obj W Unit
  | .DoString chunk chunkName env => discard <| LuaState.DoString vm chunk chunkName env
  | .DoFile fileName env => discard <| LuaState.DoFile vm fileName env
  | .LoadString chunk name env => discard <| LuaState.LoadString vm chunk name env
  | .LoadFile fileName => discard <| LuaState.LoadFile vm fileName
  | .getItem fullPath => discard <| LuaState.getItem vm fullPath
  | .setItem fullPath val => LuaState.setItem vm fullPath val
  | .NewTableAt fullPath => LuaState.NewTableAt vm fullPath
  | .NewTable => discard <| LuaState.NewTable vm
  | .GetTableDict table => discard <| LuaState.GetTableDict vm table
  | .callFunction function args returnTypes =>
      discard <| LuaState.callFunction vm function args returnTypes
  | .RegisterFunction path wrapper => discard <| LuaState.RegisterFunction vm path wrapper
  | .CreateFunction wrapper => discard <| LuaState.CreateFunction vm wrapper

/-- After the call the stack is as before, slot by slot, if the call returned or threw a
`LuaScriptException`. -/
def StackKept (vm : Vm N Obj W) (call : ApiCall N Obj) (m : Machine N W) : Prop :=
  Exits (fun _ m' => m'.stack = m.stack) (OnScript fun m' => m'.stack = m.stack) (call.run vm m)

/-- The condition on a call: a file that is to be run is there, loads and runs through. -/
def ApiCall.RunsThrough (vm : Vm N Obj W) (w : W) : ApiCall N Obj → Prop
  | .DoFile fileName env => FileRuns vm w fileName env
  | _ => True

theorem Neutral.discard {α : Type} {x : LuaM N Obj W α} (h : Neutral x) :
    Neutral (discard x) := fun s => .map (h s) fun _ _ hm => hm

/-- The program's exits, with the stack read off. -/
theorem exits_above_zero {r : Except (LuaFault Obj) Unit × Machine N W} :
    Exits (fun _ => Above s 0) (OnScript (Above s 0)) r ↔
      Exits (fun _ m => m.stack = s) (OnScript fun m => m.stack = s) r := by
  rcases r with ⟨r | a, m⟩
  · cases r with
    | script e => exact above_zero
    | _ => exact Iff.rfl
  · exact above_zero

theorem Neutral.stackKept {vm : Vm N Obj W} {call : ApiCall N Obj} (h : Neutral (call.run vm))
    (m : Machine N W) : StackKept vm call m :=
  exits_above_zero.mp (h m.stack m (above_zero.mpr rfl))

/-- Every call but a `DoFile` keeps the stack. -/
theorem neutral_run (vm : Vm N Obj W) {call : ApiCall N Obj}
    (h : ∀ fileName env, call ≠ .DoFile fileName env) : Neutral (call.run vm) := by
  cases call with
  | DoString chunk chunkName env => exact (doString_neutral vm chunk chunkName env).discard
  | DoFile fileName env => exact absurd rfl (h fileName env)
  | LoadString chunk name env => exact (loadString_neutral vm chunk name env).discard
  | LoadFile fileName => exact (loadFile_neutral vm fileName).discard
  | getItem fullPath => exact fun s => .map (getItem_above vm fullPath) fun _ _ hm => hm
  | setItem fullPath val => exact fun s => setItem_above vm fullPath val
  | NewTableAt fullPath => exact newTableAt_neutral vm fullPath
  | NewTable => exact (newTable_neutral vm).discard
  | GetTableDict table => exact (getTableDict_neutral vm table).discard
  | callFunction function args types =>
      exact (callFunction_neutral vm function args types).discard
  | RegisterFunction path wrapper => exact (registerFunction_neutral vm path wrapper).discard
  | CreateFunction wrapper => exact (createFunction_neutral vm wrapper).discard

/-- A `DoFile` keeps the stack exactly when its file runs through. -/
theorem stackKept_DoFile (vm : Vm N Obj W) (fileName : String) (env : Option (LuaValue N))
    (m : Machine N W) :
    StackKept vm (.DoFile fileName env) m ↔ FileRuns vm m.world fileName env := by
  have hexit := DoFile_leaves_handler vm fileName env m (above_zero.mpr (rfl : m.stack = _))
  constructor
  · intro hkept
    by_contra hfails
    obtain ⟨e, m', hrun⟩ := DoFile_throws vm hfails
    rw [hrun] at hexit
    have hstack : m'.stack = m.stack := by
      have hdiscard : (ApiCall.run vm (.DoFile fileName env)) m = (.error (.script e), m') :=
        Prog.bind_error hrun
      rw [StackKept] at hkept
      rw [hdiscard] at hkept
      exact hkept
    have hlonger := congrArg List.length (hstack.symm.trans (above_zero.mp hexit))
    simp at hlonger
  · intro hruns
    obtain ⟨r, m', hrun⟩ := DoFile_returns vm hruns
    have hdiscard : (ApiCall.run vm (.DoFile fileName env)) m = (.ok (), m') :=
      Prog.bind_ok hrun
    rw [StackKept]
    rw [hdiscard]
    rw [hrun] at hexit
    exact above_zero.mp hexit

/-- **Stack neutrality.** A call leaves the stack as it was, at its return as well as at a
`LuaScriptException`, exactly when it is not a `DoFile` of a file that is missing, does not
load or does not run through. -/
theorem stackKept_iff (vm : Vm N Obj W) (call : ApiCall N Obj) (m : Machine N W) :
    StackKept vm call m ↔ call.RunsThrough vm m.world := by
  by_cases h : ∀ fileName env, call ≠ .DoFile fileName env
  · refine iff_of_true ((neutral_run vm h).stackKept m) ?_
    cases call with
    | DoFile fileName env => exact absurd rfl (h fileName env)
    | _ => trivial
  · cases call with
    | DoFile fileName env => exact stackKept_DoFile vm fileName env m
    | _ => exact absurd (fun _ _ hcontra => nomatch hcontra) h

/-! ### A missing file -/

/-- A Lua state without files, in which every table is empty and every chunk returns
nothing. -/
def plainVm : Vm ℤ ℕ Unit where
  env _ := LuaEnv.plain
  ofNat n := n
  ofInt n := n
  registry := .table 0
  globals := .table 1
  cFunction _ := .function 0
  tag := 0
  gettable _ _ _ := some (.nil, ())
  settable _ _ _ _ := some ()
  rawget _ _ _ := .nil
  rawset _ _ _ _ := ()
  createtable _ := (.table 2, ())
  newudata _ index := (.userdata index, ())
  setmetatable _ _ _ := ()
  setfenv _ _ _ := ()
  ref _ _ := ()
  entries _ _ := some []
  checkstack _ _ := true
  loadbuffer _ _ _ _ := (.ok (.function 1), ())
  pcall _ _ _ _ := (.ok [], ())
  resources _ := none
  isScriptException _ := false
  toString _ := "function"
  kind _ := .plain
  assemblyQualifiedName _ := "System.Object"
  tryGetValue _ _ := none
  addObject _ _ := (0, ())
  collectObject _ _ _ := ()

/-- `DoFile` of a missing file leaves its message handler on the stack. -/
theorem stackKept_fails :
    ¬ ∀ (call : ApiCall ℤ ℕ) (m : Machine ℤ Unit), StackKept plainVm call m := by
  intro h
  have hkept : ([.function 0] : List (LuaValue ℤ)) = [] :=
    h (.DoFile "missing" none) { callee := .nil, stack := [], world := () }
  exact nomatch hkept

end UnityLua.LuaState
