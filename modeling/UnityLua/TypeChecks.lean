import UnityLua.GenerateDelegate
import UnityLua.StackNeutrality
import UnityLua.TableObjects

/-!
# What a type check promises

`CheckLuaType` decides whether a Lua value can be given to a parameter and names the conversion.
Here it runs on the stack, where one branch looks behind the `__index` of a table, and the
conversions to delegates and interfaces ask the code generator.

## Main results

* `CheckType.CheckLuaType_eq`: on the stack the check is the one of the slot, and the stack stays.
* `checksSoundly_iff`: when the check and the conversion that it names keep their promise.
-/

namespace UnityLua

open Library LuaLib

variable {N Obj W : Type}

/-! ### On the stack -/

namespace CheckType

variable (vm : Vm N Obj W)

def LuaIsNumber (i : ℤ) : LuaM N Obj W Bool :=
  Prog.gets fun m => (vm.env m.world).isNumber (m.value vm (.rel i))

def LuaIsString (i : ℤ) : LuaM N Obj W Bool :=
  Prog.gets fun m => (vm.env m.world).isString (m.value vm (.rel i))

/-- `luaL_getmetafield(.., "__index")`, which pushes the field if there is one. -/
def LuaLGetMetaField (i : ℤ) : LuaM N Obj W Bool := fun m =>
  match (vm.env m.world).getMetaIndex (m.value vm (.rel i)) with
  | some v => (.ok true, m.replaceTop 0 [v] m.world)
  | none => (.ok false, m)

def getNetObject (i : ℤ) : LuaM N Obj W (Option Obj) :=
  Prog.gets fun m => (vm.env m.world).getNetObject (m.value vm (.rel i))

/-- `extractValues[..]`. -/
def extractValuesOf (type : ClrType) : LuaM N Obj W (Option Extractor) := fun m =>
  ((UnityLua.extractValuesOf type).mapError .clr, m)

/-- `obj != null && paramType.IsAssignableFrom(obj.GetType())`. -/
def checkAssignable (paramType : ClrType) (obj : Option Obj) : LuaM N Obj W (Option Extractor) :=
  Prog.gets fun m => obj.bind fun o =>
    if (vm.env m.world).isAssignableFrom paramType o then some .getAsNetObject else none

/-- The last two branches. -/
def checkNetObject (i : ℤ) (paramType : ClrType) : LuaM N Obj W (Option Extractor) := do
  if (← LuaType vm i) = .LUA_TTABLE then
    if ← LuaLGetMetaField vm i then
      let obj ← getNetObject vm (-1)
      LuaSetTop (-2)
      checkAssignable vm paramType obj
    else pure none
  else
    let obj ← getNetObject vm i
    checkAssignable vm paramType obj

def isDelegate : ClrType → Bool
  | .delegate _ => true
  | _ => false

/-- The chain of branches after the test for numbers. -/
def checkOtherType (i : ℤ) (luatype : LuaTypes) (paramType : ClrType) :
    LuaM N Obj W (Option Extractor) := do
  if paramType = .bool then
    if luatype = .LUA_TBOOLEAN then extractValuesOf paramType else pure none
  else if paramType = .string ∨ paramType = .charArray then
    if ← LuaIsString vm i then extractValuesOf paramType
    else if luatype = .LUA_TNIL then pure (some .getAsNetObject)
    else pure none
  else if paramType = .luaTable then
    if luatype = .LUA_TTABLE then extractValuesOf paramType else pure none
  else if paramType = .luaUserData then
    if luatype = .LUA_TUSERDATA then extractValuesOf paramType else pure none
  else if paramType = .luaFunction then
    if luatype = .LUA_TFUNCTION then extractValuesOf paramType else pure none
  else if isDelegate paramType = true ∧ luatype = .LUA_TFUNCTION then
    pure (some (.delegateGenerator paramType))
  else if paramType.isInterface = true ∧ luatype = .LUA_TTABLE then
    pure (some (.classGenerator paramType))
  else if (paramType.isInterface = true ∨ paramType.isClass = true) ∧ luatype = .LUA_TNIL then
    pure (some .getAsNetObject)
  else checkNetObject vm i paramType

/-- `CheckLuaType` on the stack. -/
def CheckLuaType (i : ℤ) (paramType : ClrType) : LuaM N Obj W (Option Extractor) := do
  let slot ← LuaState.value vm i
  let paramType := paramType.stripByRef.stripNullable
  if paramType = .object then pure (some .getAsObject)
  else
    match if paramType.isGenericParameter then checkGenericParameter slot else none with
    | some e => pure (some e)
    | none =>
        if ← LuaIsNumber vm i then extractValuesOf paramType
        else checkOtherType vm i slot.luaType paramType

variable {vm} {m : Machine N W} {i : ℤ}

theorem checkAssignable_eq (paramType : ClrType) (obj : Option Obj) :
    checkAssignable vm paramType obj m =
      (.ok (obj.bind fun o =>
        if (vm.env m.world).isAssignableFrom paramType o then some .getAsNetObject else none),
        m) := rfl

/-- What `luaL_getmetafield` has pushed is gone when the answer is given. -/
theorem checkNetObject_eq (paramType : ClrType) :
    checkNetObject vm i paramType m =
      (.ok (UnityLua.checkNetObject (vm.env m.world) (m.value vm (.rel i)) paramType), m) := by
  rw [checkNetObject, LuaType, Prog.gets_bind, Prog.ite_apply]
  cases hslot : m.value vm (.rel i) with
  | table id =>
      simp only [UnityLua.checkNetObject, LuaValue.luaType, if_true]
      cases hindex : (vm.env m.world).metaIndex id with
      | none =>
          have hfield : LuaLGetMetaField vm i m = (.ok false, m) := by
            simp [LuaLGetMetaField, hslot, LuaEnv.getMetaIndex, hindex]
          rw [Prog.bind_ok hfield]
          rfl
      | some v =>
          have hfield : LuaLGetMetaField vm i m = (.ok true, m.replaceTop 0 [v] m.world) := by
            simp [LuaLGetMetaField, hslot, LuaEnv.getMetaIndex, hindex]
          rw [Prog.bind_ok hfield]
          rw [Prog.ite_apply, if_pos rfl, getNetObject, Prog.gets_bind]
          change (Except.ok (((vm.env m.world).getNetObject v).bind _), m) = _
          rw [Option.bind_some]
          cases (vm.env m.world).getNetObject v <;> rfl
  | _ =>
      simp only [UnityLua.checkNetObject, LuaValue.luaType, reduceCtorEq, if_false]
      rw [getNetObject, Prog.gets_bind, hslot, checkAssignable_eq]
      cases (vm.env m.world).getNetObject _ <;> rfl

theorem checkOtherType_eq (paramType : ClrType) :
    checkOtherType vm i (m.value vm (.rel i)).luaType paramType m =
      ((UnityLua.checkOtherType (vm.env m.world) (m.value vm (.rel i)) paramType).mapError .clr,
        m) := by
  cases paramType with
  | bool | luaTable | luaUserData | luaFunction =>
      simp only [checkOtherType, UnityLua.checkOtherType, reduceCtorEq, or_self, if_false, if_true,
        Prog.ite_apply]
      split <;> rfl
  | string | charArray =>
      simp only [checkOtherType, UnityLua.checkOtherType, reduceCtorEq, or_false, or_true,
        if_false, if_true, LuaIsString, Prog.gets_bind, Prog.ite_apply]
      split
      · rfl
      · split <;> rfl
  | delegate id =>
      simp only [checkOtherType, UnityLua.checkOtherType, reduceCtorEq, or_self, if_false,
        Prog.ite_apply, isDelegate, ClrType.isInterface, ClrType.isClass, true_and, false_and,
        or_true, Bool.false_eq_true, checkNetObject_eq]
      split
      · rfl
      · split <;> rfl
  | interface id =>
      simp only [checkOtherType, UnityLua.checkOtherType, reduceCtorEq, or_self, if_false,
        Prog.ite_apply, isDelegate, ClrType.isInterface, ClrType.isClass, true_and, false_and,
        true_or, Bool.false_eq_true, checkNetObject_eq]
      split
      · rfl
      · split <;> rfl
  | _ =>
      simp only [checkOtherType, UnityLua.checkOtherType, reduceCtorEq, or_self, if_false,
        Prog.ite_apply, isDelegate, ClrType.isInterface, ClrType.isClass, true_and, false_and,
        or_true, Bool.false_eq_true, checkNetObject_eq]
      first
      | rfl
      | split <;> rfl

/-- **The check on the stack is the check of the slot**, and it leaves the stack as it is. -/
theorem CheckLuaType_eq (paramType : ClrType) :
    CheckLuaType vm i paramType m =
      ((UnityLua.CheckLuaType (vm.env m.world) (m.value vm (.rel i)) paramType).mapError .clr,
        m) := by
  rw [CheckLuaType, LuaState.value, Prog.gets_bind, UnityLua.CheckLuaType, Prog.ite_apply]
  split
  · rfl
  · generalize (if paramType.stripByRef.stripNullable.isGenericParameter = true then
      checkGenericParameter (m.value vm (.rel i)) else none) = generic
    cases generic with
    | some e => rfl
    | none =>
        dsimp only
        rw [LuaIsNumber, Prog.gets_bind, Prog.ite_apply]
        split
        · rfl
        · exact checkOtherType_eq _

end CheckType

/-! ### Delegates and interfaces -/

/-- A type in the collection of delegate classes: a generated one with its code, or one that was
registered, with what its instantiation and the binding of its method come to. -/
inductive DelegateClass
  | generated (code : List (Op DelegateInstr))
  | registered (bind : Except Exn Unit)

/-- `CreateDelegate` for an instance of the class. -/
def DelegateClass.bind : DelegateClass → Except Exn Unit
  | .generated _ => .ok ()
  | .registered bind => bind

/-- The types that were generated or registered so far. -/
structure GeneratedTypes where
  delegateCollection : ClrType → Option DelegateClass
  classes : CodeGeneration

/-- What the code generator meets. -/
structure Generator (N Obj : Type) where
  /-- The method `Invoke`, which `Delegate` itself does not have. -/
  invokeMethod : ClrType → Option MethodInfo
  klass : ClrType → Klass
  accepts : Accepts
  tables : Tables N Obj

namespace Generator

variable (g : Generator N Obj)

/-- The class for a delegate type, generated on its first use. -/
def delegateClass (delegateType : ClrType) : Prog GeneratedTypes Exn DelegateClass := do
  match ← Prog.gets fun s => s.delegateCollection delegateType with
  | some luaDelegateType => pure luaDelegateType
  | none =>
      match g.invokeMethod delegateType with
      | none => Prog.throw .nullReference
      | some invokeMethod =>
          let luaDelegateType := DelegateClass.generated (GenerateDelegate invokeMethod)
          Prog.modify fun s => { s with
            delegateCollection :=
              Function.update s.delegateCollection delegateType (some luaDelegateType) }
          pure luaDelegateType

/-- The end of `GetDelegate`. -/
def bindDelegate (delegateType : ClrType) (luaFunc : LuaValue N) (luaDelegateType : DelegateClass) :
    Prog GeneratedTypes Exn (Option (ClrValue N Obj)) :=
  match g.invokeMethod delegateType with
  | none => Prog.throw .nullReference
  | some _ =>
      match luaDelegateType.bind with
      | .ok () => pure (some (.delegate delegateType luaFunc))
      | .error e => Prog.throw e

/-- `GetDelegate`. -/
def GetDelegate (delegateType : ClrType) (luaFunc : LuaValue N) :
    Prog GeneratedTypes Exn (Option (ClrValue N Obj)) := do
  let luaDelegateType ← g.delegateClass delegateType
  g.bindDelegate delegateType luaFunc luaDelegateType

/-- `GetClassInstance` for an interface; the objects have the constructor of `object`. -/
def getInterface (type : ClrType) (luaTable : LuaValue N) :
    Prog GeneratedTypes Exn (Option (ClrValue N Obj)) := fun s =>
  match GetClassInstance g.accepts ⟨g.klass type, luaTable, g.tables, .ok ()⟩ s.classes with
  | (.ok _, classes) => (.ok (some (.generated type luaTable)), { s with classes := classes })
  | (.error e, classes) => (.error e, { s with classes := classes })

/-- Runs a conversion, with the code generator. -/
def extract (env : LuaEnv N Obj) (e : Extractor) (slot : LuaValue N) :
    Prog GeneratedTypes Exn (Option (ClrValue N Obj)) :=
  match e with
  | .delegateGenerator type => g.GetDelegate type slot
  | .classGenerator type => g.getInterface type slot
  | e => fun s => ((e.extract env slot).1, s)

/-- A function can be made a delegate of the type: it has a method `Invoke`, and the class that was
registered for it, if any, can be bound. -/
def Binds (s : GeneratedTypes) (delegateType : ClrType) : Prop :=
  (g.invokeMethod delegateType).isSome = true ∧
    ∀ c, s.delegateCollection delegateType = some c → c.bind = .ok ()

/-- A table can be made an object of the interface: there is a class for it, or one can be
created. -/
def Implements (s : GeneratedTypes) (type : ClrType) (luaTable : LuaValue N) : Prop :=
  (s.classes.classCollection (g.klass type)).isSome = true ∨
    CreateType g.accepts (g.klass type) (generateMethods (g.klass type)
      (g.tables.hasField luaTable) (g.klass type).methods 0
      (List.replicate (g.klass type).methods.length none)).1 = true

variable {g} {s : GeneratedTypes}

/-- A delegate is made exactly if the type binds. -/
theorem getDelegate_eq_ok_iff {delegateType : ClrType} {luaFunc : LuaValue N}
    {v : Option (ClrValue N Obj)} :
    (g.GetDelegate delegateType luaFunc s).1 = .ok v ↔
      g.Binds s delegateType ∧ v = some (.delegate delegateType luaFunc) := by
  rw [Binds]
  cases hstored : s.delegateCollection delegateType with
  | some c =>
      have hclass : g.delegateClass delegateType s = (.ok c, s) := by
        rw [delegateClass, Prog.gets_bind, hstored]
        rfl
      rw [GetDelegate, Prog.bind_ok hclass]
      cases hinvoke : g.invokeMethod delegateType with
      | none => simp [bindDelegate, hinvoke, Prog.throw]
      | some invokeMethod =>
          cases hbind : c.bind <;>
            simp [bindDelegate, hinvoke, hbind, Prog.throw, Prog.pure_apply, eq_comm]
  | none =>
      cases hinvoke : g.invokeMethod delegateType with
      | none =>
          have hclass : g.delegateClass delegateType s = (.error .nullReference, s) := by
            rw [delegateClass, Prog.gets_bind, hstored, hinvoke]
            rfl
          rw [GetDelegate, Prog.bind_error hclass]
          simp
      | some invokeMethod =>
          have hclass : g.delegateClass delegateType s =
              (.ok (.generated (GenerateDelegate invokeMethod)), { s with
                delegateCollection := Function.update s.delegateCollection delegateType
                  (some (.generated (GenerateDelegate invokeMethod))) }) := by
            rw [delegateClass, Prog.gets_bind, hstored, hinvoke]
            rfl
          rw [GetDelegate, Prog.bind_ok hclass]
          simp [bindDelegate, hinvoke, DelegateClass.bind, Prog.pure_apply, eq_comm]

/-- The class for a table is there or can be created. -/
theorem luaClassType_isOk {accepts : Accepts} {c : InstanceCall N Obj} {s : CodeGeneration} :
    (∃ t s', luaClassType accepts c s = (.ok t, s')) ↔
      (s.classCollection c.klass).isSome = true ∨
        CreateType accepts c.klass
          (luaClassOf c.klass (c.tables.hasField c.luaTable) s.luaClassNumber).methods = true := by
  rw [luaClassType_apply]
  cases hcached : s.classCollection c.klass with
  | some t => exact iff_of_true ⟨t, s, rfl⟩ (.inl rfl)
  | none =>
      dsimp only
      split
      · next hcreate => exact iff_of_true ⟨_, _, rfl⟩ (.inr hcreate)
      · next hcreate =>
          refine iff_of_false (fun ⟨t, s', h⟩ => ?_) fun h => h.elim (by simp) hcreate
          cases h

/-- An object of an interface is made exactly if the type implements it. -/
theorem getInterface_eq_ok_iff {type : ClrType} {luaTable : LuaValue N}
    {v : Option (ClrValue N Obj)} :
    (g.getInterface type luaTable s).1 = .ok v ↔
      g.Implements s type luaTable ∧ v = some (.generated type luaTable) := by
  have hclass : (∃ t s', luaClassType g.accepts ⟨g.klass type, luaTable, g.tables, .ok ()⟩ s.classes =
      (.ok t, s')) ↔ g.Implements s type luaTable := luaClassType_isOk
  rw [getInterface, GetClassInstance]
  cases hrun : luaClassType g.accepts ⟨g.klass type, luaTable, g.tables, .ok ()⟩ s.classes with
  | mk r s' =>
      rw [hrun] at hclass
      cases r with
      | error e =>
          rw [Prog.bind_error hrun]
          refine iff_of_false (by simp) fun h => ?_
          obtain ⟨t, s'', h⟩ := hclass.mpr h.1
          cases h
      | ok t =>
          rw [Prog.bind_ok hrun]
          have himplements := hclass.mp ⟨t, s', rfl⟩
          simp [createInstance, Prog.pure_apply, himplements, eq_comm]

end Generator

/-! ### What the conversions give -/

/-- The type of a value; an object is known by the types that it can be assigned to. -/
def ClrValue.type? : ClrValue N Obj → Option ClrType
  | .integral t _ => some (.integral t)
  | .double _ => some .double
  | .float _ => some .float
  | .decimal _ => some .decimal
  | .bool _ => some .bool
  | .string _ => some .string
  | .luaTable _ => some .luaTable
  | .luaFunction _ => some .luaFunction
  | .luaUserData _ => some .luaUserData
  | .delegate type _ | .generated type _ => some type
  | .array element _ => some (.array element)
  | .object _ => none

/-- The value is an instance of the type. -/
def IsInstance (env : LuaEnv N Obj) (type : ClrType) (v : ClrValue N Obj) : Prop :=
  type = .object ∨ v.type? = some type ∨ ∃ o, v = .object o ∧ env.isAssignableFrom type o = true

/-- The wrappers of Lua values are for values of their kind. -/
def FitsWrapper (slot : LuaValue N) (type : ClrType) : Prop :=
  (type = .luaTable → slot.luaType = .LUA_TTABLE) ∧
    (type = .luaFunction → slot.luaType = .LUA_TFUNCTION) ∧
      (type = .luaUserData → slot.luaType = .LUA_TUSERDATA)

/-- The promise of a conversion: it gives `null` or an instance of the type. -/
structure Converts (g : Generator N Obj) (s : GeneratedTypes) (env : LuaEnv N Obj)
    (e : Extractor) (slot : LuaValue N) (type : ClrType) : Prop where
  gives : ∃ v, (g.extract env e slot s).1 = .ok v ∧ ∀ x, v = some x → IsInstance env type x
  fits : FitsWrapper slot type

/-- The promise of a check: no exception, the same stack, and no conversion that breaks its own
promise. -/
def ChecksSoundly (vm : Vm N Obj W) (g : Generator N Obj) (s : GeneratedTypes) (i : ℤ)
    (paramType : ClrType) (m : Machine N W) : Prop :=
  ∃ found, CheckType.CheckLuaType vm i paramType m = (.ok found, m) ∧
    ∀ e, found = some e →
      Converts g s (vm.env m.world) e (m.value vm (.rel i)) paramType.stripByRef.stripNullable

/-- Where the table of conversions answers for a number: its types are those of scalars, and a
`decimal` may be too small for it. -/
def NumberConverts (env : LuaEnv N Obj) (slot : LuaValue N) : ClrType → Prop
  | .object | .integral _ | .double | .float | .bool | .string => True
  | .decimal => (env.toDecimal (env.toNumber slot)).isSome = true
  | _ => False

/-- Where the branches for the other values go wrong: text for `char[]`, which the table of
conversions does not have, and types that no code can be generated for. -/
def OtherConverts (g : Generator N Obj) (s : GeneratedTypes) (slot : LuaValue N) :
    ClrType → Prop
  | .charArray => slot.luaType ≠ .LUA_TSTRING
  | .delegate id => slot.luaType = .LUA_TFUNCTION → g.Binds s (.delegate id)
  | .interface id => slot.luaType = .LUA_TTABLE → g.Implements s (.interface id) slot
  | _ => True

section

variable {g : Generator N Obj} {s : GeneratedTypes} {env : LuaEnv N Obj} {slot : LuaValue N}

/-- The promise of a check, for a slot. -/
def SlotSound (g : Generator N Obj) (s : GeneratedTypes) (env : LuaEnv N Obj)
    (slot : LuaValue N) (type : ClrType) (r : Except Exn (Option Extractor)) : Prop :=
  ∃ found, r = .ok found ∧ ∀ e, found = some e → Converts g s env e slot type

theorem slotSound_none {type : ClrType} : SlotSound g s env slot type (.ok none) :=
  ⟨none, rfl, by simp⟩

theorem slotSound_some {type : ClrType} {e : Extractor} :
    SlotSound g s env slot type (.ok (some e)) ↔ Converts g s env e slot type := by
  simp [SlotSound]

theorem slotSound_ite {type : ClrType} {c : Prop} [Decidable c]
    {x y : Except Exn (Option Extractor)} :
    SlotSound g s env slot type (if c then x else y) ↔
      (c → SlotSound g s env slot type x) ∧ (¬c → SlotSound g s env slot type y) := by
  split <;> simp [*]

theorem not_slotSound_error {type : ClrType} {e : Exn} :
    ¬SlotSound g s env slot type (.error e) := by
  simp [SlotSound]

/-- A conversion that gives an instance of a type other than those of the wrappers. -/
theorem converts_of_extract {e : Extractor} {type : ClrType} {x : ClrValue N Obj}
    (hextract : (g.extract env e slot s).1 = .ok (some x)) (hx : IsInstance env type x)
    (hfits : FitsWrapper slot type) : Converts g s env e slot type :=
  ⟨⟨some x, hextract, fun _ hy => Option.some.inj hy ▸ hx⟩, hfits⟩

theorem nullUnlessNumber_number (hnumber : env.isNumber slot = true) (isZero : Bool)
    (v : ClrValue N Obj) : nullUnlessNumber env slot isZero v = (.ok (some v), slot) := by
  simp [nullUnlessNumber, hnumber]

theorem getAsString_of_isString (hstring : env.isString slot = true) :
    ∃ x, (g.extract env .getAsString slot s).1 = .ok (some (.string x)) := by
  cases slot with
  | number n => exact ⟨_, rfl⟩
  | string x => exact ⟨x, rfl⟩
  | _ => cases hstring

/-- Every value is an object. -/
theorem converts_object : Converts g s env .getAsObject slot .object :=
  ⟨⟨_, rfl, fun _ _ => .inl rfl⟩, by simp [FitsWrapper]⟩

/-- A number is none of the values that have wrappers. -/
theorem not_fitsWrapper (hnumber : env.isNumber slot = true) {type : ClrType}
    (htype : type = .luaTable ∨ type = .luaFunction ∨ type = .luaUserData) :
    ¬FitsWrapper slot type := by
  rintro ⟨htable, hfunction, huserdata⟩
  have hkind : slot.luaType = .LUA_TNUMBER ∨ slot.luaType = .LUA_TSTRING := by
    cases slot <;> first | exact .inl rfl | exact .inr rfl | cases hnumber
  rcases htype with h | h | h
  · simp [htable h] at hkind
  · simp [hfunction h] at hkind
  · simp [huserdata h] at hkind

/-- The answers of the table of conversions for a number. -/
theorem slotSound_number {type : ClrType} (hnumber : env.isNumber slot = true) :
    SlotSound g s env slot type (extractValuesOf type) ↔ NumberConverts env slot type := by
  have hnull (isZero : Bool) (v : ClrValue N Obj) := nullUnlessNumber_number hnumber isZero v
  cases type with
  | integral t =>
      refine iff_of_true (slotSound_some.mpr ?_) trivial
      have hextract : (g.extract env (.getAsIntegral t) slot s).1 =
          .ok (some (.integral t (env.toIntegral t (env.toNumber slot)))) :=
        congrArg Prod.fst (hnull _ _)
      exact converts_of_extract hextract (.inr (.inl rfl)) (by simp [FitsWrapper])
  | double =>
      refine iff_of_true (slotSound_some.mpr ?_) trivial
      have hextract : (g.extract env .getAsDouble slot s).1 =
          .ok (some (.double (env.toNumber slot))) := congrArg Prod.fst (hnull _ _)
      exact converts_of_extract hextract (.inr (.inl rfl)) (by simp [FitsWrapper])
  | float =>
      refine iff_of_true (slotSound_some.mpr ?_) trivial
      have hextract : (g.extract env .getAsFloat slot s).1 =
          .ok (some (.float (env.toFloat (env.toNumber slot)))) := congrArg Prod.fst (hnull _ _)
      exact converts_of_extract hextract (.inr (.inl rfl)) (by simp [FitsWrapper])
  | bool =>
      refine iff_of_true (slotSound_some.mpr ?_) trivial
      exact converts_of_extract (x := .bool (env.toBoolean slot)) rfl (.inr (.inl rfl))
        (by simp [FitsWrapper])
  | string =>
      refine iff_of_true (slotSound_some.mpr ?_) trivial
      obtain ⟨x, hx⟩ : ∃ x, (g.extract env .getAsString slot s).1 = .ok (some (.string x)) :=
        getAsString_of_isString (LuaEnv.isString_of_isNumber hnumber)
      exact converts_of_extract hx (.inr (.inl rfl)) (by simp [FitsWrapper])
  | object =>
      exact iff_of_true (slotSound_some.mpr converts_object) trivial
  | decimal =>
      have hextract : (g.extract env .getAsDecimal slot s).1 = (GetAsDecimal env slot).1 := rfl
      rw [GetAsDecimal] at hextract
      rw [NumberConverts]
      refine slotSound_some.trans ?_
      cases hdecimal : env.toDecimal (env.toNumber slot) with
      | none =>
          refine iff_of_false (fun h => ?_) (by simp)
          obtain ⟨v, hv, -⟩ := h.gives
          rw [hextract, hdecimal] at hv
          cases hv
      | some n =>
          refine iff_of_true ?_ rfl
          rw [hdecimal] at hextract
          dsimp only at hextract
          rw [hnull] at hextract
          exact converts_of_extract hextract (.inr (.inl rfl)) (by simp [FitsWrapper])
  | luaTable | luaFunction | luaUserData =>
      refine iff_of_false (fun h => ?_) id
      exact not_fitsWrapper hnumber (by simp) (slotSound_some.mp h).fits
  | _ => exact iff_of_false not_slotSound_error id

/-- Nil becomes `null`. -/
theorem converts_nil {type : ClrType} (hnil : slot.luaType = .LUA_TNIL)
    (hfits : FitsWrapper slot type) : Converts g s env .getAsNetObject slot type := by
  cases slot with
  | nil => exact ⟨⟨none, rfl, by simp⟩, hfits⟩
  | _ => cases hnil

/-- The object that a value is or stands for. -/
def objectBehind (env : LuaEnv N Obj) : LuaValue N → Option Obj
  | .table id => (env.metaIndex id).bind env.getNetObject
  | v => env.getNetObject v

theorem checkNetObject_behind {type : ClrType} :
    checkNetObject env slot type = (objectBehind env slot).bind fun o =>
      if env.isAssignableFrom type o then some .getAsNetObject else none := by
  cases slot with
  | table id => cases h : (env.metaIndex id).bind env.getNetObject <;>
      simp only [checkNetObject, objectBehind, h] <;> rfl
  | userdata id => cases h : env.netObject id <;>
      simp only [checkNetObject, objectBehind, LuaEnv.getNetObject, h] <;> rfl
  | _ => rfl

theorem checkNetObject_eq_some {type : ClrType} {e : Extractor}
    (h : checkNetObject env slot type = some e) :
    e = .getAsNetObject ∧
      ∃ o, objectBehind env slot = some o ∧ env.isAssignableFrom type o = true := by
  rw [checkNetObject_behind] at h
  obtain ⟨o, ho, h⟩ := Option.bind_eq_some_iff.mp h
  split at h
  · exact ⟨(Option.some.inj h).symm, o, ho, by assumption⟩
  · cases h

/-- The conversion to an object gives no other object than the one behind the value. -/
theorem getAsNetObject_gives (env : LuaEnv N Obj) (slot : LuaValue N) :
    ∃ v, (GetAsNetObject env slot).1 = .ok v ∧
      ∀ x, v = some x → ∃ o, x = .object o ∧ objectBehind env slot = some o := by
  rw [GetAsNetObject]
  cases hobj : env.getNetObject slot with
  | some o =>
      refine ⟨_, rfl, fun x hx => ⟨o, (Option.some.inj hx).symm, ?_⟩⟩
      cases slot with
      | userdata id => exact hobj
      | _ => cases hobj
  | none =>
      refine ⟨_, rfl, fun x hx => ?_⟩
      obtain ⟨o, ho, rfl⟩ := Option.map_eq_some_iff.mp hx
      refine ⟨o, rfl, ?_⟩
      rw [replaceByIndex] at ho
      cases slot with
      | table id =>
          rw [LuaEnv.getMetaIndex] at ho
          rw [objectBehind]
          cases hindex : env.metaIndex id with
          | none => simp [hindex, hobj] at ho
          | some v =>
              cases hmeta : env.checkMetaTable v <;> simp [hindex, hmeta, hobj] at ho
              exact ho
      | _ => simp_all [LuaEnv.getMetaIndex]

/-- The object behind a value, if it is of the type, is what the conversion gives. -/
theorem slotSound_checkNetObject {type : ClrType} (hfits : FitsWrapper slot type) :
    SlotSound g s env slot type (.ok (checkNetObject env slot type)) := by
  refine ⟨_, rfl, fun e he => ⟨?_, hfits⟩⟩
  obtain ⟨rfl, o, hbehind, hassign⟩ := checkNetObject_eq_some he
  obtain ⟨v, hv, hgives⟩ := getAsNetObject_gives env slot
  refine ⟨v, hv, fun x hx => ?_⟩
  obtain ⟨o', rfl, ho'⟩ := hgives x hx
  rw [hbehind] at ho'
  exact .inr (.inr ⟨o', rfl, Option.some.inj ho' ▸ hassign⟩)

theorem converts_delegate {id : ℕ} :
    Converts g s env (.delegateGenerator (.delegate id)) slot (.delegate id) ↔
      g.Binds s (.delegate id) := by
  constructor
  · intro h
    obtain ⟨v, hv, -⟩ := h.gives
    exact (Generator.getDelegate_eq_ok_iff.mp hv).1
  · intro h
    exact converts_of_extract (Generator.getDelegate_eq_ok_iff.mpr ⟨h, rfl⟩) (.inr (.inl rfl))
      (by simp [FitsWrapper])

theorem converts_interface {id : ℕ} :
    Converts g s env (.classGenerator (.interface id)) slot (.interface id) ↔
      g.Implements s (.interface id) slot := by
  constructor
  · intro h
    obtain ⟨v, hv, -⟩ := h.gives
    exact (Generator.getInterface_eq_ok_iff.mp hv).1
  · intro h
    exact converts_of_extract (Generator.getInterface_eq_ok_iff.mpr ⟨h, rfl⟩) (.inr (.inl rfl))
      (by simp [FitsWrapper])

/-- The answers for a value that does not read as a number. -/
theorem slotSound_other {type : ClrType} (hgeneric : type.isGenericParameter = false)
    (hnumber : env.isNumber slot = false) :
    SlotSound g s env slot type (checkOtherType env slot type) ↔
      OtherConverts g s slot type := by
  cases type with
  | bool =>
      refine iff_of_true (slotSound_ite.mpr ⟨fun _ => ?_, fun _ => slotSound_none⟩) trivial
      exact slotSound_some.mpr (converts_of_extract (x := .bool (env.toBoolean slot)) rfl
        (.inr (.inl rfl)) (by simp [FitsWrapper]))
  | string =>
      refine iff_of_true (slotSound_ite.mpr ⟨fun hstring => ?_, fun _ => slotSound_ite.mpr
        ⟨fun hnil => ?_, fun _ => slotSound_none⟩⟩) trivial
      · obtain ⟨x, hx⟩ := getAsString_of_isString (g := g) (s := s) hstring
        exact slotSound_some.mpr (converts_of_extract hx (.inr (.inl rfl)) (by simp [FitsWrapper]))
      · exact slotSound_some.mpr (converts_nil hnil (by simp [FitsWrapper]))
  | charArray =>
      rw [checkOtherType, slotSound_ite, slotSound_ite]
      have hstring : env.isString slot = true ↔ slot.luaType = .LUA_TSTRING := by
        cases slot with
        | number n => cases hnumber
        | _ => simp [LuaEnv.isString, LuaValue.luaType]
      constructor
      · exact fun h htype => not_slotSound_error (h.1 (hstring.mpr htype))
      · intro h
        refine ⟨fun htype => absurd (hstring.mp htype) h, fun _ => ⟨fun hnil => ?_, fun _ =>
          slotSound_none⟩⟩
        exact slotSound_some.mpr (converts_nil hnil (by simp [FitsWrapper]))
  | luaTable =>
      refine iff_of_true (slotSound_ite.mpr ⟨fun h => ?_, fun _ => slotSound_none⟩) trivial
      exact slotSound_some.mpr (converts_of_extract (x := .luaTable slot) rfl (.inr (.inl rfl))
        (by simp [FitsWrapper, h]))
  | luaFunction =>
      refine iff_of_true (slotSound_ite.mpr ⟨fun h => ?_, fun _ => slotSound_none⟩) trivial
      exact slotSound_some.mpr (converts_of_extract (x := .luaFunction slot) rfl (.inr (.inl rfl))
        (by simp [FitsWrapper, h]))
  | luaUserData =>
      refine iff_of_true (slotSound_ite.mpr ⟨fun h => ?_, fun _ => slotSound_none⟩) trivial
      exact slotSound_some.mpr (converts_of_extract (x := .luaUserData slot) rfl (.inr (.inl rfl))
        (by simp [FitsWrapper, h]))
  | delegate id =>
      rw [checkOtherType, slotSound_ite, slotSound_ite, OtherConverts]
      refine (and_iff_left fun _ => ⟨fun hnil => ?_, fun _ => ?_⟩).trans
        (forall_congr' fun _ => slotSound_some.trans converts_delegate)
      · exact slotSound_some.mpr (converts_nil hnil (by simp [FitsWrapper]))
      · exact slotSound_checkNetObject (by simp [FitsWrapper])
  | interface id =>
      rw [checkOtherType, slotSound_ite, slotSound_ite, OtherConverts]
      refine (and_iff_left fun _ => ⟨fun hnil => ?_, fun _ => ?_⟩).trans
        (forall_congr' fun _ => slotSound_some.trans converts_interface)
      · exact slotSound_some.mpr (converts_nil hnil (by simp [FitsWrapper]))
      · exact slotSound_checkNetObject (by simp [FitsWrapper])
  | genericParameter id => cases hgeneric
  | _ =>
      simp only [checkOtherType]
      refine iff_of_true (slotSound_ite.mpr ⟨fun hnil => ?_, fun _ => ?_⟩) trivial
      · exact slotSound_some.mpr (converts_nil hnil.2 (by simp [FitsWrapper]))
      · exact slotSound_checkNetObject (by simp [FitsWrapper])

end

/-- **When a type check keeps its promise.** For a number, or a string that reads as one, the table
of conversions answers whatever the type is; for the other values only text for `char[]` and types
without generated code go wrong. -/
theorem checksSoundly_iff (vm : Vm N Obj W) (g : Generator N Obj) (s : GeneratedTypes) (i : ℤ)
    (paramType : ClrType) (m : Machine N W)
    (hgeneric : paramType.stripByRef.stripNullable.isGenericParameter = false) :
    ChecksSoundly vm g s i paramType m ↔
      if (vm.env m.world).isNumber (m.value vm (.rel i)) = true then
        NumberConverts (vm.env m.world) (m.value vm (.rel i)) paramType.stripByRef.stripNullable
      else OtherConverts g s (m.value vm (.rel i)) paramType.stripByRef.stripNullable := by
  have hslot : ChecksSoundly vm g s i paramType m ↔
      SlotSound g s (vm.env m.world) (m.value vm (.rel i)) paramType.stripByRef.stripNullable
        (CheckLuaType (vm.env m.world) (m.value vm (.rel i)) paramType) := by
    rw [ChecksSoundly, SlotSound, CheckType.CheckLuaType_eq]
    cases CheckLuaType (vm.env m.world) (m.value vm (.rel i)) paramType <;> simp [Except.mapError]
  rw [hslot, CheckLuaType]
  generalize paramType.stripByRef.stripNullable = type at hgeneric ⊢
  by_cases hobject : type = .object
  · subst hobject
    refine iff_of_true (slotSound_some.mpr converts_object) ?_
    split <;> trivial
  · simp only [hobject, hgeneric, Bool.false_eq_true, if_false]
    split
    · next hnumber => exact slotSound_number hnumber
    · next hnumber => exact slotSound_other hgeneric (Bool.eq_false_iff.mpr hnumber)

/-- A program without delegates and with one interface, which has no methods. -/
def Generator.plain : Generator ℤ ℕ where
  invokeMethod _ := none
  klass _ := ⟨1, true, [], fun _ _ h => by cases h⟩
  accepts _ _ := true
  tables := ⟨fun _ _ => false, fun _ _ => none⟩

theorem checksSoundly_table :
    ChecksSoundly LuaState.plainVm Generator.plain ⟨fun _ => none, .new⟩ 1 (.interface 1)
        ⟨.nil, [.table 1], ()⟩ ↔
      OtherConverts Generator.plain ⟨fun _ => none, .new⟩ (.table 1) (.interface 1) :=
  checksSoundly_iff _ _ _ _ _ _ rfl

/-- A number given for an object is an exception instead of a mismatch. -/
theorem checksSoundly_fails :
    ¬∀ (i : ℤ) (paramType : ClrType) (m : Machine ℤ Unit),
      paramType.stripByRef.stripNullable.isGenericParameter = false →
        ChecksSoundly LuaState.plainVm Generator.plain ⟨fun _ => none, .new⟩ i paramType m := by
  intro h
  obtain ⟨found, hfound, -⟩ := h 1 (.class 1) ⟨.nil, [.number 5], ()⟩ rfl
  cases hfound

end UnityLua
