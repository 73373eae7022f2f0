import Mathlib.Logic.Function.Basic
import UnityLua.Library.HiddenState
import UnityLua.MethodWrapper

/-!
# Reading and writing members

The `__index` and `__newindex` metamethods of CLR objects. Reflection answers by name, and two
caches stand before it: `memberCache`, which both metamethods fill with what they have found,
and the table `cache` in the metatable of each type, in which the Lua part of `__index` keeps
the functions it got.
-/

namespace UnityLua

open Library Prog

variable {N Obj W : Type}

/-- The types of objects: `object`, and the types derived from another one. -/
inductive ClrClass
  | object
  | derived (id : ℕ) (baseType : ClrClass)
  deriving DecidableEq, Repr

/-- The kinds of members; what is none of the others is taken for a method. -/
inductive MemberTypes
  | Field
  | Property
  | Event
  | NestedType
  | Method
  deriving DecidableEq, Repr

/-- A public member. `type` is the type of a field or property, and `hasGetter` says that a
property has a get accessor. -/
structure MemberInfo where
  token : ℕ
  name : String
  memberType : MemberTypes
  isStatic : Bool
  declaringType : String
  type : ClrType
  hasGetter : Bool
  deriving DecidableEq, Repr

/-- A method named `get_Item` or `set_Item`, by the types of its parameters. -/
structure Accessor where
  token : ℕ
  parameters : List ClrType
  deriving DecidableEq, Repr

/-- The exceptions of `PropertyInfo.GetValue` for a property with a get accessor: one that the
accessor has thrown, or a mismatch of the index parameters. -/
inductive GetterException
  | thrown (e : ℕ)
  | parameterCount

/-- What the runtime knows of types and members, and what it does with the members of an
object. -/
structure Reflection (N Obj W : Type) where
  env : W → LuaEnv N Obj
  typeOf : Obj → ClrClass
  /-- The public members in the order of `GetMember`. -/
  members : ClrClass → List MemberInfo
  /-- The comparison of names with `BindingFlags.IgnoreCase`. -/
  sameName : String → String → Bool
  /-- `char.IsLetter`. -/
  isLetter : Char → Bool
  getField : MemberInfo → Obj → Prog W Exn (Option (ClrValue N Obj))
  /-- For a property with a get accessor; without one `GetValue` throws an
  `ArgumentException`. -/
  getProperty : MemberInfo → Obj → Prog W GetterException (Option (ClrValue N Obj))
  setField : MemberInfo → Obj → Option (ClrValue N Obj) → Prog W Exn Unit
  setProperty : MemberInfo → Obj → Option (ClrValue N Obj) → Prog W Exn Unit
  /-- `ObjectTranslator.FindType`. -/
  findType : W → String → Option ℕ
  /-- The element type of an array type. -/
  elementType : ClrClass → Option ClrType
  arrayLength : Obj → W → ℕ
  getElement : Obj → ℤ → Prog W Exn (Option (ClrValue N Obj))
  setElement : Obj → ℤ → Option (ClrValue N Obj) → Prog W Exn Unit
  /-- The methods named `get_Item` in the order of `GetMethods`. -/
  getItems : ClrClass → List Accessor
  /-- `GetMethod("set_Item")`, which throws if there are several. -/
  setItem : ClrClass → Except Exn (Option Accessor)
  invokeGetter : Accessor → Obj → Option (ClrValue N Obj) → Prog W Exn (Option (ClrValue N Obj))
  invokeSetter : Accessor → Obj → Option (ClrValue N Obj) → Option (ClrValue N Obj) →
    Prog W Exn Unit
  /-- How a value is written in a message. -/
  text : W → Option (ClrValue N Obj) → String
  /-- The exception inside is a `KeyNotFoundException`. -/
  isKeyNotFound : ℕ → Bool
  /-- The message of a `TargetInvocationException`. -/
  invocationMessage : String

/-- How a metamethod fails: with an error in Lua, or with an exception that nothing catches. -/
inductive AccessFault
  | error (e : LuaError)
  | exception (e : Exn)
  deriving DecidableEq, Repr

/-- The function of a new `LuaMethodWrapper` for the methods of a name. -/
structure Wrapper where
  targetType : ClrClass
  methodName : String
  deriving DecidableEq, Repr

/-- What is pushed for a member. -/
inductive Pushed (N Obj : Type)
  | value (v : Option (ClrValue N Obj))
  | function (w : Wrapper)
  | eventHandler (target : Obj) (event : MemberInfo)
  | type (t : Option ℕ)

/-- `nil` and `false` are the values that a condition in Lua takes for false. -/
def Pushed.truthy : Pushed N Obj → Bool
  | .value none => false
  | .value (some (.bool b)) => b
  | _ => true

def Pushed.isNil : Pushed N Obj → Bool
  | .value none => true
  | _ => false

/-- The second result of `getMethod`: whether the first one is a function, or a message. -/
inductive IsFunc
  | flag (b : Bool)
  | message (s : String)
  deriving DecidableEq, Repr

def IsFunc.truthy : IsFunc → Bool
  | .flag b => b
  | .message _ => true

/-- An entry of `memberCache`. -/
inductive CachedMember
  | function (w : Wrapper)
  | member (m : MemberInfo)
  deriving DecidableEq, Repr

/-- The two caches. An absent field of a Lua table is `nil`. -/
structure Caches (N Obj : Type) where
  memberCache : ClrClass → String → Option CachedMember
  metaCache : ClrClass → LuaValue N → Pushed N Obj

/-- The caches before the first access. -/
def Caches.empty : Caches N Obj where
  memberCache _ _ := none
  metaCache _ _ := .value none

/-- What a metamethod does with the caches and the world. -/
abbrev AccessM (N Obj W : Type) := Prog (Caches N Obj × W) AccessFault

def checkMemberCache (objType : ClrClass) (memberName : String) (k : Caches N Obj) :
    Option CachedMember := k.memberCache objType memberName

def setMemberCache (objType : ClrClass) (memberName : String) (member : CachedMember)
    (k : Caches N Obj) : Caches N Obj :=
  { k with memberCache := Function.update k.memberCache objType
                            (Function.update (k.memberCache objType) memberName (some member)) }

/-- `meta.cache[name] = value`. -/
def setMetaCache [DecidableEq N] (objType : ClrClass) (name : LuaValue N) (value : Pushed N Obj)
    (k : Caches N Obj) : Caches N Obj :=
  { k with metaCache := Function.update k.metaCache objType
                          (Function.update (k.metaCache objType) name value) }

theorem checkMemberCache_setMemberCache (c objType : ClrClass) (n name : String)
    (e : CachedMember) (k : Caches N Obj) :
    checkMemberCache c n (setMemberCache objType name e k) =
      if c = objType ∧ n = name then some e else checkMemberCache c n k := by
  simp only [checkMemberCache, setMemberCache, Function.update_apply]
  by_cases hc : c = objType
  · subst hc
    simp only [if_true, true_and, Function.update_apply]
  · simp only [hc, if_false, false_and]

theorem setMetaCache_metaCache [DecidableEq N] (c objType : ClrClass) (key name : LuaValue N)
    (v : Pushed N Obj) (k : Caches N Obj) :
    (setMetaCache objType name v k).metaCache c key =
      if c = objType ∧ key = name then v else k.metaCache c key := by
  simp only [setMetaCache, Function.update_apply]
  by_cases hc : c = objType
  · subst hc
    simp only [if_true, true_and, Function.update_apply]
  · simp only [hc, if_false, false_and]

/-- An exception that nothing catches. -/
def uncaught {α : Type} (x : Prog W Exn α) : Prog W AccessFault α := do
  match ← attempt x with
  | .ok a => pure a
  | .error e => throw (.exception e)

/-- `MetaFunctions.ThrowError`. The exception of a body comes without its
`TargetInvocationException`. -/
def ThrowError {σ α : Type} (e : Exn) : Prog σ AccessFault α := throw (.error (.exception e))

/-- `ObjectTranslator.throwError` with a message. -/
def throwMessage {σ α : Type} (message : String) : Prog σ AccessFault α :=
  throw (.error (.message message))

namespace Reflection

variable (r : Reflection N Obj W)

/-- `getAsType` on a slot: the value, and the slot afterwards. -/
def convert (slot : LuaValue N) (type : ClrType) :
    Prog W Exn (Option (ClrValue N Obj) × LuaValue N) := fun w =>
  match getAsType (r.env w) slot type with
  | (.ok v, slot) => (.ok (v, slot), w)
  | (.error e, _) => (.error e, w)

/-- `GetMember` with `Instance`, and with `Static` as well if `static` is set. Nested types
belong to neither. -/
def getMembers (objType : ClrClass) (name : String) (static : Bool) : List MemberInfo :=
  (r.members objType).filter fun m =>
    r.sameName m.name name && (static || !m.isStatic || m.memberType == .NestedType)

/-- The member that `getMember` takes, and whether only the search with static members has
found it. -/
def findMember (objType : ClrClass) (name : String) : Option (MemberInfo × Bool) :=
  match r.getMembers objType name false with
  | m :: _ => some (m, false)
  | [] => (r.getMembers objType name true).head?.map fun m => (m, true)

/-- `isMemberPresent`. -/
def isMemberPresent (objType : ClrClass) (methodName : String) (k : Caches N Obj) : Bool :=
  match checkMemberCache objType methodName k with
  | some _ => true
  | none => !(r.getMembers objType methodName true).isEmpty

/-- `if (cachedMember == null) setMemberCache(..)`. -/
def cacheUnless (cached : Bool) (objType : ClrClass) (methodName : String)
    (member : CachedMember) : AccessM N Obj W Unit :=
  if cached then pure () else record (setMemberCache objType methodName member)

/-! ### Reading -/

/-- The value of a field; an exception is read as `nil`. -/
def readField (m : MemberInfo) (o : Obj) : Prog W AccessFault (Pushed N Obj × IsFunc) := do
  match ← attempt (r.getField m o) with
  | .ok v => pure (.value v, .flag false)
  | .error _ => pure (.value none, .flag false)

/-- The value of a property with a get accessor. -/
def readProperty (m : MemberInfo) (o : Obj) : Prog W AccessFault (Pushed N Obj × IsFunc) := do
  match ← attempt (r.getProperty m o) with
  | .ok v => pure (.value v, .flag false)
  | .error (.thrown e) => ThrowError (.thrown e)
  | .error .parameterCount => throw (.exception .target)

/-- The reference to a nested type, which is looked for by its full name. -/
def readNestedType (m : MemberInfo) : Prog W AccessFault (Pushed N Obj × IsFunc) := do
  let longname := m.declaringType ++ "+" ++ m.name
  let nestedType ← gets fun w => r.findType w longname
  pure (.type nestedType, .flag false)

/-- The part of `getMember` that uses a member. `baseMember` is the call for the base type. -/
def useMember (baseMember : Option (AccessM N Obj W (Pushed N Obj × IsFunc)))
    (objType : ClrClass) (obj : Obj) (methodName : String) (member : MemberInfo)
    (implicitStatic cached : Bool) : AccessM N Obj W (Pushed N Obj × IsFunc) :=
  match member.memberType with
  | .Field => do
      cacheUnless cached objType methodName (.member member)
      beside (r.readField member obj)
  | .Property => do
      cacheUnless cached objType methodName (.member member)
      if member.hasGetter then beside (r.readProperty member obj)
      else baseMember.getD (pure (.value none, .flag false))
  | .Event => do
      cacheUnless cached objType methodName (.member member)
      pure (.eventHandler obj member, .flag false)
  | .NestedType =>
      if implicitStatic then throwMessage ("can't pass instance to static method " ++ methodName)
      else do
        cacheUnless cached objType methodName (.member member)
        beside (r.readNestedType member)
  | .Method =>
      if implicitStatic then throwMessage ("can't pass instance to static method " ++ methodName)
      else do
        cacheUnless cached objType methodName (.function ⟨objType, methodName⟩)
        pure (.function ⟨objType, methodName⟩, .flag true)

/-- The body of `getMember`. -/
def getMemberIn (baseMember : Option (AccessM N Obj W (Pushed N Obj × IsFunc)))
    (objType : ClrClass) (obj : Obj) (methodName : String) :
    AccessM N Obj W (Pushed N Obj × IsFunc) := do
  match ← consult (checkMemberCache objType methodName) with
  | some (.function w) => pure (.function w, .flag true)
  | some (.member member) => useMember r baseMember objType obj methodName member false true
  | none =>
      match r.findMember objType methodName with
      | some (member, implicitStatic) =>
          useMember r baseMember objType obj methodName member implicitStatic false
      | none => throwMessage ("unknown member name " ++ methodName)

/-- `MetaFunctions.getMember` for instances. -/
def getMember (obj : Obj) (methodName : String) :
    ClrClass → AccessM N Obj W (Pushed N Obj × IsFunc)
  | .object => getMemberIn r none .object obj methodName
  | .derived id baseType =>
      getMemberIn r (some (getMember obj methodName baseType)) (.derived id baseType) obj methodName

/-- The first try of `getMethod`: the member of that name, unless there is none or an
exception comes up. An error in Lua is no exception. -/
def tryMember (objType : ClrClass) (obj : Obj) (methodName : String) :
    AccessM N Obj W (Option (Pushed N Obj × IsFunc)) := do
  match ← consult (r.isMemberPresent objType methodName) with
  | false => pure none
  | true =>
      match ← attempt (r.getMember obj methodName objType) with
      | .ok v => pure (some v)
      | .error (.error e) => throw (.error e)
      | .error (.exception _) => pure none

/-- `pushError`. -/
def pushError (message : String) : Prog W AccessFault (Pushed N Obj × IsFunc) :=
  pure (.value none, .message message)

/-- The loop of `getMethod` over the methods named `get_Item`. The slot of the index and
`index` change with each of them, and the last value counts. -/
def tryGetItems (obj : Obj) : List Accessor → LuaValue N → Option (ClrValue N Obj) →
    Option (Option (ClrValue N Obj)) → Prog W AccessFault (Pushed N Obj × IsFunc)
  | [], _, index, none => do
      let text ← gets fun w => r.text w index
      pushError ("cannot find " ++ text)
  | [], _, _, some result => pure (.value result, .flag false)
  | getter :: getters, slot, index, result =>
      match getter.parameters with
      | [parameterType] => do
          let (index, slot) ← uncaught (r.convert slot parameterType)
          let text ← gets fun w => r.text w index
          match ← attempt (r.invokeGetter getter obj index) with
          | .ok result => tryGetItems obj getters slot index (some result)
          | .error (.thrown e) =>
              if r.isKeyNotFound e then pushError ("key '" ++ text ++ "' not found ")
              else pushError ("exception indexing '" ++ text ++ "' " ++ r.invocationMessage)
          | .error e => throw (.exception e)
      | _ => tryGetItems obj getters slot index result

/-- The element of an array. -/
def readElement (obj : Obj) (intIndex : ℤ) : Prog W AccessFault (Pushed N Obj × IsFunc) := do
  let length ← gets (r.arrayLength obj)
  if length ≤ intIndex then
    pushError ("array index out of bounds: " ++ toString intIndex ++ " " ++ toString length)
  else
    let val ← uncaught (r.getElement obj intIndex)
    pure (.value val, .flag false)

/-- The rest of `getMethod`: arrays and indexers. -/
def getByIndex (objType : ClrClass) (obj : Obj) (slot : LuaValue N) :
    Prog W AccessFault (Pushed N Obj × IsFunc) := do
  let index ← gets fun w => (r.env w).getObject slot
  match r.elementType objType, index with
  | some _, some (.double n) => do
      let intIndex ← gets fun w => (r.env w).toIntegral .int n
      r.readElement obj intIndex
  | _, _ => r.tryGetItems obj (r.getItems objType) slot index none

/-- `index as string`: of all Lua values only a string is one for `getObject`. -/
def tryName (objType : ClrClass) (obj : Obj) :
    LuaValue N → AccessM N Obj W (Option (Pushed N Obj × IsFunc))
  | .string methodName => r.tryMember objType obj methodName
  | _ => pure none

/-- `MetaFunctions.getMethod`. -/
def getMethod (obj : Obj) (slot : LuaValue N) : AccessM N Obj W (Pushed N Obj × IsFunc) := do
  match ← r.tryName (r.typeOf obj) obj slot with
  | some v => pure v
  | none => beside (r.getByIndex (r.typeOf obj) obj slot)

/-- The Lua part of `__index` behind the call of `getMethod`. -/
def indexResult [DecidableEq N] (objType : ClrClass) (name : LuaValue N) (value : Pushed N Obj)
    (isFunc : IsFunc) : AccessM N Obj W (Pushed N Obj) :=
  match value.isNil, isFunc with
  | true, .message s => throwMessage s
  | _, _ =>
      if isFunc.truthy then do
        record (setMetaCache objType name value)
        pure value
      else pure value

/-- `luaIndexFunction`. -/
def index [DecidableEq N] (obj : Obj) (name : LuaValue N) : AccessM N Obj W (Pushed N Obj) := do
  let cached ← consult fun k => k.metaCache (r.typeOf obj) name
  if cached.truthy then pure cached
  else do
    let (value, isFunc) ← r.getMethod obj name
    indexResult (r.typeOf obj) name value isFunc

/-! ### Writing -/

/-- The end of `trySetMember`: `none` is its result `true`, and a message goes with
`false`. -/
def assign (member : MemberInfo) (obj : Obj) (fieldName : String) (value : LuaValue N) :
    Prog W AccessFault (Option String) :=
  match member.memberType with
  | .Field => do
      let (val, _) ← uncaught (r.convert value member.type)
      match ← attempt (r.setField member obj val) with
      | .ok () => pure none
      | .error e => ThrowError e
  | .Property => do
      let (val, _) ← uncaught (r.convert value member.type)
      match ← attempt (r.setProperty member obj val) with
      | .ok () => pure none
      | .error e => ThrowError e
  | _ => pure (some ("'" ++ fieldName ++ "' is not a .net field or property"))

/-- A name begins with a letter or an underscore. -/
def isPropertyName (fieldName : String) : Bool :=
  match fieldName.toList with
  | [] => false
  | c :: _ => r.isLetter c || c == '_'

/-- The part of `trySetMember` behind the check of the name. The cached object is cast to
`MemberInfo`. -/
def setNamed (targetType : ClrClass) (target : Obj) (fieldName : String) (value : LuaValue N) :
    AccessM N Obj W (Option String) := do
  match ← consult (checkMemberCache targetType fieldName) with
  | some (.function _) => throw (.exception .invalidCast)
  | some (.member member) => beside (r.assign member target fieldName value)
  | none =>
      match r.getMembers targetType fieldName false with
      | member :: _ => do
          record (setMemberCache targetType fieldName (.member member))
          beside (r.assign member target fieldName value)
      | [] => pure (some ("field or property '" ++ fieldName ++ "' does not exist"))

/-- `MetaFunctions.trySetMember`. -/
def trySetMember (targetType : ClrClass) (target : Obj) (slot value : LuaValue N) :
    AccessM N Obj W (Option String) :=
  match slot with
  | .string fieldName =>
      if r.isPropertyName fieldName then r.setNamed targetType target fieldName value
      else pure (some "invalid property name")
  | _ => pure (some "property names must be strings")

/-- `parameters[i].ParameterType`. -/
def parameterType (setter : Accessor) (i : ℕ) : Prog W Exn ClrType :=
  match setter.parameters[i]? with
  | some t => pure t
  | none => throw .indexOutOfRange

/-- The call of `set_Item`, or `false` if there is none. -/
def trySetItem (targetType : ClrClass) (target : Obj) (slot value : LuaValue N) :
    Prog W Exn Bool :=
  match r.setItem targetType with
  | .error e => throw e
  | .ok none => pure false
  | .ok (some setter) => do
      let valueType ← parameterType setter 1
      let (val, _) ← r.convert value valueType
      let indexType ← parameterType setter 0
      let (index, _) ← r.convert slot indexType
      r.invokeSetter setter target index val
      pure true

/-- The part of `setFieldOrProperty` inside its `try`. -/
def setByIndex (targetType : ClrClass) (target : Obj) (slot value : LuaValue N) :
    Prog W Exn Bool := do
  let isNumber ← gets fun w => (r.env w).isNumber slot
  match r.elementType targetType, isNumber with
  | some elementType, true => do
      let index ← gets fun w => (r.env w).toIntegral .int ((r.env w).toNumber slot)
      let (val, _) ← r.convert value elementType
      r.setElement target index val
      pure true
  | _, _ => r.trySetItem targetType target slot value

/-- The part of `setFieldOrProperty` behind `trySetMember`. -/
def setWithout (targetType : ClrClass) (target : Obj) (slot value : LuaValue N)
    (detailMessage : String) : Prog W AccessFault Unit := do
  match ← attempt (r.setByIndex targetType target slot value) with
  | .ok true => pure ()
  | .ok false => throwMessage detailMessage
  | .error e => ThrowError e

/-- `MetaFunctions.setFieldOrProperty`. -/
def setFieldOrProperty (target : Obj) (slot value : LuaValue N) : AccessM N Obj W Unit := do
  match ← r.trySetMember (r.typeOf target) target slot value with
  | none => pure ()
  | some detailMessage => beside (r.setWithout (r.typeOf target) target slot value detailMessage)

end Reflection

/-- An access of Lua to a member of an object. -/
inductive Access (N Obj : Type)
  | read (obj : Obj) (name : LuaValue N)
  | write (obj : Obj) (name value : LuaValue N)

/-- The value that is read, or nothing. -/
def Access.perform [DecidableEq N] (r : Reflection N Obj W) :
    Access N Obj → AccessM N Obj W (Option (Pushed N Obj))
  | .read obj name => some <$> r.index obj name
  | .write obj name value => (fun _ => none) <$> r.setFieldOrProperty obj name value

end UnityLua
