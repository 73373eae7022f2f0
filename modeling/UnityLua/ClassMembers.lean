import UnityLua.Operands

/-!
# Members of type references, and the callbacks

The `__index` and `__newindex` metamethods of type references, which work on static members, and
the four metamethods as Lua calls them, with whatever it passes as the receiver.
-/

namespace UnityLua

open Library Prog

variable {N Obj W : Type}

/-- An `IReflect`: a `ProxyType`, which is what a type reference in Lua is, or a `Type` itself. -/
inductive TypeReference
  | proxy (id : ℕ)
  | type (c : ClrClass)
  deriving DecidableEq, Repr

/-- What the runtime knows of static members, and what it does with them. -/
structure ClassReflection (N Obj W : Type) where
  env : W → LuaEnv N Obj
  /-- `GetMember` with `FlattenHierarchy`, `Static` and `IgnoreCase`. It throws for a `ProxyType`
  of a nested type that was not found. -/
  members : TypeReference → String → Except Exn (List MemberInfo)
  /-- `char.IsLetter`. -/
  isLetter : Char → Bool
  getField : MemberInfo → Prog W Exn (Option (ClrValue N Obj))
  /-- For a property with a get accessor; without one `GetValue` throws an
  `ArgumentException`. -/
  getProperty : MemberInfo → Prog W GetterException (Option (ClrValue N Obj))
  setField : MemberInfo → Option (ClrValue N Obj) → Prog W Exn Unit
  setProperty : MemberInfo → Option (ClrValue N Obj) → Prog W Exn Unit
  /-- `ObjectTranslator.FindType`. -/
  findType : W → String → Option ℕ
  /-- `Array.CreateInstance` for the `UnderlyingSystemType`. -/
  createInstance : TypeReference → ℤ → Prog W Exn (Option (ClrValue N Obj))

/-- An entry of `memberCache` for a type reference; a function is that of a new
`LuaMethodWrapper` for the methods of the name. -/
inductive CachedStatic
  | function
  | member (m : MemberInfo)
  deriving DecidableEq, Repr

/-- The entries of `memberCache` for type references. -/
abbrev StaticCache := TypeReference → String → Option CachedStatic

def setStaticCache (klass : TypeReference) (memberName : String) (member : CachedStatic)
    (k : StaticCache) : StaticCache :=
  Function.update k klass (Function.update (k klass) memberName (some member))

/-- What is pushed for a static member, or for a new array. -/
inductive PushedStatic (N Obj : Type)
  | value (v : Option (ClrValue N Obj))
  | function (klass : TypeReference) (methodName : String)
  | eventHandler (event : MemberInfo)
  | type (t : Option ℕ)

/-- The results of `getClassMethod`: the second one, if any, says whether the first one is a
function. -/
abbrev StaticAnswer (N Obj : Type) := PushedStatic N Obj × Option Bool

abbrev StaticM (W : Type) := Prog (StaticCache × W) AccessFault

namespace ClassReflection

variable (r : ClassReflection N Obj W)

/-! ### Reading -/

/-- The value of a field; an exception is read as `nil`. -/
def readField (m : MemberInfo) : Prog W AccessFault (StaticAnswer N Obj) := do
  match ← attempt (r.getField m) with
  | .ok v => pure (.value v, some false)
  | .error _ => pure (.value none, some false)

/-- The value of a property with a get accessor. -/
def readProperty (m : MemberInfo) : Prog W AccessFault (StaticAnswer N Obj) := do
  match ← attempt (r.getProperty m) with
  | .ok v => pure (.value v, some false)
  | .error (.thrown e) => ThrowError (.thrown e)
  | .error .parameterCount => throw (.exception .target)

def readNestedType (m : MemberInfo) : Prog W AccessFault (StaticAnswer N Obj) := do
  let longname := m.declaringType ++ "+" ++ m.name
  let nestedType ← gets fun w => r.findType w longname
  pure (.type nestedType, some false)

/-- `if (cachedMember == null) setMemberCache(..)`. -/
def cacheUnless (cached : Bool) (klass : TypeReference) (methodName : String)
    (member : CachedStatic) : StaticM W Unit :=
  if cached then pure () else record (setStaticCache klass methodName member)

/-- The part of `getMember` that uses a member. The search with `Static` finds no more than the
first one, so that no member is implicitly static. -/
def useMember (baseMember : Option (StaticM W (StaticAnswer N Obj))) (klass : TypeReference)
    (methodName : String) (member : MemberInfo) (cached : Bool) :
    StaticM W (StaticAnswer N Obj) :=
  match member.memberType with
  | .Field => do
      cacheUnless cached klass methodName (.member member)
      beside (r.readField member)
  | .Property => do
      cacheUnless cached klass methodName (.member member)
      if member.hasGetter then beside (r.readProperty member)
      else baseMember.getD (pure (.value none, some false))
  | .Event => do
      cacheUnless cached klass methodName (.member member)
      pure (.eventHandler member, some false)
  | .NestedType => do
      cacheUnless cached klass methodName (.member member)
      beside (r.readNestedType member)
  | .Method => do
      cacheUnless cached klass methodName .function
      pure (.function klass methodName, some true)

/-- The body of `getMember`. -/
def getMemberIn (baseMember : Option (StaticM W (StaticAnswer N Obj))) (klass : TypeReference)
    (methodName : String) : StaticM W (StaticAnswer N Obj) := do
  match ← consult fun k => k klass methodName with
  | some .function => pure (.function klass methodName, some true)
  | some (.member member) => useMember r baseMember klass methodName member true
  | none =>
      match r.members klass methodName with
      | .error e => throw (.exception e)
      | .ok (member :: _) => useMember r baseMember klass methodName member false
      | .ok [] => throwMessage ("unknown member name " ++ methodName)

/-- `getMember` for a `Type`, which goes on to the base type. -/
def getTypeMember (methodName : String) : ClrClass → StaticM W (StaticAnswer N Obj)
  | .object => getMemberIn r none (.type .object) methodName
  | .derived id baseType =>
      getMemberIn r (some (getTypeMember methodName baseType)) (.type (.derived id baseType))
        methodName

/-- `MetaFunctions.getMember` for type references. -/
def getMember (methodName : String) : TypeReference → StaticM W (StaticAnswer N Obj)
  | .proxy id => getMemberIn r none (.proxy id) methodName
  | .type c => r.getTypeMember methodName c

/-- `MetaFunctions.getClassMethod`. -/
def getClassMethod (klass : TypeReference) (slot : LuaValue N) : StaticM W (StaticAnswer N Obj) := do
  let isNumber ← beside (gets fun w => (r.env w).isNumber slot)
  if isNumber then
    let size ← beside (gets fun w => (r.env w).toIntegral .int ((r.env w).toNumber slot))
    let array ← beside (uncaught (r.createInstance klass size))
    pure (.value array, none)
  else
    match ← beside (gets fun w => ((r.env w).toLString slot).1) with
    | some methodName => r.getMember methodName klass
    | none => pure (.value none, none)

/-! ### Writing -/

/-- `getAsType` on a slot. -/
def convert (slot : LuaValue N) (type : ClrType) : Prog W Exn (Option (ClrValue N Obj)) := fun w =>
  ((getAsType (r.env w) slot type).1, w)

/-- The end of `trySetMember`: `none` is its result `true`, and a message goes with
`false`. -/
def assign (member : MemberInfo) (fieldName : String) (value : LuaValue N) :
    Prog W AccessFault (Option String) :=
  match member.memberType with
  | .Field => do
      let val ← uncaught (r.convert value member.type)
      match ← attempt (r.setField member val) with
      | .ok () => pure none
      | .error e => ThrowError e
  | .Property => do
      let val ← uncaught (r.convert value member.type)
      match ← attempt (r.setProperty member val) with
      | .ok () => pure none
      | .error e => ThrowError e
  | _ => pure (some ("'" ++ fieldName ++ "' is not a .net field or property"))

/-- A name begins with a letter or an underscore. -/
def isPropertyName (fieldName : String) : Bool :=
  match fieldName.toList with
  | [] => false
  | c :: _ => r.isLetter c || c == '_'

/-- The part of `trySetMember` behind the check of the name. -/
def setNamed (klass : TypeReference) (fieldName : String) (value : LuaValue N) :
    StaticM W (Option String) := do
  match ← consult fun k => k klass fieldName with
  | some .function => throw (.exception .invalidCast)
  | some (.member member) => beside (r.assign member fieldName value)
  | none =>
      match r.members klass fieldName with
      | .error e => throw (.exception e)
      | .ok (member :: _) => do
          record (setStaticCache klass fieldName (.member member))
          beside (r.assign member fieldName value)
      | .ok [] => pure (some ("field or property '" ++ fieldName ++ "' does not exist"))

/-- `MetaFunctions.trySetMember` for type references. -/
def trySetMember (klass : TypeReference) (slot value : LuaValue N) : StaticM W (Option String) :=
  match slot with
  | .string fieldName =>
      if r.isPropertyName fieldName then r.setNamed klass fieldName value
      else pure (some "invalid property name")
  | _ => pure (some "property names must be strings")

/-- `MetaFunctions.setMember`. -/
def setMember (klass : TypeReference) (slot value : LuaValue N) : StaticM W Unit := do
  match ← r.trySetMember klass slot value with
  | none => pure ()
  | some detail => throwMessage detail

end ClassReflection

/-! ### The callbacks -/

/-- The registry of objects, as `getRawNetObject` sees it: `content` is what a userdata points
to. -/
structure ObjectRegistry (Obj W : Type) where
  content : ℕ → ℤ
  lightContent : ℕ → ℤ
  objects : W → ℤ → Option Obj
  /-- `obj as IReflect`. -/
  asReflect : Obj → Option TypeReference

/-- `luanet_rawnetobj`, which asks for no metatable. -/
def ObjectRegistry.rawNetObj (reg : ObjectRegistry Obj W) : LuaValue N → ℤ
  | .userdata id => reg.content id
  | .lightUserdata p => reg.lightContent p
  | _ => -1

/-- `ObjectTranslator.getRawNetObject`. The indexer of the dictionary throws for an id that it does
not have. -/
def ObjectRegistry.getRawNetObject (reg : ObjectRegistry Obj W) (slot : LuaValue N) :
    Prog W Exn (Option Obj) := fun w =>
  if reg.rawNetObj slot = -1 then (.ok none, w)
  else
    match reg.objects w (reg.rawNetObj slot) with
    | some o => (.ok (some o), w)
    | none => (.error .keyNotFound, w)

/-- All that the callbacks work with. -/
structure Metamethods (N Obj W : Type) where
  objects : Reflection N Obj W
  classes : ClassReflection N Obj W
  registry : ObjectRegistry Obj W

/-- The state between two callbacks. -/
structure MetaState (N Obj W : Type) where
  caches : Caches N Obj
  staticCache : StaticCache
  world : W

namespace Metamethods

variable (mm : Metamethods N Obj W)

/-- `getMethod` with its receiver. -/
def getMethod (receiver slot : LuaValue N) : AccessM N Obj W (Pushed N Obj × IsFunc) := do
  match ← beside (uncaught (mm.registry.getRawNetObject receiver)) with
  | none => throwMessage "trying to index an invalid object reference"
  | some obj => mm.objects.getMethod obj slot

/-- `setFieldOrProperty` with its receiver. -/
def setFieldOrProperty (receiver slot value : LuaValue N) : AccessM N Obj W Unit := do
  match ← beside (uncaught (mm.registry.getRawNetObject receiver)) with
  | none => throwMessage "trying to index and invalid object reference"
  | some obj => mm.objects.setFieldOrProperty obj slot value

/-- The type reference that a receiver is. -/
def getKlass (receiver : LuaValue N) : Prog W AccessFault TypeReference := do
  let obj ← uncaught (mm.registry.getRawNetObject receiver)
  match obj.bind mm.registry.asReflect with
  | none => throwMessage "trying to index an invalid type reference"
  | some klass => pure klass

/-- `getClassMethod` with its receiver. -/
def getClassMethod (receiver slot : LuaValue N) : StaticM W (StaticAnswer N Obj) := do
  let klass ← beside (mm.getKlass receiver)
  mm.classes.getClassMethod klass slot

/-- `setClassFieldOrProperty` with its receiver. -/
def setClassFieldOrProperty (receiver slot value : LuaValue N) : StaticM W Unit := do
  let klass ← beside (mm.getKlass receiver)
  mm.classes.setMember klass slot value

end Metamethods

/-- A call of one of the metamethods. -/
inductive MetaCall (N : Type)
  | getMethod (receiver slot : LuaValue N)
  | setFieldOrProperty (receiver slot value : LuaValue N)
  | getClassMethod (receiver slot : LuaValue N)
  | setClassFieldOrProperty (receiver slot value : LuaValue N)

/-- How a program fails, if it does. -/
def faultOf {σ α : Type} (out : Except AccessFault α × σ) : Option AccessFault :=
  match out.1 with
  | .ok _ => none
  | .error e => some e

/-- How a metamethod fails, if it does. -/
def MetaCall.fault (mm : Metamethods N Obj W) (s : MetaState N Obj W) :
    MetaCall N → Option AccessFault
  | .getMethod receiver slot => faultOf (mm.getMethod receiver slot (s.caches, s.world))
  | .setFieldOrProperty receiver slot value =>
      faultOf (mm.setFieldOrProperty receiver slot value (s.caches, s.world))
  | .getClassMethod receiver slot =>
      faultOf (mm.getClassMethod receiver slot (s.staticCache, s.world))
  | .setClassFieldOrProperty receiver slot value =>
      faultOf (mm.setClassFieldOrProperty receiver slot value (s.staticCache, s.world))

end UnityLua
