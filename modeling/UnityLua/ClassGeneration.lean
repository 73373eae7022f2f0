import UnityLua.GenerateMethod
import UnityLua.Library.Program

/-!
# Tables as objects

`CodeGeneration.GetClassInstance`: an object of a class or interface whose methods are those of
a Lua table. The type of the object is generated once for a class or interface, with overrides
for the methods that the table of that time has something for.
-/

namespace UnityLua

open Library Prog

variable {N Obj : Type}

/-- A class or an interface with its instance methods, in the order of `GetMethods`. The
methods of an interface are abstract. -/
structure Klass where
  id : ℕ
  isInterface : Bool
  methods : List MethodInfo
  abstract_of_interface : isInterface = true → ∀ m ∈ methods, m.isAbstract = true
  deriving DecidableEq

/-- The methods that an override may be generated for. -/
def Klass.overridable (klass : Klass) (method : MethodInfo) : Bool :=
  klass.isInterface || (!method.isPrivate && !method.isFinal && method.isVirtual)

/-- What is in the Lua tables. -/
structure Tables (N Obj : Type) where
  /-- `luaTable[name] != null`, with the metamethods of the table. -/
  hasField : LuaValue N → String → Bool
  /-- `LuaTable.rawget`. -/
  rawget : LuaValue N → String → Option (ClrValue N Obj)

/-- The function that a table itself has for a name. -/
def Tables.boundFunction (tables : Tables N Obj) (luaTable : LuaValue N) (name : String) :
    Option (LuaValue N) :=
  match tables.rawget luaTable name with
  | some (.luaFunction f) => some f
  | _ => none

/-- A method of a generated type: what it overrides, its code, and the code of the method
beside it that calls the base method. -/
structure MethodBuilder where
  method : MethodInfo
  isAbstract : Bool
  code : List (Op Instr)
  baseCode : Option (List (Op Instr))

/-- `GenerateMethod`. -/
def GenerateMethod (method : MethodInfo) (isAbstract : Bool) (methodIndex : ℕ)
    (generateBase : Bool) : MethodBuilder where
  method := method
  isAbstract := isAbstract
  code := method.override methodIndex
  baseCode := if generateBase then some method.baseCall else none

/-- A generated type with the types that the values of its Lua functions are converted to. -/
structure LuaClassType where
  typeName : String
  klass : Klass
  methods : List MethodBuilder
  returnTypes : List (Option (List ClrType))

/-- A call of `GetClassInstance`, with what is in the tables, and with what the constructor
of the class does. -/
structure InstanceCall (N Obj : Type) where
  klass : Klass
  luaTable : LuaValue N
  tables : Tables N Obj
  constructor : Except Exn Unit

/-- The loop of `GenerateClass`. `hasField` says for which names the table has something, and
`i` is the number of methods generated so far. The attributes of an override for an interface
are spelled out; those of an override for a class are those of the method. -/
def generateMethods (klass : Klass) (hasField : String → Bool) :
    List MethodInfo → ℕ → List (Option (List ClrType)) →
      List MethodBuilder × List (Option (List ClrType))
  | [], _, returnTypes => ([], returnTypes)
  | method :: classMethods, i, returnTypes =>
      if klass.isInterface then
        let rest := generateMethods klass hasField classMethods (i + 1)
          (returnTypes.set i (some method.returnTypes))
        (GenerateMethod method false i false :: rest.1, rest.2)
      else if klass.overridable method && hasField method.name then
        let rest := generateMethods klass hasField classMethods (i + 1)
          (returnTypes.set i (some method.returnTypes))
        (GenerateMethod method method.isAbstract i true :: rest.1, rest.2)
      else generateMethods klass hasField classMethods i returnTypes

/-- The cache of generated types, and the number of the next one. -/
structure CodeGeneration where
  classCollection : Klass → Option LuaClassType
  luaClassNumber : ℕ

/-- Before the first call. -/
def CodeGeneration.new : CodeGeneration where
  classCollection _ := none
  luaClassNumber := 1

/-- The runtime has its own reasons not to create a type. -/
abbrev Accepts := Klass → List MethodBuilder → Bool

/-- `TypeBuilder.CreateType`: the type is concrete, so it may neither have nor inherit abstract
methods. -/
def CreateType (accepts : Accepts) (klass : Klass) (methods : List MethodBuilder) : Bool :=
  methods.all (fun b => !b.isAbstract) &&
    klass.methods.all (fun m => !m.isAbstract || methods.any fun b => b.method == m) &&
    accepts klass methods

/-- The call of `CreateType` at the end of `GenerateClass`. -/
def createLuaClass (accepts : Accepts) (luaClass : LuaClassType) :
    Prog CodeGeneration Exn LuaClassType :=
  if CreateType accepts luaClass.klass luaClass.methods then pure luaClass else throw .typeLoad

/-- `GenerateClass`. -/
def GenerateClass (accepts : Accepts) (klass : Klass) (hasField : String → Bool) :
    Prog CodeGeneration Exn LuaClassType := do
  let number ← gets CodeGeneration.luaClassNumber
  modify fun s => { s with luaClassNumber := number + 1 }
  let generated := generateMethods klass hasField klass.methods 0
    (List.replicate klass.methods.length none)
  createLuaClass accepts
    { typeName := "LuaGeneratedClass" ++ toString number
      klass := klass
      methods := generated.1
      returnTypes := generated.2 }

/-- An object of a generated type, with its two fields. -/
structure GeneratedObject (N : Type) where
  type : LuaClassType
  luaTable : LuaValue N
  returnTypes : List (Option (List ClrType))

/-- `Activator.CreateInstance`. -/
def createInstance (c : InstanceCall N Obj) (luaClass : LuaClassType) :
    Prog CodeGeneration Exn (GeneratedObject N) :=
  match c.constructor with
  | .ok () => pure ⟨luaClass, c.luaTable, luaClass.returnTypes⟩
  | .error e => throw e

/-- The generated type of a class or interface, generated on its first use. -/
def luaClassType (accepts : Accepts) (c : InstanceCall N Obj) :
    Prog CodeGeneration Exn LuaClassType := do
  match ← gets fun s => s.classCollection c.klass with
  | some luaClass => pure luaClass
  | none => do
      let luaClass ← GenerateClass accepts c.klass (c.tables.hasField c.luaTable)
      modify fun s => { s with
        classCollection := Function.update s.classCollection c.klass (some luaClass) }
      pure luaClass

/-- `GetClassInstance`. -/
def GetClassInstance (accepts : Accepts) (c : InstanceCall N Obj) :
    Prog CodeGeneration Exn (GeneratedObject N) := do
  let luaClass ← luaClassType accepts c
  createInstance c luaClass

/-! ### Calls of the methods -/

/-- What the calls of a method meet: the tables, and what functions and base methods do. -/
structure Outside (N Obj : Type) where
  rawget : LuaValue N → String → Option (ClrValue N Obj)
  call : LuaValue N → List (Item N Obj) → Option (List ClrType) →
    Option (List (Option (ClrValue N Obj)))
  base : MethodInfo → List (Item N Obj) → Option (Item N Obj)
  isInstance : ClrType → Item N Obj → Bool

/-- The receiver and the arguments as a method of the class gets them. -/
def receiverAndArgs (method : MethodInfo) (args : List (Option (ClrValue N Obj))) :
    List (Item N Obj) :=
  .this :: (List.range method.parameters.length).map (passed method.parameters args)

namespace GeneratedObject

/-- The context in which the code of a method runs. -/
def context (o : GeneratedObject N) (outside : Outside N Obj) (method : MethodInfo) :
    CallContext N Obj where
  luaTable := o.luaTable
  returnTypes := o.returnTypes
  parameters := method.parameters
  rawget := outside.rawget
  call := outside.call
  base := outside.base
  isInstance := outside.isInstance

/-- The calls that a call of a method makes: those of the override, if there is one, or that of
the method of the class itself. Code that does not compile is an `InvalidProgramException`. -/
def invoke (o : GeneratedObject N) (outside : Outside N Obj) (method : MethodInfo)
    (args : List (Option (ClrValue N Obj))) : Option (List (Event N Obj)) :=
  match o.type.methods.find? fun b => b.method == method with
  | some b =>
      if b.method.compiles b.code then
        some ((o.context outside method).sem.exec b.code none (.start args)).frame.trace
      else none
  | none => some [.base method (receiverAndArgs method args)]

end GeneratedObject

end UnityLua
