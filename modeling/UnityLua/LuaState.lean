import Mathlib.Algebra.GroupWithZero.Nat
import UnityLua.LuaLib

/-!
# The functions of `LuaState`

Loading and running chunks, globals and tables by path, and calls of Lua functions from C#,
with the functions of `ObjectTranslator` that move values over. Every function saves the top
of the stack, works above it and sets it back.

What concerns neither the stack nor the answer is left out: the list of globals kept for
completion, and which slot of the Lua registry a wrapper got.
-/

namespace UnityLua

open Library LuaLib

variable {N Obj W : Type}

/-! ### `ObjectTranslator` -/

namespace LuaState

/-- Reads a slot. -/
def value (vm : Vm N Obj W) (i : ℤ) : LuaM N Obj W (LuaValue N) :=
  Prog.gets fun m => m.value vm (.rel i)

/-- `getTable`, `getFunction` and `getUserData`: a wrapper of the value, which is put into
the registry. -/
def getReference (vm : Vm N Obj W) (wrap : LuaValue N → ClrValue N Obj) (i : ℤ) :
    LuaM N Obj W (ClrValue N Obj) := do
  let v ← value vm i
  LuaPushValue vm i
  LuaLRef vm
  pure (wrap v)

def getTable (vm : Vm N Obj W) (i : ℤ) : LuaM N Obj W (ClrValue N Obj) :=
  getReference vm .luaTable i

def getFunction (vm : Vm N Obj W) (i : ℤ) : LuaM N Obj W (ClrValue N Obj) :=
  getReference vm .luaFunction i

def getUserData (vm : Vm N Obj W) (i : ℤ) : LuaM N Obj W (ClrValue N Obj) :=
  getReference vm .luaUserData i

/-- `getObject`. -/
def getObject (vm : Vm N Obj W) (i : ℤ) : LuaM N Obj W (Option (ClrValue N Obj)) := do
  match ← value vm i with
  | .number n => pure (some (.double n))
  | .string s => pure (some (.string s))
  | .boolean b => pure (some (.bool b))
  | .table _ => some <$> getTable vm i
  | .function _ => some <$> getFunction vm i
  | .userdata id =>
      match ← Prog.gets fun m => (vm.env m.world).netObject id with
      | some o => pure (some (.object o))
      | none => some <$> getUserData vm i
  | _ => pure none

/-- The objects in the slots from `i` on. -/
def getObjects (vm : Vm N Obj W) : ℕ → ℕ → LuaM N Obj W (List (Option (ClrValue N Obj)))
  | _, 0 => pure []
  | i, n + 1 => do
      let v ← getObject vm i
      let vs ← getObjects vm (i + 1) n
      pure (v :: vs)

/-- `popValues`: what is above the old top, or `null` if nothing is. -/
def popValues (vm : Vm N Obj W) (oldTop : ℕ) :
    LuaM N Obj W (Option (List (Option (ClrValue N Obj)))) := do
  let newTop ← LuaGetTop
  if oldTop = newTop then pure none
  else
    let returnValues ← getObjects vm (oldTop + 1) (newTop - oldTop)
    LuaSetTop oldTop
    pure (some returnValues)

/-- What a converted value keeps of the Lua value it came from. -/
def wrapped : Option (ClrValue N Obj) → Option (LuaValue N)
  | some (.luaTable v) | some (.luaFunction v) | some (.luaUserData v) => some v
  | some (.delegate _ v) | some (.generated _ v) => some v
  | _ => none

/-- `getAsType` for a slot, which the conversion may change. -/
def getAsType (vm : Vm N Obj W) (i : ℕ) (paramType : ClrType) :
    LuaM N Obj W (Option (ClrValue N Obj)) := fun m =>
  let (r, slot) := UnityLua.getAsType (vm.env m.world) (m.value vm (.rel i)) paramType
  let m := { m with stack := m.stack.set (m.offset i) slot }
  match r with
  | .error e => (.error (.clr e), m)
  | .ok v => (.ok v, { m with world := ((wrapped v).map (vm.ref m.world)).getD m.world })

/-- The values of the slots from `i` on, converted to the types from number `iTypes` on. -/
def getAsTypes (vm : Vm N Obj W) (popTypes : List ClrType) :
    ℕ → ℕ → ℕ → LuaM N Obj W (List (Option (ClrValue N Obj)))
  | _, _, 0 => pure []
  | i, iTypes, n + 1 => do
      match popTypes[iTypes]? with
      | none => Prog.throw (.clr .indexOutOfRange)
      | some type =>
          let v ← getAsType vm i type
          let vs ← getAsTypes vm popTypes (i + 1) (iTypes + 1) n
          pure (v :: vs)

/-- `popValues` with types. A type `void` in front is skipped. -/
def popValuesAs (vm : Vm N Obj W) (oldTop : ℕ) (popTypes : List ClrType) :
    LuaM N Obj W (Option (List (Option (ClrValue N Obj)))) := do
  let newTop ← LuaGetTop
  if oldTop = newTop then pure none
  else
    match popTypes.head? with
    | none => Prog.throw (.clr .indexOutOfRange)
    | some first =>
        let iTypes := if first = .void then 1 else 0
        let returnValues ← getAsTypes vm popTypes (oldTop + 1) iTypes (newTop - oldTop)
        LuaSetTop oldTop
        pure (some returnValues)

/-- Adds a field with a function to the table on the top. -/
def setMetaFunction (vm : Vm N Obj W) (name : String) (f : CFunction) : LuaM N Obj W Unit := do
  LuaPushString name
  LuaPushStdCallCFunction vm f
  LuaRawSet vm (-3)

/-- The first part of `pushNewObject`: gets or creates the metatable for the object's type. -/
def getTypeMetatable (vm : Vm N Obj W) (o : ClrValue N Obj) : LuaM N Obj W Unit := do
  LuaLGetMetaTable vm (vm.assemblyQualifiedName o)
  if (← LuaType vm (-1)) = .LUA_TNIL then
    LuaSetTop (-2)
    LuaLNewMetaTable vm (vm.assemblyQualifiedName o)
    LuaPushString "cache"
    LuaNewTable vm
    LuaRawSet vm (-3)
    push (.lightUserdata vm.tag)
    LuaPushNumber (vm.ofNat 1)
    LuaRawSet vm (-3)
    LuaPushString "__index"
    LuaPushString "luaNet_indexfunction"
    Lua_RawGet vm .LUA_REGISTRYINDEX
    LuaRawSet vm (-3)
    setMetaFunction vm "__gc" .gcFunction
    setMetaFunction vm "__tostring" .toStringFunction
    setMetaFunction vm "__newindex" .newindexFunction

/-- The metatable for a new userdata. -/
def getMetatable (vm : Vm N Obj W) (o : ClrValue N Obj) (metatable : String) :
    LuaM N Obj W Unit :=
  if metatable = "luaNet_metatable" then getTypeMetatable vm o
  else LuaLGetMetaTable vm metatable

/-- `pushNewObject`. -/
def pushNewObject (vm : Vm N Obj W) (o : ClrValue N Obj) (index : ℕ) (metatable : String) :
    LuaM N Obj W Unit := do
  getMetatable vm o metatable
  LuaLGetMetaTable vm "luaNet_objects"
  LuaNetNewUdata vm index
  LuaPushValue vm (-3)
  LuaRemove (-4)
  LuaSetMetaTable vm (-2)
  LuaPushValue vm (-1)
  LuaRawSetI vm (-3) index
  LuaRemove (-2)

/-- The end of `pushObject`: a new entry in the registry of objects. -/
def addAndPush (vm : Vm N Obj W) (o : ClrValue N Obj) (metatable : String) :
    LuaM N Obj W Unit := do
  let index ← Prog.gets fun m => (vm.addObject m.world o).1
  Prog.modify fun m => { m with world := (vm.addObject m.world o).2 }
  pushNewObject vm o index metatable

/-- `pushObject`: the userdata that stands for the object, or a new one. -/
def pushObject (vm : Vm N Obj W) (o : ClrValue N Obj) (metatable : String) :
    LuaM N Obj W Unit := do
  match ← Prog.gets fun m => vm.tryGetValue m.world o with
  | none => addAndPush vm o metatable
  | some index =>
      LuaLGetMetaTable vm "luaNet_objects"
      LuaRawGetI vm (-1) index
      if (← LuaType vm (-1)) ≠ .LUA_TNIL then
        LuaRemove (-2)
      else
        LuaRemove (-1)
        LuaRemove (-1)
        Prog.modify fun m => { m with world := vm.collectObject m.world o index }
        addAndPush vm o metatable

/-- `push`: a CLR value as a Lua value. -/
def push (vm : Vm N Obj W) : Option (ClrValue N Obj) → LuaM N Obj W Unit
  | none => LuaPushNil
  | some (.integral _ n) => LuaPushNumber (vm.ofInt n)
  | some (.double n) | some (.float n) | some (.decimal n) => LuaPushNumber n
  | some (.string s) => LuaPushString s
  | some (.bool b) => LuaPushBoolean b
  | some (.generated _ v) | some (.luaTable v) | some (.luaFunction v) => LuaLib.push v
  | some (.object o) =>
      match vm.kind o with
      | .destroyed => LuaPushNil
      | .generated none => Prog.throw (.clr .nullReference)
      | .generated (some v) => LuaLib.push v
      | .csFunction => pushObject vm (.object o) "luaNet_function"
      | .plain => pushObject vm (.object o) "luaNet_metatable"
  | some v => pushObject vm v "luaNet_metatable"

/-! ### Chunks -/

/-- `ThrowExceptionFromError`: throws what is on the top. -/
def ThrowExceptionFromError {α : Type} (vm : Vm N Obj W) (oldTop : ℕ) : LuaM N Obj W α := do
  let err ← getObject vm (-1)
  LuaSetTop oldTop
  match err with
  | none => Prog.throw (.script (.error "Unknown Lua Error"))
  | some (.object o) =>
      if vm.isScriptException o then Prog.throw (.script (.rethrown o))
      else Prog.throw (.script (.error (vm.toString (.object o))))
  | some v => Prog.throw (.script (.error (vm.toString v)))

/-- `String.Length`, in units of UTF-16. -/
def length (s : String) : ℕ :=
  (s.toList.map fun c => if c.toNat < 0x10000 then 1 else 2).sum

/-- Makes `env`, if there is one, the environment of the chunk on the top. -/
def setEnv (vm : Vm N Obj W) : Option (LuaValue N) → LuaM N Obj W Unit
  | none => pure ()
  | some env => do
      LuaLib.push env
      LuaSetFEnv vm (-2)

/-- `LoadString`; `env` is the value of the `LuaTable`. -/
def LoadString (vm : Vm N Obj W) (chunk name : String) (env : Option (LuaValue N)) :
    LuaM N Obj W (ClrValue N Obj) := do
  let oldTop ← LuaGetTop
  if (← LuaL_LoadBuffer vm chunk (length chunk) name) ≠ 0 then
    ThrowExceptionFromError vm oldTop
  else
    setEnv vm env
    let result ← getFunction vm (-1)
    let _ ← popValues vm oldTop
    pure result

/-- `LoadFile`. -/
def LoadFile (vm : Vm N Obj W) (fileName : String) : LuaM N Obj W (ClrValue N Obj) := do
  let oldTop ← LuaGetTop
  match vm.resources fileName with
  | none => ThrowExceptionFromError vm oldTop
  | some file =>
      if (← LuaL_LoadBuffer vm file.text file.bytes fileName) ≠ 0 then
        ThrowExceptionFromError vm oldTop
      else
        let result ← getFunction vm (-1)
        let _ ← popValues vm oldTop
        pure result

/-- `DoString`. -/
def DoString (vm : Vm N Obj W) (chunk chunkName : String) (env : Option (LuaValue N)) :
    LuaM N Obj W (Option (List (Option (ClrValue N Obj)))) := do
  let oldTop ← LuaGetTop
  if (← LuaL_LoadBuffer vm chunk (length chunk) chunkName) = 0 then
    setEnv vm env
    if (← LuaPCall vm 0 0) = 0 then popValues vm oldTop
    else ThrowExceptionFromError vm oldTop
  else ThrowExceptionFromError vm oldTop

/-- `DoFile`. The message handler is pushed before the top is saved. -/
def DoFile (vm : Vm N Obj W) (fileName : String) (env : Option (LuaValue N)) :
    LuaM N Obj W (Option (List (Option (ClrValue N Obj)))) := do
  LuaPushStdCallCFunction vm .tracebackFunction
  let oldTop ← LuaGetTop
  match vm.resources fileName with
  | none => ThrowExceptionFromError vm oldTop
  | some file =>
      if (← LuaL_LoadBuffer vm file.text file.bytes fileName) = 0 then
        setEnv vm env
        if (← LuaPCall vm 0 (-2)) = 0 then
          let results ← popValues vm oldTop
          LuaPop 1
          pure results
        else ThrowExceptionFromError vm oldTop
      else ThrowExceptionFromError vm oldTop

/-! ### Globals and tables -/

/-- The loop of `getObject(string[])`, which ends at the first `null`. -/
def getObjectAt (vm : Vm N Obj W) (returnValue : Option (ClrValue N Obj)) :
    List String → LuaM N Obj W (Option (ClrValue N Obj))
  | [] => pure returnValue
  | field :: remainingPath => do
      LuaPushString field
      LuaGetTable vm (.rel (-2))
      match ← getObject vm (-1) with
      | none => pure none
      | some v => getObjectAt vm (some v) remainingPath

/-- The value that the getter returns, which leaves the tables of the path on the stack.
`Split` always gives a first part. -/
def getPath (vm : Vm N Obj W) (path : List String) : LuaM N Obj W (Option (ClrValue N Obj)) := do
  LuaGetGlobal vm (path.headD "")
  let returnValue ← getObject vm (-1)
  if path.length > 1 then getObjectAt vm none path.tail else pure returnValue

/-- The getter of the indexer. -/
def getItem (vm : Vm N Obj W) (fullPath : String) :
    LuaM N Obj W (Option (ClrValue N Obj)) := do
  let oldTop ← LuaGetTop
  let returnValue ← getPath vm (fullPath.splitOn ".")
  LuaSetTop oldTop
  pure returnValue

/-- Goes down the fields of a path. -/
def getFields (vm : Vm N Obj W) (fields : List String) : LuaM N Obj W Unit :=
  Prog.forEach (fun field => do
    LuaPushString field
    LuaGetTable vm (.rel (-2))) fields

/-- `setObject(string[], object)`. -/
def setObject (vm : Vm N Obj W) (remainingPath : List String) (val : Option (ClrValue N Obj)) :
    LuaM N Obj W Unit := do
  getFields vm remainingPath.dropLast
  LuaPushString (remainingPath.getLastD "")
  push vm val
  LuaSetTable vm (.rel (-3))

/-- The assignment of the setter, which leaves the tables of the path on the stack. -/
def setPath (vm : Vm N Obj W) (fullPath : String) (path : List String)
    (val : Option (ClrValue N Obj)) : LuaM N Obj W Unit := do
  if path.length = 1 then
    push vm val
    LuaSetGlobal vm fullPath
  else
    LuaGetGlobal vm (path.headD "")
    setObject vm path.tail val

/-- The setter of the indexer. -/
def setItem (vm : Vm N Obj W) (fullPath : String) (val : Option (ClrValue N Obj)) :
    LuaM N Obj W Unit := do
  let oldTop ← LuaGetTop
  setPath vm fullPath (fullPath.splitOn ".") val
  LuaSetTop oldTop

/-- The assignment of `NewTable`. -/
def newTablePath (vm : Vm N Obj W) (fullPath : String) (path : List String) :
    LuaM N Obj W Unit := do
  if path.length = 1 then
    LuaNewTable vm
    LuaSetGlobal vm fullPath
  else
    LuaGetGlobal vm (path.headD "")
    getFields vm path.tail.dropLast
    LuaPushString (path.getLastD "")
    LuaNewTable vm
    LuaSetTable vm (.rel (-3))

/-- `NewTable` for a path. -/
def NewTableAt (vm : Vm N Obj W) (fullPath : String) : LuaM N Obj W Unit := do
  let oldTop ← LuaGetTop
  newTablePath vm fullPath (fullPath.splitOn ".")
  LuaSetTop oldTop

/-- `NewTable` without a path. -/
def NewTable (vm : Vm N Obj W) : LuaM N Obj W (Option (ClrValue N Obj)) := do
  let oldTop ← LuaGetTop
  LuaNewTable vm
  let returnVal ← getObject vm (-1)
  LuaSetTop oldTop
  pure returnVal

/-- The loop of `GetTableDict` over the entries not yet visited. A key that has no CLR value
is refused by the dictionary. -/
def tableEntries (vm : Vm N Obj W) :
    List (LuaValue N × LuaValue N) →
      LuaM N Obj W (List (ClrValue N Obj × Option (ClrValue N Obj)))
  | [] => do
      let _ ← LuaNext []
      pure []
  | e :: rest => do
      let _ ← LuaNext (e :: rest)
      let key ← getObject vm (-2)
      let val ← getObject vm (-1)
      match key with
      | none => Prog.throw (.clr .argumentNull)
      | some key =>
          LuaSetTop (-2)
          let dict ← tableEntries vm rest
          pure ((key, val) :: dict)

/-- `GetTableDict`. -/
def GetTableDict (vm : Vm N Obj W) (table : Option (ClrValue N Obj)) :
    LuaM N Obj W (List (ClrValue N Obj × Option (ClrValue N Obj))) := do
  let oldTop ← LuaGetTop
  push vm table
  LuaPushNil
  match ← Prog.gets fun m => vm.entries m.world (m.value vm (.rel (-2))) with
  | none => Prog.throw .lua
  | some entries =>
      let dict ← tableEntries vm entries
      LuaSetTop oldTop
      pure dict

/-! ### Functions -/

/-- The call in `callFunction`: pushes the function and the arguments. -/
def protectedCall (vm : Vm N Obj W) (function : Option (ClrValue N Obj))
    (args : List (Option (ClrValue N Obj))) : LuaM N Obj W ℕ := do
  if ← LuaCheckStack vm (args.length + 6) then
    push vm function
    Prog.forEach (push vm) args
    LuaPCall vm args.length 0
  else Prog.throw .lua

/-- The end of `callFunction`. -/
def popResults (vm : Vm N Obj W) (oldTop : ℕ) : Option (List ClrType) →
    LuaM N Obj W (Option (List (Option (ClrValue N Obj))))
  | some returnTypes => popValuesAs vm oldTop returnTypes
  | none => popValues vm oldTop

/-- `callFunction`. -/
def callFunction (vm : Vm N Obj W) (function : Option (ClrValue N Obj))
    (args : Option (List (Option (ClrValue N Obj)))) (returnTypes : Option (List ClrType)) :
    LuaM N Obj W (Option (List (Option (ClrValue N Obj)))) := do
  let oldTop ← LuaGetTop
  match args with
  | none => Prog.throw (.clr .nullReference)
  | some args =>
      if (← protectedCall vm function args) ≠ 0 then ThrowExceptionFromError vm oldTop
      else popResults vm oldTop returnTypes

/-- The cast of an object to `LuaFunction`; a wrapped C# function is pushed as such. -/
def asFunction (vm : Vm N Obj W) : Option (ClrValue N Obj) →
    LuaM N Obj W (Option (ClrValue N Obj))
  | none => pure none
  | some (.luaFunction v) => pure (some (.luaFunction v))
  | some (.object o) =>
      match vm.kind o with
      | .csFunction => pure (some (.object o))
      | _ => Prog.throw (.clr .invalidCast)
  | some _ => Prog.throw (.clr .invalidCast)

/-- `GetFunction`. -/
def GetFunction (vm : Vm N Obj W) (fullPath : String) :
    LuaM N Obj W (Option (ClrValue N Obj)) := do
  let obj ← getItem vm fullPath
  asFunction vm obj

/-- `RegisterFunction`; `wrapper` is the delegate made for the method. -/
def RegisterFunction (vm : Vm N Obj W) (path : String) (wrapper : Obj) :
    LuaM N Obj W (Option (ClrValue N Obj)) := do
  let oldTop ← LuaGetTop
  push vm (some (.object wrapper))
  let obj ← getObject vm (-1)
  setItem vm path obj
  let f ← GetFunction vm path
  LuaSetTop oldTop
  pure f

/-- `CreateFunction`. -/
def CreateFunction (vm : Vm N Obj W) (wrapper : Obj) :
    LuaM N Obj W (Option (ClrValue N Obj)) := do
  let oldTop ← LuaGetTop
  push vm (some (.object wrapper))
  let obj ← getObject vm (-1)
  let f ← asFunction vm obj
  LuaSetTop oldTop
  pure f

end LuaState

end UnityLua
