import Mathlib.Data.Int.Notation
import Mathlib.Data.Nat.Notation

/-!
# Lua values, CLR values and CLR types

The values on both sides of the boundary and what a conversion may ask about them. Tables,
functions, userdata and coroutines of Lua are identities; what is inside them is a question
to the interpreter, `LuaEnv`. A CLR object is an element of `Obj`, and a `LuaTable`,
`LuaFunction` or `LuaUserData` is given by the Lua value that it stands for.
-/

namespace UnityLua

/-- The type codes of `lua_type`. -/
inductive LuaTypes
  | LUA_TNIL
  | LUA_TBOOLEAN
  | LUA_TLIGHTUSERDATA
  | LUA_TNUMBER
  | LUA_TSTRING
  | LUA_TTABLE
  | LUA_TFUNCTION
  | LUA_TUSERDATA
  | LUA_TTHREAD
  deriving DecidableEq, Repr

/-- A Lua value; `N` is the number type. -/
inductive LuaValue (N : Type)
  | nil
  | boolean (b : Bool)
  | lightUserdata (p : ℕ)
  | number (n : N)
  | string (s : String)
  | table (id : ℕ)
  | function (id : ℕ)
  | userdata (id : ℕ)
  | thread (id : ℕ)
  deriving DecidableEq, Repr

/-- `lua_type`. -/
def LuaValue.luaType {N : Type} : LuaValue N → LuaTypes
  | .nil => .LUA_TNIL
  | .boolean _ => .LUA_TBOOLEAN
  | .lightUserdata _ => .LUA_TLIGHTUSERDATA
  | .number _ => .LUA_TNUMBER
  | .string _ => .LUA_TSTRING
  | .table _ => .LUA_TTABLE
  | .function _ => .LUA_TFUNCTION
  | .userdata _ => .LUA_TUSERDATA
  | .thread _ => .LUA_TTHREAD

theorem luaType_eq_nil {N : Type} {v : LuaValue N} : v.luaType = .LUA_TNIL ↔ v = .nil := by
  cases v <;> simp [LuaValue.luaType]

/-- The numeric CLR types that a Lua number is cast to as an integer. -/
inductive IntegralType
  | sbyte
  | byte
  | short
  | ushort
  | int
  | uint
  | long
  | ulong
  | char
  deriving DecidableEq, Repr

/-- CLR types, as far as the conversions tell them apart. Classes, interfaces, delegates
and value types other than the ones listed are known by a number. -/
inductive ClrType
  | void
  | object
  | integral (t : IntegralType)
  | double
  | float
  | decimal
  | bool
  | string
  | charArray
  | luaFunction
  | luaTable
  | luaUserData
  | class (id : ℕ)
  | interface (id : ℕ)
  | delegate (id : ℕ)
  | valueType (id : ℕ)
  | array (element : ClrType)
  | genericParameter (id : ℕ)
  | nullable (underlying : ClrType)
  | byRef (element : ClrType)
  deriving DecidableEq, Repr

/-- `IsByRef` followed by `GetElementType`. -/
def ClrType.stripByRef : ClrType → ClrType
  | .byRef t => t
  | t => t

/-- `Nullable.GetUnderlyingType`, or the type itself. -/
def ClrType.stripNullable : ClrType → ClrType
  | .nullable t => t
  | t => t

def ClrType.isByRef : ClrType → Bool
  | .byRef _ => true
  | _ => false

def ClrType.isInterface : ClrType → Bool
  | .interface _ => true
  | _ => false

/-- `IsClass`, which Mono answers with true for a generic parameter. -/
def ClrType.isClass : ClrType → Bool
  | .object | .string | .charArray | .luaFunction | .luaTable | .luaUserData => true
  | .class _ | .delegate _ | .array _ | .genericParameter _ => true
  | _ => false

/-- `GetElementType` of an array type. -/
def ClrType.elementType : ClrType → ClrType
  | .array t => t
  | .charArray => .integral .char
  | .byRef t => t
  | t => t

/-- A CLR value that a conversion may produce; `none` stands for `null` beside it. -/
inductive ClrValue (N Obj : Type)
  | integral (t : IntegralType) (n : ℤ)
  | double (n : N)
  | float (n : N)
  | decimal (n : N)
  | bool (b : Bool)
  | string (s : String)
  | luaTable (v : LuaValue N)
  | luaFunction (v : LuaValue N)
  | luaUserData (v : LuaValue N)
  | object (o : Obj)
  | delegate (type : ClrType) (v : LuaValue N)
  | generated (type : ClrType) (v : LuaValue N)
  | array (element : ClrType) (values : List (Option (ClrValue N Obj)))

/-- The exceptions of the conversions and calls, with the messages the source gives. -/
inductive Exn
  | keyNotFound
  | nullReference
  | indexOutOfRange
  | argumentNull
  | overflow
  | invalidCast
  | argumentInvalid (number : ℕ)
  | binder
  | target
  | typeLoad
  | thrown (e : ℕ)
  deriving DecidableEq, Repr

/-- What the conversions ask the interpreter, the registry of objects and the runtime
library. Only reads: nothing here depends on the stack. -/
structure LuaEnv (N Obj : Type) where
  /-- `lua_str2number`, also behind `lua_isnumber` and `lua_tonumber`. -/
  str2number : String → Option N
  /-- How a number is written when it is used as a string. -/
  number2str : N → String
  zero : N
  isZero : N → Bool
  /-- The casts of a `double`. -/
  toIntegral : IntegralType → N → ℤ
  toFloat : N → N
  /-- `none` is `OverflowException`. -/
  toDecimal : N → Option N
  /-- `luaL_getmetafield(.., "__index")` of a table. -/
  metaIndex : ℕ → Option (LuaValue N)
  /-- `luaL_checkmetatable`: the metatable bears the tag of this library. -/
  checkMetaTable : LuaValue N → Bool
  /-- `luanet_tonetobject` of a userdata and the object registered under its id. -/
  netObject : ℕ → Option Obj
  /-- `type.IsAssignableFrom(o.GetType())`. -/
  isAssignableFrom : ClrType → Obj → Bool
  /-- The values of a table in the order of `lua_next`, as `getObject` reads them. A key that has
  no CLR value is an error of the dictionary they are read into. -/
  tableValues : LuaValue N → Except Exn (List (Option (ClrValue N Obj)))
  /-- `Math.Ceiling(x) == x`. -/
  isInteger : N → Bool
  /-- `Convert.ToInt32`, where it does not overflow. -/
  toInt32 : N → Option ℤ
  /-- `Convert.ChangeType(o, type)` followed by `Array.SetValue`. -/
  changeType : ClrType → Option (ClrValue N Obj) → Except Exn (Option (ClrValue N Obj))
  /-- `Array.SetValue` of a value into an array of this element type. -/
  setValue : ClrType → Option (ClrValue N Obj) → Except Exn (Option (ClrValue N Obj))

variable {N Obj : Type}

namespace LuaEnv

/-- `lua_isnumber`. -/
def isNumber (env : LuaEnv N Obj) : LuaValue N → Bool
  | .number _ => true
  | .string s => (env.str2number s).isSome
  | _ => false

/-- `lua_isstring`. -/
def isString (_env : LuaEnv N Obj) : LuaValue N → Bool
  | .number _ | .string _ => true
  | _ => false

theorem isString_of_isNumber {env : LuaEnv N Obj} {slot : LuaValue N}
    (hnumber : env.isNumber slot = true) : env.isString slot = true := by
  cases slot with
  | number n => rfl
  | string s => rfl
  | _ => cases hnumber

/-- `lua_tonumber`. -/
def toNumber (env : LuaEnv N Obj) : LuaValue N → N
  | .number n => n
  | .string s => (env.str2number s).getD env.zero
  | _ => env.zero

/-- `lua_tolstring`: the text, if any, and the slot, in which a number has become a
string. -/
def toLString (env : LuaEnv N Obj) : LuaValue N → Option String × LuaValue N
  | .number n => (some (env.number2str n), .string (env.number2str n))
  | .string s => (some s, .string s)
  | v => (none, v)

/-- `lua_toboolean`. -/
def toBoolean (_env : LuaEnv N Obj) : LuaValue N → Bool
  | .nil => false
  | .boolean b => b
  | _ => true

/-- `luaL_getmetafield(luaState, stackPos, "__index")`. -/
def getMetaIndex (env : LuaEnv N Obj) : LuaValue N → Option (LuaValue N)
  | .table id => env.metaIndex id
  | _ => none

/-- `ObjectTranslator.getNetObject`. -/
def getNetObject (env : LuaEnv N Obj) : LuaValue N → Option Obj
  | .userdata id => env.netObject id
  | _ => none

/-- `ObjectTranslator.getObject`. The id of a userdata is registered while Lua reaches it. -/
def getObject (env : LuaEnv N Obj) : LuaValue N → Option (ClrValue N Obj)
  | .number n => some (.double n)
  | .string s => some (.string s)
  | .boolean b => some (.bool b)
  | .table id => some (.luaTable (.table id))
  | .function id => some (.luaFunction (.function id))
  | .userdata id =>
      match env.netObject id with
      | some o => some (.object o)
      | none => some (.luaUserData (.userdata id))
  | _ => none

end LuaEnv

end UnityLua
