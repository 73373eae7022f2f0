import UnityLua.LuaValue

/-!
# Type checks and conversions

`CheckType`: which conversion, if any, takes a Lua value to a CLR type, and the conversions
themselves. A conversion reads one stack slot and may change it: a number that is read as
a string becomes one in place, and a table that stands for a CLR object is replaced by the
userdata of that object.
-/

namespace UnityLua

variable {N Obj : Type}

/-- The conversion functions (`ExtractValue`). -/
inductive Extractor
  | getAsObject
  | getAsIntegral (t : IntegralType)
  | getAsDouble
  | getAsFloat
  | getAsDecimal
  | getAsBoolean
  | getAsString
  | getAsFunction
  | getAsTable
  | getAsUserdata
  | getAsNetObject
  | delegateGenerator (type : ClrType)
  | classGenerator (type : ClrType)
  deriving DecidableEq, Repr

/-- The table `extractValues`. `char[]` is not in it, although `CheckLuaType` treats it
like `string`. -/
def extractValues : ClrType → Option Extractor
  | .object => some .getAsObject
  | .integral t => some (.getAsIntegral t)
  | .double => some .getAsDouble
  | .float => some .getAsFloat
  | .decimal => some .getAsDecimal
  | .bool => some .getAsBoolean
  | .string => some .getAsString
  | .luaFunction => some .getAsFunction
  | .luaTable => some .getAsTable
  | .luaUserData => some .getAsUserdata
  | _ => none

/-- `GetExtractor`. -/
def GetExtractor (paramType : ClrType) : Extractor :=
  (extractValues paramType.stripByRef).getD .getAsNetObject

/-- The indexer `extractValues[..]`, which throws for a type that is not in the table. -/
def extractValuesOf (type : ClrType) : Except Exn (Option Extractor) :=
  match extractValues type with
  | some e => .ok (some e)
  | none => .error .keyNotFound

/-- The last two branches of `CheckLuaType`: the value must be, or stand for, a CLR object
of the type. -/
def checkNetObject (env : LuaEnv N Obj) (slot : LuaValue N) (paramType : ClrType) :
    Option Extractor :=
  let obj := match slot with
    | .table id => (env.metaIndex id).bind env.getNetObject
    | v => env.getNetObject v
  match obj with
  | some o => if env.isAssignableFrom paramType o then some .getAsNetObject else none
  | none => none

/-- The part of `CheckLuaType` after the test for numbers. -/
def checkOtherType (env : LuaEnv N Obj) (slot : LuaValue N) (paramType : ClrType) :
    Except Exn (Option Extractor) :=
  let luatype := slot.luaType
  match paramType with
  | .bool =>
      if luatype = .LUA_TBOOLEAN then extractValuesOf paramType else .ok none
  | .string | .charArray =>
      if env.isString slot then extractValuesOf paramType
      else if luatype = .LUA_TNIL then .ok (some .getAsNetObject)
      else .ok none
  | .luaTable =>
      if luatype = .LUA_TTABLE then extractValuesOf paramType else .ok none
  | .luaUserData =>
      if luatype = .LUA_TUSERDATA then extractValuesOf paramType else .ok none
  | .luaFunction =>
      if luatype = .LUA_TFUNCTION then extractValuesOf paramType else .ok none
  | .delegate id =>
      if luatype = .LUA_TFUNCTION then .ok (some (.delegateGenerator (.delegate id)))
      else if luatype = .LUA_TNIL then .ok (some .getAsNetObject)
      else .ok (checkNetObject env slot (.delegate id))
  | .interface id =>
      if luatype = .LUA_TTABLE then .ok (some (.classGenerator (.interface id)))
      else if luatype = .LUA_TNIL then .ok (some .getAsNetObject)
      else .ok (checkNetObject env slot (.interface id))
  | t =>
      if t.isClass = true ∧ luatype = .LUA_TNIL then .ok (some .getAsNetObject)
      else .ok (checkNetObject env slot t)

/-- The branch of `CheckLuaType` for a generic parameter. -/
def checkGenericParameter (slot : LuaValue N) : Option Extractor :=
  match slot.luaType with
  | .LUA_TBOOLEAN => some .getAsBoolean
  | .LUA_TSTRING => some .getAsString
  | .LUA_TTABLE => some .getAsTable
  | .LUA_TUSERDATA => some .getAsObject
  | .LUA_TFUNCTION => some .getAsFunction
  | .LUA_TNUMBER => some .getAsDouble
  | _ => none

def ClrType.isGenericParameter : ClrType → Bool
  | .genericParameter _ => true
  | _ => false

/-- `CheckLuaType`: the conversion for this value and type, `none` where there is none.
Every number, and every string that reads as one, goes to the table of conversions. -/
def CheckLuaType (env : LuaEnv N Obj) (slot : LuaValue N) (paramType : ClrType) :
    Except Exn (Option Extractor) :=
  let paramType := paramType.stripByRef.stripNullable
  if paramType = .object then .ok (some .getAsObject)
  else
    match if paramType.isGenericParameter then checkGenericParameter slot else none with
    | some e => .ok (some e)
    | none =>
        if env.isNumber slot then extractValuesOf paramType
        else checkOtherType env slot paramType

/-! ### Conversions -/

/-- What a conversion gives: a value (`none` is `null`) or an exception, and the slot as it
is afterwards. -/
abbrev Extracted (N Obj : Type) := Except Exn (Option (ClrValue N Obj)) × LuaValue N

/-- The numeric conversions give `null` for a zero that no number is behind. -/
def nullUnlessNumber (env : LuaEnv N Obj) (slot : LuaValue N) (isZero : Bool)
    (retVal : ClrValue N Obj) : Extracted N Obj :=
  if isZero = true ∧ env.isNumber slot = false then (.ok none, slot) else (.ok (some retVal), slot)

/-- `GetAsSbyte`, `GetAsByte`, ..., `GetAsChar`. -/
def GetAsIntegral (t : IntegralType) (env : LuaEnv N Obj) (slot : LuaValue N) :
    Extracted N Obj :=
  let retVal := env.toIntegral t (env.toNumber slot)
  nullUnlessNumber env slot (retVal == 0) (.integral t retVal)

def GetAsDouble (env : LuaEnv N Obj) (slot : LuaValue N) : Extracted N Obj :=
  let retVal := env.toNumber slot
  nullUnlessNumber env slot (env.isZero retVal) (.double retVal)

def GetAsFloat (env : LuaEnv N Obj) (slot : LuaValue N) : Extracted N Obj :=
  let retVal := env.toFloat (env.toNumber slot)
  nullUnlessNumber env slot (env.isZero retVal) (.float retVal)

def GetAsDecimal (env : LuaEnv N Obj) (slot : LuaValue N) : Extracted N Obj :=
  match env.toDecimal (env.toNumber slot) with
  | none => (.error .overflow, slot)
  | some retVal => nullUnlessNumber env slot (env.isZero retVal) (.decimal retVal)

def GetAsBoolean (env : LuaEnv N Obj) (slot : LuaValue N) : Extracted N Obj :=
  (.ok (some (.bool (env.toBoolean slot))), slot)

/-- `GetAsString` calls `ToString()` on what `LuaToString` gives, which is `null` for
anything but a string or a number. -/
def GetAsString (env : LuaEnv N Obj) (slot : LuaValue N) : Extracted N Obj :=
  match env.toLString slot with
  | (none, slot) => (.error .nullReference, slot)
  | (some retVal, slot) => (.ok (some (.string retVal)), slot)

def GetAsTable (slot : LuaValue N) : Extracted N Obj := (.ok (some (.luaTable slot)), slot)

def GetAsFunction (slot : LuaValue N) : Extracted N Obj :=
  (.ok (some (.luaFunction slot)), slot)

def GetAsUserdata (slot : LuaValue N) : Extracted N Obj :=
  (.ok (some (.luaUserData slot)), slot)

/-- The slot of a table whose `__index` is of this library becomes that `__index`. -/
def replaceByIndex (env : LuaEnv N Obj) (slot : LuaValue N) : LuaValue N :=
  match env.getMetaIndex slot with
  | some v => if env.checkMetaTable v then v else slot
  | none => slot

def GetAsObject (env : LuaEnv N Obj) (slot : LuaValue N) : Extracted N Obj :=
  let slot := replaceByIndex env slot
  (.ok (env.getObject slot), slot)

def GetAsNetObject (env : LuaEnv N Obj) (slot : LuaValue N) : Extracted N Obj :=
  match env.getNetObject slot with
  | some o => (.ok (some (.object o)), slot)
  | none =>
      let slot' := replaceByIndex env slot
      (.ok ((env.getNetObject slot').map .object), slot')

/-- Runs a conversion on the value of a slot. -/
def Extractor.extract (env : LuaEnv N Obj) : Extractor → LuaValue N → Extracted N Obj
  | .getAsObject, slot => GetAsObject env slot
  | .getAsIntegral t, slot => GetAsIntegral t env slot
  | .getAsDouble, slot => GetAsDouble env slot
  | .getAsFloat, slot => GetAsFloat env slot
  | .getAsDecimal, slot => GetAsDecimal env slot
  | .getAsBoolean, slot => GetAsBoolean env slot
  | .getAsString, slot => GetAsString env slot
  | .getAsFunction, slot => GetAsFunction slot
  | .getAsTable, slot => GetAsTable slot
  | .getAsUserdata, slot => GetAsUserdata slot
  | .getAsNetObject, slot => GetAsNetObject env slot
  | .delegateGenerator type, slot => (.ok (some (.delegate type slot)), slot)
  | .classGenerator type, slot => (.ok (some (.generated type slot)), slot)

/-- `ObjectTranslator.getAsType`. -/
def getAsType (env : LuaEnv N Obj) (slot : LuaValue N) (paramType : ClrType) :
    Extracted N Obj :=
  match CheckLuaType env slot paramType with
  | .error e => (.error e, slot)
  | .ok none => (.ok none, slot)
  | .ok (some e) => e.extract env slot

/-- A world with whole numbers and without CLR objects. -/
def LuaEnv.plain : LuaEnv ℤ ℕ where
  str2number _ := none
  number2str n := toString n
  zero := 0
  isZero n := n == 0
  toIntegral _ n := n
  toFloat n := n
  toDecimal n := some n
  metaIndex _ := none
  checkMetaTable _ := false
  netObject _ := none
  isAssignableFrom _ _ := false
  tableValues _ := .ok []
  isInteger _ := true
  toInt32 n := some n
  changeType _ v := .ok v
  setValue _ v := .ok v

end UnityLua
