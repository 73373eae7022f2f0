import UnityLua.CheckType

/-!
# Method calls from Lua

`LuaMethodWrapper`: a CLR method, or all methods of one name, called with the arguments on
the Lua stack. The slow path matches the arguments against the parameters of one overload
after the other (`matchParameters`) and remembers the match; the fast path runs the
conversions of the last match again when the number of arguments is the same.

The slots are threaded through everything, as a conversion may change them; a failed fast
path or a failed overload leaves its changes to the next. Stack space is taken to be there,
and a value that a method returns can be pushed.
-/

namespace UnityLua

variable {N Obj : Type}

/-- A parameter of a method. -/
structure ParameterInfo (N Obj : Type) where
  parameterType : ClrType
  isIn : Bool := false
  isOut : Bool := false
  isOptional : Bool := false
  defaultValue : Option (ClrValue N Obj) := none
  isParamArray : Bool := false

/-- An `out` parameter that takes no value from the caller. -/
def ParameterInfo.isPureOut (p : ParameterInfo N Obj) : Bool := !p.isIn && p.isOut

/-- A method or a constructor. -/
structure MethodBase (N Obj : Type) where
  id : ℕ
  name : String
  reflectedType : String
  parameters : List (ParameterInfo N Obj)
  isStatic : Bool := false
  isConstructor : Bool := false
  isReturnVoid : Bool := false
  containsGenericParameters : Bool := false
  isGenericMethodDefinition : Bool := false

/-- How one argument was converted (`MethodArgs`). -/
structure MethodArgs where
  index : ℕ
  extractValue : Extractor
  isParamsArray : Bool := false
  paramsArrayType : ClrType := .void
  deriving DecidableEq, Repr

/-- The last match (`MethodCache`). -/
structure MethodCache (N Obj : Type) where
  cachedMethod : MethodBase N Obj
  args : List (Option (ClrValue N Obj))
  outList : List ℕ
  argTypes : List MethodArgs

/-- What `Invoke` does: the body returns, with the new value of each parameter; or it
throws; or the arguments or the target are refused before the body runs. -/
inductive InvokeResult (N Obj : Type)
  | returned (value : Option (ClrValue N Obj)) (parameters : ℕ → Option (ClrValue N Obj))
  | threw (e : ℕ)
  | refused (e : Exn)

/-- The world at one call: what the conversions ask, and the bodies of the methods. -/
structure CallEnv (N Obj : Type) extends LuaEnv N Obj where
  invoke : MethodBase N Obj → Option (ClrValue N Obj) → List (Option (ClrValue N Obj)) →
    InvokeResult N Obj
  getType : ClrValue N Obj → ClrType
  makeGenericMethod : MethodBase N Obj → List ClrType → Except Exn (MethodBase N Obj)

/-! ### Matching -/

/-- The values of a `params` table, one by one. -/
def convertParam (env : LuaEnv N Obj) (paramArrayType : ClrType)
    (o : Option (ClrValue N Obj)) : Except Exn (Option (ClrValue N Obj)) :=
  match paramArrayType, o with
  | .object, some (.double x) =>
      if env.isInteger x then
        match env.toInt32 x with
        | some i => env.changeType .object (some (.integral .int i))
        | none => .error .overflow
      else env.changeType .object (some (.double x))
  | type, o => env.changeType type o

/-- `TableToArray`. -/
def TableToArray (env : LuaEnv N Obj) (luaParamValue : Option (ClrValue N Obj))
    (paramArrayType : ClrType) : Except Exn (Option (ClrValue N Obj)) :=
  match luaParamValue with
  | some (.luaTable table) => do
      let values ← env.tableValues table
      let values ← values.mapM (convertParam env paramArrayType)
      .ok (some (.array paramArrayType values))
  | v => do
      let v ← env.setValue paramArrayType v
      .ok (some (.array paramArrayType [v]))

/-- Converts one argument: the conversion, and for a `params` argument the array of it. -/
def MethodArgs.convert (env : LuaEnv N Obj) (a : MethodArgs) (slot : LuaValue N) :
    Except Exn (Option (ClrValue N Obj)) × LuaValue N :=
  let (r, slot) := a.extractValue.extract env slot
  (do
    let luaParamValue ← r
    if a.isParamsArray then TableToArray env luaParamValue a.paramsArrayType
    else .ok luaParamValue, slot)

/-- `_IsTypeCorrect`: an exception of the check counts as no. -/
def isTypeCorrect (env : LuaEnv N Obj) (slot : LuaValue N) (p : ParameterInfo N Obj) :
    Option Extractor :=
  match CheckLuaType env slot p.parameterType with
  | .ok e => e
  | .error _ => none

/-- `_IsParamsArray`. -/
def isParamsArray (env : LuaEnv N Obj) (slot : LuaValue N) (p : ParameterInfo N Obj) :
    Option Extractor :=
  if p.isParamArray then
    if slot.luaType = .LUA_TTABLE then some (GetExtractor .luaTable)
    else
      match CheckLuaType env slot p.parameterType.elementType with
      | .ok e => e
      | .error _ => none
  else none

/-- The locals of `matchParameters`: the slots matched so far, as they are now, and those
still to be matched. -/
structure MatchState (N Obj : Type) where
  matched : List (LuaValue N)
  rest : List (LuaValue N)
  paramList : List (Option (ClrValue N Obj))
  outList : List ℕ
  argTypes : List MethodArgs

namespace MatchState

/-- Adds a parameter that takes no argument. -/
def addParam (s : MatchState N Obj) (v : Option (ClrValue N Obj)) : MatchState N Obj :=
  { s with paramList := s.paramList ++ [v] }

/-- Adds an argument whose slot is now `slot`. -/
def addArg (s : MatchState N Obj) (slot : LuaValue N) (rest : List (LuaValue N))
    (v : Option (ClrValue N Obj)) (arg : MethodArgs) : MatchState N Obj :=
  { s with
    matched := s.matched ++ [slot], rest := rest, paramList := s.paramList ++ [v]
    argTypes := s.argTypes ++ [arg] }

/-- Adds the index of the next parameter to the list of results. -/
def addOut (s : MatchState N Obj) : MatchState N Obj :=
  { s with outList := s.outList ++ [s.paramList.length] }

end MatchState

/-- One round of the loop of `matchParameters`; `none` is the `break` of a mismatch. -/
def matchParameter (env : LuaEnv N Obj) (p : ParameterInfo N Obj) (s : MatchState N Obj) :
    Except Exn (Bool × MatchState N Obj) :=
  if p.isPureOut then .ok (true, s.addOut.addParam none)
  else
    match s.rest with
    | [] => .ok (if p.isOptional then (true, s.addParam p.defaultValue) else (false, s))
    | slot :: rest =>
        match isTypeCorrect env slot p with
        | some extractValue => do
            let arg : MethodArgs := { index := s.paramList.length, extractValue := extractValue }
            let (r, slot) := arg.convert env slot
            let v ← r
            let s := if p.parameterType.isByRef then s.addOut else s
            .ok (true, s.addArg slot rest v arg)
        | none =>
            match isParamsArray env slot p with
            | some extractValue => do
                let arg : MethodArgs :=
                  { index := s.paramList.length, extractValue := extractValue
                    isParamsArray := true, paramsArrayType := p.parameterType.elementType }
                let (r, slot) := arg.convert env slot
                let v ← r
                .ok (true, s.addArg slot rest v arg)
            | none =>
                .ok (if p.isOptional then (true, s.addParam p.defaultValue) else (false, s))

/-- The loop of `matchParameters`. -/
def matchLoop (env : LuaEnv N Obj) :
    List (ParameterInfo N Obj) → MatchState N Obj → Except Exn (Bool × MatchState N Obj)
  | [], s => .ok (true, s)
  | p :: ps, s => do
      let (isMethod, s) ← matchParameter env p s
      if isMethod then matchLoop env ps s else .ok (false, s)

/-- `matchParameters`: the match, if there is one, and the slots afterwards. -/
def matchParameters (env : LuaEnv N Obj) (slots : List (LuaValue N))
    (method : MethodBase N Obj) :
    Except Exn (Option (MethodCache N Obj) × List (LuaValue N)) := do
  let (isMethod, s) ← matchLoop env method.parameters
    { matched := [], rest := slots, paramList := [], outList := [], argTypes := [] }
  let slots := s.matched ++ s.rest
  if isMethod ∧ s.rest.isEmpty then
    .ok (some { cachedMethod := method, args := s.paramList, outList := s.outList
                argTypes := s.argTypes }, slots)
  else .ok (none, slots)

/-- The search for an overload, in the order of the members. -/
def matchMembers (env : LuaEnv N Obj) :
    List (MethodBase N Obj) → List (LuaValue N) →
      Except Exn (Option (MethodCache N Obj) × List (LuaValue N))
  | [], slots => .ok (none, slots)
  | m :: ms, slots => do
      let (found, slots) ← matchParameters env slots m
      match found with
      | some c => .ok (some c, slots)
      | none => matchMembers env ms slots

/-! ### The wrapper -/

/-- What the two constructors of `LuaMethodWrapper` set up. `method` is the instance that
was given; without one, `members` are the methods of the name. -/
structure LuaMethodWrapper (N Obj : Type) where
  method : Option (MethodBase N Obj)
  members : List (MethodBase N Obj)
  methodName : String
  target : Option (ClrValue N Obj)
  extractTarget : Extractor
  isStatic : Bool

/-- The errors that `call` raises in Lua. -/
inductive LuaError
  | message (s : String)
  | exception (e : Exn)
  deriving DecidableEq, Repr

/-- What Lua gets from a call. -/
inductive CallResult (N Obj : Type)
  | values (vs : List (Option (ClrValue N Obj)))
  | error (e : LuaError)
  | exception (e : Exn)

/-- What a call does: the bodies it runs, with their targets and arguments, and its
result. -/
structure Outcome (N Obj : Type) where
  invoked : List (MethodBase N Obj × Option (ClrValue N Obj) × List (Option (ClrValue N Obj)))
  result : CallResult N Obj

/-- What an argument list says to the body: the places of `out` parameters say nothing. -/
def inputs : List (ParameterInfo N Obj) → List (Option (ClrValue N Obj)) →
    List (Option (ClrValue N Obj)) :=
  List.zipWith fun p v => if p.isPureOut then none else v

/-- `Invoke` writes the parameters passed by reference back into the argument array; the
first parameter here is number `i`. -/
def writeBack (parameters : ℕ → Option (ClrValue N Obj)) :
    ℕ → List (ParameterInfo N Obj) → List (Option (ClrValue N Obj)) →
      List (Option (ClrValue N Obj))
  | i, p :: ps, v :: args =>
      (if p.parameterType.isByRef then parameters i else v) :: writeBack parameters (i + 1) ps args
  | _, _, args => args

/-- The values left for Lua: the result, and what the outgoing parameters hold. -/
def returnValues (c : MethodCache N Obj) (value : Option (ClrValue N Obj)) :
    List (Option (ClrValue N Obj)) :=
  let outs := c.outList.map fun i => (c.args[i]?).join
  if outs.isEmpty then [value] else if c.cachedMethod.isReturnVoid then outs else value :: outs

/-- `cachedMethod.Invoke(..)` with the cached arguments, as both paths do it: what is left
for Lua and in the cache, or the exception that was not the body's. -/
def invokeCached (env : CallEnv N Obj) (isStatic : Bool) (target : Option (ClrValue N Obj))
    (c : MethodCache N Obj) : Except Exn (Outcome N Obj × MethodCache N Obj) :=
  let target := if isStatic || c.cachedMethod.isConstructor then none else target
  let call := (c.cachedMethod, target, inputs c.cachedMethod.parameters c.args)
  match env.invoke c.cachedMethod target (inputs c.cachedMethod.parameters c.args) with
  | .returned value parameters =>
      let c := { c with args := writeBack parameters 0 c.cachedMethod.parameters c.args }
      .ok (⟨[call], .values (returnValues c value)⟩, c)
  | .threw e => .ok (⟨[call], .error (.exception (.thrown e))⟩, c)
  | .refused e => .error e

/-- The end of the slow path. -/
def invokeMatched (env : CallEnv N Obj) (isStatic : Bool) (target : Option (ClrValue N Obj))
    (c : MethodCache N Obj) : Outcome N Obj × Option (MethodCache N Obj) :=
  match invokeCached env isStatic target c with
  | .ok (o, c) => (o, some c)
  | .error e => (⟨[], .error (.exception e)⟩, some c)

/-- The arguments of the fast path: the conversions of the last match, run on the slots
behind the receiver, the first of which is argument number `i + 1`. What was converted
before an exception stays in the argument array. -/
def fastArgs (env : LuaEnv N Obj) : ℕ → List MethodArgs → List (LuaValue N) →
    List (Option (ClrValue N Obj)) →
      Option Exn × List (LuaValue N) × List (Option (ClrValue N Obj))
  | i, type :: types, slot :: slots, args =>
      let (r, slot) := type.convert env slot
      match r with
      | .error e => (some e, slot :: slots, args)
      | .ok v =>
          let args := args.set type.index v
          if v.isNone ∧ slot.luaType ≠ .LUA_TNIL then
            (some (.argumentInvalid (i + 1)), slot :: slots, args)
          else
            let (e, slots, args) := fastArgs env (i + 1) types slots args
            (e, slot :: slots, args)
  | _, _, slots, args => (none, slots, args)

/-- The error when no overload matches. -/
def noMatch (members : List (MethodBase N Obj)) : String :=
  match members.getLast? with
  | none => "invalid arguments to method call"
  | some m => "invalid arguments to method: " ++ m.reflectedType ++ "." ++ m.name

/-- The part of `call` after a cache miss; `args` are the slots behind the receiver. -/
def slowPath (env : CallEnv N Obj) (w : LuaMethodWrapper N Obj)
    (cache : Option (MethodCache N Obj)) (target : Option (ClrValue N Obj))
    (args : List (LuaValue N)) : Outcome N Obj × Option (MethodCache N Obj) :=
  if w.isStatic = false ∧ target.isNone then
    (⟨[], .error (.message ("instance method '" ++ w.methodName ++
      "' requires a non null target object"))⟩, cache)
  else
    match matchMembers env.toLuaEnv w.members args with
    | .error e => (⟨[], .exception e⟩, cache)
    | .ok (none, _) => (⟨[], .error (.message (noMatch w.members))⟩, cache)
    | .ok (some c, _) => invokeMatched env w.isStatic target c

/-- The body of the `try` for a cached match: what comes of it, the slots and the cache. -/
def tryCached (env : CallEnv N Obj) (isStatic : Bool) (c : MethodCache N Obj)
    (target : Option (ClrValue N Obj)) (args : List (LuaValue N)) :
    Except Exn (Outcome N Obj × MethodCache N Obj) × List (LuaValue N) × MethodCache N Obj :=
  let (e, args, converted) := fastArgs env.toLuaEnv 0 c.argTypes args c.args
  let c := { c with args := converted }
  match e with
  | some e => (.error e, args, c)
  | none => (invokeCached env isStatic target c, args, c)

/-- The part of `call` for a cached match of the right length. An exception is the answer
when there is one overload only, and a cache miss otherwise. -/
def fastPath (env : CallEnv N Obj) (w : LuaMethodWrapper N Obj) (c : MethodCache N Obj)
    (target : Option (ClrValue N Obj)) (args : List (LuaValue N)) :
    Outcome N Obj × Option (MethodCache N Obj) :=
  match tryCached env w.isStatic c target args with
  | (.ok (o, c), _, _) => (o, some c)
  | (.error e, args, c) =>
      if w.members.length = 1 then (⟨[], .error (.exception e)⟩, some c)
      else slowPath env w (some c) target args

/-- The receiver of a call by name, read from the first slot. -/
def LuaMethodWrapper.receiver (env : CallEnv N Obj) (w : LuaMethodWrapper N Obj)
    (slots : List (LuaValue N)) : Except Exn (Option (ClrValue N Obj)) :=
  if w.isStatic then .ok none else (w.extractTarget.extract env.toLuaEnv (slots.headD .nil)).1

/-- The slots behind the receiver. -/
def LuaMethodWrapper.arguments (w : LuaMethodWrapper N Obj) (slots : List (LuaValue N)) :
    List (LuaValue N) :=
  if w.isStatic then slots else slots.tail

/-- The number of arguments, which is -1 when the receiver is missing. -/
def LuaMethodWrapper.numArgsPassed (w : LuaMethodWrapper N Obj) (slots : List (LuaValue N)) :
    ℤ :=
  slots.length - (if w.isStatic then 0 else 1)

/-- `call` of a wrapper made for a name: the receiver, then the two paths. -/
def callByName (env : CallEnv N Obj) (w : LuaMethodWrapper N Obj)
    (cache : Option (MethodCache N Obj)) (slots : List (LuaValue N)) :
    Outcome N Obj × Option (MethodCache N Obj) :=
  match w.receiver env slots with
  | .error e => (⟨[], .exception e⟩, cache)
  | .ok target =>
      match cache with
      | none => slowPath env w none target (w.arguments slots)
      | some c =>
          if w.numArgsPassed slots = c.argTypes.length then
            fastPath env w c target (w.arguments slots)
          else slowPath env w (some c) target (w.arguments slots)

/-- The types of the arguments, for a generic method. -/
def typeArgs (env : CallEnv N Obj) (args : List (Option (ClrValue N Obj))) :
    Except Exn (List ClrType) :=
  args.mapM fun
    | some v => .ok (env.getType v)
    | none => .error .nullReference

/-- `call` of a wrapper made for an open generic method. The answer of `matchParameters` is
not looked at, so the arguments may be those of an earlier match. -/
def callGeneric (env : CallEnv N Obj) (w : LuaMethodWrapper N Obj) (m : MethodBase N Obj)
    (cache : Option (MethodCache N Obj)) (slots : List (LuaValue N)) :
    Outcome N Obj × Option (MethodCache N Obj) :=
  match matchParameters env.toLuaEnv slots m with
  | .error e => (⟨[], .exception e⟩, cache)
  | .ok (found, _) =>
      let cache := found.or cache
      if m.isGenericMethodDefinition then
        match cache with
        | none => (⟨[], .exception .nullReference⟩, none)
        | some c =>
            match typeArgs env c.args >>= env.makeGenericMethod m with
            | .error e => (⟨[], .exception e⟩, cache)
            | .ok concreteMethod =>
                let call := (concreteMethod, w.target, inputs m.parameters c.args)
                match env.invoke concreteMethod w.target (inputs m.parameters c.args) with
                | .returned value parameters =>
                    let c := { c with args := writeBack parameters 0 m.parameters c.args }
                    (⟨[call], .values (returnValues c value)⟩, some c)
                | .threw e => (⟨[call], .exception (.thrown e)⟩, cache)
                | .refused e => (⟨[], .exception e⟩, cache)
      else
        (⟨[], .error (.message
          "unable to invoke method on generic class as the current method is an open generic method")⟩,
          cache)

/-- `call` of a wrapper made for a method without generic parameters. -/
def callMethod (env : CallEnv N Obj) (w : LuaMethodWrapper N Obj) (m : MethodBase N Obj)
    (cache : Option (MethodCache N Obj)) (slots : List (LuaValue N)) :
    Outcome N Obj × Option (MethodCache N Obj) :=
  let (target, args) :=
    if m.isStatic = false ∧ m.isConstructor = false ∧ w.target.isNone then
      ((w.extractTarget.extract env.toLuaEnv (slots.headD .nil)).1, slots.tail)
    else (.ok w.target, slots)
  match target with
  | .error e => (⟨[], .exception e⟩, cache)
  | .ok target =>
      match matchParameters env.toLuaEnv args m with
      | .error e => (⟨[], .exception e⟩, cache)
      | .ok (none, _) => (⟨[], .error (.message "invalid arguments to method call")⟩, cache)
      | .ok (some c, _) => invokeMatched env w.isStatic target c

/-- `LuaMethodWrapper.call`. -/
def LuaMethodWrapper.call (env : CallEnv N Obj) (w : LuaMethodWrapper N Obj)
    (cache : Option (MethodCache N Obj)) (slots : List (LuaValue N)) :
    Outcome N Obj × Option (MethodCache N Obj) :=
  match w.method with
  | none => callByName env w cache slots
  | some m =>
      if m.containsGenericParameters then callGeneric env w m cache slots
      else callMethod env w m cache slots

end UnityLua
