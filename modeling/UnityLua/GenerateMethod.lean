import UnityLua.Library.StackCode
import UnityLua.LuaValue

/-!
# The code of an override

`GenerateMethod` emits the body of a method that looks for a function in a Lua table, calls it
with the table in front of the arguments, and calls the method of the base class if there is
none. This module has the instructions that it uses, what they do, and the code that it emits
for a method. The frame of a run records the calls that leave the library.
-/

namespace UnityLua

open Library

variable {N Obj : Type}

/-- `Type.IsValueType`. -/
def ClrType.isValueType : ClrType → Bool
  | .void | .integral _ | .double | .float | .decimal | .bool | .valueType _ | .nullable _ => true
  | _ => false

/-- A parameter, as far as the generated code depends on it. -/
structure Parameter where
  parameterType : ClrType
  isIn : Bool
  isOut : Bool
  deriving DecidableEq, Repr

/-- An instance method. -/
structure MethodInfo where
  token : ℕ
  name : String
  isPrivate : Bool
  isFinal : Bool
  isVirtual : Bool
  isAbstract : Bool
  returnType : ClrType
  parameters : List Parameter
  deriving DecidableEq, Repr

/-- The instructions. Arguments and parameters count from zero, without the receiver. -/
inductive Instr
  | Ldarg_0
  | Ldarg (i : ℕ)
  | Ldloc (k : ℕ)
  | Stloc (k : ℕ)
  | Ldc_I4 (n : ℕ)
  | Ldc_I4_0
  | Ldnull
  | Ldstr (s : String)
  | LdfldLuaTable
  | LdfldReturnTypes
  | NewarrObject
  | NewarrInt
  | Ldelem_Ref
  | Stelem_Ref
  | Stelem_I4
  | Ldobj (type : ClrType)
  | Stobj (type : ClrType)
  | Box (type : ClrType)
  | Unbox (type : ClrType)
  | Castclass (type : ClrType)
  | Ldind_Ref
  | Stind_Ref
  | Dup
  | Pop
  | CallGetTableFunction
  | CallCallFunction
  | CallMethod (method : MethodInfo)
  deriving DecidableEq, Repr

/-! ### The emitted code -/

/-- Emits one instruction after the other. -/
def emit (is : List Instr) : List (Op Instr) := is.map .plain

namespace Parameter

def isByRef (p : Parameter) : Bool := p.parameterType.isByRef

/-- The Lua function gets the argument of such a parameter. -/
def isInArg (p : Parameter) : Bool := p.isIn || !p.isOut

/-- Makes an object of the argument that was loaded. -/
def toObject (p : Parameter) : List Instr :=
  if p.isByRef then
    if p.parameterType.elementType.isValueType then
      [.Ldobj p.parameterType.elementType, .Box p.parameterType.elementType]
    else [.Ldind_Ref]
  else if p.parameterType.isValueType then [.Box p.parameterType] else []

/-- One round of the loop that stores the arguments. -/
def storeArg (p : Parameter) (iArgs iInArgs iOutArgs : ℕ) : List Instr :=
  [.Ldloc 0, .Ldc_I4 iArgs, .Ldarg iArgs] ++ p.toObject ++ [.Stelem_Ref] ++
    (if p.isByRef then [.Ldloc 2, .Ldc_I4 iOutArgs, .Ldc_I4 iArgs, .Stelem_I4] else []) ++
    (if p.isInArg then [.Ldloc 1, .Ldc_I4 iInArgs, .Ldarg iArgs] ++ p.toObject ++ [.Stelem_Ref]
      else [])

/-- The loop that stores the arguments into the local arrays. -/
def storeArgs : List Parameter → ℕ → ℕ → ℕ → List Instr
  | [], _, _, _ => []
  | p :: ps, iArgs, iInArgs, iOutArgs =>
      p.storeArg iArgs iInArgs iOutArgs ++
        storeArgs ps (iArgs + 1) (if p.isInArg then iInArgs + 1 else iInArgs)
          (if p.isByRef then iOutArgs + 1 else iOutArgs)

/-- Sets the parameter from its place in the array of arguments. -/
def setRef (p : Parameter) (i : ℕ) : List Instr :=
  [.Ldarg i, .Ldloc 0, .Ldc_I4 i, .Ldelem_Ref] ++
    if p.parameterType.elementType.isValueType then
      [.Unbox p.parameterType.elementType, .Ldobj p.parameterType.elementType,
        .Stobj p.parameterType.elementType]
    else [.Castclass p.parameterType.elementType, .Stind_Ref]

/-- The loop over the parameters passed by reference. -/
def setRefs : List Parameter → ℕ → List Instr
  | [], _ => []
  | p :: ps, i => (if p.isByRef then p.setRef i else []) ++ setRefs ps (i + 1)

/-- The places of the parameters passed by reference, the first parameter being number `i`. -/
def refArgs : List Parameter → ℕ → List ℕ
  | [], _ => []
  | p :: ps, i => (if p.isByRef then [i] else []) ++ refArgs ps (i + 1)

end Parameter

namespace MethodInfo

variable (method : MethodInfo)

def isVoid : Bool := method.returnType == .void

def nOutParams : ℕ := (method.parameters.filter fun p => !p.isIn && p.isOut).length

def nOutAndRefParams : ℕ := (method.parameters.filter Parameter.isByRef).length

/-- The types that the values of the Lua function are converted to. -/
def returnTypes : List ClrType :=
  method.returnType ::
    ((method.parameters.filter Parameter.isByRef).map fun p => p.parameterType.elementType)

/-- Creates the local arrays, and puts the table in front of the arguments. -/
def initLocals : List Instr :=
  [.Ldc_I4 method.parameters.length, .NewarrObject, .Stloc 0,
    .Ldc_I4 (method.parameters.length - method.nOutParams + 1), .NewarrObject, .Stloc 1,
    .Ldc_I4 method.nOutAndRefParams, .NewarrInt, .Stloc 2,
    .Ldloc 1, .Ldc_I4_0, .Ldarg_0, .LdfldLuaTable, .Stelem_Ref]

/-- Looks for the function; what was found stays below for the test. -/
def findFunction : List Instr :=
  [.Ldarg_0, .LdfldLuaTable, .Ldstr method.name, .CallGetTableFunction, .Dup]

/-- The call of the base method. -/
def callBase : List Instr :=
  [.Ldarg_0] ++ (List.range method.parameters.length).map .Ldarg ++ [.CallMethod method] ++
    if method.isVoid then [.Pop] else []

/-- The branch for a function that does not exist. -/
def withoutFunction : List (Op Instr) :=
  if method.isAbstract then emit [.Ldnull] else emit method.callBase ++ [.ret] ++ emit [.Ldnull]

/-- The branch for a function that exists. -/
def withFunction (methodIndex : ℕ) : List Instr :=
  [.Ldloc 0, .Ldarg_0, .LdfldReturnTypes, .Ldc_I4 methodIndex, .Ldelem_Ref, .Ldloc 1, .Ldloc 2,
    .CallCallFunction]

/-- Stores the value that was returned. -/
def storeReturn : List Instr :=
  (if method.isVoid then [.Pop, .Ldnull]
    else if method.returnType.isValueType then
      [.Unbox method.returnType, .Ldobj method.returnType]
    else [.Castclass method.returnType]) ++ [.Stloc 3]

/-- The end of the code: the result and the parameters passed by reference. -/
def finish : List Instr :=
  method.storeReturn ++ Parameter.setRefs method.parameters 0 ++
    if method.isVoid then [] else [.Ldloc 3]

/-- The code of the override, with the labels `lab1` as 1 and `lab2` as 2. -/
def override (methodIndex : ℕ) : List (Op Instr) :=
  emit (method.initLocals ++ Parameter.storeArgs method.parameters 0 1 0 ++ method.findFunction) ++
    ([.brtrue 1] ++ (emit [.Pop] ++ (method.withoutFunction ++ ([.br 2] ++ ([.mark 1] ++
      (emit (withFunction methodIndex) ++ ([.mark 2] ++ (emit method.finish ++ [.ret]))))))))

/-- The code of the method that calls the base method, for the field `base` of the table. -/
def baseCall : List (Op Instr) :=
  emit ([.Ldarg_0] ++ (List.range method.parameters.length).map .Ldarg ++ [.CallMethod method]) ++
    [.ret]

end MethodInfo

/-! ### The check -/

/-- How many values an instruction takes from the stack and how many it leaves. -/
def Instr.effect : Instr → ℕ × ℕ
  | .Ldarg_0 | .Ldarg _ | .Ldloc _ | .Ldc_I4 _ | .Ldc_I4_0 | .Ldnull | .Ldstr _ => (0, 1)
  | .Stloc _ | .Pop => (1, 0)
  | .LdfldLuaTable | .LdfldReturnTypes | .NewarrObject | .NewarrInt | .Ldobj _ | .Box _
  | .Unbox _ | .Castclass _ | .Ldind_Ref => (1, 1)
  | .Ldelem_Ref | .CallGetTableFunction => (2, 1)
  | .Stelem_Ref | .Stelem_I4 => (3, 0)
  | .Stobj _ | .Stind_Ref => (2, 0)
  | .Dup => (1, 2)
  | .CallCallFunction => (5, 1)
  | .CallMethod m => (m.parameters.length + 1, if m.isVoid then 0 else 1)

/-- The bytes of an instruction. `Emit(OpCodes.Ldarg, i)` with an `int` writes four bytes for
an operand of two; the other two read as `nop`. -/
def Instr.size : Instr → ℕ
  | .Ldarg_0 | .Ldloc _ | .Stloc _ | .Ldc_I4_0 | .Ldnull | .Ldelem_Ref | .Stelem_Ref | .Stelem_I4
  | .Ldind_Ref | .Stind_Ref | .Dup | .Pop => 1
  | .Ldarg _ => 6
  | .Ldc_I4 _ | .Ldstr _ | .LdfldLuaTable | .LdfldReturnTypes | .NewarrObject | .NewarrInt
  | .Ldobj _ | .Stobj _ | .Box _ | .Unbox _ | .Castclass _ | .CallGetTableFunction
  | .CallCallFunction | .CallMethod _ => 5

/-- The just-in-time compiler takes the code for a method. -/
def MethodInfo.compiles (method : MethodInfo) (code : List (Op Instr)) : Bool :=
  check Instr.effect (if method.isVoid then 0 else 1) code (some 0) (fun _ => none) &&
    reaches Instr.size code

/-! ### Running the code -/

/-- What is on the stack, in a local variable, or in an array. An argument passed by reference
is an address. -/
inductive Item (N Obj : Type)
  | null
  | value (v : ClrValue N Obj)
  | this
  | int (n : ℕ)
  | string (s : String)
  | address (i : ℕ)
  | array (a : ℕ)
  | types (ts : Option (List ClrType))
  | typeTable (ts : List (Option (List ClrType)))

/-- A value that may be `null`. -/
def Item.ofOption : Option (ClrValue N Obj) → Item N Obj
  | none => .null
  | some v => .value v

/-- The item of an argument. -/
def item (cells : List (Option (ClrValue N Obj))) (i : ℕ) : Item N Obj :=
  .ofOption (cells.getD i none)

/-- What an argument is passed as: an address if it is passed by reference. -/
def passed (parameters : List Parameter) (cells : List (Option (ClrValue N Obj))) (i : ℕ) :
    Item N Obj :=
  match parameters[i]? with
  | some p => if p.isByRef then .address i else item cells i
  | none => .null

/-- A call that leaves the library: of a Lua function, with its arguments, the types for what
it returns and the places of the parameters passed by reference; or of a base method, with the
receiver and the arguments. -/
inductive Event (N Obj : Type)
  | function (f : LuaValue N) (inArgs : List (Item N Obj)) (returnTypes : Option (List ClrType))
      (outArgs : List (Item N Obj))
  | base (method : MethodInfo) (args : List (Item N Obj))

/-- The frame of a call. The arguments are kept in `cells`, and `heap` has the arrays. -/
structure Frame (N Obj : Type) where
  stack : List (Item N Obj)
  locals : ℕ → Item N Obj
  heap : List (List (Item N Obj))
  cells : List (Option (ClrValue N Obj))
  trace : List (Event N Obj)

/-- The object that the method is called on, and what the calls do. -/
structure CallContext (N Obj : Type) where
  luaTable : LuaValue N
  returnTypes : List (Option (List ClrType))
  parameters : List Parameter
  /-- `LuaTable.rawget`. -/
  rawget : LuaValue N → String → Option (ClrValue N Obj)
  /-- `LuaFunction.call` with return types; `none` is an exception. -/
  call : LuaValue N → List (Item N Obj) → Option (List ClrType) →
    Option (List (Option (ClrValue N Obj)))
  /-- What a base method returns; `none` is an exception. -/
  base : MethodInfo → List (Item N Obj) → Option (Item N Obj)
  /-- A value is of the type. -/
  isInstance : ClrType → Item N Obj → Bool

namespace LuaClassHelper

/-- `LuaClassHelper.getTableFunction`. -/
def getTableFunction (o : CallContext N Obj) (luaTable : LuaValue N) (name : String) :
    Option (LuaValue N) :=
  match o.rawget luaTable name with
  | some (.luaFunction f) => some f
  | _ => none

/-- The loop of `callFunction` over the parameters passed by reference. -/
def storeOuts (returnValues : List (Option (ClrValue N Obj))) :
    List (Item N Obj) → ℕ → List (Item N Obj) → Option (List (Item N Obj))
  | [], _, args => some args
  | .int out :: outArgs, iRefArgs, args =>
      match returnValues[iRefArgs]? with
      | some v => if out < args.length then
          storeOuts returnValues outArgs (iRefArgs + 1) (args.set out (.ofOption v)) else none
      | none => none
  | _ :: _, _, _ => none

/-- `LuaClassHelper.callFunction`: the value and the array of arguments. -/
def callFunction (o : CallContext N Obj) (function : LuaValue N) (args : List (Item N Obj))
    (returnTypes : Option (List ClrType)) (inArgs outArgs : List (Item N Obj)) :
    Option (Item N Obj × List (Item N Obj)) := do
  let returnValues ← o.call function inArgs returnTypes
  let types ← returnTypes
  let first ← types.head?
  if first = .void then
    let args ← storeOuts returnValues outArgs 0 args
    some (.null, args)
  else
    let returnValue ← returnValues.head?
    let args ← storeOuts returnValues outArgs 1 args
    some (.ofOption returnValue, args)

end LuaClassHelper

namespace Frame

def push (x : Item N Obj) (f : Frame N Obj) : Frame N Obj := { f with stack := x :: f.stack }

/-- The array that an item refers to. -/
def array (f : Frame N Obj) (a : ℕ) : List (Item N Obj) := f.heap.getD a []

end Frame

/-- What an instruction does. Where an operand is not of the kind that the instruction needs,
it raises an exception. -/
def Instr.step (o : CallContext N Obj) (i : Instr) (f : Frame N Obj) :
    Except (Frame N Obj) (Frame N Obj) :=
  match i, f.stack with
  | .Ldarg_0, _ => .ok (f.push .this)
  | .Ldarg i, _ => .ok (f.push (passed o.parameters f.cells i))
  | .Ldloc k, _ => .ok (f.push (f.locals k))
  | .Stloc k, x :: st => .ok { f with stack := st, locals := Function.update f.locals k x }
  | .Ldc_I4 n, _ => .ok (f.push (.int n))
  | .Ldc_I4_0, _ => .ok (f.push (.int 0))
  | .Ldnull, _ => .ok (f.push .null)
  | .Ldstr s, _ => .ok (f.push (.string s))
  | .LdfldLuaTable, .this :: st =>
      .ok { f with stack := .value (.luaTable o.luaTable) :: st }
  | .LdfldReturnTypes, .this :: st => .ok { f with stack := .typeTable o.returnTypes :: st }
  | .NewarrObject, .int n :: st =>
      .ok { f with stack := .array f.heap.length :: st
                   heap := f.heap ++ [List.replicate n .null] }
  | .NewarrInt, .int n :: st =>
      .ok { f with stack := .array f.heap.length :: st
                   heap := f.heap ++ [List.replicate n (.int 0)] }
  | .Ldelem_Ref, .int n :: .typeTable ts :: st =>
      match ts[n]? with
      | some t => .ok { f with stack := .types t :: st }
      | none => .error f
  | .Ldelem_Ref, .int n :: .array a :: st =>
      match (f.array a)[n]? with
      | some x => .ok { f with stack := x :: st }
      | none => .error f
  | .Stelem_Ref, x :: .int n :: .array a :: st | .Stelem_I4, x :: .int n :: .array a :: st =>
      if n < (f.array a).length then
        .ok { f with stack := st, heap := f.heap.set a ((f.array a).set n x) }
      else .error f
  | .Ldobj _, .address i :: st | .Ldind_Ref, .address i :: st =>
      .ok { f with stack := .ofOption (f.cells.getD i none) :: st }
  | .Ldobj _, .value v :: st => .ok { f with stack := .value v :: st }
  | .Stobj _, .value v :: .address i :: st | .Stind_Ref, .value v :: .address i :: st =>
      .ok { f with stack := st, cells := f.cells.set i (some v) }
  | .Stind_Ref, .null :: .address i :: st => .ok { f with stack := st, cells := f.cells.set i none }
  | .Box _, x :: st => .ok { f with stack := x :: st }
  | .Unbox t, .value v :: st =>
      if o.isInstance t (.value v) then .ok { f with stack := .value v :: st } else .error f
  | .Castclass _, .null :: st => .ok { f with stack := .null :: st }
  | .Castclass t, .value v :: st =>
      if o.isInstance t (.value v) then .ok { f with stack := .value v :: st } else .error f
  | .Dup, x :: st => .ok { f with stack := x :: x :: st }
  | .Pop, _ :: st => .ok { f with stack := st }
  | .CallGetTableFunction, .string name :: .value (.luaTable t) :: st =>
      match LuaClassHelper.getTableFunction o t name with
      | some g => .ok { f with stack := .value (.luaFunction g) :: st }
      | none => .ok { f with stack := .null :: st }
  | .CallCallFunction, .array outs :: .array ins :: .types ts :: .array args ::
        .value (.luaFunction g) :: st =>
      let f := { f with stack := st
                        trace := f.trace ++ [.function g (f.array ins) ts (f.array outs)] }
      match LuaClassHelper.callFunction o g (f.array args) ts (f.array ins) (f.array outs) with
      | some (x, array) => .ok { f with stack := x :: st, heap := f.heap.set args array }
      | none => .error f
  | .CallMethod m, st =>
      let args := (st.take (m.parameters.length + 1)).reverse
      let f := { f with stack := st.drop (m.parameters.length + 1)
                        trace := f.trace ++ [.base m args] }
      match o.base m args with
      | some x => if m.isVoid then .ok f else .ok (f.push x)
      | none => .error f
  | _, _ => .error f

/-- The test of a reference for `null`. -/
def Frame.test (f : Frame N Obj) : Option (Bool × Frame N Obj) :=
  match f.stack with
  | [] => none
  | .null :: st => some (false, { f with stack := st })
  | _ :: st => some (true, { f with stack := st })

/-- The meaning of the instructions in a call. -/
def CallContext.sem (o : CallContext N Obj) : Sem Instr (Frame N Obj) where
  step := Instr.step o
  test := Frame.test

/-- The frame at the beginning of a call. -/
def Frame.start (args : List (Option (ClrValue N Obj))) : Frame N Obj where
  stack := []
  locals _ := .null
  heap := []
  cells := args
  trace := []

/-! ### Single instructions -/

section Instructions

variable {o : CallContext N Obj} {f : Frame N Obj} {x : Item N Obj} {st : List (Item N Obj)}
  {a n : ℕ}

theorem step_Ldarg (i : ℕ) :
    o.sem.step (.Ldarg i) f = .ok (f.push (passed o.parameters f.cells i)) := rfl

theorem step_Stloc {k : ℕ} (hst : f.stack = x :: st) :
    o.sem.step (.Stloc k) f =
      .ok { f with stack := st, locals := Function.update f.locals k x } := by
  obtain ⟨stack, locals, heap, cells, trace⟩ := f
  obtain rfl : stack = x :: st := hst
  rfl

theorem step_Pop (hst : f.stack = x :: st) : o.sem.step .Pop f = .ok { f with stack := st } := by
  obtain ⟨stack, locals, heap, cells, trace⟩ := f
  obtain rfl : stack = x :: st := hst
  rfl

theorem step_Ldelem_Ref (hst : f.stack = .int n :: .array a :: st)
    (hx : (f.array a)[n]? = some x) :
    o.sem.step .Ldelem_Ref f = .ok { f with stack := x :: st } := by
  obtain ⟨stack, locals, heap, cells, trace⟩ := f
  obtain rfl : stack = .int n :: .array a :: st := hst
  delta CallContext.sem Instr.step
  dsimp only
  rw [hx]

theorem step_Ldelem_Ref_types {ts : List (Option (List ClrType))} {t : Option (List ClrType)}
    (hst : f.stack = .int n :: .typeTable ts :: st) (ht : ts[n]? = some t) :
    o.sem.step .Ldelem_Ref f = .ok { f with stack := .types t :: st } := by
  obtain ⟨stack, locals, heap, cells, trace⟩ := f
  obtain rfl : stack = .int n :: .typeTable ts :: st := hst
  delta CallContext.sem Instr.step
  dsimp only
  rw [ht]

theorem step_Stelem_Ref (hst : f.stack = x :: .int n :: .array a :: st)
    (hn : n < (f.array a).length) :
    o.sem.step .Stelem_Ref f =
      .ok { f with stack := st, heap := f.heap.set a ((f.array a).set n x) } := by
  obtain ⟨stack, locals, heap, cells, trace⟩ := f
  obtain rfl : stack = x :: .int n :: .array a :: st := hst
  exact if_pos hn

theorem step_Stelem_I4 (hst : f.stack = x :: .int n :: .array a :: st)
    (hn : n < (f.array a).length) :
    o.sem.step .Stelem_I4 f =
      .ok { f with stack := st, heap := f.heap.set a ((f.array a).set n x) } := by
  obtain ⟨stack, locals, heap, cells, trace⟩ := f
  obtain rfl : stack = x :: .int n :: .array a :: st := hst
  exact if_pos hn

end Instructions

end UnityLua
