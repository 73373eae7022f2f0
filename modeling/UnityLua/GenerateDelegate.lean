import UnityLua.Library.StackPaths
import UnityLua.OverrideCode

/-!
# The code of a delegate

`GenerateDelegate` emits the body of a method with the signature of a delegate type. It stores
the arguments into arrays, calls `LuaDelegate.callFunction`, and returns and stores what that
call has left. It shares its instructions and most of its code with `GenerateMethod`.
-/

namespace UnityLua

open Library

variable {N Obj : Type}

/-- The instructions of `GenerateMethod`, and the call of `LuaDelegate.callFunction`. -/
inductive DelegateInstr
  | shared (i : Instr)
  | CallCallFunction
  deriving DecidableEq, Repr

/-- Emits instructions that an override has as well. -/
def emitShared (is : List Instr) : List (Op DelegateInstr) := (is.map .shared).map .plain

/-- Creates the local arrays. -/
def MethodInfo.initDelegateLocals (invokeMethod : MethodInfo) : List Instr :=
  [.Ldc_I4 invokeMethod.parameters.length, .NewarrObject, .Stloc 0,
    .Ldc_I4 (invokeMethod.parameters.length - invokeMethod.nOutParams), .NewarrObject, .Stloc 1,
    .Ldc_I4 invokeMethod.nOutAndRefParams, .NewarrInt, .Stloc 2]

/-- The code up to the call. -/
def MethodInfo.beginDelegate (invokeMethod : MethodInfo) : List Instr :=
  invokeMethod.initDelegateLocals ++ Parameter.storeArgs invokeMethod.parameters 0 0 0 ++
    [.Ldarg_0, .Ldloc 0, .Ldloc 1, .Ldloc 2]

/-- `GenerateDelegate`, for the `Invoke` method of the delegate type. -/
def GenerateDelegate (invokeMethod : MethodInfo) : List (Op DelegateInstr) :=
  emitShared invokeMethod.beginDelegate ++
    ([.plain .CallCallFunction] ++ (emitShared invokeMethod.finish ++ [.ret]))

/-- How many values an instruction takes and leaves. -/
def DelegateInstr.effect : DelegateInstr → ℕ × ℕ
  | .shared i => i.effect
  | .CallCallFunction => (4, 1)

/-! ### Running the code -/

/-- A call of `LuaDelegate.callFunction`, with the arrays as they are then. -/
structure DelegateCall (N Obj : Type) where
  args : List (Item N Obj)
  inArgs : List (Item N Obj)
  outArgs : List (Item N Obj)

/-- The frame of a call of the delegate. -/
structure DelegateFrame (N Obj : Type) where
  frame : Frame N Obj
  calls : List (DelegateCall N Obj)

/-- What a run depends on: `LuaDelegate.callFunction`, which gives a value and changes the array
of arguments or throws, and the types of the values. -/
structure DelegateContext (N Obj : Type) where
  callFunction : DelegateCall N Obj → Option (Item N Obj × List (Item N Obj))
  isInstance : ClrType → Item N Obj → Bool

namespace DelegateContext

/-- The shared instructions run as in an override. There is no table that they could ask. -/
def shared (o : DelegateContext N Obj) (invokeMethod : MethodInfo) : CallContext N Obj where
  luaTable := .nil
  returnTypes := []
  parameters := invokeMethod.parameters
  rawget _ _ := none
  call _ _ _ := none
  base _ _ := none
  isInstance := o.isInstance

end DelegateContext

/-- What an instruction does. -/
def DelegateInstr.step (o : DelegateContext N Obj) (invokeMethod : MethodInfo)
    (i : DelegateInstr) (f : DelegateFrame N Obj) :
    Except (DelegateFrame N Obj) (DelegateFrame N Obj) :=
  match i with
  | .shared i =>
      match i.step (o.shared invokeMethod) f.frame with
      | .ok g => .ok { f with frame := g }
      | .error g => .error { f with frame := g }
  | .CallCallFunction =>
      match f.frame.stack with
      | .array outs :: .array ins :: .array args :: .this :: st =>
          let call : DelegateCall N Obj :=
            ⟨f.frame.array args, f.frame.array ins, f.frame.array outs⟩
          let f := { f with calls := f.calls ++ [call] }
          match o.callFunction call with
          | some (x, array) =>
              .ok { f with frame := { f.frame with stack := x :: st
                                                   heap := f.frame.heap.set args array } }
          | none => .error f
      | _ => .error f

/-- The meaning of the instructions in a call of the delegate. -/
def DelegateContext.sem (o : DelegateContext N Obj) (invokeMethod : MethodInfo) :
    Sem DelegateInstr (DelegateFrame N Obj) where
  step := DelegateInstr.step o invokeMethod
  test f := f.frame.test.map fun (b, g) => (b, { f with frame := g })

/-- The frame at the beginning of a call. -/
def DelegateFrame.start (args : List (Option (ClrValue N Obj))) : DelegateFrame N Obj where
  frame := .start args
  calls := []

end UnityLua
