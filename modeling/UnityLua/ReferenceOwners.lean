import UnityLua.Library.RefTable
import UnityLua.Library.Run

/-!
# Owners of registry references

The CLR side keeps Lua values alive through references into the registry. A `LuaTable`, a
`LuaFunction` or a `LuaUserData` (the wrappers, all `LuaBase`) holds the reference that
`getTable`, `getFunction` or `getUserData` got for a stack slot, a `LuaThread` holds the one
it got for its coroutine. Each class releases its reference in a `Dispose` of its own:
`LuaBase.Dispose` looks at a flag first, `LuaThread.Dispose` does not. The `push` methods
of the wrappers use the saved reference and do not look at the flag either.
-/

open Library

namespace UnityLua

variable {V : Type}

/-- The classes that hold registry references. -/
inductive OwnerKind
  | luaTable
  | luaFunction
  | luaUserData
  | luaThread
  deriving DecidableEq, Repr

/-- An object that holds a reference, and the value it was created for (`none` is `nil`).
A `LuaFunction` made of a CLR delegate holds the reference `0`, which is none. `released`
counts the calls of `luaL_unref`; `disposed` is the flag `_Disposed` of a wrapper, and says
of a `LuaThread`, which has no such flag, that its `Dispose` was called. -/
structure Owner (V : Type) where
  kind : OwnerKind
  reference : ℤ
  created : Option V
  disposed : Bool := false
  released : ℕ := 0
  deriving Repr

/-- The registry and every owner ever made. -/
structure ReferenceOwners (V : Type) where
  registry : RefTable V
  owners : List (Owner V)

namespace ReferenceOwners

def initial : ReferenceOwners V := ⟨RefTable.empty, []⟩

/-- The `k`-th owner ever made, in its present condition. -/
def At (s : ReferenceOwners V) (k : ℕ) (o : Owner V) : Prop := s.owners[k]? = some o

/-! ### Operations -/

/-- A new owner around a reference that `luaL_ref` gave for the value. -/
def newOwner (h : Host V) (s : ReferenceOwners V) (kind : OwnerKind) (v : Option V) :
    ReferenceOwners V :=
  let (ref, registry) := RefTable.luaL_ref h s.registry v
  ⟨registry, s.owners ++ [{ kind := kind, reference := ref, created := v }]⟩

def getTable (h : Host V) (s : ReferenceOwners V) (v : Option V) : ReferenceOwners V :=
  newOwner h s .luaTable v

def getFunction (h : Host V) (s : ReferenceOwners V) (v : Option V) : ReferenceOwners V :=
  newOwner h s .luaFunction v

def getUserData (h : Host V) (s : ReferenceOwners V) (v : Option V) : ReferenceOwners V :=
  newOwner h s .luaUserData v

/-- The constructor of `LuaThread`: the new coroutine is never `nil`. -/
def newThread (h : Host V) (s : ReferenceOwners V) (coroutine : V) : ReferenceOwners V :=
  newOwner h s .luaThread (some coroutine)

/-- `LuaFunction(LuaCSFunction function, ...)`. -/
def newCSFunction (s : ReferenceOwners V) (function : V) : ReferenceOwners V :=
  ⟨s.registry,
    s.owners ++ [{ kind := .luaFunction, reference := 0, created := some function }]⟩

/-- Releases the reference of the `k`-th owner. -/
def unref (s : ReferenceOwners V) (k : ℕ) (o : Owner V) : ReferenceOwners V :=
  ⟨RefTable.luaL_unref s.registry o.reference,
    s.owners.modify k fun o => { o with released := o.released + 1 }⟩

/-- Marks the `k`-th owner as disposed. -/
def setDisposed (s : ReferenceOwners V) (k : ℕ) : ReferenceOwners V :=
  ⟨s.registry, s.owners.modify k fun o => { o with disposed := true }⟩

/-- `LuaBase.Dispose(bool)`; the finalizer calls it with `false`. -/
def disposeBase (s : ReferenceOwners V) (k : ℕ) (o : Owner V)
    (disposeManagedResources : Bool) : ReferenceOwners V :=
  if o.disposed then s
  else if disposeManagedResources = true ∧ o.reference ≠ 0 then setDisposed (unref s k o) k
  else setDisposed s k

/-- `LuaThread.Dispose(bool)`. -/
def disposeThread (s : ReferenceOwners V) (k : ℕ) (o : Owner V) (dispose : Bool) :
    ReferenceOwners V :=
  if dispose then setDisposed (unref s k o) k else s

/-- What a `push` method puts on the stack, unless it fails. -/
inductive PushResult (V : Type)
  | pushed (s : Slot V)
  | failed
  deriving DecidableEq, Repr

/-- The stack slot that holds a value. -/
def slotOf : Option V → Slot V
  | none => .nil
  | some v => .value v

/-- The `push` methods of the wrappers. A function without a reference goes through
`_Interpreter`, which is `null` after `Dispose`. -/
def push (s : ReferenceOwners V) (o : Owner V) : PushResult V :=
  match o.kind with
  | .luaFunction =>
      if o.reference ≠ 0 then .pushed (s.registry.rawgeti o.reference)
      else if o.disposed then .failed
      else .pushed (slotOf o.created)
  | _ => .pushed (s.registry.rawgeti o.reference)

/-- What can happen to references and owners. -/
inductive Event (V : Type)
  | getTable (v : Option V)
  | getFunction (v : Option V)
  | getUserData (v : Option V)
  | newCSFunction (function : V)
  | newThread (coroutine : V)
  | dispose (k : ℕ) (disposeManagedResources : Bool)
  | disposeThread (k : ℕ) (dispose : Bool)
  deriving DecidableEq, Repr

def step (h : Host V) (s : ReferenceOwners V) : Event V → Option (ReferenceOwners V)
  | .getTable v => some (getTable h s v)
  | .getFunction v => some (getFunction h s v)
  | .getUserData v => some (getUserData h s v)
  | .newCSFunction f => some (newCSFunction s f)
  | .newThread v => some (newThread h s v)
  | .dispose k managed =>
      match s.owners[k]? with
      | some o => if o.kind = .luaThread then none else some (disposeBase s k o managed)
      | none => none
  | .disposeThread k dispose =>
      match s.owners[k]? with
      | some o => if o.kind = .luaThread then some (disposeThread s k o dispose) else none
      | none => none

end ReferenceOwners

end UnityLua
