import UnityLua.CheckType
import UnityLua.Library.Program

/-!
# The Lua stack

The functions of the Lua API that the library calls, by their effect on the stack of the
running function. What they do inside Lua (tables with their metamethods, chunks, calls) is
asked from a `Vm`; how many slots they take and leave is as in the implementation.

A Lua error outside a protected call ends in the panic function, which throws a
`LuaException`.

## Main results

* `LuaSetTop_above` and the other `.._above` theorems: from a stack with `n` slots above `s`,
  how many are above `s` afterwards.
-/

namespace UnityLua

open Library

variable {N Obj W : Type}

/-- The exceptions for errors of the script: one that came through Lua, or a new one. -/
inductive ScriptException (Obj : Type)
  | rethrown (o : Obj)
  | error (message : String)

/-- The exceptions of the library: `LuaScriptException`, the `LuaException` of the panic
function or a full stack, and any other. -/
inductive LuaFault (Obj : Type)
  | script (e : ScriptException Obj)
  | lua
  | clr (e : Exn)

/-- The running function with its stack, top first, and everything else. -/
structure Machine (N W : Type) where
  callee : LuaValue N
  stack : List (LuaValue N)
  world : W

/-- What the library does with a Lua state. -/
abbrev LuaM (N Obj W : Type) := Prog (Machine N W) (LuaFault Obj)

/-- A text file among the resources, with its length in bytes. -/
structure TextAsset where
  text : String
  bytes : ℕ

/-- What is known of a registered object when it is pushed. -/
inductive ObjectKind (N : Type)
  | plain
  | destroyed
  | generated (luaTable : Option (LuaValue N))
  | csFunction

/-- The functions of the library that are pushed as C functions. -/
inductive CFunction
  | tracebackFunction
  | gcFunction
  | toStringFunction
  | newindexFunction

/-- Lua and the registry of objects, over the worlds `W`. `none` is a Lua error. -/
structure Vm (N Obj W : Type) where
  env : W → LuaEnv N Obj
  ofNat : ℕ → N
  ofInt : ℤ → N
  registry : LuaValue N
  globals : LuaValue N
  cFunction : CFunction → LuaValue N
  /-- `luanet_gettag`. -/
  tag : ℕ
  gettable : W → LuaValue N → LuaValue N → Option (LuaValue N × W)
  settable : W → LuaValue N → LuaValue N → LuaValue N → Option W
  rawget : W → LuaValue N → LuaValue N → LuaValue N
  rawset : W → LuaValue N → LuaValue N → LuaValue N → W
  createtable : W → LuaValue N × W
  newudata : W → ℕ → LuaValue N × W
  setmetatable : W → LuaValue N → LuaValue N → W
  setfenv : W → LuaValue N → LuaValue N → W
  /-- `luaL_ref` into the registry. -/
  ref : W → LuaValue N → W
  /-- The entries that `lua_next` goes through, from the first one on. -/
  entries : W → LuaValue N → Option (List (LuaValue N × LuaValue N))
  checkstack : ℕ → ℕ → Bool
  loadbuffer : W → String → ℕ → String → Except (LuaValue N) (LuaValue N) × W
  /-- The function, the arguments and the message handler. -/
  pcall : W → LuaValue N → List (LuaValue N) → Option (LuaValue N) →
    Except (LuaValue N) (List (LuaValue N)) × W
  resources : String → Option TextAsset
  isScriptException : Obj → Bool
  toString : ClrValue N Obj → String
  kind : Obj → ObjectKind N
  assemblyQualifiedName : ClrValue N Obj → String
  /-- The registry of objects: `objectsBackMap`, `addObject` and `collectObject`. -/
  tryGetValue : W → ClrValue N Obj → Option ℕ
  addObject : W → ClrValue N Obj → ℕ × W
  collectObject : W → ClrValue N Obj → ℕ → W

deriving instance Inhabited for LuaValue, Exn, ObjectKind, LuaEnv, Vm, Machine

/-- A place on the stack, counted from the bottom or from the top, or a pseudo-index. -/
inductive StackIndex
  | rel (i : ℤ)
  | LUA_REGISTRYINDEX
  | LUA_GLOBALSINDEX

namespace Machine

/-- How many slots are above a place. -/
def offset (m : Machine N W) : ℤ → ℕ
  | .ofNat n => m.stack.length - n
  | .negSucc k => k

/-- The value at a place (`index2adr`). Below the first slot lies the running function. -/
def value (vm : Vm N Obj W) (m : Machine N W) : StackIndex → LuaValue N
  | .rel (.ofNat n) => if n ≤ m.stack.length then (m.stack[m.stack.length - n]?).getD .nil else .nil
  | .rel (.negSucc k) => ((m.stack ++ [m.callee])[k]?).getD .nil
  | .LUA_REGISTRYINDEX => vm.registry
  | .LUA_GLOBALSINDEX => vm.globals

/-- Replaces the upper `k` slots by the given ones. -/
def replaceTop (m : Machine N W) (k : ℕ) (vs : List (LuaValue N)) (w : W) : Machine N W :=
  { m with stack := vs ++ m.stack.drop k, world := w }

end Machine

namespace LuaLib

/-! ### The functions -/

/-- What C reads of a string: it ends at the first NUL. -/
def cString (s : String) : String := String.ofList (s.toList.takeWhile (· ≠ '\x00'))

def LuaGetTop : LuaM N Obj W ℕ := Prog.gets fun m => m.stack.length

def LuaType (vm : Vm N Obj W) (i : ℤ) : LuaM N Obj W LuaTypes :=
  Prog.gets fun m => (m.value vm (.rel i)).luaType

def LuaCheckStack (vm : Vm N Obj W) (n : ℕ) : LuaM N Obj W Bool :=
  Prog.gets fun m => vm.checkstack m.stack.length n

/-- `lua_settop`, which fills up with nil or cuts off. -/
def LuaSetTop (i : ℤ) : LuaM N Obj W Unit :=
  Prog.modify fun m =>
    match i with
    | .ofNat n =>
        { m with stack := List.replicate (n - m.stack.length) .nil ++
                   m.stack.drop (m.stack.length - n) }
    | .negSucc k => { m with stack := m.stack.drop k }

def LuaPop (n : ℕ) : LuaM N Obj W Unit := LuaSetTop (-n - 1)

def push (v : LuaValue N) : LuaM N Obj W Unit :=
  Prog.modify fun m => m.replaceTop 0 [v] m.world

def LuaPushNil : LuaM N Obj W Unit := push .nil

def LuaPushNumber (n : N) : LuaM N Obj W Unit := push (.number n)

/-- `lua_pushstring` of the string as a C string. -/
def LuaPushString (s : String) : LuaM N Obj W Unit := push (.string (cString s))

def LuaPushBoolean (b : Bool) : LuaM N Obj W Unit := push (.boolean b)

/-- `lua_pushstdcallcfunction`. -/
def LuaPushStdCallCFunction (vm : Vm N Obj W) (f : CFunction) : LuaM N Obj W Unit :=
  push (vm.cFunction f)

def LuaPushValue (vm : Vm N Obj W) (i : ℤ) : LuaM N Obj W Unit :=
  Prog.modify fun m => m.replaceTop 0 [m.value vm (.rel i)] m.world

def LuaRemove (i : ℤ) : LuaM N Obj W Unit :=
  Prog.modify fun m => { m with stack := m.stack.eraseIdx (m.offset i) }

def LuaInsert (vm : Vm N Obj W) (i : ℤ) : LuaM N Obj W Unit :=
  Prog.modify fun m =>
    { m with stack := m.stack.tail.insertIdx (m.offset i) (m.value vm (.rel (-1))) }

/-- `lua_gettable`: the key on the top is replaced by the value. -/
def LuaGetTable (vm : Vm N Obj W) (i : StackIndex) : LuaM N Obj W Unit := fun m =>
  match vm.gettable m.world (m.value vm i) (m.value vm (.rel (-1))) with
  | none => (.error .lua, m)
  | some (v, w) => (.ok (), m.replaceTop 1 [v] w)

def LuaSetTable (vm : Vm N Obj W) (i : StackIndex) : LuaM N Obj W Unit := fun m =>
  match vm.settable m.world (m.value vm i) (m.value vm (.rel (-2))) (m.value vm (.rel (-1))) with
  | none => (.error .lua, m)
  | some w => (.ok (), m.replaceTop 2 [] w)

def LuaGetGlobal (vm : Vm N Obj W) (name : String) : LuaM N Obj W Unit := do
  LuaPushString name
  LuaGetTable vm .LUA_GLOBALSINDEX

def LuaSetGlobal (vm : Vm N Obj W) (name : String) : LuaM N Obj W Unit := do
  LuaPushString name
  LuaInsert vm (-2)
  LuaSetTable vm .LUA_GLOBALSINDEX

/-- `luaL_getmetatable`. -/
def LuaLGetMetaTable (vm : Vm N Obj W) (name : String) : LuaM N Obj W Unit := do
  LuaPushString name
  LuaGetTable vm .LUA_REGISTRYINDEX

def Lua_RawGet (vm : Vm N Obj W) (i : StackIndex) : LuaM N Obj W Unit :=
  Prog.modify fun m =>
    m.replaceTop 1 [vm.rawget m.world (m.value vm i) (m.value vm (.rel (-1)))] m.world

def LuaRawSet (vm : Vm N Obj W) (i : ℤ) : LuaM N Obj W Unit :=
  Prog.modify fun m => m.replaceTop 2 []
    (vm.rawset m.world (m.value vm (.rel i)) (m.value vm (.rel (-2))) (m.value vm (.rel (-1))))

def LuaRawGetI (vm : Vm N Obj W) (i : ℤ) (n : ℕ) : LuaM N Obj W Unit :=
  Prog.modify fun m =>
    m.replaceTop 0 [vm.rawget m.world (m.value vm (.rel i)) (.number (vm.ofNat n))] m.world

def LuaRawSetI (vm : Vm N Obj W) (i : ℤ) (n : ℕ) : LuaM N Obj W Unit :=
  Prog.modify fun m => m.replaceTop 1 []
    (vm.rawset m.world (m.value vm (.rel i)) (.number (vm.ofNat n)) (m.value vm (.rel (-1))))

def LuaNewTable (vm : Vm N Obj W) : LuaM N Obj W Unit :=
  Prog.modify fun m => m.replaceTop 0 [(vm.createtable m.world).1] (vm.createtable m.world).2

def LuaNetNewUdata (vm : Vm N Obj W) (index : ℕ) : LuaM N Obj W Unit :=
  Prog.modify fun m =>
    m.replaceTop 0 [(vm.newudata m.world index).1] (vm.newudata m.world index).2

def LuaSetMetaTable (vm : Vm N Obj W) (i : ℤ) : LuaM N Obj W Unit :=
  Prog.modify fun m => m.replaceTop 1 []
    (vm.setmetatable m.world (m.value vm (.rel i)) (m.value vm (.rel (-1))))

def LuaSetFEnv (vm : Vm N Obj W) (i : ℤ) : LuaM N Obj W Unit :=
  Prog.modify fun m => m.replaceTop 1 []
    (vm.setfenv m.world (m.value vm (.rel i)) (m.value vm (.rel (-1))))

/-- `luaL_newmetatable`: a table registered under the name. -/
def LuaLNewMetaTable (vm : Vm N Obj W) (name : String) : LuaM N Obj W Unit := do
  LuaLGetMetaTable vm name
  if (← LuaType vm (-1)) = .LUA_TNIL then
    LuaPop 1
    LuaNewTable vm
    LuaPushValue vm (-1)
    LuaPushString name
    LuaInsert vm (-2)
    LuaSetTable vm .LUA_REGISTRYINDEX

/-- `luaL_ref` into the registry. -/
def LuaLRef (vm : Vm N Obj W) : LuaM N Obj W Unit :=
  Prog.modify fun m => m.replaceTop 1 [] (vm.ref m.world (m.value vm (.rel (-1))))

/-- `lua_next`, when `rest` are the entries not yet visited. -/
def LuaNext (rest : List (LuaValue N × LuaValue N)) : LuaM N Obj W Bool := fun m =>
  match rest with
  | [] => (.ok false, m.replaceTop 1 [] m.world)
  | (k, v) :: _ => (.ok true, m.replaceTop 1 [v, k] m.world)

/-- `luaL_loadbuffer`, with the chunk or the message left on the stack. -/
def LuaL_LoadBuffer (vm : Vm N Obj W) (chunk : String) (size : ℕ) (name : String) :
    LuaM N Obj W ℕ := fun m =>
  match vm.loadbuffer m.world chunk size name with
  | (.ok f, w) => (.ok 0, m.replaceTop 0 [f] w)
  | (.error e, w) => (.ok 3, m.replaceTop 0 [e] w)

/-- `lua_pcall` for all results; `errfunc` is 0 or the place of the message handler. -/
def LuaPCall (vm : Vm N Obj W) (nargs : ℕ) (errfunc : ℤ) : LuaM N Obj W ℕ := fun m =>
  let handler := if errfunc = 0 then none else some (m.value vm (.rel errfunc))
  match vm.pcall m.world (m.value vm (.rel (.negSucc nargs))) (m.stack.take nargs).reverse
      handler with
  | (.ok results, w) => (.ok 0, m.replaceTop (nargs + 1) results.reverse w)
  | (.error e, w) => (.ok 2, m.replaceTop (nargs + 1) [e] w)

/-! ### Their effect on the stack -/

/-- There are `n` slots above the stack `s`. -/
def Above (s : List (LuaValue N)) (n : ℕ) (m : Machine N W) : Prop :=
  ∃ vs : List (LuaValue N), vs.length = n ∧ m.stack = vs ++ s

/-- A condition on the machine after a `LuaScriptException`; any other exception is let
pass. -/
def OnScript (R : Machine N W → Prop) : LuaFault Obj → Machine N W → Prop
  | .script _, m => R m
  | _, _ => True

variable {s : List (LuaValue N)} {n : ℕ} {R : Machine N W → Prop}

@[simp] theorem above_zero {m : Machine N W} : Above s 0 m ↔ m.stack = s := by
  constructor
  · rintro ⟨vs, hvs, hm⟩
    rw [hm, List.length_eq_zero_iff.mp hvs, List.nil_append]
  · intro hm
    exact ⟨[], rfl, hm⟩

theorem Above.length {m : Machine N W} (h : Above s n m) : m.stack.length = n + s.length := by
  obtain ⟨vs, hvs, hm⟩ := h
  rw [hm, List.length_append, hvs]

/-- Taking `k` of the slots above and leaving others. -/
theorem Above.replaceTop {m : Machine N W} {k : ℕ} (h : Above s (n + k) m)
    (vs : List (LuaValue N)) (w : W) : Above s (n + vs.length) (m.replaceTop k vs w) := by
  obtain ⟨us, hus, hm⟩ := h
  refine ⟨vs ++ us.drop k, ?_, ?_⟩
  · rw [List.length_append, List.length_drop, hus]
    omega
  · change vs ++ m.stack.drop k = _
    rw [hm, List.drop_append_of_le_length (by omega), List.append_assoc]

theorem LuaGetTop_above :
    Triple (Above s n) (LuaGetTop : LuaM N Obj W ℕ)
      (fun top m => top = n + s.length ∧ Above s n m) (OnScript R) :=
  .gets fun _ hm => ⟨hm.length, hm⟩

/-- The top of a stack with nothing above `s`, to be saved. -/
theorem LuaGetTop_zero :
    Triple (Above s 0) (LuaGetTop : LuaM N Obj W ℕ)
      (fun top m => top = s.length ∧ Above s 0 m) (OnScript R) :=
  .gets fun _ hm => ⟨by simpa using hm.length, hm⟩

/-- Setting the top to what it was leaves the stack that was there. -/
theorem LuaSetTop_above :
    Triple (Above s n) (LuaSetTop (s.length : ℕ) : LuaM N Obj W Unit) (fun _ => Above s 0)
      (OnScript R) := by
  refine .modify fun m hm => ?_
  obtain ⟨vs, hvs, hstack⟩ := hm
  simp [hstack, hvs]

theorem LuaPop_above (k : ℕ) :
    Triple (Above s (n + k)) (LuaPop k : LuaM N Obj W Unit) (fun _ => Above s n)
      (OnScript R) := by
  refine .modify fun m hm => ?_
  have hk : (-(k : ℤ) - 1) = .negSucc k := by omega
  rw [hk]
  exact hm.replaceTop [] m.world

theorem push_above (v : LuaValue N) :
    Triple (Above s n) (push v : LuaM N Obj W Unit) (fun _ => Above s (n + 1)) (OnScript R) :=
  .modify fun m hm => Above.replaceTop (k := 0) hm [v] m.world

theorem LuaPushValue_above (vm : Vm N Obj W) (i : ℤ) :
    Triple (Above s n) (LuaPushValue vm i) (fun _ => Above s (n + 1)) (OnScript R) :=
  .modify fun m hm => Above.replaceTop (k := 0) hm [_] m.world

theorem LuaType_above (vm : Vm N Obj W) (i : ℤ) :
    Triple (Above s n) (LuaType vm i) (fun _ => Above s n) (OnScript R) :=
  .gets fun _ hm => hm

theorem LuaCheckStack_above (vm : Vm N Obj W) (k : ℕ) :
    Triple (Above s n) (LuaCheckStack vm k) (fun _ => Above s n) (OnScript R) :=
  .gets fun _ hm => hm

/-- Removing one of the slots above. -/
theorem LuaRemove_above {k : ℕ} (hk : k ≤ n) :
    Triple (Above s (n + 1)) (LuaRemove (.negSucc k) : LuaM N Obj W Unit)
      (fun _ => Above s n) (OnScript R) := by
  refine .modify fun m hm => ?_
  obtain ⟨vs, hvs, hstack⟩ := hm
  refine ⟨vs.eraseIdx k, ?_, ?_⟩
  · rw [List.length_eraseIdx_of_lt (by omega), hvs]
    omega
  · change m.stack.eraseIdx k = _
    rw [hstack, List.eraseIdx_append_of_lt_length (by omega)]

/-- Exchanging the two upper slots. -/
theorem LuaInsert_above (vm : Vm N Obj W) :
    Triple (Above s (n + 2)) (LuaInsert vm (-2)) (fun _ => Above s (n + 2)) (OnScript R) := by
  refine .modify fun m hm => ?_
  obtain ⟨vs, hvs, hstack⟩ := hm
  match vs, hvs with
  | v :: u :: vs, hvs =>
      refine ⟨u :: m.value vm (.rel (-1)) :: vs, by simpa using hvs, ?_⟩
      change m.stack.tail.insertIdx 1 _ = _
      rw [hstack]
      rfl

theorem LuaGetTable_above (vm : Vm N Obj W) (i : StackIndex) :
    Triple (Above s (n + 1)) (LuaGetTable vm i) (fun _ => Above s (n + 1)) (OnScript R) := by
  intro m hm
  rw [LuaGetTable]
  split
  · trivial
  · exact hm.replaceTop [_] _

theorem LuaSetTable_above (vm : Vm N Obj W) (i : StackIndex) :
    Triple (Above s (n + 2)) (LuaSetTable vm i) (fun _ => Above s n) (OnScript R) := by
  intro m hm
  rw [LuaSetTable]
  split
  · trivial
  · exact hm.replaceTop [] _

theorem LuaGetGlobal_above (vm : Vm N Obj W) (name : String) :
    Triple (Above s n) (LuaGetGlobal vm name) (fun _ => Above s (n + 1)) (OnScript R) :=
  .bind (push_above _) fun _ => LuaGetTable_above vm _

theorem LuaSetGlobal_above (vm : Vm N Obj W) (name : String) :
    Triple (Above s (n + 1)) (LuaSetGlobal vm name) (fun _ => Above s n) (OnScript R) :=
  .bind (push_above _) fun _ =>
    .bind (LuaInsert_above vm) fun _ => LuaSetTable_above vm _

theorem LuaLGetMetaTable_above (vm : Vm N Obj W) (name : String) :
    Triple (Above s n) (LuaLGetMetaTable vm name) (fun _ => Above s (n + 1)) (OnScript R) :=
  .bind (push_above _) fun _ => LuaGetTable_above vm _

theorem Lua_RawGet_above (vm : Vm N Obj W) (i : StackIndex) :
    Triple (Above s (n + 1)) (Lua_RawGet vm i) (fun _ => Above s (n + 1)) (OnScript R) :=
  .modify fun _ hm => hm.replaceTop [_] _

theorem LuaRawSet_above (vm : Vm N Obj W) (i : ℤ) :
    Triple (Above s (n + 2)) (LuaRawSet vm i) (fun _ => Above s n) (OnScript R) :=
  .modify fun _ hm => hm.replaceTop [] _

theorem LuaRawGetI_above (vm : Vm N Obj W) (i : ℤ) (j : ℕ) :
    Triple (Above s n) (LuaRawGetI vm i j) (fun _ => Above s (n + 1)) (OnScript R) :=
  .modify fun _ hm => Above.replaceTop (k := 0) hm [_] _

theorem LuaRawSetI_above (vm : Vm N Obj W) (i : ℤ) (j : ℕ) :
    Triple (Above s (n + 1)) (LuaRawSetI vm i j) (fun _ => Above s n) (OnScript R) :=
  .modify fun _ hm => hm.replaceTop [] _

theorem LuaNewTable_above (vm : Vm N Obj W) :
    Triple (Above s n) (LuaNewTable vm) (fun _ => Above s (n + 1)) (OnScript R) :=
  .modify fun _ hm => Above.replaceTop (k := 0) hm [_] _

theorem LuaNetNewUdata_above (vm : Vm N Obj W) (index : ℕ) :
    Triple (Above s n) (LuaNetNewUdata vm index) (fun _ => Above s (n + 1)) (OnScript R) :=
  .modify fun _ hm => Above.replaceTop (k := 0) hm [_] _

theorem LuaSetMetaTable_above (vm : Vm N Obj W) (i : ℤ) :
    Triple (Above s (n + 1)) (LuaSetMetaTable vm i) (fun _ => Above s n) (OnScript R) :=
  .modify fun _ hm => hm.replaceTop [] _

theorem LuaSetFEnv_above (vm : Vm N Obj W) (i : ℤ) :
    Triple (Above s (n + 1)) (LuaSetFEnv vm i) (fun _ => Above s n) (OnScript R) :=
  .modify fun _ hm => hm.replaceTop [] _

theorem LuaLRef_above (vm : Vm N Obj W) :
    Triple (Above s (n + 1)) (LuaLRef vm) (fun _ => Above s n) (OnScript R) :=
  .modify fun _ hm => hm.replaceTop [] _

theorem LuaLNewMetaTable_above (vm : Vm N Obj W) (name : String) :
    Triple (Above s n) (LuaLNewMetaTable vm name) (fun _ => Above s (n + 1)) (OnScript R) := by
  refine .bind (LuaLGetMetaTable_above vm name) fun _ => .bind (LuaType_above vm _) fun type => ?_
  split
  · exact .bind (LuaPop_above 1) fun _ => .bind (LuaNewTable_above vm) fun _ =>
      .bind (LuaPushValue_above vm _) fun _ => .bind (push_above _) fun _ =>
      .bind (LuaInsert_above vm) fun _ => LuaSetTable_above vm _
  · exact .pure fun _ hm => hm

/-- After the last entry the key is gone. -/
theorem LuaNext_nil_above :
    Triple (Above s (n + 1)) (LuaNext [] : LuaM N Obj W Bool) (fun _ => Above s n)
      (OnScript R) :=
  fun _ hm => hm.replaceTop [] _

/-- Otherwise the next key and its value are in the place of the key. -/
theorem LuaNext_cons_above (e : LuaValue N × LuaValue N) (rest : List (LuaValue N × LuaValue N)) :
    Triple (Above s (n + 1)) (LuaNext (e :: rest) : LuaM N Obj W Bool)
      (fun _ => Above s (n + 2)) (OnScript R) :=
  fun _ hm => hm.replaceTop [_, _] _

theorem LuaL_LoadBuffer_above (vm : Vm N Obj W) (chunk : String) (size : ℕ) (name : String) :
    Triple (Above s n) (LuaL_LoadBuffer vm chunk size name) (fun _ => Above s (n + 1))
      (OnScript R) := by
  intro m hm
  rw [LuaL_LoadBuffer]
  split
  · exact Above.replaceTop (k := 0) hm [_] _
  · exact Above.replaceTop (k := 0) hm [_] _

/-- A protected call leaves its results, or the message. -/
theorem LuaPCall_above (vm : Vm N Obj W) (nargs : ℕ) (errfunc : ℤ) :
    Triple (Above s (n + (nargs + 1))) (LuaPCall vm nargs errfunc)
      (fun _ m => ∃ k, Above s (n + k) m) (OnScript R) := by
  intro m hm
  unfold LuaPCall
  dsimp only
  split
  · exact ⟨_, hm.replaceTop _ _⟩
  · exact ⟨_, hm.replaceTop [_] _⟩

end LuaLib

end UnityLua
