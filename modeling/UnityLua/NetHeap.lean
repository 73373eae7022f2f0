import UnityLua.LuaState

/-!
# Userdata with ids

What `lnet.c` does with a Lua state whose tables and userdata have metatables. A userdata has a
block, of which the first `int` is read; table 0 is the registry and table 1 the globals.

The key that marks a metatable is the address of a variable of the library. A table without a
metatable is indexed by itself; any other index operation is a question to the surrounding
state.

## Main results

* `luaLCheckmetatable_eq`, `checkudata_eq`, `luanetTonetobject_eq`: what the functions return for
  the value at an index, with the stack as it was.
-/

namespace UnityLua

open Library LuaLib

/-- The tables and userdata of a Lua state. -/
structure NetHeap (N : Type) where
  cells : ℕ → LuaValue N → LuaValue N
  /-- How many tables were made. -/
  tables : ℕ
  metatables : ℕ → Option ℕ
  /-- How many userdata were made. -/
  udata : ℕ
  /-- The first `int` in the block of a userdata. -/
  block : ℕ → ℤ
  udataMetatables : ℕ → Option ℕ
  /-- The metatable that all values of another type share. -/
  typeMetatables : LuaTypes → Option ℕ
  /-- The `int` at an address outside of Lua. -/
  memory : ℕ → ℤ
  deriving Inhabited

/-- What `lua_touserdata` returns, unless it is null. -/
inductive UdataPointer
  | block (u : ℕ)
  | address (p : ℕ)

variable {N Obj : Type}

namespace NetHeap

/-- The values kept under string keys. -/
def fields (w : NetHeap N) (t : ℕ) (name : String) : LuaValue N := w.cells t (.string name)

/-- What the registry has under a name, as C reads the name. -/
def registered (w : NetHeap N) (name : String) : LuaValue N := w.fields 0 (cString name)

def getmetatable (w : NetHeap N) : LuaValue N → Option ℕ
  | .table t => w.metatables t
  | .userdata u => w.udataMetatables u
  | v => w.typeMetatables v.luaType

/-- The `int` that a pointer points to. -/
def read (w : NetHeap N) : UdataPointer → ℤ
  | .block u => w.block u
  | .address p => w.memory p

/-- `lua_rawget`. -/
def rawget (w : NetHeap N) : LuaValue N → LuaValue N → LuaValue N
  | .table t, k => w.cells t k
  | _, _ => .nil

/-- `lua_newtable`. -/
def createtable (w : NetHeap N) : LuaValue N × NetHeap N :=
  (.table w.tables,
    { w with
      cells := fun t k => if t = w.tables then .nil else w.cells t k
      metatables := fun t => if t = w.tables then none else w.metatables t
      tables := w.tables + 1 })

theorem cells_createtable {w : NetHeap N} {t : ℕ} (ht : t < w.tables) (k : LuaValue N) :
    w.createtable.2.cells t k = w.cells t k :=
  if_neg (Nat.ne_of_lt ht)

/-- `lua_newuserdata` for an `int`, and the assignment of it. -/
def newudata (w : NetHeap N) (val : ℤ) : LuaValue N × NetHeap N :=
  (.userdata w.udata,
    { w with
      udata := w.udata + 1
      block := fun u => if u = w.udata then val else w.block u
      udataMetatables := fun u => if u = w.udata then none else w.udataMetatables u })

/-- The metatable that a value on the stack stands for. -/
def asMetatable : LuaValue N → Option ℕ
  | .table t => some t
  | _ => none

/-- `lua_setmetatable`. -/
def setmetatable (w : NetHeap N) (v mt : LuaValue N) : NetHeap N :=
  match v with
  | .table t =>
      { w with
        metatables := fun t' => if t' = t then asMetatable mt else w.metatables t' }
  | .userdata u =>
      { w with
        udataMetatables := fun u' => if u' = u then asMetatable mt else w.udataMetatables u' }
  | v =>
      { w with
        typeMetatables := fun t => if t = v.luaType then asMetatable mt else w.typeMetatables t }

section Operations

variable [DecidableEq N]

/-- Writes one cell. -/
def write (w : NetHeap N) (t : ℕ) (k v : LuaValue N) : NetHeap N :=
  { w with cells := fun t' k' => if t' = t ∧ k' = k then v else w.cells t' k' }

/-- `lua_rawset`. -/
def rawset (w : NetHeap N) : LuaValue N → LuaValue N → LuaValue N → NetHeap N
  | .table t, k, v => w.write t k v
  | _, _, _ => w

/-- `luaV_gettable`. -/
def gettable (x : Vm N Obj (NetHeap N)) (w : NetHeap N) (v k : LuaValue N) :
    Option (LuaValue N × NetHeap N) :=
  match v with
  | .table t =>
      if w.cells t k ≠ .nil ∨ w.metatables t = none then some (w.cells t k, w)
      else x.gettable w v k
  | _ => x.gettable w v k

/-- `luaV_settable`. A table has no nil for a key. -/
def settable (x : Vm N Obj (NetHeap N)) (w : NetHeap N) (v k u : LuaValue N) :
    Option (NetHeap N) :=
  match v with
  | .table t =>
      if k = .nil then none
      else if w.cells t k ≠ .nil ∨ w.metatables t = none then some (w.write t k u)
      else x.settable w v k u
  | _ => x.settable w v k u

theorem gettable_plain {x : Vm N Obj (NetHeap N)} {w : NetHeap N} {t : ℕ}
    (hplain : w.metatables t = none) (k : LuaValue N) :
    gettable x w (.table t) k = some (w.cells t k, w) :=
  if_pos (Or.inr hplain)

theorem settable_plain {x : Vm N Obj (NetHeap N)} {w : NetHeap N} {t : ℕ}
    (hplain : w.metatables t = none) (k : String) (u : LuaValue N) :
    settable x w (.table t) (.string k) u = some (w.write t (.string k) u) := by
  rw [settable, if_neg (by simp), if_pos (Or.inr hplain)]

/-- The Lua state over these heaps. -/
def vm (x : Vm N Obj (NetHeap N)) : Vm N Obj (NetHeap N) :=
  { x with
    registry := .table 0
    globals := .table 1
    gettable := gettable x
    settable := settable x
    rawget := rawget
    rawset := rawset
    createtable := createtable
    newudata := fun w n => w.newudata n
    setmetatable := setmetatable }

end Operations

end NetHeap

open NetHeap

/-- `lua_touserdata` of a value. -/
def pointerOf : LuaValue N → Option UdataPointer
  | .userdata u => some (.block u)
  | .lightUserdata p => if p = 0 then none else some (.address p)
  | _ => none

section Source

variable [DecidableEq N] (x : Vm N Obj (NetHeap N))

/-! ### The functions of the API -/

def luaTypeAt (i : StackIndex) : LuaM N Obj (NetHeap N) LuaTypes :=
  Prog.gets fun m => (m.value (vm x) i).luaType

/-- `lua_getmetatable`, which pushes nothing if there is none. -/
def luaGetmetatable (i : StackIndex) : LuaM N Obj (NetHeap N) Bool := fun m =>
  match m.world.getmetatable (m.value (vm x) i) with
  | none => (.ok false, m)
  | some t => (.ok true, m.replaceTop 0 [.table t] m.world)

def luaTouserdata (i : StackIndex) : LuaM N Obj (NetHeap N) (Option UdataPointer) :=
  Prog.gets fun m => pointerOf (m.value (vm x) i)

def luaRawequal (i j : StackIndex) : LuaM N Obj (NetHeap N) Bool :=
  Prog.gets fun m => m.value (vm x) i = m.value (vm x) j

/-- Reads the `int` that a pointer points to. -/
def deref (udata : UdataPointer) : LuaM N Obj (NetHeap N) ℤ :=
  Prog.gets fun m => m.world.read udata

/-! ### `lnet.c` -/

/-- `luaL_checkmetatable`. -/
def luaLCheckmetatable (i : StackIndex) : LuaM N Obj (NetHeap N) Bool := do
  if ← luaGetmetatable x i then
    push (.lightUserdata x.tag)
    Lua_RawGet (vm x) (.rel (-2))
    let type ← luaTypeAt x (.rel (-1))
    LuaSetTop (-3)
    pure (decide (type ≠ .LUA_TNIL))
  else pure false

def checkudata (ud : StackIndex) (tname : String) :
    LuaM N Obj (NetHeap N) (Option UdataPointer) := do
  match ← luaTouserdata x ud with
  | none => pure none
  | some p =>
      if ← luaGetmetatable x ud then
        LuaLGetMetaTable (vm x) tname
        let isEqual ← luaRawequal x (.rel (-1)) (.rel (-2))
        LuaPop 2
        pure (if isEqual then some p else none)
      else pure none

/-- The names that `luanet_tonetobject` asks for, in its order. -/
def classNames : List String := ["luaNet_class", "luaNet_searchbase", "luaNet_function"]

/-- The calls of `checkudata` at the end of `luanet_tonetobject`. -/
def checkudatas (i : StackIndex) : List String → LuaM N Obj (NetHeap N) ℤ
  | [] => pure (-1)
  | tname :: names => do
      match ← checkudata x i tname with
      | some udata => deref udata
      | none => checkudatas i names

/-- `luanet_tonetobject`. -/
def luanetTonetobject (i : StackIndex) : LuaM N Obj (NetHeap N) ℤ := do
  if (← luaTypeAt x i) = .LUA_TUSERDATA then
    if ← luaLCheckmetatable x i then
      match ← luaTouserdata x i with
      | some udata => deref udata
      | none => checkudatas x i classNames
    else checkudatas x i classNames
  else pure (-1)

/-- `luanet_newudata`. -/
def luanetNewudata (val : ℤ) : LuaM N Obj (NetHeap N) Unit :=
  Prog.modify fun m => m.replaceTop 0 [(m.world.newudata val).1] (m.world.newudata val).2

/-- `luanet_checkudata`. -/
def luanetCheckudata (i : StackIndex) (tname : String) : LuaM N Obj (NetHeap N) ℤ := do
  match ← checkudata x i tname with
  | some udata => deref udata
  | none => pure (-1)

end Source

/-! ### What they return -/

variable [DecidableEq N] {x : Vm N Obj (NetHeap N)} {m : Machine N (NetHeap N)} {i : StackIndex}

/-- The metatable of the value has the tag for a key. -/
def bearsTag (x : Vm N Obj (NetHeap N)) (w : NetHeap N) (v : LuaValue N) : Bool :=
  (w.getmetatable v).any fun t => w.cells t (.lightUserdata x.tag) ≠ .nil

/-- The metatable of the value is the one that is registered under the name. -/
def hasMetatable (w : NetHeap N) (v : LuaValue N) (tname : String) : Bool :=
  (w.getmetatable v).any fun t => w.registered tname = .table t

theorem luaGetmetatable_none (h : m.world.getmetatable (m.value (vm x) i) = none) :
    luaGetmetatable x i m = (.ok false, m) := by
  rw [luaGetmetatable, h]

theorem luaGetmetatable_some {t : ℕ} (h : m.world.getmetatable (m.value (vm x) i) = some t) :
    luaGetmetatable x i m = (.ok true, ⟨m.callee, .table t :: m.stack, m.world⟩) := by
  rw [luaGetmetatable, h]
  rfl

/-- `luaL_checkmetatable` leaves the stack as it was. -/
theorem luaLCheckmetatable_eq :
    luaLCheckmetatable x i m = (.ok (bearsTag x m.world (m.value (vm x) i)), m) := by
  rcases h : m.world.getmetatable (m.value (vm x) i) with - | t
  · rw [luaLCheckmetatable, Prog.bind_ok (luaGetmetatable_none h), bearsTag, h]
    rfl
  · have hrest : luaLCheckmetatable x i m =
        (.ok (decide ((m.world.cells t (.lightUserdata x.tag)).luaType ≠ .LUA_TNIL)), m) := by
      rw [luaLCheckmetatable, Prog.bind_ok (luaGetmetatable_some h)]
      rfl
    rw [hrest, bearsTag, h, Option.any_some]
    simp only [ne_eq, luaType_eq_nil]

/-- Without a metatable the registry gives what it has. -/
theorem LuaGetTable_registry {w : NetHeap N} (hplain : w.metatables 0 = none) (k c : LuaValue N)
    (s : List (LuaValue N)) :
    LuaGetTable (vm x) .LUA_REGISTRYINDEX ⟨c, k :: s, w⟩ = (.ok (), ⟨c, w.cells 0 k :: s, w⟩) := by
  have hget : (vm x).gettable w (.table 0) k = some (w.cells 0 k, w) := gettable_plain hplain k
  rw [LuaGetTable]
  split
  · next h => exact absurd (hget.symm.trans h) (by simp)
  · next h =>
      obtain ⟨rfl, rfl⟩ := Prod.mk.inj (Option.some.inj (hget.symm.trans h))
      rfl

theorem LuaLGetMetaTable_registered {w : NetHeap N} (hplain : w.metatables 0 = none)
    (name : String) (c : LuaValue N) (s : List (LuaValue N)) :
    LuaLGetMetaTable (vm x) name ⟨c, s, w⟩ = (.ok (), ⟨c, w.registered name :: s, w⟩) := by
  have hpush : (LuaPushString name : LuaM N Obj (NetHeap N) Unit) ⟨c, s, w⟩ =
      (.ok (), ⟨c, .string (cString name) :: s, w⟩) := rfl
  rw [LuaLGetMetaTable, Prog.bind_ok hpush]
  exact LuaGetTable_registry hplain _ _ _

/-- `checkudata` leaves the stack as it was. -/
theorem checkudata_eq (hplain : m.world.metatables 0 = none) (tname : String) :
    checkudata x i tname m =
      (.ok (if hasMetatable m.world (m.value (vm x) i) tname then pointerOf (m.value (vm x) i)
        else none), m) := by
  have hpointer : luaTouserdata x i m = (.ok (pointerOf (m.value (vm x) i)), m) := rfl
  rw [checkudata, Prog.bind_ok hpointer]
  rcases pointerOf (m.value (vm x) i) with - | p
  · rw [ite_self]
    rfl
  rcases h : m.world.getmetatable (m.value (vm x) i) with - | t
  · refine (Prog.bind_ok (luaGetmetatable_none h)).trans ?_
    rw [hasMetatable, h]
    rfl
  · refine (Prog.bind_ok (luaGetmetatable_some h)).trans ?_
    rw [if_pos rfl]
    refine (Prog.bind_ok (LuaLGetMetaTable_registered hplain tname _ _)).trans ?_
    rw [hasMetatable, h]
    rfl

/-- The `int` in the block of a userdata that has one of the metatables. -/
theorem checkudatas_eq (hplain : m.world.metatables 0 = none) {u : ℕ}
    (hu : m.value (vm x) i = .userdata u) (names : List String) :
    checkudatas x i names m =
      (.ok (if names.any (hasMetatable m.world (.userdata u)) then m.world.block u else -1),
        m) := by
  induction names with
  | nil => rfl
  | cons tname names ih =>
      rw [checkudatas, Prog.bind_ok (checkudata_eq hplain tname), hu, List.any_cons]
      cases hasMetatable m.world (.userdata u) tname with
      | true => rfl
      | false => exact ih

/-- A full userdata of the library, by its metatable. -/
def isNetObject (x : Vm N Obj (NetHeap N)) (w : NetHeap N) : LuaValue N → Bool
  | .userdata u => bearsTag x w (.userdata u) || classNames.any (hasMetatable w (.userdata u))
  | _ => false

/-- The id in a userdata of the library. -/
def netId (x : Vm N Obj (NetHeap N)) (w : NetHeap N) : LuaValue N → ℤ
  | .userdata u => if isNetObject x w (.userdata u) then w.block u else -1
  | _ => -1

/-- `luanet_tonetobject` leaves the stack as it was. -/
theorem luanetTonetobject_eq (hplain : m.world.metatables 0 = none) :
    luanetTonetobject x i m = (.ok (netId x m.world (m.value (vm x) i)), m) := by
  have htype : luaTypeAt x i m = (.ok (m.value (vm x) i).luaType, m) := rfl
  rw [luanetTonetobject, Prog.bind_ok htype]
  rcases hv : m.value (vm x) i with - | b | p | n | s | t | f | u | c
  case userdata =>
    refine (Prog.ite_apply _ _ m).trans ((if_pos rfl).trans ?_)
    rw [Prog.bind_ok luaLCheckmetatable_eq, hv, netId, isNetObject]
    cases bearsTag x m.world (.userdata u) with
    | true =>
        have hpointer : luaTouserdata x i m = (.ok (some (.block u)), m) := by
          rw [luaTouserdata, Prog.gets, hv]
          rfl
        exact Prog.bind_ok hpointer
    | false => exact checkudatas_eq hplain hv classNames
  all_goals rfl

/-- `luanet_checkudata` leaves the stack as it was. -/
theorem luanetCheckudata_eq (hplain : m.world.metatables 0 = none) (tname : String) :
    ∃ r, luanetCheckudata x i tname m = (.ok r, m) := by
  obtain ⟨p, hp⟩ : ∃ p, checkudata x i tname m = (.ok p, m) := ⟨_, checkudata_eq hplain tname⟩
  rw [luanetCheckudata, Prog.bind_ok hp]
  cases p with
  | none => exact ⟨_, rfl⟩
  | some udata => exact ⟨_, rfl⟩

end UnityLua
