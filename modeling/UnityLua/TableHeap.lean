import Mathlib.Data.List.Infix
import UnityLua.LuaState

/-!
# A heap of tables

A Lua state whose tables are cells on a heap and have no metatables. Beside the tables there
are the userdata with the ids they hold, and the maps of `ObjectTranslator`. Table 0 is the Lua
registry and table 1 the globals.

Indexing a string or a userdata goes to a metamethod and stays a question to the surrounding
state; any other value that is no table is an error. What is pushed as a C function, how a
chunk is loaded or a function is called does not matter here and is taken over as it is.

## Main results

* `push_kept`: pushing a value that is not a generated object without a table always succeeds
  and changes no cell of a table that was there, except in the registry and in
  `luaNet_objects`.
-/

namespace UnityLua

open Library LuaLib

/-- The tables of a Lua state, its userdata and the registry of objects. -/
structure TableHeap (N Obj : Type) where
  cells : ℕ → LuaValue N → LuaValue N
  /-- How many tables were made. -/
  tables : ℕ
  /-- The ids in the blocks of the userdata made so far. -/
  userdata : List ℕ
  /-- The metatables of the userdata. -/
  metatables : ℕ → LuaValue N
  objects : ℕ → Option Obj
  objectsBackMap : Obj → Option ℕ
  nextObj : ℕ

variable {N Obj : Type}

namespace TableHeap

/-- The object registered under the id of a userdata. -/
def netObject (w : TableHeap N Obj) (id : ℕ) : Option Obj := w.userdata[id]?.bind w.objects

/-- The values kept under string keys. -/
def fields (w : TableHeap N Obj) (t : ℕ) (name : String) : LuaValue N := w.cells t (.string name)

/-- The table `luaNet_objects` of the registry. -/
def luaNet_objects (w : TableHeap N Obj) : LuaValue N := w.fields 0 (cString "luaNet_objects")

/-- `lua_rawget`. -/
def rawget (w : TableHeap N Obj) : LuaValue N → LuaValue N → LuaValue N
  | .table t, k => w.cells t k
  | _, _ => .nil

/-- `lua_newtable`. -/
def createtable (w : TableHeap N Obj) : LuaValue N × TableHeap N Obj :=
  (.table w.tables,
    { w with
      cells := fun t k => if t = w.tables then .nil else w.cells t k
      tables := w.tables + 1 })

/-- `luanet_newudata`. -/
def newudata (w : TableHeap N Obj) (index : ℕ) : LuaValue N × TableHeap N Obj :=
  (.userdata w.userdata.length, { w with userdata := w.userdata ++ [index] })

/-- `lua_setmetatable`. The tables have none. -/
def setmetatable (w : TableHeap N Obj) (v mt : LuaValue N) : TableHeap N Obj :=
  match v with
  | .userdata id => { w with metatables := fun i => if i = id then mt else w.metatables i }
  | _ => w

section Operations

variable [DecidableEq N]

/-- Writes one cell. -/
def write (w : TableHeap N Obj) (t : ℕ) (k v : LuaValue N) : TableHeap N Obj :=
  { w with cells := fun t' k' => if t' = t ∧ k' = k then v else w.cells t' k' }

/-- `lua_rawset`. -/
def rawset (w : TableHeap N Obj) : LuaValue N → LuaValue N → LuaValue N → TableHeap N Obj
  | .table t, k, v => w.write t k v
  | _, _, _ => w

variable [DecidableEq Obj]

/-- `addObject`. The counter goes round after 2 ^ 32 objects. -/
def addObject (w : TableHeap N Obj) (o : Obj) : ℕ × TableHeap N Obj :=
  (w.nextObj,
    { w with
      objects := fun i => if i = w.nextObj then some o else w.objects i
      objectsBackMap := fun o' => if o' = o then some w.nextObj else w.objectsBackMap o'
      nextObj := (w.nextObj + 1) % 4294967296 })

/-- `collectObject(object, int)`. -/
def collectObject (w : TableHeap N Obj) (o : Obj) (udata : ℕ) : TableHeap N Obj :=
  { w with
    objects := fun i => if i = udata then none else w.objects i
    objectsBackMap := fun o' => if o' = o then none else w.objectsBackMap o' }

/-- The object that is registered for a CLR value: the object itself, or the box around a
value or one of the library's own objects. -/
def boxed (box : ClrValue N Obj → Obj) : ClrValue N Obj → Obj
  | .object o => o
  | v => box v

/-- The Lua state over heaps of tables. `slot` is the one that `luaL_ref` takes. -/
def vm (x : Vm N Obj (TableHeap N Obj)) (box : ClrValue N Obj → Obj)
    (slot : TableHeap N Obj → ℕ) : Vm N Obj (TableHeap N Obj) :=
  { x with
    env := fun w => { x.env w with netObject := w.netObject }
    registry := .table 0
    globals := .table 1
    gettable := fun w v k =>
      match v with
      | .table t => some (w.cells t k, w)
      | .string _ | .userdata _ => x.gettable w v k
      | _ => none
    settable := fun w v k u =>
      match v, k with
      | .table _, .nil => none
      | .table t, k => some (w.write t k u)
      | .string _, _ | .userdata _, _ => x.settable w v k u
      | _, _ => none
    rawget := rawget
    rawset := rawset
    createtable := createtable
    newudata := newudata
    setmetatable := setmetatable
    ref := fun w v => w.write 0 (.number (x.ofNat (slot w))) v
    tryGetValue := fun w v => w.objectsBackMap (boxed box v)
    addObject := fun w v => w.addObject (boxed box v)
    collectObject := fun w v index => w.collectObject (boxed box v) index }

end Operations

/-! ### What a push may change -/

/-- The heap `w` comes from `w₀` by making things: in the tables that were there only new
metatables were registered and numbered entries of `luaNet_objects` made. -/
structure Grown (w₀ w : TableHeap N Obj) : Prop where
  tables : w₀.tables ≤ w.tables
  cells : ∀ t k, t < w₀.tables →
    w.cells t k = w₀.cells t k ∨
    (t = 0 ∧ w₀.cells 0 k = .nil ∧ ∃ t' ≥ w₀.tables, w.cells 0 k = .table t') ∨
    ((∃ n, k = .number n) ∧ w₀.luaNet_objects = .table t)
  userdata : w₀.userdata <+: w.userdata

namespace Grown

variable {w₀ w : TableHeap N Obj}

theorem refl (w : TableHeap N Obj) : Grown w w where
  tables := le_rfl
  cells _ _ _ := .inl rfl
  userdata := List.prefix_rfl

/-- A string key of a table that was there is as it was, or new in the registry. -/
theorem fields (h : Grown w₀ w) {t : ℕ} (ht : t < w₀.tables) (name : String) :
    w.fields t name = w₀.fields t name ∨
    (t = 0 ∧ w₀.fields 0 name = .nil ∧ ∃ t' ≥ w₀.tables, w.fields 0 name = .table t') := by
  obtain hsame | hnew | ⟨⟨n, hn⟩, -⟩ := h.cells t (.string name) ht
  · exact .inl hsame
  · exact .inr hnew
  · cases hn

/-- A cell that is as it was in `w`. -/
theorem cells_of_eq (h : Grown w₀ w) {w' : TableHeap N Obj} {t : ℕ} {k : LuaValue N}
    (ht : t < w₀.tables) (hsame : w'.cells t k = w.cells t k) :
    w'.cells t k = w₀.cells t k ∨
    (t = 0 ∧ w₀.cells 0 k = .nil ∧ ∃ t' ≥ w₀.tables, w'.cells 0 k = .table t') ∨
    ((∃ n, k = .number n) ∧ w₀.luaNet_objects = .table t) := by
  obtain hold | ⟨rfl, hnil, t', ht', hnew⟩ | hnumber := h.cells t k ht
  · exact .inl (hsame.trans hold)
  · exact .inr (.inl ⟨rfl, hnil, t', ht', hsame.trans hnew⟩)
  · exact .inr (.inr hnumber)

theorem createtable (h : Grown w₀ w) : Grown w₀ w.createtable.2 where
  tables := Nat.le_succ_of_le h.tables
  cells _ _ ht := h.cells_of_eq ht (if_neg (Nat.ne_of_lt (Nat.lt_of_lt_of_le ht h.tables)))
  userdata := h.userdata

theorem newudata (h : Grown w₀ w) (index : ℕ) : Grown w₀ (w.newudata index).2 where
  tables := h.tables
  cells := h.cells
  userdata := h.userdata.trans (List.prefix_append _ _)

theorem setmetatable (h : Grown w₀ w) (v mt : LuaValue N) :
    Grown w₀ (w.setmetatable v mt) := by
  cases v with
  | userdata id => exact ⟨h.tables, h.cells, h.userdata⟩
  | _ => exact h

variable [DecidableEq N]

/-- In a new table anything may be written. -/
theorem write (h : Grown w₀ w) {t : ℕ} (ht : w₀.tables ≤ t) (k v : LuaValue N) :
    Grown w₀ (w.write t k v) where
  tables := h.tables
  cells t' k' ht' := h.cells_of_eq ht' (if_neg fun hcell => by omega)
  userdata := h.userdata

/-- A new table is registered under a name that was free. -/
theorem register (h : Grown w₀ w) {name : String} (hfree : w.fields 0 name = .nil) {t : ℕ}
    (ht : w₀.tables ≤ t) : Grown w₀ (w.write 0 (.string name) (.table t)) where
  tables := h.tables
  cells t' k' ht' := by
    by_cases hcell : t' = 0 ∧ k' = .string name
    · obtain ⟨rfl, rfl⟩ := hcell
      have hnil : w₀.fields 0 name = .nil := by
        obtain hsame | ⟨-, hnil, -⟩ := h.fields ht' name
        · rw [← hsame]
          exact hfree
        · exact hnil
      exact .inr (.inl ⟨rfl, hnil, t, ht, if_pos ⟨rfl, rfl⟩⟩)
    · exact h.cells_of_eq ht' (if_neg hcell)
  userdata := h.userdata

/-- An entry of `luaNet_objects` is made. -/
theorem setEntry (h : Grown w₀ w) (n : N) (v : LuaValue N) :
    Grown w₀ (w.rawset w.luaNet_objects (.number n) v) := by
  cases hobjs : w.luaNet_objects with
  | table t =>
      refine ⟨h.tables, fun t' k' ht' => ?_, h.userdata⟩
      by_cases hcell : t' = t ∧ k' = .number n
      · obtain ⟨rfl, rfl⟩ := hcell
        obtain hsame | ⟨-, -, t'', ht'', hnew⟩ := h.fields (Nat.zero_lt_of_lt ht') _
        · exact .inr (.inr ⟨⟨n, rfl⟩, hsame.symm.trans hobjs⟩)
        · have heq : LuaValue.table (N := N) t' = .table t'' := hobjs.symm.trans hnew
          injection heq with heq
          omega
      · exact h.cells_of_eq ht' (if_neg hcell)
  | _ => exact h

end Grown

/-! ### Pushing -/

variable [DecidableEq N] [DecidableEq Obj] (x : Vm N Obj (TableHeap N Obj))
  (box : ClrValue N Obj → Obj) (slot : TableHeap N Obj → ℕ)

/-- The program pushes a value, whatever is on the stack. -/
def Pushes (p : LuaM N Obj (TableHeap N Obj) Unit) (w : TableHeap N Obj) (v : LuaValue N)
    (w' : TableHeap N Obj) : Prop :=
  ∀ c s, p ⟨c, s, w⟩ = (.ok (), ⟨c, v :: s, w'⟩)

variable {w w₀ : TableHeap N Obj}

theorem LuaLGetMetaTable_pushes (name : String) :
    Pushes (LuaLGetMetaTable (vm x box slot) name) w (w.fields 0 (cString name)) w :=
  fun _ _ => rfl

/-- A metatable under a name that is free. -/
theorem LuaLNewMetaTable_pushes {name : String} (hfree : w.fields 0 (cString name) = .nil) :
    Pushes (LuaLNewMetaTable (vm x box slot) name) w (.table w.tables)
      (w.createtable.2.write 0 (.string (cString name)) (.table w.tables)) := by
  intro c s
  rw [LuaLNewMetaTable, Prog.bind_ok (LuaLGetMetaTable_pushes x box slot name c s), hfree]
  rfl

/-- A write under a string key, as C reads the key. -/
def setField (w : TableHeap N Obj) (t : ℕ) (name : String) (v : LuaValue N) : TableHeap N Obj :=
  w.write t (.string (cString name)) v

/-- The table `t` with what `getTypeMetatable` puts into a new metatable. -/
def metafields (w : TableHeap N Obj) (t : ℕ) : TableHeap N Obj :=
  let w₁ := w.createtable.2.setField t "cache" w.createtable.1
  let w₂ := w₁.write t (.lightUserdata x.tag) (.number (x.ofNat 1))
  let w₃ := w₂.setField t "__index" (w₂.fields 0 (cString "luaNet_indexfunction"))
  ((w₃.setField t "__gc" (x.cFunction .gcFunction)).setField t "__tostring"
    (x.cFunction .toStringFunction)).setField t "__newindex" (x.cFunction .newindexFunction)

omit [DecidableEq Obj] in
theorem Grown.metafields (h : Grown w₀ w) {t : ℕ} (ht : w₀.tables ≤ t) :
    Grown w₀ (w.metafields x t) :=
  (((((h.createtable.write ht _ _).write ht _ _).write ht _ _).write ht _ _).write ht _ _).write
    ht _ _

omit [DecidableEq Obj] in
theorem Grown.newMetatable {name : String} (hfree : w.fields 0 (cString name) = .nil) :
    Grown w (w.createtable.2.setField 0 name (.table w.tables)) := by
  refine (Grown.refl w).createtable.register ?_ le_rfl
  change (if 0 = w.tables then .nil else w.fields 0 (cString name)) = .nil
  split
  · rfl
  · exact hfree

theorem getTypeMetatable_pushes (o : ClrValue N Obj) :
    ∃ mt w', Pushes (LuaState.getTypeMetatable (vm x box slot) o) w mt w' ∧ Grown w w' ∧
      w'.objects = w.objects := by
  by_cases hfree : w.fields 0 (cString (x.assemblyQualifiedName o)) = .nil
  · refine ⟨.table w.tables, (w.createtable.2.setField 0 (x.assemblyQualifiedName o)
      (.table w.tables)).metafields x w.tables, fun c s => ?_,
      (Grown.newMetatable hfree).metafields x le_rfl, rfl⟩
    have hnil : (w.fields 0 (cString (x.assemblyQualifiedName o))).luaType = .LUA_TNIL :=
      luaType_eq_nil.mpr hfree
    rw [LuaState.getTypeMetatable, Prog.bind_ok (LuaLGetMetaTable_pushes x box slot _ c s),
      LuaType, Prog.gets_bind, Prog.ite_apply]
    refine (if_pos hnil).trans ?_
    have htop : (LuaSetTop (-2) : LuaM N Obj (TableHeap N Obj) Unit)
        ⟨c, w.fields 0 (cString (x.assemblyQualifiedName o)) :: s, w⟩ = (.ok (), ⟨c, s, w⟩) := rfl
    refine (Prog.bind_ok htop).trans ?_
    refine (Prog.bind_ok (LuaLNewMetaTable_pushes x box slot hfree c s)).trans ?_
    rfl
  · refine ⟨w.fields 0 (cString (x.assemblyQualifiedName o)), w, fun c s => ?_, Grown.refl w,
      rfl⟩
    have hnil : (w.fields 0 (cString (x.assemblyQualifiedName o))).luaType ≠ .LUA_TNIL :=
      mt luaType_eq_nil.mp hfree
    rw [LuaState.getTypeMetatable, Prog.bind_ok (LuaLGetMetaTable_pushes x box slot _ c s),
      LuaType, Prog.gets_bind, Prog.ite_apply]
    exact if_neg hnil

theorem getMetatable_pushes (o : ClrValue N Obj) (metatable : String) :
    ∃ mt w', Pushes (LuaState.getMetatable (vm x box slot) o metatable) w mt w' ∧ Grown w w' ∧
      w'.objects = w.objects := by
  rw [LuaState.getMetatable]
  split
  · exact getTypeMetatable_pushes x box slot o
  · exact ⟨_, w, LuaLGetMetaTable_pushes x box slot metatable, Grown.refl w, rfl⟩

/-- The new userdata with its metatable, and its entry in `luaNet_objects`. -/
def withUserdata (w : TableHeap N Obj) (mt : LuaValue N) (index : ℕ) : TableHeap N Obj :=
  let w₁ := (w.newudata index).2.setmetatable (w.newudata index).1 mt
  w₁.rawset w.luaNet_objects (.number (x.ofNat index)) (w.newudata index).1

theorem pushNewObject_pushes (o : ClrValue N Obj) (index : ℕ) (metatable : String) :
    ∃ v w', Pushes (LuaState.pushNewObject (vm x box slot) o index metatable) w v w' ∧
      Grown w w' ∧ w'.objects = w.objects := by
  obtain ⟨mt, w₁, hmt, hgrown, hobjects⟩ := getMetatable_pushes x box slot o metatable (w := w)
  refine ⟨.userdata w₁.userdata.length, w₁.withUserdata x mt index, fun c s => ?_, ?_, ?_⟩
  · rw [LuaState.pushNewObject, Prog.bind_ok (hmt c s)]
    rfl
  · exact ((hgrown.newudata index).setmetatable (w₁.newudata index).1 mt).setEntry
      (x.ofNat index) (w₁.newudata index).1
  · rw [← hobjects, withUserdata]
    cases w₁.luaNet_objects with
    | _ => rfl

/-- The userdata that `luaNet_objects` has for an id, if any. -/
def entry (w : TableHeap N Obj) (index : ℕ) : LuaValue N :=
  w.rawget w.luaNet_objects (.number (x.ofNat index))

/-- The heap `w` comes from `w₀` by a push: things were made, and of the registered objects
only one without a userdata was collected and the next id given away. -/
structure Kept (w₀ w : TableHeap N Obj) : Prop extends Grown w₀ w where
  objects : ∀ i, i ≠ w₀.nextObj → w₀.entry x i ≠ .nil → w.objects i = w₀.objects i

omit [DecidableEq N] [DecidableEq Obj] in
theorem Kept.refl (w : TableHeap N Obj) : Kept x w w :=
  ⟨Grown.refl w, fun _ _ _ => rfl⟩

omit [DecidableEq N] [DecidableEq Obj] in
/-- The maps of `ObjectTranslator` are no tables. -/
theorem Grown.of_registry {objects : ℕ → Option Obj} {back : Obj → Option ℕ} {n : ℕ}
    (h : Grown { w₀ with objects := objects, objectsBackMap := back, nextObj := n } w) :
    Grown w₀ w := ⟨h.tables, h.cells, h.userdata⟩

/-- The new entry in the registry of objects is made before anything else. -/
theorem addAndPush_pushes (o : ClrValue N Obj) (metatable : String) :
    ∃ v w', Pushes (LuaState.addAndPush (vm x box slot) o metatable) w v w' ∧ Grown w w' ∧
      w'.objects = (w.addObject (boxed box o)).2.objects := by
  obtain ⟨v, w', hpush, hgrown, hobjects⟩ := pushNewObject_pushes x box slot o w.nextObj metatable
    (w := (w.addObject (boxed box o)).2)
  exact ⟨v, w', hpush, hgrown.of_registry, hobjects⟩

theorem pushObject_pushes (o : ClrValue N Obj) (metatable : String) :
    ∃ v w', Pushes (LuaState.pushObject (vm x box slot) o metatable) w v w' ∧ Kept x w w' := by
  cases hback : w.objectsBackMap (boxed box o) with
  | none =>
      obtain ⟨v, w', hpush, hgrown, hobjects⟩ := addAndPush_pushes x box slot o metatable (w := w)
      refine ⟨v, w', fun c s => ?_, hgrown, fun i hi _ => ?_⟩
      · have hfind : (vm x box slot).tryGetValue w o = none := hback
        rw [LuaState.pushObject, Prog.gets_bind, hfind]
        exact hpush c s
      · rw [hobjects]
        exact if_neg hi
  | some index =>
      have hfind : (vm x box slot).tryGetValue w o = some index := hback
      -- With `luaNet_objects` and its entry on the stack the type decides.
      have hstart : ∀ c s, LuaState.pushObject (vm x box slot) o metatable ⟨c, s, w⟩ =
          (if (w.entry x index).luaType ≠ .LUA_TNIL then LuaRemove (-2) else do
            LuaRemove (-1)
            LuaRemove (-1)
            Prog.modify fun m => { m with
              world := (vm x box slot).collectObject m.world o index }
            LuaState.addAndPush (vm x box slot) o metatable)
            ⟨c, w.entry x index :: w.luaNet_objects :: s, w⟩ := by
        intro c s
        rw [LuaState.pushObject, Prog.gets_bind, hfind]
        rfl
      by_cases hentry : w.entry x index = .nil
      · obtain ⟨v, w', hpush, hgrown, hobjects⟩ := addAndPush_pushes x box slot o metatable
          (w := w.collectObject (boxed box o) index)
        refine ⟨v, w', fun c s => ?_, hgrown.of_registry, fun i hi hi' => ?_⟩
        · rw [hstart, if_neg (not_not_intro (luaType_eq_nil.mpr hentry))]
          exact hpush c s
        · have hne : i ≠ index := by
            rintro rfl
            exact hi' hentry
          rw [hobjects]
          exact (if_neg hi).trans (if_neg hne)
      · refine ⟨w.entry x index, w, fun c s => ?_, Kept.refl x w⟩
        rw [hstart, if_pos (mt luaType_eq_nil.mp hentry)]
        rfl

/-- A value that `push` takes: not an object of a generated class that has lost its table. -/
def Pushable : Option (ClrValue N Obj) → Prop
  | some (.object o) => x.kind o ≠ .generated none
  | _ => True

/-- **Pushing a value keeps the heap.** -/
theorem push_pushes {val : Option (ClrValue N Obj)} (h : Pushable x val) :
    ∃ v w', Pushes (LuaState.push (vm x box slot) val) w v w' ∧ Kept x w w' := by
  have hplain : ∀ v, ∃ v' w', Pushes (LuaLib.push v : LuaM N Obj (TableHeap N Obj) Unit) w v' w' ∧
      Kept x w w' := fun v => ⟨v, w, fun _ _ => rfl, Kept.refl x w⟩
  cases val with
  | none => exact hplain .nil
  | some val =>
      cases val with
      | integral t n => exact hplain (.number (x.ofInt n))
      | double n => exact hplain (.number n)
      | float n => exact hplain (.number n)
      | decimal n => exact hplain (.number n)
      | bool b => exact hplain (.boolean b)
      | string s => exact hplain (.string (cString s))
      | luaTable v => exact hplain v
      | luaFunction v => exact hplain v
      | generated type v => exact hplain v
      | luaUserData v => exact pushObject_pushes x box slot _ _
      | delegate type v => exact pushObject_pushes x box slot _ _
      | array element values => exact pushObject_pushes x box slot _ _
      | object o =>
          have hkind : (vm x box slot).kind o = x.kind o := rfl
          rw [LuaState.push, hkind]
          cases hk : x.kind o with
          | destroyed => exact hplain .nil
          | plain => exact pushObject_pushes x box slot _ _
          | csFunction => exact pushObject_pushes x box slot _ _
          | generated luaTable =>
              cases luaTable with
              | none => exact absurd hk h
              | some v => exact hplain v

end TableHeap

end UnityLua
