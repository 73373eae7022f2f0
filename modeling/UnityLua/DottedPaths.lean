import UnityLua.Library.CellPaths
import UnityLua.Library.Splitting
import UnityLua.TableHeap

/-!
# Dotted paths

The getters of the indexers of `LuaState` and of `LuaTable` over a heap of tables. A path is cut
at its dots, and the getter goes down until a value has no CLR value. For the indexer of
`LuaState` the first component is a global, which is fetched before the loop.

## Main results

* `getItem_restores` and `getField_restores`: what the getters come to.
* `readsPath_iff`: the getter of `LuaState` answers for every path that leads to a value or to
  nil, unless it has several components and the first of them is nil.
-/

namespace UnityLua

open Library LuaLib CellPaths

variable {N Obj : Type}

namespace LuaState

variable {W : Type}

/-- `lua_getref`. -/
def lua_getref (vm : Vm N Obj W) (reference : ℕ) : LuaM N Obj W Unit :=
  Prog.modify fun m =>
    m.replaceTop 0 [vm.rawget m.world vm.registry (.number (vm.ofNat reference))] m.world

/-- `getObject(int, string)`, the getter of the indexer of `LuaTable`. -/
def getField (vm : Vm N Obj W) (reference : ℕ) (field : String) :
    LuaM N Obj W (Option (ClrValue N Obj)) := do
  let oldTop ← LuaGetTop
  lua_getref vm reference
  let returnValue ← getObjectAt vm none (field.splitOn ".")
  LuaSetTop oldTop
  pure returnValue

/-- `setObject(int, string, object)`, the setter of the indexer of `LuaTable`. -/
def setField (vm : Vm N Obj W) (reference : ℕ) (field : String) (val : Option (ClrValue N Obj)) :
    LuaM N Obj W Unit := do
  let oldTop ← LuaGetTop
  lua_getref vm reference
  setObject vm (field.splitOn ".") val
  LuaSetTop oldTop

end LuaState

namespace TableHeap

/-! ### Following a path -/

/-- The table that a value is. -/
def tableOf : LuaValue N → Option ℕ
  | .table t => some t
  | _ => none

theorem eq_table_of_tableOf {v : LuaValue N} {t : ℕ} (h : tableOf v = some t) : v = .table t := by
  cases v with
  | table i =>
      injection h with hi
      rw [hi]
  | _ => cases h

/-- The components of a path as keys. -/
def keys (path : List String) : List String := path.map cString

/-- Where the components lead from a value through tables, and the keys that are left when a
value is no table. -/
def leads (w : TableHeap N Obj) (v : LuaValue N) (path : List String) :
    LuaValue N × List String :=
  follow tableOf w.fields v (keys path)

/-- The cells on a path. -/
def onPath (w : TableHeap N Obj) (v : LuaValue N) (path : List String) : List (ℕ × String) :=
  visits tableOf w.fields v (keys path)

/-- The path does not go on in the metatable of a string or a userdata. -/
def StaysInTables (w : TableHeap N Obj) (v : LuaValue N) (path : List String) : Prop :=
  (w.leads v path).2 = [] ∨
    ((w.leads v path).1.luaType ≠ .LUA_TSTRING ∧ (w.leads v path).1.luaType ≠ .LUA_TUSERDATA)

variable [DecidableEq N] [DecidableEq Obj] (x : Vm N Obj (TableHeap N Obj))
  (box : ClrValue N Obj → Obj) (slot : TableHeap N Obj → ℕ)

/-- The CLR value of a Lua value. -/
def clrValue (w : TableHeap N Obj) (v : LuaValue N) : Option (ClrValue N Obj) :=
  ((vm x box slot).env w).getObject v

/-! ### The getters -/

/-- Nothing that is read under string keys differs. -/
structure SameFields (w w' : TableHeap N Obj) : Prop where
  fields : w'.fields = w.fields
  userdata : w'.userdata = w.userdata
  objects : w'.objects = w.objects

namespace SameFields

variable {w w' w'' : TableHeap N Obj}

omit [DecidableEq N] [DecidableEq Obj]

theorem refl (w : TableHeap N Obj) : SameFields w w := ⟨rfl, rfl, rfl⟩

theorem trans (h : SameFields w w') (h' : SameFields w' w'') : SameFields w w'' :=
  ⟨h'.fields.trans h.fields, h'.userdata.trans h.userdata, h'.objects.trans h.objects⟩

end SameFields

variable {x box slot} {w w' : TableHeap N Obj}

theorem clrValue_object {id : ℕ} {o : Obj} (h : w.netObject id = some o) :
    clrValue x box slot w (.userdata id) = some (.object o) := by
  have henv : ((vm x box slot).env w).netObject id = some o := h
  rw [clrValue, LuaEnv.getObject, henv]

theorem clrValue_userdata {id : ℕ} (h : w.netObject id = none) :
    clrValue x box slot w (.userdata id) = some (.luaUserData (.userdata id)) := by
  have henv : ((vm x box slot).env w).netObject id = none := h
  rw [clrValue, LuaEnv.getObject, henv]

theorem clrValue_congr {v : LuaValue N}
    (h : ∀ id, v = .userdata id → w'.netObject id = w.netObject id) :
    clrValue x box slot w' v = clrValue x box slot w v := by
  cases v with
  | userdata id =>
      have hsame := h id rfl
      cases ho : w.netObject id with
      | some o => rw [clrValue_object ho, clrValue_object (hsame.trans ho)]
      | none => rw [clrValue_userdata ho, clrValue_userdata (hsame.trans ho)]
  | _ => rfl

theorem SameFields.clrValue (h : SameFields w w') (v : LuaValue N) :
    clrValue x box slot w' v = clrValue x box slot w v := by
  refine clrValue_congr fun id _ => ?_
  rw [netObject, netObject, h.userdata, h.objects]

omit [DecidableEq N] [DecidableEq Obj] in
theorem SameFields.leads (h : SameFields w w') (v : LuaValue N) (path : List String) :
    w'.leads v path = w.leads v path := by
  rw [TableHeap.leads, TableHeap.leads, h.fields]

/-- A reference is made under a number. -/
theorem sameFields_ref (v : LuaValue N) : SameFields w ((vm x box slot).ref w v) := by
  refine ⟨?_, rfl, rfl⟩
  funext t name
  refine if_neg fun h => ?_
  cases h.2

variable (x box slot) in
/-- `getObject` of the value on the top. -/
theorem getObject_reads (v : LuaValue N) :
    ∃ w', SameFields w w' ∧ ∀ c s, LuaState.getObject (vm x box slot) (-1) ⟨c, v :: s, w⟩ =
      (.ok (clrValue x box slot w v), ⟨c, v :: s, w'⟩) := by
  cases v with
  | table t => exact ⟨_, sameFields_ref (.table t), fun c s => rfl⟩
  | function i => exact ⟨_, sameFields_ref (.function i), fun c s => rfl⟩
  | userdata id =>
      cases ho : w.netObject id with
      | some o =>
          refine ⟨w, SameFields.refl w, fun c s => ?_⟩
          have henv : ((vm x box slot).env w).netObject id = some o := ho
          rw [clrValue_object ho, LuaState.getObject, LuaState.value, Prog.gets_bind]
          refine (Prog.gets_bind _ _ _).trans ?_
          rw [henv]
          rfl
      | none =>
          refine ⟨(vm x box slot).ref w (.userdata id), sameFields_ref _, fun c s => ?_⟩
          have henv : ((vm x box slot).env w).netObject id = none := ho
          rw [clrValue_userdata ho, LuaState.getObject, LuaState.value, Prog.gets_bind]
          refine (Prog.gets_bind _ _ _).trans ?_
          rw [henv]
          rfl
  | _ => exact ⟨w, SameFields.refl w, fun c s => rfl⟩

variable (x box slot) in
/-- What the loop of the getter comes to: a value without a CLR value ends it, any other that
is no table is an error. -/
def answer (w : TableHeap N Obj) (fin : LuaValue N × List String) :
    Except (LuaFault Obj) (Option (ClrValue N Obj)) :=
  if fin.2 = [] ∨ clrValue x box slot w fin.1 = none then .ok (clrValue x box slot w fin.1)
  else .error .lua

theorem SameFields.answer (h : SameFields w w') (fin : LuaValue N × List String) :
    answer x box slot w' fin = answer x box slot w fin := by
  rw [TableHeap.answer, TableHeap.answer, h.clrValue]

/-- The program ends with the result and leaves what was on the stack below other values. -/
def EndsOver {α : Type} (p : LuaM N Obj (TableHeap N Obj) α) (m : Machine N (TableHeap N Obj))
    (s : List (LuaValue N)) (r : Except (LuaFault Obj) α) : Prop :=
  ∃ vs w', p m = (r, ⟨m.callee, vs ++ s, w'⟩)

omit [DecidableEq N] [DecidableEq Obj] in
theorem EndsOver.below {α : Type} {p : LuaM N Obj (TableHeap N Obj) α}
    {m : Machine N (TableHeap N Obj)} {v : LuaValue N} {s : List (LuaValue N)}
    {r : Except (LuaFault Obj) α} (h : EndsOver p m (v :: s) r) : EndsOver p m s r := by
  obtain ⟨vs, w', hrun⟩ := h
  exact ⟨vs ++ [v], w', by rw [hrun, List.append_assoc, List.singleton_append]⟩

/-- Indexing a value that is no table and has no metatable. -/
theorem LuaGetTable_error {v : LuaValue N} (htable : tableOf v = none)
    (hstring : v.luaType ≠ .LUA_TSTRING) (huserdata : v.luaType ≠ .LUA_TUSERDATA)
    (c k : LuaValue N) (s : List (LuaValue N)) :
    LuaGetTable (vm x box slot) (.rel (-2)) ⟨c, k :: v :: s, w⟩ =
      (.error .lua, ⟨c, k :: v :: s, w⟩) := by
  cases v with
  | table t => cases htable
  | string str => exact absurd rfl hstring
  | userdata id => exact absurd rfl huserdata
  | _ => rfl

/-- A value without a CLR value is no table. -/
theorem tableOf_of_clrValue {v : LuaValue N} (h : clrValue x box slot w v = none) :
    tableOf v = none := by
  cases v with
  | table t => cases h
  | _ => rfl

omit [DecidableEq N] [DecidableEq Obj] in
theorem leads_table (t : ℕ) (field : String) (path : List String) :
    w.leads (.table t) (field :: path) = w.leads (w.fields t (cString field)) path := rfl

omit [DecidableEq N] [DecidableEq Obj] in
theorem leads_of_none {v : LuaValue N} (h : tableOf v = none) (path : List String) :
    w.leads v path = (v, keys path) := follow_of_none h _

/-- One round of the loop at a table, if the field has a CLR value. -/
theorem getObjectAt_step {t : ℕ} {field : String} {w' : TableHeap N Obj} {c : LuaValue N}
    {s : List (LuaValue N)} {u : LuaValue N} (hu : w.fields t (cString field) = u)
    {val : Option (ClrValue N Obj)}
    (hget : ∀ c s, LuaState.getObject (vm x box slot) (-1) ⟨c, u :: s, w⟩ =
      (.ok val, ⟨c, u :: s, w'⟩)) (rv : Option (ClrValue N Obj)) (path : List String) :
    LuaState.getObjectAt (vm x box slot) rv (field :: path) ⟨c, .table t :: s, w⟩ =
      (val.elim (pure none) fun v => LuaState.getObjectAt (vm x box slot) (some v) path)
        ⟨c, u :: .table t :: s, w'⟩ := by
  have hindex : LuaGetTable (vm x box slot) (.rel (-2))
      ⟨c, .string (cString field) :: .table t :: s, w⟩ = (.ok (), ⟨c, u :: .table t :: s, w⟩) := by
    rw [← hu]
    rfl
  have hpush : (LuaPushString field : LuaM N Obj (TableHeap N Obj) Unit) ⟨c, .table t :: s, w⟩ =
      (.ok (), ⟨c, .string (cString field) :: .table t :: s, w⟩) := rfl
  rw [LuaState.getObjectAt, Prog.bind_ok hpush, Prog.bind_ok hindex, Prog.bind_ok (hget _ _)]
  cases val <;> rfl

/-- A round of the loop at a value that is no table. -/
theorem getObjectAt_stuck {v : LuaValue N} (htable : tableOf v = none)
    (hstring : v.luaType ≠ .LUA_TSTRING) (huserdata : v.luaType ≠ .LUA_TUSERDATA) (c : LuaValue N)
    (s : List (LuaValue N)) (rv : Option (ClrValue N Obj)) (field : String) (path : List String) :
    LuaState.getObjectAt (vm x box slot) rv (field :: path) ⟨c, v :: s, w⟩ =
      (.error .lua, ⟨c, .string (cString field) :: v :: s, w⟩) := by
  have hpush : (LuaPushString field : LuaM N Obj (TableHeap N Obj) Unit) ⟨c, v :: s, w⟩ =
      (.ok (), ⟨c, .string (cString field) :: v :: s, w⟩) := rfl
  rw [LuaState.getObjectAt, Prog.bind_ok hpush]
  exact Prog.bind_error (LuaGetTable_error htable hstring huserdata c _ s)

/-- The loop of the getter, from a value that has a CLR value. -/
theorem getObjectAt_ends {path : List String} {v : LuaValue N} {r : ClrValue N Obj}
    (hr : clrValue x box slot w v = some r) (hstays : w.StaysInTables v path) (c : LuaValue N)
    (s : List (LuaValue N)) :
    EndsOver (LuaState.getObjectAt (vm x box slot) (some r) path) ⟨c, v :: s, w⟩ s
      (answer x box slot w (w.leads v path)) := by
  induction path generalizing v w r s with
  | nil =>
      refine ⟨[v], w, ?_⟩
      rw [leads, keys, List.map_nil, follow_nil, answer, if_pos (.inl rfl), hr]
      rfl
  | cons field path ih =>
      cases hv : tableOf v with
      | none =>
          have hleads : w.leads v (field :: path) = (v, keys (field :: path)) := leads_of_none hv _
          refine ⟨[.string (cString field), v], w, ?_⟩
          rw [hleads, answer, if_neg (by simp [keys, hr])]
          rw [StaysInTables, hleads] at hstays
          obtain hnil | ⟨hstring, huserdata⟩ := hstays
          · cases hnil
          · exact getObjectAt_stuck hv hstring huserdata c s _ field path
      | some t =>
          obtain rfl := eq_table_of_tableOf hv
          obtain ⟨w', hsame, hget⟩ := getObject_reads x box slot (w := w)
            (w.fields t (cString field))
          rw [StaysInTables, leads_table] at hstays
          rw [leads_table, EndsOver, getObjectAt_step rfl hget]
          cases hval : clrValue x box slot w (w.fields t (cString field)) with
          | none =>
              refine ⟨[w.fields t (cString field), .table t], w', ?_⟩
              rw [leads_of_none (tableOf_of_clrValue hval), answer, if_pos (.inr hval), hval]
              rfl
          | some r' =>
              have hstays' : w'.StaysInTables (w.fields t (cString field)) path := by
                rw [StaysInTables, hsame.leads]
                exact hstays
              have hend := ih ((hsame.clrValue _).trans hval) hstays' (.table t :: s)
              rw [hsame.leads, hsame.answer] at hend
              exact hend.below

/-- A path has a first component. -/
theorem splitOn_ne_nil (s : String) : s.splitOn "." ≠ [] := splitOn_singleton_ne_nil '.' s

/-- The program ends with the result and, unless that is an exception, with the stack as it
was. -/
def Restores {α : Type} (p : LuaM N Obj (TableHeap N Obj) α) (m : Machine N (TableHeap N Obj))
    (r : Except (LuaFault Obj) α) : Prop :=
  ∃ m', p m = (r, m') ∧ (r.toBool → m'.callee = m.callee ∧ m'.stack = m.stack)

omit [DecidableEq N] [DecidableEq Obj] in
theorem LuaSetTop_apply (c : LuaValue N) (vs s : List (LuaValue N)) :
    (LuaSetTop (s.length : ℕ) : LuaM N Obj (TableHeap N Obj) Unit) ⟨c, vs ++ s, w⟩ =
      (.ok (), ⟨c, s, w⟩) := by
  change (Except.ok (), Machine.mk c (List.replicate (s.length - (vs ++ s).length) .nil ++
    (vs ++ s).drop ((vs ++ s).length - s.length)) w) = _
  simp

omit [DecidableEq N] [DecidableEq Obj] in
/-- The frame of the getters: the top is saved and set back. -/
theorem EndsOver.restores {α : Type} {p : LuaM N Obj (TableHeap N Obj) α} {c : LuaValue N}
    {s : List (LuaValue N)} {r : Except (LuaFault Obj) α} (h : EndsOver p ⟨c, s, w⟩ s r) :
    Restores (do
      let oldTop ← LuaGetTop
      let v ← p
      LuaSetTop oldTop
      pure v) ⟨c, s, w⟩ r := by
  obtain ⟨vs, w', hrun⟩ := h
  rw [Restores, LuaGetTop, Prog.gets_bind]
  cases r with
  | error e => exact ⟨_, Prog.bind_error hrun, fun h => by cases h⟩
  | ok v =>
      refine ⟨⟨c, s, w'⟩, ?_, fun _ => ⟨rfl, rfl⟩⟩
      rw [Prog.bind_ok hrun, Prog.bind_ok (LuaSetTop_apply c vs s)]
      rfl

variable (x box slot) in
/-- What the getter of `LuaState` comes to for the components of a path. -/
def globalAnswer (w : TableHeap N Obj) (path : List String) :
    Except (LuaFault Obj) (Option (ClrValue N Obj)) :=
  if path.length > 1 ∧ clrValue x box slot w (w.fields 1 (cString (path.headD ""))) = none then
    .error .lua
  else answer x box slot w (w.leads (.table 1) path)

theorem getPath_ends {path : List String} (hpath : path ≠ [])
    (hstays : w.StaysInTables (.table 1) path) (c : LuaValue N) (s : List (LuaValue N)) :
    EndsOver (LuaState.getPath (vm x box slot) path) ⟨c, s, w⟩ s (globalAnswer x box slot w path) := by
  obtain ⟨name, rest, rfl⟩ := List.exists_cons_of_ne_nil hpath
  have hglobal : LuaGetGlobal (vm x box slot) name ⟨c, s, w⟩ =
      (.ok (), ⟨c, w.fields 1 (cString name) :: s, w⟩) := rfl
  obtain ⟨w', hsame, hget⟩ := getObject_reads x box slot (w := w)
    (w.fields 1 (cString name))
  have hhead : (name :: rest).headD "" = name := rfl
  rw [EndsOver, LuaState.getPath, hhead, Prog.bind_ok hglobal, Prog.bind_ok (hget c s), globalAnswer,
    hhead]
  cases rest with
  | nil => exact ⟨[w.fields 1 (cString name)], w', rfl⟩
  | cons field rest =>
      have hlength : (name :: field :: rest).length > 1 := by simp
      rw [if_pos hlength, List.tail_cons]
      rw [StaysInTables, leads_table] at hstays
      cases hval : clrValue x box slot w (w.fields 1 (cString name)) with
      | none =>
          have htable := tableOf_of_clrValue hval
          rw [leads_of_none htable] at hstays
          obtain hnil | ⟨hstring, huserdata⟩ := hstays
          · cases hnil
          · refine ⟨[.string (cString field), w.fields 1 (cString name)], w', ?_⟩
            rw [if_pos ⟨hlength, rfl⟩]
            exact getObjectAt_stuck htable hstring huserdata c s none field rest
      | some r =>
          have hstays' : w'.StaysInTables (w.fields 1 (cString name)) (field :: rest) := by
            rw [StaysInTables, hsame.leads]
            exact hstays
          have hend := getObjectAt_ends ((hsame.clrValue _).trans hval) hstays' c s
          rw [hsame.leads, hsame.answer] at hend
          rw [if_neg (by simp), leads_table]
          exact hend

variable (x box slot) in
/-- The getter of the indexer of `LuaState`. -/
theorem getItem_restores {fullPath : String}
    (hstays : w.StaysInTables (.table 1) (fullPath.splitOn ".")) (c : LuaValue N)
    (s : List (LuaValue N)) :
    Restores (LuaState.getItem (vm x box slot) fullPath) ⟨c, s, w⟩
      (globalAnswer x box slot w (fullPath.splitOn ".")) :=
  (getPath_ends (splitOn_ne_nil fullPath) hstays c s).restores

variable (x box slot) in
/-- The getter of the indexer of `LuaTable`. -/
theorem getField_restores {reference t : ℕ}
    (hroot : w.cells 0 (.number (x.ofNat reference)) = .table t) {field : String}
    (hstays : w.StaysInTables (.table t) (field.splitOn ".")) (c : LuaValue N)
    (s : List (LuaValue N)) :
    Restores (LuaState.getField (vm x box slot) reference field) ⟨c, s, w⟩
      (answer x box slot w (w.leads (.table t) (field.splitOn "."))) := by
  have hends : EndsOver (do
      LuaState.lua_getref (vm x box slot) reference
      LuaState.getObjectAt (vm x box slot) none (field.splitOn ".")) ⟨c, s, w⟩ s
      (answer x box slot w (w.leads (.table t) (field.splitOn "."))) := by
    have href : LuaState.lua_getref (vm x box slot) reference ⟨c, s, w⟩ =
        (.ok (), ⟨c, .table t :: s, w⟩) := by
      rw [← hroot]
      rfl
    obtain ⟨name, rest, hpath⟩ := List.exists_cons_of_ne_nil (splitOn_ne_nil field)
    rw [hpath] at hstays ⊢
    rw [EndsOver, Prog.bind_ok href]
    -- With a component left the value before the loop does not matter.
    exact getObjectAt_ends (r := .luaTable (.table t)) rfl hstays c s
  have hsame : LuaState.getField (vm x box slot) reference field ⟨c, s, w⟩ = (do
      let oldTop ← LuaGetTop
      let v ← do
        LuaState.lua_getref (vm x box slot) reference
        LuaState.getObjectAt (vm x box slot) none (field.splitOn ".")
      LuaSetTop oldTop
      pure v) ⟨c, s, w⟩ := rfl
  rw [Restores, hsame]
  exact hends.restores

/-! ### Reading a missing path -/

variable (x box slot) in
/-- The getter gives the value to which a path leads, and `null` if a prefix of the path is nil,
and restores the stack. A table access on a nil value would be an exception instead. -/
structure ReadsPath (w : TableHeap N Obj) (fullPath : String) : Prop where
  value : ∀ v, w.leads (.table 1) (fullPath.splitOn ".") = (v, []) → ∀ c s,
    Restores (LuaState.getItem (vm x box slot) fullPath) ⟨c, s, w⟩
      (.ok (clrValue x box slot w v))
  missing : ∀ left, w.leads (.table 1) (fullPath.splitOn ".") = (.nil, left) → ∀ c s,
    Restores (LuaState.getItem (vm x box slot) fullPath) ⟨c, s, w⟩ (.ok none)

omit [DecidableEq N] [DecidableEq Obj] in
theorem Restores.unique {α : Type} {p : LuaM N Obj (TableHeap N Obj) α}
    {m : Machine N (TableHeap N Obj)} {r r' : Except (LuaFault Obj) α} (h : Restores p m r)
    (h' : Restores p m r') : r = r' := by
  obtain ⟨m₁, hr, -⟩ := h
  obtain ⟨m₂, hr', -⟩ := h'
  rw [hr] at hr'
  exact congrArg Prod.fst hr'

/-- A global that is nil is an error for any path that goes on. -/
theorem globalAnswer_nil {path : List String} (hlength : path.length > 1)
    (hnil : w.fields 1 (cString (path.headD "")) = .nil) :
    globalAnswer x box slot w path = .error .lua := by
  rw [globalAnswer, if_pos ⟨hlength, by rw [hnil]; rfl⟩]

variable (x box slot) in
/-- Otherwise the answer is that of the loop. -/
theorem globalAnswer_of_first {path : List String} {v : LuaValue N} {left : List String}
    (hleads : w.leads (.table 1) path = (v, left)) (hend : left = [] ∨ v = .nil)
    (hfirst : path.length = 1 ∨ w.fields 1 (cString (path.headD "")) ≠ .nil) :
    globalAnswer x box slot w path = .ok (clrValue x box slot w v) := by
  have hcontinues : ¬ (path.length > 1 ∧
      clrValue x box slot w (w.fields 1 (cString (path.headD ""))) = none) := by
    rintro ⟨hlength, hval⟩
    obtain hone | hglobal := hfirst
    · omega
    · rcases path with - | ⟨name, - | ⟨field, rest⟩⟩
      · simp at hlength
      · simp at hlength
      · rw [List.headD_cons] at hval hglobal
        rw [leads_table, leads_of_none (tableOf_of_clrValue hval)] at hleads
        injection hleads with hv hleft
        obtain hnil | hnil := hend
        · rw [hnil] at hleft
          cases hleft
        · exact hglobal (hv.trans hnil)
  rw [globalAnswer, if_neg hcontinues, hleads, answer, if_pos]
  obtain hleft | hv := hend
  · exact .inl hleft
  · right
    rw [hv]
    rfl

omit [DecidableEq N] [DecidableEq Obj] in
theorem StaysInTables.of_nil {v : LuaValue N} {path left : List String}
    (h : w.leads v path = (.nil, left)) : w.StaysInTables v path := by
  right
  rw [h]
  exact ⟨LuaTypes.noConfusion, LuaTypes.noConfusion⟩

/-- A path that goes on from a global that is nil is no way to a value, and an error. -/
theorem not_readsPath {fullPath : String} (hlength : (fullPath.splitOn ".").length ≠ 1)
    (hnil : w.fields 1 (cString ((fullPath.splitOn ".").headD "")) = .nil) :
    ¬ ReadsPath x box slot w fullPath := by
  intro h
  obtain ⟨name, rest, hpath⟩ := List.exists_cons_of_ne_nil (splitOn_ne_nil fullPath)
  have hlength' : (fullPath.splitOn ".").length > 1 := by
    rw [hpath, List.length_cons] at hlength ⊢
    omega
  have hmissing : w.leads (.table 1) (fullPath.splitOn ".") = (.nil, keys rest) := by
    rw [hpath, List.headD_cons] at hnil
    rw [hpath, leads_table, hnil]
    exact leads_of_none rfl rest
  have hread := h.missing (keys rest) hmissing .nil []
  have herror := getItem_restores x box slot (StaysInTables.of_nil hmissing) .nil []
  rw [globalAnswer_nil hlength' hnil] at herror
  cases hread.unique herror

/-- **The getter reads a path exactly if it has one component or its first global is not
nil.** -/
theorem readsPath_iff (x : Vm N Obj (TableHeap N Obj)) (box : ClrValue N Obj → Obj)
    (slot : TableHeap N Obj → ℕ) (w : TableHeap N Obj) (fullPath : String) :
    ReadsPath x box slot w fullPath ↔
      (fullPath.splitOn ".").length = 1 ∨
      w.fields 1 (cString ((fullPath.splitOn ".").headD "")) ≠ .nil := by
  constructor
  · intro h
    by_contra hfirst
    rw [not_or, not_not] at hfirst
    exact not_readsPath hfirst.1 hfirst.2 h
  · intro hfirst
    constructor
    · intro v hleads c s
      rw [← globalAnswer_of_first x box slot hleads (.inl rfl) hfirst]
      exact getItem_restores x box slot (.inl (by rw [hleads])) c s
    · intro left hleads c s
      have hnone : clrValue x box slot w .nil = none := rfl
      rw [← hnone, ← globalAnswer_of_first x box slot hleads (.inr rfl) hfirst]
      exact getItem_restores x box slot (StaysInTables.of_nil hleads) c s

/-! ### A table that contains itself -/

/-- A Lua state in which nothing beside the tables matters. -/
def bare : Vm ℤ ℕ (TableHeap ℤ ℕ) where
  env _ := LuaEnv.plain
  ofNat n := n
  ofInt n := n
  registry := .table 0
  globals := .table 1
  cFunction _ := .function 0
  tag := 0
  gettable _ _ _ := none
  settable _ _ _ _ := none
  rawget _ _ _ := .nil
  rawset w _ _ _ := w
  createtable w := (.nil, w)
  newudata w _ := (.nil, w)
  setmetatable w _ _ := w
  setfenv w _ _ := w
  ref w _ := w
  entries _ _ := none
  checkstack _ _ := true
  loadbuffer w _ _ _ := (.error .nil, w)
  pcall w _ _ _ := (.error .nil, w)
  resources _ := none
  isScriptException _ := false
  toString _ := ""
  kind _ := .plain
  assemblyQualifiedName _ := "System.Object"
  tryGetValue _ _ := none
  addObject w _ := (0, w)
  collectObject w _ _ := w

/-- The registry is empty, and the global `a` is the table of the globals. -/
def cyclic : TableHeap ℤ ℕ where
  cells t k := if t = 1 ∧ k = .string "a" then .table 1 else .nil
  tables := 2
  userdata := []
  metatables _ := .nil
  objects _ := none
  objectsBackMap _ := none
  nextObj := 0

theorem splitOn_missing : "b.a".splitOn "." = ["b", "a"] :=
  (splitOn_singleton '.' "b.a").trans (by decide)

/-- The getter does not read every path: there is no global `b`. -/
theorem readsPath_fails :
    ¬ ∀ (w : TableHeap ℤ ℕ) (fullPath : String),
      ReadsPath bare (fun _ => 0) (fun _ => 1) w fullPath := by
  intro h
  refine not_readsPath (w := cyclic) ?_ ?_ (h cyclic "b.a")
  · rw [splitOn_missing]
    decide
  · rw [splitOn_missing]
    decide

end TableHeap

end UnityLua
