import UnityLua.DottedPaths

/-!
# Assignments to dotted paths

The setters of the indexers of `LuaState` and of `LuaTable` over a heap of tables: they go down
to the table of the last component, push the value and assign it there. Tables may be shared
and contain each other, so that the cell that is written may lie on other paths, and on the way
to its own table.

## Main results

* `set_writesCell`: an assignment writes one cell, is read back unless the cell is on the way to
  its own table, and leaves every path as it was that avoids the cell.
-/

namespace UnityLua

open Library LuaLib CellPaths

namespace TableHeap

variable {N Obj : Type} [DecidableEq N] [DecidableEq Obj] {x : Vm N Obj (TableHeap N Obj)}
  {box : ClrValue N Obj → Obj} {slot : TableHeap N Obj → ℕ} {w w' : TableHeap N Obj}

/-! ### The setters -/

/-- Going down fields through tables. -/
theorem getFields_run {path : List String} {v u : LuaValue N} (h : w.leads v path = (u, []))
    (c : LuaValue N) (s : List (LuaValue N)) :
    ∃ vs, LuaState.getFields (vm x box slot) path ⟨c, v :: s, w⟩ =
      (.ok (), ⟨c, u :: (vs ++ s), w⟩) := by
  induction path generalizing v s with
  | nil =>
      injection h with hv _
      exact ⟨[], by rw [hv]; rfl⟩
  | cons field path ih =>
      cases hv : tableOf v with
      | none =>
          rw [leads_of_none hv] at h
          cases h
      | some t =>
          obtain rfl := eq_table_of_tableOf hv
          rw [leads_table] at h
          obtain ⟨vs, hrest⟩ := ih h (.table t :: s)
          refine ⟨vs ++ [.table t], ?_⟩
          rw [List.append_assoc, List.singleton_append, ← hrest]
          rfl

/-- A push below which a table and a key are, and the assignment. -/
theorem setObject_run {path : List String} {v : LuaValue N} {t : ℕ}
    (h : w.leads v path.dropLast = (.table t, [])) {val : Option (ClrValue N Obj)}
    {u : LuaValue N} {w₁ : TableHeap N Obj}
    (hpush : Pushes (LuaState.push (vm x box slot) val) w u w₁) (c : LuaValue N)
    (s : List (LuaValue N)) :
    ∃ vs, LuaState.setObject (vm x box slot) path val ⟨c, v :: s, w⟩ =
      (.ok (), ⟨c, vs ++ s, w₁.setField t (path.getLastD "") u⟩) := by
  obtain ⟨vs, hfields⟩ := getFields_run (x := x) h c s
  refine ⟨.table t :: vs, ?_⟩
  have hkey : (LuaPushString (path.getLastD "") : LuaM N Obj (TableHeap N Obj) Unit)
      ⟨c, .table t :: (vs ++ s), w⟩ =
      (.ok (), ⟨c, .string (cString (path.getLastD "")) :: .table t :: (vs ++ s), w⟩) := rfl
  rw [LuaState.setObject, Prog.bind_ok hfields, Prog.bind_ok hkey, Prog.bind_ok (hpush _ _)]
  rfl

/-- The assignment of the setter of `LuaState`, which treats a single component apart. -/
theorem setPath_run {fullPath : String} {t : ℕ}
    (h : w.leads (.table 1) (fullPath.splitOn ".").dropLast = (.table t, []))
    {val : Option (ClrValue N Obj)} {u : LuaValue N} {w₁ : TableHeap N Obj}
    (hpush : Pushes (LuaState.push (vm x box slot) val) w u w₁) (c : LuaValue N)
    (s : List (LuaValue N)) :
    ∃ vs, LuaState.setPath (vm x box slot) fullPath (fullPath.splitOn ".") val ⟨c, s, w⟩ =
      (.ok (), ⟨c, vs ++ s, w₁.setField t ((fullPath.splitOn ".").getLastD "") u⟩) := by
  rw [LuaState.setPath]
  by_cases hone : (fullPath.splitOn ".").length = 1
  · have hpath : fullPath.splitOn "." = [fullPath] :=
      splitOn_singleton_of_length (c := '.') hone
    rw [hpath] at h ⊢
    injection h with ht _
    injection ht with ht
    refine ⟨[], ?_⟩
    rw [if_pos List.length_singleton, Prog.bind_ok (hpush c s), ← ht]
    rfl
  · rw [if_neg hone]
    obtain ⟨name, rest, hpath⟩ := List.exists_cons_of_ne_nil (splitOn_ne_nil fullPath)
    rw [hpath] at h hone ⊢
    have hrest : rest ≠ [] := by
      rintro rfl
      exact hone rfl
    rw [List.dropLast_cons_of_ne_nil hrest, leads_table] at h
    have hglobal : LuaGetGlobal (vm x box slot) name ⟨c, s, w⟩ =
        (.ok (), ⟨c, w.fields 1 (cString name) :: s, w⟩) := rfl
    obtain ⟨vs, hset⟩ := setObject_run h hpush c s
    have hlast : (name :: rest).getLastD "" = rest.getLastD "" := by
      cases rest with
      | nil => exact absurd rfl hrest
      | cons field rest => rfl
    refine ⟨vs, ?_⟩
    rw [List.headD_cons, List.tail_cons, Prog.bind_ok hglobal, hset, hlast]

/-- The setter of the indexer of `LuaState`. -/
theorem setItem_run {fullPath : String} {t : ℕ}
    (h : w.leads (.table 1) (fullPath.splitOn ".").dropLast = (.table t, []))
    {val : Option (ClrValue N Obj)} {u : LuaValue N} {w₁ : TableHeap N Obj}
    (hpush : Pushes (LuaState.push (vm x box slot) val) w u w₁) (c : LuaValue N)
    (s : List (LuaValue N)) :
    LuaState.setItem (vm x box slot) fullPath val ⟨c, s, w⟩ =
      (.ok (), ⟨c, s, w₁.setField t ((fullPath.splitOn ".").getLastD "") u⟩) := by
  obtain ⟨vs, hset⟩ := setPath_run h hpush c s
  rw [LuaState.setItem, LuaGetTop, Prog.gets_bind, Prog.bind_ok hset]
  exact LuaSetTop_apply c vs s

/-- The setter of the indexer of `LuaTable`. -/
theorem setField_run {reference r : ℕ}
    (hroot : w.cells 0 (.number (x.ofNat reference)) = .table r) {field : String} {t : ℕ}
    (h : w.leads (.table r) (field.splitOn ".").dropLast = (.table t, []))
    {val : Option (ClrValue N Obj)} {u : LuaValue N} {w₁ : TableHeap N Obj}
    (hpush : Pushes (LuaState.push (vm x box slot) val) w u w₁) (c : LuaValue N)
    (s : List (LuaValue N)) :
    LuaState.setField (vm x box slot) reference field val ⟨c, s, w⟩ =
      (.ok (), ⟨c, s, w₁.setField t ((field.splitOn ".").getLastD "") u⟩) := by
  have href : LuaState.lua_getref (vm x box slot) reference ⟨c, s, w⟩ =
      (.ok (), ⟨c, .table r :: s, w⟩) := by
    rw [← hroot]
    rfl
  obtain ⟨vs, hset⟩ := setObject_run h hpush c s
  rw [LuaState.setField, LuaGetTop, Prog.gets_bind, Prog.bind_ok href, Prog.bind_ok hset]
  exact LuaSetTop_apply c vs s

/-! ### What an assignment changes -/

/-- The tables of the registry: itself and `luaNet_objects`. -/
def OfRegistry (w : TableHeap N Obj) (t : ℕ) : Prop := t = 0 ∨ w.luaNet_objects = .table t

variable (x) in
/-- A heap as it comes about: values refer to tables that were made, and a userdata that is kept
somewhere has its entry in the weak table `luaNet_objects`, under an id that is not given away
next. -/
structure WellFormed (w : TableHeap N Obj) : Prop where
  globals : 1 < w.tables
  closed : ∀ t k i, w.cells t k = .table i → i < w.tables
  luaNet_objects : w.luaNet_objects ≠ .table 0
  live : ∀ t k id, w.cells t k = .userdata id →
    ∃ index, w.userdata[id]? = some index ∧ index ≠ w.nextObj ∧ w.entry x index ≠ .nil

/-- The indexers: of the `LuaState`, and of the `LuaTable` with a reference. -/
inductive Indexer
  | state
  | table (reference : ℕ)

namespace Indexer

/-- Where the paths of an indexer start. -/
def root (x : Vm N Obj (TableHeap N Obj)) (w : TableHeap N Obj) : Indexer → LuaValue N
  | state => .table 1
  | table reference => w.cells 0 (.number (x.ofNat reference))

/-- The getter. -/
def get {W : Type} (vm : Vm N Obj W) : Indexer → String → LuaM N Obj W (Option (ClrValue N Obj))
  | state => LuaState.getItem vm
  | table reference => LuaState.getField vm reference

/-- The setter. -/
def set {W : Type} (vm : Vm N Obj W) :
    Indexer → String → Option (ClrValue N Obj) → LuaM N Obj W Unit
  | state => LuaState.setItem vm
  | table reference => LuaState.setField vm reference

end Indexer

variable (x box slot) in
/-- The assignment of the value `val`, pushed as `u`, to a path has made `w'` out of `w`: it wrote
one cell, in the table `t` to which all components but the last lead from the root. -/
structure WritesCell (w w' : TableHeap N Obj) (i : Indexer) (fullPath : String)
    (val : Option (ClrValue N Obj)) (t : ℕ) (u : LuaValue N) : Prop where
  pushed : ∃ w₁, Pushes (LuaState.push (vm x box slot) val) w u w₁
  deletes : val = none → u = .nil
  assigns : ∀ c s, i.set (vm x box slot) fullPath val ⟨c, s, w⟩ = (.ok (), ⟨c, s, w'⟩)
  leads : w.leads (i.root x w) (fullPath.splitOn ".").dropLast = (.table t, [])
  written : w'.fields t (cString ((fullPath.splitOn ".").getLastD "")) = u
  others : ∀ t' k, t' < w.tables → ¬ w.OfRegistry t' →
    (t', k) ≠ (t, .string (cString ((fullPath.splitOn ".").getLastD ""))) →
    w'.cells t' k = w.cells t' k
  /-- What was written is read back, if the cell is not on the way to its table. -/
  readBack : (t, cString ((fullPath.splitOn ".").getLastD "")) ∉
      w.onPath (i.root x w) (fullPath.splitOn ".").dropLast →
    ∀ c s, Restores (i.get (vm x box slot) fullPath) ⟨c, s, w'⟩ (.ok (clrValue x box slot w' u))
  /-- Other paths that avoid the cell are read as before. -/
  reads : ∀ other : String, w.StaysInTables (i.root x w) (other.splitOn ".") →
    (∀ cell ∈ w.onPath (i.root x w) (other.splitOn "."),
      cell.1 ≠ 0 ∧ cell ≠ (t, cString ((fullPath.splitOn ".").getLastD ""))) →
    ∀ c s, ∃ r, Restores (i.get (vm x box slot) other) ⟨c, s, w⟩ r ∧
      Restores (i.get (vm x box slot) other) ⟨c, s, w'⟩ r

section Kept

variable {w₁ : TableHeap N Obj} (hwf : WellFormed x w) (hkept : Kept x w w₁)

include hwf in
omit [DecidableEq N] [DecidableEq Obj] in
/-- A path from a table goes through tables that were made. -/
theorem lt_of_mem_onPath {root : ℕ} (hroot : root < w.tables) {path : List String}
    {cell : ℕ × String} (hcell : cell ∈ w.onPath (.table root) path) : cell.1 < w.tables := by
  refine visits_closed (P := (· < w.tables)) (fun a k b hb => ?_) (fun a ha => ?_) hcell
  · exact hwf.closed a _ b (eq_table_of_tableOf hb)
  · injection ha with ha
    omega

omit [DecidableEq Obj] in
/-- A string cell elsewhere is not written. -/
theorem setField_fields {t a : ℕ} {name key : String} (h : (a, key) ≠ (t, cString name))
    (u : LuaValue N) : (w₁.setField t name u).fields a key = w₁.fields a key := by
  refine if_neg fun heq => h ?_
  obtain ⟨rfl, hkey⟩ := heq
  injection hkey with hkey
  rw [hkey]

include hwf hkept in
omit [DecidableEq Obj] in
/-- A cell on the way to a table is what it was, if it is not the one that is written. -/
theorem prefix_kept {root : ℕ} (hroot : root < w.tables) {path : List String} {t : ℕ}
    (hleads : w.leads (.table root) path = (.table t, [])) {name : String} {u : LuaValue N}
    (havoids : (t, cString name) ∉ w.onPath (.table root) path) :
    ∀ cell ∈ w.onPath (.table root) path,
      (w₁.setField t name u).fields cell.1 cell.2 = w.fields cell.1 cell.2 := by
  intro cell hcell
  have hne : (cell.1, cell.2) ≠ (t, cString name) := fun heq => havoids (heq ▸ hcell)
  rw [setField_fields hne]
  obtain hsame | ⟨hzero, hnil, -⟩ := hkept.fields (lt_of_mem_onPath hwf hroot hcell) cell.2
  · exact hsame
  · have hnode := node_of_mem_visits hleads (Option.some_ne_none t) hcell
    rw [hzero, hnil] at hnode
    exact absurd rfl hnode

include hwf hkept in
omit [DecidableEq Obj] in
/-- A cell outside the registry is what it was, if it is not the one that is written. -/
theorem onPath_kept {root : ℕ} (hroot : root < w.tables) {path : List String} {t : ℕ}
    {name : String} {u : LuaValue N}
    (havoids : ∀ cell ∈ w.onPath (.table root) path, cell.1 ≠ 0 ∧ cell ≠ (t, cString name)) :
    ∀ cell ∈ w.onPath (.table root) path,
      (w₁.setField t name u).fields cell.1 cell.2 = w.fields cell.1 cell.2 := by
  intro cell hcell
  obtain ⟨hzero, hne⟩ := havoids cell hcell
  rw [setField_fields hne]
  obtain hsame | ⟨heq, -⟩ := hkept.fields (lt_of_mem_onPath hwf hroot hcell) cell.2
  · exact hsame
  · exact absurd heq hzero

include hwf hkept in
omit [DecidableEq Obj] in
/-- A userdata that is kept in a cell keeps its object. -/
theorem netObject_kept {a : ℕ} {k : LuaValue N} {id : ℕ} (hcell : w.cells a k = .userdata id)
    {t : ℕ} {name : String} {u : LuaValue N} :
    (w₁.setField t name u).netObject id = w.netObject id := by
  obtain ⟨index, hindex, hnext, hentry⟩ := hwf.live a k id hcell
  have hindex₁ : w₁.userdata[id]? = some index := by
    obtain ⟨more, hmore⟩ := hkept.userdata
    rw [← hmore, List.getElem?_append_left (List.getElem?_eq_some_iff.mp hindex).1, hindex]
  change w₁.userdata[id]?.bind w₁.objects = w.userdata[id]?.bind w.objects
  rw [hindex, hindex₁]
  exact hkept.objects index hnext hentry

variable (x box slot) in
include hwf hkept in
/-- The answer of the loop for a path whose cells are as they were. -/
theorem answer_kept {root : ℕ} {path : List String} {t : ℕ} {name : String} {u : LuaValue N}
    (hsame : ∀ cell ∈ w.onPath (.table root) path,
      (w₁.setField t name u).fields cell.1 cell.2 = w.fields cell.1 cell.2) :
    answer x box slot (w₁.setField t name u) ((w₁.setField t name u).leads (.table root) path) =
      answer x box slot w (w.leads (.table root) path) := by
  have hleads : (w₁.setField t name u).leads (.table root) path = w.leads (.table root) path :=
    follow_congr hsame
  have hvalue : clrValue x box slot (w₁.setField t name u) (w.leads (.table root) path).1 =
      clrValue x box slot w (w.leads (.table root) path).1 := by
    refine clrValue_congr fun id hid => ?_
    have hreached : (w.leads (.table root) path).1 = .table root ∨
        ∃ cell ∈ w.onPath (.table root) path,
          (w.leads (.table root) path).1 = w.fields cell.1 cell.2 := follow_mem _ _
    obtain hroot | ⟨cell, -, hcell⟩ := hreached
    · cases hroot.symm.trans hid
    · exact netObject_kept hwf hkept (hcell.symm.trans hid)
  rw [hleads, answer, answer, hvalue]

include hkept in
omit [DecidableEq Obj] in
/-- Of the cells outside the registry one was written. -/
theorem others_kept {t : ℕ} {name : String} {u : LuaValue N} {t' : ℕ} {k : LuaValue N}
    (ht' : t' < w.tables) (hregistry : ¬ w.OfRegistry t')
    (hne : (t', k) ≠ (t, .string (cString name))) :
    (w₁.setField t name u).cells t' k = w.cells t' k := by
  have hcell : (w₁.setField t name u).cells t' k = w₁.cells t' k := by
    refine if_neg fun heq => hne ?_
    rw [heq.1, heq.2]
  rw [hcell]
  obtain hsame | ⟨hzero, -⟩ | ⟨-, hobjects⟩ := hkept.cells t' k ht'
  · exact hsame
  · exact absurd (.inl hzero) hregistry
  · exact absurd (.inr hobjects) hregistry

omit [DecidableEq Obj] in
/-- The cell itself. -/
theorem setField_self (t : ℕ) (name : String) (u : LuaValue N) :
    (w₁.setField t name u).fields t (cString name) = u := if_pos ⟨rfl, rfl⟩

include hwf hkept in
omit [DecidableEq Obj] in
/-- The path leads to what was written. -/
theorem leads_written {root : ℕ} (hroot : root < w.tables) {path : List String} (hpath : path ≠ [])
    {t : ℕ} (hleads : w.leads (.table root) path.dropLast = (.table t, [])) {u : LuaValue N}
    (havoids : (t, cString (path.getLastD "")) ∉ w.onPath (.table root) path.dropLast) :
    (w₁.setField t (path.getLastD "") u).leads (.table root) path = (u, []) := by
  have hkeys : keys path = keys path.dropLast ++ [cString (path.getLastD "")] := by
    obtain ⟨init, last, rfl⟩ := (List.eq_nil_or_concat path).resolve_left hpath
    simp [keys]
  rw [leads, hkeys, follow_concat_of_eq hleads rfl (prefix_kept hwf hkept hroot hleads havoids),
    setField_self]

include hwf hkept in
omit [DecidableEq Obj] in
/-- The reference of a table stays. -/
theorem root_kept {i : Indexer} {root : ℕ} (hroot : i.root x w = .table root) {t : ℕ}
    {name : String} {u : LuaValue N} : i.root x (w₁.setField t name u) = .table root := by
  cases i with
  | state => exact hroot
  | table reference =>
      have hcell : (w₁.setField t name u).cells 0 (.number (x.ofNat reference)) =
          w₁.cells 0 (.number (x.ofNat reference)) := if_neg fun heq => by cases heq.2
      refine hcell.trans ?_
      have hlt : 0 < w.tables := Nat.lt_of_succ_lt hwf.globals
      obtain hsame | ⟨-, hnil, -⟩ | ⟨-, hobjects⟩ := hkept.cells 0 (.number (x.ofNat reference)) hlt
      · exact hsame.trans hroot
      · cases hroot.symm.trans hnil
      · exact absurd hobjects hwf.luaNet_objects

include hwf in
omit [DecidableEq N] [DecidableEq Obj] in
theorem root_lt {i : Indexer} {root : ℕ} (hroot : i.root x w = .table root) : root < w.tables := by
  cases i with
  | state =>
      injection hroot with hroot
      rw [← hroot]
      exact hwf.globals
  | table reference => exact hwf.closed 0 _ root hroot

end Kept

variable (x box slot) in
/-- What a getter comes to for the components of a path. -/
def Indexer.answer (w : TableHeap N Obj) (root : ℕ) (path : List String) :
    Indexer → Except (LuaFault Obj) (Option (ClrValue N Obj))
  | state => globalAnswer x box slot w path
  | table _ => TableHeap.answer x box slot w (w.leads (.table root) path)

theorem Indexer.get_restores {i : Indexer} {root : ℕ} (hroot : i.root x w = .table root)
    {fullPath : String} (hstays : w.StaysInTables (.table root) (fullPath.splitOn "."))
    (c : LuaValue N) (s : List (LuaValue N)) :
    Restores (i.get (vm x box slot) fullPath) ⟨c, s, w⟩
      (i.answer x box slot w root (fullPath.splitOn ".")) := by
  cases i with
  | state =>
      injection hroot with hroot
      rw [← hroot] at hstays
      exact getItem_restores x box slot hstays c s
  | table reference => exact getField_restores x box slot hroot hstays c s

theorem Indexer.set_run {i : Indexer} {root : ℕ} (hroot : i.root x w = .table root)
    {fullPath : String} {t : ℕ}
    (h : w.leads (.table root) (fullPath.splitOn ".").dropLast = (.table t, []))
    {val : Option (ClrValue N Obj)} {u : LuaValue N} {w₁ : TableHeap N Obj}
    (hpush : Pushes (LuaState.push (vm x box slot) val) w u w₁) (c : LuaValue N)
    (s : List (LuaValue N)) :
    i.set (vm x box slot) fullPath val ⟨c, s, w⟩ =
      (.ok (), ⟨c, s, w₁.setField t ((fullPath.splitOn ".").getLastD "") u⟩) := by
  cases i with
  | state =>
      injection hroot with hroot
      rw [← hroot] at h
      exact setItem_run h hpush c s
  | table reference => exact setField_run hroot h hpush c s

omit [DecidableEq N] [DecidableEq Obj] in
/-- The first global of a path of tables is not nil. -/
theorem first_ne_nil {path : List String} {t : ℕ}
    (h : w.leads (.table 1) path.dropLast = (.table t, [])) :
    path.length ≤ 1 ∨ w.fields 1 (cString (path.headD "")) ≠ .nil := by
  rcases path with - | ⟨name, - | ⟨field, rest⟩⟩
  · exact .inl (Nat.zero_le 1)
  · exact .inl le_rfl
  · right
    intro hnil
    rw [List.headD_cons] at hnil
    rw [List.dropLast_cons_cons, leads_table, hnil, leads_of_none rfl] at h
    injection h with h _
    cases h

/-- The answer for a path that leads to a value through tables. -/
theorem Indexer.answer_of_leads {i : Indexer} {root : ℕ} (hroot : i.root x w = .table root)
    {path : List String} (hpath : path ≠ []) {t : ℕ}
    (hway : w.leads (.table root) path.dropLast = (.table t, [])) {u : LuaValue N}
    (hleads : w.leads (.table root) path = (u, [])) :
    i.answer x box slot w root path = .ok (clrValue x box slot w u) := by
  cases i with
  | state =>
      injection hroot with hroot
      rw [← hroot] at hway hleads
      have hpos := List.length_pos_iff.mpr hpath
      refine globalAnswer_of_first x box slot hleads (.inl rfl) ?_
      obtain hlength | hfirst := first_ne_nil hway
      · left
        omega
      · exact .inr hfirst
  | table reference => 
      rw [Indexer.answer, hleads, TableHeap.answer, if_pos (.inl rfl)]

/-- The answer for a path whose cells are as they were. -/
theorem Indexer.answer_kept {w₁ : TableHeap N Obj} (hwf : WellFormed x w) (hkept : Kept x w w₁)
    {i : Indexer} {root : ℕ} (hroot : i.root x w = .table root) {path : List String}
    (hpath : path ≠ []) {t : ℕ} {name : String} {u : LuaValue N}
    (hsame : ∀ cell ∈ w.onPath (.table root) path,
      (w₁.setField t name u).fields cell.1 cell.2 = w.fields cell.1 cell.2) :
    i.answer x box slot (w₁.setField t name u) root path = i.answer x box slot w root path := by
  have hanswer := TableHeap.answer_kept x box slot hwf hkept hsame
  cases i with
  | table reference => exact hanswer
  | state =>
      injection hroot with hroot
      rw [← hroot] at hsame hanswer
      obtain ⟨first, rest, rfl⟩ := List.exists_cons_of_ne_nil hpath
      have hfirst : (w₁.setField t name u).fields 1 (cString first) = w.fields 1 (cString first) :=
        hsame (1, cString first) List.mem_cons_self
      have hvalue : clrValue x box slot (w₁.setField t name u) (w.fields 1 (cString first)) =
          clrValue x box slot w (w.fields 1 (cString first)) :=
        clrValue_congr fun id hid => netObject_kept hwf hkept hid
      rw [Indexer.answer, Indexer.answer, globalAnswer, globalAnswer, hanswer, List.headD_cons, hfirst,
        hvalue]

/-- **An assignment to a path writes one cell.** -/
theorem set_writesCell (x : Vm N Obj (TableHeap N Obj)) (box : ClrValue N Obj → Obj)
    (slot : TableHeap N Obj → ℕ) (w : TableHeap N Obj) (hwf : WellFormed x w) (i : Indexer)
    (root : ℕ) (hroot : i.root x w = .table root) (fullPath : String) (t : ℕ)
    (hleads : w.leads (.table root) (fullPath.splitOn ".").dropLast = (.table t, []))
    (val : Option (ClrValue N Obj)) (hval : Pushable x val) :
    ∃ u w', WritesCell x box slot w w' i fullPath val t u := by
  obtain ⟨u, w₁, hpush, hkept⟩ := push_pushes x box slot hval (w := w)
  have hlt := root_lt hwf hroot
  have hpath := splitOn_ne_nil fullPath
  have hroot' : i.root x (w₁.setField t ((fullPath.splitOn ".").getLastD "") u) = .table root :=
    root_kept hwf hkept hroot
  refine ⟨u, w₁.setField t ((fullPath.splitOn ".").getLastD "") u, ?_⟩
  constructor
  · exact ⟨w₁, hpush⟩
  · rintro rfl
    injection hpush .nil [] with _ hnil
    injection hnil with _ hnil _
    injection hnil with hnil _
    exact hnil.symm
  · exact Indexer.set_run hroot hleads hpush
  · rw [hroot]
    exact hleads
  · exact setField_self t _ u
  · exact fun t' k => others_kept hkept
  · intro havoids c s
    rw [hroot] at havoids
    have hwritten := leads_written hwf hkept hlt hpath hleads havoids (u := u)
    have hway := follow_congr (prefix_kept hwf hkept hlt hleads havoids (u := u))
    rw [← Indexer.answer_of_leads hroot' hpath (hway.trans hleads) hwritten]
    exact Indexer.get_restores hroot' (.inl (by rw [hwritten])) c s
  · intro other hstays havoids c s
    rw [hroot] at hstays havoids
    have hsame := onPath_kept hwf hkept hlt havoids (u := u)
    have hleads' := follow_congr hsame
    refine ⟨_, Indexer.get_restores hroot hstays c s, ?_⟩
    rw [← Indexer.answer_kept hwf hkept hroot (splitOn_ne_nil other) hsame]
    refine Indexer.get_restores hroot' ?_ c s
    rw [StaysInTables, leads, hleads']
    exact hstays

/-! ### A table that contains itself -/

theorem splitOn_loop : "a.a".splitOn "." = ["a", "a"] :=
  (splitOn_singleton '.' "a.a").trans (by decide)

theorem splitOn_other : "a.b".splitOn "." = ["a", "b"] :=
  (splitOn_singleton '.' "a.b").trans (by decide)

theorem wellFormed_cyclic : WellFormed bare cyclic where
  globals := by decide
  closed t k i h := by
    obtain ⟨-, hi⟩ | ⟨-, hi⟩ := ite_eq_iff.mp h
    · injection hi with hi
      rw [← hi]
      decide
    · cases hi
  luaNet_objects := by decide
  live t k id h := by
    obtain ⟨-, hi⟩ | ⟨-, hi⟩ := ite_eq_iff.mp h
    · cases hi
    · cases hi

/-- Through the global `a`, which is the table of the globals, the global `b` is set. -/
theorem set_writesCell_cyclic :
    ∃ u w', WritesCell bare (fun _ => 0) (fun _ => 1) cyclic w' .state "a.b" (some (.double 5)) 1 u :=
  set_writesCell bare (fun _ => 0) (fun _ => 1) cyclic wellFormed_cyclic .state 1 rfl "a.b" 1
    (by rw [splitOn_other]; decide) (some (.double 5)) trivial

/-- Not every value that is assigned to a path of tables is read back: after `a.a = 5` in the heap
where `a` is the table of the globals, the path `a.a` indexes the number. -/
theorem readBack_fails :
    ¬ ∀ (w : TableHeap ℤ ℕ) (_ : WellFormed bare w) (fullPath : String) (t : ℕ)
      (_ : w.leads (.table 1) (fullPath.splitOn ".").dropLast = (.table t, []))
      (val : Option (ClrValue ℤ ℕ)) (_ : Pushable bare val),
      ∃ u w₁ w', Pushes (LuaState.push (vm bare (fun _ => 0) (fun _ => 1)) val) w u w₁ ∧
        ∀ c s, LuaState.setItem (vm bare (fun _ => 0) (fun _ => 1)) fullPath val ⟨c, s, w⟩ =
            (.ok (), ⟨c, s, w'⟩) ∧
          Restores (LuaState.getItem (vm bare (fun _ => 0) (fun _ => 1)) fullPath) ⟨c, s, w'⟩
            (.ok (clrValue bare (fun _ => 0) (fun _ => 1) w' u)) := by
  intro h
  have hleads : cyclic.leads (.table 1) ("a.a".splitOn ".").dropLast = (.table 1, []) := by
    rw [splitOn_loop]
    decide
  obtain ⟨u, w₁, w', -, hreads⟩ := h cyclic wellFormed_cyclic "a.a" 1 hleads (some (.double 5)) trivial
  obtain ⟨hset, hread⟩ := hreads .nil []
  have hnumber : Pushes (LuaState.push (vm bare (fun _ => 0) (fun _ => 1)) (some (.double 5))) cyclic
      (.number 5) cyclic := fun _ _ => rfl
  have hmachine := hset.symm.trans (setItem_run hleads hnumber .nil [])
  rw [splitOn_loop] at hmachine
  obtain rfl : w' = cyclic.setField 1 "a" (.number 5) := by
    injection hmachine with _ hmachine
    injection hmachine with _ _ hworld
  have hstuck : (cyclic.setField 1 "a" (.number 5)).leads (.table 1) ("a.a".splitOn ".") =
      (.number 5, ["a"]) := by
    rw [splitOn_loop]
    decide
  have hstays : (cyclic.setField 1 "a" (.number 5)).StaysInTables (.table 1)
      ("a.a".splitOn ".") := by
    rw [StaysInTables, hstuck]
    decide
  have herror := hread.unique (getItem_restores bare _ _ hstays .nil [])
  rw [globalAnswer, splitOn_loop] at herror
  cases herror

end TableHeap

end UnityLua
