import UnityLua.NetHeap

/-!
# The trip of an id through a userdata

`ObjectTranslator` makes three metatables under fixed names and one for each type of object that
it pushes. `pushNewObject` wraps an id into a userdata with one of them, and `lnet.c` knows the
userdata again by its metatable.

The names of the types come from the runtime; they contain a comma, and the fixed names do not.

## Main results

* `Registered`: which names of the registry have their tables; the metatables of types bear the
  tag.
* `Reachable.registered`: that holds whenever the constructor has run, whatever is pushed
  afterwards, and whatever other code does that leaves these entries alone.
* `userdata_trip`: a pushed userdata gives its id back, any other value gives -1, and the stack
  stays as it was.
-/

namespace UnityLua

open Library LuaLib NetHeap

variable {N Obj : Type}

/-- The functions in the metatables. -/
inductive MetaFunction
  | gcFunction
  | toStringFunction
  | baseIndexFunction
  | newindexFunction
  | classIndexFunction
  | classNewindexFunction
  | callConstructorFunction
  | execDelegateFunction

section Source

variable [DecidableEq N] (x : Vm N Obj (NetHeap N)) (metaFunctions : MetaFunction → LuaValue N)

/-! ### The constructor of `ObjectTranslator` -/

def createLuaObjectList : LuaM N Obj (NetHeap N) Unit := do
  LuaPushString "luaNet_objects"
  LuaNewTable (vm x)
  LuaNewTable (vm x)
  LuaPushString "__mode"
  LuaPushString "v"
  LuaSetTable (vm x) (.rel (-3))
  LuaSetMetaTable (vm x) (-2)
  LuaSetTable (vm x) .LUA_REGISTRYINDEX

/-- A field with a function in the table on the top. -/
def setField (field : String × MetaFunction) : LuaM N Obj (NetHeap N) Unit := do
  LuaPushString field.1
  push (metaFunctions field.2)
  LuaSetTable (vm x) (.rel (-3))

/-- A metatable under a name, with its functions. -/
def createMetatable (name : String) (fields : List (String × MetaFunction)) :
    LuaM N Obj (NetHeap N) Unit := do
  LuaLNewMetaTable (vm x) name
  Prog.forEach (setField x metaFunctions) fields
  LuaSetTop (-2)

def createBaseClassMetatable : LuaM N Obj (NetHeap N) Unit :=
  createMetatable x metaFunctions "luaNet_searchbase"
    [("__gc", .gcFunction), ("__tostring", .toStringFunction), ("__index", .baseIndexFunction),
      ("__newindex", .newindexFunction)]

def createClassMetatable : LuaM N Obj (NetHeap N) Unit :=
  createMetatable x metaFunctions "luaNet_class"
    [("__gc", .gcFunction), ("__tostring", .toStringFunction), ("__index", .classIndexFunction),
      ("__newindex", .classNewindexFunction), ("__call", .callConstructorFunction)]

def createFunctionMetatable : LuaM N Obj (NetHeap N) Unit :=
  createMetatable x metaFunctions "luaNet_function"
    [("__gc", .gcFunction), ("__call", .execDelegateFunction)]

/-! ### Pushing -/

/-- `lua_rawseti` for any `int`. -/
def luaRawseti (i n : ℤ) : LuaM N Obj (NetHeap N) Unit :=
  Prog.modify fun m => m.replaceTop 1 []
    (m.world.rawset (m.value (vm x) (.rel i)) (.number (x.ofInt n)) (m.value (vm x) (.rel (-1))))

/-- `ObjectTranslator.pushNewObject`. -/
def pushNewObject (o : ClrValue N Obj) (index : ℤ) (metatable : String) :
    LuaM N Obj (NetHeap N) Unit := do
  LuaState.getMetatable (vm x) o metatable
  LuaLGetMetaTable (vm x) "luaNet_objects"
  luanetNewudata index
  LuaPushValue (vm x) (-3)
  LuaRemove (-4)
  LuaSetMetaTable (vm x) (-2)
  LuaPushValue (vm x) (-1)
  luaRawseti x (-3) index
  LuaRemove (-2)

/-- The metatables that are asked for in the code. -/
def metatableNames : List String :=
  ["luaNet_metatable", "luaNet_class", "luaNet_function", "luaNet_searchbase"]

end Source

/-! ### The registry -/

/-- The names under which the constructor registers tables, the last one first. -/
def fixedNames : List String :=
  ["luaNet_function", "luaNet_class", "luaNet_searchbase", "luaNet_objects"]

/-- The names of the types, as C reads them, have a comma before the assembly. -/
def QualifiesNames (x : Vm N Obj (NetHeap N)) : Prop :=
  ∀ o, ',' ∈ (cString (x.assemblyQualifiedName o)).toList

/-- What the registry has under the names of the library: `names` are registered already, the
metatables of types bear the tag. -/
structure Registered (x : Vm N Obj (NetHeap N)) (names : List String) (w : NetHeap N) :
    Prop where
  fixed : names ⊆ fixedNames
  plain : w.metatables 0 = none
  pos : 0 < w.tables
  named : ∀ name ∈ names, ∃ t < w.tables, w.registered name = .table t
  free : ∀ name ∈ fixedNames, name ∉ names → w.registered name = .nil
  typed : ∀ o, w.registered (x.assemblyQualifiedName o) = .nil ∨
    ∃ t < w.tables, w.registered (x.assemblyQualifiedName o) = .table t ∧
      w.cells t (.lightUserdata x.tag) ≠ .nil

/-- The names that the library uses in the registry. -/
def IsLibraryName (x : Vm N Obj (NetHeap N)) (name : String) : Prop :=
  name ∈ fixedNames ∨ ∃ o, name = x.assemblyQualifiedName o

/-- Other code may do anything but change the entries of the library in the registry, take the
tag from a metatable, or give the registry a metatable. -/
structure LeavesRegistry (x : Vm N Obj (NetHeap N)) (w w' : NetHeap N) : Prop where
  plain : w.metatables 0 = none → w'.metatables 0 = none
  tables : w.tables ≤ w'.tables
  registered : ∀ name, IsLibraryName x name → w'.registered name = w.registered name
  tagged : ∀ o t, w.registered (x.assemblyQualifiedName o) = .table t →
    w.cells t (.lightUserdata x.tag) ≠ .nil → w'.cells t (.lightUserdata x.tag) ≠ .nil

variable {x : Vm N Obj (NetHeap N)} {w w' w'' : NetHeap N} {names : List String}

namespace LeavesRegistry

theorem refl (w : NetHeap N) : LeavesRegistry x w w :=
  ⟨fun h => h, Nat.le_refl _, fun _ _ => rfl, fun _ _ _ h => h⟩

theorem trans (h : LeavesRegistry x w w') (h' : LeavesRegistry x w' w'') :
    LeavesRegistry x w w'' where
  plain hplain := h'.plain (h.plain hplain)
  tables := Nat.le_trans h.tables h'.tables
  registered name hname := (h'.registered name hname).trans (h.registered name hname)
  tagged o t hentry htag :=
    h'.tagged o t ((h.registered _ (Or.inr ⟨o, rfl⟩)).trans hentry) (h.tagged o t hentry htag)

theorem newudata (w : NetHeap N) (val : ℤ) : LeavesRegistry x w (w.newudata val).2 :=
  ⟨fun h => h, Nat.le_refl _, fun _ _ => rfl, fun _ _ _ h => h⟩

/-- The registry gets no metatable. -/
theorem setmetatable (w : NetHeap N) {v : LuaValue N} (hv : v ≠ .table 0) (mt : LuaValue N) :
    LeavesRegistry x w (w.setmetatable v mt) := by
  cases v with
  | table t =>
      have ht : 0 ≠ t := by
        rintro rfl
        exact hv rfl
      exact ⟨fun h => (if_neg ht).trans h, Nat.le_refl _, fun _ _ => rfl, fun _ _ _ h => h⟩
  | _ => exact ⟨fun h => h, Nat.le_refl _, fun _ _ => rfl, fun _ _ _ h => h⟩

/-- A new table is none of the metatables of types. -/
theorem createtable (hpos : 0 < w.tables)
    (hlt : ∀ o t, w.registered (x.assemblyQualifiedName o) = .table t → t < w.tables) :
    LeavesRegistry x w w.createtable.2 where
  plain hplain := by
    change (if 0 = w.tables then none else w.metatables 0) = none
    rw [hplain, ite_self]
  tables := Nat.le_succ _
  registered name _ := cells_createtable hpos _
  tagged o t hentry htag := by rwa [cells_createtable (hlt o t hentry)]

variable [DecidableEq N]

/-- Writing anything but a name of the registry or no tag. -/
theorem write (w : NetHeap N) {t : ℕ} {k v : LuaValue N} (hname : t = 0 → ∀ n, k ≠ .string n)
    (htag : k = .lightUserdata x.tag → v ≠ .nil) : LeavesRegistry x w (w.write t k v) where
  plain h := h
  tables := Nat.le_refl _
  registered name _ := if_neg fun h => hname h.1.symm _ h.2.symm
  tagged o t' _ htag' := by
    change (if t' = t ∧ .lightUserdata x.tag = k then v else _) ≠ .nil
    split
    · next h => exact htag h.2.symm
    · exact htag'

end LeavesRegistry

namespace Registered

theorem after (h : Registered x names w) (hkept : LeavesRegistry x w w') :
    Registered x names w' where
  fixed := h.fixed
  plain := hkept.plain h.plain
  pos := Nat.lt_of_lt_of_le h.pos hkept.tables
  named name hname := by
    obtain ⟨t, ht, hentry⟩ := h.named name hname
    exact ⟨t, Nat.lt_of_lt_of_le ht hkept.tables,
      (hkept.registered name (Or.inl (h.fixed hname))).trans hentry⟩
  free name hname hfree := (hkept.registered name (Or.inl hname)).trans (h.free name hname hfree)
  typed o := by
    rw [hkept.registered _ (Or.inr ⟨o, rfl⟩)]
    rcases h.typed o with hnil | ⟨t, ht, hentry, htag⟩
    · exact Or.inl hnil
    · exact Or.inr ⟨t, Nat.lt_of_lt_of_le ht hkept.tables, hentry, hkept.tagged o t hentry htag⟩

/-- The metatables of types are tables that were made. -/
theorem lt_tables (h : Registered x names w) (o : ClrValue N Obj) {t : ℕ}
    (hentry : w.registered (x.assemblyQualifiedName o) = .table t) : t < w.tables := by
  rcases h.typed o with hnil | ⟨t', ht', hentry', -⟩
  · exact absurd (hnil.symm.trans hentry) (by simp)
  · obtain rfl : t' = t := LuaValue.table.inj (hentry'.symm.trans hentry)
    exact ht'

theorem createtable (h : Registered x names w) : LeavesRegistry x w w.createtable.2 :=
  .createtable h.pos h.lt_tables

variable [DecidableEq N]

theorem registered_write (w : NetHeap N) (name name' : String) (v : LuaValue N) :
    (w.write 0 (.string (cString name)) v).registered name' =
      if cString name' = cString name then v else w.registered name' := by
  simp [NetHeap.registered, NetHeap.fields, NetHeap.write]

/-- The names of the constructor are different ones for C, too. -/
theorem cString_fixedNames :
    ∀ name ∈ fixedNames, ∀ name' ∈ fixedNames, cString name = cString name' → name = name' := by
  decide

theorem comma_notMem : ∀ name ∈ fixedNames, ',' ∉ (cString name).toList := by
  decide

/-- One more of the fixed names is registered. -/
theorem enter (h : Registered x names w) (hq : QualifiesNames x) {name : String}
    (hname : name ∈ fixedNames) {t : ℕ} (ht : t < w.tables) :
    Registered x (name :: names) (w.write 0 (.string (cString name)) (.table t)) where
  fixed := List.cons_subset.mpr ⟨hname, h.fixed⟩
  plain := h.plain
  pos := h.pos
  named name' hname' := by
    rw [registered_write]
    split
    · exact ⟨t, ht, rfl⟩
    · next hne =>
        rcases List.mem_cons.mp hname' with rfl | hmem
        · exact absurd rfl hne
        · exact h.named name' hmem
  free name' hname' hfree := by
    rw [registered_write, if_neg]
    · exact h.free name' hname' fun hmem => hfree (List.mem_cons_of_mem _ hmem)
    · intro heq
      obtain rfl := cString_fixedNames name' hname' name hname heq
      exact hfree List.mem_cons_self
  typed o := by
    have hne : cString (x.assemblyQualifiedName o) ≠ cString name := fun heq =>
      comma_notMem name hname (heq ▸ hq o)
    have hcell : ∀ t', (w.write 0 (.string (cString name)) (.table t)).cells t'
        (.lightUserdata x.tag) = w.cells t' (.lightUserdata x.tag) := fun t' =>
      if_neg fun h => by simpa using h.2
    rw [registered_write, if_neg hne]
    simp only [hcell]
    exact h.typed o

/-- The metatable of a type is registered, and gets its tag before anything else happens to
it. -/
theorem enterType (h : Registered x names w) (hq : QualifiesNames x) (o : ClrValue N Obj) {t : ℕ}
    (ht : t < w.tables)
    (hkept : LeavesRegistry x
      (w.write 0 (.string (cString (x.assemblyQualifiedName o))) (.table t)) w')
    (htag : w'.cells t (.lightUserdata x.tag) ≠ .nil) : Registered x names w' where
  fixed := h.fixed
  plain := hkept.plain h.plain
  pos := Nat.lt_of_lt_of_le h.pos hkept.tables
  named name hname := by
    obtain ⟨t', ht', hentry⟩ := h.named name hname
    have hne : cString name ≠ cString (x.assemblyQualifiedName o) := fun heq =>
      comma_notMem name (h.fixed hname) (heq ▸ hq o)
    refine ⟨t', Nat.lt_of_lt_of_le ht' hkept.tables, ?_⟩
    rw [hkept.registered name (Or.inl (h.fixed hname)), registered_write, if_neg hne, hentry]
  free name hname hfree := by
    have hne : cString name ≠ cString (x.assemblyQualifiedName o) := fun heq =>
      comma_notMem name hname (heq ▸ hq o)
    rw [hkept.registered name (Or.inl hname), registered_write, if_neg hne]
    exact h.free name hname hfree
  typed o' := by
    have hentry := hkept.registered _ (Or.inr ⟨o', rfl⟩)
    rw [registered_write] at hentry
    split at hentry
    · exact Or.inr ⟨t, Nat.lt_of_lt_of_le ht hkept.tables, hentry, htag⟩
    · next hne =>
        rw [hentry]
        rcases h.typed o' with hnil | ⟨t', ht', hold, htag'⟩
        · exact Or.inl hnil
        · refine Or.inr ⟨t', Nat.lt_of_lt_of_le ht' hkept.tables, hold, hkept.tagged o' t' ?_ ?_⟩
          · rw [registered_write, if_neg hne, hold]
          · exact fun hnil => htag' ((if_neg fun h => by simpa using h.2).symm.trans hnil)

end Registered

/-! ### What the programs do -/

section Programs

variable [DecidableEq N] {metaFunctions : MetaFunction → LuaValue N}

/-- The program leaves the stack as it was, and everything else as in `w'`. -/
def Keeps (p : LuaM N Obj (NetHeap N) Unit) (w w' : NetHeap N) : Prop :=
  ∀ c s, p ⟨c, s, w⟩ = (.ok (), ⟨c, s, w'⟩)

/-- A field of a table without a metatable. -/
theorem LuaSetTable_plain {m : Machine N (NetHeap N)} {i : StackIndex} {t : ℕ} {k : String}
    (hi : m.value (vm x) i = .table t) (hk : m.value (vm x) (.rel (-2)) = .string k)
    (hplain : m.world.metatables t = none) :
    LuaSetTable (vm x) i m = (.ok (), m.replaceTop 2 []
      (m.world.write t (.string k) (m.value (vm x) (.rel (-1))))) := by
  have hset : (vm x).settable m.world (.table t) (.string k) (m.value (vm x) (.rel (-1))) =
      some (m.world.write t (.string k) (m.value (vm x) (.rel (-1)))) := settable_plain hplain k _
  rw [LuaSetTable, hi, hk]
  split
  · next h => exact absurd (hset.symm.trans h) (by simp)
  · next h =>
      obtain rfl := Option.some.inj (hset.symm.trans h)
      rfl

theorem LuaSetTable_registry (hplain : w.metatables 0 = none) (name : String) (v c : LuaValue N)
    (s : List (LuaValue N)) :
    LuaSetTable (vm x) .LUA_REGISTRYINDEX ⟨c, v :: .string name :: s, w⟩ =
      (.ok (), ⟨c, s, w.write 0 (.string name) v⟩) :=
  LuaSetTable_plain rfl rfl hplain

/-- The table of `luaNet_objects` with its weak values. -/
def weakTable (w : NetHeap N) : NetHeap N :=
  (w.createtable.2.createtable.2.write (w.tables + 1) (.string (cString "__mode"))
    (.string (cString "v"))).setmetatable (.table w.tables) (.table (w.tables + 1))

theorem Registered.weakTable (h : Registered x names w) : LeavesRegistry x w (weakTable w) := by
  have hpos := h.pos
  have hfirst := h.createtable
  have hsecond := (h.after hfirst).createtable
  refine ((hfirst.trans hsecond).trans (LeavesRegistry.write _ ?_ ?_)).trans
    (LeavesRegistry.setmetatable _ ?_ _)
  · intro hzero
    exact absurd hzero (Nat.succ_ne_zero _)
  · exact fun _ => by simp
  · simp only [ne_eq, LuaValue.table.injEq]
    omega

theorem createLuaObjectList_keeps (h : Registered x names w) :
    Keeps (createLuaObjectList x) w
      ((weakTable w).write 0 (.string (cString "luaNet_objects")) (.table w.tables)) := by
  intro c s
  have hpushed : createLuaObjectList x ⟨c, s, w⟩ =
      (do
        LuaSetTable (vm x) (.rel (-3))
        LuaSetMetaTable (vm x) (-2)
        LuaSetTable (vm x) .LUA_REGISTRYINDEX)
      ⟨c, .string (cString "v") :: .string (cString "__mode") :: .table (w.tables + 1) ::
        .table w.tables :: .string (cString "luaNet_objects") :: s,
        w.createtable.2.createtable.2⟩ := rfl
  have hfresh : w.createtable.2.createtable.2.metatables (w.tables + 1) = none := if_pos rfl
  rw [hpushed]
  refine (Prog.bind_ok (LuaSetTable_plain rfl rfl hfresh)).trans ?_
  exact LuaSetTable_registry (w := weakTable w) (h.weakTable.plain h.plain) _ _ c s

theorem Registered.createLuaObjectList (h : Registered x names w) (hq : QualifiesNames x) :
    ∃ w', Keeps (createLuaObjectList x) w w' ∧ Registered x ("luaNet_objects" :: names) w' := by
  have htables : w.tables < (UnityLua.weakTable w).tables := by
    change w.tables < w.tables + 1 + 1
    omega
  exact ⟨_, createLuaObjectList_keeps h,
    (h.after h.weakTable).enter hq (by decide) htables⟩

/-- A metatable under a name that is free. -/
theorem LuaLNewMetaTable_free (h : Registered x names w) {name : String}
    (hfree : w.registered name = .nil) (c : LuaValue N) (s : List (LuaValue N)) :
    LuaLNewMetaTable (vm x) name ⟨c, s, w⟩ = (.ok (), ⟨c, .table w.tables :: s,
      w.createtable.2.write 0 (.string (cString name)) (.table w.tables)⟩) := by
  have hrest : (do
        if (← LuaType (vm x) (-1)) = .LUA_TNIL then
          LuaPop 1
          LuaNewTable (vm x)
          LuaPushValue (vm x) (-1)
          LuaPushString name
          LuaInsert (vm x) (-2)
          LuaSetTable (vm x) .LUA_REGISTRYINDEX : LuaM N Obj (NetHeap N) Unit)
        ⟨c, .nil :: s, w⟩ =
      LuaSetTable (vm x) .LUA_REGISTRYINDEX ⟨c, .table w.tables :: .string (cString name) ::
        .table w.tables :: s, w.createtable.2⟩ := rfl
  rw [LuaLNewMetaTable, Prog.bind_ok (LuaLGetMetaTable_registered h.plain name c s), hfree, hrest]
  exact LuaSetTable_registry (h.createtable.plain h.plain) _ _ _ _

/-- The fields of a metatable that is not the registry. -/
theorem setFields_keeps (metaFunctions : MetaFunction → LuaValue N) {t : ℕ} (ht : 0 < t)
    (hplain : w.metatables t = none) (fields : List (String × MetaFunction)) :
    ∃ w', (∀ c s, Prog.forEach (setField x metaFunctions) fields ⟨c, .table t :: s, w⟩ =
        (.ok (), ⟨c, .table t :: s, w'⟩)) ∧ LeavesRegistry x w w' := by
  induction fields generalizing w with
  | nil => exact ⟨w, fun _ _ => rfl, .refl w⟩
  | cons field fields ih =>
      obtain ⟨w', hrun, hkept⟩ :=
        ih (w := w.write t (.string (cString field.1)) (metaFunctions field.2)) hplain
      refine ⟨w', fun c s => ?_, .trans (.write w ?_ ?_) hkept⟩
      · have hfield : setField x metaFunctions field ⟨c, .table t :: s, w⟩ = (.ok (),
            ⟨c, .table t :: s, w.write t (.string (cString field.1)) (metaFunctions field.2)⟩) :=
          LuaSetTable_plain rfl rfl hplain
        exact (Prog.bind_ok hfield).trans (hrun c s)
      · exact fun hzero => absurd hzero (Nat.ne_of_gt ht)
      · exact fun htag => by simp at htag

theorem Registered.createMetatable (h : Registered x names w) (hq : QualifiesNames x)
    (name : String) (hname : name ∈ fixedNames) (hnew : name ∉ names)
    (fields : List (String × MetaFunction)) :
    ∃ w', Keeps (createMetatable x metaFunctions name fields) w w' ∧
      Registered x (name :: names) w' := by
  have hfree := h.free name hname hnew
  have hfresh : w.createtable.2.metatables w.tables = none := if_pos rfl
  obtain ⟨w', hfields, hkept⟩ := setFields_keeps (x := x) metaFunctions h.pos
    (w := w.createtable.2.write 0 (.string (cString name)) (.table w.tables)) hfresh fields
  refine ⟨w', fun c s => ?_, ?_⟩
  · rw [UnityLua.createMetatable, Prog.bind_ok (LuaLNewMetaTable_free h hfree c s),
      Prog.bind_ok (hfields c s)]
    rfl
  · exact ((h.after h.createtable).enter hq hname (Nat.lt_succ_self _)).after hkept

/-- What `pushNewObject` puts into the metatable of a type. -/
def metafields (x : Vm N Obj (NetHeap N)) (w : NetHeap N) (t : ℕ) : NetHeap N :=
  let w₁ := w.createtable.2.write t (.string (cString "cache")) w.createtable.1
  let w₂ := w₁.write t (.lightUserdata x.tag) (.number (x.ofNat 1))
  let w₃ := w₂.write t (.string (cString "__index")) (w₂.registered "luaNet_indexfunction")
  ((w₃.write t (.string (cString "__gc")) (x.cFunction .gcFunction)).write t
    (.string (cString "__tostring")) (x.cFunction .toStringFunction)).write t
    (.string (cString "__newindex")) (x.cFunction .newindexFunction)

theorem metafields_leaves {t : ℕ} (hpos : 0 < w.tables)
    (hlt : ∀ o t, w.registered (x.assemblyQualifiedName o) = .table t → t < w.tables)
    (ht : 0 < t) : LeavesRegistry x w (metafields x w t) := by
  have hfield : ∀ (w : NetHeap N) name v, LeavesRegistry x w (w.write t (.string name) v) :=
    fun w name v => .write w (fun hzero => absurd hzero (Nat.ne_of_gt ht)) fun h => by simp at h
  have htag : ∀ (w : NetHeap N) n,
      LeavesRegistry x w (w.write t (.lightUserdata x.tag) (.number n)) :=
    fun w n => .write w (fun hzero => absurd hzero (Nat.ne_of_gt ht)) fun _ => by simp
  exact (((((LeavesRegistry.createtable hpos hlt).trans (hfield _ _ _)).trans (htag _ _)).trans
    (hfield _ _ _)).trans (hfield _ _ _)).trans ((hfield _ _ _).trans (hfield _ _ _))

theorem metafields_tag (w : NetHeap N) (t : ℕ) :
    (metafields x w t).cells t (.lightUserdata x.tag) = .number (x.ofNat 1) := by
  simp [metafields, NetHeap.write]

/-- The metatable of a type is made if it is not there. -/
theorem Registered.getTypeMetatable (h : Registered x names w) (hq : QualifiesNames x)
    (o : ClrValue N Obj) :
    ∃ t w', (∀ c s, LuaState.getTypeMetatable (vm x) o ⟨c, s, w⟩ =
        (.ok (), ⟨c, .table t :: s, w'⟩)) ∧ Registered x names w' ∧
      w'.cells t (.lightUserdata x.tag) ≠ .nil := by
  have hstart : ∀ c s, LuaState.getTypeMetatable (vm x) o ⟨c, s, w⟩ = _ := fun c s =>
    Prog.bind_ok (LuaLGetMetaTable_registered h.plain (x.assemblyQualifiedName o) c s)
  rcases h.typed o with hfree | ⟨t, -, hentry, htag⟩
  · have hbelow : ∀ o' t, (w.createtable.2.write 0
        (.string (cString (x.assemblyQualifiedName o))) (.table w.tables)).registered
          (x.assemblyQualifiedName o') = .table t → t < w.tables + 1 := by
      intro o' t hentry
      rw [registered_write] at hentry
      split at hentry
      · exact Nat.lt_succ_of_le (Nat.le_of_eq (LuaValue.table.inj hentry).symm)
      · rw [h.createtable.registered _ (Or.inr ⟨o', rfl⟩)] at hentry
        exact Nat.lt_succ_of_lt (h.lt_tables o' hentry)
    have hnew : (metafields x (w.createtable.2.write 0
        (.string (cString (x.assemblyQualifiedName o))) (.table w.tables)) w.tables).cells
          w.tables (.lightUserdata x.tag) ≠ .nil := by
      rw [metafields_tag]
      simp
    refine ⟨w.tables, _, fun c s => ?_, (h.after h.createtable).enterType hq o
      (Nat.lt_succ_self _) (metafields_leaves (Nat.succ_pos _) hbelow h.pos) hnew, hnew⟩
    have htop : (LuaSetTop (-2) : LuaM N Obj (NetHeap N) Unit) ⟨c, .nil :: s, w⟩ =
        (.ok (), ⟨c, s, w⟩) := rfl
    rw [hstart, hfree, LuaType, Prog.gets_bind, Prog.ite_apply]
    refine (if_pos rfl).trans ((Prog.bind_ok htop).trans ?_)
    refine (Prog.bind_ok (LuaLNewMetaTable_free h hfree c s)).trans ?_
    rfl
  · have htable : (.table t : LuaValue N).luaType ≠ .LUA_TNIL := by simp [LuaValue.luaType]
    refine ⟨t, w, fun c s => ?_, h, htag⟩
    rw [hstart, hentry, LuaType, Prog.gets_bind, Prog.ite_apply]
    exact if_neg htable

theorem classNames_subset : classNames ⊆ fixedNames := by
  decide

/-- The metatable that `pushNewObject` takes bears the tag, or is one of the named ones. -/
theorem Registered.getMetatable (h : Registered x fixedNames w) (hq : QualifiesNames x)
    (o : ClrValue N Obj) {metatable : String} (hm : metatable ∈ metatableNames) :
    ∃ t w', (∀ c s, LuaState.getMetatable (vm x) o metatable ⟨c, s, w⟩ =
        (.ok (), ⟨c, .table t :: s, w'⟩)) ∧ Registered x fixedNames w' ∧
      (w'.cells t (.lightUserdata x.tag) ≠ .nil ∨
        ∃ tname ∈ classNames, w'.registered tname = .table t) := by
  rw [LuaState.getMetatable]
  split
  · obtain ⟨t, w', hpush, hw', htag⟩ := h.getTypeMetatable hq o
    exact ⟨t, w', hpush, hw', Or.inl htag⟩
  · next hne =>
      have hclass : metatable ∈ classNames := by
        simp only [metatableNames, List.mem_cons, List.not_mem_nil, or_false] at hm
        rcases hm with rfl | rfl | rfl | rfl
        · exact absurd rfl hne
        all_goals decide
      obtain ⟨t, -, hentry⟩ := h.named metatable (classNames_subset hclass)
      refine ⟨t, w, fun c s => ?_, h, Or.inr ⟨metatable, hclass, hentry⟩⟩
      rw [LuaLGetMetaTable_registered h.plain, hentry]

/-- The heap with the new userdata, and its entry in `luaNet_objects`. -/
def withUserdata (x : Vm N Obj (NetHeap N)) (w : NetHeap N) (mt : LuaValue N) (index : ℤ) :
    NetHeap N :=
  ((w.newudata index).2.setmetatable (.userdata w.udata) mt).rawset
    (w.registered "luaNet_objects") (.number (x.ofInt index)) (.userdata w.udata)

/-- The entry of `luaNet_objects` for an id. -/
def entry (x : Vm N Obj (NetHeap N)) (w : NetHeap N) (index : ℤ) : LuaValue N :=
  w.rawget (w.registered "luaNet_objects") (.number (x.ofInt index))

theorem withUserdata_leaves (w : NetHeap N) (mt : LuaValue N) (index : ℤ) :
    LeavesRegistry x w (withUserdata x w mt index) := by
  have hudata : (.userdata w.udata : LuaValue N) ≠ .table 0 := by simp
  refine ((LeavesRegistry.newudata w index).trans (.setmetatable _ hudata mt)).trans ?_
  rw [withUserdata]
  cases w.registered "luaNet_objects" with
  | table t => exact .write _ (fun _ n => by simp) fun h => by simp at h
  | _ => exact .refl _

theorem withUserdata_write {t : ℕ} (hobjects : w.registered "luaNet_objects" = .table t)
    (mt : LuaValue N) (index : ℤ) :
    withUserdata x w mt index = ((w.newudata index).2.setmetatable (.userdata w.udata) mt).write t
      (.number (x.ofInt index)) (.userdata w.udata) := by
  rw [withUserdata, hobjects]
  rfl

/-- A pushed userdata: where it is found, and which id it has. -/
theorem withUserdata_spec (h : Registered x fixedNames w) {t : ℕ} (index : ℤ)
    (ht : w.cells t (.lightUserdata x.tag) ≠ .nil ∨
      ∃ tname ∈ classNames, w.registered tname = .table t) :
    entry x (withUserdata x w (.table t) index) index = .userdata w.udata ∧
      netId x (withUserdata x w (.table t) index) (.userdata w.udata) = index := by
  obtain ⟨objects, -, hobjects⟩ := h.named "luaNet_objects" (by decide)
  have hsame := fun name hname =>
    (withUserdata_leaves (x := x) w (.table t) index).registered name (Or.inl hname)
  have hentry := hsame "luaNet_objects" (by decide)
  have htag : (withUserdata x w (.table t) index).cells t (.lightUserdata x.tag) =
      w.cells t (.lightUserdata x.tag) := by
    rw [withUserdata_write hobjects]
    exact if_neg fun hk => by simpa using hk.2
  have hmeta : (withUserdata x w (.table t) index).getmetatable (.userdata w.udata) = some t := by
    rw [withUserdata_write hobjects]
    exact if_pos rfl
  have hblock : (withUserdata x w (.table t) index).block w.udata = index := by
    rw [withUserdata_write hobjects]
    exact if_pos rfl
  constructor
  · rw [entry, hentry, hobjects, withUserdata_write hobjects]
    exact if_pos ⟨rfl, rfl⟩
  · have hnet : isNetObject x (withUserdata x w (.table t) index) (.userdata w.udata) = true := by
      rw [isNetObject, Bool.or_eq_true]
      rcases ht with htagged | ⟨tname, hclass, hnamed⟩
      · left
        rw [bearsTag, hmeta, Option.any_some, htag]
        exact decide_eq_true htagged
      · right
        refine List.any_eq_true.mpr ⟨tname, hclass, ?_⟩
        rw [hasMetatable, hmeta, Option.any_some, hsame tname (classNames_subset hclass), hnamed]
        exact decide_eq_true rfl
    rw [netId, if_pos hnet, hblock]

/-- One value is pushed, the userdata with the id. -/
theorem Registered.pushNewObject (h : Registered x fixedNames w) (hq : QualifiesNames x)
    (o : ClrValue N Obj) (index : ℤ) {metatable : String} (hm : metatable ∈ metatableNames) :
    ∃ v w', (∀ c s, pushNewObject x o index metatable ⟨c, s, w⟩ =
        (.ok (), ⟨c, v :: s, w'⟩)) ∧ Registered x fixedNames w' ∧
      entry x w' index = v ∧ netId x w' v = index := by
  obtain ⟨t, w₁, hpush, hw₁, ht⟩ := h.getMetatable hq o hm
  obtain ⟨hentry, hid⟩ := withUserdata_spec hw₁ index ht
  refine ⟨.userdata w₁.udata, withUserdata x w₁ (.table t) index, fun c s => ?_,
    hw₁.after (withUserdata_leaves w₁ (.table t) index), hentry, hid⟩
  rw [UnityLua.pushNewObject, Prog.bind_ok (hpush c s),
    Prog.bind_ok (LuaLGetMetaTable_registered hw₁.plain "luaNet_objects" c (.table t :: s))]
  rfl

/-! ### The states of a translator -/

variable (x metaFunctions) in
/-- What a program may make of a heap, whatever is on the stack. -/
def Runs (p : LuaM N Obj (NetHeap N) Unit) (w w' : NetHeap N) : Prop :=
  ∃ c s r m, p ⟨c, s, w⟩ = (r, m) ∧ m.world = w'

omit [DecidableEq N] in
theorem Keeps.runs {p : LuaM N Obj (NetHeap N) Unit} (h : Keeps p w w') : Runs p w w' :=
  ⟨.nil, [], .ok (), _, h .nil [], rfl⟩

omit [DecidableEq N] in
theorem Keeps.eq_of_runs {p : LuaM N Obj (NetHeap N) Unit} (h : Keeps p w w')
    (hruns : Runs p w w'') : w'' = w' := by
  obtain ⟨c, s, r, m, hp, rfl⟩ := hruns
  rw [h c s] at hp
  obtain ⟨-, rfl⟩ := Prod.mk.inj hp
  rfl

variable (x metaFunctions) in
/-- The heaps after the constructor of `ObjectTranslator`, with whatever is pushed and whatever
other code does. -/
inductive Reachable : NetHeap N → Prop
  | constructed {w₀ w₁ w₂ w₃ w₄ w₅ : NetHeap N} (hfree : Registered x [] w₀)
      (hobjects : Runs (createLuaObjectList x) w₀ w₁) (hother : LeavesRegistry x w₁ w₂)
      (hbase : Runs (createBaseClassMetatable x metaFunctions) w₂ w₃)
      (hclass : Runs (createClassMetatable x metaFunctions) w₃ w₄)
      (hfunction : Runs (createFunctionMetatable x metaFunctions) w₄ w₅) : Reachable w₅
  | pushed {w w' : NetHeap N} {o : ClrValue N Obj} {index : ℤ} {metatable : String}
      (h : Reachable w) (hm : metatable ∈ metatableNames)
      (hpush : Runs (pushNewObject x o index metatable) w w') : Reachable w'
  | other {w w' : NetHeap N} (h : Reachable w) (hother : LeavesRegistry x w w') : Reachable w'

/-- The constructor succeeds where its names are free. -/
theorem Registered.exists_reachable (h : Registered x [] w) (hq : QualifiesNames x)
    (metaFunctions : MetaFunction → LuaValue N) : ∃ w', Reachable x metaFunctions w' := by
  obtain ⟨w₁, hobjects, h₁⟩ := h.createLuaObjectList hq
  obtain ⟨w₂, hbase, h₂⟩ := h₁.createMetatable hq "luaNet_searchbase" (by decide) (by decide) _
  obtain ⟨w₃, hclass, h₃⟩ := h₂.createMetatable hq "luaNet_class" (by decide) (by decide) _
  obtain ⟨w₄, hfunction, -⟩ := h₃.createMetatable hq "luaNet_function" (by decide) (by decide) _
  exact ⟨w₄, .constructed h hobjects.runs (.refl w₁) hbase.runs hclass.runs hfunction.runs⟩

/-- All names of the constructor have their tables. -/
theorem Reachable.registered (h : Reachable x metaFunctions w) (hq : QualifiesNames x) :
    Registered x fixedNames w := by
  induction h with
  | constructed hfree hobjects hother hbase hclass hfunction =>
      obtain ⟨w₁, hkeeps, h₁⟩ := hfree.createLuaObjectList hq
      obtain rfl := hkeeps.eq_of_runs hobjects
      obtain ⟨w₃, hkeeps, h₃⟩ := (h₁.after hother).createMetatable hq "luaNet_searchbase"
        (by decide) (by decide) _
      obtain rfl := hkeeps.eq_of_runs hbase
      obtain ⟨w₄, hkeeps, h₄⟩ := h₃.createMetatable hq "luaNet_class" (by decide) (by decide) _
      obtain rfl := hkeeps.eq_of_runs hclass
      obtain ⟨w₅, hkeeps, h₅⟩ := h₄.createMetatable hq "luaNet_function" (by decide) (by decide) _
      obtain rfl := hkeeps.eq_of_runs hfunction
      exact h₅
  | pushed _ hm hpush ih =>
      obtain ⟨v, w', hkeeps, hw', -⟩ := ih.pushNewObject hq _ _ hm
      obtain ⟨c, s, r, m, hp, rfl⟩ := hpush
      rw [hkeeps c s] at hp
      obtain ⟨-, rfl⟩ := Prod.mk.inj hp
      exact hw'
  | other _ hother ih => exact ih.after hother

/-- The values that are userdata of the library. -/
def IsNetUserdata (x : Vm N Obj (NetHeap N)) (w : NetHeap N) (v : LuaValue N) : Prop :=
  ∃ u t, v = .userdata u ∧ w.udataMetatables u = some t ∧
    (w.cells t (.lightUserdata x.tag) ≠ .nil ∨ ∃ tname ∈ classNames, w.registered tname = .table t)

theorem netId_of_not {v : LuaValue N} (h : ¬ IsNetUserdata x w v) : netId x w v = -1 := by
  cases v with
  | userdata u =>
      refine if_neg fun hnet => h ?_
      rw [isNetObject, Bool.or_eq_true, bearsTag, Option.any_eq_true] at hnet
      rcases hnet with ⟨t, ht, htag⟩ | hnamed
      · exact ⟨u, t, rfl, ht, Or.inl (of_decide_eq_true htag)⟩
      · obtain ⟨tname, hclass, hmeta⟩ := List.any_eq_true.mp hnamed
        rw [hasMetatable, Option.any_eq_true] at hmeta
        obtain ⟨t, ht, hentry⟩ := hmeta
        exact ⟨u, t, rfl, ht, Or.inr ⟨tname, hclass, of_decide_eq_true hentry⟩⟩
  | _ => rfl

/-- **An id survives the trip through a userdata**, and nothing else is taken for one. -/
theorem userdata_trip (hq : QualifiesNames x) (h : Reachable x metaFunctions w) :
    (∀ o index, ∀ metatable ∈ metatableNames, ∃ v w',
      (∀ c s, pushNewObject x o index metatable ⟨c, s, w⟩ = (.ok (), ⟨c, v :: s, w'⟩)) ∧
        entry x w' index = v ∧
        ∀ m i, m.world = w' → m.value (vm x) i = v →
          luanetTonetobject x i m = (.ok index, m)) ∧
      ∀ m i, m.world = w →
        (∃ r, luaLCheckmetatable x i m = (.ok r, m)) ∧
        (∀ tname, ∃ r, luanetCheckudata x i tname m = (.ok r, m)) ∧
        ∃ r, luanetTonetobject x i m = (.ok r, m) ∧
          (¬ IsNetUserdata x w (m.value (vm x) i) → r = -1) := by
  have hreg := h.registered hq
  constructor
  · intro o index metatable hm
    obtain ⟨v, w', hpush, hw', hentry, hid⟩ := hreg.pushNewObject hq o index hm
    refine ⟨v, w', hpush, hentry, ?_⟩
    rintro m i rfl rfl
    rw [luanetTonetobject_eq hw'.plain, hid]
  · rintro m i rfl
    exact ⟨⟨_, luaLCheckmetatable_eq⟩, luanetCheckudata_eq hreg.plain, _,
      luanetTonetobject_eq hreg.plain, netId_of_not⟩

end Programs

/-! ### A pushed object -/

/-- A Lua state whose numbers are integers, with one type of objects. -/
def sampleVm : Vm ℤ ℕ (NetHeap ℤ) :=
  { (default : Vm ℤ ℕ (NetHeap ℤ)) with
    ofNat := fun n => n
    ofInt := fun n => n
    assemblyQualifiedName := fun _ => "System.Object, mscorlib" }

/-- A Lua state in which nothing was done. -/
def emptyHeap : NetHeap ℤ :=
  { (default : NetHeap ℤ) with
    cells := fun _ _ => .nil
    tables := 2
    metatables := fun _ => none
    udataMetatables := fun _ => none }

theorem userdata_trip_seven :
    ∃ w v w', Reachable sampleVm (fun _ => .function 0) w ∧
      pushNewObject sampleVm (.bool true) 7 "luaNet_metatable" ⟨.nil, [], w⟩ =
        (.ok (), ⟨.nil, [v], w'⟩) ∧
      luanetTonetobject sampleVm (.rel (-1)) ⟨.nil, [v], w'⟩ = (.ok 7, ⟨.nil, [v], w'⟩) := by
  have hcomma : ',' ∈ (cString "System.Object, mscorlib").toList := by decide
  have hq : QualifiesNames sampleVm := fun _ => hcomma
  have hfree : Registered sampleVm [] emptyHeap := by
    refine ⟨List.nil_subset _, rfl, by decide, ?_, fun _ _ _ => rfl, fun _ => Or.inl rfl⟩
    exact fun name hname => absurd hname List.not_mem_nil
  obtain ⟨w, hreach⟩ := hfree.exists_reachable hq fun _ => .function 0
  obtain ⟨v, w', hpush, -, hback⟩ :=
    (userdata_trip hq hreach).1 (.bool true) 7 "luaNet_metatable" (by decide)
  exact ⟨w, v, w', hreach, hpush _ _, hback _ _ rfl rfl⟩

end UnityLua
