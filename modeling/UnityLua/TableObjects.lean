import UnityLua.ClassGeneration
import UnityLua.Library.Run
import UnityLua.OverrideCode

/-!
# Whose methods the objects have

An object of `GetClassInstance` has the methods of its own table as far as the type of the
object has overrides for them. The type is that of the first table, and so are the overrides.

## Main results

* `generateMethods_mem`, `exists_generateMethods`: which methods have overrides, and where
  their return types are.
* `sound_run`: the generated types, after any calls.
* `dispatches_iff`: when the methods of a new object are those of its own table.
-/

namespace UnityLua

open Library Prog

variable {N Obj : Type} {klass : Klass} {hasField : String → Bool}

/-! ### The generated methods -/

/-- The methods that an override is generated for. -/
def Klass.generates (klass : Klass) (hasField : String → Bool) (method : MethodInfo) : Bool :=
  klass.isInterface || (klass.overridable method && hasField method.name)

theorem generateMethods_cons (method : MethodInfo) (ms : List MethodInfo) (i : ℕ)
    (rts : List (Option (List ClrType))) :
    generateMethods klass hasField (method :: ms) i rts =
      if klass.generates hasField method then
        (GenerateMethod method (!klass.isInterface && method.isAbstract) i (!klass.isInterface) ::
            (generateMethods klass hasField ms (i + 1) (rts.set i (some method.returnTypes))).1,
          (generateMethods klass hasField ms (i + 1) (rts.set i (some method.returnTypes))).2)
      else generateMethods klass hasField ms i rts := by
  rw [generateMethods, Klass.generates]
  cases klass.isInterface with
  | true => rfl
  | false => rfl

/-- The return types of the methods generated before stay. -/
theorem generateMethods_returnTypes {ms : List MethodInfo} {i k : ℕ}
    {rts : List (Option (List ClrType))} (hk : k < i) :
    (generateMethods klass hasField ms i rts).2[k]? = rts[k]? := by
  induction ms generalizing i rts with
  | nil => rfl
  | cons m ms ih =>
      rw [generateMethods_cons]
      split
      · exact (ih (Nat.lt_succ_of_lt hk)).trans (List.getElem?_set_ne (Nat.ne_of_gt hk))
      · exact ih hk

/-- What the loop of `GenerateClass` says of a method that it has generated. -/
structure Generated (klass : Klass) (hasField : String → Bool)
    (returnTypes : List (Option (List ClrType))) (b : MethodBuilder) : Prop where
  mem : b.method ∈ klass.methods
  generates : klass.generates hasField b.method = true
  isAbstract : b.isAbstract = (!klass.isInterface && b.method.isAbstract)
  code : ∃ j, b.code = b.method.override j ∧ returnTypes[j]? = some (some b.method.returnTypes)

theorem generateMethods_mem {ms : List MethodInfo} {i : ℕ} {rts : List (Option (List ClrType))}
    (hms : ∀ m ∈ ms, m ∈ klass.methods) (hlen : i + ms.length ≤ rts.length) {b : MethodBuilder}
    (hb : b ∈ (generateMethods klass hasField ms i rts).1) :
    Generated klass hasField (generateMethods klass hasField ms i rts).2 b := by
  induction ms generalizing i rts with
  | nil => cases hb
  | cons m ms ih =>
      obtain ⟨hm, hms⟩ := List.forall_mem_cons.mp hms
      rw [List.length_cons] at hlen
      rw [generateMethods_cons] at hb ⊢
      cases hgen : klass.generates hasField m with
      | false =>
          simp only [hgen, Bool.false_eq_true, if_false] at hb ⊢
          exact ih hms (by omega) hb
      | true =>
          simp only [hgen, if_true] at hb ⊢
          rcases List.mem_cons.mp hb with rfl | hb
          · refine ⟨hm, hgen, rfl, i, rfl, ?_⟩
            rw [generateMethods_returnTypes (Nat.lt_succ_self i)]
            exact List.getElem?_set_self (by omega)
          · exact ih hms (by rw [List.length_set]; omega) hb

theorem exists_generateMethods {ms : List MethodInfo} {i : ℕ} {rts : List (Option (List ClrType))}
    {m : MethodInfo} (hm : m ∈ ms) (hgen : klass.generates hasField m = true) :
    ∃ b ∈ (generateMethods klass hasField ms i rts).1, b.method = m := by
  induction ms generalizing i rts with
  | nil => cases hm
  | cons m' ms ih =>
      rw [generateMethods_cons]
      rcases List.mem_cons.mp hm with rfl | hm
      · rw [if_pos hgen]
        exact ⟨_, List.mem_cons_self, rfl⟩
      · split
        · obtain ⟨b, hb, hbm⟩ := ih hm
          exact ⟨b, List.mem_cons_of_mem _ hb, hbm⟩
        · exact ih hm

/-! ### The generated types -/

/-- A type as `GenerateClass` makes it for a table: the overrides, and what `CreateType` has
found. -/
structure Sound (klass : Klass) (hasField : String → Bool) (t : LuaClassType) : Prop where
  klass_eq : t.klass = klass
  generated : ∀ b ∈ t.methods, Generated klass hasField t.returnTypes b
  complete : ∀ m ∈ klass.methods, klass.generates hasField m = true → ∃ b ∈ t.methods, b.method = m
  concrete : ∀ b ∈ t.methods, b.isAbstract = false

/-- There is an override for the method. -/
def LuaClassType.defines (t : LuaClassType) (m : MethodInfo) : Bool :=
  t.methods.any fun b => b.method == m

theorem Sound.defines_eq {t : LuaClassType} (h : Sound klass hasField t) {m : MethodInfo}
    (hm : m ∈ klass.methods) : t.defines m = klass.generates hasField m := by
  rw [Bool.eq_iff_iff, LuaClassType.defines, List.any_eq_true]
  constructor
  · rintro ⟨b, hb, hbm⟩
    exact (beq_iff_eq.mp hbm) ▸ (h.generated b hb).generates
  · intro hgen
    obtain ⟨b, hb, rfl⟩ := h.complete m hm hgen
    exact ⟨b, hb, beq_self_eq_true _⟩

/-- The generated types of the cache, each for the table of an earlier call. -/
def CodeGeneration.Sound (s : CodeGeneration) : Prop :=
  ∀ klass t, s.classCollection klass = some t → ∃ hasField, UnityLua.Sound klass hasField t

variable {accepts : Accepts} {s s' : CodeGeneration} {c : InstanceCall N Obj}
  {o : GeneratedObject N} {m : MethodInfo}

/-- The type that a call gets has an override for the method: the generated type, if there is
one, or else the one that is generated for the table of the call. -/
def InstanceCall.overrides (s : CodeGeneration) (c : InstanceCall N Obj) (m : MethodInfo) : Bool :=
  match s.classCollection c.klass with
  | some t => t.defines m
  | none => c.klass.generates (c.tables.hasField c.luaTable) m

/-- The type that `GenerateClass` asks for. -/
def luaClassOf (klass : Klass) (hasField : String → Bool) (number : ℕ) : LuaClassType :=
  let generated := generateMethods klass hasField klass.methods 0
    (List.replicate klass.methods.length none)
  ⟨"LuaGeneratedClass" ++ toString number, klass, generated.1, generated.2⟩

/-- The type that a call gets, and the cache afterwards. -/
theorem luaClassType_apply (accepts : Accepts) (c : InstanceCall N Obj) (s : CodeGeneration) :
    luaClassType accepts c s =
      match s.classCollection c.klass with
      | some t => (.ok t, s)
      | none =>
          let t := luaClassOf c.klass (c.tables.hasField c.luaTable) s.luaClassNumber
          if CreateType accepts c.klass t.methods then
            (.ok t, ⟨Function.update s.classCollection c.klass (some t), s.luaClassNumber + 1⟩)
          else (.error .typeLoad, ⟨s.classCollection, s.luaClassNumber + 1⟩) := by
  rw [luaClassType, Prog.gets_bind]
  cases s.classCollection c.klass with
  | some t => rfl
  | none =>
      have hgenerate : GenerateClass accepts c.klass (c.tables.hasField c.luaTable) s =
          createLuaClass accepts (luaClassOf c.klass (c.tables.hasField c.luaTable)
            s.luaClassNumber) ⟨s.classCollection, s.luaClassNumber + 1⟩ := rfl
      rw [createLuaClass] at hgenerate
      split at hgenerate
      · next hcreate => exact (bind_ok hgenerate).trans (if_pos hcreate).symm
      · next hcreate => exact (bind_error hgenerate).trans (if_neg hcreate).symm

theorem sound_luaClassOf {number : ℕ}
    (hcreate : CreateType accepts klass (luaClassOf klass hasField number).methods = true) :
    Sound klass hasField (luaClassOf klass hasField number) := by
  have hlen : 0 + klass.methods.length ≤
      (List.replicate klass.methods.length (none : Option (List ClrType))).length := by
    rw [List.length_replicate, Nat.zero_add]
  rw [CreateType, Bool.and_eq_true, Bool.and_eq_true, List.all_eq_true] at hcreate
  refine ⟨rfl, fun b hb => generateMethods_mem (fun _ hm => hm) hlen hb,
    fun m hm hgen => exists_generateMethods hm hgen, fun b hb => ?_⟩
  have hconcrete := hcreate.1.1 b hb
  rw [Bool.not_eq_true'] at hconcrete
  exact hconcrete

/-- What a call gets to make an object of. -/
theorem luaClassType_exits (hs : s.Sound) :
    Exits (fun t s' => s'.Sound ∧ ∃ hasField, Sound c.klass hasField t ∧
        ∀ m ∈ c.klass.methods, t.defines m = c.overrides s m)
      (fun _ s' => s'.Sound) (luaClassType accepts c s) := by
  rw [luaClassType_apply]
  simp only [InstanceCall.overrides]
  cases hcached : s.classCollection c.klass with
  | some t =>
      obtain ⟨hasField, ht⟩ := hs c.klass t hcached
      exact ⟨hs, hasField, ht, fun _ _ => rfl⟩
  | none =>
      dsimp only
      split
      · next hcreate =>
          have ht := sound_luaClassOf hcreate
          refine ⟨fun klass t hstored => ?_, _, ht, fun m hm => ht.defines_eq hm⟩
          simp only [Function.update_apply] at hstored
          split at hstored
          · rename_i hklass
            subst hklass
            obtain rfl := Option.some.inj hstored
            exact ⟨_, ht⟩
          · exact hs klass t hstored
      · exact hs

/-- What is known of a new object. -/
structure NewObject (s : CodeGeneration) (c : InstanceCall N Obj) (o : GeneratedObject N) : Prop
    where
  luaTable : o.luaTable = c.luaTable
  returnTypes : o.returnTypes = o.type.returnTypes
  sound : ∃ hasField, Sound c.klass hasField o.type
  defines : ∀ m ∈ c.klass.methods, o.type.defines m = c.overrides s m

theorem getClassInstance_exits (hs : s.Sound) :
    Exits (fun o s' => s'.Sound ∧ NewObject s c o) (fun _ s' => s'.Sound)
      (GetClassInstance accepts c s) := by
  have htype : Exits _ _ (luaClassType accepts c s) := luaClassType_exits hs
  cases hrun : luaClassType accepts c s with
  | mk r s' =>
      rw [hrun] at htype
      cases r with
      | error e =>
          rw [GetClassInstance, bind_error hrun]
          exact htype
      | ok t =>
          obtain ⟨hs', hasField, ht, hdefines⟩ := htype
          rw [GetClassInstance, bind_ok hrun, createInstance]
          cases c.constructor with
          | error e => exact hs'
          | ok u => exact ⟨hs', rfl, rfl, ⟨hasField, ht⟩, hdefines⟩

/-- One call more, whatever its outcome is. -/
def CodeGeneration.step (accepts : Accepts) (s : CodeGeneration) (c : InstanceCall N Obj) :
    Option CodeGeneration := some (GetClassInstance accepts c s).2

theorem sound_step (hs : s.Sound) (hstep : s.step accepts c = some s') : s'.Sound := by
  obtain rfl := Option.some.inj hstep
  have hexit : Exits _ _ (GetClassInstance accepts c s) := getClassInstance_exits hs
  cases hrun : GetClassInstance accepts c s with
  | mk r s' =>
      rw [hrun] at hexit
      cases r with
      | ok o => exact hexit.1
      | error e => exact hexit

/-- The cache after any calls. -/
theorem sound_run {calls : List (InstanceCall N Obj)}
    (hrun : run (CodeGeneration.step accepts) .new calls = some s) : s.Sound :=
  run_invariant (fun _ _ _ hs hstep => sound_step hs hstep) hrun fun _ _ h => by cases h

/-! ### Calls of the methods -/

/-- The function that the table of a call has for a method that may be overridden. -/
def InstanceCall.bound (c : InstanceCall N Obj) (m : MethodInfo) : Option (LuaValue N) :=
  if c.klass.overridable m then c.tables.boundFunction c.luaTable m.name else none

/-- A call of the method does what the table of the object says, as long as the table has the
same for the name: it runs its function, with the table in front of the arguments, or else the
method of the class. -/
def Dispatches (c : InstanceCall N Obj) (o : GeneratedObject N) (m : MethodInfo) : Prop :=
  ∀ (outside : Outside N Obj) (args : List (Option (ClrValue N Obj))),
    outside.rawget c.luaTable m.name = c.tables.rawget c.luaTable m.name →
      match c.bound m with
      | some f => o.invoke outside m args =
          some [.function f (.value (.luaTable c.luaTable) :: inItems args m.parameters 0)
            (some m.returnTypes) ((Parameter.refArgs m.parameters 0).map .int)]
      | none => c.klass.isInterface = false →
          o.invoke outside m args = some [.base m (receiverAndArgs m args)]

/-- The code of an override for the method compiles. -/
def MethodInfo.isCallable (m : MethodInfo) : Bool :=
  m.isAbstract || (!m.isVoid && decide (m.parameters.length < 20))

/-- Without an override the method of the class is called. -/
theorem invoke_of_not_defines {outside : Outside N Obj} {args : List (Option (ClrValue N Obj))}
    (h : o.type.defines m = false) :
    o.invoke outside m args = some [.base m (receiverAndArgs m args)] := by
  have hfind : (o.type.methods.find? fun b => b.method == m) = none := by
    rw [List.find?_eq_none]
    intro b hb
    rw [LuaClassType.defines, List.any_eq_false] at h
    exact h b hb
  rw [GeneratedObject.invoke, hfind]

/-- With an override its code is run, if it compiles. -/
theorem invoke_of_defines (outside : Outside N Obj) (args : List (Option (ClrValue N Obj)))
    (hsound : Sound klass hasField o.type) (h : o.type.defines m = true) :
    ∃ j, o.type.returnTypes[j]? = some (some m.returnTypes) ∧
      o.invoke outside m args =
        if m.isCallable then
          some ((o.context outside m).sem.exec (m.override j) none (.start args)).frame.trace
        else none := by
  rw [LuaClassType.defines, List.any_eq_true] at h
  obtain ⟨b', hb', hbm'⟩ := h
  cases hfind : o.type.methods.find? fun b => b.method == m with
  | none => exact absurd hbm' (List.find?_eq_none.mp hfind b' hb')
  | some b =>
      have hbm := List.find?_some hfind
      obtain rfl : b.method = m := beq_iff_eq.mp hbm
      obtain ⟨j, hcode, htypes⟩ := (hsound.generated b (List.mem_of_find?_eq_some hfind)).code
      refine ⟨j, htypes, ?_⟩
      rw [GeneratedObject.invoke, hfind]
      simp only [hcode, compiles_eq]
      rfl

/-- What the override that compiles does. -/
theorem dispatches_of_isCallable (hnew : NewObject s c o) (hm : m ∈ c.klass.methods)
    (hdefines : o.type.defines m = true) (hcallable : m.isCallable = true)
    (habstract : c.klass.isInterface = false → m.isAbstract = false) : Dispatches c o m := by
  intro outside args hsame
  obtain ⟨hasField, hsound⟩ := hnew.sound
  obtain ⟨j, htypes, hinvoke⟩ := invoke_of_defines outside args hsound hdefines
  rw [hcallable, if_pos rfl] at hinvoke
  have hoverridable : c.klass.overridable m = true := by
    rw [hsound.defines_eq hm, Klass.generates, Bool.or_eq_true, Bool.and_eq_true] at hdefines
    rcases hdefines with hinterface | ⟨hoverridable, -⟩
    · rw [Klass.overridable, hinterface, Bool.true_or]
    · exact hoverridable
  have hfound : LuaClassHelper.getTableFunction (o.context outside m) o.luaTable m.name =
      c.bound m := by
    rw [LuaClassHelper.getTableFunction, InstanceCall.bound, hoverridable, if_pos rfl,
      Tables.boundFunction, ← hsame, ← hnew.luaTable]
    rfl
  cases hbound : c.bound m with
  | some f =>
      rw [hbound] at hfound
      rw [hinvoke, exec_of_function rfl hfound (hnew.returnTypes ▸ htypes), ← hnew.luaTable]
      rfl
  | none =>
      intro hclass
      rw [hbound] at hfound
      rw [hinvoke, exec_of_no_function rfl (habstract hclass) hfound]
      rfl

/-- The calls of a method are not those of the table if its override does not compile. -/
theorem not_dispatches_of_not_isCallable (hnew : NewObject s c o)
    (hdefines : o.type.defines m = true) (hcallable : m.isCallable = false)
    (hclass : c.klass.isInterface = false) : ¬ Dispatches c o m := by
  intro h
  obtain ⟨hasField, hsound⟩ := hnew.sound
  have hcall := h ⟨c.tables.rawget, fun _ _ _ => none, fun _ _ => none, fun _ _ => false⟩ [] rfl
  obtain ⟨j, -, hinvoke⟩ := invoke_of_defines ⟨c.tables.rawget, fun _ _ _ => none,
    fun _ _ => none, fun _ _ => false⟩ [] hsound hdefines
  rw [hcallable, if_neg (by decide)] at hinvoke
  cases hbound : c.bound m with
  | some f =>
      rw [hbound, hinvoke] at hcall
      cases hcall
  | none =>
      rw [hbound, hinvoke] at hcall
      cases hcall hclass

/-- Without an override the calls of a method are those of the table if it has no function for
it. -/
theorem dispatches_iff_of_not_defines (hdefines : o.type.defines m = false) :
    Dispatches c o m ↔ c.bound m = none := by
  constructor
  · intro h
    have hcall := h ⟨c.tables.rawget, fun _ _ _ => none, fun _ _ => none, fun _ _ => false⟩ [] rfl
    cases hbound : c.bound m with
    | none => rfl
    | some f =>
        rw [hbound, invoke_of_not_defines hdefines] at hcall
        cases hcall
  · intro hbound outside args hsame
    rw [hbound]
    exact fun _ => invoke_of_not_defines hdefines

/-- The overrides of a class are overrides of methods that are not abstract. -/
theorem NewObject.not_abstract (hnew : NewObject s c o) (hdefines : o.type.defines m = true)
    (hclass : c.klass.isInterface = false) : m.isAbstract = false := by
  obtain ⟨hasField, hsound⟩ := hnew.sound
  rw [LuaClassType.defines, List.any_eq_true] at hdefines
  obtain ⟨b, hb, hbm⟩ := hdefines
  have habstract := (hsound.generated b hb).isAbstract
  rw [hsound.concrete b hb, hclass, beq_iff_eq.mp hbm] at habstract
  exact habstract.symm

/-- For a class, the type that the call gets has overrides for the methods that the table of
the call has functions for, and only such overrides as compile. -/
def InstanceCall.suits (s : CodeGeneration) (c : InstanceCall N Obj) : Bool :=
  c.klass.isInterface || c.klass.methods.all fun m =>
    if c.overrides s m then !m.isVoid && decide (m.parameters.length < 20)
    else (c.bound m).isNone

/-- **Tables as objects.** After any calls, all methods of a new object are those of its own
table, or else of the class, exactly if the generated type suits the table. -/
theorem dispatches_iff (accepts : Accepts) (calls : List (InstanceCall N Obj))
    (s s' : CodeGeneration) (c : InstanceCall N Obj) (o : GeneratedObject N)
    (hrun : run (CodeGeneration.step accepts) .new calls = some s)
    (hnew : GetClassInstance accepts c s = (.ok o, s')) :
    (∀ m ∈ c.klass.methods, Dispatches c o m) ↔ c.suits s = true := by
  have hexit : Exits _ _ (GetClassInstance accepts c s) := getClassInstance_exits (sound_run hrun)
  rw [hnew] at hexit
  obtain ⟨-, hobject⟩ := hexit
  rw [InstanceCall.suits]
  cases hinterface : c.klass.isInterface with
  | true =>
      refine iff_of_true (fun m hm => ?_) (Bool.true_or _)
      obtain ⟨hasField, hsound⟩ := hobject.sound
      have hdefines : o.type.defines m = true := by
        rw [hsound.defines_eq hm, Klass.generates, hinterface, Bool.true_or]
      have hcallable : m.isCallable = true := by
        rw [MethodInfo.isCallable, c.klass.abstract_of_interface hinterface m hm, Bool.true_or]
      exact dispatches_of_isCallable hobject hm hdefines hcallable
        fun hclass => by rw [hinterface] at hclass; cases hclass
  | false =>
      rw [Bool.false_or, List.all_eq_true]
      refine forall₂_congr fun m hm => ?_
      rw [← hobject.defines m hm]
      cases hdefines : o.type.defines m with
      | false => simpa using dispatches_iff_of_not_defines hdefines
      | true =>
          have habstract := hobject.not_abstract hdefines hinterface
          have hcallable : m.isCallable = (!m.isVoid && decide (m.parameters.length < 20)) := by
            rw [MethodInfo.isCallable, habstract, Bool.false_or]
          rw [if_pos rfl, ← hcallable]
          constructor
          · intro h
            cases hcase : m.isCallable with
            | true => rfl
            | false =>
                exact absurd h (not_dispatches_of_not_isCallable hobject hdefines hcase hinterface)
          · intro h
            exact dispatches_of_isCallable hobject hm hdefines h fun _ => habstract

/-- A class with two methods that may be overridden. -/
def Klass.shape : Klass where
  id := 0
  isInterface := false
  methods := [⟨0, "area", false, false, true, false, .double, []⟩,
    ⟨1, "name", false, false, true, false, .string, []⟩]
  abstract_of_interface h := by cases h

/-- The call for a table with one function. -/
def InstanceCall.ofShape (luaTable : ℕ) (name : String) (f : ℕ) : InstanceCall ℤ ℕ where
  klass := .shape
  luaTable := .table luaTable
  tables := {
    hasField := fun _ n => n == name
    rawget := fun _ n => if n = name then some (.luaFunction (.function f)) else none }
  constructor := .ok ()

/-- Two tables with functions of the same name. -/
theorem dispatches_iff_area :
    ∃ o s', GetClassInstance (fun _ _ => true) (.ofShape 2 "area" 20)
        (GetClassInstance (fun _ _ => true) (.ofShape 1 "area" 10) .new).2 = (.ok o, s') ∧
      ∀ m ∈ Klass.shape.methods, Dispatches (.ofShape 2 "area" 20) o m :=
  ⟨_, _, rfl, (dispatches_iff (fun _ _ => true) [.ofShape 1 "area" 10] _ _ (.ofShape 2 "area" 20) _
    rfl rfl).mpr (by decide)⟩

/-- Tables with functions of different names: the second object has no override for its
function. -/
theorem dispatches_iff_fails :
    ¬ ∀ (calls : List (InstanceCall ℤ ℕ)) (s s' : CodeGeneration) (c : InstanceCall ℤ ℕ)
      (o : GeneratedObject ℤ), run (CodeGeneration.step fun _ _ => true) .new calls = some s →
        GetClassInstance (fun _ _ => true) c s = (.ok o, s') →
          ∀ m ∈ c.klass.methods, Dispatches c o m := by
  intro h
  have hname := h [.ofShape 1 "area" 10] _ _ (.ofShape 2 "name" 20) _ rfl rfl
    ⟨1, "name", false, false, true, false, .string, []⟩ (by decide)
  have hbound := (dispatches_iff_of_not_defines (by decide)).mp hname
  cases hbound

end UnityLua
