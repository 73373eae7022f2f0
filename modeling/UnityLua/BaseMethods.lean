import UnityLua.MemberWrites
import UnityLua.TableObjects

/-!
# The base field

A table that was made an object has a field `base`, through which Lua reaches the methods that its
functions override. `getBaseMethod` looks for the method beside the override and means to fall back
on the method itself; but `getMember` does not come back when a member is missing.

## Main results

* `getBaseMethod_plain`: what `base` gives, after any accesses.
* `hasBase_iff`: which names have a method beside the override.
* `resolvesBase_iff`: for which names `base` keeps its promise.
-/

namespace UnityLua

open Library Prog

variable {N Obj W : Type}

/-- The name under which a generated type calls the method of its base class. -/
def baseName (methodName : String) : String := "__luaInterface_base_" ++ methodName

theorem ne_baseName (methodName : String) : methodName ≠ baseName methodName := by
  have happend : "__luaInterface_base_" ++ methodName ≠ methodName := by
    intro h
    have hlength := congrArg String.length h
    simp at hlength
  exact fun h => happend h.symm

namespace Reflection

variable (r : Reflection N Obj W)

/-- The part of `getBaseMethod` behind its two checks. A member that is missing raises an error in
`getMember`, and an error in Lua does not return. -/
def getBaseNamed (obj : Obj) (methodName : String) : AccessM N Obj W (Pushed N Obj × IsFunc) := do
  let (value, _) ← r.getMember obj (baseName methodName) (r.typeOf obj)
  if value.isNil then r.getMember obj methodName (r.typeOf obj)
  else pure (value, .flag false)

/-- `getBaseMethod`, for the object behind the first argument. -/
def getBaseMethod (obj : Option Obj) (slot : LuaValue N) : AccessM N Obj W (Pushed N Obj × IsFunc) :=
  match obj with
  | none => throwMessage "trying to index an invalid object reference"
  | some obj => do
      match ← beside (gets fun w => ((r.env w).toLString slot).1) with
      | none => pure (.value none, .flag false)
      | some methodName => r.getBaseNamed obj methodName

/-- `getBaseMethod` without caches. -/
def plainBaseNamed (obj : Obj) (methodName : String) :
    Prog W AccessFault (Pushed N Obj × IsFunc) := do
  let (value, _) ← r.plainMember obj (baseName methodName) (r.typeOf obj)
  if value.isNil then r.plainMember obj methodName (r.typeOf obj) else pure (value, .flag false)

variable {r} {k : Caches N Obj} {objType : ClrClass} {obj : Obj} {methodName missing : String}

/-- The caches do not show. -/
theorem getBaseNamed_implements (hk : r.Valid k) :
    ImplementsAt r.Valid k (r.getBaseNamed obj methodName) (r.plainBaseNamed obj methodName) := by
  refine .bind (getMember_implements hk _) fun p k' hk' _ => ?_
  obtain ⟨value, isFunc⟩ := p
  cases hnil : value.isNil with
  | true =>
      simp only [hnil, if_true]
      exact getMember_implements hk' _
  | false =>
      simp only [hnil, Bool.false_eq_true, if_false]
      exact .pure hk'

theorem getBaseMethod_valid (hk : r.Valid k) (target : Option Obj) (slot : LuaValue N) (w : W) :
    r.Valid (r.getBaseMethod target slot (k, w)).2.1 := by
  cases target with
  | none => exact hk
  | some obj =>
      rw [getBaseMethod, beside_gets_bind]
      cases ((r.env w).toLString slot).1 with
      | none => exact hk
      | some methodName => exact (getBaseNamed_implements hk).invariant w

/-! ### The error for a missing member -/

/-- The program does not end with the error that this member is missing. -/
def NotMissing (missing : String) (x : Prog W AccessFault (Pushed N Obj × IsFunc)) : Prop :=
  Triple (fun _ => True) x (fun _ _ => True)
    fun e _ => e ≠ .error (.message ("unknown member name " ++ missing))

theorem throwMessage_notMissing {message : String} (h : message ≠ "unknown member name " ++ missing) :
    NotMissing missing (throwMessage message : Prog W AccessFault (Pushed N Obj × IsFunc)) :=
  .throw fun _ _ he => h (LuaError.message.inj (AccessFault.error.inj he))

theorem static_ne (methodName missing : String) :
    "can't pass instance to static method " ++ methodName ≠ "unknown member name " ++ missing := by
  intro h
  have hfirst := congrArg (fun s : String => s.toList.head?) h
  simp at hfirst

theorem plainIn_notMissing {base : Option (Prog W AccessFault (Pushed N Obj × IsFunc))}
    (hname : methodName ≠ missing)
    (hbase : NotMissing missing (base.getD (pure (.value none, .flag false)))) :
    NotMissing missing (r.plainIn base objType obj methodName) := by
  rw [plainIn]
  cases r.findMember objType methodName with
  | none => exact throwMessage_notMissing fun h => hname (by simpa using h)
  | some p =>
      obtain ⟨m, implicitStatic⟩ := p
      simp only [plainUse]
      cases m.memberType with
      | Field =>
          refine .bind .attempt fun v => ?_
          cases v with
          | ok v => exact .pure fun _ _ => trivial
          | error e => exact .pure fun _ _ => trivial
      | Property =>
          cases m.hasGetter with
          | false => exact hbase
          | true =>
              refine .bind .attempt fun v => ?_
              rcases v with (e | _) | v
              · exact .throw fun _ _ he => LuaError.noConfusion (AccessFault.error.inj he)
              · exact .throw fun _ _ he => AccessFault.noConfusion he
              · exact .pure fun _ _ => trivial
      | Event => exact .pure fun _ _ => trivial
      | NestedType =>
          cases implicitStatic with
          | true => exact throwMessage_notMissing (static_ne _ _)
          | false =>
              refine .bind (R := fun _ _ => True) (.gets fun _ _ => trivial) fun _ => ?_
              exact .pure fun _ _ => trivial
      | Method =>
          cases implicitStatic with
          | true => exact throwMessage_notMissing (static_ne _ _)
          | false => exact .pure fun _ _ => trivial

/-- Only the member itself is reported as missing. -/
theorem plainMember_notMissing (hname : methodName ≠ missing) (c : ClrClass) :
    NotMissing missing (r.plainMember obj methodName c) := by
  induction c with
  | object => exact plainIn_notMissing hname (.pure fun _ _ => trivial)
  | derived id b ih => exact plainIn_notMissing hname ih

/-! ### Names with a base method -/

/-- What reflection says of the type that was generated for an object: its public members with such
a name are the methods that `GenerateMethod` has put beside the overrides. -/
structure HasBaseMethods (r : Reflection N Obj W) (objType : ClrClass) (t : LuaClassType) : Prop
    where
  method : ∀ m ∈ r.members objType, ∀ X, r.sameName m.name (baseName X) = true →
    m.memberType = .Method ∧ m.isStatic = false ∧
      ∃ b ∈ t.methods, b.baseCode.isSome = true ∧ m.name = baseName b.method.name
  member : ∀ b ∈ t.methods, b.baseCode.isSome = true →
    ∃ m ∈ r.members objType, m.name = baseName b.method.name

/-- The generated type has a base method of the name. -/
def hasBase (r : Reflection N Obj W) (t : LuaClassType) (X : String) : Prop :=
  ∃ b ∈ t.methods, b.baseCode.isSome = true ∧
    r.sameName (baseName b.method.name) (baseName X) = true

variable {t : LuaClassType}

/-- With a base method, reflection finds it. -/
theorem findMember_of_hasBase (ht : HasBaseMethods r objType t) (h : hasBase r t methodName) :
    ∃ m, r.findMember objType (baseName methodName) = some (m, false) ∧
      m.memberType = .Method := by
  obtain ⟨b, hb, hcode, hsame⟩ := h
  obtain ⟨m, hm, hname⟩ := ht.member b hb hcode
  rw [← hname] at hsame
  have hfound : m ∈ r.getMembers objType (baseName methodName) false := by
    rw [getMembers, List.mem_filter]
    have hstatic := (ht.method m hm methodName hsame).2.1
    simp [hm, hsame, hstatic]
  obtain ⟨m', ms, hms⟩ := List.exists_cons_of_ne_nil (List.ne_nil_of_mem hfound)
  have hm' : m' ∈ r.getMembers objType (baseName methodName) false := hms ▸ List.mem_cons_self
  rw [getMembers, List.mem_filter, Bool.and_eq_true] at hm'
  refine ⟨m', ?_, (ht.method m' hm'.1 methodName hm'.2.1).1⟩
  rw [findMember, hms]

/-- Without one, reflection finds nothing. -/
theorem findMember_of_not_hasBase (ht : HasBaseMethods r objType t)
    (h : ¬hasBase r t methodName) : r.findMember objType (baseName methodName) = none := by
  have hmembers : r.getMembers objType (baseName methodName) true = [] := by
    rw [List.eq_nil_iff_forall_not_mem]
    intro m hm
    rw [getMembers, List.mem_filter, Bool.and_eq_true] at hm
    obtain ⟨-, -, b, hb, hcode, hname⟩ := ht.method m hm.1 methodName hm.2.1
    exact h ⟨b, hb, hcode, hname ▸ hm.2.1⟩
  rw [← Option.not_isSome_iff_eq_none, findMember_isSome, hmembers]
  simp

theorem functionOf_of_method {m : MemberInfo}
    (hfind : r.findMember objType methodName = some (m, false)) (hm : m.memberType = .Method) :
    r.functionOf methodName objType = some ⟨objType, methodName⟩ := by
  cases objType <;> rw [functionOf, functionIn, hfind] <;> simp [hm]

theorem plainMember_of_none (hfind : r.findMember objType methodName = none) :
    r.plainMember obj methodName objType = throwMessage ("unknown member name " ++ methodName) := by
  cases objType <;> rw [plainMember, plainIn, hfind]

/-- `base` finds the base method. -/
theorem plainBaseNamed_of_hasBase (ht : HasBaseMethods r (r.typeOf obj) t)
    (h : hasBase r t methodName) :
    r.plainBaseNamed obj methodName =
      pure (.function ⟨r.typeOf obj, baseName methodName⟩, .flag false) := by
  obtain ⟨m, hfind, hm⟩ := findMember_of_hasBase ht h
  rw [plainBaseNamed, plainMember_of_functionOf (functionOf_of_method hfind hm)]
  rfl

/-- Without a base method the fallback is not reached. -/
theorem plainBaseNamed_of_not_hasBase (ht : HasBaseMethods r (r.typeOf obj) t)
    (h : ¬hasBase r t methodName) :
    r.plainBaseNamed obj methodName =
      throwMessage ("unknown member name " ++ baseName methodName) := by
  rw [plainBaseNamed, plainMember_of_none (findMember_of_not_hasBase ht h)]
  rfl

end Reflection

/-! ### Generated types -/

/-- The generated types of the cache are as the generator makes them, each for the table of an
earlier call. -/
def CodeGeneration.AsGenerated (s : CodeGeneration) : Prop :=
  ∀ klass t, s.classCollection klass = some t → ∃ hasField number, t = luaClassOf klass hasField number

variable {accepts : Accepts} {s s' : CodeGeneration} {c : InstanceCall N Obj}
  {o : GeneratedObject N}

theorem generateMethods_baseCode {klass : Klass} {hasField : String → Bool} {ms : List MethodInfo}
    {i : ℕ} {rts : List (Option (List ClrType))} {b : MethodBuilder}
    (hb : b ∈ (generateMethods klass hasField ms i rts).1) :
    b.baseCode.isSome = !klass.isInterface := by
  induction ms generalizing i rts with
  | nil => cases hb
  | cons m ms ih =>
      rw [generateMethods_cons] at hb
      split at hb
      · rcases List.mem_cons.mp hb with rfl | hb
        · cases klass.isInterface <;> simp [GenerateMethod]
        · exact ih hb
      · exact ih hb

theorem luaClassType_asGenerated (hs : s.AsGenerated) :
    Exits (fun t s' => s'.AsGenerated ∧ ∃ hasField number, t = luaClassOf c.klass hasField number)
      (fun _ s' => s'.AsGenerated) (luaClassType accepts c s) := by
  rw [luaClassType_apply]
  cases hcached : s.classCollection c.klass with
  | some t => exact ⟨hs, hs c.klass t hcached⟩
  | none =>
      dsimp only
      split
      · refine ⟨fun klass t hstored => ?_, _, _, rfl⟩
        simp only [Function.update_apply] at hstored
        split at hstored
        · rename_i hklass
          subst hklass
          exact ⟨_, _, (Option.some.inj hstored).symm⟩
        · exact hs klass t hstored
      · exact hs

/-- The object of a call, and the cache afterwards. -/
theorem getClassInstance_asGenerated (hs : s.AsGenerated) :
    Exits (fun o s' => s'.AsGenerated ∧ ∃ hasField number, o.type = luaClassOf c.klass hasField number)
      (fun _ s' => s'.AsGenerated) (GetClassInstance accepts c s) := by
  have htype : Exits _ _ (luaClassType accepts c s) := luaClassType_asGenerated hs
  cases hrun : luaClassType accepts c s with
  | mk r s' =>
      rw [hrun] at htype
      rcases r with e | t
      · rw [GetClassInstance, bind_error hrun]
        exact htype
      · rw [GetClassInstance, bind_ok hrun, createInstance]
        cases c.constructor with
        | error e => exact htype.1
        | ok u => exact htype

theorem asGenerated_run {calls : List (InstanceCall N Obj)}
    (hrun : run (CodeGeneration.step accepts) .new calls = some s) : s.AsGenerated := by
  refine run_invariant (fun s c s' hs hstep => ?_) hrun fun _ _ h => by cases h
  obtain rfl := Option.some.inj hstep
  have hexit : Exits _ _ (GetClassInstance accepts c s) := getClassInstance_asGenerated hs
  generalize GetClassInstance accepts c s = out at hexit ⊢
  rcases out with ⟨e | o, s'⟩
  · exact hexit
  · exact hexit.1

/-- The names for which the type of a new object has base methods: the class is no interface, and a
method of the name was overridden. -/
theorem hasBase_iff {r : Reflection N Obj W} {calls : List (InstanceCall N Obj)}
    (hrun : run (CodeGeneration.step accepts) .new calls = some s)
    (hmade : GetClassInstance accepts c s = (.ok o, s')) (X : String) :
    Reflection.hasBase r o.type X ↔ c.klass.isInterface = false ∧
      ∃ m ∈ c.klass.methods, c.overrides s m = true ∧
        r.sameName (baseName m.name) (baseName X) = true := by
  have hobject : Exits _ _ (GetClassInstance accepts c s) := getClassInstance_exits (sound_run hrun)
  have htype : Exits _ _ (GetClassInstance accepts c s) :=
    getClassInstance_asGenerated (asGenerated_run hrun)
  rw [hmade] at hobject htype
  obtain ⟨-, -, -, ⟨hasField, hsound⟩, hdefines⟩ := hobject
  obtain ⟨-, hasField', number, htype⟩ := htype
  have hbase : ∀ b ∈ o.type.methods, b.baseCode.isSome = !c.klass.isInterface := by
    rw [htype]
    exact fun b hb => generateMethods_baseCode hb
  constructor
  · rintro ⟨b, hb, hcode, hsame⟩
    rw [hbase b hb, Bool.not_eq_true'] at hcode
    have hm := (hsound.generated b hb).mem
    refine ⟨hcode, b.method, hm, ?_, hsame⟩
    rw [← hdefines b.method hm, LuaClassType.defines, List.any_eq_true]
    exact ⟨b, hb, beq_self_eq_true _⟩
  · rintro ⟨hclass, m, hm, hover, hsame⟩
    rw [← hdefines m hm, LuaClassType.defines, List.any_eq_true] at hover
    obtain ⟨b, hb, hbm⟩ := hover
    obtain rfl := beq_iff_eq.mp hbm
    exact ⟨b, hb, by rw [hbase b hb, hclass]; rfl, hsame⟩

/-! ### Accesses -/

/-- An access to a member of an object, or through the base field of a table. -/
inductive ObjectAccess (N Obj : Type)
  | member (a : Access N Obj)
  | base (obj : Option Obj) (name : LuaValue N)

/-- One access more, whatever its outcome is. -/
def objectStep [DecidableEq N] (r : Reflection N Obj W) (s : Caches N Obj × W) :
    ObjectAccess N Obj → Option (Caches N Obj × W)
  | .member a => step r s a
  | .base obj name => some (r.getBaseMethod obj name s).2

theorem valid_objectRun [DecidableEq N] {r : Reflection N Obj W} {w₀ : W}
    {history : List (ObjectAccess N Obj)} {s : Caches N Obj × W}
    (hrun : run (objectStep r) (Caches.empty, w₀) history = some s) : r.Valid s.1 := by
  refine run_invariant (I := fun s => r.Valid s.1) (fun s a s' hs hstep => ?_) hrun
    Reflection.valid_empty
  cases a with
  | member a => exact valid_step hs hstep
  | base obj name =>
      obtain rfl := Option.some.inj hstep
      exact Reflection.getBaseMethod_valid hs obj name s.2

/-- What `base` promises for a name: the base method, if the type has one, or else the member of
that name; there need not be either. -/
def ResolvesBase (r : Reflection N Obj W) (t : LuaClassType) (obj : Obj) (X : String)
    (s : Caches N Obj × W) : Prop :=
  (Reflection.hasBase r t X → (r.getBaseMethod (some obj) (.string X) s).1 =
      .ok (.function ⟨r.typeOf obj, baseName X⟩, .flag false)) ∧
    (¬Reflection.hasBase r t X → (r.findMember (r.typeOf obj) X).isSome = true →
      (r.getBaseMethod (some obj) (.string X) s).1 = (r.getMember obj X (r.typeOf obj) s).1)

/-- **The names that `base` resolves.** The fallback is never reached: `getMember` raises an error
for the base method that is missing. So `base` keeps its promise only for the names of methods that
were overridden, and for those that name nothing. -/
theorem resolvesBase_iff [DecidableEq N] (accepts : Accepts) (calls : List (InstanceCall N Obj))
    (s s' : CodeGeneration) (c : InstanceCall N Obj) (o : GeneratedObject N)
    (hcalls : run (CodeGeneration.step accepts) .new calls = some s)
    (hmade : GetClassInstance accepts c s = (.ok o, s'))
    (r : Reflection N Obj W) (obj : Obj) (htype : Reflection.HasBaseMethods r (r.typeOf obj) o.type)
    (w₀ : W) (history : List (ObjectAccess N Obj)) (k : Caches N Obj × W)
    (hrun : run (objectStep r) (Caches.empty, w₀) history = some k) (X : String) :
    ResolvesBase r o.type obj X k ↔
      (c.klass.isInterface = false ∧ ∃ m ∈ c.klass.methods, c.overrides s m = true ∧
        r.sameName (baseName m.name) (baseName X) = true) ∨
          (r.findMember (r.typeOf obj) X).isSome = false := by
  have hk : r.Valid k.1 := valid_objectRun hrun
  have hplain : (r.getBaseMethod (some obj) (.string X) k).1 = (r.plainBaseNamed obj X k.2).1 := by
    have himplements : ImplementsAt r.Valid k.1 (r.getBaseNamed obj X) (r.plainBaseNamed obj X) :=
      Reflection.getBaseNamed_implements hk
    obtain ⟨k', -, hbase⟩ := himplements k.2
    exact congrArg Prod.fst hbase
  rw [← hasBase_iff hcalls hmade X, ResolvesBase, hplain]
  by_cases hbase : Reflection.hasBase r o.type X
  · rw [Reflection.plainBaseNamed_of_hasBase htype hbase]
    exact iff_of_true ⟨fun _ => rfl, fun h => absurd hbase h⟩ (.inl hbase)
  · rw [Reflection.plainBaseNamed_of_not_hasBase htype hbase]
    cases hfind : (r.findMember (r.typeOf obj) X).isSome with
    | false => exact iff_of_true ⟨fun h => absurd h hbase, fun _ h => by cases h⟩ (.inr rfl)
    | true =>
        refine iff_of_false (fun h => ?_) fun h => h.elim hbase fun h => by cases h
        have himplements : ImplementsAt r.Valid k.1 (r.getMember obj X (r.typeOf obj))
            (r.plainMember obj X (r.typeOf obj)) := Reflection.getMember_implements hk _
        obtain ⟨k', -, hmember⟩ := himplements k.2
        have hsame := (h.2 hbase rfl).trans (congrArg Prod.fst hmember)
        have hexit : Exits _ _ (r.plainMember obj X (r.typeOf obj) k.2) :=
          Reflection.plainMember_notMissing (ne_baseName X) _ k.2 trivial
        generalize r.plainMember obj X (r.typeOf obj) k.2 = out at hsame hexit
        obtain ⟨a, w⟩ := out
        obtain rfl : _ = a := hsame
        exact hexit rfl

/-- The type that is generated for a shape with its own area. -/
def Reflection.shape : Reflection ℤ ℕ (ℕ → Option (ClrValue ℤ ℕ)) :=
  .plain [⟨0, baseName "area", .Method, false, "LuaGeneratedClass1", .void, false⟩,
    ⟨1, "area", .Method, false, "LuaGeneratedClass1", .void, false⟩,
    ⟨2, "name", .Method, false, "Shape", .void, false⟩]

theorem baseName_toLower (X : String) :
    ((baseName X).toList.map Char.toLower).head? = some '_' := by
  have hfirst : (("__luaInterface_base_" ++ X).toList.map Char.toLower).head? = some '_' := by simp
  exact hfirst

theorem hasBaseMethods_shape :
    Reflection.HasBaseMethods Reflection.shape (.derived 0 .object)
      (luaClassOf .shape (fun n => n == "area") 1) where
  method m hm X hsame := by
    have hname : m.name.toList.map Char.toLower = (baseName X).toList.map Char.toLower :=
      beq_iff_eq.mp hsame
    replace hname : (m.name.toList.map Char.toLower).head? = some '_' :=
      hname ▸ baseName_toLower X
    rcases List.mem_cons.mp hm with rfl | hm
    · exact ⟨rfl, rfl, _, List.mem_singleton_self _, rfl, rfl⟩
    · rcases List.mem_cons.mp hm with rfl | hm
      · exact absurd hname (by decide)
      · obtain rfl := List.mem_singleton.mp hm
        exact absurd hname (by decide)
  member b hb _ := by
    obtain rfl := List.mem_singleton.mp hb
    exact ⟨_, List.mem_cons_self, rfl⟩

theorem resolvesBase_area :
    ResolvesBase Reflection.shape (luaClassOf .shape (fun n => n == "area") 1) 0 "area"
      (Caches.empty, fun _ => none) :=
  (resolvesBase_iff (fun _ _ => true) [] .new _ (.ofShape 1 "area" 10) _ rfl rfl Reflection.shape 0
    hasBaseMethods_shape (fun _ => none) [] _ rfl "area").mpr (.inl ⟨rfl, by decide⟩)

/-- A method that was not overridden is not found through `base`. -/
theorem resolvesBase_fails :
    ¬∀ (obj : ℕ) (X : String),
      ResolvesBase Reflection.shape (luaClassOf .shape (fun n => n == "area") 1) obj X
        (Caches.empty, fun _ => none) := by
  intro h
  have hbase : ¬Reflection.hasBase Reflection.shape (luaClassOf .shape (fun n => n == "area") 1)
      "name" := by
    rintro ⟨b, hb, -, hsame⟩
    obtain rfl := List.mem_singleton.mp hb
    exact absurd hsame (by decide)
  have hname := (h 0 "name").2 hbase (by decide)
  cases hname

end UnityLua
