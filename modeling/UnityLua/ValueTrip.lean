import UnityLua.Library.RefTable
import UnityLua.ObjectIdentity
import UnityLua.ScalarTrip

/-!
# Lua values there and back

`getObject` makes a CLR object of a Lua value and `push` makes a Lua value of a CLR object, each
by its own tests. A table or a function goes through the registry of Lua: `getObject` stores it
under a reference and `push` reads the reference. A userdata of the translator goes through the
object under its id, which `push` has to find again in the back map. A userdata of another
library becomes a `LuaUserData`, and `push` has no test for these: the wrapper is pushed like
any other object.

The table behind an object of a generated class is given as the table itself.

## Main results

* `rawgeti_getReference`: a reference leads to its value, whatever the registry looks like.
* `survives_userdata_iff`: a userdata comes back exactly if `push` treats its object as one of
  the translator's, and the back map finds it under the id of this userdata.
* `not_survives_foreign`: a userdata of another library never comes back.
* `survives_iff_comesBack`: which of the other values come back.
* `comesBack_fails`: the userdata of an object that a table is behind.
-/

open Library

namespace UnityLua

namespace ValueTrip

/-! ### Values and states -/

/-- A Lua value. A full userdata is one of the translator's, by its position, or one that
another library made. -/
inductive Value
  | nil
  | boolean (b : Bool)
  | lightUserdata (p : ℕ)
  | number (n : Float.Model)
  | string (s : String)
  | table (id : ℕ)
  | function (id : ℕ)
  | userdata (k : ℕ)
  | foreign (id : ℕ)
  | thread (id : ℕ)
  deriving DecidableEq

/-- `lua_rawequal`. -/
def rawequal : Value → Value → Bool
  | .number m, .number n => m == n
  | v, w => decide (v = w)

/-- What `getObject` gives. A wrapper is its reference. -/
inductive Result (Obj : Type)
  | null
  | double (d : Float.Model)
  | string (s : String)
  | bool (b : Bool)
  | luaTable (reference : ℤ)
  | luaFunction (reference : ℤ)
  | luaUserData (reference : ℤ)
  | object (o : Obj)

/-- What `push` finds out about an object: a destroyed `GameObject`, an object of a generated
class with its table, a `LuaCSFunction`, or none of these. -/
inductive Kind
  | plain
  | csFunction
  | destroyed
  | generated (luaTable : Option ℕ)
  deriving DecidableEq

/-- The kinds that `push` hands to `pushObject`. -/
def Kind.isPlain : Kind → Bool
  | .plain | .csFunction => true
  | _ => false

/-- What the two functions take from Lua and from the objects. `luaUserData` is the wrapper of a
reference as an object, with the `Equals` and `GetHashCode` of `LuaBase`. -/
structure Runtime (Obj : Type) where
  host : Host Value
  kind : Obj → Kind
  luaUserData : ℤ → Obj

/-- The registry of objects and the references in the registry of Lua. -/
structure Bridge (Obj : Type) where
  translator : ObjectTranslator Obj
  registry : RefTable Value

variable {Obj : Type}

/-! ### The two functions -/

/-- `LuaPushValue` and `LuaLRef`, in `getTable`, `getFunction` and `getUserData`. -/
def getReference (r : Runtime Obj) (s : Bridge Obj) (v : Value) : ℤ × Bridge Obj :=
  let (reference, registry) := RefTable.luaL_ref r.host s.registry (some v)
  (reference, { s with registry := registry })

/-- `getObject`. A `KeyNotFoundException` is what the indexer of `objects` may end in. -/
def getObject (r : Runtime Obj) (s : Bridge Obj) :
    Value → Except Exn (Result Obj) × Bridge Obj
  | .number n => (.ok (.double n), s)
  | .string t => (.ok (.string t), s)
  | .boolean b => (.ok (.bool b), s)
  | .table id =>
      let (reference, s') := getReference r s (.table id)
      (.ok (.luaTable reference), s')
  | .function id =>
      let (reference, s') := getReference r s (.function id)
      (.ok (.luaFunction reference), s')
  | .userdata k =>
      match s.translator.getObject (some k) with
      | .object o => (.ok (.object o), s)
      | .keyNotFound => (.error .keyNotFound, s)
      | .null => (.ok .null, s)
      | .luaUserData k =>
          let (reference, s') := getReference r s (.userdata k)
          (.ok (.luaUserData reference), s')
  | .foreign id =>
      let (reference, s') := getReference r s (.foreign id)
      (.ok (.luaUserData reference), s')
  | .nil | .lightUserdata _ | .thread _ => (.ok .null, s)

/-- `lua_getref`. A free slot holds the number of the next one. -/
def rawgeti (s : Bridge Obj) (reference : ℤ) : Value :=
  match s.registry.rawgeti reference with
  | .nil => .nil
  | .number n => .number (Float.Model.ofInt n)
  | .value v => v

/-- `pushObject`. -/
def pushObject (s : Bridge Obj) (o : Obj) (metatable : Metatable) : Value × Bridge Obj :=
  let (k, translator) := s.translator.pushObject (some o) metatable
  ((k.map Value.userdata).getD .nil, { s with translator := translator })

/-- `push`. A `LuaFunction` without a reference is one of a C# function, of which there is none
here. -/
def push (r : Runtime Obj) (s : Bridge Obj) : Result Obj → Except Exn Value × Bridge Obj
  | .null => (.ok .nil, s)
  | .double d => (.ok (.number d), s)
  | .string t => (.ok (.string (LuaLib.cString t)), s)
  | .bool b => (.ok (.boolean b), s)
  | .luaTable reference => (.ok (rawgeti s reference), s)
  | .luaFunction reference =>
      if reference ≠ 0 then (.ok (rawgeti s reference), s) else (.ok .nil, s)
  | .luaUserData reference =>
      let (v, s') := pushObject s (r.luaUserData reference) .luaNet_metatable
      (.ok v, s')
  | .object o =>
      match r.kind o with
      | .destroyed => (.ok .nil, s)
      | .generated none => (.error .nullReference, s)
      | .generated (some id) => (.ok (.table id), s)
      | .csFunction =>
          let (v, s') := pushObject s o .luaNet_function
          (.ok v, s')
      | .plain =>
          let (v, s') := pushObject s o .luaNet_metatable
          (.ok v, s')

/-- `push(getObject(v))`. -/
def trip (r : Runtime Obj) (s : Bridge Obj) (v : Value) : Except Exn Value × Bridge Obj :=
  match getObject r s v with
  | (.ok o, s') => push r s' o
  | (.error e, s') => (.error e, s')

/-- What is pushed is raw-equal to the value. -/
def Survives (r : Runtime Obj) (s : Bridge Obj) (v : Value) : Prop :=
  ∃ w, (trip r s v).1 = .ok w ∧ rawequal w v = true

/-! ### Raw equality -/

@[simp] theorem rawequal_number (m n : Float.Model) :
    rawequal (.number m) (.number n) = (m == n) := rfl

/-- Away from the numbers raw equality is equality. -/
theorem rawequal_iff_of_ne_number {v w : Value} (hw : ∀ n, w ≠ .number n) :
    rawequal v w = true ↔ v = w := by
  have heq : rawequal v w = decide (v = w) := by
    cases w with
    | number n => exact absurd rfl (hw n)
    | _ => cases v <;> rfl
  rw [heq, decide_eq_true_iff]

/-- A trip that ends in one value. -/
theorem survives_iff_of_trip {r : Runtime Obj} {s : Bridge Obj} {v w : Value}
    (htrip : (trip r s v).1 = .ok w) : Survives r s v ↔ rawequal w v = true := by
  constructor
  · rintro ⟨u, hu, heq⟩
    obtain rfl : w = u := Except.ok.inj (htrip.symm.trans hu)
    exact heq
  · exact fun heq => ⟨w, htrip, heq⟩

/-! ### References -/

/-- The slot of a new reference holds the value, and the reference is not zero. -/
theorem slots_luaL_ref (h : Host Value) (t : RefTable Value) (v : Value) :
    (RefTable.luaL_ref h t (some v)).1 ≠ 0 ∧
      (RefTable.luaL_ref h t (some v)).2.rawgeti (RefTable.luaL_ref h t (some v)).1 =
        .value v := by
  simp only [RefTable.luaL_ref]
  split
  · next hne => exact ⟨hne, Function.update_self ..⟩
  · exact ⟨by omega, Function.update_self ..⟩

variable (r : Runtime Obj) (s : Bridge Obj)

theorem getReference_ne_zero (v : Value) : (getReference r s v).1 ≠ 0 :=
  (slots_luaL_ref r.host s.registry v).1

theorem rawgeti_getReference (v : Value) :
    rawgeti (getReference r s v).2 (getReference r s v).1 = v := by
  have hslot : (getReference r s v).2.registry.rawgeti (getReference r s v).1 = .value v :=
    (slots_luaL_ref r.host s.registry v).2
  rw [rawgeti, hslot]

theorem trip_table (id : ℕ) : (trip r s (.table id)).1 = .ok (.table id) :=
  congrArg Except.ok (rawgeti_getReference r s (.table id))

theorem trip_function (id : ℕ) : (trip r s (.function id)).1 = .ok (.function id) := by
  change (push r (getReference r s _).2 (.luaFunction (getReference r s _).1)).1 = _
  rw [push, if_pos (getReference_ne_zero r s _), rawgeti_getReference]

/-! ### Userdata -/

/-- What `pushObject` pushes is a userdata of the translator. -/
theorem exists_pushObject (o : Obj) (m : Metatable) :
    ∃ k, (s.translator.pushObject (some o) m).1 = some k ∧
      (pushObject s o m).1 = .userdata k := by
  rcases ObjectTranslator.pushObject_cases s.translator o m with
    ⟨_, _, _, _, heq⟩ | ⟨_, _, _, heq⟩ | ⟨_, heq⟩ <;>
    rw [pushObject, heq] <;> exact ⟨_, rfl, rfl⟩

/-- **A userdata of another library does not come back**: its wrapper is pushed as an object. -/
theorem not_survives_foreign (id : ℕ) : ¬ Survives r s (.foreign id) := by
  obtain ⟨k, -, hk⟩ := exists_pushObject (getReference r s (.foreign id)).2
    (r.luaUserData (getReference r s (.foreign id)).1) .luaNet_metatable
  have htrip : (trip r s (.foreign id)).1 = .ok (.userdata k) := congrArg Except.ok hk
  rw [survives_iff_of_trip htrip, rawequal_iff_of_ne_number (by simp)]
  exact Value.noConfusion

open ObjectTranslator

/-- An object is pushed as the userdata it was registered for exactly if the back map finds it
under the id of that userdata. -/
theorem pushObject_eq_iff_tryGetValue {t : ObjectTranslator Obj} (hid : IdInv t) {k : ℕ}
    {u : Userdata Obj} (hu : t.At k u) (hc : u.cleared = false) (m : Metatable) :
    (t.pushObject (some u.object) m).1 = some k ↔
      Dictionary.tryGetValue t.comparer t.objectsBackMap u.object = some u.id := by
  have hweak := (hid.uncleared k u hu hc).2
  have hlast : k ≠ t.userdata.length := hu.lt.ne
  rcases pushObject_cases t u.object m with
    ⟨i, j, hfind, hj, heq⟩ | ⟨i, hfind, hnone, heq⟩ | ⟨hnone, heq⟩
  · rw [heq, hfind, Option.some.injEq, Option.some.injEq]
    constructor
    · rintro rfl
      obtain ⟨v, hv, hvi, -⟩ := hid.weak i j hj
      rw [← hvi, hu.unique hv]
    · rintro rfl
      exact Option.some.inj (hj.symm.trans hweak)
  · rw [heq, hfind]
    refine iff_of_false (fun h => hlast (Option.some.inj h).symm) fun h => ?_
    rw [Option.some.inj h, hweak] at hnone
    exact absurd hnone nofun
  · rw [heq, hnone]
    exact iff_of_false (fun h => hlast (Option.some.inj h).symm) nofun

/-- A userdata in use is read as the object it was registered for. -/
theorem getObject_userdata {t : ObjectTranslator Obj} (hid : IdInv t)
    (hlen : t.userdata.length < 2 ^ 32 - 1) {k : ℕ} {u : Userdata Obj} (hu : t.At k u)
    (hc : u.cleared = false) : t.getObject (some k) = .object u.object := by
  have hat : t.userdata[k]? = some u := hu
  have hne : u.id ≠ -1 := by
    have := hu.lt
    rw [hid.position k u hu]
    exact wrapInt32_ne_neg_one (by omega)
  simp only [ObjectTranslator.getObject, hat, if_neg hne, (hid.uncleared k u hu hc).1]

/-- **When a userdata comes back.** -/
theorem survives_userdata_iff {t : ObjectTranslator Obj} (hid : IdInv t)
    (hlen : t.userdata.length < 2 ^ 32 - 1) {k : ℕ} {u : Userdata Obj} (hu : t.At k u)
    (hreach : u.reachable = true) (registry : RefTable Value) :
    Survives r ⟨t, registry⟩ (.userdata k) ↔ (r.kind u.object).isPlain = true ∧
      Dictionary.tryGetValue t.comparer t.objectsBackMap u.object = some u.id := by
  have hc := hid.reach k u hu hreach
  have htrip : trip r ⟨t, registry⟩ (.userdata k) = push r ⟨t, registry⟩ (.object u.object) := by
    simp only [trip, getObject, getObject_userdata hid hlen hu hc]
  have hpush : ∀ m, (trip r ⟨t, registry⟩ (.userdata k)).1 =
      .ok (pushObject ⟨t, registry⟩ u.object m).1 → (Survives r ⟨t, registry⟩ (.userdata k) ↔
        Dictionary.tryGetValue t.comparer t.objectsBackMap u.object = some u.id) := by
    intro m heq
    obtain ⟨j, hj, hval⟩ := exists_pushObject ⟨t, registry⟩ u.object m
    rw [survives_iff_of_trip heq, hval, rawequal_iff_of_ne_number (by simp), Value.userdata.injEq,
      ← pushObject_eq_iff_tryGetValue hid hu hc m, hj, Option.some.injEq]
  cases hkind : r.kind u.object with
  | plain =>
      rw [hpush .luaNet_metatable (by rw [htrip, push, hkind])]
      exact (and_iff_right rfl).symm
  | csFunction =>
      rw [hpush .luaNet_function (by rw [htrip, push, hkind])]
      exact (and_iff_right rfl).symm
  | destroyed =>
      have hnil : (trip r ⟨t, registry⟩ (.userdata k)).1 = .ok .nil := by rw [htrip, push, hkind]
      rw [survives_iff_of_trip hnil]
      exact iff_of_false Bool.false_ne_true nofun
  | generated luaTable =>
      refine iff_of_false ?_ nofun
      rintro ⟨w, hw, heq⟩
      rw [rawequal_iff_of_ne_number (by simp)] at heq
      subst heq
      rw [htrip, push, hkind] at hw
      cases luaTable <;> exact nomatch hw

/-- While the two maps are inverse to each other, every userdata in use is found. -/
theorem tryGetValue_self {U : Set Obj} {t : ObjectTranslator Obj} (hid : IdInv t)
    (h : MapInv U t) {k : ℕ} {u : Userdata Obj} (hu : t.At k u) (hreach : u.reachable = true) :
    Dictionary.tryGetValue t.comparer t.objectsBackMap u.object = some u.id := by
  have hobj := (hid.uncleared k u hu (hid.reach k u hu hreach)).1
  have hmem : u.object ∈ U := by
    obtain ⟨e, he, hkey, -⟩ := (h.entries u.id u.object).mp hobj
    exact hkey ▸ h.keys e he
  exact (h.tryGetValue_iff hmem).mpr ⟨u.object, hobj, h.equiv.refl _ hmem⟩

/-! ### What comes back -/

/-- The values that the results are about, in a state of the registry: no thread or light
userdata, and none that the slips of the code concern. These are a userdata of another library, an
object that the back map finds under the id of another one, and a string with a NUL. -/
def Passed (t : ObjectTranslator Obj) : Value → Prop
  | .lightUserdata _ | .thread _ | .foreign _ => False
  | .string s => '\x00' ∉ s.toList
  | .userdata k => ∃ u, t.At k u ∧ u.reachable = true ∧
      Dictionary.tryGetValue t.comparer t.objectsBackMap u.object = some u.id
  | _ => True

/-- A number that equals itself, and an object that is pushed as one. -/
def ComesBack (t : ObjectTranslator Obj) : Value → Prop
  | .number n => n.isNaN = false
  | .userdata k => ∀ u, t.At k u → (r.kind u.object).isPlain = true
  | _ => True

/-- A userdata in use is among them after every run without a `make_object` and without a field
write that puts the back map out of order. -/
theorem passed_userdata {U : Set Obj} {c : KeyComparer Obj} (hc : c.EquivOn U)
    {es : List (ObjectTranslator.Event Obj)} {t : ObjectTranslator Obj}
    (hok : AllSteps ObjectTranslator.step (KeepsOn U) (initial c) es)
    (hrun : run ObjectTranslator.step (initial c) es = some t)
    (hlen : t.userdata.length < 2 ^ 32) {k : ℕ} {u : Userdata Obj} (hu : t.At k u)
    (hreach : u.reachable = true) : Passed t (.userdata k) := by
  obtain ⟨hid, hmap⟩ := mapInv_run hc hok hrun hlen
  exact ⟨u, hu, hreach, tryGetValue_self hid hmap hu hreach⟩

/-- **Which values come back.** After any run of the registry with fewer than `2 ^ 32 - 1`
registrations and with any references in use, a value comes back exactly if it is not NaN and
not a userdata of a destroyed object or of one that a table is behind. -/
theorem survives_iff_comesBack {c : KeyComparer Obj} {es : List (ObjectTranslator.Event Obj)}
    {t : ObjectTranslator Obj} (hrun : run ObjectTranslator.step (initial c) es = some t)
    (hlen : t.userdata.length < 2 ^ 32 - 1) (registry : RefTable Value) {v : Value}
    (hv : Passed t v) : Survives r ⟨t, registry⟩ v ↔ ComesBack r t v := by
  have hid : IdInv t := idInv_run hrun (by omega)
  cases v with
  | lightUserdata p => exact hv.elim
  | thread id => exact hv.elim
  | foreign id => exact hv.elim
  | nil => exact iff_of_true ⟨.nil, rfl, rfl⟩ trivial
  | boolean b => exact iff_of_true ⟨.boolean b, rfl, decide_eq_true rfl⟩ trivial
  | number n =>
      have htrip : (trip r ⟨t, registry⟩ (.number n)).1 = .ok (.number n) := rfl
      rw [survives_iff_of_trip htrip, rawequal_number, beq_self, ComesBack, Bool.not_eq_true']
  | string s =>
      have htrip : (trip r ⟨t, registry⟩ (.string s)).1 = .ok (.string (LuaLib.cString s)) := rfl
      rw [survives_iff_of_trip htrip, (cString_eq_iff s).mpr hv]
      exact iff_of_true (decide_eq_true rfl) trivial
  | table id =>
      rw [survives_iff_of_trip (trip_table r _ id)]
      exact iff_of_true (decide_eq_true rfl) trivial
  | function id =>
      rw [survives_iff_of_trip (trip_function r _ id)]
      exact iff_of_true (decide_eq_true rfl) trivial
  | userdata k =>
      obtain ⟨u, hu, hreach, hfind⟩ := hv
      rw [survives_userdata_iff r hid hlen hu hreach registry, and_iff_left hfind, ComesBack]
      constructor
      · intro hplain u' hu'
        rwa [← hu.unique hu']
      · exact fun h => h u hu

/-! ### An object that a table is behind -/

/-- A runtime in which all objects are of one kind. -/
def runtimeOf (kind : Kind) : Runtime ℕ where
  host := ⟨List.length, fun _ => 0⟩
  kind _ := kind
  luaUserData reference := reference.natAbs

theorem survives_iff_comesBack_plain :
    ∃ t, run ObjectTranslator.step (initial (byNumber fun _ => 0))
        [.push (some 7) .luaNet_metatable] = some t ∧
      Survives (runtimeOf .plain) ⟨t, RefTable.empty⟩ (.userdata 0) := by
  have hrun : run ObjectTranslator.step (initial (byNumber fun _ => 0))
      [.push (some 7) .luaNet_metatable] =
        some ((initial (byNumber fun _ => 0)).pushObject (some 7) .luaNet_metatable).2 := rfl
  refine ⟨_, hrun, ?_⟩
  refine (survives_iff_comesBack (runtimeOf .plain) hrun (by decide) RefTable.empty ?_).mpr ?_
  · exact ⟨_, rfl, rfl, rfl⟩
  · exact fun _ _ => rfl

/-- The `base` field of a table with an object comes back as the table. -/
theorem comesBack_fails :
    ¬ ∀ (r : Runtime ℕ) (es : List (ObjectTranslator.Event ℕ)) (t : ObjectTranslator ℕ),
      run ObjectTranslator.step (initial (byNumber fun _ => 0)) es = some t → ∀ k u, t.At k u →
        u.reachable = true → Survives r ⟨t, RefTable.empty⟩ (.userdata k) := by
  intro h
  obtain ⟨w, hw, heq⟩ := h (runtimeOf (.generated (some 3))) [.makeObject 7] _ rfl 1 _ rfl rfl
  have htable : (trip (runtimeOf (.generated (some 3)))
      ⟨registerTable (initial (byNumber fun _ => 0)) 7, RefTable.empty⟩ (.userdata 1)).1 =
        .ok (.table 3) := rfl
  obtain rfl := Except.ok.inj (htable.symm.trans hw)
  exact absurd heq Bool.false_ne_true

end ValueTrip

end UnityLua
