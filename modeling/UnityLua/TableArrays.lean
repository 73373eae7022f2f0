import UnityLua.Library.ListDictionary
import UnityLua.MethodWrapper

/-!
# Arrays of tables

`TableToArray` takes the values of a table from the dictionary that `GetTableDict` fills while
`lua_next` goes through the table, and writes them to an array one after the other. The keys are
not looked at, so the order of the array is the order of `lua_next`, which the manual leaves
open.

## Main results

* `getTableDict_values`: the dictionary keeps all values of a sequence in the order of
  `lua_next`.
* `tableToArray_iff`: exactly when the array of a sequence is in the order of its indices.
-/

namespace UnityLua

open Library

variable {N Obj : Type}

/-- `Equals` of the keys that `getObject` gives. -/
def ClrValue.keyEquals [DecidableEq N] [DecidableEq Obj] :
    ClrValue N Obj → ClrValue N Obj → Bool
  | .double n, .double n' => n = n'
  | .bool b, .bool b' => b = b'
  | .string s, .string s' => s = s'
  | .luaTable v, .luaTable v' => v = v'
  | .luaFunction v, .luaFunction v' => v = v'
  | .luaUserData v, .luaUserData v' => v = v'
  | .object o, .object o' => o = o'
  | _, _ => false

section Dictionary

variable [DecidableEq N] [DecidableEq Obj] (env : LuaEnv N Obj)

/-- The dictionary that `GetTableDict` makes. -/
abbrev TableDict (N Obj : Type) [DecidableEq N] [DecidableEq Obj] :=
  ListDictionary (ClrValue N Obj) (Option (ClrValue N Obj)) ClrValue.keyEquals

/-- The loop of `GetTableDict`, over the entries in the order of `lua_next`. The dictionary
refuses a key that is `null`. -/
def LuaEnv.fillDict (d : TableDict N Obj) :
    List (LuaValue N × LuaValue N) → Except Exn (TableDict N Obj)
  | [] => .ok d
  | (key, value) :: entries =>
      match env.getObject key with
      | none => .error .argumentNull
      | some key => LuaEnv.fillDict (d.set key (env.getObject value)) entries

/-- `GetTableDict`. -/
def LuaEnv.getTableDict (entries : List (LuaValue N × LuaValue N)) :
    Except Exn (TableDict N Obj) :=
  env.fillDict ListDictionary.empty entries

/-- A state in which `lua_next` goes through the entries of a table in the given order. -/
def LuaEnv.traversing (next : LuaValue N → List (LuaValue N × LuaValue N)) : LuaEnv N Obj :=
  { env with tableValues := fun table => (env.getTableDict (next table)).map fun d => d.Values }

end Dictionary

/-- The table `{v1, ..., vn}`, and the order in which `lua_next` visits it: every key once. -/
structure SequenceTable (N : Type) where
  values : List (LuaValue N)
  /-- The number that is an index. -/
  index : ℕ → N
  order : List (LuaValue N × LuaValue N)
  order_perm : order.Perm (values.zipIdx.map fun v => (.number (index (v.2 + 1)), v.1))
  keys_nodup : (order.map Prod.fst).Nodup

namespace SequenceTable

/-- The keys that are visited are numbers. -/
theorem key_number (s : SequenceTable N) {e : LuaValue N × LuaValue N} (he : e ∈ s.order) :
    ∃ n, e.1 = .number n := by
  obtain ⟨v, -, rfl⟩ := List.mem_map.mp (s.order_perm.mem_iff.mp he)
  exact ⟨_, rfl⟩

theorem length_order (s : SequenceTable N) : s.order.length = s.values.length := by
  rw [s.order_perm.length_eq, List.length_map, List.length_zipIdx]

end SequenceTable

section Arrays

variable [DecidableEq N] [DecidableEq Obj] (env : LuaEnv N Obj)

/-- An entry under a number, as the dictionary gets it. -/
def LuaEnv.dictEntry (e : LuaValue N × LuaValue N) : ClrValue N Obj × Option (ClrValue N Obj) :=
  match e.1 with
  | .number n => (.double n, env.getObject e.2)
  | _ => (.bool false, env.getObject e.2)

theorem LuaEnv.fillDict_numbers {entries : List (LuaValue N × LuaValue N)}
    (h : ∀ e ∈ entries, ∃ n, e.1 = .number n) (d : TableDict N Obj) :
    env.fillDict d entries = .ok (d.fill (entries.map env.dictEntry)) := by
  induction entries generalizing d with
  | nil => rfl
  | cons e entries ih =>
      obtain ⟨⟨n, hn⟩, hrest⟩ := List.forall_mem_cons.mp h
      obtain ⟨key, value⟩ := e
      obtain rfl : key = .number n := hn
      exact ih hrest _

theorem apart_numbers {entries : List (LuaValue N × LuaValue N)}
    (h : ∀ e ∈ entries, ∃ n, e.1 = .number n) (hnodup : (entries.map Prod.fst).Nodup) :
    Apart ClrValue.keyEquals ((entries.map env.dictEntry).map Prod.fst) := by
  rw [List.map_map]
  refine List.pairwise_map.mpr ((List.pairwise_map.mp hnodup).imp_of_mem ?_)
  rintro ⟨key, value⟩ ⟨key', value'⟩ he he' hne
  obtain ⟨n, hn⟩ := h _ he
  obtain ⟨n', hn'⟩ := h _ he'
  obtain rfl : key = .number n := hn
  obtain rfl : key' = .number n' := hn'
  exact decide_eq_false fun hnn => hne (congrArg LuaValue.number hnn)

/-- **The dictionary keeps every value of a sequence.** -/
theorem getTableDict_values (s : SequenceTable N) :
    (env.getTableDict s.order).map (fun d => d.Values) =
      .ok (s.order.map fun e => env.getObject e.2) := by
  have hnumbers : ∀ e ∈ s.order, ∃ n, e.1 = .number n := fun e he => s.key_number he
  have hfill := ListDictionary.fill_eq (apart_numbers env hnumbers s.keys_nodup)
  rw [LuaEnv.getTableDict, env.fillDict_numbers hnumbers]
  simp only [Except.map, ListDictionary.Values, hfill, List.map_map]
  congr 1
  refine List.map_congr_left fun e he => ?_
  obtain ⟨key, value⟩ := e
  obtain ⟨n, hn⟩ := hnumbers _ he
  obtain rfl : key = .number n := hn
  rfl

/-- The conversion of a value of the table to an element of the array. -/
def LuaEnv.element (T : ClrType) (v : LuaValue N) : Except Exn (Option (ClrValue N Obj)) :=
  convertParam env T (env.getObject v)

theorem bind_eq_ok_iff {α β ε : Type} {x : Except ε α} {f : α → Except ε β} {b : β} :
    (x >>= f) = .ok b ↔ ∃ a, x = .ok a ∧ f a = .ok b := by
  cases x with
  | error e => exact iff_of_false nofun fun h => nomatch h
  | ok a =>
      constructor
      · intro h
        exact ⟨a, rfl, h⟩
      · rintro ⟨a', ha, h⟩
        obtain rfl := Except.ok.inj ha
        exact h

theorem mapM_eq_ok_iff {α β ε : Type} {f : α → Except ε β} {l : List α} {bs : List β} :
    l.mapM f = .ok bs ↔ l.map f = bs.map .ok := by
  induction l generalizing bs with
  | nil =>
      rcases bs with _ | ⟨b, bs⟩
      · exact iff_of_true rfl rfl
      · exact iff_of_false nofun nofun
  | cons a l ih =>
      rw [List.mapM_cons, bind_eq_ok_iff, List.map_cons]
      simp only [bind_eq_ok_iff, ih]
      constructor
      · rintro ⟨b, hb, bs', hbs', hcons⟩
        obtain rfl : b :: bs' = bs := Except.ok.inj hcons
        rw [hb, hbs', List.map_cons]
      · intro h
        rcases bs with _ | ⟨b, bs⟩
        · exact absurd h (List.cons_ne_nil _ _)
        · obtain ⟨hb, hbs⟩ := List.cons.inj h
          exact ⟨b, hb, bs, hbs, rfl⟩

end Arrays

/-- Where different values have different conversions, only the order of the indices is right. -/
theorem tableToArray_order (env : LuaEnv N Obj) (T : ClrType) (s : SequenceTable N)
    (hinj : ∀ v ∈ s.values, ∀ v' ∈ s.values, env.element T v = env.element T v' → v = v') :
    s.order.map (fun e => env.element T e.2) = s.values.map (env.element T) ↔
      s.order.map Prod.snd = s.values := by
  constructor
  · intro h
    refine List.ext_getElem (by rw [List.length_map, s.length_order]) fun i hi hi' => ?_
    have hi'' : i < s.order.length := s.length_order ▸ hi'
    have hmem : s.order[i].2 ∈ s.values := by
      obtain ⟨v, hv, he⟩ := List.mem_map.mp (s.order_perm.mem_iff.mp (List.getElem_mem _))
      rw [← he]
      exact List.fst_mem_of_mem_zipIdx hv
    rw [List.getElem_map]
    refine hinj _ hmem _ (List.getElem_mem hi') ?_
    have hat : (s.order.map fun e => env.element T e.2)[i]? = (s.values.map (env.element T))[i]? :=
      congrArg (fun l => l[i]?) h
    rw [List.getElem?_map, List.getElem?_map, List.getElem?_eq_getElem hi'',
      List.getElem?_eq_getElem hi'] at hat
    exact Option.some.inj hat
  · intro h
    rw [← h, List.map_map]
    rfl

/-- The table `{[2] = "b", [1] = "a"}`, whose hash part is visited from the key `2` on. -/
def constructorTable : SequenceTable ℤ where
  values := [.string "a", .string "b"]
  index := fun i => i
  order := [(.number 2, .string "b"), (.number 1, .string "a")]
  order_perm := List.Perm.swap _ _ _
  keys_nodup := by decide

end UnityLua
