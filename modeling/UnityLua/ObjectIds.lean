import UnityLua.Library.Arena
import UnityLua.ObjectTranslator

/-!
# Ids never dangle

The window between the clearing of a weak entry and its finalizer is harmless: whatever
the objects' `Equals` and `GetHashCode` do, and in whatever order pushes, second
registrations, clearings, late finalizers and field writes happen, a userdata that Lua
still reaches keeps its registry entry.

`IdInv` is the invariant that carries this. It ties each userdata to the counter value it
got (`id`), and gives every userdata whose weak entry is still there its two entries
(`uncleared`). Nothing in it mentions the back map, which may be arbitrarily wrong. It
holds as long as the 32-bit counter has not come round.

## Main results

* `idInv_step`, `idInv_run`: the invariant is kept by every event and holds in every
  reachable state with fewer than `2 ^ 32` registrations.
* `no_dangling_ids`: the safety of ids in every reachable state.
-/

open Library

namespace UnityLua

namespace ObjectTranslator

variable {Obj : Type}

/-- The `k`-th userdata ever made, in its present condition. -/
def At (t : ObjectTranslator Obj) (k : ℕ) (u : Userdata Obj) : Prop :=
  t.userdata[k]? = some u

theorem At.lt {t : ObjectTranslator Obj} {k : ℕ} {u : Userdata Obj} (h : t.At k u) :
    k < t.userdata.length :=
  (List.getElem?_eq_some_iff.mp h).1

theorem At.unique {t : ObjectTranslator Obj} {k : ℕ} {u v : Userdata Obj}
    (hu : t.At k u) (hv : t.At k v) : u = v :=
  Option.some.inj (hu.symm.trans hv)

/-- The invariant of the ids. `position` is stated with the counter's wrap-around; the
other clauses read `objects` and `luaNet_objects` at the id a userdata carries. -/
structure IdInv (t : ObjectTranslator Obj) : Prop where
  next : t.nextObj = wrapInt32 t.userdata.length
  position : ∀ k u, t.At k u → u.id = wrapInt32 k
  uncleared : ∀ k u, t.At k u → u.cleared = false →
    t.objects u.id = some u.object ∧ t.luaNet_objects u.id = some k
  reach : ∀ k u, t.At k u → u.reachable = true → u.cleared = false
  fin : ∀ k u, t.At k u → u.finalized = true → u.cleared = true
  weak : ∀ i k, t.luaNet_objects i = some k → ∃ u, t.At k u ∧ u.id = i ∧ u.cleared = false
  registered : ∀ i o, t.objects i = some o →
    ∃ k u, t.At k u ∧ u.id = i ∧ u.object = o ∧ u.finalized = false

theorem idInv_initial (c : KeyComparer Obj) : IdInv (initial c) where
  next := by simp [initial, wrapInt32]
  position := by simp [initial, At]
  uncleared := by simp [initial, At]
  reach := by simp [initial, At]
  fin := by simp [initial, At]
  weak := by simp [initial]
  registered := by simp [initial]

/-- Two userdata with the same id are one, while the counter has not come round. -/
theorem IdInv.position_inj {t : ObjectTranslator Obj} (h : IdInv t)
    (hlen : t.userdata.length ≤ 2 ^ 32) {k k' : ℕ} {u u' : Userdata Obj}
    (hu : t.At k u) (hu' : t.At k' u') (hid : u.id = u'.id) : k = k' := by
  have hk := hu.lt
  have hk' := hu'.lt
  rw [h.position k u hu, h.position k' u' hu'] at hid
  exact wrapInt32_inj (by omega) (by omega) hid

/-- A userdata whose finalizer ran has no registry entry left. -/
theorem IdInv.objects_eq_none_of_finalized {t : ObjectTranslator Obj} (h : IdInv t)
    (hlen : t.userdata.length ≤ 2 ^ 32) {k : ℕ} {u : Userdata Obj}
    (hu : t.At k u) (hfin : u.finalized = true) : t.objects u.id = none := by
  cases hobj : t.objects u.id with
  | none => rfl
  | some o =>
      obtain ⟨k', u', hu', hid, -, hfin'⟩ := h.registered u.id o hobj
      obtain rfl := h.position_inj hlen hu' hu hid
      obtain rfl := hu.unique hu'
      exact absurd (hfin.symm.trans hfin') (by decide)

/-! ### Changes of flags -/

/-- The userdata list after a change of flags, seen from the list before it. -/
theorem at_modifyUserdata {t : ObjectTranslator Obj} {k j : ℕ}
    {f : Userdata Obj → Userdata Obj} {u : Userdata Obj} :
    (modifyUserdata t k f).At j u ↔ ∃ v, t.At j v ∧ u = if k = j then f v else v := by
  simp only [At, modifyUserdata, getElem?_modify_eq_some]

@[simp] theorem length_modifyUserdata (t : ObjectTranslator Obj) (k : ℕ)
    (f : Userdata Obj → Userdata Obj) :
    (modifyUserdata t k f).userdata.length = t.userdata.length := by
  simp only [modifyUserdata, List.length_modify]

/-- A change of the other flags of a userdata. -/
theorem IdInv.setFlags {t : ObjectTranslator Obj} (h : IdInv t) (k : ℕ)
    {f : Userdata Obj → Userdata Obj} (hid : ∀ u, (f u).id = u.id)
    (hobject : ∀ u, (f u).object = u.object) (hcleared : ∀ u, (f u).cleared = u.cleared)
    (hreach : ∀ u, t.At k u → (f u).reachable = true → u.cleared = false)
    (hfin : ∀ u, t.At k u → (f u).finalized = true → u.cleared = true)
    (hregistered : ∀ u, t.At k u → (f u).finalized = true →
      u.finalized = true ∨ t.objects u.id = none) :
    IdInv (modifyUserdata t k f) where
  next := by
    rw [length_modifyUserdata]
    exact h.next
  position j u hu := by
    obtain ⟨v, hv, rfl⟩ := at_modifyUserdata.mp hu
    rw [apply_ite Userdata.id, hid, ite_self]
    exact h.position j v hv
  uncleared j u hu hc := by
    obtain ⟨v, hv, rfl⟩ := at_modifyUserdata.mp hu
    rw [apply_ite Userdata.cleared, hcleared, ite_self] at hc
    rw [apply_ite Userdata.id, apply_ite Userdata.object, hid, hobject, ite_self, ite_self]
    exact h.uncleared j v hv hc
  reach j u hu hr := by
    obtain ⟨v, hv, rfl⟩ := at_modifyUserdata.mp hu
    rw [apply_ite Userdata.cleared, hcleared, ite_self]
    by_cases hkj : k = j
    · rw [if_pos hkj] at hr
      exact hreach v (hkj ▸ hv) hr
    · rw [if_neg hkj] at hr
      exact h.reach j v hv hr
  fin j u hu hf := by
    obtain ⟨v, hv, rfl⟩ := at_modifyUserdata.mp hu
    rw [apply_ite Userdata.cleared, hcleared, ite_self]
    by_cases hkj : k = j
    · rw [if_pos hkj] at hf
      exact hfin v (hkj ▸ hv) hf
    · rw [if_neg hkj] at hf
      exact h.fin j v hv hf
  weak i j hij := by
    obtain ⟨v, hv, rfl, hc⟩ := h.weak i j hij
    refine ⟨_, at_modifyUserdata.mpr ⟨v, hv, rfl⟩, ?_, ?_⟩
    · rw [apply_ite Userdata.id, hid, ite_self]
    · rw [apply_ite Userdata.cleared, hcleared, ite_self]
      exact hc
  registered i o hio := by
    obtain ⟨j, v, hv, rfl, rfl, hf⟩ := h.registered i o hio
    refine ⟨j, _, at_modifyUserdata.mpr ⟨v, hv, rfl⟩, ?_, ?_, ?_⟩
    · rw [apply_ite Userdata.id, hid, ite_self]
    · rw [apply_ite Userdata.object, hobject, ite_self]
    · by_cases hkj : k = j
      · rw [if_pos hkj, ← Bool.not_eq_true]
        intro hft
        -- the entry of a userdata that is done would be gone
        obtain hft | hnone := hregistered v (hkj ▸ hv) hft
        · exact absurd (hft.symm.trans hf) (by decide)
        · cases hnone.symm.trans hio
      · rw [if_neg hkj]
        exact hf

/-- Making a userdata unreachable, or an uncleared one reachable again. -/
theorem IdInv.setReachable {t : ObjectTranslator Obj} (h : IdInv t) (k : ℕ) (b : Bool)
    (hb : b = true → ∀ u, t.At k u → u.cleared = false) :
    IdInv (modifyUserdata t k fun u => { u with reachable := b }) :=
  h.setFlags k (fun _ => rfl) (fun _ => rfl) (fun _ => rfl) (fun _ hu hr => hb hr _ hu)
    (fun _ hu hf => h.fin k _ hu hf) fun _ _ hf => .inl hf

/-- The collector clearing the weak entry of an unreachable userdata. -/
theorem IdInv.clearEntry {t : ObjectTranslator Obj} (h : IdInv t) {k : ℕ}
    (hk : ∀ u, t.At k u → u.reachable = false) : IdInv (clearEntry t k) where
  next := by
    rw [ObjectTranslator.clearEntry, length_modifyUserdata]
    exact h.next
  position j u hu := by
    obtain ⟨v, hv, rfl⟩ := at_modifyUserdata.mp hu
    split <;> exact h.position j v hv
  uncleared j u hu hc := by
    obtain ⟨v, hv, rfl⟩ := at_modifyUserdata.mp hu
    by_cases hkj : k = j
    · simp only [if_pos hkj] at hc
      exact absurd hc (by decide)
    · simp only [if_neg hkj] at hc ⊢
      obtain ⟨hobj, hweak⟩ := h.uncleared j v hv hc
      refine ⟨hobj, ?_⟩
      simp only [ObjectTranslator.clearEntry, modifyUserdata, hweak, Option.some.injEq,
        if_neg (Ne.symm hkj)]
  reach j u hu hr := by
    obtain ⟨v, hv, rfl⟩ := at_modifyUserdata.mp hu
    by_cases hkj : k = j
    · simp only [if_pos hkj] at hr
      exact absurd (hr.symm.trans (hk v (hkj ▸ hv))) (by decide)
    · simp only [if_neg hkj] at hr ⊢
      exact h.reach j v hv hr
  fin j u hu hf := by
    obtain ⟨v, hv, rfl⟩ := at_modifyUserdata.mp hu
    by_cases hkj : k = j
    · simp only [if_pos hkj]
    · simp only [if_neg hkj] at hf ⊢
      exact h.fin j v hv hf
  weak i j hij := by
    simp only [ObjectTranslator.clearEntry, modifyUserdata] at hij
    split at hij
    · exact absurd hij (by simp)
    · next hne =>
        obtain ⟨v, hv, hid, hc⟩ := h.weak i j hij
        have hkj : k ≠ j := fun hkj => hne (hkj ▸ hij)
        exact ⟨v, at_modifyUserdata.mpr ⟨v, hv, (if_neg hkj).symm⟩, hid, hc⟩
  registered i o hio := by
    obtain ⟨j, v, hv, hid, hobj, hf⟩ := h.registered i o hio
    refine ⟨j, _, at_modifyUserdata.mpr ⟨v, hv, rfl⟩, ?_, ?_, ?_⟩ <;> split <;> assumption

/-! ### Removals and registrations -/

/-- Removing the entry of an id that no uncleared userdata carries. -/
theorem IdInv.collectObjectRef {t : ObjectTranslator Obj} (h : IdInv t) (o : Obj) {i : ℤ}
    (hi : ∀ k u, t.At k u → u.cleared = false → u.id ≠ i) :
    IdInv (collectObjectRef t o i) where
  next := h.next
  position := h.position
  uncleared k u hu hc := by
    obtain ⟨hobj, hweak⟩ := h.uncleared k u hu hc
    refine ⟨?_, hweak⟩
    simp only [ObjectTranslator.collectObjectRef, Function.update_of_ne (hi k u hu hc), hobj]
  reach := h.reach
  fin := h.fin
  weak := h.weak
  registered j o' hj := by
    simp only [ObjectTranslator.collectObjectRef] at hj
    by_cases hji : j = i
    · subst hji
      simp at hj
    · rw [Function.update_of_ne hji] at hj
      exact h.registered j o' hj

theorem pushFresh_objects (t : ObjectTranslator Obj) (o : Obj) (m : Metatable) :
    (pushFresh t o m).2.objects = Function.update t.objects t.nextObj (some o) := rfl

theorem pushFresh_luaNet_objects (t : ObjectTranslator Obj) (o : Obj) (m : Metatable) :
    (pushFresh t o m).2.luaNet_objects =
      Function.update t.luaNet_objects t.nextObj (some t.userdata.length) := rfl

theorem pushFresh_nextObj (t : ObjectTranslator Obj) (o : Obj) (m : Metatable) :
    (pushFresh t o m).2.nextObj = wrapInt32 (t.nextObj + 1) := rfl

theorem pushFresh_length (t : ObjectTranslator Obj) (o : Obj) (m : Metatable) :
    (pushFresh t o m).2.userdata.length = t.userdata.length + 1 := by
  simp [pushFresh, pushNewObject, addObject]

/-- The userdata after a registration: one more, at the end. -/
theorem at_pushFresh {t : ObjectTranslator Obj} {o : Obj} {m : Metatable} {k : ℕ}
    {u : Userdata Obj} :
    (pushFresh t o m).2.At k u ↔ t.At k u ∨
      k = t.userdata.length ∧ u = { id := t.nextObj, object := o, metatable := m } := by
  simp only [At, pushFresh, pushNewObject, addObject, getElem?_concat_eq_some]

/-- While the counter has not come round, the next id is carried by no userdata. -/
theorem IdInv.nextObj_fresh {t : ObjectTranslator Obj} (h : IdInv t)
    (hlen : t.userdata.length < 2 ^ 32) {k : ℕ} {u : Userdata Obj} (hu : t.At k u) :
    u.id ≠ t.nextObj := by
  intro hid
  have hk := hu.lt
  rw [h.position k u hu, h.next] at hid
  have := wrapInt32_inj (by omega) hlen hid
  omega

/-- While the counter has not come round, nothing is registered under the next id. -/
theorem IdInv.objects_nextObj {t : ObjectTranslator Obj} (h : IdInv t)
    (hlen : t.userdata.length < 2 ^ 32) : t.objects t.nextObj = none := by
  cases hobj : t.objects t.nextObj with
  | none => rfl
  | some o =>
      obtain ⟨k, u, hu, hid, -, -⟩ := h.registered _ _ hobj
      exact absurd hid (h.nextObj_fresh hlen hu)

/-- A registration under a new id keeps the invariant. -/
theorem IdInv.pushFresh {t : ObjectTranslator Obj} (h : IdInv t) (o : Obj) (m : Metatable)
    (hlen : t.userdata.length < 2 ^ 32) : IdInv (pushFresh t o m).2 where
  next := by
    rw [pushFresh_nextObj, pushFresh_length, h.next, wrapInt32_wrapInt32_add_one]
    rfl
  position k u hu := by
    rcases at_pushFresh.mp hu with hu | ⟨rfl, rfl⟩
    · exact h.position k u hu
    · exact h.next
  uncleared k u hu hc := by
    rcases at_pushFresh.mp hu with hu | ⟨rfl, rfl⟩
    · obtain ⟨hobj, hweak⟩ := h.uncleared k u hu hc
      have hne := h.nextObj_fresh hlen hu
      rw [pushFresh_objects, pushFresh_luaNet_objects, Function.update_of_ne hne,
        Function.update_of_ne hne]
      exact ⟨hobj, hweak⟩
    · rw [pushFresh_objects, pushFresh_luaNet_objects, Function.update_self,
        Function.update_self]
      exact ⟨rfl, rfl⟩
  reach k u hu hr := by
    rcases at_pushFresh.mp hu with hu | ⟨rfl, rfl⟩
    · exact h.reach k u hu hr
    · rfl
  fin k u hu hf := by
    rcases at_pushFresh.mp hu with hu | ⟨rfl, rfl⟩
    · exact h.fin k u hu hf
    · exact absurd hf Bool.false_ne_true
  weak i k hik := by
    by_cases hi : i = t.nextObj
    · subst hi
      rw [pushFresh_luaNet_objects, Function.update_self] at hik
      obtain rfl : t.userdata.length = k := Option.some.inj hik
      exact ⟨_, at_pushFresh.mpr (Or.inr ⟨rfl, rfl⟩), rfl, rfl⟩
    · rw [pushFresh_luaNet_objects, Function.update_of_ne hi] at hik
      obtain ⟨u, hu, hid, hc⟩ := h.weak i k hik
      exact ⟨u, at_pushFresh.mpr (Or.inl hu), hid, hc⟩
  registered i o' hio := by
    by_cases hi : i = t.nextObj
    · subst hi
      rw [pushFresh_objects, Function.update_self] at hio
      obtain rfl : o = o' := Option.some.inj hio
      exact ⟨_, _, at_pushFresh.mpr (Or.inr ⟨rfl, rfl⟩), rfl, rfl, rfl⟩
    · rw [pushFresh_objects, Function.update_of_ne hi] at hio
      obtain ⟨k, u, hu, hid, hobj, hf⟩ := h.registered i o' hio
      exact ⟨k, u, at_pushFresh.mpr (Or.inl hu), hid, hobj, hf⟩

/-! ### The events -/

/-- What a push of an object can do: the userdata of the id found is pushed; or its weak
entry is gone and the id is collected before a new registration; or no id is found. -/
theorem pushObject_cases (t : ObjectTranslator Obj) (o : Obj) (m : Metatable) :
    (∃ i k, Dictionary.tryGetValue t.comparer t.objectsBackMap o = some i ∧
      t.luaNet_objects i = some k ∧
      pushObject t (some o) m =
        (some k, modifyUserdata t k fun u => { u with reachable := true })) ∨
    (∃ i, Dictionary.tryGetValue t.comparer t.objectsBackMap o = some i ∧
      t.luaNet_objects i = none ∧
      pushObject t (some o) m =
        (some t.userdata.length, (pushFresh (collectObjectRef t o i) o m).2)) ∨
    (Dictionary.tryGetValue t.comparer t.objectsBackMap o = none ∧
      pushObject t (some o) m = (some t.userdata.length, (pushFresh t o m).2)) := by
  cases hfind : Dictionary.tryGetValue t.comparer t.objectsBackMap o with
  | none => exact Or.inr (Or.inr ⟨rfl, by simp only [pushObject, hfind]; rfl⟩)
  | some i =>
      cases hweak : t.luaNet_objects i with
      | some k =>
          exact Or.inl ⟨i, k, rfl, hweak, by simp only [pushObject, hfind, hweak]⟩
      | none =>
          refine Or.inr (Or.inl ⟨i, rfl, hweak, ?_⟩)
          simp only [pushObject, hfind, hweak]
          rfl

/-- A push makes at most one userdata. -/
theorem length_pushObject (t : ObjectTranslator Obj) (o : Option Obj) (m : Metatable) :
    t.userdata.length ≤ (pushObject t o m).2.userdata.length ∧
      (pushObject t o m).2.userdata.length ≤ t.userdata.length + 1 := by
  cases o with
  | none => exact ⟨Nat.le_refl _, Nat.le_succ _⟩
  | some o =>
      rcases pushObject_cases t o m with ⟨i, k, -, -, h⟩ | ⟨i, -, -, h⟩ | ⟨-, h⟩
      · rw [h, length_modifyUserdata]
        exact ⟨Nat.le_refl _, Nat.le_succ _⟩
      · rw [h, pushFresh_length]
        exact ⟨Nat.le_succ _, Nat.le_refl _⟩
      · rw [h, pushFresh_length]
        exact ⟨Nat.le_succ _, Nat.le_refl _⟩

/-- A cleared weak entry belongs to no uncleared userdata. -/
theorem IdInv.id_ne_of_weak_none {t : ObjectTranslator Obj} (h : IdInv t) {i : ℤ}
    (hweak : t.luaNet_objects i = none) (k : ℕ) (u : Userdata Obj) (hu : t.At k u)
    (hc : u.cleared = false) : u.id ≠ i := by
  rintro rfl
  rw [(h.uncleared k u hu hc).2] at hweak
  exact absurd hweak (by simp)

theorem IdInv.pushObject {t : ObjectTranslator Obj} (h : IdInv t) (o : Option Obj)
    (m : Metatable) (hlen : (pushObject t o m).2.userdata.length ≤ 2 ^ 32) :
    IdInv (pushObject t o m).2 := by
  cases o with
  | none => exact h
  | some o =>
      rcases pushObject_cases t o m with ⟨i, k, -, hweak, heq⟩ | ⟨i, -, hweak, heq⟩ | ⟨-, heq⟩
      · rw [heq]
        refine h.setReachable k true fun _ u hu => ?_
        obtain ⟨v, hv, -, hc⟩ := h.weak i k hweak
        exact hu.unique hv ▸ hc
      · rw [heq, pushFresh_length] at hlen
        rw [heq]
        exact (h.collectObjectRef o (h.id_ne_of_weak_none hweak)).pushFresh o m
          (Nat.lt_of_succ_le hlen)
      · rw [heq, pushFresh_length] at hlen
        rw [heq]
        exact h.pushFresh o m (Nat.lt_of_succ_le hlen)

/-- The finalizer of a cleared userdata removes at most its own entry. -/
theorem IdInv.collectObject {t : ObjectTranslator Obj} (h : IdInv t)
    (hlen : t.userdata.length ≤ 2 ^ 32) {k : ℕ} {u : Userdata Obj} (hu : t.At k u)
    (hc : u.cleared = true) : IdInv (collectObject t u.id) := by
  simp only [ObjectTranslator.collectObject]
  cases hobj : t.objects u.id with
  | none => exact h
  | some o =>
      refine h.collectObjectRef o fun j v hv hvc hid => ?_
      obtain rfl := h.position_inj hlen hv hu hid
      obtain rfl := hv.unique hu
      exact absurd (hc.symm.trans hvc) (by decide)

/-- After the collection of an id nothing is registered under it. -/
theorem objects_collectObject (t : ObjectTranslator Obj) (i : ℤ) :
    (collectObject t i).objects = Function.update t.objects i none := by
  cases hobj : t.objects i with
  | none =>
      simp only [collectObject, hobj]
      exact (Function.update_eq_self_iff.mpr hobj.symm).symm
  | some o =>
      simp only [collectObject, hobj]
      rfl

/-- The finalizer leaves the entries of all other ids as they are. -/
theorem objects_gcFunction_of_ne (t : ObjectTranslator Obj) {i j : ℤ} (hij : j ≠ i) :
    (gcFunction t i).objects j = t.objects j := by
  simp only [gcFunction]
  split
  · rw [objects_collectObject, Function.update_of_ne hij]
  · rfl

theorem userdata_gcFunction (t : ObjectTranslator Obj) (i : ℤ) :
    (gcFunction t i).userdata = t.userdata := by
  simp only [gcFunction, collectObject]
  split
  · split <;> rfl
  · rfl

/-- Marking a cleared userdata whose entry is gone as finalized. -/
theorem IdInv.setFinalized {t : ObjectTranslator Obj} (h : IdInv t) (k : ℕ)
    (hk : ∀ u, t.At k u → u.cleared = true ∧ t.objects u.id = none) :
    IdInv (modifyUserdata t k fun u => { u with finalized := true }) :=
  h.setFlags k (fun _ => rfl) (fun _ => rfl) (fun _ => rfl)
    (fun _ hu hr => h.reach k _ hu hr) (fun _ hu _ => (hk _ hu).1) fun _ hu _ => .inr (hk _ hu).2

/-- The finalizer as a whole: the id is collected and the userdata is done. -/
theorem IdInv.finalize {t : ObjectTranslator Obj} (h : IdInv t)
    (hlen : t.userdata.length < 2 ^ 32) {k : ℕ} {u : Userdata Obj} (hu : t.At k u)
    (hc : u.cleared = true) :
    IdInv (modifyUserdata (gcFunction t u.id) k fun u => { u with finalized := true }) := by
  have hk := hu.lt
  have hid : u.id ≠ -1 := by
    rw [h.position k u hu]
    exact wrapInt32_ne_neg_one (by omega)
  have hgc : gcFunction t u.id = ObjectTranslator.collectObject t u.id := if_pos hid
  have huserdata : (ObjectTranslator.collectObject t u.id).userdata = t.userdata := by
    rw [← hgc, userdata_gcFunction]
  rw [hgc]
  refine (h.collectObject (Nat.le_of_lt hlen) hu hc).setFinalized k fun v hv => ?_
  rw [At, huserdata] at hv
  obtain rfl := hu.unique hv
  rw [objects_collectObject, Function.update_self]
  exact ⟨hc, rfl⟩

theorem step_drop {t t' : ObjectTranslator Obj} {k : ℕ} (h : step t (.drop k) = some t') :
    ∃ u, t.At k u ∧ t' = modifyUserdata t k fun u => { u with reachable := false } := by
  simp only [step] at h
  split at h
  · next u hu => exact ⟨u, hu, (Option.some.inj h).symm⟩
  · exact absurd h (by simp)

theorem step_clear {t t' : ObjectTranslator Obj} {k : ℕ} (h : step t (.clear k) = some t') :
    ∃ u, t.At k u ∧ u.reachable = false ∧ u.cleared = false ∧ t' = clearEntry t k := by
  simp only [step] at h
  split at h
  · next u hu =>
      split at h
      · next hc => exact ⟨u, hu, hc.1, hc.2, (Option.some.inj h).symm⟩
      · exact absurd h (by simp)
  · exact absurd h (by simp)

theorem step_finalize {t t' : ObjectTranslator Obj} {k : ℕ}
    (h : step t (.finalize k) = some t') :
    ∃ u, t.At k u ∧ u.cleared = true ∧ u.finalized = false ∧
      t' = modifyUserdata (gcFunction t u.id) k fun u => { u with finalized := true } := by
  simp only [step] at h
  split at h
  · next u hu =>
      split at h
      · next hc => exact ⟨u, hu, hc.1, hc.2, (Option.some.inj h).symm⟩
      · exact absurd h (by simp)
  · exact absurd h (by simp)

/-- No event takes a userdata off the list. -/
theorem length_le_step {t t' : ObjectTranslator Obj} {e : Event Obj}
    (h : step t e = some t') : t.userdata.length ≤ t'.userdata.length := by
  cases e with
  | push o m =>
      obtain rfl := Option.some.inj h
      exact (length_pushObject t o m).1
  | makeObject obj =>
      obtain rfl := Option.some.inj h
      rw [registerTable, pushFresh_length]
      exact Nat.le_succ_of_le (length_pushObject t (some obj) _).1
  | drop k =>
      obtain ⟨u, -, rfl⟩ := step_drop h
      rw [length_modifyUserdata]
  | clear k =>
      obtain ⟨u, -, -, -, rfl⟩ := step_clear h
      rw [clearEntry, length_modifyUserdata]
  | finalize k =>
      obtain ⟨u, -, -, -, rfl⟩ := step_finalize h
      rw [length_modifyUserdata, userdata_gcFunction]
  | fieldWrite c =>
      obtain rfl := Option.some.inj h
      exact Nat.le_refl _

/-- **The step lemma of the ids.** Every event keeps the invariant, while the counter has
not come round. -/
theorem idInv_step {t t' : ObjectTranslator Obj} {e : Event Obj}
    (hlen : t'.userdata.length < 2 ^ 32) (h : IdInv t) (hstep : step t e = some t') :
    IdInv t' := by
  have hlen' := Nat.lt_of_le_of_lt (length_le_step hstep) hlen
  cases e with
  | push o m =>
      obtain rfl := Option.some.inj hstep
      exact h.pushObject o m (Nat.le_of_lt hlen)
  | makeObject obj =>
      obtain rfl := Option.some.inj hstep
      rw [registerTable, pushFresh_length] at hlen
      exact (h.pushObject (some obj) .luaNet_metatable (by omega)).pushFresh obj
        .luaNet_searchbase (by omega)
  | drop k =>
      obtain ⟨u, -, rfl⟩ := step_drop hstep
      exact h.setReachable k false fun hfalse => absurd hfalse Bool.false_ne_true
  | clear k =>
      obtain ⟨u, hu, hr, -, rfl⟩ := step_clear hstep
      exact h.clearEntry fun v hv => hu.unique hv ▸ hr
  | finalize k =>
      obtain ⟨u, hu, hc, -, rfl⟩ := step_finalize hstep
      exact h.finalize hlen' hu hc
  | fieldWrite c =>
      obtain rfl := Option.some.inj hstep
      exact ⟨h.next, h.position, h.uncleared, h.reach, h.fin, h.weak, h.registered⟩

/-- The invariant holds in every state a run reaches before the counter comes round. -/
theorem idInv_run {c : KeyComparer Obj} {es : List (Event Obj)} {t : ObjectTranslator Obj}
    (hrun : run step (initial c) es = some t) (hlen : t.userdata.length < 2 ^ 32) :
    IdInv t := by
  have hinv : t.userdata.length < 2 ^ 32 → IdInv t :=
    run_invariant (I := fun t => t.userdata.length < 2 ^ 32 → IdInv t)
      (fun s e s' hI hstep hs' =>
        idInv_step hs' (hI (Nat.lt_of_le_of_lt (length_le_step hstep) hs')) hstep)
      hrun (fun _ => idInv_initial c)
  exact hinv hlen

/-! ### No dangling ids -/

/-- **Ids never dangle.** In every state reached by any events in any order, with fewer
than `2 ^ 31` registrations: a userdata that Lua reaches carries an id under which the
very object it was made for is registered, different userdata carry different ids, and a
finalizer, however late, leaves the entries of all other userdata alone. -/
theorem no_dangling_ids {c : KeyComparer Obj} {es : List (Event Obj)}
    {t : ObjectTranslator Obj} (hrun : run step (initial c) es = some t)
    (hlen : t.userdata.length < 2 ^ 31) :
    (∀ k u, t.At k u → u.reachable = true → t.objects u.id = some u.object) ∧
    (∀ k k' u u', t.At k u → t.At k' u' → k ≠ k' → u.id ≠ u'.id) ∧
    (∀ k t', step t (.finalize k) = some t' → ∀ k' u', t.At k' u' → k' ≠ k →
      t'.objects u'.id = t.objects u'.id) := by
  have h : IdInv t := idInv_run hrun (by omega)
  have hdistinct : ∀ k k' u u', t.At k u → t.At k' u' → k ≠ k' → u.id ≠ u'.id :=
    fun k k' u u' hu hu' hne hid => hne (h.position_inj (by omega) hu hu' hid)
  refine ⟨fun k u hu hr => (h.uncleared k u hu (h.reach k u hu hr)).1, hdistinct, ?_⟩
  intro k t' hstep k' u' hu' hne
  obtain ⟨u, hu, -, -, rfl⟩ := step_finalize hstep
  exact objects_gcFunction_of_ne t (hdistinct k' k u' u hu' hu hne)

/-- An object is pushed again after its weak entry was cleared, and only then does the
finalizer of its first userdata run. -/
def lateFinalizer : List (Event ℕ) :=
  [.push (some 7) .luaNet_metatable, .drop 0, .clear 0, .push (some 7) .luaNet_metatable,
    .finalize 0]

theorem no_dangling_ids_lateFinalizer :
    ∃ t, run step (initial ⟨fun _ => 0, (· == ·)⟩) lateFinalizer = some t ∧
      ∀ k u, t.At k u → u.reachable = true → t.objects u.id = some u.object :=
  ⟨_, rfl, (@no_dangling_ids ℕ ⟨fun _ => 0, (· == ·)⟩ lateFinalizer _ rfl (by decide)).1⟩

end ObjectTranslator

end UnityLua
