import Mathlib.Data.Set.Operations
import UnityLua.ObjectIds

/-!
# The two registry maps

`objects` and `objectsBackMap` are meant to be inverse to each other. Each write to the
pair (`addObject`, both variants of `collectObject`) keeps them so on two conditions: a
new registration is made only for an object the back map does not find, and a removal
finds the entry it is for. `pushObject` establishes the first by its lookup, and the
second holds while no registered object has changed its hash code or become equal to
another one.

Two writers break the conditions. `registerTable` registers the object it has just pushed
without looking it up, so the object gets a second id; and a field write from Lua may
change the hash code of a registered boxed object, whose entry is then never removed.

`MapInv` is stated for the objects of a set `U` on which the comparison is an
equivalence, so that the same invariant serves lawful comparers (`U` everything) and
arbitrary ones (`U` a set of objects the comparer tells apart).

## Main results

* `mapInv_step`: every event that looks objects up keeps the maps inverse.
* `not_mutuallyInverse_registerTable`: `make_object` always breaks the maps.
* `mutuallyInverse_iff_keepsMaps`: the maps are inverse throughout a run exactly when it
  has no `make_object` and no field write that puts the back map out of order.
* `mutuallyInverse_fails`: one run of each of the two writers after which they are not.
-/

open Library

namespace UnityLua

namespace ObjectTranslator

variable {Obj : Type}

/-- The maps are inverse and the back map is in order, for objects of `U`. -/
structure MapInv (U : Set Obj) (t : ObjectTranslator Obj) : Prop where
  equiv : t.comparer.EquivOn U
  keys : ∀ e ∈ t.objectsBackMap, e.key ∈ U
  coherent : Dictionary.Coherent t.comparer t.objectsBackMap
  entries : ∀ i o, t.objects i = some o ↔ ∃ e ∈ t.objectsBackMap, e.key = o ∧ e.value = i

theorem mapInv_initial {c : KeyComparer Obj} {U : Set Obj} (hc : c.EquivOn U) :
    MapInv U (initial c) where
  equiv := hc
  keys := by simp [initial]
  coherent := Dictionary.coherent_nil c
  entries := by simp [initial]

/-- The back map finds exactly the ids of the objects that are one key with the probe. -/
theorem MapInv.tryGetValue_iff {U : Set Obj} {t : ObjectTranslator Obj} (h : MapInv U t)
    {o : Obj} (ho : o ∈ U) {i : ℤ} :
    Dictionary.tryGetValue t.comparer t.objectsBackMap o = some i ↔
      ∃ k, t.objects i = some k ∧ t.comparer.Same k o := by
  rw [h.coherent.tryGetValue_eq_some_iff h.equiv h.keys ho]
  constructor
  · rintro ⟨e, he, hsame, rfl⟩
    exact ⟨e.key, (h.entries e.value e.key).mpr ⟨e, he, rfl, rfl⟩, hsame⟩
  · rintro ⟨k, hk, hsame⟩
    obtain ⟨e, he, rfl, rfl⟩ := (h.entries i k).mp hk
    exact ⟨e, he, hsame, rfl⟩

/-- Two entries with the same id are one. -/
theorem MapInv.entry_inj {U : Set Obj} {t : ObjectTranslator Obj} (h : MapInv U t)
    {e e' : Entry Obj ℤ} (he : e ∈ t.objectsBackMap) (he' : e' ∈ t.objectsBackMap)
    (hv : e.value = e'.value) : e = e' := by
  have hobj := (h.entries e.value e.key).mpr ⟨e, he, rfl, rfl⟩
  have hobj' := (h.entries e'.value e'.key).mpr ⟨e', he', rfl, rfl⟩
  have hkey : e.key = e'.key := Option.some.inj (hobj.symm.trans (hv ▸ hobj'))
  refine h.coherent.eq_of_same h.equiv h.keys he he' ?_
  rw [← hkey]
  exact h.equiv.refl _ (h.keys e he)

/-! ### The writes -/

/-- A removal that finds the entry of its id keeps the maps inverse. -/
theorem MapInv.collectObjectRef {U : Set Obj} {t : ObjectTranslator Obj} (h : MapInv U t)
    {o : Obj} (ho : o ∈ U) {i : ℤ}
    (hfind : Dictionary.tryGetValue t.comparer t.objectsBackMap o = some i) :
    MapInv U (collectObjectRef t o i) where
  equiv := h.equiv
  keys e he := h.keys e (Dictionary.mem_of_mem_remove he)
  coherent := h.coherent.remove o
  entries j p := by
    obtain ⟨e, he, hsame, hv⟩ :=
      (h.coherent.tryGetValue_eq_some_iff h.equiv h.keys ho).mp hfind
    -- the entry that goes is the one with id `i`: the removal hits no other
    have hgone : ∀ x ∈ t.objectsBackMap, t.comparer.Same x.key o ↔ x.value = i := by
      intro x hx
      constructor
      · intro hxo
        have hback := h.equiv.symm _ (h.keys e he) _ ho hsame
        rw [h.coherent.eq_of_same h.equiv h.keys hx he
          (h.equiv.trans _ (h.keys x hx) _ ho _ (h.keys e he) hxo hback)]
        exact hv
      · intro hxi
        rw [h.entry_inj hx he (hxi.trans hv.symm)]
        exact hsame
    have hmem : ∀ x, x ∈ (ObjectTranslator.collectObjectRef t o i).objectsBackMap ↔
        x ∈ t.objectsBackMap ∧ ¬ t.comparer.Same x.key o :=
      fun x => h.coherent.mem_remove_iff h.equiv h.keys ho
    simp only [hmem]
    by_cases hj : j = i
    · subst hj
      simp only [ObjectTranslator.collectObjectRef, Function.update_self, reduceCtorEq,
        false_iff, not_exists, not_and]
      rintro x ⟨hx, hno⟩ - hxj
      exact hno ((hgone x hx).mpr hxj)
    · simp only [ObjectTranslator.collectObjectRef, Function.update_of_ne hj]
      rw [h.entries j p]
      constructor
      · rintro ⟨x, hx, hkey, hval⟩
        exact ⟨x, ⟨hx, fun hs => hj (hval.symm.trans ((hgone x hx).mp hs))⟩, hkey, hval⟩
      · rintro ⟨x, ⟨hx, -⟩, hkey, hval⟩
        exact ⟨x, hx, hkey, hval⟩

/-- After a removal the object is no longer found. -/
theorem MapInv.tryGetValue_collectObjectRef {U : Set Obj} {t : ObjectTranslator Obj}
    (h : MapInv U t) {o : Obj} (ho : o ∈ U) {i : ℤ}
    (hfind : Dictionary.tryGetValue t.comparer t.objectsBackMap o = some i) :
    Dictionary.tryGetValue t.comparer
      (ObjectTranslator.collectObjectRef t o i).objectsBackMap o = none := by
  have h' := h.collectObjectRef ho hfind
  cases hagain : Dictionary.tryGetValue t.comparer
      (ObjectTranslator.collectObjectRef t o i).objectsBackMap o with
  | none => rfl
  | some j =>
      obtain ⟨e, he, hsame, -⟩ :=
        (h'.coherent.tryGetValue_eq_some_iff h'.equiv h'.keys ho).mp hagain
      exact absurd hsame ((h.coherent.mem_remove_iff h.equiv h.keys ho).mp he).2

/-- A registration of an object that is not found, under a free id. -/
theorem MapInv.pushFresh {U : Set Obj} {t : ObjectTranslator Obj} (h : MapInv U t)
    {o : Obj} (ho : o ∈ U)
    (hfind : Dictionary.tryGetValue t.comparer t.objectsBackMap o = none)
    (hfree : t.objects t.nextObj = none) (m : Metatable) : MapInv U (pushFresh t o m).2 := by
  have hback : (ObjectTranslator.pushFresh t o m).2.objectsBackMap =
      ⟨t.comparer.hash o, o, t.nextObj⟩ :: t.objectsBackMap :=
    Dictionary.set_of_tryGetValue_eq_none hfind t.nextObj
  refine ⟨h.equiv, ?_, ?_, ?_⟩
  · rw [hback]
    intro e he
    rcases List.mem_cons.mp he with rfl | he
    · exact ho
    · exact h.keys e he
  · rw [hback]
    exact h.coherent.cons h.equiv h.keys ho hfind t.nextObj
  · intro j p
    rw [hback, pushFresh_objects]
    by_cases hj : j = t.nextObj
    · subst hj
      rw [Function.update_self]
      constructor
      · intro hp
        obtain rfl := Option.some.inj hp
        exact ⟨_, List.mem_cons_self, rfl, rfl⟩
      · rintro ⟨e, he, rfl, hv⟩
        rcases List.mem_cons.mp he with rfl | he
        · rfl
        · have := (h.entries t.nextObj e.key).mpr ⟨e, he, rfl, hv⟩
          exact absurd (hfree.symm.trans this) (by simp)
    · rw [Function.update_of_ne hj, h.entries j p]
      constructor
      · rintro ⟨e, he, hkey, hv⟩
        exact ⟨e, List.mem_cons_of_mem _ he, hkey, hv⟩
      · rintro ⟨e, he, hkey, hv⟩
        rcases List.mem_cons.mp he with rfl | he
        · exact absurd hv.symm hj
        · exact ⟨e, he, hkey, hv⟩

/-- A finalizer finds the entry of its id through the object registered there. -/
theorem MapInv.collectObject {U : Set Obj} {t : ObjectTranslator Obj} (h : MapInv U t)
    (i : ℤ) : MapInv U (collectObject t i) := by
  simp only [ObjectTranslator.collectObject]
  cases hobj : t.objects i with
  | none => exact h
  | some o =>
      obtain ⟨e, he, rfl, -⟩ := (h.entries i o).mp hobj
      have ho := h.keys e he
      exact h.collectObjectRef ho
        ((h.tryGetValue_iff ho).mpr ⟨e.key, hobj, h.equiv.refl _ ho⟩)

theorem MapInv.gcFunction {U : Set Obj} {t : ObjectTranslator Obj} (h : MapInv U t)
    (i : ℤ) : MapInv U (gcFunction t i) := by
  simp only [ObjectTranslator.gcFunction]
  split
  · exact h.collectObject i
  · exact h

/-- Flags and weak entries are not part of the maps. -/
theorem MapInv.modifyUserdata {U : Set Obj} {t : ObjectTranslator Obj} (h : MapInv U t)
    (k : ℕ) (f : Userdata Obj → Userdata Obj) : MapInv U (modifyUserdata t k f) :=
  ⟨h.equiv, h.keys, h.coherent, h.entries⟩

/-- **A push keeps the maps inverse**: it registers only what the back map does not find,
and it collects only the entry it has found. -/
theorem MapInv.pushObject {U : Set Obj} {t : ObjectTranslator Obj} (h : MapInv U t)
    (hid : IdInv t) {o : Option Obj} (ho : ∀ p, o = some p → p ∈ U) (m : Metatable)
    (hlen : (pushObject t o m).2.userdata.length < 2 ^ 32) :
    MapInv U (pushObject t o m).2 := by
  cases o with
  | none => exact h
  | some o =>
      have hoU := ho o rfl
      rcases pushObject_cases t o m with
        ⟨i, k, -, -, heq⟩ | ⟨i, hfind, hweak, heq⟩ | ⟨hfind, heq⟩
      · rw [heq]
        exact h.modifyUserdata k _
      · rw [heq, pushFresh_length] at hlen
        rw [heq]
        have hid' := hid.collectObjectRef o (hid.id_ne_of_weak_none hweak)
        exact (h.collectObjectRef hoU hfind).pushFresh hoU
          (h.tryGetValue_collectObjectRef hoU hfind)
          (hid'.objects_nextObj (Nat.lt_of_succ_lt hlen)) m
      · rw [heq, pushFresh_length] at hlen
        rw [heq]
        exact h.pushFresh hoU hfind (hid.objects_nextObj (Nat.lt_of_succ_lt hlen)) m

/-- The events that keep the maps inverse on `U`: pushes of objects of `U`, everything the
collector does, and field writes that leave the back map in order. -/
def KeepsOn (U : Set Obj) (t : ObjectTranslator Obj) : Event Obj → Prop
  | .push o _ => ∀ p, o = some p → p ∈ U
  | .makeObject _ => False
  | .fieldWrite c => c.EquivOn U ∧ Dictionary.Coherent c t.objectsBackMap
  | _ => True

/-- **The step lemma of the maps.** -/
theorem mapInv_step {U : Set Obj} {t t' : ObjectTranslator Obj} {e : Event Obj}
    (hok : KeepsOn U t e) (hid : IdInv t) (h : MapInv U t) (hstep : step t e = some t')
    (hlen : t'.userdata.length < 2 ^ 32) : MapInv U t' := by
  cases e with
  | push o m =>
      obtain rfl := Option.some.inj hstep
      exact h.pushObject hid hok m hlen
  | makeObject obj => exact absurd hok not_false
  | drop k =>
      obtain ⟨u, -, rfl⟩ := step_drop hstep
      exact h.modifyUserdata k _
  | clear k =>
      obtain ⟨u, -, -, -, rfl⟩ := step_clear hstep
      exact ⟨h.equiv, h.keys, h.coherent, h.entries⟩
  | finalize k =>
      obtain ⟨u, -, -, -, rfl⟩ := step_finalize hstep
      exact (h.gcFunction u.id).modifyUserdata k _
  | fieldWrite c =>
      obtain rfl := Option.some.inj hstep
      exact ⟨hok.1, h.keys, hok.2, h.entries⟩

/-- Both invariants hold after every run of such events, before the counter comes round. -/
theorem mapInv_run {U : Set Obj} {c : KeyComparer Obj} (hc : c.EquivOn U)
    {es : List (Event Obj)} {t : ObjectTranslator Obj}
    (hok : AllSteps step (KeepsOn U) (initial c) es)
    (hrun : run step (initial c) es = some t) (hlen : t.userdata.length < 2 ^ 32) :
    IdInv t ∧ MapInv U t := by
  have hinv : t.userdata.length < 2 ^ 32 → IdInv t ∧ MapInv U t :=
    run_invariant_of (KeepsOn U)
      (I := fun t => t.userdata.length < 2 ^ 32 → IdInv t ∧ MapInv U t)
      (fun s e s' hI hok hstep hs' =>
        have hs := hI (Nat.lt_of_le_of_lt (length_le_step hstep) hs')
        ⟨idInv_step hs' hs.1 hstep, mapInv_step hok hs.1 hs.2 hstep hs'⟩)
      hok hrun (fun _ => ⟨idInv_initial c, mapInv_initial hc⟩)
  exact hinv hlen

/-! ### When the maps are inverse -/

/-- The two maps are inverse to each other. A lookup cannot tell equal objects apart, so
`lookup` is up to the dictionary's own equality; `entries` matches references. -/
structure MutuallyInverse (t : ObjectTranslator Obj) : Prop where
  entries : ∀ i o, t.objects i = some o ↔ ∃ e ∈ t.objectsBackMap, e.key = o ∧ e.value = i
  lookup : ∀ i o, Dictionary.tryGetValue t.comparer t.objectsBackMap o = some i ↔
    ∃ k, t.objects i = some k ∧ t.comparer.Same k o
  unique : ∀ i j o, t.objects i = some o → t.objects j = some o → i = j
  emptied : (∀ u ∈ t.userdata, u.finalized = true) →
    (∀ i, t.objects i = none) ∧ t.objectsBackMap = []

/-- The condition on the step from `t`: no second registration, and after a field write the
back map still stores every key under its hash code and no two keys are one. -/
def KeepsMaps (t : ObjectTranslator Obj) : Event Obj → Prop
  | .makeObject _ => False
  | .fieldWrite c => Dictionary.Coherent c t.objectsBackMap
  | _ => True

/-- The contract of .NET on `Equals` and `GetHashCode`, where the event changes them. -/
def LawfulEvent : Event Obj → Prop
  | .fieldWrite c => c.Lawful
  | _ => True

theorem MapInv.mutuallyInverse {t : ObjectTranslator Obj} (hid : IdInv t)
    (h : MapInv Set.univ t) : MutuallyInverse t where
  entries := h.entries
  lookup i o := h.tryGetValue_iff (Set.mem_univ o)
  unique i j o hi hj := by
    obtain ⟨e, he, hkey, hv⟩ := (h.entries i o).mp hi
    obtain ⟨e', he', hkey', hv'⟩ := (h.entries j o).mp hj
    have hsame : t.comparer.Same e.key e'.key := by
      rw [hkey, hkey']
      exact h.equiv.refl o (Set.mem_univ o)
    rw [← hv, ← hv', h.coherent.eq_of_same h.equiv h.keys he he' hsame]
  emptied hfin := by
    have hnone : ∀ i, t.objects i = none := by
      intro i
      cases hobj : t.objects i with
      | none => rfl
      | some o =>
          obtain ⟨k, u, hu, -, -, hf⟩ := hid.registered i o hobj
          exact absurd ((hfin u (List.mem_of_getElem? hu)).symm.trans hf) (by decide)
    refine ⟨hnone, List.eq_nil_iff_forall_not_mem.mpr fun e he => ?_⟩
    have := (h.entries e.value e.key).mpr ⟨e, he, rfl, rfl⟩
    exact absurd ((hnone e.value).symm.trans this) (by simp)

theorem comparer_pushObject (t : ObjectTranslator Obj) (o : Obj) (m : Metatable) :
    (pushObject t (some o) m).2.comparer = t.comparer := by
  rcases pushObject_cases t o m with ⟨i, k, -, -, heq⟩ | ⟨i, -, -, heq⟩ | ⟨-, heq⟩ <;>
    rw [heq] <;> rfl

/-- A push leaves its object registered, itself or as an object equal to it. -/
theorem MapInv.exists_objects_pushObject {t : ObjectTranslator Obj}
    (h : MapInv Set.univ t) (o : Obj) (m : Metatable) :
    ∃ i k, (ObjectTranslator.pushObject t (some o) m).2.objects i = some k ∧
      (ObjectTranslator.pushObject t (some o) m).2.comparer.Same k o := by
  have hrefl : t.comparer.Same o o := h.equiv.refl o (Set.mem_univ o)
  rcases pushObject_cases t o m with ⟨i, k, hfind, -, heq⟩ | ⟨i, -, -, heq⟩ | ⟨-, heq⟩
  · obtain ⟨p, hp, hsame⟩ := (h.tryGetValue_iff (Set.mem_univ o)).mp hfind
    rw [heq]
    exact ⟨i, p, hp, hsame⟩
  · rw [heq]
    exact ⟨t.nextObj, o, Function.update_self .., hrefl⟩
  · rw [heq]
    exact ⟨t.nextObj, o, Function.update_self .., hrefl⟩

/-- `make_object` always breaks the maps: its second registration gives the object a
second id. -/
theorem not_mutuallyInverse_registerTable {t : ObjectTranslator Obj} (hid : IdInv t)
    (h : MapInv Set.univ t) (obj : Obj)
    (hlen : (registerTable t obj).userdata.length < 2 ^ 32) :
    ¬ MutuallyInverse (registerTable t obj) := by
  intro hinv
  rw [registerTable, pushFresh_length] at hlen
  obtain ⟨i, k, hobj, hsame⟩ := h.exists_objects_pushObject obj .luaNet_metatable
  have hid' := hid.pushObject (some obj) .luaNet_metatable (by omega)
  have hfree := hid'.objects_nextObj (Nat.lt_of_succ_lt hlen)
  have hne : i ≠ (pushObject t (some obj) .luaNet_metatable).2.nextObj := by
    rintro rfl
    exact absurd (hfree.symm.trans hobj) (by simp)
  -- the lookup of `obj` would have to give the old id and the new one
  have hold := (hinv.lookup i obj).mpr ⟨k, (Function.update_of_ne hne _ _).trans hobj, hsame⟩
  have hself : (pushObject t (some obj) .luaNet_metatable).2.comparer.Same obj obj := by
    rw [comparer_pushObject]
    exact h.equiv.refl obj (Set.mem_univ obj)
  have hnew := (hinv.lookup _ obj).mpr ⟨obj, Function.update_self .., hself⟩
  exact hne (Option.some.inj (hold.symm.trans hnew))

/-- A field write after which the maps are inverse has left the back map in order. -/
theorem MutuallyInverse.coherent {t : ObjectTranslator Obj} (h : MapInv Set.univ t)
    {c : KeyComparer Obj} (hc : c.Lawful)
    (hinv : MutuallyInverse { t with comparer := c }) :
    Dictionary.Coherent c t.objectsBackMap := by
  have hself : ∀ e ∈ t.objectsBackMap, ∀ k, c.Same e.key k →
      Dictionary.tryGetValue c t.objectsBackMap k = some e.value := fun e he k hsame =>
    (hinv.lookup e.value k).mpr ⟨e.key, (h.entries _ _).mpr ⟨e, he, rfl, rfl⟩, hsame⟩
  refine ⟨fun e he => ?_, ?_⟩
  · -- the lookup of a key can only have hit its own entry, which has its id
    have hfind := hself e he e.key ⟨rfl, hc.refl e.key⟩
    obtain ⟨e', he', hhit, hv⟩ := Dictionary.exists_mem_of_tryGetValue hfind
    obtain rfl := h.entry_inj he' he hv
    simp only [Dictionary.hits, Bool.and_eq_true, beq_iff_eq] at hhit
    exact hhit.1
  · refine h.coherent.distinct.imp_of_mem fun {e e'} he he' hne hsame => hne ?_
    have hfind := hself e he e'.key hsame
    have hfind' := hself e' he' e'.key ⟨rfl, hc.refl e'.key⟩
    obtain rfl := h.entry_inj he he' (Option.some.inj (hfind.symm.trans hfind'))
    exact h.equiv.refl e.key (Set.mem_univ e.key)

/-- A step that meets the condition keeps the invariant of the maps. -/
theorem mapInv_step_of_keepsMaps {t t' : ObjectTranslator Obj} {e : Event Obj}
    (hlaw : LawfulEvent e) (hok : KeepsMaps t e) (hid : IdInv t) (h : MapInv Set.univ t)
    (hstep : step t e = some t') (hlen : t'.userdata.length < 2 ^ 32) :
    MapInv Set.univ t' := by
  refine mapInv_step ?_ hid h hstep hlen
  cases e with
  | push o m => exact fun p _ => Set.mem_univ p
  | makeObject obj => exact hok
  | fieldWrite c => exact ⟨hlaw.equivOn, hok⟩
  | drop k => trivial
  | clear k => trivial
  | finalize k => trivial

/-- A step that does not meet the condition leaves maps that are not inverse. -/
theorem not_mutuallyInverse_step {t t' : ObjectTranslator Obj} {e : Event Obj}
    (hlaw : LawfulEvent e) (hnot : ¬ KeepsMaps t e) (hid : IdInv t)
    (h : MapInv Set.univ t) (hstep : step t e = some t')
    (hlen : t'.userdata.length < 2 ^ 32) : ¬ MutuallyInverse t' := by
  cases e with
  | makeObject obj =>
      obtain rfl := Option.some.inj hstep
      exact not_mutuallyInverse_registerTable hid h obj hlen
  | fieldWrite c =>
      obtain rfl := Option.some.inj hstep
      exact fun hinv => hnot (hinv.coherent h hlaw)
  | push o m => exact absurd trivial hnot
  | drop k => exact absurd trivial hnot
  | clear k => exact absurd trivial hnot
  | finalize k => exact absurd trivial hnot

/-- **The maps are inverse exactly while the condition is met.** In a run of any events
with fewer than `2 ^ 32` registrations, over objects that obey the contract of `Equals`
and `GetHashCode`, the two maps are inverse in every state the run meets if and only if
the run contains no `make_object` and no field write that moves a registered object to
another hash code or makes it equal to another registered one. -/
theorem mutuallyInverse_iff_keepsMaps {c : KeyComparer Obj} (hc : c.Lawful)
    {es : List (Event Obj)} (hlaw : ∀ e ∈ es, LawfulEvent e) {t : ObjectTranslator Obj}
    (hrun : run step (initial c) es = some t) (hlen : t.userdata.length < 2 ^ 32) :
    Throughout step MutuallyInverse (initial c) es ↔
      AllSteps step KeepsMaps (initial c) es :=
  throughout_iff_allSteps (I := fun t => IdInv t ∧ MapInv Set.univ t)
    (B := fun t => t.userdata.length < 2 ^ 32)
    (fun _ h => h.2.mutuallyInverse h.1)
    (fun _ _ _ hstep hs' => Nat.lt_of_le_of_lt (length_le_step hstep) hs')
    (fun _ _ _ hl h hok hstep hs' =>
      ⟨idInv_step hs' h.1 hstep, mapInv_step_of_keepsMaps hl hok h.1 h.2 hstep hs'⟩)
    (fun _ _ _ hl h hnot hstep hs' => not_mutuallyInverse_step hl hnot h.1 h.2 hstep hs')
    hrun hlaw ⟨idInv_initial c, mapInv_initial hc.equivOn⟩ hlen

/-- Objects that are equal when they hold the same number, with a hash code of the
caller's choice. -/
def byNumber (hash : ℕ → ℤ) : KeyComparer ℕ := ⟨hash, (· == ·)⟩

theorem lawful_byNumber (n : ℤ) : (byNumber fun _ => n).Lawful where
  refl _ := beq_iff_eq.mpr rfl
  symm _ _ h := beq_iff_eq.mpr (beq_iff_eq.mp h).symm
  trans _ _ _ h h' := beq_iff_eq.mpr ((beq_iff_eq.mp h).trans (beq_iff_eq.mp h'))
  hash_eq _ _ _ := rfl

/-- Registered, pushed again and collected: the maps stay inverse throughout. -/
def orderly : List (Event ℕ) :=
  [.push (some 7) .luaNet_metatable, .push (some 7) .luaNet_metatable, .drop 0, .clear 0,
    .finalize 0]

theorem mutuallyInverse_iff_keepsMaps_orderly :
    Throughout step MutuallyInverse (initial (byNumber fun _ => 0)) orderly :=
  (mutuallyInverse_iff_keepsMaps (lawful_byNumber 0) (by simp [orderly, LawfulEvent]) rfl
    (by decide)).mpr (by simp [orderly, AllSteps, KeepsMaps])

/-- A boxed object is registered, a field write changes its hash code, and its userdata is
collected. -/
def rehashed : List (Event ℕ) :=
  [.push (some 7) .luaNet_metatable, .fieldWrite (byNumber fun _ => 1), .drop 0, .clear 0,
    .finalize 0]

/-- The two ways to break the maps: `make_object` gives one object two ids, and an object
whose hash code a field write has changed stays in the back map for ever. -/
theorem mutuallyInverse_fails :
    (∃ t, run step (initial (byNumber fun _ => 0)) [.makeObject 7] = some t ∧
      t.objects 0 = some 7 ∧ t.objects 1 = some 7 ∧ ¬ MutuallyInverse t) ∧
    ∃ t, run step (initial (byNumber fun _ => 0)) rehashed = some t ∧
      (∀ u ∈ t.userdata, u.finalized = true) ∧ t.objectsBackMap.length = 1 ∧
      ¬ MutuallyInverse t := by
  refine ⟨⟨_, rfl, rfl, rfl, fun h => ?_⟩, _, rfl, by decide, rfl, fun h => ?_⟩
  · exact absurd (h.unique 0 1 7 rfl rfl) (by decide)
  · exact absurd (h.emptied (by decide)).2 (List.cons_ne_nil _ _)

end ObjectTranslator

end UnityLua
