import UnityLua.ObjectMaps

/-!
# Which userdata a push yields

The back map is keyed by the objects' own `Equals` and `GetHashCode`, so a push yields the
userdata of the first registered object that the dictionary takes for the same key. For
the pushes to tell references apart, as scripts that compare userdata expect, the objects
themselves must: this module proves that the identity law holds over a set of objects
exactly when no two of them are one key.

## Main results

* `pushObject_eq_iff`: what a push yields beside an uncleared userdata.
* `identityLaw_iff`: the identity law holds exactly for objects that compare by reference.
* `identityLaw_fails`: two boxed structs with one value, of which the second is pushed as
  the first.
-/

open Library

namespace UnityLua

namespace ObjectTranslator

variable {Obj : Type}

/-! ### What a push yields -/

/-- Beside a userdata whose weak entry is there, a push yields that userdata exactly for
the objects that are one key with its own. -/
theorem pushObject_eq_iff {U : Set Obj} {t : ObjectTranslator Obj} (hid : IdInv t)
    (h : MapInv U t) {k : ℕ} {u : Userdata Obj} (hu : t.At k u) (hc : u.cleared = false)
    {b : Obj} (hb : b ∈ U) (m : Metatable) :
    (pushObject t (some b) m).1 = some k ↔ t.comparer.Same u.object b := by
  obtain ⟨hobj, hweak⟩ := hid.uncleared k u hu hc
  rcases pushObject_cases t b m with
    ⟨i, j, hfind, hj, heq⟩ | ⟨i, hfind, hnone, heq⟩ | ⟨hnone, heq⟩
  · rw [heq, Option.some.injEq]
    obtain ⟨p, hp, hsame⟩ := (h.tryGetValue_iff hb).mp hfind
    constructor
    · rintro rfl
      obtain ⟨v, hv, rfl, -⟩ := hid.weak i j hj
      obtain rfl := hu.unique hv
      exact Option.some.inj (hobj.symm.trans hp) ▸ hsame
    · intro hub
      have hi := (h.tryGetValue_iff hb).mpr ⟨u.object, hobj, hub⟩
      obtain rfl := Option.some.inj (hfind.symm.trans hi)
      exact Option.some.inj (hj.symm.trans hweak)
  · rw [heq, Option.some.injEq]
    constructor
    · exact fun hk => absurd hu.lt (by omega)
    · intro hub
      have hi := (h.tryGetValue_iff hb).mpr ⟨u.object, hobj, hub⟩
      obtain rfl := Option.some.inj (hfind.symm.trans hi)
      exact absurd (hnone.symm.trans hweak) (by simp)
  · rw [heq, Option.some.injEq]
    constructor
    · exact fun hk => absurd hu.lt (by omega)
    · intro hub
      have hi := (h.tryGetValue_iff hb).mpr ⟨u.object, hobj, hub⟩
      exact absurd (hnone.symm.trans hi) (by simp)

/-- The userdata a push yields: its weak entry is there, and its object is one key with
the object pushed. -/
theorem exists_pushObject {U : Set Obj} {t : ObjectTranslator Obj} (hid : IdInv t)
    (h : MapInv U t) {a : Obj} (ha : a ∈ U) (m : Metatable) :
    ∃ k u, (pushObject t (some a) m).1 = some k ∧ (pushObject t (some a) m).2.At k u ∧
      u.cleared = false ∧ t.comparer.Same u.object a := by
  have hrefl := h.equiv.refl a ha
  rcases pushObject_cases t a m with ⟨i, k, hfind, hk, heq⟩ | ⟨i, -, -, heq⟩ | ⟨-, heq⟩
  · obtain ⟨u, hu, rfl, hc⟩ := hid.weak i k hk
    obtain ⟨p, hp, hsame⟩ := (h.tryGetValue_iff ha).mp hfind
    obtain rfl := Option.some.inj ((hid.uncleared k u hu hc).1.symm.trans hp)
    rw [heq]
    exact ⟨k, { u with reachable := true }, rfl,
      at_modifyUserdata.mpr ⟨u, hu, (if_pos rfl).symm⟩, hc, hsame⟩
  · rw [heq]
    exact ⟨_, _, rfl, at_pushFresh.mpr (Or.inr ⟨rfl, rfl⟩), rfl, hrefl⟩
  · rw [heq]
    exact ⟨_, _, rfl, at_pushFresh.mpr (Or.inr ⟨rfl, rfl⟩), rfl, hrefl⟩

/-! ### What a userdata keeps -/

theorem at_pushObject {t : ObjectTranslator Obj} {o : Option Obj} {m : Metatable} {k : ℕ}
    {u : Userdata Obj} (hu : t.At k u) :
    ∃ v, (pushObject t o m).2.At k v ∧ v.id = u.id ∧ v.object = u.object := by
  cases o with
  | none => exact ⟨u, hu, rfl, rfl⟩
  | some o =>
      rcases pushObject_cases t o m with ⟨i, j, -, -, heq⟩ | ⟨i, -, -, heq⟩ | ⟨-, heq⟩ <;>
        rw [heq]
      · refine ⟨_, at_modifyUserdata.mpr ⟨u, hu, rfl⟩, ?_, ?_⟩ <;> split <;> rfl
      · exact ⟨u, at_pushFresh.mpr (Or.inl hu), rfl, rfl⟩
      · exact ⟨u, at_pushFresh.mpr (Or.inl hu), rfl, rfl⟩

/-- A userdata keeps its id and its object through every event. -/
theorem at_step {t t' : ObjectTranslator Obj} {e : Event Obj} (hstep : step t e = some t')
    {k : ℕ} {u : Userdata Obj} (hu : t.At k u) :
    ∃ v, t'.At k v ∧ v.id = u.id ∧ v.object = u.object := by
  cases e with
  | push o m =>
      obtain rfl := Option.some.inj hstep
      exact at_pushObject hu
  | makeObject obj =>
      obtain rfl := Option.some.inj hstep
      obtain ⟨v, hv, hid, hobj⟩ := at_pushObject (o := some obj) (m := .luaNet_metatable) hu
      exact ⟨v, at_pushFresh.mpr (Or.inl hv), hid, hobj⟩
  | drop j =>
      obtain ⟨w, -, rfl⟩ := step_drop hstep
      refine ⟨_, at_modifyUserdata.mpr ⟨u, hu, rfl⟩, ?_, ?_⟩ <;> split <;> rfl
  | clear j =>
      obtain ⟨w, -, -, -, rfl⟩ := step_clear hstep
      refine ⟨_, at_modifyUserdata.mpr ⟨u, hu, rfl⟩, ?_, ?_⟩ <;> split <;> rfl
  | finalize j =>
      obtain ⟨w, -, -, -, rfl⟩ := step_finalize hstep
      have hu' : (gcFunction t w.id).At k u := by
        rw [At, userdata_gcFunction]
        exact hu
      refine ⟨_, at_modifyUserdata.mpr ⟨u, hu', rfl⟩, ?_, ?_⟩ <;> split <;> rfl
  | fieldWrite c =>
      obtain rfl := Option.some.inj hstep
      exact ⟨u, hu, rfl, rfl⟩

theorem at_run {t t' : ObjectTranslator Obj} {es : List (Event Obj)}
    (hrun : run step t es = some t') {k : ℕ} {u : Userdata Obj} (hu : t.At k u) :
    ∃ v, t'.At k v ∧ v.id = u.id ∧ v.object = u.object :=
  run_invariant (I := fun s => ∃ v, s.At k v ∧ v.id = u.id ∧ v.object = u.object)
    (fun _ _ _ ⟨_, hv, hid, hobj⟩ hstep =>
      let ⟨w, hw, hid', hobj'⟩ := at_step hstep hv
      ⟨w, hw, hid'.trans hid, hobj'.trans hobj⟩)
    hrun ⟨u, hu, rfl, rfl⟩

/-! ### The identity law -/

/-- The events of a run of pushes and collections that pushes objects of `S` only. -/
def PushOrCollect (S : Set Obj) : Event Obj → Prop
  | .push o _ => ∀ p, o = some p → p ∈ S
  | .makeObject _ => False
  | .fieldWrite _ => False
  | _ => True

/-- No such event changes the way objects compare. -/
theorem comparer_step {S : Set Obj} {t t' : ObjectTranslator Obj} {e : Event Obj}
    (he : PushOrCollect S e) (hstep : step t e = some t') : t'.comparer = t.comparer := by
  cases e with
  | push o m =>
      obtain rfl := Option.some.inj hstep
      cases o with
      | none => rfl
      | some o => exact comparer_pushObject t o m
  | makeObject obj => exact absurd he not_false
  | drop j =>
      obtain ⟨w, -, rfl⟩ := step_drop hstep
      rfl
  | clear j =>
      obtain ⟨w, -, -, -, rfl⟩ := step_clear hstep
      rfl
  | finalize j =>
      obtain ⟨w, -, -, -, rfl⟩ := step_finalize hstep
      simp only [modifyUserdata, gcFunction, collectObject]
      split
      · split <;> rfl
      · rfl
  | fieldWrite c => exact absurd he not_false

/-- Runs of pushes and collections keep the invariants on `S`. -/
theorem inv_run_of_pushOrCollect {S : Set Obj} {c : KeyComparer Obj} (hc : c.EquivOn S)
    {es : List (Event Obj)} (hes : ∀ e ∈ es, PushOrCollect S e) {t : ObjectTranslator Obj}
    (hrun : run step (initial c) es = some t) (hlen : t.userdata.length < 2 ^ 32) :
    IdInv t ∧ MapInv S t ∧ t.comparer = c := by
  have hkeeps : AllSteps step (KeepsOn S) (initial c) es :=
    allSteps_of_forall (fun e he s => by
      have := hes e he
      cases e with
      | fieldWrite c => exact absurd this not_false
      | push o m => exact this
      | makeObject obj => exact this
      | drop k => trivial
      | clear k => trivial
      | finalize k => trivial) _
  obtain ⟨hid, hmap⟩ := mapInv_run hc hkeeps hrun hlen
  refine ⟨hid, hmap, ?_⟩
  exact run_invariant_of (fun _ => PushOrCollect S) (I := fun t => t.comparer = c)
    (fun _ _ _ hI he hstep => (comparer_step he hstep).trans hI)
    (allSteps_of_forall (fun e he _ => hes e he) _) hrun rfl

/-- The identity law over the references of `S`: after any run of pushes and collections,
a pushed object reads back as itself, and after any further run that leaves its userdata
reachable, a push yields that userdata for this reference and for no other. -/
def IdentityLaw (c : KeyComparer Obj) (S : Set Obj) : Prop :=
  ∀ es t, (∀ e ∈ es, PushOrCollect S e) → run step (initial c) es = some t →
    ∀ a ∈ S, ∀ m, (pushObject t (some a) m).2.userdata.length < 2 ^ 32 - 1 →
      ∃ k, (pushObject t (some a) m).1 = some k ∧
        getObject (pushObject t (some a) m).2 (some k) = .object a ∧
        ∀ es' t', (∀ e ∈ es', PushOrCollect S e) →
          run step (pushObject t (some a) m).2 es' = some t' →
          t'.userdata.length < 2 ^ 32 - 1 → (∃ u, t'.At k u ∧ u.reachable = true) →
            ∀ b ∈ S, ∀ m', (pushObject t' (some b) m').1 = some k ↔ b = a

/-- Objects that the comparison tells apart obey the law. -/
theorem identityLaw_of_separates {c : KeyComparer Obj} {S : Set Obj}
    (hsep : ∀ a ∈ S, ∀ b ∈ S, c.Same a b ↔ a = b) : IdentityLaw c S := by
  intro es t hes hrun a ha m hlen
  have hc := KeyComparer.equivOn_of_separates hsep
  have hpush : step t (.push (some a) m) = some (pushObject t (some a) m).2 := rfl
  have hlen₀ : t.userdata.length < 2 ^ 32 := by
    have := length_le_step hpush
    omega
  obtain ⟨hid, hmap, hcomp⟩ := inv_run_of_pushOrCollect hc hes hrun hlen₀
  obtain ⟨k, u, hk, hu, hclear, hsame⟩ := exists_pushObject hid hmap ha m
  -- the state after the push, as a state of one run from the start
  have hes₁ : ∀ e ∈ es ++ [.push (some a) m], PushOrCollect S e := by
    intro e he
    rcases List.mem_append.mp he with he | he
    · exact hes e he
    · obtain rfl := List.mem_singleton.mp he
      rintro p ⟨⟩
      exact ha
  have hrun₁ : run step (initial c) (es ++ [.push (some a) m]) =
      some (pushObject t (some a) m).2 := by
    rw [run_append, hrun]
    rfl
  obtain ⟨hid₁, hmap₁, -⟩ := inv_run_of_pushOrCollect hc hes₁ hrun₁ (by omega)
  have hobj := (hid₁.uncleared k u hu hclear).1
  have huS : u.object ∈ S := by
    obtain ⟨e, he, hkey, -⟩ := (hmap₁.entries u.id u.object).mp hobj
    exact hkey ▸ hmap₁.keys e he
  have hua : u.object = a := (hsep u.object huS a ha).mp (hcomp ▸ hsame)
  refine ⟨k, hk, ?_, ?_⟩
  · have hne : u.id ≠ -1 := by
      have := hu.lt
      rw [hid₁.position k u hu]
      exact wrapInt32_ne_neg_one (by omega)
    have hat : (pushObject t (some a) m).2.userdata[k]? = some u := hu
    simp only [getObject, hat, if_neg hne, hobj, hua]
  · intro es' t' hes' hrun' hlen' ⟨v, hv, hreach⟩ b hb m'
    have hes₂ : ∀ e ∈ (es ++ [.push (some a) m]) ++ es', PushOrCollect S e := by
      intro e he
      rcases List.mem_append.mp he with he | he
      · exact hes₁ e he
      · exact hes' e he
    have hrun₂ : run step (initial c) ((es ++ [.push (some a) m]) ++ es') = some t' := by
      rw [run_append, hrun₁]
      exact hrun'
    obtain ⟨hid₂, hmap₂, hcomp₂⟩ := inv_run_of_pushOrCollect hc hes₂ hrun₂ (by omega)
    obtain ⟨w, hw, -, hobjw⟩ := at_run hrun' hu
    obtain rfl := hv.unique hw
    rw [pushObject_eq_iff hid₂ hmap₂ hv (hid₂.reach k v hv hreach) hb m', hcomp₂, hobjw, hua,
      hsep a ha b hb, eq_comm]

theorem length_pushObject_initial (c : KeyComparer Obj) (a : Obj) (m : Metatable) :
    (pushObject (initial c) (some a) m).2.userdata.length = 1 := rfl

/-- The second of two pushes into an empty registry, when its object is one key with the
first. -/
theorem pushObject_pushObject_initial (c : KeyComparer Obj) (a b : Obj) (m m' : Metatable) :
    (pushObject (pushObject (initial c) (some a) m).2 (some b) m').1 = some 0 ↔ c.Same a b := by
  rcases pushObject_cases (pushObject (initial c) (some a) m).2 b m' with
    ⟨i, k, hfind, hk, heq⟩ | ⟨i, hfind, hweak, -⟩ | ⟨hnone, heq⟩
  · obtain ⟨e, he, hhit, rfl⟩ := Dictionary.exists_mem_of_tryGetValue hfind
    obtain rfl := List.mem_singleton.mp he
    rw [heq]
    exact iff_of_true hk.symm ((Dictionary.hits_iff_same rfl).mp hhit)
  · obtain ⟨e, he, -, rfl⟩ := Dictionary.exists_mem_of_tryGetValue hfind
    obtain rfl := List.mem_singleton.mp he
    exact absurd hweak (Option.some_ne_none 0)
  · have hmiss := Dictionary.tryGetValue_eq_none_iff.mp hnone _ (List.mem_singleton.mpr rfl)
    rw [heq]
    refine iff_of_false (fun h => absurd (Option.some.inj h) (Nat.succ_ne_zero 0)) fun hsame => ?_
    have hhit : Dictionary.hits c b (⟨c.hash a, a, 0⟩ : Entry Obj ℤ) = true :=
      (Dictionary.hits_iff_same rfl).mpr hsame
    exact absurd (hmiss.symm.trans hhit) (by decide)

/-- **The identity law holds exactly for references that the objects' own comparison tells
apart.** -/
theorem identityLaw_iff (c : KeyComparer Obj) (S : Set Obj) :
    IdentityLaw c S ↔ ∀ a ∈ S, ∀ b ∈ S, c.Same a b ↔ a = b := by
  refine ⟨fun h a ha b hb => ?_, identityLaw_of_separates⟩
  have hlen : (pushObject (initial c) (some a) .luaNet_metatable).2.userdata.length <
      2 ^ 32 - 1 := by
    rw [length_pushObject_initial]
    decide
  obtain ⟨k, hk, -, h'⟩ := h [] (initial c) (by simp) rfl a ha .luaNet_metatable hlen
  obtain rfl := Option.some.inj hk
  have hb' := h' [] _ (by simp) rfl hlen ⟨_, rfl, rfl⟩ b hb .luaNet_metatable
  exact (pushObject_pushObject_initial c a b _ _).symm.trans (hb'.trans eq_comm)

/-- A boxed struct: the reference to the box and the value in it. -/
structure Boxed where
  reference : ℕ
  value : ℕ
  deriving DecidableEq, Repr

/-- Boxed structs compare by value, as `ValueType.Equals` and `GetHashCode` do. -/
def byValue : KeyComparer Boxed := ⟨fun o => o.value, fun o p => o.value == p.value⟩

/-- Two boxes with one value: the second is pushed as the userdata of the first, and reads
back as the first. -/
theorem identityLaw_fails :
    (let t := (pushObject (initial byValue) (some ⟨0, 7⟩) .luaNet_metatable).2
     let p := pushObject t (some ⟨1, 7⟩) .luaNet_metatable
     p.1 = some 0 ∧ getObject p.2 p.1 = .object ⟨0, 7⟩) ∧
    ¬ IdentityLaw byValue Set.univ := by
  refine ⟨by decide, fun h => ?_⟩
  obtain ⟨k, hk, -, h'⟩ :=
    h [] (initial byValue) (by simp) rfl ⟨0, 7⟩ (Set.mem_univ _) .luaNet_metatable (by decide)
  obtain rfl := Option.some.inj hk
  have hsecond := h' [] _ (by simp) rfl (by decide) ⟨_, rfl, rfl⟩ ⟨1, 7⟩ (Set.mem_univ _)
    .luaNet_metatable
  exact absurd (hsecond.mp (by decide)) (by decide)

end ObjectTranslator

end UnityLua
