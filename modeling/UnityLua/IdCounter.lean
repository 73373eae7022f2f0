import UnityLua.ObjectTranslator

/-!
# The id counter

`addObject` takes its ids from a counter of 32 bits, and `collectObject` removes objects in any
order. A new id is fresh if it is not `-1`, which stands for what is not an object, and not the id
of an object that is still registered.

## Main results

* `counterInv_after`: after any calls the counter and the ids that are registered are what the
  number of registrations makes them.
* `freshIds_iff`: all ids of a run are fresh exactly when it has fewer than `2 ^ 32`
  registrations.
-/

open Library

namespace UnityLua

variable {Obj : Type}

/-- A call of one of the registry's methods. -/
inductive RegistryCall (Obj : Type)
  | addObject (o : Obj)
  | collectObject (udata : ℤ)
  | collectObjectRef (o : Obj) (udata : ℤ)

namespace RegistryCall

/-- Whether the call registers an object. -/
def registers : RegistryCall Obj → Bool
  | addObject _ => true
  | collectObject _ => false
  | collectObjectRef _ _ => false

/-- The registry after the call. -/
def apply (t : ObjectTranslator Obj) : RegistryCall Obj → ObjectTranslator Obj
  | addObject o => (t.addObject o).2
  | collectObject udata => t.collectObject udata
  | collectObjectRef o udata => t.collectObjectRef o udata

end RegistryCall

/-- The registry of a new `LuaState` after the calls. -/
def registryAfter (c : KeyComparer Obj) (calls : List (RegistryCall Obj)) :
    ObjectTranslator Obj :=
  calls.foldl RegistryCall.apply (.initial c)

/-- How many of the calls register an object. -/
def registrations (calls : List (RegistryCall Obj)) : ℕ := calls.countP RegistryCall.registers

/-- Whenever an object is registered, its id is not `-1` and is no key of `objects`. -/
def FreshIds (c : KeyComparer Obj) (calls : List (RegistryCall Obj)) : Prop :=
  ∀ before o after, calls = before ++ .addObject o :: after →
    ((registryAfter c before).addObject o).1 ≠ -1 ∧
      (registryAfter c before).objects ((registryAfter c before).addObject o).1 = none

/-- The registry after some registrations: the counter shows their number, and every registered
id is one that it has shown. -/
structure CounterInv (t : ObjectTranslator Obj) (k : ℕ) : Prop where
  counter : t.nextObj = wrapInt32 k
  shown : ∀ i, t.objects i ≠ none → ∃ m < k, i = wrapInt32 m

theorem counterInv_initial (c : KeyComparer Obj) :
    CounterInv (ObjectTranslator.initial c) 0 where
  counter := rfl
  shown _ hi := absurd rfl hi

/-- A registration shows one id more. -/
theorem CounterInv.addObject {t : ObjectTranslator Obj} {k : ℕ} (h : CounterInv t k) (o : Obj) :
    CounterInv (t.addObject o).2 (k + 1) where
  counter := by
    rw [Int.natCast_succ, ← wrapInt32_wrapInt32_add_one, ← h.counter]
    rfl
  shown i hi := by
    by_cases hid : i = t.nextObj
    · exact ⟨k, by omega, hid.trans h.counter⟩
    · simp only [ObjectTranslator.addObject, Function.update_of_ne hid] at hi
      obtain ⟨m, hm, him⟩ := h.shown i hi
      exact ⟨m, by omega, him⟩

/-- A removal shows nothing new. -/
theorem CounterInv.collectObjectRef {t : ObjectTranslator Obj} {k : ℕ} (h : CounterInv t k)
    (o : Obj) (udata : ℤ) : CounterInv (t.collectObjectRef o udata) k where
  counter := h.counter
  shown i hi := by
    by_cases hid : i = udata
    · simp only [ObjectTranslator.collectObjectRef, hid, Function.update_self] at hi
      exact absurd rfl hi
    · simp only [ObjectTranslator.collectObjectRef, Function.update_of_ne hid] at hi
      exact h.shown i hi

theorem CounterInv.collectObject {t : ObjectTranslator Obj} {k : ℕ} (h : CounterInv t k)
    (udata : ℤ) : CounterInv (t.collectObject udata) k := by
  unfold ObjectTranslator.collectObject
  split
  · exact h.collectObjectRef _ udata
  · exact h

/-- Every call keeps the invariant. -/
theorem CounterInv.apply {t : ObjectTranslator Obj} {k : ℕ} (h : CounterInv t k)
    (call : RegistryCall Obj) :
    CounterInv (RegistryCall.apply t call) (k + registrations [call]) := by
  rcases call with o | udata | ⟨o, udata⟩
  · exact h.addObject o
  · exact h.collectObject udata
  · exact h.collectObjectRef o udata

theorem registrations_append (calls calls' : List (RegistryCall Obj)) :
    registrations (calls ++ calls') = registrations calls + registrations calls' :=
  List.countP_append

theorem counterInv_after (c : KeyComparer Obj) (calls : List (RegistryCall Obj)) :
    CounterInv (registryAfter c calls) (registrations calls) := by
  induction calls using List.reverseRecOn with
  | nil => exact counterInv_initial c
  | append_singleton calls call ih =>
      rw [registryAfter, List.foldl_append, registrations_append]
      exact ih.apply call

/-- The id of a new object, by the number of registrations before it. -/
theorem addObject_id (c : KeyComparer Obj) (calls : List (RegistryCall Obj)) (o : Obj) :
    ((registryAfter c calls).addObject o).1 = wrapInt32 (registrations calls) :=
  (counterInv_after c calls).counter

/-- The counter is at `-1` before it comes round. -/
theorem wrapInt32_last : wrapInt32 ((2 ^ 32 - 1 : ℕ) : ℤ) = -1 := by
  simp only [wrapInt32, Int.bmod]
  omega

theorem registrations_cons (call : RegistryCall Obj) (calls : List (RegistryCall Obj)) :
    registrations (call :: calls) = registrations [call] + registrations calls :=
  registrations_append [call] calls

/-- For every smaller number there is a registration that comes after so many. -/
theorem exists_registration {calls : List (RegistryCall Obj)} {k : ℕ}
    (hk : k < registrations calls) :
    ∃ before o after, calls = before ++ .addObject o :: after ∧ registrations before = k := by
  induction calls generalizing k with
  | nil => exact absurd hk (Nat.not_lt_zero k)
  | cons call calls ih =>
      rw [registrations_cons] at hk
      rcases call with o | udata | ⟨o, udata⟩
      · rcases Nat.eq_zero_or_pos k with rfl | hpos
        · exact ⟨[], o, calls, rfl, rfl⟩
        · have hone : registrations [RegistryCall.addObject o] = 1 := rfl
          obtain ⟨before, o', after, rfl, hcount⟩ := ih (k := k - 1) (by omega)
          refine ⟨.addObject o :: before, o', after, rfl, ?_⟩
          rw [registrations_cons, hone, hcount]
          omega
      · have hzero : registrations [(.collectObject udata : RegistryCall Obj)] = 0 := rfl
        obtain ⟨before, o', after, rfl, hcount⟩ := ih (k := k) (by omega)
        refine ⟨.collectObject udata :: before, o', after, rfl, ?_⟩
        rw [registrations_cons, hzero, hcount, Nat.zero_add]
      · have hzero : registrations [RegistryCall.collectObjectRef o udata] = 0 := rfl
        obtain ⟨before, o', after, rfl, hcount⟩ := ih (k := k) (by omega)
        refine ⟨.collectObjectRef o udata :: before, o', after, rfl, ?_⟩
        rw [registrations_cons, hzero, hcount, Nat.zero_add]

/-- With `2 ^ 32` registrations an id is `-1`. -/
theorem not_freshIds (c : KeyComparer Obj) {calls : List (RegistryCall Obj)}
    (h : 2 ^ 32 ≤ registrations calls) : ¬ FreshIds c calls := by
  intro hfresh
  have hlast : 2 ^ 32 - 1 < registrations calls := by omega
  obtain ⟨before, o, after, rfl, hcount⟩ := exists_registration hlast
  have hid := (hfresh before o after rfl).1
  rw [addObject_id, hcount, wrapInt32_last] at hid
  exact hid rfl

/-- The ids of a run are fresh exactly when it registers fewer than `2 ^ 32` objects. -/
theorem freshIds_iff (c : KeyComparer Obj) (calls : List (RegistryCall Obj)) :
    FreshIds c calls ↔ registrations calls < 2 ^ 32 := by
  constructor
  · intro hfresh
    by_contra hle
    exact not_freshIds c (by omega) hfresh
  · rintro hlt before o after rfl
    have hone : registrations [RegistryCall.addObject o] = 1 := rfl
    rw [registrations_append, registrations_cons, hone] at hlt
    rw [addObject_id]
    refine ⟨wrapInt32_ne_neg_one (by omega), ?_⟩
    by_contra hused
    obtain ⟨m, hm, hid⟩ := (counterInv_after c before).shown _ hused
    have := wrapInt32_inj (by omega) (by omega) hid
    omega

/-- A session that registers an object and collects it again, over and over. -/
def boxedSession (o : Obj) (n : ℕ) : List (RegistryCall Obj) :=
  (List.range n).flatMap fun k : ℕ => [.addObject o, .collectObject (wrapInt32 k)]

theorem registrations_boxedSession (o : Obj) (n : ℕ) : registrations (boxedSession o n) = n := by
  induction n with
  | zero => rfl
  | succ n ih =>
      rw [boxedSession, List.range_succ, List.flatMap_append, registrations_append]
      rw [boxedSession] at ih
      rw [ih]
      rfl

/-- In a long session of one registered object at a time an id is `-1`. -/
theorem not_freshIds_boxedSession :
    ¬ FreshIds ⟨fun _ : Unit => 0, fun _ _ => true⟩ (boxedSession () (2 ^ 32)) :=
  not_freshIds _ (registrations_boxedSession () (2 ^ 32)).ge

end UnityLua
