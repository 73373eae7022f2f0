import UnityLua.ReferenceOwnership

/-!
# Equality of wrappers

Two wrappers are compared by what their references lead to, and `LuaFunction`s without a
reference by their delegates; the hash is the reference itself, or that of the delegate. Each
wrapper gets a reference of its own, so that two wrappers of one Lua value are equal and have
different hashes.

Lua values are compared as they are: there is no `__eq`.

## Main results

* `equals_iff`: what `Equals` says of wrappers that are not disposed.
* `equalityLaw_iff_wrapsOnce`: exactly in which runs equality is an equivalence that the hashes
  agree with.
-/

open Library

namespace UnityLua

namespace ReferenceOwners

variable {V : Type}

section Comparison

variable [DecidableEq V]

/-- `compareRef`, by `lua_equal`. -/
def compareRef (s : ReferenceOwners V) (ref1 ref2 : ℤ) : Bool :=
  s.registry.rawgeti ref1 = s.registry.rawgeti ref2

/-- The field `function` of a `LuaFunction`, which is `null` beside a reference. -/
def function (o : Owner V) : Option V := if o.reference = 0 then o.created else none

/-- `Equals`, of `LuaFunction` or of `LuaBase`, with another wrapper. -/
def Equals (s : ReferenceOwners V) (a b : Owner V) : Bool :=
  if a.kind = .luaFunction then
    if b.kind = .luaFunction then
      if a.reference ≠ 0 ∧ b.reference ≠ 0 then compareRef s b.reference a.reference
      else function a = function b
    else false
  else compareRef s b.reference a.reference

/-- `GetHashCode`. Equal delegates have equal hashes. -/
def GetHashCode (delegateHash : Option V → ℤ) (a : Owner V) : ℤ :=
  if a.kind = .luaFunction then
    if a.reference ≠ 0 then a.reference else delegateHash (function a)
  else a.reference

/-- The `k`-th owner is a wrapper that was not disposed. -/
structure LiveWrapper (s : ReferenceOwners V) (k : ℕ) (a : Owner V) : Prop where
  owner : s.At k a
  wrapper : a.kind ≠ .luaThread
  live : a.disposed = false

end Comparison

/-- Both wrappers have references to one Lua value. What is pushed for a delegate is a new
function each time. -/
def SameLuaValue (a b : Owner V) : Prop :=
  a.reference ≠ 0 ∧ b.reference ≠ 0 ∧ a.created = b.created

/-- Equality of the wrappers is lawful. -/
structure EqualityLaw [DecidableEq V] (delegateHash : Option V → ℤ) (s : ReferenceOwners V) :
    Prop where
  refl : ∀ j a, s.LiveWrapper j a → s.Equals a a
  symm : ∀ j k a b, s.LiveWrapper j a → s.LiveWrapper k b → s.Equals a b → s.Equals b a
  trans : ∀ i j k a b c, s.LiveWrapper i a → s.LiveWrapper j b → s.LiveWrapper k c →
    s.Equals a b → s.Equals b c → s.Equals a c
  same : ∀ j k a b, s.LiveWrapper j a → s.LiveWrapper k b → a.kind = b.kind →
    SameLuaValue a b → s.Equals a b
  hash : ∀ j k a b, s.LiveWrapper j a → s.LiveWrapper k b → s.Equals a b →
    GetHashCode delegateHash a = GetHashCode delegateHash b

/-! ### Wrappers of values of their own kind -/

/-- The wrapper with a reference that an event makes: its class, and for what. -/
def wraps : Event V → Option (OwnerKind × Option V)
  | .getTable v => some (.luaTable, v)
  | .getFunction v => some (.luaFunction, v)
  | .getUserData v => some (.luaUserData, v)
  | _ => none

/-- A table is wrapped in a `LuaTable`, and so on, as the methods of the translator are called
for slots of these types. -/
def OfItsKind (typeOf : V → OwnerKind) (e : Event V) : Prop :=
  ∀ kind v, wraps e = some (kind, v) → ∃ w, v = some w ∧ typeOf w = kind

/-- Every wrapper was created for a value, and is of the kind of this value if it has a
reference. -/
def Kinded (typeOf : V → OwnerKind) (s : ReferenceOwners V) : Prop :=
  ∀ k o, s.At k o → o.kind ≠ .luaThread →
    ∃ v, o.created = some v ∧ (o.reference ≠ 0 → typeOf v = o.kind)

/-- Every owner is one from before, and was live before if it is now. -/
def Carries (s s' : ReferenceOwners V) : Prop :=
  ∀ j o, s'.At j o → ∃ p, s.At j p ∧ o.kind = p.kind ∧ o.reference = p.reference ∧
    o.created = p.created ∧ (o.disposed = false → p.disposed = false)

theorem Carries.refl (s : ReferenceOwners V) : Carries s s :=
  fun _ o ho => ⟨o, ho, rfl, rfl, rfl, fun h => h⟩

theorem carries_of_dispose {s s' : ReferenceOwners V} {k n : ℕ}
    (hat : ∀ j o, s'.At j o → ∃ p, s.At j p ∧
      o = if k = j then { p with released := p.released + n, disposed := true } else p) :
    Carries s s' := by
  intro j o ho
  obtain ⟨p, hp, rfl⟩ := hat j o ho
  refine ⟨p, hp, ?_⟩
  split
  · exact ⟨rfl, rfl, rfl, fun h => absurd h.symm Bool.false_ne_true⟩
  · exact ⟨rfl, rfl, rfl, fun h => h⟩

theorem carries_disposeBase (s : ReferenceOwners V) (k : ℕ) (x : Owner V) (managed : Bool) :
    Carries s (disposeBase s k x managed) := by
  unfold disposeBase
  split
  · exact Carries.refl s
  · split
    · exact carries_of_dispose fun _ _ => at_setDisposed_unref.mp
    · exact carries_of_dispose (n := 0) fun _ _ => at_setDisposed.mp

theorem carries_disposeThread (s : ReferenceOwners V) (k : ℕ) (x : Owner V) (dispose : Bool) :
    Carries s (disposeThread s k x dispose) := by
  unfold disposeThread
  split
  · exact carries_of_dispose fun _ _ => at_setDisposed_unref.mp
  · exact Carries.refl s

/-- What a step does to the owners. -/
theorem step_cases {h : Host V} {s s' : ReferenceOwners V} {e : Event V}
    (hstep : step h s e = some s') :
    (∃ kind v, wraps e = some (kind, v) ∧ kind ≠ .luaThread ∧ s' = newOwner h s kind v) ∨
      wraps e = none ∧
        ((∃ f, s' = newCSFunction s f) ∨ (∃ v, s' = newOwner h s .luaThread (some v)) ∨
          Carries s s') := by
  rcases e with v | v | v | f | v | ⟨k, managed⟩ | ⟨k, dispose⟩
  · exact Or.inl ⟨_, _, rfl, by decide, (Option.some.inj hstep).symm⟩
  · exact Or.inl ⟨_, _, rfl, by decide, (Option.some.inj hstep).symm⟩
  · exact Or.inl ⟨_, _, rfl, by decide, (Option.some.inj hstep).symm⟩
  · exact Or.inr ⟨rfl, Or.inl ⟨f, (Option.some.inj hstep).symm⟩⟩
  · exact Or.inr ⟨rfl, Or.inr (Or.inl ⟨v, (Option.some.inj hstep).symm⟩)⟩
  · obtain ⟨x, -, -, rfl⟩ := step_dispose hstep
    exact Or.inr ⟨rfl, Or.inr (Or.inr (carries_disposeBase s k x managed))⟩
  · obtain ⟨x, -, -, rfl⟩ := step_disposeThread hstep
    exact Or.inr ⟨rfl, Or.inr (Or.inr (carries_disposeThread s k x dispose))⟩

theorem kinded_step {h : Host V} {s s' : ReferenceOwners V} {e : Event V} {typeOf : V → OwnerKind}
    (he : OfItsKind typeOf e) (hs : Kinded typeOf s) (hstep : step h s e = some s') :
    Kinded typeOf s' := by
  intro k o ho hkind
  obtain ⟨kind, v, hwraps, -, rfl⟩ | ⟨-, ⟨f, rfl⟩ | ⟨v, rfl⟩ | hcarries⟩ := step_cases hstep
  · obtain ⟨w, rfl, hw⟩ := he kind v hwraps
    obtain ho | ⟨-, rfl⟩ := at_concat.mp ho
    · exact hs k o ho hkind
    · exact ⟨w, rfl, fun _ => hw⟩
  · obtain ho | ⟨-, rfl⟩ := at_concat.mp ho
    · exact hs k o ho hkind
    · exact ⟨f, rfl, fun h0 => absurd rfl h0⟩
  · obtain ho | ⟨-, rfl⟩ := at_concat.mp ho
    · exact hs k o ho hkind
    · exact absurd rfl hkind
  · obtain ⟨p, hp, hpkind, hpref, hpcreated, -⟩ := hcarries k o ho
    obtain ⟨v, hv, htype⟩ := hs k p hp (hpkind ▸ hkind)
    exact ⟨v, hpcreated.trans hv, fun h0 => (htype (hpref ▸ h0)).trans hpkind.symm⟩

/-- What is known of a live wrapper: it has a reference that leads to the value it was created
for, or it is a function of a delegate. -/
theorem LiveWrapper.facts {s : ReferenceOwners V} {typeOf : V → OwnerKind} (hs : Owned s)
    (hkinded : Kinded typeOf s) {k : ℕ} {a : Owner V} (ha : s.LiveWrapper k a) :
    ∃ v, a.created = some v ∧
      (0 < a.reference ∧ s.registry.rawgeti a.reference = .value v ∧ typeOf v = a.kind ∨
        a.reference = 0 ∧ a.kind = .luaFunction) := by
  obtain ⟨v, hv, htype⟩ := hkinded k a ha.owner ha.wrapper
  refine ⟨v, hv, ?_⟩
  by_cases hpos : 0 < a.reference
  · obtain ⟨w, hw, hlive⟩ :=
      hs.holds k a ha.owner (hs.released_eq_zero ha.owner ha.live) hpos
    obtain rfl := Option.some.inj (hv.symm.trans hw)
    exact Or.inl ⟨hpos, RefTable.live_eq_some.mp hlive, htype (by omega)⟩
  · rcases hs.noSlot k a ha.owner (by omega) with ⟨-, hnone⟩ | hdelegate
    · exact absurd (hv.symm.trans hnone) nofun
    · exact Or.inr hdelegate

/-- The head of the free list is no value. -/
theorem rawgeti_zero_ne_value {s : ReferenceOwners V} (hs : Owned s) (v : V) :
    s.registry.rawgeti 0 ≠ .value v := by
  obtain ⟨rs, hsound⟩ := hs.sound
  intro h0
  exact absurd (hsound.bounds 0 v h0).1 (Int.lt_irrefl 0)

/-- No two live wrappers have references to one value. -/
def WrappedOnce (s : ReferenceOwners V) : Prop :=
  ∀ j k a b, s.LiveWrapper j a → s.LiveWrapper k b → SameLuaValue a b → j = k

section Equality

variable [DecidableEq V]

/-- **What `Equals` says of live wrappers.** -/
theorem equals_iff {s : ReferenceOwners V} {typeOf : V → OwnerKind} (hs : Owned s)
    (hkinded : Kinded typeOf s) {j k : ℕ} {a b : Owner V} (ha : s.LiveWrapper j a)
    (hb : s.LiveWrapper k b) :
    s.Equals a b ↔
      a.kind = b.kind ∧ (a.reference = 0 ↔ b.reference = 0) ∧ a.created = b.created := by
  obtain ⟨v, hv, ⟨hpos, hslot, htype⟩ | ⟨hzero, hkind⟩⟩ := ha.facts hs hkinded <;>
    obtain ⟨w, hw, ⟨hpos', hslot', htype'⟩ | ⟨hzero', hkind'⟩⟩ := hb.facts hs hkinded
  · -- both have a reference
    have hne : a.reference ≠ 0 := by omega
    have hne' : b.reference ≠ 0 := by omega
    have hcompare : s.compareRef b.reference a.reference = true ↔ v = w := by
      rw [compareRef, decide_eq_true_iff, hslot, hslot', Slot.value.injEq, eq_comm]
    have hkinds : v = w → a.kind = b.kind := by
      rintro rfl
      exact htype.symm.trans htype'
    rw [hv, hw, Option.some.injEq, Equals]
    by_cases hk : a.kind = .luaFunction
    · by_cases hk' : b.kind = .luaFunction
      · rw [if_pos hk, if_pos hk', if_pos ⟨hne, hne'⟩, hcompare]
        exact ⟨fun h => ⟨hkinds h, by omega, h⟩, fun h => h.2.2⟩
      · rw [if_pos hk, if_neg hk']
        exact iff_of_false Bool.false_ne_true fun h => hk' (h.1 ▸ hk)
    · rw [if_neg hk, hcompare]
      exact ⟨fun h => ⟨hkinds h, by omega, h⟩, fun h => h.2.2⟩
  · -- only the first has a reference
    have hne : a.reference ≠ 0 := by omega
    refine iff_of_false ?_ fun h => hne (h.2.1.mpr hzero')
    rw [Equals]
    by_cases hk : a.kind = .luaFunction
    · rw [if_pos hk, if_pos hkind', if_neg fun h => h.2 hzero', function, function, if_neg hne,
        if_pos hzero', hw]
      simp
    · rw [if_neg hk, compareRef, hzero', hslot]
      simpa using rawgeti_zero_ne_value hs v
  · -- only the second has a reference
    have hne' : b.reference ≠ 0 := by omega
    refine iff_of_false ?_ fun h => hne' (h.2.1.mp hzero)
    rw [Equals, if_pos hkind]
    by_cases hk' : b.kind = .luaFunction
    · rw [if_pos hk', if_neg fun h => h.1 hzero, function, function, if_pos hzero, if_neg hne', hv]
      simp
    · rw [if_neg hk']
      exact Bool.false_ne_true
  · rw [Equals, if_pos hkind, if_pos hkind', if_neg fun h => h.1 hzero, function, function,
      if_pos hzero, if_pos hzero', decide_eq_true_iff]
    exact ⟨fun h => ⟨hkind.trans hkind'.symm, by omega, h⟩, fun h => h.2.2⟩

/-- Equality is lawful exactly while every Lua value is wrapped once. -/
theorem equalityLaw_iff {s : ReferenceOwners V} {typeOf : V → OwnerKind}
    (delegateHash : Option V → ℤ) (hs : Owned s) (hkinded : Kinded typeOf s) :
    EqualityLaw delegateHash s ↔ WrappedOnce s := by
  have hiff {j k : ℕ} {a b : Owner V} (ha : s.LiveWrapper j a) (hb : s.LiveWrapper k b) :=
    equals_iff hs hkinded ha hb
  have hhash {j k : ℕ} {a b : Owner V} (ha : s.LiveWrapper j a) (hb : s.LiveWrapper k b)
      (h : s.Equals a b) (h0 : a.reference ≠ 0) :
      GetHashCode delegateHash a = GetHashCode delegateHash b ↔ a.reference = b.reference := by
    obtain ⟨hkind, hzero, -⟩ := (hiff ha hb).mp h
    have h0' : b.reference ≠ 0 := fun hb0 => h0 (hzero.mpr hb0)
    simp only [GetHashCode, if_pos h0, if_pos h0', ite_self]
  constructor
  · intro hlaw j k a b ha hb hsame
    obtain ⟨h0, h0', hcreated⟩ := hsame
    have hkind : a.kind = b.kind := by
      obtain ⟨v, hv, htype⟩ := hkinded j a ha.owner ha.wrapper
      obtain ⟨w, hw, htype'⟩ := hkinded k b hb.owner hb.wrapper
      obtain rfl : v = w := Option.some.inj (hv.symm.trans (hcreated.trans hw))
      exact (htype h0).symm.trans (htype' h0')
    have hequal := hlaw.same j k a b ha hb hkind ⟨h0, h0', hcreated⟩
    have href := (hhash ha hb hequal h0).mp (hlaw.hash j k a b ha hb hequal)
    by_contra hjk
    obtain ⟨v, -, ⟨hpos, -⟩ | ⟨hzero, -⟩⟩ := ha.facts hs hkinded
    · exact hs.distinct j k a b ha.owner hb.owner hjk (hs.released_eq_zero ha.owner ha.live)
        (hs.released_eq_zero hb.owner hb.live) hpos href
    · exact h0 hzero
  · intro honce
    refine ⟨?_, ?_, ?_, ?_, ?_⟩
    · intro j a ha
      exact (hiff ha ha).mpr ⟨rfl, Iff.rfl, rfl⟩
    · intro j k a b ha hb h
      obtain ⟨hkind, hzero, hcreated⟩ := (hiff ha hb).mp h
      exact (hiff hb ha).mpr ⟨hkind.symm, hzero.symm, hcreated.symm⟩
    · intro i j k a b c ha hb hc h h'
      obtain ⟨hkind, hzero, hcreated⟩ := (hiff ha hb).mp h
      obtain ⟨hkind', hzero', hcreated'⟩ := (hiff hb hc).mp h'
      exact (hiff ha hc).mpr
        ⟨hkind.trans hkind', hzero.trans hzero', hcreated.trans hcreated'⟩
    · intro j k a b ha hb hkind hsame
      obtain ⟨h0, h0', hcreated⟩ := hsame
      exact (hiff ha hb).mpr ⟨hkind, iff_of_false h0 h0', hcreated⟩
    · intro j k a b ha hb h
      obtain ⟨hkind, hzero, hcreated⟩ := (hiff ha hb).mp h
      by_cases h0 : a.reference = 0
      · have h0' := hzero.mp h0
        simp only [GetHashCode, hkind, h0, h0', function, hcreated]
      · obtain rfl : j = k := honce j k a b ha hb ⟨h0, fun hb0 => h0 (hzero.mpr hb0), hcreated⟩
        rw [ha.owner.unique hb.owner]

end Equality

/-! ### Runs -/

/-- The condition on a step: a value is wrapped only if no live wrapper has a reference to it. -/
def WrapsOnce (s : ReferenceOwners V) (e : Event V) : Prop :=
  ∀ kind v, wraps e = some (kind, v) →
    ∀ k a, s.LiveWrapper k a → a.reference ≠ 0 → a.created ≠ v

theorem liveWrapper_concat {s : ReferenceOwners V} {registry : RefTable V} {x a : Owner V} {k : ℕ}
    (ha : LiveWrapper ⟨registry, s.owners ++ [x]⟩ k a) :
    s.LiveWrapper k a ∨ k = s.owners.length ∧ a = x := by
  obtain ho | hx := at_concat.mp ha.owner
  · exact Or.inl ⟨ho, ha.wrapper, ha.live⟩
  · exact Or.inr hx

/-- A new owner keeps every value wrapped once if no wrapper shares its value. -/
theorem WrappedOnce.concat {s : ReferenceOwners V} (hs : WrappedOnce s) {registry : RefTable V}
    {x : Owner V} (hx : x.kind ≠ .luaThread → x.reference ≠ 0 →
      ∀ k a, s.LiveWrapper k a → a.reference ≠ 0 → a.created ≠ x.created) :
    WrappedOnce ⟨registry, s.owners ++ [x]⟩ := by
  intro j k a b ha hb hsame
  obtain ⟨h0, h0', hcreated⟩ := hsame
  obtain ha' | ⟨rfl, rfl⟩ := liveWrapper_concat ha <;>
    obtain hb' | ⟨rfl, rfl⟩ := liveWrapper_concat hb
  · exact hs j k a b ha' hb' ⟨h0, h0', hcreated⟩
  · exact absurd hcreated (hx hb.wrapper h0' j a ha' h0)
  · exact absurd hcreated.symm (hx ha.wrapper h0 k b hb' h0')
  · rfl

theorem WrappedOnce.of_carries {s s' : ReferenceOwners V} (hs : WrappedOnce s)
    (h : Carries s s') : WrappedOnce s' := by
  have hback : ∀ k a, s'.LiveWrapper k a →
      ∃ p, s.LiveWrapper k p ∧ a.reference = p.reference ∧ a.created = p.created := by
    intro k a ha
    obtain ⟨p, hp, hkind, href, hcreated, hlive⟩ := h k a ha.owner
    exact ⟨p, ⟨hp, hkind ▸ ha.wrapper, hlive ha.live⟩, href, hcreated⟩
  intro j k a b ha hb hsame
  obtain ⟨p, hp, href, hcreated⟩ := hback j a ha
  obtain ⟨q, hq, href', hcreated'⟩ := hback k b hb
  obtain ⟨h0, h0', hsame⟩ := hsame
  exact hs j k p q hp hq ⟨href ▸ h0, href' ▸ h0', hcreated ▸ hcreated' ▸ hsame⟩

theorem wrappedOnce_step {h : Host V} {s s' : ReferenceOwners V} {e : Event V}
    (hok : WrapsOnce s e) (hs : WrappedOnce s) (hstep : step h s e = some s') :
    WrappedOnce s' := by
  obtain ⟨kind, v, hwraps, -, rfl⟩ | ⟨-, ⟨f, rfl⟩ | ⟨v, rfl⟩ | hcarries⟩ := step_cases hstep
  · exact hs.concat fun _ _ => hok kind v hwraps
  · exact hs.concat fun _ h0 => absurd rfl h0
  · exact hs.concat fun hkind => absurd rfl hkind
  · exact hs.of_carries hcarries

/-- A second wrapper of a value is there beside the first. -/
theorem not_wrappedOnce_step {h : Host V} (hh : h.Lawful) {s s' : ReferenceOwners V}
    {e : Event V} {typeOf : V → OwnerKind} (he : OfItsKind typeOf e) (hs : Owned s)
    (hnot : ¬ WrapsOnce s e) (hstep : step h s e = some s') : ¬ WrappedOnce s' := by
  simp only [WrapsOnce, not_forall, not_not] at hnot
  obtain ⟨kind, v, hwraps, k, a, ha, h0, hcreated⟩ := hnot
  obtain ⟨w, rfl, -⟩ := he kind v hwraps
  obtain ⟨kind', v', hwraps', hkind, rfl⟩ | ⟨hnone, -⟩ := step_cases hstep
  · obtain ⟨rfl, rfl⟩ := Prod.mk.inj (Option.some.inj (hwraps.symm.trans hwraps'))
    intro honce
    have hpos := (RefTable.luaL_ref_spec hh hs.sound w).1
    have hlt : k < s.owners.length := (List.getElem?_eq_some_iff.mp ha.owner).1
    have hold : LiveWrapper (newOwner h s kind (some w)) k a :=
      ⟨at_concat.mpr (Or.inl ha.owner), ha.wrapper, ha.live⟩
    have hnew : LiveWrapper (newOwner h s kind (some w)) s.owners.length
        { kind := kind, reference := (RefTable.luaL_ref h s.registry (some w)).1,
          created := some w } :=
      ⟨at_concat.mpr (Or.inr ⟨rfl, rfl⟩), hkind, rfl⟩
    have hsame := honce k s.owners.length _ _ hold hnew ⟨h0, by dsimp only; omega, hcreated⟩
    omega
  · exact absurd (hnone.symm.trans hwraps) nofun

/-- The types of the values of a small world. -/
def smallTypeOf (v : ℕ) : OwnerKind := if v = 1 then .luaTable else .luaFunction

end ReferenceOwners

end UnityLua
