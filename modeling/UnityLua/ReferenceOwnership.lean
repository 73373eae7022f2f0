import Mathlib.Data.List.TakeWhile
import UnityLua.Library.Arena
import UnityLua.ReferenceOwners

/-!
# References are owned once

`Owned` is the invariant of the owners: a reference that was obtained and not yet released
leads to the value it was obtained for, and no two owners have the same one. It survives
every event but one, the repeated `Dispose` of a `LuaThread`, which releases a reference
that may already belong to somebody else.

What `Owned` does not give is a safe `push` of a disposed wrapper: the slot it was created
for is linked into the free list, or holds what was stored there next.

## Main results

* `owned_run`: while no `LuaThread` is disposed twice, owners that were not disposed hold
  different references and push the values they were created for.
* `ownedOnce_iff_keepsOwnership`: ownership is as claimed, for disposed wrappers too,
  exactly in the runs that release nothing through a wrapper and no thread twice.
* `ownedOnce_fails`: two coroutines on one slot after a repeated `Dispose`, and a disposed
  table that pushes another one.
-/

open Library

namespace UnityLua

namespace ReferenceOwners

variable {V : Type}

/-- The invariant of the owners. Only positive references have a slot. -/
structure Owned (s : ReferenceOwners V) : Prop where
  sound : s.registry.Sound
  holds : ∀ k o, s.At k o → o.released = 0 → 0 < o.reference →
    ∃ v, o.created = some v ∧ s.registry.live o.reference = some v
  distinct : ∀ j k o p, s.At j o → s.At k p → j ≠ k → o.released = 0 → p.released = 0 →
    0 < o.reference → o.reference ≠ p.reference
  released : ∀ k o, s.At k o → o.released ≤ 1 ∧ (o.released = 1 → o.disposed = true)
  noSlot : ∀ k o, s.At k o → o.reference ≤ 0 →
    o.reference = -1 ∧ o.created = none ∨ o.reference = 0 ∧ o.kind = .luaFunction
  thread : ∀ k o, s.At k o → o.kind = .luaThread →
    0 < o.reference ∧ (o.disposed = true → o.released = 1)

theorem owned_initial : Owned (initial : ReferenceOwners V) where
  sound := RefTable.sound_empty
  holds := by simp [At, initial]
  distinct := by simp [At, initial]
  released := by simp [At, initial]
  noSlot := by simp [At, initial]
  thread := by simp [At, initial]

theorem At.unique {s : ReferenceOwners V} {k : ℕ} {o p : Owner V} (ho : s.At k o)
    (hp : s.At k p) : o = p :=
  Option.some.inj (ho.symm.trans hp)

theorem Owned.released_eq_zero {s : ReferenceOwners V} (h : Owned s) {k : ℕ} {o : Owner V}
    (ho : s.At k o) (hd : o.disposed = false) : o.released = 0 := by
  obtain ⟨hle, hdis⟩ := h.released k o ho
  by_contra hne
  exact absurd ((hdis (by omega)).symm.trans hd) (by decide)

/-! ### New owners -/

/-- The owners after one was added. -/
theorem at_concat {s : ReferenceOwners V} {registry : RefTable V} {x o : Owner V} {k : ℕ} :
    At ⟨registry, s.owners ++ [x]⟩ k o ↔ s.At k o ∨ k = s.owners.length ∧ o = x :=
  getElem?_concat_eq_some

/-- A new owner of a reference without a slot. -/
theorem Owned.concat_noSlot {s : ReferenceOwners V} (h : Owned s) {x : Owner V}
    (hx : x.reference = -1 ∧ x.created = none ∨ x.reference = 0 ∧ x.kind = .luaFunction)
    (hkind : x.kind ≠ .luaThread) (hnew : x.released = 0) :
    Owned ⟨s.registry, s.owners ++ [x]⟩ where
  sound := h.sound
  holds k o ho hr hpos := by
    rcases at_concat.mp ho with ho | ⟨-, rfl⟩
    · exact h.holds k o ho hr hpos
    · omega
  distinct j k o p ho hp hjk hro hrp hpos := by
    rcases at_concat.mp ho with ho | ⟨-, rfl⟩
    · rcases at_concat.mp hp with hp | ⟨-, rfl⟩
      · exact h.distinct j k o p ho hp hjk hro hrp hpos
      · omega
    · omega
  released k o ho := by
    rcases at_concat.mp ho with ho | ⟨-, rfl⟩
    · exact h.released k o ho
    · omega
  noSlot k o ho hle := by
    rcases at_concat.mp ho with ho | ⟨-, rfl⟩
    · exact h.noSlot k o ho hle
    · exact hx
  thread k o ho hth := by
    rcases at_concat.mp ho with ho | ⟨-, rfl⟩
    · exact h.thread k o ho hth
    · exact absurd hth hkind

/-- A new owner of a new reference. -/
theorem Owned.concat_slot {h : Host V} (hh : h.Lawful) {s : ReferenceOwners V} (hs : Owned s)
    (kind : OwnerKind) (v : V) : Owned (newOwner h s kind (some v)) := by
  obtain ⟨hpos, hfresh, hsound, hlive⟩ := RefTable.luaL_ref_spec hh hs.sound v
  -- an owner from before holds a live reference, so not the new one
  have hne : ∀ k o, s.At k o → o.released = 0 → 0 < o.reference →
      o.reference ≠ (RefTable.luaL_ref h s.registry (some v)).1 := by
    intro k o ho hr ho0 heq
    obtain ⟨w, -, hw⟩ := hs.holds k o ho hr ho0
    exact absurd ((heq ▸ hw).symm.trans hfresh) (by simp)
  refine ⟨hsound, ?_, ?_, ?_, ?_, ?_⟩
  · intro k o ho hr ho0
    simp only [newOwner, hlive]
    rcases at_concat.mp ho with ho | ⟨-, rfl⟩
    · rw [Function.update_of_ne (hne k o ho hr ho0)]
      exact hs.holds k o ho hr ho0
    · exact ⟨v, rfl, Function.update_self ..⟩
  · intro j k o p ho hp hjk hro hrp ho0 heq
    rcases at_concat.mp ho with ho | ⟨hj, rfl⟩ <;> rcases at_concat.mp hp with hp | ⟨hk, rfl⟩
    · exact hs.distinct j k o p ho hp hjk hro hrp ho0 heq
    · exact hne j o ho hro ho0 heq
    · exact hne k p hp hrp (heq ▸ ho0) heq.symm
    · exact hjk (hj.trans hk.symm)
  · intro k o ho
    rcases at_concat.mp ho with ho | ⟨-, rfl⟩
    · exact hs.released k o ho
    · exact ⟨Nat.zero_le 1, fun h => absurd h (Nat.zero_ne_one)⟩
  · intro k o ho hle
    rcases at_concat.mp ho with ho | ⟨-, rfl⟩
    · exact hs.noSlot k o ho hle
    · exact absurd hpos (Int.not_lt.mpr hle)
  · intro k o ho hth
    rcases at_concat.mp ho with ho | ⟨-, rfl⟩
    · exact hs.thread k o ho hth
    · exact ⟨hpos, fun h => absurd h Bool.false_ne_true⟩

theorem Owned.newOwner {h : Host V} (hh : h.Lawful) {s : ReferenceOwners V} (hs : Owned s)
    {kind : OwnerKind} {v : Option V} (hv : v = none → kind ≠ .luaThread) :
    Owned (newOwner h s kind v) := by
  cases v with
  | none => exact hs.concat_noSlot (Or.inl ⟨rfl, rfl⟩) (hv rfl) rfl
  | some v => exact hs.concat_slot hh kind v

/-! ### Disposal -/

theorem at_setDisposed {s : ReferenceOwners V} {k j : ℕ} {o : Owner V} :
    (setDisposed s k).At j o ↔
      ∃ p, s.At j p ∧ o = if k = j then { p with disposed := true } else p :=
  getElem?_modify_eq_some

theorem at_unref {s : ReferenceOwners V} {k j : ℕ} {x o : Owner V} :
    (unref s k x).At j o ↔
      ∃ p, s.At j p ∧ o = if k = j then { p with released := p.released + 1 } else p :=
  getElem?_modify_eq_some

/-- The owners after the `k`-th released its reference and was marked. -/
theorem at_setDisposed_unref {s : ReferenceOwners V} {k j : ℕ} {x o : Owner V} :
    (setDisposed (unref s k x) k).At j o ↔ ∃ p, s.At j p ∧
      o = if k = j then { p with released := p.released + 1, disposed := true } else p := by
  constructor
  · intro ho
    obtain ⟨q, hq, rfl⟩ := at_setDisposed.mp ho
    obtain ⟨p, hp, rfl⟩ := at_unref.mp hq
    exact ⟨p, hp, by split <;> rfl⟩
  · rintro ⟨p, hp, rfl⟩
    exact at_setDisposed.mpr ⟨_, at_unref.mpr ⟨p, hp, rfl⟩, by split <;> rfl⟩

theorem at_setDisposed_unref_self {s : ReferenceOwners V} {k : ℕ} {x : Owner V}
    (hx : s.At k x) :
    (setDisposed (unref s k x) k).At k
      { x with released := x.released + 1, disposed := true } :=
  at_setDisposed_unref.mpr ⟨x, hx, (if_pos rfl).symm⟩

/-- The disposal of an owner that releases its reference `n` times. -/
theorem Owned.dispose {s s' : ReferenceOwners V} (h : Owned s) {k n : ℕ} {x : Owner V}
    (hx : s.At k x)
    (hat : ∀ j o, s'.At j o → ∃ p, s.At j p ∧
      o = if k = j then { p with released := p.released + n, disposed := true } else p)
    (hn : x.released + n ≤ 1) (hkind : x.kind = .luaThread → x.released + n = 1)
    (hsound : s'.registry.Sound)
    (hlive : ∀ j p, s.At j p → p.released = 0 → 0 < p.reference → (j = k → n = 0) →
      s'.registry.live p.reference = s.registry.live p.reference) : Owned s' := by
  have hkeeps (j : ℕ) (o : Owner V) (ho : s'.At j o) : ∃ p, s.At j p ∧
      o.reference = p.reference ∧ o.created = p.created ∧ o.kind = p.kind ∧
        (o.released = 0 → p.released = 0 ∧ (j = k → n = 0)) := by
    obtain ⟨p, hp, rfl⟩ := hat j o ho
    refine ⟨p, hp, ?_⟩
    by_cases hkj : k = j
    · rw [if_pos hkj]
      refine ⟨rfl, rfl, rfl, fun hr => ?_⟩
      have hsum : p.released + n = 0 := hr
      exact ⟨by omega, fun _ => by omega⟩
    · rw [if_neg hkj]
      exact ⟨rfl, rfl, rfl, fun hr => ⟨hr, fun hjk => absurd hjk.symm hkj⟩⟩
  refine ⟨hsound, ?_, ?_, ?_, ?_, ?_⟩
  · intro j o ho hr hpos
    obtain ⟨p, hp, href, hcreated, -, hreleased⟩ := hkeeps j o ho
    obtain ⟨hrp, hj⟩ := hreleased hr
    rw [href] at hpos ⊢
    rw [hcreated, hlive j p hp hrp hpos hj]
    exact h.holds j p hp hrp hpos
  · intro i j o p ho hp hij hro hrp hpos
    obtain ⟨o', ho', href, -, -, hreleased⟩ := hkeeps i o ho
    obtain ⟨p', hp', href', -, -, hreleased'⟩ := hkeeps j p hp
    rw [href] at hpos ⊢
    rw [href']
    exact h.distinct i j o' p' ho' hp' hij (hreleased hro).1 (hreleased' hrp).1 hpos
  · intro j o ho
    obtain ⟨p, hp, rfl⟩ := hat j o ho
    by_cases hkj : k = j
    · subst hkj
      obtain rfl := hx.unique hp
      rw [if_pos rfl]
      exact ⟨hn, fun _ => rfl⟩
    · rw [if_neg hkj]
      exact h.released j p hp
  · intro j o ho hle
    obtain ⟨p, hp, href, hcreated, hkind', -⟩ := hkeeps j o ho
    rw [href] at hle ⊢
    rw [hcreated, hkind']
    exact h.noSlot j p hp hle
  · intro j o ho hth
    obtain ⟨p, hp, rfl⟩ := hat j o ho
    by_cases hkj : k = j
    · subst hkj
      obtain rfl := hx.unique hp
      rw [if_pos rfl] at hth ⊢
      exact ⟨(h.thread k x hx hth).1, fun _ => hkind hth⟩
    · rw [if_neg hkj] at hth ⊢
      exact h.thread j p hp hth

/-- The disposal of a wrapper that releases nothing. -/
theorem Owned.setDisposed {s : ReferenceOwners V} (h : Owned s) {k : ℕ} {x : Owner V}
    (hx : s.At k x) (hkind : x.kind ≠ .luaThread) : Owned (setDisposed s k) :=
  h.dispose (n := 0) hx (fun _ _ => at_setDisposed.mp) (h.released k x hx).1
    (fun hth => absurd hth hkind) h.sound fun _ _ _ _ _ _ => rfl

/-- What the release of an unreleased reference does to the registry: all other unreleased
references lead to the same values as before. -/
theorem Owned.luaL_unref {s : ReferenceOwners V} (h : Owned s) {k : ℕ} {x : Owner V}
    (hx : s.At k x) (hr : x.released = 0) (h0 : x.reference ≠ 0) :
    (RefTable.luaL_unref s.registry x.reference).Sound ∧
      ∀ j p, s.At j p → p.released = 0 → 0 < p.reference → j ≠ k →
        (RefTable.luaL_unref s.registry x.reference).live p.reference =
          s.registry.live p.reference := by
  by_cases hpos : 0 < x.reference
  · obtain ⟨v, -, hlive⟩ := h.holds k x hx hr hpos
    obtain ⟨hsound, hmap⟩ := RefTable.luaL_unref_spec h.sound hlive
    refine ⟨hsound, fun j p hp hrp hp0 hjk => ?_⟩
    rw [hmap, Function.update_of_ne (h.distinct j k p x hp hx hjk hrp hr hp0)]
  · rw [RefTable.luaL_unref, if_neg (by omega)]
    exact ⟨h.sound, fun _ _ _ _ _ _ => rfl⟩

/-- The disposal of an owner that has not released its reference yet. -/
theorem Owned.release {s : ReferenceOwners V} (h : Owned s) {k : ℕ} {x : Owner V}
    (hx : s.At k x) (hr : x.released = 0) (h0 : x.reference ≠ 0) :
    Owned (ReferenceOwners.setDisposed (unref s k x) k) := by
  obtain ⟨hsound, hlive⟩ := h.luaL_unref hx hr h0
  refine h.dispose hx (fun _ _ => at_setDisposed_unref.mp) (by omega) (fun _ => by omega) hsound ?_
  intro j p hp hrp hpos hone
  exact hlive j p hp hrp hpos fun hjk => absurd (hone hjk) Nat.one_ne_zero

theorem Owned.disposeBase {s : ReferenceOwners V} (h : Owned s) {k : ℕ} {x : Owner V}
    (hx : s.At k x) (hkind : x.kind ≠ .luaThread) (managed : Bool) :
    Owned (disposeBase s k x managed) := by
  rw [ReferenceOwners.disposeBase]
  split
  · exact h
  · next hd =>
      split
      · next hm => exact h.release hx (h.released_eq_zero hx (Bool.not_eq_true _ ▸ hd)) hm.2
      · exact h.setDisposed hx hkind

theorem Owned.disposeThread {s : ReferenceOwners V} (h : Owned s) {k : ℕ} {x : Owner V}
    (hx : s.At k x) (hkind : x.kind = .luaThread) {dispose : Bool}
    (hd : dispose = true → x.disposed = false) : Owned (disposeThread s k x dispose) := by
  rw [ReferenceOwners.disposeThread]
  split
  · next hdis =>
      have hpos := (h.thread k x hx hkind).1
      exact h.release hx (h.released_eq_zero hx (hd hdis)) (by omega)
  · exact h

/-! ### Runs -/

theorem step_dispose {h : Host V} {s s' : ReferenceOwners V} {k : ℕ} {managed : Bool}
    (hstep : step h s (.dispose k managed) = some s') :
    ∃ x, s.At k x ∧ x.kind ≠ .luaThread ∧ s' = disposeBase s k x managed := by
  simp only [step] at hstep
  split at hstep
  · next x hx =>
      split at hstep
      · exact absurd hstep (by simp)
      · next hkind => exact ⟨x, hx, hkind, (Option.some.inj hstep).symm⟩
  · exact absurd hstep (by simp)

theorem step_disposeThread {h : Host V} {s s' : ReferenceOwners V} {k : ℕ} {dispose : Bool}
    (hstep : step h s (.disposeThread k dispose) = some s') :
    ∃ x, s.At k x ∧ x.kind = .luaThread ∧ s' = disposeThread s k x dispose := by
  simp only [step] at hstep
  split at hstep
  · next x hx =>
      split at hstep
      · next hkind => exact ⟨x, hx, hkind, (Option.some.inj hstep).symm⟩
      · exact absurd hstep (by simp)
  · exact absurd hstep (by simp)

/-- The condition on a step from `s`: no `LuaThread` is disposed that was disposed before. -/
def NoSecondDispose (s : ReferenceOwners V) : Event V → Prop
  | .disposeThread k dispose => dispose = true → ∀ o, s.At k o → o.disposed = false
  | _ => True

/-- **The step lemma of the owners.** -/
theorem owned_step {h : Host V} (hh : h.Lawful) {s s' : ReferenceOwners V} {e : Event V}
    (hok : NoSecondDispose s e) (hs : Owned s) (hstep : step h s e = some s') : Owned s' := by
  cases e with
  | getTable v =>
      obtain rfl := Option.some.inj hstep
      exact hs.newOwner hh fun _ => by decide
  | getFunction v =>
      obtain rfl := Option.some.inj hstep
      exact hs.newOwner hh fun _ => by decide
  | getUserData v =>
      obtain rfl := Option.some.inj hstep
      exact hs.newOwner hh fun _ => by decide
  | newCSFunction f =>
      obtain rfl := Option.some.inj hstep
      exact hs.concat_noSlot (Or.inr ⟨rfl, rfl⟩) (fun hk => nomatch hk) rfl
  | newThread v =>
      obtain rfl := Option.some.inj hstep
      exact hs.concat_slot hh .luaThread v
  | dispose k managed =>
      obtain ⟨x, hx, hkind, rfl⟩ := step_dispose hstep
      exact hs.disposeBase hx hkind managed
  | disposeThread k dispose =>
      obtain ⟨x, hx, hkind, rfl⟩ := step_disposeThread hstep
      exact hs.disposeThread hx hkind fun hd => hok hd x hx

/-- A wrapper that was not released pushes its value, or fails. -/
theorem Owned.push {s : ReferenceOwners V} (h : Owned s) {k : ℕ} {o : Owner V}
    (ho : s.At k o) (hr : 0 < o.reference → o.released = 0) :
    push s o = .pushed (slotOf o.created) ∨ push s o = .failed := by
  by_cases hpos : 0 < o.reference
  · obtain ⟨v, hv, hlive⟩ := h.holds k o ho (hr hpos) hpos
    have hslot : s.registry.rawgeti o.reference = slotOf o.created := by
      rw [hv]
      exact RefTable.live_eq_some.mp hlive
    rw [ReferenceOwners.push, hslot]
    split
    · exact Or.inl (if_pos (by omega))
    · exact Or.inl rfl
  · rcases h.noSlot k o ho (by omega) with ⟨hneg, hnil⟩ | ⟨hzero, hkind⟩
    · have hslot : s.registry.rawgeti o.reference = slotOf o.created := by
        rw [hnil]
        exact h.sound.rawgeti_negative (by omega)
      rw [ReferenceOwners.push, hslot]
      split
      · exact Or.inl (if_pos (by omega))
      · exact Or.inl rfl
    · rw [ReferenceOwners.push, hkind]
      by_cases hd : o.disposed = true
      · exact Or.inr (by simp [hzero, hd])
      · exact Or.inl (by simp [hzero, hd])

/-- **Owners that were not disposed are safe** while no `LuaThread` is disposed twice,
however often wrappers are disposed: no two of them hold one reference, every reference is
released at most once, and a wrapper pushes the value it was created for. -/
theorem owned_run {h : Host V} (hh : h.Lawful) {es : List (Event V)} {s : ReferenceOwners V}
    (hok : AllSteps (step h) NoSecondDispose initial es)
    (hrun : run (step h) initial es = some s) :
    (∀ j k o p, s.At j o → s.At k p → j ≠ k → o.disposed = false → p.disposed = false →
      0 < o.reference → o.reference ≠ p.reference) ∧
    (∀ k o, s.At k o → o.released ≤ 1) ∧
    (∀ k o, s.At k o → o.disposed = false →
      push s o = .pushed (slotOf o.created) ∨ push s o = .failed) := by
  have hs : Owned s := run_invariant_of NoSecondDispose
    (fun _ _ _ hI hok hstep => owned_step hh hok hI hstep) hok hrun owned_initial
  refine ⟨fun j k o p ho hp hjk hdo hdp hpos => ?_, fun k o ho => (hs.released k o ho).1,
    fun k o ho hd => hs.push ho fun _ => hs.released_eq_zero ho hd⟩
  exact hs.distinct j k o p ho hp hjk (hs.released_eq_zero ho hdo)
    (hs.released_eq_zero hp hdp) hpos

/-! ### When every owner is safe, disposed or not -/

/-- References are owned once: undisposed owners hold different references, no reference
is released twice, and every wrapper, disposed or not, pushes its own value or fails. -/
structure OwnedOnce (s : ReferenceOwners V) : Prop where
  distinct : ∀ j k o p, s.At j o → s.At k p → j ≠ k → o.disposed = false →
    p.disposed = false → o.reference ≠ 0 → o.reference ≠ p.reference
  released : ∀ k o, s.At k o → o.released ≤ 1
  push : ∀ k o, s.At k o → o.kind ≠ .luaThread →
    push s o = .pushed (slotOf o.created) ∨ push s o = .failed

/-- A `nil` shares its fixed reference with every other `nil`. -/
def OnlyNil (s : ReferenceOwners V) (v : Option V) : Prop :=
  v = none → ∀ k o, s.At k o → o.disposed = false → o.reference ≠ -1

/-- The condition on a step from `s`: nothing is released through a wrapper, no
`LuaThread` is disposed twice, and no two wrappers stand for `nil`. -/
def KeepsOwnership (s : ReferenceOwners V) : Event V → Prop
  | .getTable v => OnlyNil s v
  | .getFunction v => OnlyNil s v
  | .getUserData v => OnlyNil s v
  | .dispose k managed =>
      managed = true → ∀ o, s.At k o → o.disposed = true ∨ o.reference ≤ 0
  | .disposeThread k dispose => dispose = true → ∀ o, s.At k o → o.disposed = false
  | _ => True

/-- The invariant of the runs that meet the condition. -/
structure Kept (s : ReferenceOwners V) : Prop extends Owned s where
  oneNil : ∀ j k o p, s.At j o → s.At k p → j ≠ k → o.disposed = false →
    p.disposed = false → o.reference = -1 → p.reference ≠ -1
  unreleased : ∀ k o, s.At k o → o.kind ≠ .luaThread → 0 < o.reference → o.released = 0

theorem kept_initial : Kept (initial : ReferenceOwners V) where
  toOwned := owned_initial
  oneNil := by simp [At, initial]
  unreleased := by simp [At, initial]

theorem Kept.ownedOnce {s : ReferenceOwners V} (h : Kept s) : OwnedOnce s where
  distinct j k o p ho hp hjk hdo hdp h0 := by
    by_cases hpos : 0 < o.reference
    · exact h.distinct j k o p ho hp hjk (h.released_eq_zero ho hdo)
        (h.released_eq_zero hp hdp) hpos
    · rcases h.noSlot j o ho (by omega) with ⟨hneg, -⟩ | ⟨hzero, -⟩
      · rw [hneg]
        exact (h.oneNil j k o p ho hp hjk hdo hdp hneg).symm
      · exact absurd hzero h0
  released k o ho := (h.toOwned.released k o ho).1
  push k o ho hkind := h.toOwned.push ho (h.unreleased k o ho hkind)

/-- A new owner keeps the invariant when it does not bring a second `nil`. -/
theorem Kept.concat {s : ReferenceOwners V} (h : Kept s) {registry : RefTable V}
    {x : Owner V} (howned : Owned ⟨registry, s.owners ++ [x]⟩) (hnew : x.released = 0)
    (hnil : x.reference = -1 → ∀ k o, s.At k o → o.disposed = false → o.reference ≠ -1) :
    Kept ⟨registry, s.owners ++ [x]⟩ where
  toOwned := howned
  oneNil j k o p ho hp hjk hdo hdp href := by
    rcases at_concat.mp ho with ho' | ⟨hj, rfl⟩ <;> rcases at_concat.mp hp with hp' | ⟨hk, rfl⟩
    · exact h.oneNil j k o p ho' hp' hjk hdo hdp href
    · exact fun hneg => hnil hneg j o ho' hdo href
    · exact hnil href k p hp' hdp
    · exact absurd (hj.trans hk.symm) hjk
  unreleased k o ho hkind hpos := by
    rcases at_concat.mp ho with ho | ⟨-, rfl⟩
    · exact h.unreleased k o ho hkind hpos
    · exact hnew

theorem Kept.newOwner {h : Host V} (hh : h.Lawful) {s : ReferenceOwners V} (hs : Kept s)
    {kind : OwnerKind} {v : Option V} (hv : v = none → kind ≠ .luaThread)
    (hnil : OnlyNil s v) : Kept (newOwner h s kind v) := by
  have hneg : (RefTable.luaL_ref h s.registry v).1 = -1 → v = none := by
    intro href
    cases v with
    | none => rfl
    | some v =>
        have hpos := (RefTable.luaL_ref_spec hh hs.sound v).1
        omega
  exact hs.concat (hs.toOwned.newOwner hh hv) rfl fun href => hnil (hneg href)

/-- A change of the owners' flags keeps the invariant when no wrapper with a slot counts a
release. -/
theorem Kept.of_owners {s s' : ReferenceOwners V} (h : Kept s) (howned : Owned s')
    (hat : ∀ k o, s'.At k o → ∃ p, s.At k p ∧ o.reference = p.reference ∧ o.kind = p.kind ∧
      (o.disposed = false → p.disposed = false) ∧
      (o.kind ≠ .luaThread → 0 < o.reference → o.released = p.released)) : Kept s' where
  toOwned := howned
  oneNil j k o p ho hp hjk hdo hdp href := by
    obtain ⟨o', ho', hro, -, hdo', -⟩ := hat j o ho
    obtain ⟨p', hp', hrp, -, hdp', -⟩ := hat k p hp
    rw [hrp]
    exact h.oneNil j k o' p' ho' hp' hjk (hdo' hdo) (hdp' hdp) (hro ▸ href)
  unreleased k o ho hkind hpos := by
    obtain ⟨p, hp, href, hk, -, hrel⟩ := hat k o ho
    rw [hrel hkind hpos]
    exact h.unreleased k p hp (hk ▸ hkind) (href ▸ hpos)

theorem Kept.setDisposed {s : ReferenceOwners V} (h : Kept s) {k : ℕ} {x : Owner V}
    (hx : s.At k x) (hkind : x.kind ≠ .luaThread) :
    Kept (ReferenceOwners.setDisposed s k) := by
  refine h.of_owners (h.toOwned.setDisposed hx hkind) fun j o ho => ?_
  obtain ⟨p, hp, rfl⟩ := at_setDisposed.mp ho
  refine ⟨p, hp, ?_⟩
  split
  · exact ⟨rfl, rfl, fun hd => absurd hd (by simp), fun _ _ => rfl⟩
  · exact ⟨rfl, rfl, id, fun _ _ => rfl⟩

/-- A release through an owner that is a `LuaThread` or has no slot. -/
theorem Kept.release {s : ReferenceOwners V} (h : Kept s) {k : ℕ} {x : Owner V}
    (hx : s.At k x) (hr : x.released = 0) (h0 : x.reference ≠ 0)
    (hslot : x.kind = .luaThread ∨ x.reference ≤ 0) :
    Kept (ReferenceOwners.setDisposed (unref s k x) k) := by
  refine h.of_owners (h.toOwned.release hx hr h0) fun j o ho => ?_
  obtain ⟨p, hp, rfl⟩ := at_setDisposed_unref.mp ho
  refine ⟨p, hp, ?_⟩
  by_cases hkj : k = j
  · subst hkj
    obtain rfl := hx.unique hp
    rw [if_pos rfl]
    refine ⟨rfl, rfl, fun hd => absurd hd (by simp), fun hkind hpos => ?_⟩
    rcases hslot with hth | hle
    · exact absurd hth hkind
    · exact absurd hpos (Int.not_lt.mpr hle)
  · rw [if_neg hkj]
    exact ⟨rfl, rfl, id, fun _ _ => rfl⟩

/-- A step that meets the condition keeps the invariant. -/
theorem kept_step {h : Host V} (hh : h.Lawful) {s s' : ReferenceOwners V} {e : Event V}
    (hok : KeepsOwnership s e) (hs : Kept s) (hstep : step h s e = some s') : Kept s' := by
  cases e with
  | getTable v =>
      obtain rfl := Option.some.inj hstep
      exact hs.newOwner hh (fun _ => by decide) hok
  | getFunction v =>
      obtain rfl := Option.some.inj hstep
      exact hs.newOwner hh (fun _ => by decide) hok
  | getUserData v =>
      obtain rfl := Option.some.inj hstep
      exact hs.newOwner hh (fun _ => by decide) hok
  | newCSFunction f =>
      obtain rfl := Option.some.inj hstep
      exact hs.concat (hs.toOwned.concat_noSlot (Or.inr ⟨rfl, rfl⟩) (fun hk => nomatch hk) rfl)
        rfl fun href => absurd href (by simp)
  | newThread v =>
      obtain rfl := Option.some.inj hstep
      exact hs.newOwner hh (fun hv => nomatch hv) fun hv => nomatch hv
  | dispose k managed =>
      obtain ⟨x, hx, hkind, rfl⟩ := step_dispose hstep
      rw [disposeBase]
      split
      · exact hs
      · next hd =>
          split
          · next hm =>
              have hrel := hs.released_eq_zero hx (Bool.not_eq_true _ ▸ hd)
              have hle := (hok hm.1 x hx).resolve_left hd
              exact hs.release hx hrel hm.2 (Or.inr hle)
          · exact hs.setDisposed hx hkind
  | disposeThread k dispose =>
      obtain ⟨x, hx, hkind, rfl⟩ := step_disposeThread hstep
      rw [disposeThread]
      split
      · next hdis =>
          have hrel := hs.released_eq_zero hx (hok hdis x hx)
          have hpos := (hs.thread k x hx hkind).1
          exact hs.release hx hrel (by omega) (Or.inl hkind)
      · exact hs

/-- A wrapper that has released its reference pushes something else. -/
theorem not_ownedOnce_release {s : ReferenceOwners V} (h : Owned s) {k : ℕ} {x : Owner V}
    (hx : s.At k x) (hkind : x.kind ≠ .luaThread) (hd : x.disposed = false)
    (hpos : 0 < x.reference) : ¬ OwnedOnce (setDisposed (unref s k x) k) := by
  intro howned
  have hr := h.released_eq_zero hx hd
  obtain ⟨v, hv, hlive⟩ := h.holds k x hx hr hpos
  have hgone := (RefTable.luaL_unref_spec h.sound hlive).2
  have hnone : (RefTable.luaL_unref s.registry x.reference).live x.reference = none := by
    rw [hgone, Function.update_self]
  have hpush := howned.push k _ (at_setDisposed_unref_self hx) hkind
  have hne : x.reference ≠ 0 := by omega
  have hresult : push (setDisposed (unref s k x) k)
      { x with released := x.released + 1, disposed := true } =
        .pushed ((RefTable.luaL_unref s.registry x.reference).rawgeti x.reference) := by
    rw [push]
    split
    · exact if_pos hne
    · rfl
  rw [hresult, hv] at hpush
  rcases hpush with heq | heq
  · have hsome := RefTable.live_eq_some.mpr (PushResult.pushed.inj heq)
    exact absurd (hnone.symm.trans hsome) (by simp)
  · exact absurd heq (by simp)

/-- A second wrapper for `nil` holds the reference of the first. -/
theorem not_ownedOnce_newOwner {h : Host V} {s s' : ReferenceOwners V} {kind : OwnerKind}
    {v : Option V} (hnot : ¬ OnlyNil s v) (hstep : some (newOwner h s kind v) = some s') :
    ¬ OwnedOnce s' := by
  simp only [OnlyNil, not_forall, not_not] at hnot
  obtain ⟨rfl, k, o, ho, hd, href⟩ := hnot
  obtain rfl := Option.some.inj hstep
  intro howned
  have hlt : k < s.owners.length := (List.getElem?_eq_some_iff.mp ho).1
  exact howned.distinct k s.owners.length o _ (at_concat.mpr (Or.inl ho))
    (at_concat.mpr (Or.inr ⟨rfl, rfl⟩)) (Nat.ne_of_lt hlt) hd rfl (by omega) href

/-- A step that does not meet the condition breaks the ownership. -/
theorem not_ownedOnce_step {h : Host V} {s s' : ReferenceOwners V} {e : Event V}
    (hnot : ¬ KeepsOwnership s e) (hs : Kept s) (hstep : step h s e = some s') :
    ¬ OwnedOnce s' := by
  cases e with
  | getTable v => exact not_ownedOnce_newOwner hnot hstep
  | getFunction v => exact not_ownedOnce_newOwner hnot hstep
  | getUserData v => exact not_ownedOnce_newOwner hnot hstep
  | newCSFunction f => exact absurd trivial hnot
  | newThread v => exact absurd trivial hnot
  | dispose k managed =>
      obtain ⟨x, hx, hkind, rfl⟩ := step_dispose hstep
      simp only [KeepsOwnership, not_forall, not_or, Bool.not_eq_true, Int.not_le] at hnot
      obtain ⟨hm, y, hy, hd, hpos⟩ := hnot
      obtain rfl := hx.unique hy
      have hcond : managed = true ∧ x.reference ≠ 0 := ⟨hm, by omega⟩
      rw [disposeBase, if_neg (by rw [hd]; decide), if_pos hcond]
      exact not_ownedOnce_release hs.toOwned hx hkind hd hpos
  | disposeThread k dispose =>
      obtain ⟨x, hx, hkind, rfl⟩ := step_disposeThread hstep
      simp only [KeepsOwnership, not_forall, Bool.not_eq_false] at hnot
      obtain ⟨hdis, y, hy, hd⟩ := hnot
      obtain rfl := hx.unique hy
      intro howned
      rw [disposeThread, if_pos hdis] at howned
      have hle := howned.released k _ (at_setDisposed_unref_self hx)
      have hone := (hs.thread k x hx hkind).2 hd
      exact absurd hle (by simp [hone])

/-- **References are owned once exactly while the condition is met.** -/
theorem ownedOnce_iff_keepsOwnership {h : Host V} (hh : h.Lawful) {es : List (Event V)}
    {s : ReferenceOwners V} (hrun : run (step h) initial es = some s) :
    Throughout (step h) OwnedOnce initial es ↔ AllSteps (step h) KeepsOwnership initial es :=
  throughout_iff_allSteps (I := Kept) (B := fun _ => True) (A := fun _ => True)
    (fun _ hs => hs.ownedOnce) (fun _ _ _ _ _ => trivial)
    (fun _ _ _ _ hs hok hstep _ => kept_step hh hok hs hstep)
    (fun _ _ _ _ hs hnot hstep _ => not_ownedOnce_step hnot hs hstep)
    hrun (fun _ _ => trivial) kept_initial trivial

/-- A host whose length operator stops at the first hole, and whose stored values are no
numbers. -/
def firstBorder : Host ℕ :=
  ⟨fun l => (l.takeWhile fun s => s != .nil).length, fun _ => 0⟩

theorem lawful_takeWhile [DecidableEq V] {tointeger : V → ℤ} :
    (⟨fun l => (l.takeWhile fun s => s != .nil).length, tointeger⟩ : Host V).Lawful := by
  intro l hl
  have hall : l.takeWhile (fun s => s != .nil) = l :=
    List.takeWhile_eq_self_iff.mpr fun s hs => bne_iff_ne.mpr (hl s hs)
  exact congrArg List.length hall

theorem lawful_firstBorder : firstBorder.Lawful := lawful_takeWhile

/-- A table and a coroutine, which is disposed once. -/
def disposedOnce : List (Event ℕ) := [.getTable (some 1), .newThread 2, .disposeThread 1 true]

theorem keepsOwnership_disposedOnce :
    AllSteps (step firstBorder) KeepsOwnership initial disposedOnce := by
  simp only [disposedOnce, AllSteps]
  refine ⟨fun h => absurd h (Option.some_ne_none 1), fun s hs => ?_⟩
  obtain rfl := Option.some.inj hs
  refine ⟨trivial, fun s hs => ?_⟩
  obtain rfl := Option.some.inj hs
  refine ⟨fun _ o ho => ?_, fun _ _ => trivial⟩
  obtain rfl := Option.some.inj ho
  rfl

theorem ownedOnce_iff_keepsOwnership_disposedOnce :
    Throughout (step firstBorder) OwnedOnce initial disposedOnce :=
  (ownedOnce_iff_keepsOwnership lawful_firstBorder rfl).mpr keepsOwnership_disposedOnce

/-- The first coroutine is disposed twice before two others are made. -/
def disposedTwice : List (Event ℕ) :=
  [.newThread 1, .disposeThread 0 true, .disposeThread 0 true, .newThread 2, .newThread 3]

/-- A table is disposed before another one is wrapped. -/
def pushedAfter : List (Event ℕ) :=
  [.getTable (some 1), .dispose 0 true, .getTable (some 2)]

/-- After a repeated `Dispose` two living coroutines share a slot; and a disposed table
pushes the table that was wrapped after it. -/
theorem ownedOnce_fails :
    (∃ s, run (step firstBorder) initial disposedTwice = some s ∧
      s.owners.map (fun o => (o.reference, o.disposed)) =
        [(1, true), (1, false), (1, false)] ∧ ¬ OwnedOnce s) ∧
    ∃ s o, run (step firstBorder) initial pushedAfter = some s ∧ s.At 0 o ∧
      o.created = some 1 ∧ push s o = .pushed (.value 2) ∧ ¬ OwnedOnce s := by
  refine ⟨⟨_, rfl, rfl, fun h => ?_⟩, _, _, rfl, rfl, rfl, rfl, fun h => ?_⟩
  · exact h.distinct 1 2 _ _ rfl rfl (by decide) rfl rfl (by decide) rfl
  · exact absurd (h.push 0 _ rfl (by decide)) (by decide)

end ReferenceOwners

end UnityLua
