import UnityLua.ReferenceOwnership

/-!
# Anchored threads

A wrapper records the interpreter it runs on, which it gets from the translator. There is one
translator for a state and its coroutines; the constructor of `LuaThread` makes its own object the
interpreter of the translator, and nothing sets it back. What keeps the coroutine alive is the
registry reference of the `LuaThread`, which its `Dispose` releases.

## Main results

* `Anchoring.interpreter_eq_some`: the interpreter is the `LuaThread` constructed last.
* `anchors_iff_keepsAnchors`: exactly when the recorded interpreters are anchored, in the runs in
  which no `LuaThread` is disposed twice.
-/

open Library

namespace UnityLua

variable {V : Type}

/-- The owners of references, the interpreter of the translator and those that the wrappers
recorded. An interpreter is the state itself (`none`) or a `LuaThread`, by its place among the
owners. -/
structure ThreadAnchors (V : Type) where
  owners : ReferenceOwners V
  interpreter : Option ℕ
  recorded : List (Option ℕ)

namespace ThreadAnchors

open ReferenceOwners

def initial : ThreadAnchors V := ⟨ReferenceOwners.initial, none, []⟩

/-- The interpreter that the new wrapper records, if the event makes one. `GetFunction` passes the
state on which it was called, and the others are made by the translator. -/
def recordedBy (s : ThreadAnchors V) : ReferenceOwners.Event V → Option (Option ℕ)
  | .getTable _ | .getFunction _ | .getUserData _ => some s.interpreter
  | .newCSFunction _ => some none
  | _ => none

def step (h : Host V) (s : ThreadAnchors V) (e : ReferenceOwners.Event V) :
    Option (ThreadAnchors V) :=
  (ReferenceOwners.step h s.owners e).map fun owners =>
    { owners := owners
      interpreter := match e with
        | .newThread _ => some s.owners.owners.length
        | _ => s.interpreter
      recorded := s.recorded ++ (s.recordedBy e).toList }

/-- An interpreter is the state itself, or a coroutine whose reference was not released and leads
to it. -/
def Anchored (s : ReferenceOwners V) : Option ℕ → Prop
  | none => True
  | some k => ∃ o, s.At k o ∧ o.released = 0 ∧ s.registry.live o.reference = o.created

/-- What a step does: the wrapper it makes records an interpreter that is anchored. -/
def Anchors (h : Host V) (s : ThreadAnchors V) (e : ReferenceOwners.Event V) : Prop :=
  ∀ i s', s.recordedBy e = some i → step h s e = some s' → Anchored s'.owners i

/-- The classes of the owners. -/
def kinds (s : ReferenceOwners V) : List OwnerKind := s.owners.map (·.kind)

/-- Of owners of these classes, the `k`-th is the `LuaThread` that was constructed last. -/
def IsNewestThread (kinds : List OwnerKind) (k : ℕ) : Prop :=
  kinds[k]? = some .luaThread ∧ ∀ j, k < j → kinds[j]? ≠ some .luaThread

/-- The condition on a step: no `LuaThread` is disposed a second time, and a wrapper is made by the
translator only while the newest `LuaThread` is not disposed. -/
def KeepsAnchors (s : ThreadAnchors V) (e : ReferenceOwners.Event V) : Prop :=
  NoSecondDispose s.owners e ∧
    match e with
    | .getTable _ | .getFunction _ | .getUserData _ =>
        ∀ k o, IsNewestThread (kinds s.owners) k → s.owners.At k o → o.disposed = false
    | _ => True

/-! ### The newest thread -/

variable {h : Host V} {s s' : ReferenceOwners V} {e : ReferenceOwners.Event V} {k : ℕ}
  {x : Owner V}

theorem isNewestThread_concat {l : List OwnerKind} {kind : OwnerKind} (hkind : kind ≠ .luaThread) :
    IsNewestThread (l ++ [kind]) k ↔ IsNewestThread l k := by
  have hget : ∀ j : ℕ, (l ++ [kind])[j]? = some .luaThread ↔
      l[j]? = some .luaThread := by
    intro j
    rw [getElem?_concat_eq_some]
    exact or_iff_left fun hlast => hkind hlast.2.symm
  simp only [IsNewestThread, ne_eq, hget]

theorem isNewestThread_concat_thread {l : List OwnerKind} :
    IsNewestThread (l ++ [.luaThread]) k ↔ k = l.length := by
  have hget : ∀ j : ℕ, (l ++ [.luaThread])[j]? = some OwnerKind.luaThread ↔
      l[j]? = some .luaThread ∨ j = l.length := by
    intro j
    rw [getElem?_concat_eq_some]
    exact or_congr_right (and_iff_left rfl)
  simp only [IsNewestThread, ne_eq, hget]
  constructor
  · rintro ⟨hk | hk, hlast⟩
    · have hlt := (List.getElem?_eq_some_iff.mp hk).1
      exact absurd (Or.inr rfl) (hlast _ hlt)
    · exact hk
  · rintro rfl
    refine ⟨Or.inr rfl, fun j hj => ?_⟩
    rintro (hthread | rfl)
    · have hlt := (List.getElem?_eq_some_iff.mp hthread).1
      omega
    · omega

theorem map_modify_eq {α β : Type} {l : List α} {f : α → α} {g : α → β} (hg : ∀ a, g (f a) = g a) :
    (l.modify k f).map g = l.map g := by
  apply List.ext_getElem?
  intro i
  rw [List.getElem?_map, List.getElem?_map, List.getElem?_modify]
  split <;> simp [Option.map_map, Function.comp_def, hg]

@[simp] theorem kinds_unref : kinds (unref s k x) = kinds s := map_modify_eq fun _ => rfl

@[simp] theorem kinds_setDisposed : kinds (setDisposed s k) = kinds s := map_modify_eq fun _ => rfl

theorem kinds_disposeBase {managed : Bool} : kinds (disposeBase s k x managed) = kinds s := by
  unfold disposeBase
  split
  · rfl
  · split <;> simp

theorem kinds_disposeThread {dispose : Bool} :
    kinds (disposeThread s k x dispose) = kinds s := by
  unfold disposeThread
  split <;> simp

@[simp] theorem kinds_concat {registry : RefTable V} :
    kinds ⟨registry, s.owners ++ [x]⟩ = kinds s ++ [x.kind] := by
  rw [kinds, List.map_append, List.map_singleton, kinds]

theorem isNewestThread_newOwner {kind : OwnerKind} {v : Option V} (hkind : kind ≠ .luaThread) :
    IsNewestThread (kinds (newOwner h s kind v)) k ↔ IsNewestThread (kinds s) k := by
  rw [newOwner, kinds_concat]
  exact isNewestThread_concat hkind

/-! ### The invariant -/

/-- The interpreter of the translator is the newest `LuaThread`, or the state if there is none. -/
structure Anchoring (s : ThreadAnchors V) : Prop where
  owned : Owned s.owners
  interpreter_eq_some : ∀ k, s.interpreter = some k ↔ IsNewestThread (kinds s.owners) k

theorem anchoring_initial : Anchoring (initial : ThreadAnchors V) where
  owned := owned_initial
  interpreter_eq_some k := by simp [initial, IsNewestThread, kinds, ReferenceOwners.initial]

variable {t t' : ThreadAnchors V}

theorem step_eq_some (hstep : step h t e = some t') :
    ReferenceOwners.step h t.owners e = some t'.owners := by
  obtain ⟨owners, howners, rfl⟩ := Option.map_eq_some_iff.mp hstep
  exact howners

/-- Only a new `LuaThread` becomes the newest one. -/
theorem Anchoring.step (ht : Anchoring t) (hh : h.Lawful) (hok : NoSecondDispose t.owners e)
    (hstep : step h t e = some t') : Anchoring t' := by
  have howned : Owned t'.owners := owned_step hh hok ht.owned (step_eq_some hstep)
  refine ⟨howned, fun k => ?_⟩
  obtain ⟨owners, howners, rfl⟩ := Option.map_eq_some_iff.mp hstep
  cases e with
  | getTable v =>
      obtain rfl := Option.some.inj howners
      exact (ht.interpreter_eq_some k).trans (isNewestThread_newOwner (by decide)).symm
  | getFunction v =>
      obtain rfl := Option.some.inj howners
      exact (ht.interpreter_eq_some k).trans (isNewestThread_newOwner (by decide)).symm
  | getUserData v =>
      obtain rfl := Option.some.inj howners
      exact (ht.interpreter_eq_some k).trans (isNewestThread_newOwner (by decide)).symm
  | newCSFunction f =>
      obtain rfl := Option.some.inj howners
      rw [newCSFunction, kinds_concat]
      exact (ht.interpreter_eq_some k).trans (isNewestThread_concat (by simp)).symm
  | newThread v =>
      obtain rfl := Option.some.inj howners
      dsimp only
      rw [newThread, newOwner, kinds_concat, isNewestThread_concat_thread, kinds, List.length_map,
        Option.some_inj]
      exact eq_comm
  | dispose j managed =>
      obtain ⟨x, hx, hkind, rfl⟩ := step_dispose howners
      exact (ht.interpreter_eq_some k).trans (by rw [kinds_disposeBase])
  | disposeThread j dispose =>
      obtain ⟨x, hx, hkind, rfl⟩ := step_disposeThread howners
      exact (ht.interpreter_eq_some k).trans (by rw [kinds_disposeThread])

/-- After a wrapper was made, an interpreter is anchored exactly if its `LuaThread` was not
disposed. -/
theorem Anchoring.anchored_newOwner (ht : Anchoring t) (hh : h.Lawful) {kind : OwnerKind}
    {v : Option V} (hkind : kind ≠ .luaThread) :
    Anchored (newOwner h t.owners kind v) t.interpreter ↔
      ∀ k o, IsNewestThread (kinds t.owners) k → t.owners.At k o → o.disposed = false := by
  have howned : Owned (newOwner h t.owners kind v) :=
    ht.owned.newOwner hh fun _ => hkind
  cases hi : t.interpreter with
  | none =>
      refine iff_of_true trivial fun k o hk => ?_
      have hsome := (ht.interpreter_eq_some k).mpr hk
      rw [hi] at hsome
      cases hsome
  | some k =>
      have hnewest := (ht.interpreter_eq_some k).mp hi
      have hget : (t.owners.owners.map (·.kind))[k]? = some .luaThread := hnewest.1
      rw [List.getElem?_map] at hget
      obtain ⟨o, ho, hthread⟩ := Option.map_eq_some_iff.mp hget
      have ho' : (newOwner h t.owners kind v).At k o := at_concat.mpr (Or.inl ho)
      obtain ⟨hpos, hdisposed⟩ := ht.owned.thread k o ho hthread
      constructor
      · rintro ⟨o', hat, hreleased, -⟩ j p hj hp
        obtain rfl : j = k := Option.some.inj ((ht.interpreter_eq_some j).mpr hj ▸ hi)
        obtain rfl := ReferenceOwners.At.unique ho hp
        obtain rfl := ReferenceOwners.At.unique ho' hat
        by_contra hd
        have hone := hdisposed (by simpa using hd)
        omega
      · intro hlive
        have hreleased := ht.owned.released_eq_zero ho (hlive k o hnewest ho)
        obtain ⟨w, hw, hl⟩ := howned.holds k o ho' hreleased hpos
        exact ⟨o, ho', hreleased, hl.trans hw.symm⟩

/-- What a wrapper made by the translator records. -/
theorem anchors_iff_newOwner {kind : OwnerKind} {v : Option V}
    (hrecorded : t.recordedBy e = some t.interpreter)
    (hstep : ReferenceOwners.step h t.owners e = some (newOwner h t.owners kind v)) :
    Anchors h t e ↔ Anchored (newOwner h t.owners kind v) t.interpreter := by
  constructor
  · intro hanchors
    exact hanchors t.interpreter _ hrecorded (congrArg (Option.map _) hstep)
  · intro hanchored i t' hi ht'
    obtain rfl := Option.some.inj (hrecorded.symm.trans hi)
    rwa [Option.some.inj ((step_eq_some ht').symm.trans hstep)]

theorem Anchoring.anchors_iff (ht : Anchoring t) (hh : h.Lawful) :
    NoSecondDispose t.owners e ∧ Anchors h t e ↔ KeepsAnchors t e := by
  refine and_congr_right fun _ => ?_
  cases e with
  | getTable v => exact (anchors_iff_newOwner rfl rfl).trans (ht.anchored_newOwner hh (by decide))
  | getFunction v => exact (anchors_iff_newOwner rfl rfl).trans (ht.anchored_newOwner hh (by decide))
  | getUserData v => exact (anchors_iff_newOwner rfl rfl).trans (ht.anchored_newOwner hh (by decide))
  | newCSFunction f =>
      refine iff_of_true (fun i s' hi _ => ?_) trivial
      obtain rfl := Option.some.inj hi
      trivial
  | _ => exact iff_of_true (fun i s' hi _ => absurd hi (by simp [recordedBy])) trivial

/-- **New wrappers run on an anchored thread, and no `LuaThread` is disposed twice, exactly** in
the runs whose steps meet the condition. -/
theorem anchors_iff_keepsAnchors (hh : h.Lawful) (es : List (ReferenceOwners.Event V)) :
    AllSteps (step h) (fun s e => NoSecondDispose s.owners e) initial es ∧
        AllSteps (step h) (Anchors h) initial es ↔
      AllSteps (step h) KeepsAnchors initial es :=
  allSteps_and.symm.trans (allSteps_iff_allSteps (I := Anchoring) (fun _ _ hs => hs.anchors_iff hh)
    (fun _ _ _ hs hok hstep => hs.step hh hok.1 hstep) anchoring_initial)

/-- A coroutine, a table that is obtained while it lives, and its `Dispose`. -/
theorem anchors_newThread_getTable :
    AllSteps (step firstBorder) (Anchors firstBorder) initial
      [.newThread 1, .getTable (some 2), .disposeThread 0 true] := by
  refine ((anchors_iff_keepsAnchors lawful_firstBorder _).mpr ?_).2
  refine ⟨⟨trivial, trivial⟩, fun s hs => ?_⟩
  obtain rfl := Option.some.inj hs
  refine ⟨⟨trivial, fun k o hk ho => ?_⟩, fun s hs => ?_⟩
  · obtain rfl := (isNewestThread_concat_thread (l := [])).mp hk
    obtain rfl := Option.some.inj ho
    rfl
  · obtain rfl := Option.some.inj hs
    refine ⟨⟨fun _ o ho => ?_, trivial⟩, fun _ _ => trivial⟩
    obtain rfl := Option.some.inj ho
    rfl

/-- A table that is obtained after the coroutine was disposed. -/
theorem anchors_fails :
    ¬ AllSteps (step firstBorder) (Anchors firstBorder) initial
      [.newThread 1, .disposeThread 0 true, .getTable (some 2)] := by
  intro hall
  obtain ⟨o, ho, hreleased, -⟩ := ((hall.2 _ rfl).2 _ rfl).1 (some 0) _ rfl rfl
  obtain rfl := Option.some.inj ho
  cases hreleased

end ThreadAnchors

end UnityLua
