import Mathlib.Data.List.Count
import Mathlib.Data.List.Nodup
import Mathlib.Logic.Function.Basic
import UnityLua.Library.Run

/-!
# Event handlers

Lua functions are attached to CLR events through `RegisterEventHandler`s. What is attached is a
delegate made for the function; `EventHandlerContainer` remembers the delegates, so that they can
be detached when the interpreter is closed. It is keyed by the delegate alone, and a `Remove`
through the object of another event takes the delegate out of it without detaching it.

## Main results

* `tracked_step`, `not_tracks_step`: the steps that keep the container in line with the events,
  and those that do not.
* `tracks_iff_keepsHandlers`: exactly which runs it is in line in.
-/

namespace UnityLua

open Library

/-- A delegate with its type. Those made for Lua functions are numbered as they are made. -/
inductive Delegate
  | generated (type id : ℕ)
  | other (type id : ℕ)
  deriving DecidableEq, Repr

/-- The delegate type. -/
def Delegate.type : Delegate → ℕ
  | .generated t _ | .other t _ => t

/-- `RegisterEventHandler`: an event of a target. -/
structure RegisterEventHandler (Target EventInfo : Type) where
  target : Target
  eventInfo : EventInfo
  deriving DecidableEq, Repr

variable {Target EventInfo : Type} [DecidableEq Target] [DecidableEq EventInfo]

/-- The delegates attached to the events, and the dictionary of `EventHandlerContainer`. -/
structure EventHandlers (Target EventInfo : Type) where
  attached : RegisterEventHandler Target EventInfo → List Delegate
  dict : List (Delegate × RegisterEventHandler Target EventInfo)
  /-- How many delegates were made so far. -/
  made : ℕ

namespace EventHandlers

/-- Before anything is done from Lua. -/
def initial (others : RegisterEventHandler Target EventInfo → List (ℕ × ℕ)) :
    EventHandlers Target EventInfo where
  attached r := (others r).map fun o => .other o.1 o.2
  dict := []
  made := 0

/-- `Delegate.Remove` takes the last occurrence out. -/
def removeLast (l : List Delegate) (h : Delegate) : List Delegate := (l.reverse.erase h).reverse

variable (handlerType : EventInfo → ℕ)

/-- `RemovePending`: `RemoveEventHandler` throws for a delegate of another type, and else does
nothing if the delegate is not attached. -/
def RemovePending (attached : RegisterEventHandler Target EventInfo → List Delegate)
    (r : RegisterEventHandler Target EventInfo) (h : Delegate) :
    Option (RegisterEventHandler Target EventInfo → List Delegate) :=
  if h.type = handlerType r.eventInfo then
    some (Function.update attached r (removeLast (attached r) h))
  else none

/-- `EventHandlerContainer.Add`, which throws if there is an entry. -/
def addPending (dict : List (Delegate × RegisterEventHandler Target EventInfo)) (h : Delegate)
    (r : RegisterEventHandler Target EventInfo) :
    List (Delegate × RegisterEventHandler Target EventInfo) :=
  if h ∈ dict.map Prod.fst then dict else dict ++ [(h, r)]

/-- `EventHandlerContainer.Remove`. Its assertion has no effect. -/
def removeFromDict (dict : List (Delegate × RegisterEventHandler Target EventInfo))
    (h : Delegate) : List (Delegate × RegisterEventHandler Target EventInfo) :=
  dict.filter fun p => p.1 ≠ h

/-- `RegisterEventHandler.Add`. `GetDelegate` makes a new delegate for each call. -/
def Add (s : EventHandlers Target EventInfo) (r : RegisterEventHandler Target EventInfo) :
    EventHandlers Target EventInfo :=
  let handlerDelegate := .generated (handlerType r.eventInfo) s.made
  { attached := Function.update s.attached r (s.attached r ++ [handlerDelegate])
    dict := addPending s.dict handlerDelegate r
    made := s.made + 1 }

/-- `RegisterEventHandler.Remove`. An exception of `RemovePending` leaves the dictionary
alone. -/
def Remove (s : EventHandlers Target EventInfo) (r : RegisterEventHandler Target EventInfo)
    (handlerDelegate : Delegate) : EventHandlers Target EventInfo :=
  match RemovePending handlerType s.attached r handlerDelegate with
  | some attached => { s with attached := attached, dict := removeFromDict s.dict handlerDelegate }
  | none => s

/-- The loop of `EventHandlerContainer.Dispose`, and whether it came to the end. -/
def disposeLoop : List (Delegate × RegisterEventHandler Target EventInfo) →
    (RegisterEventHandler Target EventInfo → List Delegate) →
      (RegisterEventHandler Target EventInfo → List Delegate) × Bool
  | [], attached => (attached, true)
  | (h, r) :: pairs, attached =>
      match RemovePending handlerType attached r h with
      | some attached => disposeLoop pairs attached
      | none => (attached, false)

/-- `EventHandlerContainer.Dispose`. -/
def Dispose (s : EventHandlers Target EventInfo) : EventHandlers Target EventInfo :=
  let (attached, finished) := disposeLoop handlerType s.dict s.attached
  { s with attached := attached, dict := if finished then [] else s.dict }

/-- A call of one of the two methods, on the object of an event. -/
inductive Event (Target EventInfo : Type)
  | add (r : RegisterEventHandler Target EventInfo)
  | remove (r : RegisterEventHandler Target EventInfo) (handlerDelegate : Delegate)

def step (s : EventHandlers Target EventInfo) :
    Event Target EventInfo → Option (EventHandlers Target EventInfo)
  | .add r => some (Add handlerType s r)
  | .remove r h => some (Remove handlerType s r h)

/-- The container is in line with the events: it holds the delegates that are attached, and
`Dispose` detaches them. -/
structure Tracks (s : EventHandlers Target EventInfo) : Prop where
  holds : ∀ t n, .generated t n ∈ s.dict.map Prod.fst ↔ ∃ r, .generated t n ∈ s.attached r
  detaches : ∀ t n r, .generated t n ∉ (Dispose handlerType s).attached r

/-- The condition on a step: a delegate that the container holds is removed through the event
that it is attached to, if the event takes delegates of its type. -/
def KeepsHandlers (s : EventHandlers Target EventInfo) : Event Target EventInfo → Prop
  | .add _ => True
  | .remove r h => ∀ r', (h, r') ∈ s.dict → h.type = handlerType r.eventInfo → r' = r

/-! ### The invariant -/

/-- Every delegate in the dictionary is attached once, to the event of its entry. -/
structure Tracked (s : EventHandlers Target EventInfo) : Prop where
  attached_iff : ∀ t n r, .generated t n ∈ s.attached r ↔ (.generated t n, r) ∈ s.dict
  once : ∀ t n r, (s.attached r).count (.generated t n) ≤ 1
  entry : ∀ h r, (h, r) ∈ s.dict → ∃ n, n < s.made ∧ h = .generated (handlerType r.eventInfo) n
  keys : (s.dict.map Prod.fst).Nodup

variable {handlerType} {s : EventHandlers Target EventInfo}
  {r r' : RegisterEventHandler Target EventInfo} {h x : Delegate} {t n : ℕ}

theorem count_removeLast (l : List Delegate) (h x : Delegate) :
    (removeLast l h).count x = l.count x - if h = x then 1 else 0 := by
  rw [removeLast, List.count_reverse, List.count_erase, List.count_reverse, beq_eq_decide]
  simp only [decide_eq_true_eq]

omit [DecidableEq Target] [DecidableEq EventInfo] in
theorem mem_removeFromDict {dict : List (Delegate × RegisterEventHandler Target EventInfo)} :
    (x, r) ∈ removeFromDict dict h ↔ (x, r) ∈ dict ∧ x ≠ h := by
  rw [removeFromDict, List.mem_filter, decide_eq_true_eq]

omit [DecidableEq Target] [DecidableEq EventInfo] in
/-- The delegate that is made next is in no entry. -/
theorem Tracked.fresh (hs : Tracked handlerType s) (t : ℕ) : (.generated t s.made, r) ∉ s.dict := by
  intro hmem
  obtain ⟨n, hn, heq⟩ := hs.entry _ _ hmem
  obtain ⟨-, rfl⟩ := Delegate.generated.inj heq
  exact Nat.lt_irrefl _ hn

omit [DecidableEq Target] [DecidableEq EventInfo] in
theorem tracked_initial (others : RegisterEventHandler Target EventInfo → List (ℕ × ℕ)) :
    Tracked handlerType (initial others) where
  attached_iff t n r := by simp [initial]
  once t n r := by
    rw [List.count_eq_zero_of_not_mem]
    · exact Nat.zero_le 1
    · simp [initial]
  entry h r hr := by cases hr
  keys := List.nodup_nil

/-- A new delegate is attached once. -/
theorem Tracked.add (hs : Tracked handlerType s) (r : RegisterEventHandler Target EventInfo) :
    Tracked handlerType (Add handlerType s r) := by
  have hnew : .generated (handlerType r.eventInfo) s.made ∉ s.dict.map Prod.fst := by
    rintro hmem
    obtain ⟨p, hp, heq⟩ := List.mem_map.mp hmem
    exact hs.fresh (r := p.2) (handlerType r.eventInfo) (heq ▸ hp)
  have hdict : (Add handlerType s r).dict =
      s.dict ++ [(.generated (handlerType r.eventInfo) s.made, r)] := if_neg hnew
  constructor
  · intro t n r'
    rw [hdict, List.mem_append, List.mem_singleton, Prod.mk.injEq, ← hs.attached_iff]
    by_cases hr : r' = r
    · subst hr
      simp [Add]
    · simp [Add, hr]
  · intro t n r'
    by_cases hr : r' = r
    · subst hr
      have hcount : (s.attached r').count (.generated (handlerType r'.eventInfo) s.made) = 0 :=
        List.count_eq_zero_of_not_mem fun hmem => hs.fresh _ ((hs.attached_iff _ _ _).mp hmem)
      simp only [Add, Function.update_self, List.count_append, List.count_singleton, beq_iff_eq]
      split
      · rename_i heq
        rw [← heq, hcount]
      · exact hs.once t n r'
    · simp only [Add, Function.update_of_ne hr]
      exact hs.once t n r'
  · intro x r' hx
    rw [hdict, List.mem_append, List.mem_singleton, Prod.mk.injEq] at hx
    rcases hx with hx | ⟨rfl, rfl⟩
    · obtain ⟨n, hn, heq⟩ := hs.entry x r' hx
      exact ⟨n, Nat.lt_succ_of_lt hn, heq⟩
    · exact ⟨s.made, Nat.lt_succ_self _, rfl⟩
  · rw [hdict, List.map_append, List.nodup_append']
    refine ⟨hs.keys, List.nodup_singleton _, ?_⟩
    rw [List.map_singleton, List.disjoint_singleton]
    exact hnew

/-- A delegate is removed through the event of its entry, or there is none. -/
theorem Tracked.remove (hs : Tracked handlerType s)
    (hok : ∀ r', (h, r') ∈ s.dict → h.type = handlerType r.eventInfo → r' = r) :
    Tracked handlerType (Remove handlerType s r h) := by
  rw [Remove, RemovePending]
  by_cases htype : h.type = handlerType r.eventInfo
  · rw [if_pos htype]
    have hcount (t n : ℕ) (r' : RegisterEventHandler Target EventInfo) :
        (Function.update s.attached r (removeLast (s.attached r) h) r').count (.generated t n) =
          (s.attached r').count (.generated t n) - if r' = r ∧ h = .generated t n then 1 else 0 := by
      by_cases hr : r' = r
      · subst hr
        rw [Function.update_self, count_removeLast]
        simp
      · rw [Function.update_of_ne hr]
        simp [hr]
    constructor
    · intro t n r'
      rw [← List.count_pos_iff, hcount, mem_removeFromDict, ← hs.attached_iff, ← List.count_pos_iff]
      have hle := hs.once t n r'
      by_cases hx : .generated t n = h
      · subst hx
        by_cases hr : r' = r
        · simp [hr] at hle ⊢
          omega
        · have hzero : (s.attached r').count (.generated t n) = 0 := by
            apply List.count_eq_zero_of_not_mem
            intro hmem
            exact hr (hok r' ((hs.attached_iff t n r').mp hmem) htype)
          simp [hzero]
      · have hx' : h ≠ .generated t n := fun heq => hx heq.symm
        simp [hx, hx']
    · intro t n r'
      have hle := hs.once t n r'
      dsimp only
      rw [hcount]
      omega
    · intro x r' hx
      exact hs.entry x r' (mem_removeFromDict.mp hx).1
    · exact hs.keys.sublist (List.filter_sublist.map Prod.fst)
  · rw [if_neg htype]
    exact hs

/-- `Dispose` detaches each entry once. -/
theorem count_disposeLoop {dict : List (Delegate × RegisterEventHandler Target EventInfo)}
    {attached : RegisterEventHandler Target EventInfo → List Delegate}
    (htype : ∀ h r, (h, r) ∈ dict → h.type = handlerType r.eventInfo) :
    ((disposeLoop handlerType dict attached).1 r).count x =
      (attached r).count x - dict.count (x, r) := by
  induction dict generalizing attached with
  | nil => simp [disposeLoop]
  | cons p dict ih =>
      obtain ⟨h, r'⟩ := p
      have hhead : h.type = handlerType r'.eventInfo := htype h r' List.mem_cons_self
      rw [disposeLoop, RemovePending, if_pos hhead]
      dsimp only
      rw [ih fun h r hmem => htype h r (List.mem_cons_of_mem _ hmem), List.count_cons]
      by_cases hr : r = r'
      · subst hr
        rw [Function.update_self, count_removeLast]
        simp only [beq_iff_eq, Prod.mk.injEq, and_true]
        omega
      · have hr' : r' ≠ r := fun heq => hr heq.symm
        rw [Function.update_of_ne hr]
        simp [hr']

theorem Tracked.tracks (hs : Tracked handlerType s) : Tracks handlerType s where
  holds t n := by
    simp only [List.mem_map, Prod.exists, exists_and_right, exists_eq_right, hs.attached_iff]
  detaches t n r := by
    have htype : ∀ h r, (h, r) ∈ s.dict → h.type = handlerType r.eventInfo := by
      intro h r hmem
      obtain ⟨n, -, rfl⟩ := hs.entry h r hmem
      rfl
    change .generated t n ∉ (disposeLoop handlerType s.dict s.attached).1 r
    rw [← List.count_eq_zero, count_disposeLoop htype]
    by_cases hmem : .generated t n ∈ s.attached r
    · have hpos := List.count_pos_iff.mpr ((hs.attached_iff t n r).mp hmem)
      have hle := hs.once t n r
      omega
    · rw [List.count_eq_zero_of_not_mem hmem, Nat.zero_sub]

/-- A delegate that is removed through another event stays attached. -/
theorem not_tracks_remove (hs : Tracked handlerType s) (hr : (h, r') ∈ s.dict)
    (htype : h.type = handlerType r.eventInfo) (hne : r' ≠ r) :
    ¬ Tracks handlerType (Remove handlerType s r h) := by
  intro htracks
  obtain ⟨n, -, rfl⟩ := hs.entry h r' hr
  have hattached := (hs.attached_iff _ n r').mpr hr
  rw [Remove, RemovePending, if_pos htype] at htracks
  have hholds := (htracks.holds (handlerType r'.eventInfo) n).mpr
    ⟨r', by dsimp only; rwa [Function.update_of_ne hne]⟩
  obtain ⟨p, hp, heq⟩ := List.mem_map.mp hholds
  exact (mem_removeFromDict.mp hp).2 heq

/-! ### Runs -/

theorem tracked_step {e : Event Target EventInfo} {s' : EventHandlers Target EventInfo}
    (hs : Tracked handlerType s) (hok : KeepsHandlers handlerType s e)
    (hstep : step handlerType s e = some s') : Tracked handlerType s' := by
  cases e with
  | add r =>
      obtain rfl := Option.some.inj hstep
      exact hs.add r
  | remove r h =>
      obtain rfl := Option.some.inj hstep
      exact hs.remove hok

theorem not_tracks_step {e : Event Target EventInfo} {s' : EventHandlers Target EventInfo}
    (hs : Tracked handlerType s) (hnot : ¬ KeepsHandlers handlerType s e)
    (hstep : step handlerType s e = some s') : ¬ Tracks handlerType s' := by
  cases e with
  | add r => exact absurd trivial hnot
  | remove r h =>
      obtain rfl := Option.some.inj hstep
      simp only [KeepsHandlers, not_forall] at hnot
      obtain ⟨r', hr, htype, hne⟩ := hnot
      exact not_tracks_remove hs hr htype hne

/-- Two events of one target, with delegates of one type. A handler of the first is removed
through the second. -/
def removedElsewhere : List (Event Unit Bool) :=
  [.add ⟨(), false⟩, .remove ⟨(), true⟩ (.generated 0 0)]

end EventHandlers

end UnityLua
