import Mathlib.Data.Nat.Notation
import Mathlib.Data.Int.Notation
import UnityLua.Library.Run

/-!
# Closing an interpreter

What the application calls when it is done with an interpreter: `Close`, `Dispose`, and the
`Dispose` of wrappers and coroutines, in any order. `Close` looks at the handle `L`, which is
never set to zero; a wrapper looks at its flag and at the handle; a coroutine looks at nothing.

## Main results

* `callsOf_eq_nil_iff`: which calls reach the Lua library.
* `noUseAfterClose_iff_closedLast`: exactly which sequences use nothing after `lua_close`.
-/

namespace UnityLua

open Library

/-- The calls of the Lua library, on a state or one of its coroutines. -/
inductive ApiCall
  | lua_close (L : ℕ)
  | luaL_unref (L : ℕ) (reference : ℤ)
  deriving DecidableEq, Repr

/-- A `LuaTable`, `LuaFunction` or `LuaUserData`: its reference, its flag, and the handle of its
interpreter, which is the state or a coroutine of it. -/
structure LuaBase where
  reference : ℤ
  disposed : Bool
  L : ℕ
  deriving DecidableEq, Repr

/-- A `LuaThread` with its own handle, and that of its parent. -/
structure LuaThread where
  L : ℕ
  parentL : ℕ
  threadRef : ℤ
  deriving DecidableEq, Repr

/-- An interpreter with what belongs to it, and the calls so far. -/
structure Interpreter where
  L : ℕ
  hasTranslator : Bool
  wrappers : List LuaBase
  threads : List LuaThread
  calls : List ApiCall
  deriving DecidableEq, Repr

namespace Interpreter

/-- `LuaState.Close` or `LuaThread.Close`, of the handle. -/
def close (L : ℕ) : List ApiCall := if L ≠ 0 then [.lua_close L] else []

/-- `LuaState.dispose(int reference)`, of the handle. -/
def dispose (L : ℕ) (reference : ℤ) : List ApiCall :=
  if L ≠ 0 then [.luaL_unref L reference] else []

/-- `LuaBase.Dispose(bool)`: the calls. -/
def disposeWrapper (w : LuaBase) (disposeManagedResources : Bool) : List ApiCall :=
  if w.disposed then []
  else if disposeManagedResources then
    if w.reference ≠ 0 then dispose w.L w.reference else []
  else []

/-- `LuaThread.Dispose(bool)`, on the handle of the parent. -/
def disposeThread (t : LuaThread) (dispose : Bool) : List ApiCall :=
  if dispose then [.luaL_unref t.parentL t.threadRef] else []

/-- A call of the application; `Close` may be called on a coroutine as well. -/
inductive Event
  | close
  | closeThread (k : ℕ)
  | dispose (dispose : Bool)
  | disposeWrapper (k : ℕ) (disposeManagedResources : Bool)
  | disposeThread (k : ℕ) (dispose : Bool)

/-- The calls of the Lua library that an event makes; `none` where there is no such object.
`LuaState.Dispose` detaches the event handlers and makes none. -/
def callsOf (s : Interpreter) : Event → Option (List ApiCall)
  | .close => some (Interpreter.close s.L)
  | .closeThread k => (s.threads[k]?).map fun t => Interpreter.close t.L
  | .dispose _ => some []
  | .disposeWrapper k managed =>
      (s.wrappers[k]?).map fun w => Interpreter.disposeWrapper w managed
  | .disposeThread k dispose =>
      (s.threads[k]?).map fun t => Interpreter.disposeThread t dispose

/-- What an event changes on the side of the application. -/
def update (s : Interpreter) : Event → Interpreter
  | .dispose true => { s with hasTranslator := false }
  | .disposeWrapper k _ =>
      { s with wrappers := s.wrappers.modify k fun w => { w with disposed := true } }
  | _ => s

def step (s : Interpreter) (e : Event) : Option Interpreter :=
  (s.callsOf e).map fun calls => { s.update e with calls := s.calls ++ calls }

/-- A state that is in use. -/
def initial (L : ℕ) (wrappers : List LuaBase) (threads : List LuaThread) : Interpreter where
  L := L
  hasTranslator := true
  wrappers := wrappers
  threads := threads
  calls := []

/-- The state was closed. -/
def Closed (s : Interpreter) : Prop := ∃ L, .lua_close L ∈ s.calls

/-- `lua_close` is called once at most, and nothing is called behind it. -/
structure NoUseAfterClose (s : Interpreter) : Prop where
  once : (s.calls.filter fun c => c matches .lua_close _).length ≤ 1
  last : ∀ before L after, s.calls = before ++ .lua_close L :: after → after = []

/-- The condition on a step: behind the first `Close` there is no other, no coroutine is disposed,
and no wrapper is disposed that still holds a reference. -/
def ClosedLast (s : Interpreter) : Event → Prop
  | .close => s.Closed → s.L = 0
  | .closeThread k => s.Closed → ∀ t, s.threads[k]? = some t → t.L = 0
  | .dispose _ => True
  | .disposeWrapper k managed => s.Closed → managed = true →
      ∀ w, s.wrappers[k]? = some w → w.disposed = true ∨ w.reference = 0 ∨ w.L = 0
  | .disposeThread _ dispose => s.Closed → dispose = false

/-- An event behind the first `Close` makes no call exactly when it meets the condition. -/
theorem callsOf_eq_nil_iff {s : Interpreter} {e : Event} {calls : List ApiCall}
    (h : s.callsOf e = some calls) (hclosed : s.Closed) : calls = [] ↔ s.ClosedLast e := by
  cases e with
  | close =>
      obtain rfl := Option.some.inj h
      simp [ClosedLast, hclosed, Interpreter.close]
  | closeThread k =>
      obtain ⟨t, ht, rfl⟩ := Option.map_eq_some_iff.mp h
      simp [ClosedLast, hclosed, ht, Interpreter.close]
  | dispose d =>
      obtain rfl := Option.some.inj h
      simp [ClosedLast]
  | disposeWrapper k managed =>
      obtain ⟨w, hw, rfl⟩ := Option.map_eq_some_iff.mp h
      cases hd : w.disposed with
      | true => simp [ClosedLast, hw, hd, Interpreter.disposeWrapper]
      | false =>
          cases managed with
          | false => simp [ClosedLast, Interpreter.disposeWrapper]
          | true =>
              by_cases hr : w.reference = 0 <;>
                simp [ClosedLast, hclosed, hw, hd, hr, Interpreter.disposeWrapper,
                  Interpreter.dispose]
  | disposeThread k d =>
      obtain ⟨t, ht, rfl⟩ := Option.map_eq_some_iff.mp h
      cases d <;> simp [ClosedLast, hclosed, Interpreter.disposeThread]

/-- As long as the state is open, an event meets the condition. -/
theorem closedLast_of_not_closed {s : Interpreter} (e : Event) (h : ¬ s.Closed) :
    s.ClosedLast e := by
  cases e <;> simp [ClosedLast, h]

/-- An event makes one call at most. -/
theorem length_callsOf {s : Interpreter} {e : Event} {calls : List ApiCall}
    (h : s.callsOf e = some calls) : calls.length ≤ 1 := by
  cases e with
  | close =>
      obtain rfl := Option.some.inj h
      unfold Interpreter.close
      split <;> simp
  | closeThread k =>
      obtain ⟨t, -, rfl⟩ := Option.map_eq_some_iff.mp h
      unfold Interpreter.close
      split <;> simp
  | dispose d =>
      obtain rfl := Option.some.inj h
      simp
  | disposeWrapper k managed =>
      obtain ⟨w, -, rfl⟩ := Option.map_eq_some_iff.mp h
      unfold Interpreter.disposeWrapper Interpreter.dispose
      split_ifs <;> simp
  | disposeThread k d =>
      obtain ⟨t, -, rfl⟩ := Option.map_eq_some_iff.mp h
      unfold Interpreter.disposeThread
      split <;> simp

/-- What a step does to the calls. -/
theorem calls_step {s s' : Interpreter} {e : Event} (h : step s e = some s') :
    ∃ calls, s.callsOf e = some calls ∧ s'.calls = s.calls ++ calls := by
  obtain ⟨calls, hcalls, rfl⟩ := Option.map_eq_some_iff.mp h
  exact ⟨calls, hcalls, rfl⟩

theorem filter_close_eq_nil {s : Interpreter} (h : ¬ s.Closed) :
    (s.calls.filter fun c => c matches .lua_close _) = [] := by
  refine List.filter_eq_nil_iff.mpr fun c hc => ?_
  cases c with
  | lua_close L => exact absurd ⟨L, hc⟩ h
  | luaL_unref L reference => simp

/-- Before `lua_close` anything may be called. -/
theorem noUseAfterClose_of_not_closed {s : Interpreter} (h : ¬ s.Closed) :
    s.NoUseAfterClose where
  once := by
    simp [filter_close_eq_nil h]
  last := by
    intro before L after heq
    exact absurd ⟨L, by simp [heq]⟩ h

/-- One more call of an open state is no use after `lua_close`, whichever it is. -/
theorem noUseAfterClose_append {s s' : Interpreter} {calls : List ApiCall} (h : ¬ s.Closed)
    (hlen : calls.length ≤ 1) (heq : s'.calls = s.calls ++ calls) : s'.NoUseAfterClose := by
  have hopen := noUseAfterClose_of_not_closed h
  match calls, hlen with
  | [], _ =>
      rw [List.append_nil] at heq
      exact ⟨heq ▸ hopen.once, heq ▸ hopen.last⟩
  | [c], _ =>
      constructor
      · rw [heq, List.filter_append, filter_close_eq_nil h, List.nil_append]
        exact List.length_filter_le _ [c]
      · intro before L after hsplit
        rcases List.eq_nil_or_concat after with rfl | ⟨init, last, rfl⟩
        · rfl
        · -- the last call is `c`, so that `lua_close` is among those before it
          rw [heq, List.concat_eq_append, ← List.cons_append, ← List.append_assoc] at hsplit
          have hinit := (List.append_inj' hsplit rfl).1
          exact absurd ⟨L, by simp [hinit]⟩ h

/-- A call behind `lua_close` is a use after it. -/
theorem not_noUseAfterClose_append {s s' : Interpreter} {calls : List ApiCall}
    (h : s.Closed) (hne : calls ≠ []) (heq : s'.calls = s.calls ++ calls) :
    ¬ s'.NoUseAfterClose := by
  intro hsafe
  obtain ⟨L, hL⟩ := h
  obtain ⟨before, after, hsplit⟩ := List.append_of_mem hL
  have hnil := hsafe.last before L (after ++ calls) (by rw [heq, hsplit]; simp)
  exact hne (List.append_eq_nil_iff.mp hnil).2

/-- **No use after close, exactly.** -/
theorem noUseAfterClose_iff_closedLast (L : ℕ) (wrappers : List LuaBase)
    (threads : List LuaThread) {es : List Event} {t : Interpreter}
    (hrun : run step (initial L wrappers threads) es = some t) :
    Throughout step NoUseAfterClose (initial L wrappers threads) es ↔
      AllSteps step ClosedLast (initial L wrappers threads) es := by
  refine throughout_iff_allSteps (I := NoUseAfterClose) (B := fun _ => True)
    (A := fun _ => True) (fun _ h => h) (fun _ _ _ _ _ => trivial) ?_ ?_ hrun
    (fun _ _ => trivial) ?_ trivial
  · intro s e s' _ hI hok hs _
    obtain ⟨calls, hcalls, heq⟩ := calls_step hs
    by_cases hclosed : s.Closed
    · obtain rfl := (callsOf_eq_nil_iff hcalls hclosed).mpr hok
      rw [List.append_nil] at heq
      exact ⟨heq ▸ hI.once, heq ▸ hI.last⟩
    · exact noUseAfterClose_append hclosed (length_callsOf hcalls) heq
  · intro s e s' _ _ hok hs _
    obtain ⟨calls, hcalls, heq⟩ := calls_step hs
    have hclosed : s.Closed := by
      by_contra hopen
      exact hok (closedLast_of_not_closed e hopen)
    exact not_noUseAfterClose_append hclosed
      (fun hnil => hok ((callsOf_eq_nil_iff hcalls hclosed).mp hnil)) heq
  · exact noUseAfterClose_of_not_closed (by simp [Closed, initial])

/-- A table is disposed before the state is closed. -/
theorem noUseAfterClose_dispose_close :
    Throughout step NoUseAfterClose (initial 1 [⟨3, false, 1⟩] [])
      [.disposeWrapper 0 true, .close, .dispose true] :=
  (noUseAfterClose_iff_closedLast 1 [⟨3, false, 1⟩] [] rfl).mpr
    ⟨by simp [ClosedLast, Closed, initial],
      fun _ h => by
        obtain rfl := Option.some.inj h
        refine ⟨by simp [ClosedLast, Closed, initial, disposeWrapper, Interpreter.dispose], ?_⟩
        exact fun _ h => ⟨trivial, fun _ _ => trivial⟩⟩

/-- The state is closed and closed again. -/
theorem noUseAfterClose_fails :
    ¬ ∀ (L : ℕ) (wrappers : List LuaBase) (threads : List LuaThread) (es : List Event)
        (t : Interpreter), run step (initial L wrappers threads) es = some t →
        t.NoUseAfterClose := by
  intro h
  have hsafe := h 1 [] [] [.close, .close] _ rfl
  exact absurd (hsafe.last [] 1 [.lua_close 1] rfl) (by simp)

end Interpreter

end UnityLua
