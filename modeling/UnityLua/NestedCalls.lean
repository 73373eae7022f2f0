import UnityLua.CachedCalls
import UnityLua.Library.Activations
import UnityLua.SuccessfulMatch

/-!
# Calls inside calls

`LuaMethodWrapper.call` of a wrapper made for a name, where the method that is called may call
back into Lua and from there the same wrapper again. All activations share the field
`_LastCalledMethod`: a call reads its result list and its argument array from the field again
after `Invoke` has returned. The argument arrays are objects, given here by their numbers, so
that a call on the fast path works on the array of the call that it repeats.

## Main results

* `enterByName_models`: a call whose body makes no calls goes as in the model of single calls.
* `ownAnswers_of_undisturbed`: every call gives its own answer, if no call inside it matches an
  overload anew, or neither overload has outgoing parameters.
-/

namespace UnityLua

open Library

variable {N Obj : Type}

/-- `_LastCalledMethod`, with the number of its argument array. -/
structure LastCalled (N Obj : Type) where
  cachedMethod : MethodBase N Obj
  args : ℕ
  outList : List ℕ
  argTypes : List MethodArgs

/-- What the activations of a wrapper share: the argument arrays made so far and the field. -/
structure Shared (N Obj : Type) where
  arrays : List (List (Option (ClrValue N Obj)))
  last : Option (LastCalled N Obj)

namespace Shared

/-- A new wrapper. -/
def initial : Shared N Obj where
  arrays := []
  last := none

def array (s : Shared N Obj) (k : ℕ) : List (Option (ClrValue N Obj)) := (s.arrays[k]?).getD []

def setArray (s : Shared N Obj) (k : ℕ) (args : List (Option (ClrValue N Obj))) : Shared N Obj :=
  { s with arrays := s.arrays.set k args }

/-- A match is put into the field, with a new array. -/
def remember (s : Shared N Obj) (c : MethodCache N Obj) : Shared N Obj where
  arrays := s.arrays ++ [c.args]
  last := some { cachedMethod := c.cachedMethod, args := s.arrays.length, outList := c.outList
                 argTypes := c.argTypes }

/-- The content of the field, with the array that it refers to. -/
def deref (s : Shared N Obj) (l : LastCalled N Obj) : MethodCache N Obj where
  cachedMethod := l.cachedMethod
  args := s.array l.args
  outList := l.outList
  argTypes := l.argTypes

def cache (s : Shared N Obj) : Option (MethodCache N Obj) := s.last.map s.deref

/-- The end of `call`, which reads the field. -/
def returnValues (s : Shared N Obj) (value : Option (ClrValue N Obj)) :
    List (Option (ClrValue N Obj)) :=
  match s.cache with
  | some c => UnityLua.returnValues c value
  | none => [value]

end Shared

/-! ### One call -/

/-- A call from Lua. -/
structure LuaCall (N Obj : Type) where
  env : CallEnv N Obj
  slots : List (LuaValue N)

/-- A method body that runs: what it was given, the array that `Invoke` writes back to, and how it
ends, with its value and parameters or with an exception. -/
structure Invocation (N Obj : Type) where
  method : MethodBase N Obj
  target : Option (ClrValue N Obj)
  inputs : List (Option (ClrValue N Obj))
  array : ℕ
  ending : Except ℕ (Option (ClrValue N Obj) × (ℕ → Option (ClrValue N Obj)))

/-- A call up to `Invoke`: the overload that was matched anew, if any, the answer of a call that
runs no body, or the body, and the state. -/
structure Entered (N Obj : Type) where
  found : Option (MethodCache N Obj) := none
  next : CallResult N Obj ⊕ Invocation N Obj
  state : Shared N Obj

/-- `Invoke` with what the field holds, the array of which is number `k`, starts the body unless
it refuses the arguments. -/
def startInvoke (env : CallEnv N Obj) (isStatic : Bool) (target : Option (ClrValue N Obj))
    (c : MethodCache N Obj) (k : ℕ) : Except Exn (Invocation N Obj) :=
  let target := if isStatic || c.cachedMethod.isConstructor then none else target
  let args := inputs c.cachedMethod.parameters c.args
  let body := fun ending =>
    { method := c.cachedMethod, target := target, inputs := args, array := k, ending := ending }
  match env.invoke c.cachedMethod target args with
  | .returned value parameters => .ok (body (.ok (value, parameters)))
  | .threw e => .ok (body (.error e))
  | .refused e => .error e

/-- After a cache miss; `args` are the slots behind the receiver. -/
def enterSlow (env : CallEnv N Obj) (w : LuaMethodWrapper N Obj) (target : Option (ClrValue N Obj))
    (args : List (LuaValue N)) (s : Shared N Obj) : Entered N Obj :=
  if w.isStatic = false ∧ target.isNone then
    { next := .inl (.error (.message ("instance method '" ++ w.methodName ++
        "' requires a non null target object")))
      state := s }
  else
    match matchMembers env.toLuaEnv w.members args with
    | .error e => { next := .inl (.exception e), state := s }
    | .ok (none, _) => { next := .inl (.error (.message (noMatch w.members))), state := s }
    | .ok (some c, _) =>
        let s' := s.remember c
        match startInvoke env w.isStatic target c s.arrays.length with
        | .ok b => { found := some c, next := .inr b, state := s' }
        | .error e => { found := some c, next := .inl (.error (.exception e)), state := s' }

/-- The `try` for a cached match up to `Invoke`, with the slots and the state it leaves. -/
def startCached (env : CallEnv N Obj) (isStatic : Bool) (l : LastCalled N Obj)
    (target : Option (ClrValue N Obj)) (args : List (LuaValue N)) (s : Shared N Obj) :
    Except Exn (Invocation N Obj) × List (LuaValue N) × Shared N Obj :=
  let (e, args, converted) := fastArgs env.toLuaEnv 0 l.argTypes args (s.array l.args)
  let s := s.setArray l.args converted
  match e with
  | some e => (.error e, args, s)
  | none => (startInvoke env isStatic target (s.deref l) l.args, args, s)

/-- With a match in the field for the number of arguments. -/
def enterFast (env : CallEnv N Obj) (w : LuaMethodWrapper N Obj) (l : LastCalled N Obj)
    (target : Option (ClrValue N Obj)) (args : List (LuaValue N)) (s : Shared N Obj) :
    Entered N Obj :=
  match startCached env w.isStatic l target args s with
  | (.ok b, _, s) => { next := .inr b, state := s }
  | (.error e, args, s) =>
      if w.members.length = 1 then { next := .inl (.error (.exception e)), state := s }
      else enterSlow env w target args s

/-- A call by name up to `Invoke`. -/
def enterByName (w : LuaMethodWrapper N Obj) (call : LuaCall N Obj) (s : Shared N Obj) :
    Entered N Obj :=
  match w.receiver call.env call.slots with
  | .error e => { next := .inl (.exception e), state := s }
  | .ok target =>
      match s.last with
      | none => enterSlow call.env w target (w.arguments call.slots) s
      | some l =>
          if w.numArgsPassed call.slots = l.argTypes.length then
            enterFast call.env w l target (w.arguments call.slots) s
          else enterSlow call.env w target (w.arguments call.slots) s

/-- A call from the return of the body on. -/
def leave (b : Invocation N Obj) (s : Shared N Obj) : CallResult N Obj × Shared N Obj :=
  match b.ending with
  | .error e => (.error (.exception (.thrown e)), s)
  | .ok (value, parameters) =>
      let s := s.setArray b.array (writeBack parameters 0 b.method.parameters (s.array b.array))
      (.values (s.returnValues value), s)

/-- The calls of a wrapper. A call is marked with the result list of a match that it makes. -/
def LuaMethodWrapper.caller (w : LuaMethodWrapper N Obj) :
    Caller (Shared N Obj) (LuaCall N Obj) (Invocation N Obj) (CallResult N Obj) (List ℕ) where
  enter call s := ((enterByName w call s).next, (enterByName w call s).state)
  leave := leave
  mark call s := ((enterByName w call s).found.map MethodCache.outList).toList

/-! ### The shared state -/

namespace Shared

variable {s : Shared N Obj} {k j : ℕ} {args : List (Option (ClrValue N Obj))}

theorem array_setArray_self (hk : k < s.arrays.length) : (s.setArray k args).array k = args := by
  rw [array, setArray, List.getElem?_set_self hk]
  rfl

theorem array_setArray_ne (h : k ≠ j) : (s.setArray k args).array j = s.array j := by
  rw [array, setArray, List.getElem?_set_ne h]
  rfl

theorem length_setArray : (s.setArray k args).arrays.length = s.arrays.length :=
  List.length_set

theorem deref_setArray_self {l : LastCalled N Obj} (hl : l.args < s.arrays.length) :
    (s.setArray l.args args).deref l = { s.deref l with args := args } := by
  rw [deref, array_setArray_self hl]
  rfl

theorem cache_setArray {l : LastCalled N Obj} (hlast : s.last = some l)
    (hl : l.args < s.arrays.length) :
    (s.setArray l.args args).cache = some { s.deref l with args := args } := by
  have hlast' : (s.setArray l.args args).last = some l := hlast
  rw [cache, hlast', Option.map_some, deref_setArray_self hl]

theorem deref_remember (s : Shared N Obj) (c : MethodCache N Obj) :
    (s.remember c).deref { cachedMethod := c.cachedMethod, args := s.arrays.length
                           outList := c.outList, argTypes := c.argTypes } = c := by
  have harray : (s.remember c).array s.arrays.length = c.args := by
    rw [array, remember, List.getElem?_concat_length]
    rfl
  rw [deref, harray]

theorem cache_remember (s : Shared N Obj) (c : MethodCache N Obj) :
    (s.remember c).cache = some c := congrArg some (deref_remember s c)

theorem returnValues_of_cache {c : MethodCache N Obj} (h : s.cache = some c)
    (value : Option (ClrValue N Obj)) : s.returnValues value = UnityLua.returnValues c value := by
  rw [returnValues, h]

/-- The field refers to an array that there is, and what it holds is a match. -/
def Ok (s : Shared N Obj) : Prop :=
  ∀ l, s.last = some l → l.args < s.arrays.length ∧ ∃ us, Cached (s.deref l) us

end Shared

/-! ### A call whose body makes no calls -/

/-- The answer of a call whose body makes no calls, and the state after it. -/
def Entered.finish (e : Entered N Obj) : CallResult N Obj × Shared N Obj :=
  match e.next with
  | .inl r => (r, e.state)
  | .inr b => leave b e.state

/-- Both models of a single call come to the same. -/
def Entered.Models (e : Entered N Obj) (o : Outcome N Obj × Option (MethodCache N Obj)) : Prop :=
  e.finish.1 = o.1.result ∧ e.finish.2.cache = o.2

section Leaf

variable {env : CallEnv N Obj} {w : LuaMethodWrapper N Obj} {isStatic : Bool}
  {target : Option (ClrValue N Obj)} {args : List (LuaValue N)} {s : Shared N Obj}

/-- `Invoke` refuses the arguments. -/
theorem invokeCached_of_refused {c : MethodCache N Obj} {k : ℕ} {e : Exn}
    (h : startInvoke env isStatic target c k = .error e) :
    invokeCached env isStatic target c = .error e := by
  simp only [startInvoke] at h
  split at h
  · cases h
  · cases h
  · rename_i hinvoke
    injection h with h
    simp only [invokeCached, hinvoke, h]

/-- A body that makes no calls is left as it was started. -/
theorem invokeCached_of_started {l : LastCalled N Obj} (hlast : s.last = some l)
    (hl : l.args < s.arrays.length) {c : MethodCache N Obj} (hc : s.deref l = c)
    {b : Invocation N Obj} (h : startInvoke env isStatic target c l.args = .ok b) :
    ∃ o c', invokeCached env isStatic target c = .ok (o, c') ∧
      (leave b s).1 = o.result ∧ (leave b s).2.cache = some c' := by
  simp only [startInvoke] at h
  split at h
  · rename_i value parameters hinvoke
    injection h with h
    simp only [invokeCached, hinvoke]
    subst hc h
    have hcache : (s.setArray l.args (writeBack parameters 0 l.cachedMethod.parameters
        (s.array l.args))).cache = some _ := Shared.cache_setArray hlast hl
    have hanswer := congrArg CallResult.values (Shared.returnValues_of_cache hcache value)
    exact ⟨_, _, rfl, hanswer, hcache⟩
  · rename_i e hinvoke
    injection h with h
    simp only [invokeCached, hinvoke]
    subst h
    refine ⟨_, _, rfl, rfl, ?_⟩
    change s.cache = some c
    rw [Shared.cache, hlast, ← hc]
    rfl
  · cases h

theorem enterSlow_models : (enterSlow env w target args s).Models
    (slowPath env w s.cache target args) := by
  rw [enterSlow, slowPath]
  by_cases hreceiver : w.isStatic = false ∧ target.isNone
  · rw [if_pos hreceiver, if_pos hreceiver]
    exact ⟨rfl, rfl⟩
  · rw [if_neg hreceiver, if_neg hreceiver]
    cases hmatch : matchMembers env.toLuaEnv w.members args with
    | error e => exact ⟨rfl, rfl⟩
    | ok r =>
        obtain ⟨found, slots⟩ := r
        cases found with
        | none => exact ⟨rfl, rfl⟩
        | some c =>
            have hlt : s.arrays.length < (s.remember c).arrays.length := by
              simp [Shared.remember]
            dsimp only
            rw [invokeMatched]
            cases hstart : startInvoke env w.isStatic target c s.arrays.length with
            | error e =>
                rw [invokeCached_of_refused hstart]
                exact ⟨rfl, Shared.cache_remember s c⟩
            | ok b =>
                obtain ⟨o, c', hinvoke, hanswer, hcache⟩ :=
                  invokeCached_of_started (s := s.remember c) rfl hlt
                    (Shared.deref_remember s c) hstart
                rw [hinvoke]
                exact ⟨hanswer, hcache⟩

/-- The fast path gives up in both models. -/
theorem enterSlow_models_of_error {c : MethodCache N Obj} (hcache : s.cache = some c) (e : Exn) :
    Entered.Models
      (if w.members.length = 1 then { next := .inl (.error (.exception e)), state := s }
       else enterSlow env w target args s)
      (if w.members.length = 1 then (⟨[], .error (.exception e)⟩, some c)
       else slowPath env w (some c) target args) := by
  split
  · exact ⟨rfl, hcache⟩
  · rw [← hcache]
    exact enterSlow_models

theorem enterFast_models {l : LastCalled N Obj} (hlast : s.last = some l)
    (hl : l.args < s.arrays.length) :
    (enterFast env w l target args s).Models (fastPath env w (s.deref l) target args) := by
  rw [enterFast, fastPath, startCached, tryCached]
  have hfast : fastArgs env.toLuaEnv 0 (s.deref l).argTypes args (s.deref l).args =
      fastArgs env.toLuaEnv 0 l.argTypes args (s.array l.args) := rfl
  rw [hfast]
  generalize fastArgs env.toLuaEnv 0 l.argTypes args (s.array l.args) = fast
  obtain ⟨e, args', converted⟩ := fast
  have hl' : l.args < (s.setArray l.args converted).arrays.length := by
    rw [Shared.length_setArray]
    exact hl
  have hderef : (s.setArray l.args converted).deref l = { s.deref l with args := converted } :=
    Shared.deref_setArray_self hl
  have hcache : (s.setArray l.args converted).cache = some { s.deref l with args := converted } :=
    Shared.cache_setArray hlast hl
  dsimp only at hderef hcache ⊢
  rw [hderef]
  generalize ({ s.deref l with args := converted } : MethodCache N Obj) = c at hderef hcache ⊢
  cases e with
  | some e => exact enterSlow_models_of_error hcache e
  | none =>
      cases hstart : startInvoke env w.isStatic target c l.args with
      | error e =>
          rw [invokeCached_of_refused hstart]
          exact enterSlow_models_of_error hcache e
      | ok b =>
          obtain ⟨o, c', hinvoke, hanswer, hafter⟩ :=
            invokeCached_of_started (s := s.setArray l.args converted) hlast hl' hderef hstart
          rw [hinvoke]
          exact ⟨hanswer, hafter⟩

/-- **A call whose body makes no calls goes as in the model of single calls.** -/
theorem enterByName_models (h : s.Ok) (slots : List (LuaValue N)) :
    (enterByName w ⟨env, slots⟩ s).Models (callByName env w s.cache slots) := by
  rw [enterByName, callByName]
  dsimp only
  cases w.receiver env slots with
  | error e => exact ⟨rfl, rfl⟩
  | ok target =>
      cases hlast : s.last with
      | none =>
          have hcache : s.cache = none := by rw [Shared.cache, hlast, Option.map_none]
          rw [hcache]
          dsimp only
          rw [← hcache]
          exact enterSlow_models
      | some l =>
          have hcache : s.cache = some (s.deref l) := by rw [Shared.cache, hlast, Option.map_some]
          have htypes : (s.deref l).argTypes = l.argTypes := rfl
          rw [hcache]
          dsimp only
          rw [htypes]
          split
          · exact enterFast_models hlast (h l hlast).1
          · rw [← hcache]
            exact enterSlow_models

end Leaf

/-! ### Entering and leaving -/

theorem startInvoke_spec {env : CallEnv N Obj} {isStatic : Bool}
    {target : Option (ClrValue N Obj)} {c : MethodCache N Obj} {k : ℕ} {b : Invocation N Obj}
    (h : startInvoke env isStatic target c k = .ok b) :
    k = b.array ∧ c.cachedMethod = b.method := by
  rw [startInvoke] at h
  dsimp only at h
  split at h
  · obtain rfl := Except.ok.inj h
    exact ⟨rfl, rfl⟩
  · obtain rfl := Except.ok.inj h
    exact ⟨rfl, rfl⟩
  · cases h

/-- What a call up to `Invoke` leaves: a match made anew is in the field, with an array that was
not there before, and a body that runs is that of the match in the field. -/
structure Entered.Sound (s : Shared N Obj) (e : Entered N Obj) : Prop where
  ok : e.state.Ok
  arrays : s.arrays.length ≤ e.state.arrays.length
  kept : e.found = none → e.state.last = s.last
  made : ∀ c, e.found = some c →
    ∃ l, e.state.last = some l ∧ l.outList = c.outList ∧ s.arrays.length ≤ l.args
  started : ∀ b, e.next = .inr b →
    ∃ l, e.state.last = some l ∧ l.args = b.array ∧ l.cachedMethod = b.method

namespace Entered.Sound

variable {env : CallEnv N Obj} {w : LuaMethodWrapper N Obj} {target : Option (ClrValue N Obj)}
  {args : List (LuaValue N)} {s : Shared N Obj}

/-- A call that is answered at once and matches nothing. -/
theorem answered (h : s.Ok) (r : CallResult N Obj) :
    Sound s { next := .inl r, state := s } where
  ok := h
  arrays := Nat.le_refl _
  kept _ := rfl
  made c hc := by cases hc
  started b hb := by cases hb

theorem ok_remember (s : Shared N Obj) {c : MethodCache N Obj} {us : List ParamUse}
    (hc : Cached c us) : (s.remember c).Ok := by
  intro l hl
  obtain rfl := Option.some.inj hl
  refine ⟨by simp [Shared.remember], us, ?_⟩
  rw [Shared.deref_remember]
  exact hc

/-- A call that has made a match. -/
theorem matched {c : MethodCache N Obj} {us : List ParamUse} (hc : Cached c us)
    {next : CallResult N Obj ⊕ Invocation N Obj}
    (hnext : ∀ b, next = .inr b → s.arrays.length = b.array ∧ c.cachedMethod = b.method) :
    Sound s { found := some c, next := next, state := s.remember c } where
  ok := ok_remember s hc
  arrays := by simp [Shared.remember]
  kept hnone := by cases hnone
  made c' hc' := by
    obtain rfl := Option.some.inj hc'
    exact ⟨_, rfl, rfl, Nat.le_refl _⟩
  started b hb := ⟨_, rfl, hnext b hb⟩

theorem enterSlow (h : s.Ok) : Sound s (enterSlow env w target args s) := by
  rw [UnityLua.enterSlow]
  split
  · exact answered h _
  · cases hmatch : matchMembers env.toLuaEnv w.members args with
    | error e => exact answered h _
    | ok r =>
        obtain ⟨_ | c, slots⟩ := r
        · exact answered h _
        · obtain ⟨us, hc⟩ := cached_of_matchMembers hmatch
          dsimp only
          cases hstart : startInvoke env w.isStatic target c s.arrays.length with
          | error e =>
              refine matched hc fun b hb => ?_
              cases hb
          | ok b =>
              refine matched hc fun b' hb => ?_
              obtain rfl := Sum.inr.inj hb
              exact startInvoke_spec hstart

/-- The array of a match in the field has been filled anew. -/
theorem of_setArray {k : ℕ} {values : List (Option (ClrValue N Obj))} {e : Entered N Obj}
    (h : Sound (s.setArray k values) e) : Sound s e where
  ok := h.ok
  arrays := by simpa only [Shared.length_setArray] using h.arrays
  kept := h.kept
  made c hc := by simpa only [Shared.length_setArray] using h.made c hc
  started := h.started

theorem ok_setArray {l : LastCalled N Obj} (hlast : s.last = some l)
    (hl : l.args < s.arrays.length) {values : List (Option (ClrValue N Obj))}
    {us : List ParamUse} (hc : Cached { s.deref l with args := values } us) :
    (s.setArray l.args values).Ok := by
  intro l' hl'
  have hlast' : (s.setArray l.args values).last = some l := hlast
  obtain rfl := Option.some.inj (hlast'.symm.trans hl')
  rw [Shared.length_setArray, Shared.deref_setArray_self hl]
  exact ⟨hl, us, hc⟩

theorem enterFast (h : s.Ok) {l : LastCalled N Obj} (hlast : s.last = some l) :
    Sound s (enterFast env w l target args s) := by
  obtain ⟨hl, us, hc⟩ := h l hlast
  obtain ⟨e, slots, values, hfast, hplaces⟩ :=
    @fastArgs_places N Obj env.toLuaEnv 0 _ us _ hc.places [] rfl 0 args
  rw [← hc.argTypes, List.nil_append, List.nil_append] at hfast
  have hfilled : Cached { s.deref l with args := values } us :=
    ⟨hc.argTypes, hc.outList, hplaces⟩
  have hok : (s.setArray l.args values).Ok := ok_setArray hlast hl hfilled
  have herror (e : Exn) : Sound s
      (if w.members.length = 1 then
        { next := .inl (.error (.exception e)), state := s.setArray l.args values }
      else UnityLua.enterSlow env w target slots (s.setArray l.args values)) := by
    split
    · exact of_setArray (answered hok _)
    · exact of_setArray (enterSlow hok)
  have hfast : fastArgs env.toLuaEnv 0 l.argTypes args (s.array l.args) = (e, slots, values) :=
    hfast
  rw [UnityLua.enterFast, startCached, hfast]
  dsimp only
  cases e with
  | some e => exact herror e
  | none =>
      dsimp only
      generalize hderef : (s.setArray l.args values).deref l = c
      cases hstart : startInvoke env w.isStatic target c l.args with
      | error e => exact herror e
      | ok b =>
          refine of_setArray ⟨hok, Nat.le_refl _, fun _ => rfl, ?_, ?_⟩
          · intro c hfound
            cases hfound
          · intro b' hb
            obtain rfl := Sum.inr.inj hb
            rw [← hderef] at hstart
            exact ⟨l, hlast, startInvoke_spec hstart⟩

theorem enterByName (h : s.Ok) (a : LuaCall N Obj) : Sound s (enterByName w a s) := by
  rw [UnityLua.enterByName]
  cases w.receiver a.env a.slots with
  | error e => exact answered h _
  | ok target =>
      dsimp only
      cases hlast : s.last with
      | none => exact enterSlow h
      | some l =>
          dsimp only
          split
          · exact enterFast h hlast
          · exact enterSlow h

end Entered.Sound

/-- What calls leave that made the matches with these result lists: without one the field refers
to the same match, else to the last one, with an array that was not there before. -/
structure Shared.After (made : List (List ℕ)) (s s' : Shared N Obj) : Prop where
  arrays : s.arrays.length ≤ s'.arrays.length
  kept : made = [] → s'.last = s.last
  renewed : ∀ outs, made.getLast? = some outs →
    ∃ l, s'.last = some l ∧ l.outList = outs ∧ s.arrays.length ≤ l.args

namespace Shared.After

variable {s s' s'' : Shared N Obj} {made made' : List (List ℕ)}

theorem refl (s : Shared N Obj) : After [] s s :=
  ⟨Nat.le_refl _, fun _ => rfl, fun outs houts => by cases houts⟩

theorem trans (h : After made s s') (h' : After made' s' s'') : After (made ++ made') s s'' where
  arrays := Nat.le_trans h.arrays h'.arrays
  kept hnone := by
    obtain ⟨hmade, hmade'⟩ := List.append_eq_nil_iff.mp hnone
    rw [h'.kept hmade', h.kept hmade]
  renewed outs houts := by
    rcases List.eq_nil_or_concat made' with rfl | ⟨_, _, rfl⟩
    · rw [List.append_nil] at houts
      rw [h'.kept rfl]
      exact h.renewed outs houts
    · rw [List.concat_eq_append, ← List.append_assoc, List.getLast?_concat] at houts
      obtain ⟨l, hl, hlast, harray⟩ := h'.renewed outs (by
        rw [List.concat_eq_append, List.getLast?_concat, houts])
      exact ⟨l, hl, hlast, Nat.le_trans h.arrays harray⟩

theorem setArray {k : ℕ} {values : List (Option (ClrValue N Obj))} :
    After [] s (s.setArray k values) :=
  ⟨Nat.le_of_eq length_setArray.symm, fun _ => rfl, fun outs houts => by cases houts⟩

end Shared.After

theorem Entered.Sound.after {s : Shared N Obj} {e : Entered N Obj} (h : e.Sound s) :
    Shared.After (e.found.map MethodCache.outList).toList s e.state := by
  cases hfound : e.found with
  | none => exact ⟨h.arrays, fun _ => h.kept hfound, fun outs houts => by cases houts⟩
  | some c =>
      refine ⟨h.arrays, fun hnone => absurd hnone (List.cons_ne_nil _ _), fun outs houts => ?_⟩
      obtain rfl := Option.some.inj houts
      exact h.made c hfound

/-- The array of a body that is left is still fit for a match in the field that refers to it. -/
theorem ok_leave {b : Invocation N Obj} {s : Shared N Obj} (h : s.Ok)
    (hb : ∀ l, s.last = some l → l.args = b.array → l.cachedMethod = b.method) :
    (leave b s).2.Ok := by
  rw [leave]
  cases b.ending with
  | error e => exact h
  | ok result =>
      intro l hlast
      have hlast : s.last = some l := hlast
      obtain ⟨hl, us, hc⟩ := h l hlast
      refine ⟨by rw [Shared.length_setArray]; exact hl, us, ?_⟩
      by_cases harray : l.args = b.array
      · rw [← harray, ← hb l hlast harray, Shared.deref_setArray_self hl]
        exact ⟨hc.argTypes, hc.outList, hc.places.writeBack _⟩
      · rw [Shared.deref, Shared.array_setArray_ne (Ne.symm harray)]
        exact hc

theorem after_leave (b : Invocation N Obj) (s : Shared N Obj) :
    Shared.After [] s (leave b s).2 := by
  rw [leave]
  cases b.ending with
  | error e => exact .refl s
  | ok result => exact .setArray

/-- Entering and leaving keep the shared state in order. -/
theorem caller_keeps (w : LuaMethodWrapper N Obj) : w.caller.Keeps Shared.Ok Shared.After where
  refl s _ := .refl s
  trans := .trans
  enter a s h := ⟨(Entered.Sound.enterByName h a).ok, (Entered.Sound.enterByName h a).after⟩
  leave a s b made s' h hstart h' hafter := by
    have hentered : (enterByName w a s).Sound s := .enterByName h a
    refine ⟨ok_leave h' fun l hlast harray => ?_, after_leave b s'⟩
    obtain ⟨l', hlast', harray', hmethod⟩ := hentered.started b hstart
    rcases List.eq_nil_or_concat made with rfl | ⟨_, outs, rfl⟩
    · obtain rfl := Option.some.inj (hlast'.symm.trans ((hafter.kept rfl).symm.trans hlast))
      exact hmethod
    · obtain ⟨k, hk, -, hnew⟩ := hafter.renewed outs (by
        rw [List.concat_eq_append, List.getLast?_concat])
      obtain rfl := Option.some.inj (hlast.symm.trans hk)
      have hold : l'.args < (enterByName w a s).state.arrays.length := (hentered.ok l' hlast').1
      have hnew : (enterByName w a s).state.arrays.length ≤ l.args := hnew
      omega

/-! ### Own answers -/

/-- What is returned of a by-reference parameter is what the body wrote, and of the others there
is one value only. -/
theorem Places.getElem?_writeBack {i : ℕ} {ps : List (ParameterInfo N Obj)} {us : List ParamUse}
    {vs vs' : List (Option (ClrValue N Obj))} (h : Places i ps us vs) (h' : Places i ps us vs')
    (parameters : ℕ → Option (ClrValue N Obj)) {k : ℕ} (hk : i + k ∈ outListOf i ps us) :
    (UnityLua.writeBack parameters i ps vs)[k]? = (UnityLua.writeBack parameters i ps vs')[k]? := by
  induction h generalizing vs' k with
  | nil => cases hk
  | @cons i p ps u us v vs hplace hrest ih =>
      cases h' with
      | @cons _ _ _ _ _ v' vs' hplace' hrest' =>
          rw [UnityLua.writeBack, UnityLua.writeBack]
          cases k with
          | succ k =>
              have hk : i + 1 + k ∈ outListOf (i + 1) ps us := Matched.mem_outListOf_succ.mp hk
              rw [List.getElem?_cons_succ, List.getElem?_cons_succ]
              exact ih hrest' hk
          | zero =>
              have hresult : u.isResult p = true := Matched.mem_outListOf_zero.mp hk
              rw [List.getElem?_cons_zero, List.getElem?_cons_zero]
              split
              · rfl
              · rename_i hbyRef
                have hbyRef : p.parameterType.isByRef = false := by simpa using hbyRef
                cases u with
                | out => rw [hplace.2 hbyRef, hplace'.2 hbyRef]
                | omitted => cases hresult
                | arg a =>
                    rw [ParamUse.isResult, hbyRef] at hresult
                    cases hresult

theorem returnValues_congr {c : MethodCache N Obj} {args args' : List (Option (ClrValue N Obj))}
    (h : (c.outList.map fun i => (args[i]?).join) = c.outList.map fun i => (args'[i]?).join)
    (value : Option (ClrValue N Obj)) :
    returnValues { c with args := args } value = returnValues { c with args := args' } value := by
  rw [returnValues, returnValues]
  dsimp only
  rw [h]

/-- The same match in the field gives the same answer, whatever its array holds. -/
theorem leave_eq_of_kept {b : Invocation N Obj} {s s' : Shared N Obj} {l : LastCalled N Obj}
    (h : s.Ok) (h' : s'.Ok) (hlast : s.last = some l) (hlast' : s'.last = some l)
    (harray : l.args = b.array) (hmethod : l.cachedMethod = b.method) :
    (leave b s').1 = (leave b s).1 := by
  obtain ⟨hl, us, hc⟩ := h l hlast
  obtain ⟨hl', us', hc'⟩ := h' l hlast'
  have huses : us = us' := by
    refine hc.places.uses_unique hc'.places ?_
    rw [← hc.argTypes, ← hc'.argTypes]
    rfl
  subst huses
  rw [leave, leave]
  cases b.ending with
  | error e => rfl
  | ok result =>
      obtain ⟨value, parameters⟩ := result
      dsimp only
      rw [← harray, ← hmethod, Shared.returnValues_of_cache (Shared.cache_setArray hlast hl),
        Shared.returnValues_of_cache (Shared.cache_setArray hlast' hl')]
      have houtList : l.outList = outListOf 0 l.cachedMethod.parameters us := hc.outList
      refine congrArg CallResult.values (returnValues_congr ?_ value)
      refine List.map_congr_left fun i hi => ?_
      have hi : 0 + i ∈ outListOf 0 l.cachedMethod.parameters us := by
        rw [Nat.zero_add, ← houtList]
        exact hi
      exact congrArg Option.join (hc'.places.getElem?_writeBack hc.places parameters hi)

/-- Without outgoing parameters the answer is the value. -/
theorem returnValues_of_no_outs {s : Shared N Obj} {l : LastCalled N Obj}
    (hlast : s.last = some l) (houts : l.outList = []) (value : Option (ClrValue N Obj)) :
    s.returnValues value = [value] := by
  have hcache : s.cache = some (s.deref l) := by rw [Shared.cache, hlast, Option.map_some]
  rw [Shared.returnValues_of_cache hcache, returnValues]
  simp [Shared.deref, houts]

theorem leave_eq_of_no_outs (b : Invocation N Obj) {s s' : Shared N Obj} {l l' : LastCalled N Obj}
    (hlast : s.last = some l) (hlast' : s'.last = some l') (houts : l.outList = [])
    (houts' : l'.outList = []) : (leave b s').1 = (leave b s).1 := by
  rw [leave, leave]
  cases b.ending with
  | error e => rfl
  | ok result =>
      dsimp only
      rw [returnValues_of_no_outs (s := s.setArray _ _) hlast houts,
        returnValues_of_no_outs (s := s'.setArray _ _) hlast' houts']

/-- The calls that a method body makes of the wrapper. -/
abbrev BodyCalls (N Obj : Type) :=
  Invocation N Obj → List (CallTree (LuaCall N Obj) (Invocation N Obj))

/-- No call inside the body matches an overload anew, unless neither the call's overload nor the
last one matched has outgoing parameters. -/
def Undisturbed (w : LuaMethodWrapper N Obj) (a : LuaCall N Obj) (nested : BodyCalls N Obj)
    (s : Shared N Obj) : Prop :=
  ∀ b, (enterByName w a s).next = .inr b →
    let s' := (enterByName w a s).state
    w.caller.marksAll (nested b) s' = [] ∨
      s'.last.map LastCalled.outList = some [] ∧
        (w.caller.marksAll (nested b) s').getLast? = some []

/-- The answer to the call is the one it has if its body makes its calls of another wrapper. -/
def OwnAnswer (w : LuaMethodWrapper N Obj) (a : LuaCall N Obj) (nested : BodyCalls N Obj)
    (s : Shared N Obj) : Prop :=
  (w.caller.run (.call a nested) s).1 = (callByName a.env w s.cache a.slots).1.result

theorem ownAnswer_of_undisturbed {w : LuaMethodWrapper N Obj} (a : LuaCall N Obj)
    (nested : BodyCalls N Obj) (s : Shared N Obj) (h : s.Ok) (hcond : Undisturbed w a nested s) :
    OwnAnswer w a nested s := by
  have hentered : (enterByName w a s).Sound s := .enterByName h a
  have hmodel : (enterByName w a s).finish.1 = (callByName a.env w s.cache a.slots).1.result :=
    (enterByName_models h a.slots).1
  rw [OwnAnswer, ← hmodel, Caller.run, Entered.finish]
  have henter : w.caller.enter a s = ((enterByName w a s).next, (enterByName w a s).state) := rfl
  rw [henter]
  rw [Undisturbed] at hcond
  generalize enterByName w a s = e at hentered hcond ⊢
  obtain ⟨found, next, s'⟩ := e
  cases next with
  | inl r => rfl
  | inr b =>
      have hinner := Caller.runAll_rule (caller_keeps w) (nested b) hentered.ok
      dsimp only at hinner ⊢
      obtain ⟨l, hlast, harray, hmethod⟩ := hentered.started b rfl
      rcases hcond b rfl with hnone | ⟨houts, hrenewed⟩
      · refine leave_eq_of_kept hentered.ok hinner.1 hlast ?_ harray hmethod
        rw [hinner.2.kept hnone]
        exact hlast
      · obtain ⟨l', hlast', houts', -⟩ := hinner.2.renewed [] hrenewed
        have houts : s'.last.map LastCalled.outList = some [] := houts
        have hlast : s'.last = some l := hlast
        rw [hlast] at houts
        exact leave_eq_of_no_outs b hlast hlast' (Option.some.inj houts) houts'

/-- A body returns its first argument and puts it into its outgoing parameters. -/
def echoEnv : CallEnv ℤ ℕ where
  toLuaEnv := LuaEnv.plain
  invoke _ _ args := .returned args.head?.join fun _ => args.head?.join
  getType _ := .object
  makeGenericMethod m _ := .ok m

/-- A static method `f` with the overloads `f(double, out double)` and `f(double, double)`. -/
def withOut : LuaMethodWrapper ℤ ℕ where
  method := none
  members :=
    [{ id := 0, name := "f", reflectedType := "T", isStatic := true
       parameters :=
         [{ parameterType := .double }, { parameterType := .byRef .double, isOut := true }] },
     { id := 1, name := "f", reflectedType := "T", isStatic := true
       parameters := [{ parameterType := .double }, { parameterType := .double }] }]
  methodName := "f"
  target := none
  extractTarget := .getAsNetObject
  isStatic := true

/-- `f(1)`, the body of which calls `f` with the given arguments. -/
def callsAgain (slots : List (LuaValue ℤ)) : CallTree (LuaCall ℤ ℕ) (Invocation ℤ ℕ) :=
  .call ⟨echoEnv, [.number 1]⟩ fun _ => [.call ⟨echoEnv, slots⟩ fun _ => []]

end UnityLua
