import Mathlib.Data.List.Forall2
import UnityLua.ArgumentMatching
import UnityLua.Library.Arena

/-!
# Cached calls

What `LuaMethodWrapper` remembers between two calls, what of it can be relied on, and when
a call that finds something remembered goes as the first call would.

## Main results

* `cached_cacheAfter`: whatever the history, the remembered argument array has the values of
  the parameters that take no argument.
* `fastArgs_of_select`: the remembered conversions give the arguments of the match, where
  they are the match's conversions.
* `call_eq_fresh_of_unaffected`: a call that meets the condition goes as with a fresh wrapper,
  after every history.
-/

namespace UnityLua

open Library

variable {N Obj : Type}

/-! ### The remembered arguments -/

/-- What holds of parameter number `i` in a remembered match: only a parameter passed by
reference may have lost the value it has without an argument. -/
def PlaceOk (i : ℕ) (p : ParameterInfo N Obj) (u : ParamUse) (v : Option (ClrValue N Obj)) :
    Prop :=
  match u with
  | .out => p.isPureOut = true ∧ (p.parameterType.isByRef = false → v = none)
  | .omitted => p.isPureOut = false ∧ (p.parameterType.isByRef = false → v = p.defaultValue)
  | .arg a => p.isPureOut = false ∧ a.index = i

/-- The parameters from number `i` on, with their choices and their places in the argument
array. -/
inductive Places :
    ℕ → List (ParameterInfo N Obj) → List ParamUse → List (Option (ClrValue N Obj)) → Prop
  | nil {i} : Places i [] [] []
  | cons {i p ps u us v vs} :
      PlaceOk i p u v → Places (i + 1) ps us vs → Places i (p :: ps) (u :: us) (v :: vs)

/-- A match that may be remembered. -/
structure Cached (c : MethodCache N Obj) (us : List ParamUse) : Prop where
  argTypes : c.argTypes = argTypesOf us
  outList : c.outList = outListOf 0 c.cachedMethod.parameters us
  places : Places 0 c.cachedMethod.parameters us c.args

theorem places_of_fill {env : LuaEnv N Obj} {i : ℕ} {ps : List (ParameterInfo N Obj)}
    {us : List ParamUse} {vs : List (Option (ClrValue N Obj))} {slots rest ss : List (LuaValue N)}
    (hsel : select env i ps slots = some (us, rest)) (hfill : fill env ps us slots = .ok (vs, ss)) :
    Places i ps us vs := by
  induction ps generalizing i us vs slots ss with
  | nil =>
      simp only [select, Option.some.injEq, Prod.mk.injEq] at hsel
      obtain ⟨rfl, rfl⟩ := hsel
      simp only [fill, Except.ok.injEq, Prod.mk.injEq] at hfill
      obtain ⟨rfl, -⟩ := hfill
      exact .nil
  | cons p ps ih =>
      obtain ⟨u, us, hu, hus, rfl⟩ := select_cons_eq_some.mp hsel
      obtain ⟨v, ss₁, vs, ss₂, hv, hvs, rfl, rfl⟩ := fill_cons_eq_ok.mp hfill
      refine .cons ?_ (ih hus hvs)
      have hkind := selectParameter_spec hu
      cases u with
      | out =>
          obtain ⟨rfl, -⟩ := by simpa [fillParameter] using hv
          exact ⟨hkind, fun _ => rfl⟩
      | omitted =>
          obtain ⟨rfl, -⟩ := by simpa [fillParameter] using hv
          exact ⟨hkind.1, fun _ => rfl⟩
      | arg a => exact ⟨hkind.1, hkind.2.1⟩

/-- Every choice has an argument array that fits it. -/
theorem places_of_select {env : LuaEnv N Obj} {i : ℕ} {ps : List (ParameterInfo N Obj)}
    {us : List ParamUse} {slots rest : List (LuaValue N)}
    (h : select env i ps slots = some (us, rest)) :
    ∃ vs : List (Option (ClrValue N Obj)), Places i ps us vs := by
  induction ps generalizing i us slots with
  | nil =>
      simp only [select, Option.some.injEq, Prod.mk.injEq] at h
      obtain ⟨rfl, -⟩ := h
      exact ⟨[], .nil⟩
  | cons p ps ih =>
      obtain ⟨u, us, hu, hus, rfl⟩ := select_cons_eq_some.mp h
      obtain ⟨vs, hvs⟩ := ih hus
      have hkind := selectParameter_spec hu
      cases u with
      | out => exact ⟨none :: vs, .cons ⟨hkind, fun _ => rfl⟩ hvs⟩
      | omitted => exact ⟨p.defaultValue :: vs, .cons ⟨hkind.1, fun _ => rfl⟩ hvs⟩
      | arg a => exact ⟨none :: vs, .cons ⟨hkind.1, hkind.2.1⟩ hvs⟩

/-- Writing the parameters back touches only places that may change. -/
theorem Places.writeBack {i : ℕ} {ps : List (ParameterInfo N Obj)} {us : List ParamUse}
    {vs : List (Option (ClrValue N Obj))} (h : Places i ps us vs)
    (parameters : ℕ → Option (ClrValue N Obj)) :
    Places i ps us (writeBack parameters i ps vs) := by
  induction h with
  | nil => exact .nil
  | @cons i p ps u us v vs hplace _ ih =>
      refine .cons ?_ ih
      cases hbyRef : p.parameterType.isByRef with
      | true => cases u <;> simp_all [PlaceOk]
      | false => simpa [PlaceOk, hbyRef] using hplace

/-- The arguments of a choice are numbered from the first parameter on. -/
theorem Places.le_index {i : ℕ} {ps : List (ParameterInfo N Obj)} {us : List ParamUse}
    {vs : List (Option (ClrValue N Obj))} (h : Places i ps us vs) :
    ∀ a ∈ argTypesOf us, i ≤ a.index := by
  induction h with
  | nil => simp
  | @cons i p ps u us v vs hplace _ ih =>
      have ih : ∀ a ∈ argTypesOf us, i ≤ a.index := fun a ha => Nat.le_of_succ_le (ih a ha)
      cases u with
      | out => exact ih
      | omitted => exact ih
      | arg b => exact List.forall_mem_cons.mpr ⟨Nat.le_of_eq hplace.2.symm, ih⟩

/-- The `argTypes` of a match determine its choices. -/
theorem Places.uses_unique {i : ℕ} {ps : List (ParameterInfo N Obj)} {us us' : List ParamUse}
    {vs vs' : List (Option (ClrValue N Obj))} (h : Places i ps us vs) (h' : Places i ps us' vs')
    (htypes : argTypesOf us = argTypesOf us') : us = us' := by
  induction h generalizing us' vs' with
  | nil => cases h'; rfl
  | @cons i p ps u us v vs hplace hrest ih =>
      cases h' with
      | @cons _ _ _ u' us' v' vs' hplace' hrest' =>
          have hlater (a : MethodArgs) (ha : a.index = i) : a ∉ argTypesOf us := fun hmem =>
            absurd (hrest.le_index a hmem) (by omega)
          have hlater' (a : MethodArgs) (ha : a.index = i) : a ∉ argTypesOf us' := fun hmem =>
            absurd (hrest'.le_index a hmem) (by omega)
          match u, u' with
          | .out, .out => rw [ih hrest' htypes]
          | .omitted, .omitted => rw [ih hrest' htypes]
          | .arg a, .arg a' =>
              obtain ⟨rfl, htail⟩ := List.cons.inj htypes
              rw [ih hrest' htail]
          | .out, .omitted => exact absurd (hplace.1.symm.trans hplace'.1) (by decide)
          | .out, .arg _ => exact absurd (hplace.1.symm.trans hplace'.1) (by decide)
          | .omitted, .out => exact absurd (hplace.1.symm.trans hplace'.1) (by decide)
          | .arg _, .out => exact absurd (hplace.1.symm.trans hplace'.1) (by decide)
          | .omitted, .arg a =>
              have htypes : argTypesOf us = a :: argTypesOf us' := htypes
              exact absurd (htypes ▸ List.mem_cons_self) (hlater a hplace'.2)
          | .arg a, .omitted =>
              have htypes : a :: argTypesOf us = argTypesOf us' := htypes
              exact absurd (htypes ▸ List.mem_cons_self) (hlater' a hplace.2)

/-! ### The fast path's conversions -/

/-- The remembered conversion of one argument succeeds, and does not give `null` for a value
that is not nil. -/
def MethodArgs.Converts (env : LuaEnv N Obj) (a : MethodArgs) (slot : LuaValue N) : Prop :=
  ∃ v, (a.convert env slot).1 = .ok v ∧
    (v.isNone → (a.convert env slot).2.luaType = .LUA_TNIL)

/-- The fast path's conversions keep to the places of the arguments. -/
theorem fastArgs_places {env : LuaEnv N Obj} {i : ℕ} {ps : List (ParameterInfo N Obj)}
    {us : List ParamUse} {vs : List (Option (ClrValue N Obj))} (h : Places i ps us vs)
    {pre : List (Option (ClrValue N Obj))} (hpre : pre.length = i) (n : ℕ)
    (slots : List (LuaValue N)) :
    ∃ e ss vs', fastArgs env n (argTypesOf us) slots (pre ++ vs) = (e, ss, pre ++ vs') ∧
      Places i ps us vs' := by
  induction h generalizing pre n slots with
  | nil => exact ⟨none, slots, [], by simp [fastArgs], .nil⟩
  | @cons i p ps u us v vs hplace hrest ih =>
      have hnext (v : Option (ClrValue N Obj)) (hv : PlaceOk i p u v) (n slots) :
          ∃ e ss vs', fastArgs env n (argTypesOf us) slots (pre ++ v :: vs) =
            (e, ss, pre ++ vs') ∧ Places i (p :: ps) (u :: us) vs' := by
        obtain ⟨e, ss, vs', hfast, hplaces⟩ :=
          @ih (pre ++ [v]) (by simpa using hpre) n slots
        refine ⟨e, ss, v :: vs', ?_, .cons hv hplaces⟩
        simpa using hfast
      cases u with
      | out => exact hnext v hplace n slots
      | omitted => exact hnext v hplace n slots
      | arg a =>
          cases slots with
          | nil => exact ⟨none, [], v :: vs, by simp [fastArgs], .cons hplace hrest⟩
          | cons slot slots =>
              rw [argTypesOf_arg, fastArgs]
              obtain ⟨r, slot'⟩ := a.convert env slot
              cases r with
              | error e => exact ⟨some e, slot' :: slots, v :: vs, rfl, .cons hplace hrest⟩
              | ok w =>
                  simp only [hplace.2, set_length_append hpre]
                  by_cases hnull : w.isNone ∧ slot'.luaType ≠ .LUA_TNIL
                  · rw [if_pos hnull]
                    exact ⟨_, _, w :: vs, rfl, .cons hplace hrest⟩
                  · rw [if_neg hnull]
                    obtain ⟨e, ss, vs', hfast, hplaces⟩ := hnext w hplace (n + 1) slots
                    rw [hfast]
                    exact ⟨e, slot' :: ss, vs', rfl, hplaces⟩

/-- Two argument arrays that a method cannot tell apart, and that are the same after its
return. -/
structure SameArgs (i : ℕ) (ps : List (ParameterInfo N Obj))
    (vs vs' : List (Option (ClrValue N Obj))) : Prop where
  inputs : inputs ps vs = inputs ps vs'
  writeBack : ∀ parameters, writeBack parameters i ps vs = writeBack parameters i ps vs'

theorem SameArgs.cons {i : ℕ} {p : ParameterInfo N Obj} {ps : List (ParameterInfo N Obj)}
    {v v' : Option (ClrValue N Obj)} {vs vs' : List (Option (ClrValue N Obj))}
    (h : SameArgs (i + 1) ps vs vs')
    (hv : v = v' ∨ p.isPureOut = true ∧ p.parameterType.isByRef = true) :
    SameArgs i (p :: ps) (v :: vs) (v' :: vs') := by
  have hinputs : List.zipWith _ ps vs = List.zipWith _ ps vs' := h.inputs
  constructor
  · rw [UnityLua.inputs, List.zipWith_cons_cons, List.zipWith_cons_cons, hinputs]
    rcases hv with rfl | ⟨hout, -⟩
    · rfl
    · rw [if_pos hout, if_pos hout]
  · intro parameters
    rw [UnityLua.writeBack, UnityLua.writeBack, h.writeBack parameters]
    rcases hv with rfl | ⟨-, href⟩
    · rfl
    · rw [if_pos href, if_pos href]

/-- Every omitted parameter still has its default value. -/
def KeepsDefaults (ps : List (ParameterInfo N Obj)) (us : List ParamUse)
    (vs : List (Option (ClrValue N Obj))) : Prop :=
  ∀ (k : ℕ) (p : ParameterInfo N Obj) (v : Option (ClrValue N Obj)),
    ps[k]? = some p → us[k]? = some .omitted → vs[k]? = some v →
    p.parameterType.isByRef = true → v = p.defaultValue

/-- The conversions of the arguments `slots` succeed and give what they give for `slots'`. -/
def ConvertAlike (env : LuaEnv N Obj) (types : List MethodArgs)
    (slots slots' : List (LuaValue N)) : Prop :=
  List.Forall₂ (fun (a : MethodArgs) (s : LuaValue N × LuaValue N) =>
    a.Converts env s.1 ∧ (a.convert env s.1).1 = (a.convert env s.2).1) types (slots.zip slots')

/-- The remembered conversions give the arguments of the match, where they are the match's
conversions. The slots that the match reads may differ from those of the fast path. -/
theorem fastArgs_of_select {env : LuaEnv N Obj} {i : ℕ} {ps : List (ParameterInfo N Obj)}
    {us : List ParamUse} {vs : List (Option (ClrValue N Obj))} (h : Places i ps us vs)
    {pre : List (Option (ClrValue N Obj))} (hpre : pre.length = i) (n : ℕ)
    {slots slots' : List (LuaValue N)} (hlen : slots.length = slots'.length)
    (hsel : select env i ps slots' = some (us, []))
    (hconv : ConvertAlike env (argTypesOf us) slots slots') (hdefault : KeepsDefaults ps us vs) :
    ∃ ss ss' ws ws', fastArgs env n (argTypesOf us) slots (pre ++ vs) = (none, ss, pre ++ ws) ∧
      fill env ps us slots' = .ok (ws', ss') ∧ SameArgs i ps ws ws' := by
  induction h generalizing pre n slots slots' with
  | nil =>
      refine ⟨slots, [], [], [], by simp [fastArgs], by simp [fill], rfl, fun _ => rfl⟩
  | @cons i p ps u us v vs hplace hrest ih =>
      obtain ⟨u', us', hu, hus, heq⟩ := select_cons_eq_some.mp hsel
      obtain ⟨rfl, rfl⟩ := List.cons.inj heq
      have hdefaults : KeepsDefaults ps us vs := fun k => hdefault (k + 1)
      have hnext (w w' : Option (ClrValue N Obj)) (ss₁ : List (LuaValue N)) (n slots)
          (hfill : fillParameter env p slots' u = .ok (w', ss₁))
          (hw : w = w' ∨ p.isPureOut = true ∧ p.parameterType.isByRef = true)
          (hlen : slots.length = (u.rest slots').length)
          (hconv : ConvertAlike env (argTypesOf us) slots (u.rest slots')) :
          ∃ ss ss' ws ws', fastArgs env n (argTypesOf us) slots (pre ++ w :: vs) =
              (none, ss, pre ++ ws) ∧
            fill env (p :: ps) (u :: us) slots' = .ok (ws', ss') ∧
            SameArgs i (p :: ps) ws ws' := by
        obtain ⟨ss, ss', ws, ws', hfast, hfills, hsame⟩ :=
          @ih (pre ++ [w]) (by simpa using hpre) n slots (u.rest slots') hlen hus hconv hdefaults
        refine ⟨ss, ss₁ ++ ss', w :: ws, w' :: ws', by simpa using hfast, ?_, hsame.cons hw⟩
        exact fill_cons_eq_ok.mpr ⟨w', ss₁, ws', ss', hfill, hfills, rfl, rfl⟩
      cases u with
      | out =>
          refine hnext v none [] n slots rfl ?_ hlen hconv
          cases href : p.parameterType.isByRef with
          | true => exact .inr ⟨hplace.1, rfl⟩
          | false => exact .inl (hplace.2 href)
      | omitted =>
          refine hnext v p.defaultValue [] n slots rfl (.inl ?_) hlen hconv
          cases href : p.parameterType.isByRef with
          | true => exact hdefault 0 p v rfl rfl rfl href
          | false => exact hplace.2 href
      | arg a =>
          cases slots' with
          | nil => exact absurd rfl (selectParameter_spec hu).2.2.1
          | cons slot' slots' =>
          cases slots with
          | nil => exact absurd hlen (by simp)
          | cons slot slots =>
              obtain ⟨⟨⟨w, hw, hnull⟩, hsame⟩, hconv⟩ := List.forall₂_cons.mp hconv
              have hslot : (a.convert env slot).1 = .ok w ∧ (a.convert env slot').1 = .ok w :=
                ⟨hw, hsame ▸ hw⟩
              obtain ⟨ss, ss', ws, ws', hfast, hfill, hargs⟩ :=
                hnext w w [(a.convert env slot').2] (n + 1) slots
                  (by simp [fillParameter, hslot.2, bind, Except.bind]) (.inl rfl)
                  (Nat.succ.inj hlen) hconv
              refine ⟨(a.convert env slot).2 :: ss, ss', ws, ws', ?_, hfill, hargs⟩
              rw [argTypesOf_arg, fastArgs]
              have hpair : a.convert env slot = (.ok w, (a.convert env slot).2) := by rw [← hw]
              rw [hpair]
              simp only [hplace.2, set_length_append hpre]
              rw [if_neg (fun hnot => hnot.2 (hnull hnot.1)), hfast]

/-! ### The cache between two calls -/

/-- What is in the cache, if anything, is a match. -/
def CacheOk (cache : Option (MethodCache N Obj)) : Prop :=
  ∀ c, cache = some c → ∃ us, Cached c us

theorem cached_of_matchMembers {env : LuaEnv N Obj} {ms : List (MethodBase N Obj)}
    {slots ss : List (LuaValue N)} {c : MethodCache N Obj}
    (h : matchMembers env ms slots = .ok (some c, ss)) : ∃ us, Cached c us := by
  induction ms generalizing slots with
  | nil => simp [matchMembers] at h
  | cons m ms ih =>
      rw [matchMembers] at h
      cases hm : matchParameters env slots m with
      | error e => simp [hm, bind, Except.bind] at h
      | ok r =>
          obtain ⟨found, slots'⟩ := r
          cases found with
          | none => exact ih (by simpa [hm, bind, Except.bind] using h)
          | some c' =>
              obtain ⟨rfl, rfl⟩ := by simpa [hm, bind, Except.bind] using h
              obtain ⟨us, vs, hsel, hfill, rfl⟩ := select_of_matchParameters hm
              exact ⟨us, rfl, rfl, places_of_fill hsel hfill⟩

/-- The call of a remembered method leaves a match. -/
theorem Cached.invokeCached {env : CallEnv N Obj} {isStatic : Bool}
    {target : Option (ClrValue N Obj)} {c c' : MethodCache N Obj} {us : List ParamUse}
    {o : Outcome N Obj} (h : Cached c us)
    (hinvoke : invokeCached env isStatic target c = .ok (o, c')) : Cached c' us := by
  rw [UnityLua.invokeCached] at hinvoke
  dsimp only at hinvoke
  split at hinvoke
  · obtain ⟨-, rfl⟩ := by simpa using hinvoke
    exact ⟨h.argTypes, h.outList, h.places.writeBack _⟩
  · obtain ⟨-, rfl⟩ := by simpa using hinvoke
    exact h
  · simp at hinvoke

theorem CacheOk.slowPath {cache : Option (MethodCache N Obj)} (h : CacheOk cache)
    (env : CallEnv N Obj) (w : LuaMethodWrapper N Obj) (target : Option (ClrValue N Obj))
    (args : List (LuaValue N)) : CacheOk (slowPath env w cache target args).2 := by
  rw [UnityLua.slowPath]
  split
  · exact h
  · split
    · exact h
    · exact h
    · rename_i c _ hmatch
      obtain ⟨us, hc⟩ := cached_of_matchMembers hmatch
      rw [invokeMatched]
      split
      · rename_i o c' hinvoke
        intro d hd
        obtain rfl := Option.some.inj hd
        exact ⟨us, hc.invokeCached hinvoke⟩
      · intro d hd
        obtain rfl := Option.some.inj hd
        exact ⟨us, hc⟩

/-- A cached attempt leaves a match, whatever comes of it. -/
theorem Cached.tryCached {env : CallEnv N Obj} {isStatic : Bool}
    {c : MethodCache N Obj} {us : List ParamUse} (h : Cached c us)
    (target : Option (ClrValue N Obj)) (args : List (LuaValue N)) :
    Cached (tryCached env isStatic c target args).2.2 us ∧
      ∀ o c', (tryCached env isStatic c target args).1 = .ok (o, c') → Cached c' us := by
  obtain ⟨e, ss, vs, hfast, hplaces⟩ :=
    @fastArgs_places N Obj env.toLuaEnv 0 _ us c.args h.places [] rfl 0 args
  rw [← h.argTypes, List.nil_append, List.nil_append] at hfast
  have hc : Cached { c with args := vs } us := ⟨h.argTypes, h.outList, hplaces⟩
  rw [UnityLua.tryCached]
  rw [hfast]
  cases e with
  | some e => exact ⟨hc, fun o c' hcontra => by simp at hcontra⟩
  | none => exact ⟨hc, fun o c' hinvoke => hc.invokeCached hinvoke⟩

theorem CacheOk.callByName {cache : Option (MethodCache N Obj)} (h : CacheOk cache)
    (env : CallEnv N Obj) (w : LuaMethodWrapper N Obj) (slots : List (LuaValue N)) :
    CacheOk (callByName env w cache slots).2 := by
  rw [UnityLua.callByName]
  cases w.receiver env slots with
  | error e => exact h
  | ok target =>
      cases cache with
      | none => exact h.slowPath env w target _
      | some c =>
          dsimp only
          split
          · obtain ⟨us, hc⟩ := h c rfl
            obtain ⟨hafter, hok⟩ := @Cached.tryCached N Obj env w.isStatic c us hc target (w.arguments slots)
            have hsome {d : MethodCache N Obj} (hd : Cached d us) : CacheOk (some d) :=
              fun d' hd' => ⟨us, Option.some.inj hd' ▸ hd⟩
            rw [fastPath]
            split
            · rename_i o c' _ _ htry
              exact hsome (hok o c' (by rw [htry]))
            · rename_i e args c' htry
              have hc' : Cached c' us := by simpa [htry] using hafter
              split
              · exact hsome hc'
              · exact (hsome hc').slowPath env w target args
          · exact h.slowPath env w target _

/-- The cache after a history of calls. -/
def cacheAfter (w : LuaMethodWrapper N Obj) (history : List (CallEnv N Obj × List (LuaValue N))) :
    Option (MethodCache N Obj) :=
  history.foldl (fun cache call => (w.call call.1 cache call.2).2) none

/-- Whatever the history, what a wrapper made for a name remembers is a match. -/
theorem cacheOk_cacheAfter {w : LuaMethodWrapper N Obj} (hname : w.method = none)
    (history : List (CallEnv N Obj × List (LuaValue N))) : CacheOk (cacheAfter w history) := by
  rw [cacheAfter]
  have hempty : CacheOk (none : Option (MethodCache N Obj)) := fun c hc => nomatch hc
  generalize (none : Option (MethodCache N Obj)) = cache at hempty
  induction history generalizing cache with
  | nil => exact hempty
  | cons call history ih =>
      refine ih _ ?_
      have hcall : w.call call.1 cache call.2 = callByName call.1 w cache call.2 := by
        rw [LuaMethodWrapper.call]
        rw [hname]
      change CacheOk (w.call call.1 cache call.2).2
      rw [hcall]
      exact hempty.callByName call.1 w call.2

/-! ### When the history does not show -/

/-- The search for an overload comes to the remembered match again: the overloads before it
do not match, its choices are the remembered ones, and the remembered conversions do for
`args` what the match's do for the slots it gets to see. -/
def Confirms (env : LuaEnv N Obj) (w : LuaMethodWrapper N Obj) (c : MethodCache N Obj)
    (args : List (LuaValue N)) : Prop :=
  ∃ earlier later args' us,
    w.members = earlier ++ c.cachedMethod :: later ∧
    matchMembers env earlier args = .ok (none, args') ∧
    select env 0 c.cachedMethod.parameters args' = some (us, []) ∧
    c.argTypes = argTypesOf us ∧
    ConvertAlike env c.argTypes args args' ∧
    KeepsDefaults c.cachedMethod.parameters us c.args

/-- The fast path gives up, and the slow path starts as it would without it: the slots are as
they were, or it ends at once for want of a receiver. -/
def FallsBack (env : CallEnv N Obj) (w : LuaMethodWrapper N Obj) (c : MethodCache N Obj)
    (target : Option (ClrValue N Obj)) (args : List (LuaValue N)) : Prop :=
  w.members.length ≠ 1 ∧ (∃ e, (tryCached env w.isStatic c target args).1 = .error e) ∧
    ((tryCached env w.isStatic c target args).2.1 = args ∨ w.isStatic = false ∧ target.isNone)

/-- The condition for a call by name that finds a match in the cache: the number of arguments
is another one, or the fast path falls back, or it is right, and then its answer stands. -/
def UnaffectedByName (env : CallEnv N Obj) (w : LuaMethodWrapper N Obj) (c : MethodCache N Obj)
    (slots : List (LuaValue N)) : Prop :=
  ∀ target, w.receiver env slots = .ok target →
    w.numArgsPassed slots ≠ c.argTypes.length ∨
    FallsBack env w c target (w.arguments slots) ∨
    Confirms env.toLuaEnv w c (w.arguments slots) ∧ (w.isStatic = true ∨ target.isSome) ∧
      (w.members.length = 1 ∨ ∃ r, (tryCached env w.isStatic c target (w.arguments slots)).1 = .ok r)

/-- The condition for a call of an open generic method: it matches, or what is remembered
cannot be called either. -/
def UnaffectedGeneric (env : LuaEnv N Obj) (m : MethodBase N Obj) (c : MethodCache N Obj)
    (slots : List (LuaValue N)) : Prop :=
  m.isGenericMethodDefinition = false ∨ none ∈ c.args ∨
    ∀ ss, matchParameters env slots m ≠ .ok (none, ss)

/-- The condition under which a call goes as with a fresh wrapper. -/
def Unaffected (env : CallEnv N Obj) (w : LuaMethodWrapper N Obj) (slots : List (LuaValue N)) :
    Option (MethodCache N Obj) → Prop
  | none => True
  | some c =>
      match w.method with
      | none => UnaffectedByName env w c slots
      | some m => m.containsGenericParameters = true → UnaffectedGeneric env.toLuaEnv m c slots

/-- The answer of the slow path does not depend on the cache. -/
theorem slowPath_cache (env : CallEnv N Obj) (w : LuaMethodWrapper N Obj)
    (cache cache' : Option (MethodCache N Obj)) (target : Option (ClrValue N Obj))
    (args : List (LuaValue N)) :
    (slowPath env w cache target args).1 = (slowPath env w cache' target args).1 := by
  simp only [slowPath]
  split
  · rfl
  · split <;> rfl

/-- Two matches of one method with indistinguishable arguments are invoked alike. -/
theorem invokeCached_congr (env : CallEnv N Obj) (isStatic : Bool)
    (target : Option (ClrValue N Obj)) {c c' : MethodCache N Obj}
    (hmethod : c.cachedMethod = c'.cachedMethod) (hout : c.outList = c'.outList)
    (hargs : SameArgs 0 c.cachedMethod.parameters c.args c'.args) :
    (invokeCached env isStatic target c).map Prod.fst =
      (invokeCached env isStatic target c').map Prod.fst := by
  unfold invokeCached
  rw [← hmethod, ← hargs.inputs]
  dsimp only
  cases env.invoke c.cachedMethod _ (inputs c.cachedMethod.parameters c.args) with
  | returned value parameters =>
      simp only [Except.map, returnValues, hargs.writeBack parameters, hout]
  | threw e => rfl
  | refused e => rfl

theorem matchMembers_append (env : LuaEnv N Obj) {ms ms' : List (MethodBase N Obj)}
    {slots slots' : List (LuaValue N)} (h : matchMembers env ms slots = .ok (none, slots')) :
    matchMembers env (ms ++ ms') slots = matchMembers env ms' slots' := by
  induction ms generalizing slots with
  | nil =>
      obtain rfl := by simpa [matchMembers] using h
      rfl
  | cons m ms ih =>
      rw [List.cons_append, matchMembers]
      rw [matchMembers] at h
      cases hm : matchParameters env slots m with
      | error e => simp [hm, bind, Except.bind] at h
      | ok r =>
          obtain ⟨found, ss⟩ := r
          cases found with
          | none => exact ih (by simpa [hm, bind, Except.bind] using h)
          | some c => simp [hm, bind, Except.bind] at h

/-- A choice that covers all slots takes as many arguments. -/
theorem length_argTypesOf {env : LuaEnv N Obj} {i : ℕ} {ps : List (ParameterInfo N Obj)}
    {slots : List (LuaValue N)} {us : List ParamUse}
    (h : select env i ps slots = some (us, [])) : (argTypesOf us).length = slots.length := by
  induction ps generalizing i slots us with
  | nil =>
      simp only [select, Option.some.injEq, Prod.mk.injEq] at h
      obtain ⟨rfl, rfl⟩ := h
      rfl
  | cons p ps ih =>
      obtain ⟨u, us', hu, hus, rfl⟩ := select_cons_eq_some.mp h
      have hrest := ih hus
      cases u with
      | out => exact hrest
      | omitted => exact hrest
      | arg a =>
          cases slots with
          | nil => exact absurd rfl (selectParameter_spec hu).2.2.1
          | cons slot slots => exact congrArg Nat.succ hrest

/-- Where the remembered match is confirmed, the cached attempt and the slow path invoke the
method alike. -/
theorem invoke_of_confirms {env : CallEnv N Obj} {w : LuaMethodWrapper N Obj}
    {c : MethodCache N Obj} {us : List ParamUse} {args : List (LuaValue N)}
    (hc : Cached c us) (hlen : args.length = c.argTypes.length)
    (h : Confirms env.toLuaEnv w c args) (target : Option (ClrValue N Obj)) :
    ∃ c' ss, matchMembers env.toLuaEnv w.members args = .ok (some c', ss) ∧
      (tryCached env w.isStatic c target args).1.map Prod.fst =
        (invokeCached env w.isStatic target c').map Prod.fst := by
  obtain ⟨earlier, later, args', us', hmembers, hearlier, hsel, htypes, hconv, hdefaults⟩ := h
  have hlen' : args.length = args'.length := by
    rw [hlen, htypes, length_argTypesOf hsel]
  obtain ⟨vs, hvs⟩ := places_of_select hsel
  obtain rfl : us = us' := hc.places.uses_unique hvs (hc.argTypes.symm.trans htypes)
  rw [htypes] at hconv
  obtain ⟨ss, ss', ws, ws', hfast, hfill, hargs⟩ :=
    @fastArgs_of_select N Obj env.toLuaEnv 0 _ us c.args hc.places [] rfl 0 args args' hlen' hsel
      hconv hdefaults
  rw [← htypes, List.nil_append, List.nil_append] at hfast
  refine ⟨cacheOf c.cachedMethod us ws', ss', ?_, ?_⟩
  · rw [hmembers, matchMembers_append _ hearlier, matchMembers,
      matchParameters_of_select hsel, hfill]
    rfl
  · rw [tryCached]
    rw [hfast]
    exact invokeCached_congr env w.isStatic target rfl hc.outList hargs

theorem slowPath_no_receiver (env : CallEnv N Obj) {w : LuaMethodWrapper N Obj}
    (cache : Option (MethodCache N Obj)) {target : Option (ClrValue N Obj)}
    (h : w.isStatic = false ∧ target.isNone) (args args' : List (LuaValue N)) :
    (slowPath env w cache target args).1 = (slowPath env w cache target args').1 := by
  simp only [slowPath]
  rw [if_pos h, if_pos h]

/-- A fast path that falls back is a slow path without a cache. -/
theorem fastPath_of_fallsBack {env : CallEnv N Obj} {w : LuaMethodWrapper N Obj}
    {c : MethodCache N Obj} {target : Option (ClrValue N Obj)} {args : List (LuaValue N)}
    (h : FallsBack env w c target args) :
    (fastPath env w c target args).1 = (slowPath env w none target args).1 := by
  obtain ⟨hmembers, ⟨e, he⟩, hslots⟩ := h
  rw [fastPath]
  generalize tryCached env w.isStatic c target args = tried at he hslots
  obtain ⟨r, args', c'⟩ := tried
  obtain rfl : r = .error e := he
  dsimp only
  rw [if_neg hmembers, slowPath_cache env w _ none]
  rcases hslots with hkept | hnone
  · obtain rfl : args' = args := hkept
    rfl
  · exact slowPath_no_receiver env none hnone args' args

/-- A fast path whose match is confirmed, and whose answer stands, is a slow path. -/
theorem fastPath_of_confirms {env : CallEnv N Obj} {w : LuaMethodWrapper N Obj}
    {c : MethodCache N Obj} {us : List ParamUse} {target : Option (ClrValue N Obj)}
    {args : List (LuaValue N)} (hc : Cached c us) (hlen : args.length = c.argTypes.length)
    (h : Confirms env.toLuaEnv w c args) (htarget : w.isStatic = true ∨ target.isSome)
    (hstands : w.members.length = 1 ∨
      ∃ r, (tryCached env w.isStatic c target args).1 = .ok r) :
    (fastPath env w c target args).1 = (slowPath env w none target args).1 := by
  obtain ⟨c', ss, hmatch, hinvoke⟩ := invoke_of_confirms hc hlen h target
  have hreceiver : ¬ (w.isStatic = false ∧ target.isNone) := by
    rintro ⟨hstatic, hnone⟩
    cases target <;> simp_all
  simp only [fastPath, slowPath, invokeMatched]
  rw [if_neg hreceiver, hmatch]
  dsimp only
  generalize tryCached env w.isStatic c target args = tried at hinvoke hstands
  obtain ⟨r, args', c''⟩ := tried
  dsimp only at hinvoke hstands ⊢
  cases hslow : invokeCached env w.isStatic target c' with
  | ok o =>
      cases r with
      | ok o' => simpa [hslow, Except.map] using hinvoke
      | error e => simp [hslow, Except.map] at hinvoke
  | error e =>
      cases r with
      | ok o' => simp [hslow, Except.map] at hinvoke
      | error e' =>
          obtain rfl : e' = e := by simpa [hslow, Except.map] using hinvoke
          have hone : w.members.length = 1 := hstands.resolve_right (by simp)
          simp [hone]

/-- The receiver of a method is not counted. -/
theorem length_arguments {w : LuaMethodWrapper N Obj} {slots : List (LuaValue N)} {n : ℕ}
    (h : w.numArgsPassed slots = n) : (w.arguments slots).length = n := by
  rw [LuaMethodWrapper.numArgsPassed] at h
  rw [LuaMethodWrapper.arguments]
  split at h
  · next hstatic =>
      rw [if_pos hstatic]
      omega
  · next hstatic =>
      rw [if_neg hstatic, List.length_tail]
      omega

/-- A call by name that meets the condition is answered as without the cache. -/
theorem callByName_eq_fresh {env : CallEnv N Obj} {w : LuaMethodWrapper N Obj}
    {c : MethodCache N Obj} {us : List ParamUse} {slots : List (LuaValue N)} (hc : Cached c us)
    (h : UnaffectedByName env w c slots) :
    (callByName env w (some c) slots).1 = (callByName env w none slots).1 := by
  simp only [callByName]
  cases hreceiver : w.receiver env slots with
  | error e => rfl
  | ok target =>
      dsimp only
      by_cases hcount : w.numArgsPassed slots = c.argTypes.length
      · rw [if_pos hcount]
        have hlen := length_arguments hcount
        rcases h target hreceiver with hne | hback | ⟨hconfirms, htarget, hstands⟩
        · exact absurd hcount hne
        · exact fastPath_of_fallsBack hback
        · exact fastPath_of_confirms hc hlen hconfirms htarget hstands
      · rw [if_neg hcount]
        exact slowPath_cache env w _ _ target _

theorem typeArgs_of_none_mem {env : CallEnv N Obj} {args : List (Option (ClrValue N Obj))}
    (h : none ∈ args) : typeArgs env args = .error .nullReference := by
  rw [typeArgs]
  induction args with
  | nil => simp at h
  | cons v args ih =>
      cases v with
      | none => rfl
      | some v =>
          have ih := ih (by simpa using h)
          rw [List.mapM_cons, ih]
          rfl

/-- A call of a method without generic parameters never looks at the cache. -/
theorem callMethod_cache (env : CallEnv N Obj) (w : LuaMethodWrapper N Obj) (m : MethodBase N Obj)
    (cache cache' : Option (MethodCache N Obj)) (slots : List (LuaValue N)) :
    (callMethod env w m cache slots).1 = (callMethod env w m cache' slots).1 := by
  unfold callMethod
  dsimp only
  split
  · rfl
  · split <;> rfl

/-- A call of an open generic method that meets the condition is answered as without the
cache. -/
theorem callGeneric_eq_fresh {env : CallEnv N Obj} {w : LuaMethodWrapper N Obj}
    {m : MethodBase N Obj} {c : MethodCache N Obj} {slots : List (LuaValue N)}
    (h : UnaffectedGeneric env.toLuaEnv m c slots) :
    (callGeneric env w m (some c) slots).1 = (callGeneric env w m none slots).1 := by
  simp only [callGeneric]
  cases hmatch : matchParameters env.toLuaEnv slots m with
  | error e => rfl
  | ok r =>
      obtain ⟨found, ss⟩ := r
      dsimp only
      cases found with
      | some c' => rfl
      | none =>
          cases hgeneric : m.isGenericMethodDefinition with
          | false => rfl
          | true =>
              rcases h with hnot | hnull | hnone
              · exact absurd (hgeneric.symm.trans hnot) (by decide)
              · have htypes : typeArgs env c.args = .error .nullReference :=
                  typeArgs_of_none_mem hnull
                simp [htypes, bind, Except.bind]
              · exact absurd hmatch (hnone ss)

/-- Calls in the plain world, where every method returns `null`. -/
def plainEnv : CallEnv ℤ ℕ where
  toLuaEnv := LuaEnv.plain
  invoke _ _ _ := .returned none fun _ => none
  getType _ := .object
  makeGenericMethod m _ := .ok m

/-- A static method `f` with the overloads `f(double)` and `f(string)`. -/
def overloaded : LuaMethodWrapper ℤ ℕ where
  method := none
  members :=
    [{ id := 0, name := "f", reflectedType := "T", parameters := [{ parameterType := .double }]
       isStatic := true },
     { id := 1, name := "f", reflectedType := "T", parameters := [{ parameterType := .string }]
       isStatic := true }]
  methodName := "f"
  target := none
  extractTarget := .getAsNetObject
  isStatic := true

end UnityLua
