import UnityLua.MethodWrapper

/-!
# What a match consists of

`matchParameters` interleaves two things: choosing, for one parameter after the other, where
its value comes from, and converting the chosen arguments. This module takes them apart. The
choice (`select`) looks at types only; the conversion (`fill`) follows a given choice.

## Main results

* `matchParameters_of_select`: when the choice covers all arguments, matching is the
  conversion of the chosen arguments.
* `select_of_matchParameters`: a method matches only through such a choice.
-/

namespace UnityLua

variable {N Obj : Type}

/-- Where a parameter gets its value from. -/
inductive ParamUse
  | out
  | omitted
  | arg (a : MethodArgs)
  deriving DecidableEq, Repr

/-- The entry of `argTypes`, for a parameter that takes an argument. -/
def ParamUse.arg? : ParamUse → Option MethodArgs
  | .arg a => some a
  | _ => none

/-- The `argTypes` of a choice. -/
def argTypesOf (us : List ParamUse) : List MethodArgs := us.filterMap ParamUse.arg?

@[simp] theorem argTypesOf_nil : argTypesOf [] = [] := rfl

@[simp] theorem argTypesOf_out (us : List ParamUse) :
    argTypesOf (.out :: us) = argTypesOf us := rfl

@[simp] theorem argTypesOf_omitted (us : List ParamUse) :
    argTypesOf (.omitted :: us) = argTypesOf us := rfl

@[simp] theorem argTypesOf_arg (a : MethodArgs) (us : List ParamUse) :
    argTypesOf (.arg a :: us) = a :: argTypesOf us := rfl

/-- Whether a parameter's value goes back to Lua. A `params` array never does. -/
def ParamUse.isResult (p : ParameterInfo N Obj) : ParamUse → Bool
  | .out => true
  | .omitted => false
  | .arg a => p.parameterType.isByRef && !a.isParamsArray

/-- The `outList` of a choice; the first parameter is number `i`. -/
def outListOf : ℕ → List (ParameterInfo N Obj) → List ParamUse → List ℕ
  | i, p :: ps, u :: us => (if u.isResult p then [i] else []) ++ outListOf (i + 1) ps us
  | _, _, _ => []

/-- The slots that are left after a parameter. -/
def ParamUse.rest : ParamUse → List (LuaValue N) → List (LuaValue N)
  | .arg _, slots => slots.tail
  | _, slots => slots

/-- The choice for parameter number `i` when the given slots are left. -/
def selectParameter (env : LuaEnv N Obj) (i : ℕ) (p : ParameterInfo N Obj)
    (slots : List (LuaValue N)) : Option ParamUse :=
  if p.isPureOut then some .out
  else
    match slots with
    | [] => if p.isOptional then some .omitted else none
    | slot :: _ =>
        match isTypeCorrect env slot p with
        | some e => some (.arg { index := i, extractValue := e })
        | none =>
            match isParamsArray env slot p with
            | some e =>
                some (.arg { index := i, extractValue := e, isParamsArray := true,
                             paramsArrayType := p.parameterType.elementType })
            | none => if p.isOptional then some .omitted else none

/-- The choices for all parameters, and the slots that are left then. -/
def select (env : LuaEnv N Obj) :
    ℕ → List (ParameterInfo N Obj) → List (LuaValue N) →
      Option (List ParamUse × List (LuaValue N))
  | _, [], slots => some ([], slots)
  | i, p :: ps, slots => do
      let u ← selectParameter env i p slots
      let (us, rest) ← select env (i + 1) ps (u.rest slots)
      some (u :: us, rest)

/-- The value of a parameter, and the slot that was read for it as it is afterwards. -/
def fillParameter (env : LuaEnv N Obj) (p : ParameterInfo N Obj) (slots : List (LuaValue N)) :
    ParamUse → Except Exn (Option (ClrValue N Obj) × List (LuaValue N))
  | .out => .ok (none, [])
  | .omitted => .ok (p.defaultValue, [])
  | .arg a => do
      let (r, slot) := a.convert env (slots.headD .nil)
      let v ← r
      .ok (v, [slot])

/-- The argument array of a choice and the slots that were read for it. -/
def fill (env : LuaEnv N Obj) :
    List (ParameterInfo N Obj) → List ParamUse → List (LuaValue N) →
      Except Exn (List (Option (ClrValue N Obj)) × List (LuaValue N))
  | p :: ps, u :: us, slots => do
      let (v, ss) ← fillParameter env p slots u
      let (vs, ss') ← fill env ps us (u.rest slots)
      .ok (v :: vs, ss ++ ss')
  | _, _, _ => .ok ([], [])

/-! ### One parameter -/

/-- The locals of the matching loop after a choice has been followed. -/
def MatchState.follow (s : MatchState N Obj) (p : ParameterInfo N Obj) (u : ParamUse)
    (r : Option (ClrValue N Obj) × List (LuaValue N)) : MatchState N Obj :=
  { matched := s.matched ++ r.2
    rest := u.rest s.rest
    paramList := s.paramList ++ [r.1]
    outList := s.outList ++ if u.isResult p then [s.paramList.length] else []
    argTypes := s.argTypes ++ argTypesOf [u] }

/-- A round of the matching loop makes a choice and follows it. -/
theorem matchParameter_eq (env : LuaEnv N Obj) (p : ParameterInfo N Obj)
    (s : MatchState N Obj) :
    matchParameter env p s =
      match selectParameter env s.paramList.length p s.rest with
      | none => .ok (false, s)
      | some u => (fillParameter env p s.rest u).map fun r => (true, s.follow p u r) := by
  obtain ⟨matched, rest, paramList, outList, argTypes⟩ := s
  simp only [matchParameter, selectParameter]
  by_cases hout : p.isPureOut = true
  · simp [hout, fillParameter, MatchState.follow, ParamUse.isResult, ParamUse.rest,
      MatchState.addOut, MatchState.addParam, Except.map]
  · have homitted (h : p.isOptional = true) :
        MatchState.addParam ⟨matched, rest, paramList, outList, argTypes⟩ p.defaultValue =
          MatchState.follow ⟨matched, rest, paramList, outList, argTypes⟩ p .omitted
            (p.defaultValue, []) := by
      simp [MatchState.follow, MatchState.addParam, ParamUse.isResult, ParamUse.rest]
    rw [if_neg hout, if_neg hout]
    cases rest with
    | nil => by_cases hopt : p.isOptional = true <;>
        simp [hopt, homitted, fillParameter, Except.map]
    | cons slot rest =>
        cases htype : isTypeCorrect env slot p with
        | some e =>
            simp only [htype, fillParameter, List.headD_cons]
            generalize MethodArgs.convert env _ slot = converted
            obtain ⟨r, slot'⟩ := converted
            cases r with
            | error e => rfl
            | ok v =>
                by_cases href : p.parameterType.isByRef = true <;>
                  simp [href, MatchState.follow, MatchState.addArg, MatchState.addOut,
                    ParamUse.isResult, ParamUse.rest, Except.map, bind, Except.bind]
        | none =>
            cases hparams : isParamsArray env slot p with
            | some e =>
                simp only [htype, hparams, fillParameter, List.headD_cons]
                generalize MethodArgs.convert env _ slot = converted
                obtain ⟨r, slot'⟩ := converted
                cases r with
                | error e => rfl
                | ok v =>
                    simp [MatchState.follow, MatchState.addArg, ParamUse.isResult, ParamUse.rest,
                      Except.map, bind, Except.bind]
            | none => by_cases hopt : p.isOptional = true <;>
                simp [htype, hparams, hopt, homitted, fillParameter, Except.map]

/-- A choice is of the parameter's kind, and an argument is taken only from a slot. -/
theorem selectParameter_spec {env : LuaEnv N Obj} {i : ℕ} {p : ParameterInfo N Obj}
    {slots : List (LuaValue N)} {u : ParamUse}
    (h : selectParameter env i p slots = some u) :
    match u with
    | .out => p.isPureOut = true
    | .omitted => p.isPureOut = false ∧ p.isOptional = true
    | .arg a => p.isPureOut = false ∧ a.index = i ∧ slots ≠ [] ∧
        (a.isParamsArray = true → p.isParamArray = true) := by
  simp only [selectParameter] at h
  by_cases hout : p.isPureOut = true
  · rw [if_pos hout] at h
    exact Option.some.inj h ▸ hout
  · rw [if_neg hout] at h
    have hout : p.isPureOut = false := by simpa using hout
    cases slots with
    | nil =>
        obtain ⟨hopt, rfl⟩ := by simpa using h
        exact ⟨hout, hopt⟩
    | cons slot rest =>
        cases htype : isTypeCorrect env slot p with
        | some e =>
            obtain rfl := by simpa [htype] using h
            exact ⟨hout, rfl, List.cons_ne_nil _ _, Bool.noConfusion⟩
        | none =>
            cases hparams : isParamsArray env slot p with
            | some e =>
                obtain rfl := by simpa [htype, hparams] using h
                refine ⟨hout, rfl, List.cons_ne_nil _ _, fun _ => ?_⟩
                cases hflag : p.isParamArray with
                | true => rfl
                | false =>
                    rw [isParamsArray, hflag] at hparams
                    cases hparams
            | none =>
                obtain ⟨hopt, rfl⟩ := by simpa [htype, hparams] using h
                exact ⟨hout, hopt⟩

/-! ### All parameters -/

theorem select_cons_eq_some {env : LuaEnv N Obj} {i : ℕ} {p : ParameterInfo N Obj}
    {ps : List (ParameterInfo N Obj)} {slots rest : List (LuaValue N)} {us : List ParamUse} :
    select env i (p :: ps) slots = some (us, rest) ↔
      ∃ u us', selectParameter env i p slots = some u ∧
        select env (i + 1) ps (u.rest slots) = some (us', rest) ∧ us = u :: us' := by
  simp only [select, Option.bind_eq_bind, Option.bind_eq_some_iff, Prod.exists,
    Option.some.injEq, Prod.mk.injEq]
  constructor
  · rintro ⟨u, hu, us', rest', hus, rfl, rfl⟩
    exact ⟨u, us', hu, hus, rfl⟩
  · rintro ⟨u, us', hu, hus, rfl⟩
    exact ⟨u, hu, us', rest, hus, rfl, rfl⟩

theorem fill_cons_eq_ok {env : LuaEnv N Obj} {p : ParameterInfo N Obj}
    {ps : List (ParameterInfo N Obj)} {u : ParamUse} {us : List ParamUse}
    {slots ss : List (LuaValue N)} {vs : List (Option (ClrValue N Obj))} :
    fill env (p :: ps) (u :: us) slots = .ok (vs, ss) ↔
      ∃ v ss₁ vs₂ ss₂, fillParameter env p slots u = .ok (v, ss₁) ∧
        fill env ps us (u.rest slots) = .ok (vs₂, ss₂) ∧ vs = v :: vs₂ ∧ ss = ss₁ ++ ss₂ := by
  rw [fill]
  cases fillParameter env p slots u with
  | error e => simp [bind, Except.bind]
  | ok r =>
      obtain ⟨v, ss₁⟩ := r
      cases fill env ps us (u.rest slots) with
      | error e => simp [bind, Except.bind]
      | ok r =>
          obtain ⟨vs₂, ss₂⟩ := r
          simp only [bind, Except.bind, Except.ok.injEq, Prod.mk.injEq]
          constructor
          · rintro ⟨rfl, rfl⟩
            exact ⟨v, ss₁, vs₂, ss₂, ⟨rfl, rfl⟩, ⟨rfl, rfl⟩, rfl, rfl⟩
          · rintro ⟨_, _, _, _, ⟨rfl, rfl⟩, ⟨rfl, rfl⟩, rfl, rfl⟩
            exact ⟨rfl, rfl⟩

/-- The matching loop makes the first choice, follows it and goes on. -/
theorem matchLoop_cons (env : LuaEnv N Obj) (p : ParameterInfo N Obj)
    (ps : List (ParameterInfo N Obj)) (s : MatchState N Obj) :
    matchLoop env (p :: ps) s =
      match selectParameter env s.paramList.length p s.rest with
      | none => .ok (false, s)
      | some u => fillParameter env p s.rest u >>= fun r => matchLoop env ps (s.follow p u r) := by
  rw [matchLoop, matchParameter_eq]
  cases selectParameter env s.paramList.length p s.rest with
  | none => rfl
  | some u =>
      dsimp only
      cases fillParameter env p s.rest u <;> rfl

/-- When every parameter has a choice, the matching loop is the conversion. -/
theorem matchLoop_of_select {env : LuaEnv N Obj} {ps : List (ParameterInfo N Obj)}
    {s : MatchState N Obj} {us : List ParamUse} {rest : List (LuaValue N)}
    (h : select env s.paramList.length ps s.rest = some (us, rest)) :
    matchLoop env ps s = (fill env ps us s.rest).map fun r =>
      (true, { matched := s.matched ++ r.2, rest := rest, paramList := s.paramList ++ r.1
               outList := s.outList ++ outListOf s.paramList.length ps us
               argTypes := s.argTypes ++ argTypesOf us }) := by
  induction ps generalizing s us with
  | nil =>
      simp only [select, Option.some.injEq, Prod.mk.injEq] at h
      obtain ⟨rfl, rfl⟩ := h
      simp [matchLoop, fill, outListOf, Except.map]
  | cons p ps ih =>
      obtain ⟨u, us', hu, hus, rfl⟩ := select_cons_eq_some.mp h
      rw [matchLoop_cons, hu, fill]
      dsimp only
      cases fillParameter env p s.rest u with
      | error e => rfl
      | ok r =>
          have hfollow := @ih (s.follow p u r) us' (by simpa [MatchState.follow] using hus)
          have htypes : argTypesOf (u :: us') = argTypesOf [u] ++ argTypesOf us' :=
            List.filterMap_append (l := [u])
          change matchLoop env ps (s.follow p u r) = _
          rw [hfollow]
          obtain ⟨v, ss⟩ := r
          change Except.map _ (fill env ps us' (u.rest s.rest)) = _
          cases fill env ps us' (u.rest s.rest) with
          | error e => rfl
          | ok r' => simp [Except.map, bind, Except.bind, MatchState.follow, outListOf, htypes]

/-- When some parameter has no choice, the matching loop does not get to its end. -/
theorem matchLoop_ne_true {env : LuaEnv N Obj} {ps : List (ParameterInfo N Obj)}
    {s s' : MatchState N Obj} (h : select env s.paramList.length ps s.rest = none) :
    matchLoop env ps s ≠ .ok (true, s') := by
  induction ps generalizing s with
  | nil => simp [select] at h
  | cons p ps ih =>
      rw [matchLoop_cons]
      cases hu : selectParameter env s.paramList.length p s.rest with
      | none => simp
      | some u =>
          dsimp only
          cases fillParameter env p s.rest u with
          | error e => simp [bind, Except.bind]
          | ok r =>
              change matchLoop env ps (s.follow p u r) ≠ _
              refine ih ?_
              have : select env (s.paramList.length + 1) ps (u.rest s.rest) = none := by
                cases hus : select env (s.paramList.length + 1) ps (u.rest s.rest) with
                | none => rfl
                | some r => simp [select, hu, hus] at h
              simpa [MatchState.follow] using this

/-! ### A method -/

/-- The cache entry of a choice and its argument array. -/
def cacheOf (m : MethodBase N Obj) (us : List ParamUse) (vs : List (Option (ClrValue N Obj))) :
    MethodCache N Obj :=
  { cachedMethod := m, args := vs, outList := outListOf 0 m.parameters us
    argTypes := argTypesOf us }

/-- When the choice covers all arguments, matching is the conversion of the chosen
arguments. -/
theorem matchParameters_of_select {env : LuaEnv N Obj} {slots : List (LuaValue N)}
    {m : MethodBase N Obj} {us : List ParamUse}
    (h : select env 0 m.parameters slots = some (us, [])) :
    matchParameters env slots m =
      (fill env m.parameters us slots).map fun r => (some (cacheOf m us r.1), r.2) := by
  rw [matchParameters]
  rw [matchLoop_of_select h]
  cases fill env m.parameters us slots with
  | error e => rfl
  | ok r => simp [Except.map, bind, Except.bind, cacheOf]

/-- A method matches only through a choice that covers all arguments. -/
theorem select_of_matchParameters {env : LuaEnv N Obj} {slots ss : List (LuaValue N)}
    {m : MethodBase N Obj} {c : MethodCache N Obj}
    (h : matchParameters env slots m = .ok (some c, ss)) :
    ∃ us vs, select env 0 m.parameters slots = some (us, []) ∧
      fill env m.parameters us slots = .ok (vs, ss) ∧ c = cacheOf m us vs := by
  cases hsel : select env 0 m.parameters slots with
  | none =>
      exfalso
      rw [matchParameters] at h
      cases hloop : matchLoop env m.parameters ⟨[], slots, [], [], []⟩ with
      | error e => simp [hloop, bind, Except.bind] at h
      | ok r =>
          obtain ⟨isMethod, s⟩ := r
          cases isMethod with
          | false => simp [hloop, bind, Except.bind] at h
          | true => exact matchLoop_ne_true hsel hloop
  | some r =>
      obtain ⟨us, rest⟩ := r
      have hrest : rest = [] := by
        rw [matchParameters] at h
        rw [matchLoop_of_select hsel] at h
        cases hfill : fill env m.parameters us slots with
        | error e => simp [hfill, Except.map, bind, Except.bind] at h
        | ok r =>
            cases rest with
            | nil => rfl
            | cons slot rest => simp [hfill, Except.map, bind, Except.bind] at h
      subst hrest
      rw [matchParameters_of_select hsel] at h
      cases hfill : fill env m.parameters us slots with
      | error e => simp [hfill, Except.map] at h
      | ok r =>
          simp only [hfill, Except.map, Except.ok.injEq, Prod.mk.injEq, Option.some.injEq] at h
          obtain ⟨rfl, rfl⟩ := h
          exact ⟨us, r.1, rfl, hfill, rfl⟩

end UnityLua
