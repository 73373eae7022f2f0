import UnityLua.ArgumentMatching
import UnityLua.Library.Program

/-!
# What a successful match means

`matchParameters` answers through its `ref` parameter, which the callers keep from call to call.
The answer relates the formal parameters, which are many, to the arguments, which may be fewer:
`argTypes` leads from an argument to the place of its parameter, and `outList` names the places of
the results. `Matched` follows the two cursors of the loop, the parameter and the argument.

## Main results

* `matched_of_fill`: a match is a run of the two cursors to both ends.
* `matchParameters_meaning`: what is written if there is a match, and that nothing is if there
  is none or a conversion throws.
-/

namespace UnityLua

open Library

variable {N Obj : Type}

/-- `matchParameters` with its `ref` parameter. `none` is a `MethodCache` without a method. -/
def matchParametersRef (env : LuaEnv N Obj) (slots : List (LuaValue N))
    (method : MethodBase N Obj) :
    Prog (Option (MethodCache N Obj)) Exn (Bool × List (LuaValue N)) := fun methodCache =>
  match matchLoop env method.parameters
      { matched := [], rest := slots, paramList := [], outList := [], argTypes := [] } with
  | .error e => (.error e, methodCache)
  | .ok (isMethod, s) =>
      if isMethod ∧ s.rest.isEmpty then
        (.ok (true, s.matched ++ s.rest),
          some { cachedMethod := method, args := s.paramList, outList := s.outList
                 argTypes := s.argTypes })
      else (.ok (false, s.matched ++ s.rest), methodCache)

/-- The match is the one that `matchParameters` returns. -/
theorem matchParametersRef_eq (env : LuaEnv N Obj) (slots : List (LuaValue N))
    (method : MethodBase N Obj) (methodCache : Option (MethodCache N Obj)) :
    matchParametersRef env slots method methodCache =
      match matchParameters env slots method with
      | .error e => (.error e, methodCache)
      | .ok (some c, slots) => (.ok (true, slots), some c)
      | .ok (none, slots) => (.ok (false, slots), methodCache) := by
  rw [matchParametersRef, matchParameters]
  cases matchLoop env method.parameters ⟨[], slots, [], [], []⟩ with
  | error e => rfl
  | ok r =>
      obtain ⟨isMethod, s⟩ := r
      change (if _ then _ else _) = _
      by_cases h : isMethod = true ∧ s.rest.isEmpty = true
      · rw [if_pos h]
        simp only [bind, Except.bind, if_pos h]
      · rw [if_neg h]
        simp only [bind, Except.bind, if_neg h]

/-! ### The two cursors -/

/-- The parameters from number `i` on take their values as chosen, and use up the arguments. -/
inductive Matched (env : LuaEnv N Obj) :
    ℕ → List (ParameterInfo N Obj) → List ParamUse → List (LuaValue N) →
      List (Option (ClrValue N Obj)) → Prop
  | nil {i} : Matched env i [] [] [] []
  | out {i p ps us slots vs} : p.isPureOut = true → Matched env (i + 1) ps us slots vs →
      Matched env i (p :: ps) (.out :: us) slots (none :: vs)
  | omitted {i p ps us slots vs} : p.isPureOut = false → p.isOptional = true →
      Matched env (i + 1) ps us slots vs →
      Matched env i (p :: ps) (.omitted :: us) slots (p.defaultValue :: vs)
  | arg {i p ps a us slot slots v vs} : p.isPureOut = false → a.index = i →
      (a.isParamsArray = true → p.isParamArray = true) → (a.convert env slot).1 = .ok v →
      Matched env (i + 1) ps us slots vs →
      Matched env i (p :: ps) (.arg a :: us) (slot :: slots) (v :: vs)

variable {env : LuaEnv N Obj} {i : ℕ} {ps : List (ParameterInfo N Obj)} {us : List ParamUse}
  {slots ss : List (LuaValue N)} {vs : List (Option (ClrValue N Obj))}

/-- **A match is a run of the two cursors.** -/
theorem matched_of_fill (hsel : select env i ps slots = some (us, []))
    (hfill : fill env ps us slots = .ok (vs, ss)) : Matched env i ps us slots vs := by
  induction ps generalizing i us vs slots ss with
  | nil =>
      simp only [select, Option.some.injEq, Prod.mk.injEq] at hsel
      obtain ⟨rfl, rfl⟩ := hsel
      simp only [fill, Except.ok.injEq, Prod.mk.injEq] at hfill
      obtain ⟨rfl, -⟩ := hfill
      exact .nil
  | cons p ps ih =>
      obtain ⟨u, us, hu, hus, rfl⟩ := select_cons_eq_some.mp hsel
      obtain ⟨v, ss₁, vs, ss₂, hv, hvs, rfl, rfl⟩ := fill_cons_eq_ok.mp hfill
      have hrest := ih hus hvs
      have hkind := selectParameter_spec hu
      cases u with
      | out =>
          obtain ⟨rfl, -⟩ := by simpa [fillParameter] using hv
          exact .out hkind hrest
      | omitted =>
          obtain ⟨rfl, -⟩ := by simpa [fillParameter] using hv
          exact .omitted hkind.1 hkind.2 hrest
      | arg a =>
          obtain ⟨hout, hindex, hslots, hparams⟩ := hkind
          cases slots with
          | nil => exact absurd rfl hslots
          | cons slot slots =>
              refine .arg hout hindex hparams ?_ hrest
              rw [fillParameter, List.headD_cons] at hv
              generalize a.convert env slot = converted at hv ⊢
              obtain ⟨e | v', slot'⟩ := converted
              · simp [bind, Except.bind] at hv
              · simp only [bind, Except.bind, Except.ok.injEq, Prod.mk.injEq] at hv
                exact congrArg Except.ok hv.1

namespace Matched

/-- There is one value for each parameter. -/
theorem length_values (h : Matched env i ps us slots vs) : vs.length = ps.length := by
  induction h with
  | nil => rfl
  | out _ _ ih | omitted _ _ _ ih | arg _ _ _ _ _ ih => simp [ih]

/-- There is one entry of `argTypes` for each argument. -/
theorem length_argTypes (h : Matched env i ps us slots vs) :
    (argTypesOf us).length = slots.length := by
  induction h with
  | nil => rfl
  | out _ _ ih | omitted _ _ _ ih => exact ih
  | arg _ _ _ _ _ ih => simp [ih]

/-- The places of the arguments are among those of the parameters. -/
theorem index_range (h : Matched env i ps us slots vs) :
    ∀ a ∈ argTypesOf us, i ≤ a.index ∧ a.index < i + vs.length := by
  induction h with
  | nil => simp
  | out _ _ ih | omitted _ _ _ ih =>
      intro a ha
      have := ih a ha
      rw [List.length_cons]
      omega
  | arg _ hindex _ _ _ ih =>
      rw [argTypesOf_arg, List.forall_mem_cons, List.length_cons]
      refine ⟨by omega, fun a ha => ?_⟩
      have := ih a ha
      omega

/-- Later arguments have later places. -/
theorem pairwise_index (h : Matched env i ps us slots vs) :
    (argTypesOf us).Pairwise fun a b => a.index < b.index := by
  induction h with
  | nil => exact .nil
  | out _ _ ih | omitted _ _ _ ih => exact ih
  | arg _ hindex _ _ hrest ih =>
      refine .cons (fun b hb => ?_) ih
      have := hrest.index_range b hb
      omega

/-- The entry for an argument was used on that argument, and its value is at its place. -/
theorem extracted (h : Matched env i ps us slots vs) {k : ℕ} {a : MethodArgs}
    {slot : LuaValue N} (ha : (argTypesOf us)[k]? = some a) (hslot : slots[k]? = some slot) :
    ∃ v, (a.convert env slot).1 = .ok v ∧ vs[a.index - i]? = some v := by
  induction h generalizing k with
  | nil => simp at hslot
  | out _ hrest ih | omitted _ _ hrest ih =>
      obtain ⟨v, hconvert, hv⟩ := ih ha hslot
      have hle := (hrest.index_range a (List.mem_of_getElem? ha)).1
      exact ⟨v, hconvert, by rw [List.getElem?_cons, if_neg (by omega), Nat.sub_sub, hv]⟩
  | arg _ hindex _ hconvert hrest ih =>
      cases k with
      | zero =>
          obtain rfl := by simpa using ha
          obtain rfl := by simpa using hslot
          exact ⟨_, hconvert, by simp [hindex]⟩
      | succ k =>
          rw [argTypesOf_arg, List.getElem?_cons_succ] at ha
          rw [List.getElem?_cons_succ] at hslot
          obtain ⟨v, hconvert, hv⟩ := ih ha hslot
          have hle := (hrest.index_range a (List.mem_of_getElem? ha)).1
          exact ⟨v, hconvert, by rw [List.getElem?_cons, if_neg (by omega), Nat.sub_sub, hv]⟩

/-- A parameter that takes no argument is pure out and has no value, or is optional and has its
default value. -/
theorem unnamed (h : Matched env i ps us slots vs) {k : ℕ} {p : ParameterInfo N Obj}
    (hp : ps[k]? = some p) (hnamed : ∀ a ∈ argTypesOf us, a.index ≠ i + k) :
    p.isPureOut = true ∧ vs[k]? = some none ∨
      p.isPureOut = false ∧ p.isOptional = true ∧ vs[k]? = some p.defaultValue := by
  induction h generalizing k with
  | nil => simp at hp
  | out hout _ ih =>
      cases k with
      | zero =>
          obtain rfl := by simpa using hp
          exact .inl ⟨hout, rfl⟩
      | succ k => exact ih hp fun a ha => by have := hnamed a ha; omega
  | omitted hout hopt _ ih =>
      cases k with
      | zero =>
          obtain rfl := by simpa using hp
          exact .inr ⟨hout, hopt, rfl⟩
      | succ k => exact ih hp fun a ha => by have := hnamed a ha; omega
  | arg _ hindex _ _ _ ih =>
      rw [argTypesOf_arg, List.forall_mem_cons] at hnamed
      cases k with
      | zero => exact absurd hindex hnamed.1
      | succ k => exact ih hp fun a ha => by have := hnamed.2 a ha; omega

/-- The results come from the parameters. -/
theorem le_of_mem_outListOf {ps : List (ParameterInfo N Obj)} {us : List ParamUse} {i j : ℕ}
    (h : j ∈ outListOf i ps us) : i ≤ j := by
  induction ps generalizing i us with
  | nil => simp [outListOf] at h
  | cons p ps ih =>
      cases us with
      | nil => simp [outListOf] at h
      | cons u us =>
          rw [outListOf, List.mem_append] at h
          rcases h with h | h
          · split at h
            · exact Nat.le_of_eq (List.mem_singleton.mp h).symm
            · simp at h
          · have := ih h
            omega

/-- The places of the results are in order. -/
theorem pairwise_outListOf (i : ℕ) (ps : List (ParameterInfo N Obj)) (us : List ParamUse) :
    (outListOf i ps us).Pairwise (· < ·) := by
  induction ps generalizing i us with
  | nil => simp [outListOf]
  | cons p ps ih =>
      cases us with
      | nil => simp [outListOf]
      | cons u us =>
          rw [outListOf, List.pairwise_append]
          refine ⟨by split <;> simp, ih _ _, fun j hj k hk => ?_⟩
          have hle := le_of_mem_outListOf hk
          split at hj
          · obtain rfl := List.mem_singleton.mp hj
            omega
          · simp at hj

theorem mem_outListOf_zero {i : ℕ} {p : ParameterInfo N Obj} {ps : List (ParameterInfo N Obj)}
    {u : ParamUse} {us : List ParamUse} :
    i ∈ outListOf i (p :: ps) (u :: us) ↔ u.isResult p = true := by
  rw [outListOf, List.mem_append]
  constructor
  · rintro (h | h)
    · split at h
      · assumption
      · simp at h
    · have := le_of_mem_outListOf h
      omega
  · intro h
    simp [h]

theorem mem_outListOf_succ {i k : ℕ} {p : ParameterInfo N Obj}
    {ps : List (ParameterInfo N Obj)} {u : ParamUse} {us : List ParamUse} :
    i + (k + 1) ∈ outListOf i (p :: ps) (u :: us) ↔ i + 1 + k ∈ outListOf (i + 1) ps us := by
  have hsum : i + (k + 1) = i + 1 + k := by omega
  rw [outListOf, List.mem_append, hsum]
  refine or_iff_right fun h => ?_
  split at h
  · have := List.mem_singleton.mp h
    omega
  · simp at h

/-- The results are the pure out parameters and the parameters by reference that took an
argument. -/
theorem mem_outListOf (h : Matched env i ps us slots vs)
    (hparams : ∀ p ∈ ps, p.isParamArray = true → p.parameterType.isByRef = false) {k : ℕ} :
    i + k ∈ outListOf i ps us ↔ ∃ p, ps[k]? = some p ∧
      (p.isPureOut = true ∨
        p.parameterType.isByRef = true ∧ ∃ a ∈ argTypesOf us, a.index = i + k) := by
  have hsum (i k : ℕ) : i + 1 + k = i + (k + 1) := by omega
  induction h generalizing k with
  | nil => simp [outListOf]
  | out hout hrest ih =>
      cases k with
      | zero => simp [mem_outListOf_zero, ParamUse.isResult, hout]
      | succ k =>
          refine mem_outListOf_succ.trans ((ih (List.forall_mem_cons.mp hparams).2).trans ?_)
          simp [hsum]
  | @omitted i p ps us slots vs hout _ hrest ih =>
      cases k with
      | zero =>
          have hnone : ¬∃ a ∈ argTypesOf us, a.index = i := by
            rintro ⟨a, ha, hindex⟩
            have := (hrest.index_range a ha).1
            omega
          simp [mem_outListOf_zero, ParamUse.isResult, hout, hnone]
      | succ k =>
          refine mem_outListOf_succ.trans ((ih (List.forall_mem_cons.mp hparams).2).trans ?_)
          simp [hsum]
  | @arg i p ps a us slot slots v vs hout hindex hparam _ hrest ih =>
      cases k with
      | zero =>
          have hflag : p.parameterType.isByRef = true → a.isParamsArray = false := fun href => by
            have hp := hparams p List.mem_cons_self
            cases harray : a.isParamsArray with
            | false => rfl
            | true => exact absurd href (by simp [hp (hparam harray)])
          simp only [Nat.add_zero, mem_outListOf_zero, ParamUse.isResult, argTypesOf_arg]
          simpa [hout, hindex] using hflag
      | succ k =>
          refine mem_outListOf_succ.trans ((ih (List.forall_mem_cons.mp hparams).2).trans ?_)
          have hne : a.index ≠ i + (k + 1) := by omega
          simp [hsum, hne]

end Matched

/-! ### The answer -/

/-- What an entry says when it comes from a match of the method against the slots. -/
structure MeansMatch (env : LuaEnv N Obj) (m : MethodBase N Obj) (slots : List (LuaValue N))
    (c : MethodCache N Obj) : Prop where
  cachedMethod : c.cachedMethod = m
  args_length : c.args.length = m.parameters.length
  argTypes_length : c.argTypes.length = slots.length
  index_lt : ∀ a ∈ c.argTypes, a.index < c.args.length
  index_increasing : c.argTypes.Pairwise fun a b => a.index < b.index
  extracted : ∀ (k : ℕ) (a : MethodArgs) (slot : LuaValue N), c.argTypes[k]? = some a →
    slots[k]? = some slot → ∃ v, (a.convert env slot).1 = .ok v ∧ c.args[a.index]? = some v
  unnamed : ∀ (i : ℕ) (p : ParameterInfo N Obj), m.parameters[i]? = some p →
    (∀ a ∈ c.argTypes, a.index ≠ i) →
      p.isPureOut = true ∧ c.args[i]? = some none ∨
        p.isPureOut = false ∧ p.isOptional = true ∧ c.args[i]? = some p.defaultValue
  outList_increasing : c.outList.Pairwise (· < ·)
  mem_outList : ∀ i, i ∈ c.outList ↔ ∃ p, m.parameters[i]? = some p ∧
    (p.isPureOut = true ∨ p.parameterType.isByRef = true ∧ ∃ a ∈ c.argTypes, a.index = i)

/-- The entry of a run of the two cursors. -/
theorem Matched.meansMatch {m : MethodBase N Obj} (h : Matched env 0 m.parameters us slots vs)
    (hparams : ∀ p ∈ m.parameters, p.isParamArray = true → p.parameterType.isByRef = false) :
    MeansMatch env m slots (cacheOf m us vs) where
  cachedMethod := rfl
  args_length := h.length_values
  argTypes_length := h.length_argTypes
  index_lt a ha := by simpa [cacheOf] using (h.index_range a ha).2
  index_increasing := h.pairwise_index
  extracted _ _ _ ha hslot := h.extracted ha hslot
  unnamed _ _ hp hnamed := h.unnamed hp fun a ha => by simpa using hnamed a ha
  outList_increasing := pairwise_outListOf 0 m.parameters us
  mem_outList i := by simpa [cacheOf] using h.mem_outListOf hparams (k := i)

/-- **What a successful match means.** The cache says of each parameter where its value comes
from, of each argument where it went, and which places are results. Without a match, and when a
conversion throws, the cache stays. -/
theorem matchParameters_meaning (env : LuaEnv N Obj) (slots : List (LuaValue N))
    (m : MethodBase N Obj) (methodCache : Option (MethodCache N Obj))
    (hparams : ∀ p ∈ m.parameters, p.isParamArray = true → p.parameterType.isByRef = false) :
    Exits
      (fun r methodCache' =>
        if r.1 = true then ∃ c, methodCache' = some c ∧ MeansMatch env m slots c
        else methodCache' = methodCache)
      (fun _ methodCache' => methodCache' = methodCache)
      (matchParametersRef env slots m methodCache) := by
  rw [matchParametersRef_eq]
  cases hmatch : matchParameters env slots m with
  | error e => rfl
  | ok r =>
      obtain ⟨_ | c, slots'⟩ := r
      · rfl
      · obtain ⟨us, vs, hsel, hfill, rfl⟩ := select_of_matchParameters hmatch
        exact ⟨_, rfl, (matched_of_fill hsel hfill).meansMatch hparams⟩

/-- A method with a parameter of each kind. -/
def everyKind : MethodBase ℤ ℕ where
  id := 1
  name := "M"
  reflectedType := "T"
  parameters :=
    [{ parameterType := .byRef .double }, { parameterType := .byRef .bool, isOut := true },
     { parameterType := .class 1, isOptional := true },
     { parameterType := .array .double, isParamArray := true }]

theorem matchParameters_everyKind :
    (matchParametersRef LuaEnv.plain [.number 1, .number 2] everyKind none).1 =
        .ok (true, [.number 1, .number 2]) ∧
      Exits
        (fun r methodCache' =>
          if r.1 = true then
            ∃ c, methodCache' = some c ∧
              MeansMatch LuaEnv.plain everyKind [.number 1, .number 2] c
          else methodCache' = none)
        (fun _ methodCache' => methodCache' = none)
        (matchParametersRef LuaEnv.plain [.number 1, .number 2] everyKind none) :=
  ⟨rfl, matchParameters_meaning _ _ _ _ (by decide)⟩

end UnityLua
