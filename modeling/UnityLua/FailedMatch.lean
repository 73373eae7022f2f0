import UnityLua.ArgumentMatching

/-!
# What a failed match leaves behind

`matchParameters` converts an argument as soon as its parameter has been found, so that the
arguments in front of a mismatch have been converted when the method is given up. Some conversions
change the slot that they read, and the next overload is tried on the changed slots.

## Main results

* `extract_keeps_iff`: which conversions change their slot.
* `matchLoop_slots`: the slots after any number of rounds.
* `matchParameters_failed_iff`: when a failed match leaves the arguments alone.
-/

namespace UnityLua

variable {N Obj : Type}

/-- The conversion changes the slot: a number becomes a string, or a table gives way to the object
that its `__index` is. -/
def Extractor.Changes (env : LuaEnv N Obj) : Extractor → LuaValue N → Prop
  | .getAsString, .number _ => True
  | .getAsObject, .table id | .getAsNetObject, .table id =>
      ∃ v, env.metaIndex id = some v ∧ env.checkMetaTable v = true ∧ v ≠ .table id
  | _, _ => False

theorem replaceByIndex_keeps_iff (env : LuaEnv N Obj) (id : ℕ) :
    replaceByIndex env (.table id) = .table id ↔
      ¬∃ v, env.metaIndex id = some v ∧ env.checkMetaTable v = true ∧ v ≠ .table id := by
  rw [replaceByIndex, LuaEnv.getMetaIndex]
  cases env.metaIndex id with
  | none => simp
  | some v => cases h : env.checkMetaTable v <;> simp [h]

/-- **The conversions that change their slot.** -/
theorem extract_keeps_iff (env : LuaEnv N Obj) (e : Extractor) (slot : LuaValue N) :
    (e.extract env slot).2 = slot ↔ ¬e.Changes env slot := by
  have hnumber (isZero : Bool) (v : ClrValue N Obj) :
      (nullUnlessNumber env slot isZero v).2 = slot := by
    rw [nullUnlessNumber]
    split <;> rfl
  cases e with
  | getAsIntegral t => exact iff_of_true (hnumber _ _) id
  | getAsDouble | getAsFloat => exact iff_of_true (hnumber _ _) id
  | getAsDecimal =>
      simp only [Extractor.extract, GetAsDecimal]
      cases env.toDecimal (env.toNumber slot) with
      | none => simp [Extractor.Changes]
      | some n => exact iff_of_true (hnumber _ _) id
  | getAsString =>
      cases slot <;>
        simp [Extractor.extract, GetAsString, LuaEnv.toLString, Extractor.Changes]
  | getAsObject =>
      cases slot with
      | table id => exact replaceByIndex_keeps_iff env id
      | _ => simp [Extractor.extract, GetAsObject, replaceByIndex, LuaEnv.getMetaIndex,
          Extractor.Changes]
  | getAsNetObject =>
      simp only [Extractor.extract, GetAsNetObject]
      cases slot with
      | table id => exact replaceByIndex_keeps_iff env id
      | userdata id => cases h : env.netObject id <;>
          simp [h, LuaEnv.getNetObject, replaceByIndex, LuaEnv.getMetaIndex, Extractor.Changes]
      | _ => simp [LuaEnv.getNetObject, replaceByIndex, LuaEnv.getMetaIndex, Extractor.Changes]
  | _ => simp [Extractor.extract, GetAsBoolean, GetAsFunction, GetAsTable, GetAsUserdata,
      Extractor.Changes]

/-! ### The arguments taken before a mismatch -/

/-- The argument that a parameter takes. -/
def ParamUse.taken : ParamUse → List (LuaValue N) → List (MethodArgs × LuaValue N)
  | .arg a, slot :: _ => [(a, slot)]
  | _, _ => []

/-- The arguments that the parameters take, up to the first one without a choice. -/
def taken (env : LuaEnv N Obj) :
    ℕ → List (ParameterInfo N Obj) → List (LuaValue N) → List (MethodArgs × LuaValue N)
  | _, [], _ => []
  | i, p :: ps, slots =>
      match selectParameter env i p slots with
      | none => []
      | some u => u.taken slots ++ taken env (i + 1) ps (u.rest slots)

/-- None of the arguments is changed by its conversion. -/
def KeptByAll (env : LuaEnv N Obj) (args : List (MethodArgs × LuaValue N)) : Prop :=
  ∀ x ∈ args, ¬x.1.extractValue.Changes env x.2

/-- What a parameter does to the slots: only the one that it takes may be another afterwards. -/
theorem fillParameter_slots {env : LuaEnv N Obj} {i : ℕ} {p : ParameterInfo N Obj}
    {u : ParamUse} {slots read : List (LuaValue N)} {v : Option (ClrValue N Obj)}
    (hu : selectParameter env i p slots = some u)
    (hfill : fillParameter env p slots u = .ok (v, read)) :
    read.length + (u.rest slots).length = slots.length ∧
      ∀ ss, read ++ ss = slots ↔ KeptByAll env (u.taken slots) ∧ ss = u.rest slots := by
  have hkind := selectParameter_spec hu
  cases u with
  | out | omitted =>
      obtain ⟨-, rfl⟩ := by simpa [fillParameter] using hfill
      simp [ParamUse.rest, ParamUse.taken, KeptByAll]
  | arg a =>
      obtain ⟨-, -, hslots, -⟩ := hkind
      obtain ⟨slot, slots, rfl⟩ := List.exists_cons_of_ne_nil hslots
      rw [fillParameter, List.headD_cons] at hfill
      have hslot : (a.convert env slot).2 = slot ↔ ¬a.extractValue.Changes env slot :=
        extract_keeps_iff env a.extractValue slot
      generalize a.convert env slot = converted at hfill hslot
      obtain ⟨e | v', slot'⟩ := converted
      · simp [bind, Except.bind] at hfill
      · obtain ⟨-, rfl⟩ := by simpa [bind, Except.bind] using hfill
        simp only at hslot
        simp [ParamUse.rest, ParamUse.taken, KeptByAll, hslot, Nat.add_comm]

/-- **The slots after the loop.** They are the slots from before if no argument is changed, whether
the loop came to its end or not. -/
theorem matchLoop_slots {env : LuaEnv N Obj} {ps : List (ParameterInfo N Obj)}
    {s s' : MatchState N Obj} {isMethod : Bool} (h : matchLoop env ps s = .ok (isMethod, s')) :
    ∃ ss, s'.matched ++ s'.rest = s.matched ++ ss ∧ ss.length = s.rest.length ∧
      (ss = s.rest ↔ KeptByAll env (taken env s.paramList.length ps s.rest)) := by
  induction ps generalizing s with
  | nil =>
      obtain ⟨-, rfl⟩ := by simpa [matchLoop] using h
      exact ⟨s.rest, rfl, rfl, by simp [taken, KeptByAll]⟩
  | cons p ps ih =>
      rw [matchLoop_cons] at h
      rw [taken]
      cases hu : selectParameter env s.paramList.length p s.rest with
      | none =>
          obtain ⟨-, rfl⟩ := by simpa [hu] using h
          exact ⟨s.rest, rfl, rfl, by simp [KeptByAll]⟩
      | some u =>
          rw [hu] at h
          dsimp only at h ⊢
          cases hfill : fillParameter env p s.rest u with
          | error e => simp [hfill, bind, Except.bind] at h
          | ok r =>
              obtain ⟨v, read⟩ := r
              obtain ⟨hlength, hread⟩ := fillParameter_slots hu hfill
              rw [hfill] at h
              obtain ⟨ss, hss, hlen, hkept⟩ := @ih (s.follow p u (v, read)) h
              have hnumber : (s.follow p u (v, read)).paramList.length = s.paramList.length + 1 := by
                simp [MatchState.follow]
              have hrest : (s.follow p u (v, read)).rest = u.rest s.rest := rfl
              rw [hrest] at hlen
              rw [hnumber, hrest] at hkept
              refine ⟨read ++ ss, ?_, ?_, ?_⟩
              · rw [hss, ← List.append_assoc]
                rfl
              · rw [List.length_append, hlen, hlength]
              · rw [hread, hkept]
                simp only [KeptByAll, List.mem_append, or_imp, forall_and]

/-! ### A method that does not match -/

/-- A failed match may be forgotten: the slots are as they were, and the methods that are tried next
match or fail as if this one had not been tried. -/
structure LeavesAlone (env : LuaEnv N Obj) (m : MethodBase N Obj) (slots ss : List (LuaValue N)) :
    Prop where
  height : ss.length = slots.length
  same : ss = slots
  later : ∀ ms, matchMembers env (m :: ms) slots = matchMembers env ms slots

theorem matchParameters_failed_slots {env : LuaEnv N Obj} {m : MethodBase N Obj}
    {slots ss : List (LuaValue N)} (h : matchParameters env slots m = .ok (none, ss)) :
    ss.length = slots.length ∧
      (ss = slots ↔ KeptByAll env (taken env 0 m.parameters slots)) := by
  rw [matchParameters] at h
  cases hloop : matchLoop env m.parameters ⟨[], slots, [], [], []⟩ with
  | error e => simp [hloop, bind, Except.bind] at h
  | ok r =>
      obtain ⟨isMethod, s⟩ := r
      obtain ⟨ss', hss, hlength, hkept⟩ := matchLoop_slots hloop
      have hend : s.matched ++ s.rest = ss := by
        simp only [hloop, bind, Except.bind] at h
        split at h
        · simp at h
        · simpa using h
      rw [hend, List.nil_append] at hss
      exact hss ▸ ⟨hlength, hkept⟩

/-- **A failed match leaves the arguments alone** exactly if none of those that were taken before
the mismatch is changed by its conversion. -/
theorem matchParameters_failed_iff {env : LuaEnv N Obj} {m : MethodBase N Obj}
    {slots ss : List (LuaValue N)} (h : matchParameters env slots m = .ok (none, ss)) :
    LeavesAlone env m slots ss ↔ KeptByAll env (taken env 0 m.parameters slots) := by
  obtain ⟨hlength, hkept⟩ := matchParameters_failed_slots h
  rw [← hkept]
  refine ⟨LeavesAlone.same, fun hss => ⟨hlength, hss, fun ms => ?_⟩⟩
  rw [matchMembers, h, hss]
  rfl

/-- A method that takes a text and an object. -/
def textAndObject : MethodBase ℤ ℕ where
  id := 1
  name := "M"
  reflectedType := "T"
  parameters := [{ parameterType := .string }, { parameterType := .class 1 }]

theorem textAndObject_failed :
    LeavesAlone LuaEnv.plain textAndObject [.string "a", .number 2] [.string "a", .number 2] ↔
      KeptByAll LuaEnv.plain
        (taken LuaEnv.plain 0 textAndObject.parameters [.string "a", .number 2]) :=
  matchParameters_failed_iff (by rfl)

/-- A number that is read as a text before the mismatch has become one. -/
theorem failedMatch_changes_slots :
    ¬∀ (m : MethodBase ℤ ℕ) (slots ss : List (LuaValue ℤ)),
      matchParameters LuaEnv.plain slots m = .ok (none, ss) → LeavesAlone LuaEnv.plain m slots ss := by
  intro h
  have hleaves := h textAndObject [.number 1, .number 2] [.string "1", .number 2] (by rfl)
  exact absurd hleaves.same (by decide)

end UnityLua
