import UnityLua.ClassMembers
import UnityLua.Operands

/-!
# Exceptions that escape

A metamethod that Lua calls should return or raise an error in Lua. An exception that it lets
through ends up in the frames of the interpreter.

## Main results

* `conversionReturns_iff`: when `getAsType` returns instead of throwing.
* `fault_not_exception_iff`: when a metamethod lets no exception through.
-/

namespace UnityLua

open Library Prog

variable {N Obj W : Type}

/-! ### Conversions -/

/-- `getAsType` does not throw. For a number it looks for the type in the table of conversions, and
so it does with text for `char[]`, which is not in the table. -/
def ConversionReturns (env : LuaEnv N Obj) (slot : LuaValue N) (type : ClrType) : Prop :=
  let type := type.stripByRef.stripNullable
  if env.isNumber slot = true ∧ type.isGenericParameter = false then
    (extractValues type).isSome = true ∧
      (type = .decimal → (env.toDecimal (env.toNumber slot)).isSome = true)
  else type = .charArray → slot.luaType ≠ .LUA_TSTRING

section Conversions

variable {env : LuaEnv N Obj} {slot : LuaValue N} {type : ClrType}

/-- Of the conversions only those to `decimal` and to strings can throw. -/
theorem extract_returns {e : Extractor} (hdecimal : e ≠ .getAsDecimal)
    (hstring : e = .getAsString → env.isString slot = true) :
    ∃ v, (e.extract env slot).1 = .ok v := by
  have hnull (isZero : Bool) (x : ClrValue N Obj) :
      ∃ v, (nullUnlessNumber env slot isZero x).1 = .ok v := by
    rw [nullUnlessNumber]
    split
    · exact ⟨_, rfl⟩
    · exact ⟨_, rfl⟩
  cases e with
  | getAsDecimal => exact absurd rfl hdecimal
  | getAsString =>
      have hslot := hstring rfl
      cases slot with
      | number n => exact ⟨_, rfl⟩
      | string s => exact ⟨_, rfl⟩
      | _ => cases hslot
  | getAsIntegral t => exact hnull _ _
  | getAsDouble => exact hnull _ _
  | getAsFloat => exact hnull _ _
  | getAsNetObject =>
      simp only [Extractor.extract, GetAsNetObject]
      split
      · exact ⟨_, rfl⟩
      · exact ⟨_, rfl⟩
  | _ => exact ⟨_, rfl⟩

/-- The conversions of the table, for a number. -/
theorem extractValues_returns {e : Extractor} (hnumber : env.isNumber slot = true)
    (he : extractValues type = some e) :
    (∃ v, (e.extract env slot).1 = .ok v) ↔
      (type = .decimal → (env.toDecimal (env.toNumber slot)).isSome = true) := by
  by_cases hdecimal : type = .decimal
  · subst hdecimal
    obtain rfl : Extractor.getAsDecimal = e := Option.some.inj he
    simp only [Extractor.extract, GetAsDecimal, true_imp_iff]
    cases hvalue : env.toDecimal (env.toNumber slot) with
    | none => simp
    | some x =>
        dsimp only
        rw [nullUnlessNumber]
        split <;> simp
  · refine iff_of_true (extract_returns ?_ fun _ => LuaEnv.isString_of_isNumber hnumber)
      fun h => absurd h hdecimal
    rintro rfl
    cases type with
    | decimal => exact hdecimal rfl
    | _ => cases he

/-- A conversion was looked for, and the one that was found, if any, returns. -/
def LookupReturns (env : LuaEnv N Obj) (slot : LuaValue N)
    (found : Except Exn (Option Extractor)) : Prop :=
  ∃ e, found = .ok e ∧ ∀ e', e = some e' → ∃ v, (e'.extract env slot).1 = .ok v

theorem lookupReturns_some {e : Extractor} :
    LookupReturns env slot (.ok (some e)) ↔ ∃ v, (e.extract env slot).1 = .ok v := by
  constructor
  · rintro ⟨found, hfound, hreturns⟩
    exact hreturns e (Except.ok.inj hfound).symm
  · intro h
    refine ⟨_, rfl, fun e' he' => ?_⟩
    obtain rfl := Option.some.inj he'
    exact h

theorem lookupReturns_none : LookupReturns env slot (.ok none) :=
  ⟨none, rfl, fun e he => by cases he⟩

theorem not_lookupReturns_error {e : Exn} : ¬LookupReturns env slot (.error e) := by
  rintro ⟨found, hfound, -⟩
  cases hfound

theorem lookupReturns_ite {p : Prop} [Decidable p] {x y : Except Exn (Option Extractor)} :
    LookupReturns env slot (if p then x else y) ↔
      (p → LookupReturns env slot x) ∧ (¬p → LookupReturns env slot y) := by
  split
  · next h => simp [h]
  · next h => simp [h]

theorem lookupReturns_checkNetObject :
    LookupReturns env slot (.ok (checkNetObject env slot type)) := by
  refine ⟨_, rfl, fun e he => extract_returns ?_ ?_⟩
  all_goals
    rintro rfl
    unfold checkNetObject at he
    dsimp only at he
    split at he
    · split at he <;> cases he
    · cases he

/-- A value that does not read as a number. -/
theorem lookupReturns_other (hnumber : env.isNumber slot = false) :
    LookupReturns env slot (checkOtherType env slot type) ↔
      (type = .charArray → slot.luaType ≠ .LUA_TSTRING) := by
  have hsome {e : Extractor} (hdecimal : e ≠ .getAsDecimal) (hstring : e ≠ .getAsString) :
      LookupReturns env slot (.ok (some e)) :=
    lookupReturns_some.mpr (extract_returns hdecimal fun he => absurd he hstring)
  have hnet : LookupReturns env slot (.ok (some .getAsNetObject)) := hsome (by simp) (by simp)
  by_cases hcharArray : type = .charArray
  · subst hcharArray
    rw [checkOtherType, lookupReturns_ite, lookupReturns_ite]
    constructor
    · intro h _ htype
      refine not_lookupReturns_error (h.1 ?_)
      cases slot with
      | string s => rfl
      | _ => cases htype
    · intro h
      refine ⟨fun hstring => ?_, fun _ => ⟨fun _ => hnet, fun _ => lookupReturns_none⟩⟩
      cases slot with
      | number n => cases hnumber
      | string s => exact absurd rfl (h rfl)
      | _ => cases hstring
  · refine iff_of_true ?_ fun h => absurd h hcharArray
    cases type with
    | charArray => exact absurd rfl hcharArray
    | bool =>
        exact lookupReturns_ite.mpr
          ⟨fun _ => hsome (by simp) (by simp), fun _ => lookupReturns_none⟩
    | string =>
        refine lookupReturns_ite.mpr ⟨fun hstring => ?_, fun _ => lookupReturns_ite.mpr
          ⟨fun _ => hnet, fun _ => lookupReturns_none⟩⟩
        exact lookupReturns_some.mpr (extract_returns (by simp) fun _ => hstring)
    | luaTable | luaUserData | luaFunction =>
        exact lookupReturns_ite.mpr
          ⟨fun _ => hsome (by simp) (by simp), fun _ => lookupReturns_none⟩
    | delegate id =>
        exact lookupReturns_ite.mpr ⟨fun _ => hsome (by simp) (by simp), fun _ =>
          lookupReturns_ite.mpr ⟨fun _ => hnet, fun _ => lookupReturns_checkNetObject⟩⟩
    | interface id =>
        exact lookupReturns_ite.mpr ⟨fun _ => hsome (by simp) (by simp), fun _ =>
          lookupReturns_ite.mpr ⟨fun _ => hnet, fun _ => lookupReturns_checkNetObject⟩⟩
    | _ =>
        simp only [checkOtherType]
        exact lookupReturns_ite.mpr ⟨fun _ => hnet, fun _ => lookupReturns_checkNetObject⟩

theorem checkGenericParameter_returns {e : Extractor} (h : checkGenericParameter slot = some e) :
    ∃ v, (e.extract env slot).1 = .ok v := by
  refine extract_returns ?_ ?_
  · rintro rfl
    cases slot <;> cases h
  · rintro rfl
    cases slot with
    | string s => rfl
    | _ => cases h

/-- A value for a generic parameter that is neither a string nor a number. -/
theorem lookupReturns_genericParameter (hgeneric : type.isGenericParameter = true)
    (hcheck : checkGenericParameter slot = none) :
    LookupReturns env slot
      (if env.isNumber slot then extractValuesOf type else checkOtherType env slot type) := by
  have hnumber : env.isNumber slot = false := by
    cases slot with
    | number n => cases hcheck
    | string s => cases hcheck
    | _ => rfl
  rw [hnumber, if_neg Bool.false_ne_true]
  refine (lookupReturns_other hnumber).mpr ?_
  rintro rfl
  cases hgeneric

/-- A value that reads as a number. -/
theorem lookupReturns_number (hnumber : env.isNumber slot = true) :
    LookupReturns env slot (extractValuesOf type) ↔ (extractValues type).isSome = true ∧
      (type = .decimal → (env.toDecimal (env.toNumber slot)).isSome = true) := by
  rw [extractValuesOf]
  cases htable : extractValues type with
  | none => exact iff_of_false not_lookupReturns_error fun h => by cases h.1
  | some e =>
      rw [lookupReturns_some, extractValues_returns hnumber htable]
      exact ⟨fun h => ⟨rfl, h⟩, fun h => h.2⟩

theorem valueAsType_returns_iff : (∃ v, valueAsType env slot type = .ok v) ↔
    LookupReturns env slot (CheckLuaType env slot type) := by
  rw [valueAsType, getAsType]
  rcases CheckLuaType env slot type with e | _ | e
  · refine iff_of_false ?_ not_lookupReturns_error
    rintro ⟨v, hv⟩
    cases hv
  · exact iff_of_true ⟨none, rfl⟩ lookupReturns_none
  · exact lookupReturns_some.symm

/-- **When `getAsType` returns.** -/
theorem conversionReturns_iff :
    (∃ v, valueAsType env slot type = .ok v) ↔ ConversionReturns env slot type := by
  rw [valueAsType_returns_iff, CheckLuaType, ConversionReturns]
  generalize type.stripByRef.stripNullable = type
  by_cases hobject : type = .object
  · subst hobject
    rw [if_pos rfl]
    refine iff_of_true (lookupReturns_some.mpr ⟨_, rfl⟩) ?_
    split
    · exact ⟨rfl, fun h => by cases h⟩
    · intro h
      cases h
  · rw [if_neg hobject]
    cases hgeneric : type.isGenericParameter with
    | true =>
        have hcharArray : type ≠ .charArray := by
          rintro rfl
          cases hgeneric
        simp only [if_true, Bool.true_eq_false, and_false, if_false]
        refine iff_of_true ?_ fun h => absurd h hcharArray
        cases hcheck : checkGenericParameter slot with
        | some e => exact lookupReturns_some.mpr (checkGenericParameter_returns hcheck)
        | none => exact lookupReturns_genericParameter hgeneric hcheck
    | false =>
        simp only [Bool.false_eq_true, if_false, and_true]
        cases hnumber : env.isNumber slot with
        | false =>
            simp only [Bool.false_eq_true, if_false]
            exact lookupReturns_other hnumber
        | true =>
            simp only [if_true]
            exact lookupReturns_number hnumber

end Conversions

/-! ### Outcomes -/

/-- The program ends without an exception that nothing has caught. -/
def Contained {σ α : Type} (out : Except AccessFault α × σ) : Prop :=
  ∀ e, out.1 ≠ .error (.exception e)

section Outcomes

variable {σ α β : Type} {s s' : σ}

theorem contained_ok {a : α} : Contained ((.ok a, s) : Except AccessFault α × σ) :=
  fun e he => by cases he

theorem contained_error {e : LuaError} :
    Contained ((.error (.error e), s) : Except AccessFault α × σ) := fun e he => by cases he

theorem not_contained {e : Exn} :
    ¬Contained ((.error (.exception e), s) : Except AccessFault α × σ) := fun h => h e rfl

theorem contained_of_triple {x : Prog σ AccessFault α}
    (h : Triple (fun _ => True) x (fun _ _ => True) fun e _ => ∃ error, e = .error error) (s : σ) :
    Contained (x s) := by
  intro e he
  have hexit := h s trivial
  rcases hrun : x s with ⟨e' | a, s'⟩
  · rw [hrun] at he hexit
    obtain ⟨error, rfl⟩ := hexit
    cases he
  · rw [hrun] at he
    cases he

theorem contained_fault_iff {e : AccessFault} :
    Contained ((.error e, s) : Except AccessFault α × σ) ↔ ∀ e', e ≠ .exception e' :=
  ⟨fun h e' he' => h e' (congrArg Except.error he'), fun h e' he' => h e' (Except.error.inj he')⟩

theorem contained_bind_iff {x : Prog σ AccessFault α} {f : α → Prog σ AccessFault β}
    (hf : ∀ a s, Contained (f a s)) : Contained ((x >>= f) s) ↔ Contained (x s) := by
  rcases hrun : x s with ⟨e | a, s'⟩
  · rw [bind_error hrun, contained_fault_iff, contained_fault_iff]
  · rw [bind_ok hrun]
    exact iff_of_true (hf a s') contained_ok

theorem contained_uncaught_iff {x : Prog σ Exn α} :
    Contained (uncaught x s) ↔ ∃ a s', x s = (.ok a, s') := by
  rcases hrun : x s with ⟨e | a, s'⟩
  · rw [uncaught_error hrun]
    exact iff_of_false not_contained fun ⟨a, s'', h⟩ => by cases (Prod.mk.inj h).1
  · rw [uncaught_ok hrun]
    exact iff_of_true contained_ok ⟨a, s', rfl⟩

/-- A program with a handler around it, and the handler. -/
theorem contained_attempt {ε : Type} {x : Prog σ ε α}
    {f : Except ε α → Prog σ AccessFault β} (hf : ∀ result s, Contained (f result s)) :
    Contained ((attempt x >>= f) s) :=
  hf (x s).1 (x s).2

theorem contained_beside {κ : Type} {x : Prog σ AccessFault α} {k : κ} :
    Contained (beside x (k, s)) ↔ Contained (x s) :=
  Iff.rfl

theorem contained_performs_iff {got : Except Exn α} {operation : α → Prog σ Exn β} :
    Contained (performs AccessFault.reported .exception false got operation s) ↔
      ∃ v, got = .ok v := by
  cases got with
  | error e =>
      rw [performs_error]
      exact iff_of_false not_contained fun ⟨v, hv⟩ => by cases hv
  | ok v =>
      refine iff_of_true ?_ ⟨v, rfl⟩
      rw [performs_ok]
      rcases operation v s with ⟨e | b, s'⟩
      · exact contained_error
      · exact contained_ok

end Outcomes

/-! ### Objects -/

namespace Reflection

variable (r : Reflection N Obj W)

/-- The name is not one that a method is cached under, and the conversion to the type of a field or
a property returns. -/
def SafeAssignment (obj : Obj) (slot value : LuaValue N) (s : Caches N Obj × W) : Prop :=
  match r.assignTarget (r.typeOf obj) slot s.1 with
  | .error _ => False
  | .ok (some m) => ConversionReturns (r.env s.2) value m.type
  | .ok none => True

/-- The conversions of the index return, and `Invoke` throws nothing but what the indexers throw. -/
def SafeItems (obj : Obj) : List Accessor → LuaValue N → W → Prop
  | [], _, _ => True
  | getter :: getters, slot, w =>
      ∀ t, getter.parameters = [t] → ConversionReturns (r.env w) slot t ∧
        ∀ index, valueAsType (r.env w) slot t = .ok index →
          (∀ e w', r.invokeGetter getter obj index w = (.error e, w') → ∃ n, e = .thrown n) ∧
            ∀ result w', r.invokeGetter getter obj index w = (.ok result, w') →
              SafeItems obj getters (getAsType (r.env w) slot t).2 w'

/-- An index into an array is behind its end, or `GetValue` returns. -/
def SafeRead (obj : Obj) (slot : LuaValue N) (w : W) : Prop :=
  match r.elementType (r.typeOf obj), slot with
  | some _, .number n =>
      r.arrayLength obj w ≤ (r.env w).toIntegral .int n ∨
        ∃ v w', r.getElement obj ((r.env w).toIntegral .int n) w = (.ok v, w')
  | _, slot => r.SafeItems obj (r.oneIndexGetters (r.typeOf obj)) slot w

variable {r} {obj : Obj} {slot value : LuaValue N} {w : W} {s : Caches N Obj × W}

theorem contained_setFieldOrProperty_iff :
    Contained (r.setFieldOrProperty obj slot value s) ↔ r.SafeAssignment obj slot value s := by
  obtain ⟨k, w⟩ := s
  change Contained (visible (r.setFieldOrProperty obj slot value (k, w))) ↔ _
  rw [SafeAssignment]
  cases htarget : r.assignTarget (r.typeOf obj) slot k with
  | error e =>
      rw [setFieldOrProperty_of_error htarget]
      exact iff_of_false not_contained id
  | ok found =>
      cases found with
      | none =>
          obtain ⟨d, hout⟩ := setFieldOrProperty_of_none value w htarget
          rw [hout]
          exact iff_of_true (contained_of_triple (setWithout_error d) w) trivial
      | some m =>
          rw [setFieldOrProperty_of_some htarget, contained_performs_iff]
          exact conversionReturns_iff

theorem safeItems_cons {getter : Accessor} {getters : List Accessor} {t : ClrType}
    (hgetter : getter.parameters = [t]) :
    r.SafeItems obj (getter :: getters) slot w ↔
      ConversionReturns (r.env w) slot t ∧
        ∀ index, valueAsType (r.env w) slot t = .ok index →
          (∀ e w', r.invokeGetter getter obj index w = (.error e, w') → ∃ n, e = .thrown n) ∧
            ∀ result w', r.invokeGetter getter obj index w = (.ok result, w') →
              r.SafeItems obj getters (getAsType (r.env w) slot t).2 w' := by
  rw [SafeItems]
  refine ⟨fun h => h t hgetter, fun h t' ht' => ?_⟩
  obtain rfl := List.singleton_inj.mp (hgetter.symm.trans ht')
  exact h

/-- The search by name lets no exception through. -/
theorem contained_tryName (c : ClrClass) (s : Caches N Obj × W) :
    Contained (r.tryName c obj slot s) := by
  refine contained_of_triple ?_ s
  cases slot with
  | string name =>
      refine .bind (R := fun _ _ => True) (fun _ _ => trivial) fun present => ?_
      cases present with
      | false => exact .pure fun _ _ => trivial
      | true =>
          refine .bind (R := fun _ _ => True) (fun _ _ => trivial) fun found => ?_
          rcases found with (e | e) | v
          · exact .throw fun _ _ => ⟨e, rfl⟩
          · exact .pure fun _ _ => trivial
          · exact .pure fun _ _ => trivial
  | _ => exact .pure fun _ _ => trivial

theorem contained_tryGetItems_iff {getters : List Accessor}
    (hgetters : ∀ g ∈ getters, ∃ t, g.parameters = [t]) (index : Option (ClrValue N Obj))
    (result : Option (Option (ClrValue N Obj))) :
    Contained (r.tryGetItems obj getters slot index result w) ↔ r.SafeItems obj getters slot w := by
  induction getters generalizing slot index result w with
  | nil =>
      refine iff_of_true ?_ trivial
      cases result with
      | none => exact contained_ok
      | some v => exact contained_ok
  | cons getter getters ih =>
      obtain ⟨t, hgetter⟩ := hgetters getter List.mem_cons_self
      have ih := fun slot w index result => @ih slot w
        (fun g hg => hgetters g (List.mem_cons_of_mem _ hg)) index result
      rw [safeItems_cons hgetter, ← conversionReturns_iff]
      cases hvalue : valueAsType (r.env w) slot t with
      | error e =>
          rw [tryGetItems_error hgetter hvalue]
          exact iff_of_false not_contained fun h => by
            obtain ⟨v, hv⟩ := h.1
            cases hv
      | ok v =>
          have hforall {P : Option (ClrValue N Obj) → Prop} :
              ((∃ v', (Except.ok v : Except Exn _) = .ok v') ∧
                ∀ index, (Except.ok v : Except Exn _) = .ok index → P index) ↔ P v := by
            refine ⟨fun h => h.2 v rfl, fun h => ⟨⟨v, rfl⟩, fun index hindex => ?_⟩⟩
            obtain rfl := Except.ok.inj hindex
            exact h
          rw [hforall]
          rcases hrun : r.invokeGetter getter obj v w with ⟨e | x, w'⟩
          · by_cases hthrown : ∃ n, e = .thrown n
            · obtain ⟨n, rfl⟩ := hthrown
              obtain ⟨message, hout⟩ := tryGetItems_thrown hgetter hvalue hrun
              rw [hout]
              refine iff_of_true contained_ok ⟨fun e' w'' he' => ?_, fun x w'' hx => ?_⟩
              · obtain rfl := Except.error.inj (Prod.mk.inj he').1
                exact ⟨n, rfl⟩
              · cases (Prod.mk.inj hx).1
            · rw [tryGetItems_escape hgetter hvalue hrun fun n hn => hthrown ⟨n, hn⟩]
              exact iff_of_false not_contained fun h => hthrown (h.1 e w' rfl)
          · rw [tryGetItems_ok hgetter hvalue hrun, ih]
            refine ⟨fun h => ⟨fun e' w'' he' => ?_, fun x' w'' hx' => ?_⟩, fun h => h.2 x w' rfl⟩
            · cases (Prod.mk.inj he').1
            · obtain rfl := (Prod.mk.inj hx').2
              exact h

theorem contained_readElement_iff {i : ℤ} :
    Contained (r.readElement obj i w) ↔
      r.arrayLength obj w ≤ i ∨ ∃ v w', r.getElement obj i w = (.ok v, w') := by
  rw [readElement, gets_bind]
  by_cases hbound : (r.arrayLength obj w : ℤ) ≤ i
  · rw [if_pos hbound]
    exact iff_of_true contained_ok (.inl hbound)
  · rw [if_neg hbound, or_iff_right hbound]
    exact (contained_bind_iff fun v w => contained_ok).trans contained_uncaught_iff

theorem contained_getByIndex_iff :
    Contained (r.getByIndex (r.typeOf obj) obj slot w) ↔ r.SafeRead obj slot w := by
  have hitems (h : r.elementType (r.typeOf obj) = none ∨ ∀ n, slot ≠ .number n) :
      Contained (r.getByIndex (r.typeOf obj) obj slot w) ↔
        r.SafeItems obj (r.oneIndexGetters (r.typeOf obj)) slot w := by
    rw [getByIndex_of_not_element h, ← tryGetItems_filter]
    refine contained_tryGetItems_iff (fun g hg => ?_) _ _
    exact List.length_eq_one_iff.mp (by simpa using (List.mem_filter.mp hg).2)
  rw [SafeRead.eq_def]
  cases helt : r.elementType (r.typeOf obj) with
  | none => exact hitems (.inl helt)
  | some t =>
      cases slot with
      | number n =>
          rw [getByIndex_of_element helt]
          exact contained_readElement_iff
      | _ => exact hitems (.inr fun n hn => by cases hn)

theorem contained_getMethod_iff :
    Contained (r.getMethod obj slot s) ↔
      ∀ w, r.byIndexWorld obj slot s = some w → r.SafeRead obj slot w := by
  change Contained (visible (r.getMethod obj slot s)) ↔ _
  have hname : Contained (r.tryName (r.typeOf obj) obj slot s) := contained_tryName _ s
  rcases htry : r.tryName (r.typeOf obj) obj slot s with ⟨e | found, s'⟩
  · rw [htry] at hname
    have hworld : r.byIndexWorld obj slot s = none := by rw [byIndexWorld, htry]
    rw [getMethod, bind_error htry, hworld]
    exact iff_of_true (contained_fault_iff.mpr (contained_fault_iff.mp hname)) fun w hw => by cases hw
  · cases found with
    | some v =>
        have hworld : r.byIndexWorld obj slot s = none := by rw [byIndexWorld, htry]
        rw [getMethod_of_found htry, hworld]
        exact iff_of_true contained_ok fun w hw => by cases hw
    | none =>
        have hworld : r.byIndexWorld obj slot s = some s'.2 := by rw [byIndexWorld, htry]
        rw [getMethod_byIndex hworld, contained_getByIndex_iff, hworld]
        refine ⟨fun h w hw => ?_, fun h => h _ rfl⟩
        obtain rfl := Option.some.inj hw
        exact h

end Reflection

/-! ### Type references -/

namespace ClassReflection

variable (r : ClassReflection N Obj W)

/-- The member that `getMember` takes, unless a function is cached. -/
def foundMember (klass : TypeReference) (name : String) (k : StaticCache) :
    Except Exn (Option MemberInfo) :=
  match k klass name with
  | some .function => .ok none
  | some (.member m) => .ok (some m)
  | none => (r.members klass name).map List.head?

/-- The cache with the member. -/
def cacheMember (klass : TypeReference) (name : String) (m : MemberInfo) (k : StaticCache) :
    StaticCache :=
  if (k klass name).isSome then k else setStaticCache klass name (.member m) k

/-- A read of a property ends with a value, with what the accessor has thrown, or at the base
type. -/
def SafeMemberIn (safeBase : StaticCache × W → Prop) (klass : TypeReference) (name : String)
    (s : StaticCache × W) : Prop :=
  match r.foundMember klass name s.1 with
  | .error _ => False
  | .ok none => True
  | .ok (some m) =>
      m.memberType = .Property →
        if m.hasGetter then ∀ w, r.getProperty m s.2 ≠ (.error .parameterCount, w)
        else safeBase (cacheMember klass name m s.1, s.2)

def SafeTypeMember (name : String) : ClrClass → StaticCache × W → Prop
  | .object => r.SafeMemberIn (fun _ => True) (.type .object) name
  | .derived id baseType =>
      r.SafeMemberIn (SafeTypeMember name baseType) (.type (.derived id baseType)) name

def SafeMember (name : String) : TypeReference → StaticCache × W → Prop
  | .proxy id => r.SafeMemberIn (fun _ => True) (.proxy id) name
  | .type c => r.SafeTypeMember name c

/-- The array of a number can be created, and the member of a name can be read. -/
def SafeClassRead (klass : TypeReference) (slot : LuaValue N) (s : StaticCache × W) : Prop :=
  if (r.env s.2).isNumber slot then
    ∃ v w, r.createInstance klass ((r.env s.2).toIntegral .int ((r.env s.2).toNumber slot)) s.2 =
      (.ok v, w)
  else ∀ name, slot = .string name → r.SafeMember name klass s

/-- What `trySetMember` assigns to, or the exception of its cast. -/
def assignTarget (klass : TypeReference) (slot : LuaValue N) (k : StaticCache) :
    Except Exn (Option MemberInfo) :=
  match slot with
  | .string name =>
      if r.isPropertyName name then
        match k klass name with
        | some .function => .error .invalidCast
        | some (.member m) => .ok (some m)
        | none => (r.members klass name).map List.head?
      else .ok none
  | _ => .ok none

/-- The name is not one that a method is cached under, and the conversion to the type of a field or
a property returns. -/
def SafeClassWrite (klass : TypeReference) (slot value : LuaValue N) (s : StaticCache × W) : Prop :=
  match r.assignTarget klass slot s.1 with
  | .error _ => False
  | .ok none => True
  | .ok (some m) => m.memberType.assignable = true → ConversionReturns (r.env s.2) value m.type

variable {r} {klass : TypeReference} {name : String} {m : MemberInfo} {k : StaticCache} {w : W}
  {slot value : LuaValue N}

theorem contained_readField : Contained (r.readField m w) := by
  refine contained_attempt fun result w => ?_
  rcases result with e | v
  · exact contained_ok
  · exact contained_ok

theorem contained_readProperty_iff :
    Contained (r.readProperty m w) ↔ ∀ w', r.getProperty m w ≠ (.error .parameterCount, w') := by
  rcases hrun : r.getProperty m w with ⟨e | v, w'⟩
  · have hattempt : (attempt (r.getProperty m) : Prog W AccessFault _) w = (.ok (.error e), w') := by
      rw [attempt, hrun]
    rw [readProperty, bind_ok hattempt]
    cases e with
    | thrown n => exact iff_of_true contained_error fun w'' h => by cases (Prod.mk.inj h).1
    | parameterCount => exact iff_of_false not_contained fun h => h w' rfl
  · have hattempt : (attempt (r.getProperty m) : Prog W AccessFault _) w = (.ok (.ok v), w') := by
      rw [attempt, hrun]
    rw [readProperty, bind_ok hattempt]
    exact iff_of_true contained_ok fun w'' h => by cases (Prod.mk.inj h).1

theorem contained_useMember_iff {base : Option (StaticM W (StaticAnswer N Obj))}
    {safeBase : StaticCache × W → Prop}
    (hbase : ∀ s, Contained (base.getD (pure (.value none, some false)) s) ↔ safeBase s)
    (cached : Bool) :
    Contained (r.useMember base klass name m cached (k, w)) ↔
      (m.memberType = .Property →
        if m.hasGetter then ∀ w', r.getProperty m w ≠ (.error .parameterCount, w')
        else safeBase (if cached then k else setStaticCache klass name (.member m) k, w)) := by
  have hcache (e : CachedStatic) : (cacheUnless cached klass name e : StaticM W Unit) (k, w) =
      (.ok (), (if cached then k else setStaticCache klass name e k, w)) := by
    cases cached <;> rfl
  unfold useMember
  cases hm : m.memberType with
  | Field =>
      dsimp only
      rw [bind_ok (hcache _)]
      exact iff_of_true (contained_beside.mpr contained_readField) fun h => by cases h
  | Property =>
      dsimp only
      rw [bind_ok (hcache _)]
      cases hgetter : m.hasGetter with
      | false => exact (hbase _).trans ⟨fun h _ => h, fun h => h rfl⟩
      | true =>
          have hread : Contained (r.readProperty m w) ↔ _ := contained_readProperty_iff
          exact hread.trans ⟨fun h _ => h, fun h => h rfl⟩
  | Event =>
      dsimp only
      rw [bind_ok (hcache _)]
      exact iff_of_true contained_ok fun h => by cases h
  | NestedType =>
      dsimp only
      rw [bind_ok (hcache _)]
      exact iff_of_true contained_ok fun h => by cases h
  | Method =>
      dsimp only
      rw [bind_ok (hcache _)]
      exact iff_of_true contained_ok fun h => by cases h

theorem contained_getMemberIn_iff {base : Option (StaticM W (StaticAnswer N Obj))}
    {safeBase : StaticCache × W → Prop}
    (hbase : ∀ s, Contained (base.getD (pure (.value none, some false)) s) ↔ safeBase s)
    (s : StaticCache × W) :
    Contained (r.getMemberIn base klass name s) ↔ r.SafeMemberIn safeBase klass name s := by
  obtain ⟨k, w⟩ := s
  rw [getMemberIn, consult_bind, SafeMemberIn, foundMember]
  dsimp only
  cases hentry : k klass name with
  | some entry =>
      cases entry with
      | function => exact iff_of_true contained_ok trivial
      | member m =>
          have huse : Contained (r.useMember base klass name m true (k, w)) ↔ _ :=
            contained_useMember_iff hbase true
          simp only [cacheMember, hentry, Option.isSome_some, if_true]
          exact huse
  | none =>
      cases hmembers : r.members klass name with
      | error e => exact iff_of_false not_contained id
      | ok ms =>
          cases ms with
          | nil => exact iff_of_true contained_error trivial
          | cons m ms =>
              have huse : Contained (r.useMember base klass name m false (k, w)) ↔ _ :=
                contained_useMember_iff hbase false
              simp only [cacheMember, hentry, Option.isSome_none, Bool.false_eq_true, if_false]
              exact huse

theorem contained_getMember_iff (s : StaticCache × W) :
    Contained (r.getMember name klass s) ↔ r.SafeMember name klass s := by
  have hnone (s : StaticCache × W) :
      Contained ((none : Option (StaticM W (StaticAnswer N Obj))).getD
        (pure (.value none, some false)) s) ↔ True := iff_of_true contained_ok trivial
  cases klass with
  | proxy id => exact contained_getMemberIn_iff hnone s
  | type c =>
      change Contained (r.getTypeMember name c s) ↔ r.SafeTypeMember name c s
      induction c generalizing s with
      | object => exact contained_getMemberIn_iff hnone s
      | derived id baseType ih =>
          have hbase (s : StaticCache × W) :
              Contained ((some (r.getTypeMember name baseType)).getD
                (pure (.value none, some false)) s) ↔ r.SafeTypeMember name baseType s := ih s
          exact contained_getMemberIn_iff hbase s

theorem contained_getClassMethod_iff (s : StaticCache × W) :
    Contained (r.getClassMethod klass slot s) ↔ r.SafeClassRead klass slot s := by
  obtain ⟨k, w⟩ := s
  rw [getClassMethod, beside_gets_bind, SafeClassRead]
  dsimp only
  cases hisNumber : (r.env w).isNumber slot with
  | true =>
      rw [if_pos rfl, if_pos rfl, beside_gets_bind]
      refine (contained_bind_iff fun v s => contained_ok).trans ?_
      exact contained_beside.trans contained_uncaught_iff
  | false =>
      rw [if_neg Bool.false_ne_true, if_neg Bool.false_ne_true, beside_gets_bind]
      cases slot with
      | number n => cases hisNumber
      | string name =>
          refine (contained_getMember_iff (k, w)).trans ⟨fun h name' hname => ?_, fun h => h name rfl⟩
          obtain rfl := LuaValue.string.inj hname
          exact h
      | _ => exact iff_of_true contained_ok fun name hname => by cases hname

/-- A value is converted, and what is done with it lets nothing through. -/
theorem contained_convert_iff {α : Type} {type : ClrType}
    {f : Option (ClrValue N Obj) → Prog W AccessFault α} (hf : ∀ v w, Contained (f v w)) :
    Contained ((uncaught (r.convert value type) >>= f) w) ↔
      ConversionReturns (r.env w) value type := by
  rw [contained_bind_iff hf, contained_uncaught_iff, ← conversionReturns_iff]
  refine exists_congr fun v => ⟨fun ⟨w', h⟩ => (Prod.mk.inj h).1, fun h => ⟨w, ?_⟩⟩
  rw [convert]
  exact congrArg (·, w) h

theorem contained_assign_iff :
    Contained (r.assign m name value w) ↔
      (m.memberType.assignable = true → ConversionReturns (r.env w) value m.type) := by
  unfold assign
  cases hm : m.memberType with
  | Field =>
      refine (contained_convert_iff fun v w => contained_attempt fun result w => ?_).trans ?_
      · rcases result with e | -
        · exact contained_error
        · exact contained_ok
      · exact ⟨fun h _ => h, fun h => h rfl⟩
  | Property =>
      refine (contained_convert_iff fun v w => contained_attempt fun result w => ?_).trans ?_
      · rcases result with e | -
        · exact contained_error
        · exact contained_ok
      · exact ⟨fun h _ => h, fun h => h rfl⟩
  | _ => exact iff_of_true contained_ok fun h => by cases h

theorem contained_trySetMember_iff (s : StaticCache × W) :
    Contained (r.trySetMember klass slot value s) ↔ r.SafeClassWrite klass slot value s := by
  obtain ⟨k, w⟩ := s
  rw [SafeClassWrite, assignTarget.eq_def, trySetMember.eq_def]
  cases slot with
  | string name =>
      dsimp only
      cases hname : r.isPropertyName name with
      | false => exact iff_of_true contained_ok trivial
      | true =>
          rw [if_pos rfl, if_pos rfl, setNamed, consult_bind]
          have hassign (m : MemberInfo) : Contained (r.assign m name value w) ↔ _ :=
            contained_assign_iff
          rcases hentry : k klass name with _ | _ | m
          · rcases hmembers : r.members klass name with e | _ | ⟨m, ms⟩
            · exact iff_of_false not_contained id
            · exact iff_of_true contained_ok trivial
            · exact hassign m
          · exact iff_of_false not_contained id
          · exact hassign m
  | _ => exact iff_of_true contained_ok trivial

theorem contained_setMember_iff (s : StaticCache × W) :
    Contained (r.setMember klass slot value s) ↔ r.SafeClassWrite klass slot value s := by
  rw [← contained_trySetMember_iff, setMember]
  refine contained_bind_iff fun detail s => ?_
  cases detail with
  | none => exact contained_ok
  | some d => exact contained_error

end ClassReflection

/-! ### Receivers -/

/-- The receiver is no reference to an object, or it is one to a registered object, for which the
rest is safe. -/
def ObjectRegistry.SafeReceiver (reg : ObjectRegistry Obj W) (receiver : LuaValue N) (w : W)
    (safe : Obj → Prop) : Prop :=
  reg.rawNetObj receiver ≠ -1 → ∃ obj, reg.objects w (reg.rawNetObj receiver) = some obj ∧ safe obj

section Receivers

variable {κ α : Type} {reg : ObjectRegistry Obj W} {receiver : LuaValue N} {safe : Obj → Prop}
  {k : κ} {w : W}

/-- A callback that begins with `getRawNetObject`. -/
theorem contained_receiver_iff {f : Option Obj → Prog (κ × W) AccessFault α}
    (hnone : Contained (f none (k, w)))
    (hsome : ∀ obj, Contained (f (some obj) (k, w)) ↔ safe obj) :
    Contained ((beside (uncaught (reg.getRawNetObject receiver)) >>= f) (k, w)) ↔
      reg.SafeReceiver receiver w safe := by
  have hreturns {o : Option Obj} (h : reg.getRawNetObject receiver w = (.ok o, w)) :
      (beside (uncaught (reg.getRawNetObject receiver)) >>= f) (k, w) = f o (k, w) := by
    have hok : beside (uncaught (reg.getRawNetObject receiver)) (k, w) = (.ok o, (k, w)) := by
      rw [beside, uncaught_ok h]
    rw [bind_ok hok]
  by_cases hraw : reg.rawNetObj receiver = -1
  · have hget : reg.getRawNetObject receiver w = (.ok none, w) := by
      rw [ObjectRegistry.getRawNetObject, if_pos hraw]
    rw [hreturns hget]
    exact iff_of_true hnone fun h => absurd hraw h
  · cases hobj : reg.objects w (reg.rawNetObj receiver) with
    | some obj =>
        have hget : reg.getRawNetObject receiver w = (.ok (some obj), w) := by
          rw [ObjectRegistry.getRawNetObject, if_neg hraw, hobj]
        rw [hreturns hget, hsome]
        refine ⟨fun h _ => ⟨obj, hobj, h⟩, fun h => ?_⟩
        obtain ⟨obj', hobj', hsafe⟩ := h hraw
        obtain rfl := Option.some.inj (hobj.symm.trans hobj')
        exact hsafe
    | none =>
        have hget : reg.getRawNetObject receiver w = (.error .keyNotFound, w) := by
          rw [ObjectRegistry.getRawNetObject, if_neg hraw, hobj]
        have herror : beside (uncaught (reg.getRawNetObject receiver)) (k, w) =
            (.error (.exception .keyNotFound), (k, w)) := by rw [beside, uncaught_error hget]
        rw [bind_error herror]
        refine iff_of_false not_contained fun h => ?_
        obtain ⟨obj, hobj', -⟩ := h hraw
        rw [hobj] at hobj'
        cases hobj'

variable {mm : Metamethods N Obj W}

/-- `getKlass` goes on with what `getRawNetObject` has found. -/
theorem getKlass_bind (f : TypeReference → Prog (κ × W) AccessFault α) :
    (beside (mm.getKlass receiver) >>= f) (k, w) =
      (beside (uncaught (mm.registry.getRawNetObject receiver)) >>= fun obj =>
        (obj.bind mm.registry.asReflect).elim
          (throwMessage "trying to index an invalid type reference") f) (k, w) := by
  rcases hget : uncaught (mm.registry.getRawNetObject receiver) w with ⟨e | obj, w'⟩
  · have hklass : beside (mm.getKlass receiver) (k, w) = (.error e, (k, w')) := by
      rw [beside, Metamethods.getKlass, bind_error hget]
    have hraw : beside (uncaught (mm.registry.getRawNetObject receiver)) (k, w) =
        (.error e, (k, w')) := by rw [beside, hget]
    rw [bind_error hklass, bind_error hraw]
  · have hraw : beside (uncaught (mm.registry.getRawNetObject receiver)) (k, w) =
        (.ok obj, (k, w')) := by rw [beside, hget]
    rw [bind_ok hraw]
    cases hreflect : obj.bind mm.registry.asReflect with
    | none =>
        have hklass : beside (mm.getKlass receiver) (k, w) =
            (.error (.error (.message "trying to index an invalid type reference")), (k, w')) := by
          rw [beside, Metamethods.getKlass, bind_ok hget, hreflect]
          rfl
        rw [bind_error hklass]
        rfl
    | some klass =>
        have hklass : beside (mm.getKlass receiver) (k, w) = (.ok klass, (k, w')) := by
          rw [beside, Metamethods.getKlass, bind_ok hget, hreflect]
          rfl
        rw [bind_ok hklass]
        rfl

/-- A callback that begins with `getKlass`. -/
theorem contained_klass_iff {safe : TypeReference → Prop}
    {f : TypeReference → Prog (κ × W) AccessFault α}
    (hf : ∀ klass, Contained (f klass (k, w)) ↔ safe klass) :
    Contained ((beside (mm.getKlass receiver) >>= f) (k, w)) ↔
      mm.registry.SafeReceiver receiver w fun obj =>
        ∀ klass, mm.registry.asReflect obj = some klass → safe klass := by
  rw [getKlass_bind]
  refine contained_receiver_iff contained_error fun obj => ?_
  rw [Option.bind_some]
  cases hreflect : mm.registry.asReflect obj with
  | none => exact iff_of_true contained_error fun klass h => by cases h
  | some klass =>
      refine (hf klass).trans ⟨fun h klass' h' => ?_, fun h => h klass rfl⟩
      obtain rfl := Option.some.inj h'
      exact h

end Receivers

/-! ### The callbacks -/

/-- What the receiver is, and the operations on the key and the value, cannot throw outside of a
handler. -/
def MetaCall.Safe (mm : Metamethods N Obj W) (s : MetaState N Obj W) : MetaCall N → Prop
  | .getMethod receiver slot =>
      mm.registry.SafeReceiver receiver s.world fun obj =>
        ∀ w, mm.objects.byIndexWorld obj slot (s.caches, s.world) = some w →
          mm.objects.SafeRead obj slot w
  | .setFieldOrProperty receiver slot value =>
      mm.registry.SafeReceiver receiver s.world fun obj =>
        mm.objects.SafeAssignment obj slot value (s.caches, s.world)
  | .getClassMethod receiver slot =>
      mm.registry.SafeReceiver receiver s.world fun obj =>
        ∀ klass, mm.registry.asReflect obj = some klass →
          mm.classes.SafeClassRead klass slot (s.staticCache, s.world)
  | .setClassFieldOrProperty receiver slot value =>
      mm.registry.SafeReceiver receiver s.world fun obj =>
        ∀ klass, mm.registry.asReflect obj = some klass →
          mm.classes.SafeClassWrite klass slot value (s.staticCache, s.world)

theorem faultOf_iff {σ α : Type} {out : Except AccessFault α × σ} :
    (∀ e, faultOf out ≠ some (.exception e)) ↔ Contained out := by
  rcases out with ⟨e | a, s⟩
  · rw [contained_fault_iff]
    exact ⟨fun h e' he' => h e' (congrArg some he'), fun h e' he' => h e' (Option.some.inj he')⟩
  · exact iff_of_true (fun e he => by cases he) contained_ok

/-- Static members that are kept by their tokens, and arrays of objects. -/
def ClassReflection.plain (members : List MemberInfo) :
    ClassReflection ℤ ℕ (ℕ → Option (ClrValue ℤ ℕ)) where
  env _ := LuaEnv.plain
  members _ name := .ok (members.filter fun m => m.name == name)
  isLetter c := c.isAlpha
  getField m := gets fun w => w m.token
  getProperty m := gets fun w => w m.token
  setField m v := modify fun w => Function.update w m.token v
  setProperty m v := modify fun w => Function.update w m.token v
  findType _ _ := none
  createInstance _ size :=
    if size < 0 then throw (.thrown 0)
    else pure (some (.array .object (List.replicate size.toNat none)))

/-- An object with a field `owner` of a class type, which the userdata `0` refers to. -/
def Metamethods.owned : Metamethods ℤ ℕ (ℕ → Option (ClrValue ℤ ℕ)) where
  objects := .plain [⟨0, "owner", .Field, false, "Item", .class 0, false⟩]
  classes := .plain []
  registry := ⟨fun id => id, fun _ => -1, fun _ i => if i = 0 then some 0 else none, fun _ => none⟩

end UnityLua
