import UnityLua.Library.CleanFailure
import UnityLua.MemberWrites

/-!
# The operands of an access

What an assignment or an indexed access does with its operands: the key and the value are
converted by `getAsType` and handed to reflection. For a value without a conversion `getAsType`
gives `null`, and nothing tells this `null` from a converted one.

## Main results

* `setFieldOrProperty_of_some`, `setFieldOrProperty_of_none`: what `setFieldOrProperty` assigns to,
  and with which operands.
* `getMethod_byIndex`: where `getMethod` goes on when no member answers.
-/

namespace UnityLua

open Library Prog

variable {N Obj W : Type}

/-! ### Conversions -/

/-- There is a conversion for the value and the type, and it gives `v`. -/
def Convertible (env : LuaEnv N Obj) (slot : LuaValue N) (type : ClrType)
    (v : Option (ClrValue N Obj)) : Prop :=
  ∃ e, CheckLuaType env slot type = .ok (some e) ∧ (e.extract env slot).1 = .ok v

/-- The value that `getAsType` gives. -/
def valueAsType (env : LuaEnv N Obj) (slot : LuaValue N) (type : ClrType) :
    Except Exn (Option (ClrValue N Obj)) := (getAsType env slot type).1

theorem valueAsType_of_convertible {env : LuaEnv N Obj} {slot : LuaValue N} {type : ClrType}
    {v : Option (ClrValue N Obj)} (h : Convertible env slot type v) :
    valueAsType env slot type = .ok v := by
  obtain ⟨e, hcheck, hextract⟩ := h
  rw [valueAsType, getAsType, hcheck]
  exact hextract

/-- Exactly the numbers, and the strings that read as one, convert to an index. -/
theorem convertible_int {env : LuaEnv N Obj} {slot : LuaValue N} {i : ℤ} :
    Convertible env slot (.integral .int) (some (.integral .int i)) ↔
      env.isNumber slot = true ∧ i = env.toIntegral .int (env.toNumber slot) := by
  have hcheck : CheckLuaType env slot (.integral .int) =
      if env.isNumber slot = true then .ok (some (.getAsIntegral .int))
      else .ok (checkNetObject env slot (.integral .int)) := by
    simp [CheckLuaType, ClrType.stripByRef, ClrType.stripNullable, ClrType.isGenericParameter,
      extractValuesOf, extractValues, checkOtherType, ClrType.isClass]
  rw [Convertible, hcheck]
  cases hnumber : env.isNumber slot with
  | true =>
      simp only [if_true, Except.ok.injEq, Option.some.injEq, exists_eq_left', Extractor.extract,
        GetAsIntegral, nullUnlessNumber, hnumber, Bool.true_eq_false, and_false, if_false,
        ClrValue.integral.injEq, true_and]
      exact eq_comm
  | false =>
      simp only [Bool.false_eq_true, if_false, false_and, iff_false, Except.ok.injEq]
      rintro ⟨e, he, hextract⟩
      have hobject : e = .getAsNetObject := by
        unfold checkNetObject at he
        dsimp only at he
        split at he
        · split at he
          · exact (Option.some.inj he).symm
          · cases he
        · cases he
      subst hobject
      simp only [Extractor.extract, GetAsNetObject] at hextract
      split at hextract
      · cases hextract
      · obtain ⟨o, -, ho⟩ := Option.map_eq_some_iff.mp (Except.ok.inj hextract)
        cases ho

/-! ### Faults -/

/-- The fault is an error in Lua. -/
def AccessFault.IsError : AccessFault → Prop
  | .error _ => True
  | .exception _ => False

/-- `ThrowError` makes an error in Lua of an exception. -/
def AccessFault.reported (e : Exn) : AccessFault := .error (.exception e)

theorem AccessFault.isError_reported (e : Exn) : (AccessFault.reported e).IsError := trivial

theorem AccessFault.not_isError_exception (e : Exn) : ¬(AccessFault.exception e).IsError := id

section Uncaught

variable {α : Type} {x : Prog W Exn α} {w w' : W}

theorem uncaught_ok {a : α} (h : x w = (.ok a, w')) : uncaught x w = (.ok a, w') := by
  have hattempt : (attempt x : Prog W AccessFault _) w = (.ok (.ok a), w') := by rw [attempt, h]
  rw [uncaught, bind_ok hattempt]
  rfl

theorem uncaught_error {e : Exn} (h : x w = (.error e, w')) :
    uncaught x w = (.error (.exception e), w') := by
  have hattempt : (attempt x : Prog W AccessFault _) w = (.ok (.error e), w') := by
    rw [attempt, h]
  rw [uncaught, bind_ok hattempt]
  rfl

end Uncaught

namespace Reflection

variable (r : Reflection N Obj W)

theorem convert_eq (slot : LuaValue N) (type : ClrType) (w : W) :
    r.convert slot type w =
      ((valueAsType (r.env w) slot type).map fun v => (v, (getAsType (r.env w) slot type).2), w) := by
  rw [convert, valueAsType]
  obtain ⟨e | v, slot'⟩ := getAsType (r.env w) slot type <;> rfl

/-! ### Assignments -/

/-- `SetValue` of a field or a property. -/
def store (m : MemberInfo) (obj : Obj) (v : Option (ClrValue N Obj)) : Prog W Exn Unit :=
  match m.memberType with
  | .Field => r.setField m obj v
  | _ => r.setProperty m obj v

/-- What `trySetMember` assigns to, or the exception of its cast. -/
def assignTarget (targetType : ClrClass) (slot : LuaValue N) (k : Caches N Obj) :
    Except Exn (Option MemberInfo) :=
  match slot with
  | .string name =>
      if r.isPropertyName name then
        match checkMemberCache targetType name k with
        | some (.function _) => .error .invalidCast
        | some (.member m) => .ok (if m.memberType.assignable then some m else none)
        | none =>
            match r.getMembers targetType name false with
            | m :: _ => .ok (if m.memberType.assignable then some m else none)
            | [] => .ok none
      else .ok none
  | _ => .ok none

variable {r} {c : ClrClass} {target : Obj} {slot value : LuaValue N} {k : Caches N Obj} {w : W}
  {name : String} {m : MemberInfo}

variable (name) in
/-- An assignment to a field or a property. -/
theorem assign_eq_performs (h : m.memberType.assignable = true) :
    ((r.assign m target name value w).1.map fun _ => (), (r.assign m target name value w).2) =
      performs .reported .exception false (valueAsType (r.env w) value m.type)
        (r.store m target) w := by
  have hcase (set : Option (ClrValue N Obj) → Prog W Exn Unit)
      (next : Except Exn Unit → Prog W AccessFault (Option String))
      (hok : ∀ w, next (.ok ()) w = (.ok none, w))
      (herror : ∀ e w, next (.error e) w = (.error (.reported e), w)) :
      let x : Prog W AccessFault (Option String) :=
        uncaught (r.convert value m.type) >>= fun p => attempt (set p.1) >>= next
      ((x w).1.map fun _ => (), (x w).2) =
        performs .reported .exception false (valueAsType (r.env w) value m.type) set w := by
    intro x
    have hconvert := r.convert_eq value m.type w
    cases hvalue : valueAsType (r.env w) value m.type with
    | error e =>
        rw [hvalue] at hconvert
        have hx : x w = (.error (.exception e), w) := bind_error (uncaught_error hconvert)
        rw [hx]
        rfl
    | ok v =>
        rw [hvalue] at hconvert
        have hx : x w = next (set v w).1 (set v w).2 := bind_ok (uncaught_ok hconvert)
        rw [hx, performs_ok]
        rcases set v w with ⟨e | u, w'⟩
        · rw [herror]
          rfl
        · rw [hok]
          rfl
  rw [assign]
  unfold store
  cases hm : m.memberType with
  | Field => exact hcase (r.setField m target) _ (fun _ => rfl) fun _ _ => rfl
  | Property => exact hcase (r.setProperty m target) _ (fun _ => rfl) fun _ _ => rfl
  | _ => rw [hm] at h; cases h

/-- What `setNamed` does with the first member that is found. -/
theorem trySetMember_of_head {ms : List MemberInfo} (hname : r.isPropertyName name = true)
    (hentry : checkMemberCache c name k = none) (hinst : r.getMembers c name false = m :: ms) :
    r.trySetMember c target (.string name) value (k, w) =
      beside (r.assign m target name value) (setMemberCache c name (.member m) k, w) := by
  rw [trySetMember_string hname, setNamed, consult_bind, hentry]
  simp only [hinst]
  rfl

/-- What `trySetMember` does, with what it assigns to. -/
theorem trySetMember_cases (r : Reflection N Obj W) (c : ClrClass) (target : Obj)
    (slot value : LuaValue N) (k : Caches N Obj) (w : W) :
    (∃ e, r.assignTarget c slot k = .error e ∧
      r.trySetMember c target slot value (k, w) = (.error (.exception e), (k, w))) ∨
    (∃ m, r.assignTarget c slot k = .ok (some m) ∧ m.memberType.assignable = true ∧
      ∃ name k', r.trySetMember c target slot value (k, w) =
        beside (r.assign m target name value) (k', w)) ∨
    (r.assignTarget c slot k = .ok none ∧
      ∃ d k', r.trySetMember c target slot value (k, w) = (.ok (some d), (k', w))) := by
  cases slot with
  | string name =>
      cases hname : r.isPropertyName name with
      | false =>
          refine .inr (.inr ⟨?_, "invalid property name", k, ?_⟩)
          · rw [assignTarget, hname, if_neg Bool.false_ne_true]
          · simp only [trySetMember, hname, Bool.false_eq_true, if_false]
            rfl
      | true =>
          rcases hentry : checkMemberCache c name k with _ | f | m
          · cases hinst : r.getMembers c name false with
            | nil =>
                refine .inr (.inr ⟨?_, "field or property '" ++ name ++ "' does not exist", k, ?_⟩)
                · simp only [assignTarget, hname, if_true, hentry, hinst]
                · rw [trySetMember_string hname, setNamed, consult_bind, hentry]
                  simp only [hinst]
                  rfl
            | cons m ms =>
                have hhead : r.trySetMember c target (.string name) value (k, w) = _ :=
                  trySetMember_of_head hname hentry hinst
                cases hassign : m.memberType.assignable with
                | true =>
                    refine .inr (.inl ⟨m, ?_, hassign, name, _, hhead⟩)
                    simp only [assignTarget, hname, if_true, hentry, hinst, hassign]
                | false =>
                    refine .inr (.inr ⟨?_, "'" ++ name ++ "' is not a .net field or property",
                      setMemberCache c name (.member m) k, ?_⟩)
                    · simp only [assignTarget, hname, if_true, hentry, hinst, hassign,
                        Bool.false_eq_true, if_false]
                    · rw [hhead, beside, assign_not_assignable hassign]
                      rfl
          · refine .inl ⟨.invalidCast, ?_, trySetMember_of_function hname hentry⟩
            simp only [assignTarget, hname, if_true, hentry]
          · cases hassign : m.memberType.assignable with
            | true =>
                refine .inr (.inl ⟨m, ?_, hassign, name, k, trySetMember_of_member hname hentry⟩)
                simp only [assignTarget, hname, if_true, hentry, hassign]
            | false =>
                refine .inr (.inr ⟨?_, _, k, trySetMember_of_not_assignable hname hentry hassign⟩)
                simp only [assignTarget, hname, if_true, hentry, hassign, Bool.false_eq_true,
                  if_false]
  | _ => exact .inr (.inr ⟨rfl, _, k, rfl⟩)

/-- `trySetMember` casts a function to a member. -/
theorem trySetMember_of_error {e : Exn} (h : r.assignTarget c slot k = .error e) :
    r.trySetMember c target slot value (k, w) = (.error (.exception e), (k, w)) := by
  obtain ⟨e', he, hout⟩ | ⟨m, hm, -⟩ | ⟨hnone, -⟩ := trySetMember_cases r c target slot value k w
  · obtain rfl := Except.error.inj (h.symm.trans he)
    exact hout
  · cases h.symm.trans hm
  · cases h.symm.trans hnone

variable (target value w) in
/-- `trySetMember` assigns to a field or a property. -/
theorem trySetMember_of_some (h : r.assignTarget c slot k = .ok (some m)) :
    m.memberType.assignable = true ∧ ∃ name k', r.trySetMember c target slot value (k, w) =
      beside (r.assign m target name value) (k', w) := by
  obtain ⟨e, he, -⟩ | ⟨m', hm, hout⟩ | ⟨hnone, -⟩ := trySetMember_cases r c target slot value k w
  · cases h.symm.trans he
  · obtain rfl := Option.some.inj (Except.ok.inj (h.symm.trans hm))
    exact hout
  · cases h.symm.trans hnone

variable (target value w) in
/-- `trySetMember` leaves the key to the indexers. -/
theorem trySetMember_of_none (h : r.assignTarget c slot k = .ok none) :
    ∃ d k', r.trySetMember c target slot value (k, w) = (.ok (some d), (k', w)) := by
  obtain ⟨e, he, -⟩ | ⟨m, hm, -⟩ | ⟨-, hout⟩ := trySetMember_cases r c target slot value k w
  · cases h.symm.trans he
  · cases h.symm.trans hm
  · exact hout

/-- What a metamethod does is seen by its result and by the world. -/
def visible {α : Type} (out : Except AccessFault α × (Caches N Obj × W)) :
    Except AccessFault α × W := (out.1, out.2.2)

theorem setFieldOrProperty_of_error {e : Exn}
    (h : r.assignTarget (r.typeOf target) slot k = .error e) :
    visible (r.setFieldOrProperty target slot value (k, w)) = (.error (.exception e), w) := by
  rw [setFieldOrProperty, bind_error (trySetMember_of_error h)]
  rfl

theorem setFieldOrProperty_of_some
    (h : r.assignTarget (r.typeOf target) slot k = .ok (some m)) :
    visible (r.setFieldOrProperty target slot value (k, w)) =
      performs .reported .exception false (valueAsType (r.env w) value m.type)
        (r.store m target) w := by
  obtain ⟨hassign, name, k', htry⟩ := trySetMember_of_some target value w h
  rw [← assign_eq_performs name hassign]
  have hexit : Exits _ _ (r.assign m target name value w) := assign_assignable hassign w trivial
  rw [beside] at htry
  rcases hrun : r.assign m target name value w with ⟨e | d, w'⟩
  · rw [hrun] at htry
    rw [setFieldOrProperty, bind_error htry]
    rfl
  · rw [hrun] at htry hexit
    obtain rfl : d = none := hexit
    rw [setFieldOrProperty, bind_ok htry]
    rfl

variable (value w) in
theorem setFieldOrProperty_of_none
    (h : r.assignTarget (r.typeOf target) slot k = .ok none) :
    ∃ d, visible (r.setFieldOrProperty target slot value (k, w)) =
      r.setWithout (r.typeOf target) target slot value d w := by
  obtain ⟨d, k', htry⟩ := trySetMember_of_none target value w h
  exact ⟨d, by rw [setFieldOrProperty_of_detail htry]; rfl⟩

/-! ### Assignments by index -/

/-- The operands of `set_Item` as they are handed to it. -/
def setterOperands (env : LuaEnv N Obj) (setter : Accessor) (slot value : LuaValue N) :
    Except Exn (Option (ClrValue N Obj) × Option (ClrValue N Obj)) :=
  match setter.parameters with
  | indexType :: valueType :: _ => do
      let val ← valueAsType env value valueType
      let index ← valueAsType env slot indexType
      .ok (index, val)
  | _ => .error .indexOutOfRange

theorem setWithout_of_ok {d : String} {w' : W}
    (h : r.setByIndex c target slot value w = (.ok true, w')) :
    r.setWithout c target slot value d w = (.ok (), w') := by
  have hattempt : (attempt (r.setByIndex c target slot value) : Prog W AccessFault _) w =
      (.ok (.ok true), w') := by rw [attempt, h]
  rw [setWithout, bind_ok hattempt]
  rfl

theorem setWithout_of_error {d : String} {w' : W} {e : Exn}
    (h : r.setByIndex c target slot value w = (.error e, w')) :
    r.setWithout c target slot value d w = (.error (.reported e), w') := by
  have hattempt : (attempt (r.setByIndex c target slot value) : Prog W AccessFault _) w =
      (.ok (.error e), w') := by rw [attempt, h]
  rw [setWithout, bind_ok hattempt]
  rfl

/-- An operand that cannot be converted ends the program. -/
theorem convert_bind_error {α : Type} {type : ClrType} {e : Exn}
    (h : valueAsType (r.env w) slot type = .error e)
    (f : Option (ClrValue N Obj) × LuaValue N → Prog W Exn α) :
    (r.convert slot type >>= f) w = (.error e, w) := by
  have hconvert := r.convert_eq slot type w
  rw [h] at hconvert
  exact bind_error hconvert

theorem convert_bind_ok {α : Type} {type : ClrType} {v : Option (ClrValue N Obj)}
    (h : valueAsType (r.env w) slot type = .ok v)
    (f : Option (ClrValue N Obj) × LuaValue N → Prog W Exn α) :
    (r.convert slot type >>= f) w = f (v, (getAsType (r.env w) slot type).2) w := by
  have hconvert := r.convert_eq slot type w
  rw [h] at hconvert
  exact bind_ok hconvert

/-- An element of an array. -/
theorem setWithout_of_element {t : ClrType} (d : String) (helt : r.elementType c = some t)
    (hnumber : (r.env w).isNumber slot = true) :
    r.setWithout c target slot value d w =
      performs .reported .exception true (valueAsType (r.env w) value t)
        (r.setElement target ((r.env w).toIntegral .int ((r.env w).toNumber slot))) w := by
  have hset : r.setByIndex c target slot value w = (r.convert value t >>= fun p =>
      r.setElement target ((r.env w).toIntegral .int ((r.env w).toNumber slot)) p.1 >>= fun _ =>
        pure true) w := by
    rw [setByIndex, gets_bind, helt, hnumber]
    rfl
  generalize r.setElement target _ = set at hset ⊢
  cases hvalue : valueAsType (r.env w) value t with
  | error e => exact setWithout_of_error (hset.trans (convert_bind_error hvalue _))
  | ok v =>
      rw [convert_bind_ok hvalue] at hset
      rw [performs_ok]
      rcases hrun : set v w with ⟨e | u, w'⟩
      · exact setWithout_of_error (hset.trans (bind_error hrun))
      · exact setWithout_of_ok (hset.trans (bind_ok hrun))

variable (target value) in
/-- Any other key goes to `set_Item`. -/
theorem setByIndex_of_not_element
    (h : r.elementType c = none ∨ (r.env w).isNumber slot = false) :
    r.setByIndex c target slot value w = r.trySetItem c target slot value w := by
  rw [setByIndex, gets_bind]
  rcases h with helt | hnumber
  · rw [helt]
  · rw [hnumber]
    cases r.elementType c <;> rfl

/-- The indexer. -/
theorem setWithout_of_setter {setter : Accessor} (d : String)
    (h : r.elementType c = none ∨ (r.env w).isNumber slot = false)
    (hitem : r.setItem c = .ok (some setter)) :
    r.setWithout c target slot value d w =
      performs .reported .exception true (setterOperands (r.env w) setter slot value)
        (fun p => r.invokeSetter setter target p.1 p.2) w := by
  have hset := setByIndex_of_not_element target value h
  rw [trySetItem, hitem] at hset
  obtain ⟨token, parameters⟩ := setter
  cases parameters with
  | nil => exact setWithout_of_error hset
  | cons indexType parameters =>
      cases parameters with
      | nil => exact setWithout_of_error hset
      | cons valueType parameters =>
          have hset : r.setByIndex c target slot value w = (r.convert value valueType >>= fun p =>
              r.convert slot indexType >>= fun q =>
                r.invokeSetter ⟨token, indexType :: valueType :: parameters⟩ target q.1 p.1 >>=
                  fun _ => pure true) w := hset
          simp only [setterOperands]
          cases hvalue : valueAsType (r.env w) value valueType with
          | error e => exact setWithout_of_error (hset.trans (convert_bind_error hvalue _))
          | ok v =>
              rw [convert_bind_ok hvalue] at hset
              cases hindex : valueAsType (r.env w) slot indexType with
              | error e => exact setWithout_of_error (hset.trans (convert_bind_error hindex _))
              | ok i =>
                  have hset := hset.trans (convert_bind_ok hindex _)
                  simp only [bind, Except.bind]
                  rw [performs_ok]
                  dsimp only
                  rcases hrun : r.invokeSetter ⟨token, indexType :: valueType :: parameters⟩ target
                    i v w with ⟨e | u, w'⟩
                  · exact setWithout_of_error (hset.trans (bind_error hrun))
                  · exact setWithout_of_ok (hset.trans (bind_ok hrun))

/-- There is no `set_Item`. -/
theorem setWithout_of_no_setter (d : String)
    (h : r.elementType c = none ∨ (r.env w).isNumber slot = false)
    (hitem : r.setItem c = .ok none) :
    r.setWithout c target slot value d w = (.error (.error (.message d)), w) := by
  have hset := setByIndex_of_not_element target value h
  rw [trySetItem, hitem] at hset
  have hattempt : (attempt (r.setByIndex c target slot value) : Prog W AccessFault _) w =
      (.ok (.ok false), w) := by
    rw [attempt, hset]
    rfl
  rw [setWithout, bind_ok hattempt]
  rfl

/-- There is more than one `set_Item`. -/
theorem setWithout_of_ambiguous {e : Exn} (d : String)
    (h : r.elementType c = none ∨ (r.env w).isNumber slot = false)
    (hitem : r.setItem c = .error e) :
    r.setWithout c target slot value d w = (.error (.reported e), w) := by
  have hset := setByIndex_of_not_element target value h
  rw [trySetItem, hitem] at hset
  exact setWithout_of_error hset

/-! ### Reads by index -/

variable (r) in
/-- The world in which `getMethod` goes on with the index, where no member answers. -/
def byIndexWorld (obj : Obj) (slot : LuaValue N) (s : Caches N Obj × W) : Option W :=
  match r.tryName (r.typeOf obj) obj slot s with
  | (.ok none, s') => some s'.2
  | _ => none

theorem getMethod_byIndex {obj : Obj} {s : Caches N Obj × W}
    (h : r.byIndexWorld obj slot s = some w) :
    visible (r.getMethod obj slot s) = r.getByIndex (r.typeOf obj) obj slot w := by
  rw [byIndexWorld] at h
  split at h
  · next s' htry =>
      obtain rfl := Option.some.inj h
      rw [getMethod, bind_ok htry]
      rfl
  · cases h

theorem getMethod_of_found {obj : Obj} {s s' : Caches N Obj × W} {v : Pushed N Obj × IsFunc}
    (h : r.tryName (r.typeOf obj) obj slot s = (.ok (some v), s')) :
    visible (r.getMethod obj slot s) = (.ok v, s'.2) := by
  rw [getMethod, bind_ok h]
  rfl

/-- An index into an array. -/
theorem getByIndex_of_element {obj : Obj} {t : ClrType} {n : N} (helt : r.elementType c = some t) :
    r.getByIndex c obj (.number n) w = r.readElement obj ((r.env w).toIntegral .int n) w := by
  rw [getByIndex, gets_bind]
  simp only [helt, LuaEnv.getObject]
  rw [gets_bind]

/-- Any other key goes to `get_Item`. -/
theorem getByIndex_of_not_element {obj : Obj}
    (h : r.elementType c = none ∨ ∀ n, slot ≠ .number n) :
    r.getByIndex c obj slot w =
      r.tryGetItems obj (r.getItems c) slot ((r.env w).getObject slot) none w := by
  rw [getByIndex, gets_bind]
  rcases h with helt | hslot
  · rw [helt]
  · cases r.elementType c with
    | none => rfl
    | some t =>
        cases slot with
        | number n => exact absurd rfl (hslot n)
        | userdata id =>
            simp only [LuaEnv.getObject]
            cases (r.env w).netObject id <;> rfl
        | _ => rfl

variable (r) in
/-- The indexers with a single index. -/
def oneIndexGetters (c : ClrClass) : List Accessor :=
  (r.getItems c).filter fun g => g.parameters.length == 1

section GetItems

variable {obj : Obj} {getter : Accessor} {getters : List Accessor} {t : ClrType}
  {index : Option (ClrValue N Obj)} {result : Option (Option (ClrValue N Obj))} {w' : W}

/-- The methods named `get_Item` with another number of parameters are passed over. -/
theorem tryGetItems_filter :
    r.tryGetItems obj (getters.filter fun g => g.parameters.length == 1) slot index result =
      r.tryGetItems obj getters slot index result := by
  induction getters generalizing slot index result with
  | nil => rfl
  | cons getter getters ih =>
      obtain ⟨token, parameters⟩ := getter
      cases parameters with
      | nil => exact ih
      | cons t ts =>
          cases ts with
          | nil =>
              rw [List.filter_cons_of_pos rfl]
              simp only [tryGetItems, ih]
          | cons t' ts => exact ih

theorem tryGetItems_error (hgetter : getter.parameters = [t]) {e : Exn}
    (hvalue : valueAsType (r.env w) slot t = .error e) :
    r.tryGetItems obj (getter :: getters) slot index result w = (.error (.exception e), w) := by
  have hconvert := r.convert_eq slot t w
  rw [hvalue] at hconvert
  rw [tryGetItems, hgetter]
  exact bind_error (uncaught_error hconvert)

theorem tryGetItems_ok (hgetter : getter.parameters = [t]) {v x : Option (ClrValue N Obj)}
    (hvalue : valueAsType (r.env w) slot t = .ok v)
    (hrun : r.invokeGetter getter obj v w = (.ok x, w')) :
    r.tryGetItems obj (getter :: getters) slot index result w =
      r.tryGetItems obj getters (getAsType (r.env w) slot t).2 v (some x) w' := by
  have hconvert := r.convert_eq slot t w
  rw [hvalue] at hconvert
  have hattempt : (attempt (r.invokeGetter getter obj v) : Prog W AccessFault _) w =
      (.ok (.ok x), w') := by rw [attempt, hrun]
  rw [tryGetItems, hgetter]
  dsimp only
  rw [bind_ok (uncaught_ok hconvert), gets_bind, bind_ok hattempt]

/-- What the getter throws is reported. -/
theorem tryGetItems_thrown (hgetter : getter.parameters = [t]) {v : Option (ClrValue N Obj)}
    (hvalue : valueAsType (r.env w) slot t = .ok v) {e : ℕ}
    (hrun : r.invokeGetter getter obj v w = (.error (.thrown e), w')) :
    ∃ s, r.tryGetItems obj (getter :: getters) slot index result w =
      (.ok (.value none, .message s), w') := by
  have hconvert := r.convert_eq slot t w
  rw [hvalue] at hconvert
  have hattempt : (attempt (r.invokeGetter getter obj v) : Prog W AccessFault _) w =
      (.ok (.error (.thrown e)), w') := by rw [attempt, hrun]
  rw [tryGetItems, hgetter]
  dsimp only
  rw [bind_ok (uncaught_ok hconvert), gets_bind, bind_ok hattempt]
  dsimp only
  split
  · exact ⟨_, rfl⟩
  · exact ⟨_, rfl⟩

/-- Any other exception of `Invoke` is not caught. -/
theorem tryGetItems_escape (hgetter : getter.parameters = [t]) {v : Option (ClrValue N Obj)}
    (hvalue : valueAsType (r.env w) slot t = .ok v) {e : Exn}
    (hrun : r.invokeGetter getter obj v w = (.error e, w')) (he : ∀ n, e ≠ .thrown n) :
    r.tryGetItems obj (getter :: getters) slot index result w = (.error (.exception e), w') := by
  have hconvert := r.convert_eq slot t w
  rw [hvalue] at hconvert
  have hattempt : (attempt (r.invokeGetter getter obj v) : Prog W AccessFault _) w =
      (.ok (.error e), w') := by rw [attempt, hrun]
  rw [tryGetItems, hgetter]
  dsimp only
  rw [bind_ok (uncaught_ok hconvert), gets_bind, bind_ok hattempt]
  cases e with
  | thrown n => exact absurd rfl (he n)
  | _ => rfl

end GetItems

end Reflection

end UnityLua
