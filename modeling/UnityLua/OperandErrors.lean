import UnityLua.Operands

/-!
# Operands that do not convert

An assignment, and an access by index, should fail with an error in Lua where an operand does not
convert to the declared type, and should read or set the member or the element for the converted
operands otherwise.

## Main results

* `accesses_cleanly`: when an access of an object does so. An operand without a conversion is
  handed on as `null`, and only a member that refuses `null` saves the object.
-/

namespace UnityLua

open Library Prog

variable {N Obj W : Type}

/-- `GetMethod` finds the only method of a name, and throws if there are several. -/
def FindsOnly : List Accessor → Except Exn (Option Accessor) → Prop
  | [], found => found = .ok none
  | [accessor], found => found = .ok (some accessor)
  | _, found => ∃ e, found = .error e

/-- What is documented of reflection: `setItems` are the methods named `set_Item`, and an array has
no such methods and none named `get_Item`. -/
structure Reflection.Documented (r : Reflection N Obj W) (setItems : ClrClass → List Accessor) :
    Prop where
  setItem : ∀ c, FindsOnly (setItems c) (r.setItem c)
  array : ∀ c t, r.elementType c = some t → r.getItems c = [] ∧ setItems c = []

/-! ### Operands -/

/-- An index into an array. -/
def IndexOperand (env : LuaEnv N Obj) (slot : LuaValue N) (i : ℤ) : Prop :=
  Convertible env slot (.integral .int) (some (.integral .int i))

/-- An index into an array, and a value for the element. -/
def ElementOperands (env : LuaEnv N Obj) (slot value : LuaValue N) (elementType : ClrType)
    (p : ℤ × Option (ClrValue N Obj)) : Prop :=
  IndexOperand env slot p.1 ∧ Convertible env value elementType p.2

/-- One of the indexers with a single index, and an index for it. -/
def GetterOperands (env : LuaEnv N Obj) (getters : List Accessor) (slot : LuaValue N)
    (p : Accessor × Option (ClrValue N Obj)) : Prop :=
  p.1 ∈ getters ∧ ∃ type, p.1.parameters = [type] ∧ Convertible env slot type p.2

/-- One of the indexers with a single index, and an index and a value for it. -/
def SetterOperands (env : LuaEnv N Obj) (setters : List Accessor) (slot value : LuaValue N)
    (p : Accessor × Option (ClrValue N Obj) × Option (ClrValue N Obj)) : Prop :=
  p.1 ∈ setters ∧ ∃ indexType valueType, p.1.parameters = [indexType, valueType] ∧
    Convertible env slot indexType p.2.1 ∧ Convertible env value valueType p.2.2

namespace Reflection

variable (r : Reflection N Obj W)

/-! ### Clean accesses -/

/-- The assignment of an element or by an indexer. -/
def AssignsByIndex (setItems : ClrClass → List Accessor) (obj : Obj) (slot value : LuaValue N)
    (w : W) (out : Except AccessFault Unit × W) : Prop :=
  match r.elementType (r.typeOf obj) with
  | some t =>
      Cleanly AccessFault.IsError (ElementOperands (r.env w) slot value t)
        (fun p => r.setElement obj p.1 p.2) w out
  | none =>
      Cleanly AccessFault.IsError (SetterOperands (r.env w) (setItems (r.typeOf obj)) slot value)
        (fun p => r.invokeSetter p.1 obj p.2.1 p.2.2) w out

/-- `setFieldOrProperty` sets the member or the element to the converted value, or it raises an
error and changes nothing. -/
def AssignsCleanly (setItems : ClrClass → List Accessor) (obj : Obj) (slot value : LuaValue N)
    (s : Caches N Obj × W) : Prop :=
  match r.assignTarget (r.typeOf obj) slot s.1 with
  | .ok (some m) =>
      Cleanly AccessFault.IsError (Convertible (r.env s.2) value m.type) (r.store m obj) s.2
        (visible (r.setFieldOrProperty obj slot value s))
  | _ =>
      r.AssignsByIndex setItems obj slot value s.2 (visible (r.setFieldOrProperty obj slot value s))

/-- `getMethod` reports an error: with a message for the Lua part of `__index`, or itself. -/
def Reports (out : Except AccessFault (Pushed N Obj × IsFunc)) : Prop :=
  (∃ s, out = .ok (.value none, .message s)) ∨ ∃ e, out = .error (.error e)

/-- With an operand that converts the element is read, and else an error is reported. -/
structure Fetches {ι : Type} (conv : ι → Prop)
    (fetch : ι → Prog W Exn (Option (ClrValue N Obj))) (w : W)
    (out : Except AccessFault (Pushed N Obj × IsFunc) × W) : Prop where
  converted : ∀ c v w', conv c → fetch c w = (.ok v, w') →
    out = (.ok (.value v, .flag false), w')
  failed : (∀ c, ¬conv c) → Reports out.1

/-- The element of an array, if there is one. -/
def elementAt (obj : Obj) (i : ℤ) : Prog W Exn (Option (ClrValue N Obj)) := fun w =>
  if 0 ≤ i ∧ i < r.arrayLength obj w then r.getElement obj i w else (.error .indexOutOfRange, w)

/-- The read of an element or by an indexer. -/
def FetchesByIndex (obj : Obj) (slot : LuaValue N) (w : W)
    (out : Except AccessFault (Pushed N Obj × IsFunc) × W) : Prop :=
  match r.elementType (r.typeOf obj) with
  | some _ => Fetches (IndexOperand (r.env w) slot) (r.elementAt obj) w out
  | none =>
      Fetches (GetterOperands (r.env w) (r.getItems (r.typeOf obj)) slot)
        (fun p => r.invokeGetter p.1 obj p.2) w out

/-- The member that a read finds under a name. -/
def namedMember (c : ClrClass) (name : String) (k : Caches N Obj) : Option MemberInfo :=
  match checkMemberCache c name k with
  | some (.member m) => some m
  | some (.function _) => none
  | none => (r.findMember c name).map Prod.fst

/-- Reflection gives a value for the field or property. -/
def HasValue (m : MemberInfo) (obj : Obj) (w : W) (v : Option (ClrValue N Obj)) (w' : W) : Prop :=
  match m.memberType with
  | .Field => r.getField m obj w = (.ok v, w')
  | .Property => m.hasGetter = true ∧ r.getProperty m obj w = (.ok v, w')
  | _ => False

/-- `getMethod` reads the member or the element, or it reports an error. -/
structure ReadsCleanly (obj : Obj) (slot : LuaValue N) (s : Caches N Obj × W) : Prop where
  member : ∀ name m v w', slot = .string name → r.namedMember (r.typeOf obj) name s.1 = some m →
    r.HasValue m obj s.2 v w' →
      visible (r.getMethod obj slot s) = (.ok (.value v, .flag false), w')
  byIndex : ∀ w, r.byIndexWorld obj slot s = some w →
    r.FetchesByIndex obj slot w (visible (r.getMethod obj slot s))

/-! ### Harmless accesses -/

/-- The operands convert, or `null` in their place is refused, or nothing is called at all. -/
def HarmlessByIndex (setItems : ClrClass → List Accessor) (obj : Obj) (slot value : LuaValue N)
    (w : W) : Prop :=
  match r.elementType (r.typeOf obj), setItems (r.typeOf obj) with
  | some t, _ => (r.env w).isNumber slot = true →
      (∃ v, Convertible (r.env w) value t v) ∨
        Tolerates true (valueAsType (r.env w) value t)
          (r.setElement obj ((r.env w).toIntegral .int ((r.env w).toNumber slot))) w
  | none, [] => True
  | none, [setter] =>
      (∃ p, SetterOperands (r.env w) [setter] slot value p) ∨
        Tolerates true (setterOperands (r.env w) setter slot value)
          (fun p => r.invokeSetter setter obj p.1 p.2) w
  | none, setters => ∀ p, SetterOperands (r.env w) setters slot value p →
      Refuses (r.invokeSetter p.1 obj p.2.1 p.2.2) w

/-- The name is not one that a function is cached under, and `null` does no harm. -/
def HarmlessAssignment (setItems : ClrClass → List Accessor) (obj : Obj) (slot value : LuaValue N)
    (s : Caches N Obj × W) : Prop :=
  match r.assignTarget (r.typeOf obj) slot s.1 with
  | .error _ => False
  | .ok (some m) => (∃ v, Convertible (r.env s.2) value m.type v) ∨
      Tolerates false (valueAsType (r.env s.2) value m.type) (r.store m obj) s.2
  | .ok none => r.HarmlessByIndex setItems obj slot value s.2

/-- The index converts, or the only indexer throws for `null`. A string that reads as a number is
no index into an array, and must not be meant as one. -/
def HarmlessRead (obj : Obj) (slot : LuaValue N) (w : W) : Prop :=
  match r.elementType (r.typeOf obj), r.oneIndexGetters (r.typeOf obj) with
  | some _, _ => (∃ n, slot = .number n) ∨
      ∀ i v w', IndexOperand (r.env w) slot i → r.elementAt obj i w ≠ (.ok v, w')
  | none, [] => True
  | none, [getter] =>
      (∃ p, GetterOperands (r.env w) [getter] slot p) ∨
        ∃ t v e w', getter.parameters = [t] ∧ valueAsType (r.env w) slot t = .ok v ∧
          r.invokeGetter getter obj v w = (.error (.thrown e), w')
  | none, _ => False

/-- Several indexers with a single index, which `getMethod` calls one after the other. -/
def HasSeveralIndexers (obj : Obj) : Prop :=
  r.elementType (r.typeOf obj) = none ∧ 2 ≤ (r.oneIndexGetters (r.typeOf obj)).length

variable {r} {setItems : ClrClass → List Accessor} {obj : Obj} {slot value : LuaValue N}
  {s : Caches N Obj × W} {w : W}

/-! ### Assignments -/

/-- The index of an element is the only one that the key converts to. -/
theorem elementOperands_iff {env : LuaEnv N Obj} {t : ClrType} (hnumber : env.isNumber slot = true)
    (p : ℤ × Option (ClrValue N Obj)) :
    ElementOperands env slot value t p ↔ ∃ v, Convertible env value t v ∧
      (env.toIntegral .int (env.toNumber slot), v) = p := by
  obtain ⟨i, v⟩ := p
  rw [ElementOperands, IndexOperand, convertible_int]
  constructor
  · rintro ⟨⟨-, rfl⟩, hv⟩
    exact ⟨v, hv, rfl⟩
  · rintro ⟨v', hv, hp⟩
    obtain ⟨rfl, rfl⟩ := Prod.mk.inj hp
    exact ⟨⟨hnumber, rfl⟩, hv⟩

theorem setterOperands_of_converts {env : LuaEnv N Obj} {setter : Accessor}
    {p : Accessor × Option (ClrValue N Obj) × Option (ClrValue N Obj)}
    (h : SetterOperands env [setter] slot value p) :
    p.1 = setter ∧ setterOperands env setter slot value = .ok p.2 := by
  obtain ⟨hmem, indexType, valueType, hparams, hindex, hvalue⟩ := h
  have hsetter : p.1 = setter := List.mem_singleton.mp hmem
  rw [hsetter] at hparams
  refine ⟨hsetter, ?_⟩
  rw [setterOperands, hparams]
  dsimp only
  rw [valueAsType_of_convertible hvalue, valueAsType_of_convertible hindex]
  rfl

/-- Assignments by index, through `setWithout`. -/
theorem assignsByIndex_iff (h : r.Documented setItems) (d : String) :
    r.AssignsByIndex setItems obj slot value w
        (r.setWithout (r.typeOf obj) obj slot value d w) ↔
      r.HarmlessByIndex setItems obj slot value w := by
  have hitem := h.setItem (r.typeOf obj)
  rw [AssignsByIndex, HarmlessByIndex]
  cases helt : r.elementType (r.typeOf obj) with
  | some t =>
      dsimp only
      cases hnumber : (r.env w).isNumber slot with
      | true =>
          rw [setWithout_of_element d helt hnumber,
            cleanly_reindex (elementOperands_iff hnumber),
            cleanly_performs_iff AccessFault.isError_reported AccessFault.not_isError_exception
              fun _ => valueAsType_of_convertible]
          exact ⟨fun hclean _ => hclean, fun hclean => hclean rfl⟩
      | false =>
          rw [(h.array _ t helt).2] at hitem
          rw [setWithout_of_no_setter d (.inr hnumber) hitem]
          refine iff_of_true ((cleanly_report_iff trivial).mpr fun p hp => ?_) fun hcontra => ?_
          · have hp := (convertible_int.mp hp.1).1
            rw [hnumber] at hp
            cases hp
          · cases hcontra
  | none =>
      dsimp only
      rcases hsetters : setItems (r.typeOf obj) with _ | ⟨setter, _ | ⟨setter', setters⟩⟩
      · rw [hsetters] at hitem
        rw [setWithout_of_no_setter d (.inl helt) hitem]
        refine iff_of_true ((cleanly_report_iff trivial).mpr fun p hp => ?_) trivial
        exact absurd hp.1 List.not_mem_nil
      · rw [hsetters] at hitem
        have hone (p : Accessor × Option (ClrValue N Obj) × Option (ClrValue N Obj)) :
            SetterOperands (r.env w) [setter] slot value p ↔
              ∃ q, SetterOperands (r.env w) [setter] slot value (setter, q) ∧ (setter, q) = p := by
          constructor
          · intro hp
            obtain rfl := (setterOperands_of_converts hp).1
            exact ⟨p.2, hp, rfl⟩
          · rintro ⟨q, hq, rfl⟩
            exact hq
        rw [setWithout_of_setter d (.inl helt) hitem, cleanly_reindex hone,
          cleanly_performs_iff AccessFault.isError_reported AccessFault.not_isError_exception
            fun q hq => (setterOperands_of_converts hq).2]
        refine or_congr_left ⟨fun ⟨q, hq⟩ => ⟨_, hq⟩, fun ⟨p, hp⟩ => ?_⟩
        obtain ⟨q, hq, -⟩ := (hone p).mp hp
        exact ⟨q, hq⟩
      · rw [hsetters] at hitem
        obtain ⟨e, hitem⟩ := hitem
        rw [setWithout_of_ambiguous d (.inl helt) hitem]
        exact cleanly_report_iff trivial

/-- An exception that escapes is no clean end of an assignment by index. -/
theorem not_assignsByIndex_escape {e : Exn} :
    ¬r.AssignsByIndex setItems obj slot value w (.error (.exception e), w) := by
  rw [AssignsByIndex]
  split
  · exact not_cleanly_escape (AccessFault.not_isError_exception e)
  · exact not_cleanly_escape (AccessFault.not_isError_exception e)

/-- **When an assignment fails cleanly.** -/
theorem assignsCleanly_iff (h : r.Documented setItems) :
    r.AssignsCleanly setItems obj slot value s ↔ r.HarmlessAssignment setItems obj slot value s := by
  obtain ⟨k, w⟩ := s
  rw [AssignsCleanly, HarmlessAssignment]
  cases htarget : r.assignTarget (r.typeOf obj) slot k with
  | error e =>
      dsimp only
      rw [setFieldOrProperty_of_error htarget]
      exact iff_of_false not_assignsByIndex_escape id
  | ok found =>
      cases found with
      | none =>
          obtain ⟨d, hout⟩ := setFieldOrProperty_of_none value w htarget
          dsimp only
          rw [hout]
          exact assignsByIndex_iff h d
      | some m =>
          dsimp only
          rw [setFieldOrProperty_of_some htarget]
          exact cleanly_performs_iff AccessFault.isError_reported
            AccessFault.not_isError_exception fun _ => valueAsType_of_convertible

/-! ### Reads -/

section Members

variable {c : ClrClass} {name : String} {m : MemberInfo} {k : Caches N Obj}
  {v : Option (ClrValue N Obj)} {w' : W}
  {base : Option (AccessM N Obj W (Pushed N Obj × IsFunc))} {implicitStatic cached : Bool}

theorem cacheUnless_apply (e : CachedMember) :
    ∃ k', (cacheUnless cached c name e : AccessM N Obj W Unit) (k, w) = (.ok (), (k', w)) := by
  cases cached with
  | true => exact ⟨k, rfl⟩
  | false => exact ⟨setMemberCache c name e k, rfl⟩

theorem useMember_of_value (h : r.HasValue m obj w v w') :
    ∃ k', r.useMember base c obj name m implicitStatic cached (k, w) =
      (.ok (.value v, .flag false), (k', w')) := by
  obtain ⟨k', hcache⟩ : ∃ k', (cacheUnless cached c name (.member m) : AccessM N Obj W Unit)
      (k, w) = (.ok (), (k', w)) := cacheUnless_apply (.member m)
  refine ⟨k', ?_⟩
  unfold HasValue at h
  unfold useMember
  cases hm : m.memberType with
  | Field =>
      rw [hm] at h
      have hattempt : (attempt (r.getField m obj) : Prog W AccessFault _) w = (.ok (.ok v), w') := by
        rw [attempt, h]
      have hread : r.readField m obj w = (.ok (.value v, .flag false), w') := by
        rw [readField, bind_ok hattempt]
        rfl
      dsimp only
      rw [bind_ok hcache, beside, hread]
  | Property =>
      rw [hm] at h
      obtain ⟨hgetter, hvalue⟩ := h
      have hattempt : (attempt (r.getProperty m obj) : Prog W AccessFault _) w =
          (.ok (.ok v), w') := by rw [attempt, hvalue]
      have hread : r.readProperty m obj w = (.ok (.value v, .flag false), w') := by
        rw [readProperty, bind_ok hattempt]
        rfl
      dsimp only
      rw [bind_ok hcache, if_pos hgetter, beside, hread]
  | _ =>
      rw [hm] at h
      exact h.elim

theorem getMemberIn_of_value (hm : r.namedMember c name k = some m)
    (h : r.HasValue m obj w v w') :
    ∃ k', r.getMemberIn base c obj name (k, w) = (.ok (.value v, .flag false), (k', w')) := by
  rw [namedMember] at hm
  rw [getMemberIn, consult_bind]
  split at hm
  · next hentry =>
      obtain rfl := Option.some.inj hm
      rw [hentry]
      exact useMember_of_value h
  · cases hm
  · next hentry =>
      obtain ⟨⟨m', implicitStatic⟩, hfind, rfl⟩ := Option.map_eq_some_iff.mp hm
      rw [hentry]
      dsimp only
      rw [hfind]
      exact useMember_of_value h

theorem isMemberPresent_of_named (hm : r.namedMember c name k = some m) :
    r.isMemberPresent c name k = true := by
  rw [namedMember] at hm
  rw [isMemberPresent]
  split at hm
  · next hentry => rw [hentry]
  · cases hm
  · next hentry =>
      obtain ⟨found, hfind, -⟩ := Option.map_eq_some_iff.mp hm
      rw [hentry, ← findMember_isSome, hfind]
      rfl

/-- A member that has a value answers. -/
theorem tryMember_of_value (hm : r.namedMember c name k = some m)
    (h : r.HasValue m obj w v w') :
    ∃ k', r.tryMember c obj name (k, w) = (.ok (some (.value v, .flag false)), (k', w')) := by
  obtain ⟨k', hget⟩ : ∃ k', r.getMember obj name c (k, w) =
      (.ok (.value v, .flag false), (k', w')) := by
    cases c with
    | object => exact getMemberIn_of_value hm h
    | derived id baseType => exact getMemberIn_of_value hm h
  have hattempt : (attempt (r.getMember obj name c) : AccessM N Obj W _) (k, w) =
      (.ok (.ok (.value v, .flag false)), (k', w')) := by rw [attempt, hget]
  refine ⟨k', ?_⟩
  rw [tryMember, consult_bind, isMemberPresent_of_named hm]
  dsimp only
  rw [bind_ok hattempt]
  rfl

end Members

section Fetch

variable {ι : Type} {conv : ι → Prop} {fetch : ι → Prog W Exn (Option (ClrValue N Obj))} {w' : W}
  {getter : Accessor} {getters : List Accessor} {t : ClrType}

theorem not_reports_escape {e : Exn} :
    ¬Reports (.error (.exception e) : Except AccessFault (Pushed N Obj × IsFunc)) := by
  rintro (⟨message, hout⟩ | ⟨e', hout⟩)
  · cases hout
  · cases hout

theorem not_reports_value {v : Pushed N Obj} {b : Bool} : ¬Reports (.ok (v, .flag b)) := by
  rintro (⟨message, hout⟩ | ⟨e, hout⟩)
  · cases (Prod.mk.inj (Except.ok.inj hout)).2
  · cases hout

/-- With a report, the operands must be without an element. -/
theorem fetches_report_iff {message : String} :
    Fetches conv fetch w (.ok (.value none, .message message), w') ↔
      ∀ c v w'', conv c → fetch c w ≠ (.ok v, w'') := by
  constructor
  · intro h c v w'' hc hfetch
    have hout := Except.ok.inj (Prod.mk.inj (h.converted c v w'' hc hfetch)).1
    cases (Prod.mk.inj hout).2
  · intro h
    exact ⟨fun c v w'' hc hfetch => absurd hfetch (h c v w'' hc), fun _ => .inl ⟨_, rfl⟩⟩

/-- The element of an array under a number. -/
theorem fetches_readElement {n : N} :
    Fetches (IndexOperand (r.env w) (.number n)) (r.elementAt obj) w
      (r.readElement obj ((r.env w).toIntegral .int n) w) := by
  constructor
  · intro i v w' hi hfetch
    obtain rfl : i = (r.env w).toIntegral .int n := (convertible_int.mp hi).2
    rw [elementAt] at hfetch
    split at hfetch
    · next hbounds =>
        rw [readElement, gets_bind, if_neg (Int.not_le.mpr hbounds.2), bind_ok (uncaught_ok hfetch)]
        rfl
    · cases (Prod.mk.inj hfetch).1
  · intro hnone
    exact absurd (convertible_int.mpr ⟨rfl, rfl⟩) (hnone _)

variable (r obj w) in
theorem tryGetItems_nil (slot : LuaValue N) (index : Option (ClrValue N Obj)) :
    ∃ message, r.tryGetItems obj [] slot index none w =
      (.ok (.value none, .message message), w) := ⟨_, rfl⟩

theorem getterOperands_filter {env : LuaEnv N Obj} {p : Accessor × Option (ClrValue N Obj)} :
    GetterOperands env (getters.filter fun g => g.parameters.length == 1) slot p ↔
      GetterOperands env getters slot p := by
  rw [GetterOperands, GetterOperands, List.mem_filter]
  constructor
  · rintro ⟨⟨hmem, -⟩, hparams⟩
    exact ⟨hmem, hparams⟩
  · rintro ⟨hmem, type, hparams, hindex⟩
    exact ⟨⟨hmem, by rw [hparams]; rfl⟩, type, hparams, hindex⟩

theorem getterOperands_of_converts {env : LuaEnv N Obj} {p : Accessor × Option (ClrValue N Obj)}
    (hgetter : getter.parameters = [t]) (h : GetterOperands env [getter] slot p) :
    p.1 = getter ∧ valueAsType env slot t = .ok p.2 := by
  obtain ⟨hmem, type, hparams, hindex⟩ := h
  have hp : p.1 = getter := List.mem_singleton.mp hmem
  rw [hp, hgetter] at hparams
  obtain rfl := List.singleton_inj.mp hparams
  exact ⟨hp, valueAsType_of_convertible hindex⟩

/-- The only indexer with a single index. -/
theorem fetches_getter_iff (hgetter : getter.parameters = [t])
    (index : Option (ClrValue N Obj)) :
    Fetches (GetterOperands (r.env w) [getter] slot) (fun p => r.invokeGetter p.1 obj p.2) w
        (r.tryGetItems obj [getter] slot index none w) ↔
      (∃ p, GetterOperands (r.env w) [getter] slot p) ∨
        ∃ t v e w', getter.parameters = [t] ∧ valueAsType (r.env w) slot t = .ok v ∧
          r.invokeGetter getter obj v w = (.error (.thrown e), w') := by
  by_cases hex : ∃ p, GetterOperands (r.env w) [getter] slot p
  · obtain ⟨p₀, hp₀⟩ := hex
    refine iff_of_true ⟨fun p v w' hp hfetch => ?_, fun hnone => absurd hp₀ (hnone p₀)⟩
      (.inl ⟨p₀, hp₀⟩)
    obtain ⟨hp, hvalue⟩ := getterOperands_of_converts hgetter hp
    rw [hp] at hfetch
    rw [tryGetItems_ok hgetter hvalue hfetch]
    rfl
  · rw [or_iff_right hex]
    have hnone : ∀ p, ¬GetterOperands (r.env w) [getter] slot p := fun p hp => hex ⟨p, hp⟩
    constructor
    · intro h
      have hreports := h.failed hnone
      cases hvalue : valueAsType (r.env w) slot t with
      | error e =>
          rw [tryGetItems_error hgetter hvalue] at hreports
          exact absurd hreports not_reports_escape
      | ok v =>
          rcases hrun : r.invokeGetter getter obj v w with ⟨e | x, w'⟩
          · by_cases hthrown : ∃ n, e = .thrown n
            · obtain ⟨n, rfl⟩ := hthrown
              exact ⟨t, v, n, w', hgetter, hvalue, hrun⟩
            · rw [tryGetItems_escape hgetter hvalue hrun fun n hn => hthrown ⟨n, hn⟩] at hreports
              exact absurd hreports not_reports_escape
          · rw [tryGetItems_ok hgetter hvalue hrun] at hreports
            exact absurd hreports not_reports_value
    · rintro ⟨t', v, e, w', hparams, hvalue, hrun⟩
      obtain ⟨message, hout⟩ := tryGetItems_thrown hparams hvalue hrun
      refine ⟨fun p _ _ hp _ => absurd hp (hnone p), fun _ => ?_⟩
      rw [hout]
      exact .inl ⟨message, rfl⟩

/-- Reads by index. -/
theorem fetchesByIndex_iff (h : r.Documented setItems)
    (hone : ¬r.HasSeveralIndexers obj) :
    r.FetchesByIndex obj slot w (r.getByIndex (r.typeOf obj) obj slot w) ↔
      r.HarmlessRead obj slot w := by
  rw [FetchesByIndex, HarmlessRead]
  cases helt : r.elementType (r.typeOf obj) with
  | some t =>
      dsimp only
      by_cases hnumber : ∃ n, slot = .number n
      · obtain ⟨n, rfl⟩ := hnumber
        rw [getByIndex_of_element helt]
        exact iff_of_true fetches_readElement (.inl ⟨n, rfl⟩)
      · rw [getByIndex_of_not_element (.inr fun n hn => hnumber ⟨n, hn⟩), (h.array _ t helt).1,
          or_iff_right hnumber]
        obtain ⟨message, hout⟩ := r.tryGetItems_nil obj w slot
          ((r.env w).getObject slot)
        rw [hout]
        exact fetches_report_iff
  | none =>
      dsimp only
      rw [getByIndex_of_not_element (.inl helt), ← tryGetItems_filter]
      have hfilter : GetterOperands (r.env w) (r.getItems (r.typeOf obj)) slot =
          GetterOperands (r.env w) (r.oneIndexGetters (r.typeOf obj)) slot :=
        funext fun p => propext getterOperands_filter.symm
      rw [hfilter]
      change Fetches _ _ w (r.tryGetItems obj (r.oneIndexGetters (r.typeOf obj)) slot _ none w) ↔ _
      rcases hgetters : r.oneIndexGetters (r.typeOf obj) with _ | ⟨getter, _ | ⟨getter', getters⟩⟩
      · obtain ⟨message, hout⟩ := r.tryGetItems_nil obj w slot
          ((r.env w).getObject slot)
        rw [hout]
        exact iff_of_true (fetches_report_iff.mpr fun p _ _ hp => absurd hp.1 List.not_mem_nil)
          trivial
      · have hmem : getter ∈ r.oneIndexGetters (r.typeOf obj) := by rw [hgetters]; simp
        have hlength := (List.mem_filter.mp hmem).2
        obtain ⟨t, hgetter⟩ := List.length_eq_one_iff.mp (by simpa using hlength)
        exact fetches_getter_iff hgetter _
      · refine absurd ⟨helt, ?_⟩ hone
        rw [hgetters]
        simp

theorem not_several_of_harmless (h : r.HarmlessRead obj slot w) : ¬r.HasSeveralIndexers obj := by
  rintro ⟨helt, hlength⟩
  rw [HarmlessRead, helt] at h
  rcases hgetters : r.oneIndexGetters (r.typeOf obj) with _ | ⟨getter, _ | ⟨getter', getters⟩⟩
  · rw [hgetters] at hlength
    simp at hlength
  · rw [hgetters] at hlength
    simp at hlength
  · rw [hgetters] at h
    exact h

/-- A member that has a value is read, whatever the indexers are. -/
theorem readsCleanly_iff : r.ReadsCleanly obj slot s ↔ ∀ w, r.byIndexWorld obj slot s = some w →
    r.FetchesByIndex obj slot w (r.getByIndex (r.typeOf obj) obj slot w) := by
  constructor
  · intro h w hw
    rw [← getMethod_byIndex hw]
    exact h.byIndex w hw
  · intro h
    refine ⟨fun name m v w' hslot hm hvalue => ?_, fun w hw => ?_⟩
    · subst hslot
      obtain ⟨k', htry⟩ := tryMember_of_value hm hvalue
      have htry : r.tryName (r.typeOf obj) obj (.string name) s =
          (.ok (some (.value v, .flag false)), (k', w')) := htry
      exact getMethod_of_found htry
    · rw [getMethod_byIndex hw]
      exact h w hw

end Fetch

end Reflection

/-! ### Accesses -/

namespace Access

/-- The access does what its operands say, or fails cleanly. -/
def Clean (r : Reflection N Obj W) (setItems : ClrClass → List Accessor) (s : Caches N Obj × W) :
    Access N Obj → Prop
  | .read obj name => r.ReadsCleanly obj name s
  | .write obj name value => r.AssignsCleanly setItems obj name value s

/-- No `null` in the place of an operand does harm. -/
def Harmless (r : Reflection N Obj W) (setItems : ClrClass → List Accessor)
    (s : Caches N Obj × W) : Access N Obj → Prop
  | .read obj name => ∀ w, r.byIndexWorld obj name s = some w → r.HarmlessRead obj name w
  | .write obj name value => r.HarmlessAssignment setItems obj name value s

/-- The access is a read of an object with several indexers. -/
def MeetsSeveral (r : Reflection N Obj W) : Access N Obj → Prop
  | .read obj _ => r.HasSeveralIndexers obj
  | .write .. => False

end Access

/-- The default of a type. -/
def ClrType.default : ClrType → Option (ClrValue ℤ ℕ)
  | .integral t => some (.integral t 0)
  | .double => some (.double 0)
  | .float => some (.float 0)
  | .decimal => some (.decimal 0)
  | .bool => some (.bool false)
  | _ => none

/-- A world in which reflection sets a field of a value type to its default for `null`. -/
def Reflection.defaulting (members : List MemberInfo) :
    Reflection ℤ ℕ (ℕ → Option (ClrValue ℤ ℕ)) :=
  { Reflection.plain members with
    setField := fun m _ v => modify fun w => Function.update w m.token (v.or m.type.default) }

/-- A type with a field `size`. -/
def Reflection.sized : Reflection ℤ ℕ (ℕ → Option (ClrValue ℤ ℕ)) :=
  .defaulting [⟨0, "size", .Field, false, "Box", .double, false⟩]

theorem Reflection.documented_sized : Reflection.sized.Documented fun _ => [] where
  setItem _ := rfl
  array _ _ h := by cases h

end UnityLua
