import UnityLua.Library.Run
import UnityLua.MemberReads

/-!
# Writes of members

A write shows `memberCache` where a read has left something there that the write would not
have found: the function of a method, or a static member.

## Main results

* `setFieldOrProperty_of_not_misled`: any other write does what it does without caches.
* `setFieldOrProperty_of_misled`: a misled write does something else, except perhaps where it
  sets a static member and would have gone to an indexer.
* `access_transparent`: both, for an access after any others.
-/

namespace UnityLua

open Library Prog

variable {N Obj W : Type}

/-- The kinds of members that can be assigned to. -/
def MemberTypes.assignable : MemberTypes → Bool
  | .Field | .Property => true
  | .Event | .NestedType | .Method => false

namespace Reflection

variable (r : Reflection N Obj W)

/-- The first instance member of the name is assigned to. -/
def plainNamed (targetType : ClrClass) (target : Obj) (fieldName : String) (value : LuaValue N) :
    Prog W AccessFault (Option String) :=
  match r.getMembers targetType fieldName false with
  | member :: _ => r.assign member target fieldName value
  | [] => pure (some ("field or property '" ++ fieldName ++ "' does not exist"))

/-- `trySetMember` without caches. -/
def plainSet (targetType : ClrClass) (target : Obj) (slot value : LuaValue N) :
    Prog W AccessFault (Option String) :=
  match slot with
  | .string fieldName =>
      if r.isPropertyName fieldName then r.plainNamed targetType target fieldName value
      else pure (some "invalid property name")
  | _ => pure (some "property names must be strings")

/-- Writing a member without caches. -/
def plainNewIndex (target : Obj) (slot value : LuaValue N) : Prog W AccessFault Unit := do
  match ← r.plainSet (r.typeOf target) target slot value with
  | none => pure ()
  | some detailMessage => r.setWithout (r.typeOf target) target slot value detailMessage

/-- There is a `set_Item`, or there are several. -/
def hasSetItem (c : ClrClass) : Bool :=
  match r.setItem c with
  | .ok none => false
  | _ => true

/-- What `setFieldOrProperty` does where `trySetMember` has done nothing: there is an element
or an indexer to assign to. `isNumber` says that the key is a number. -/
def hasIndexer (c : ClrClass) (isNumber : Bool) : Bool :=
  match r.elementType c, isNumber with
  | some _, true => true
  | _, _ => r.hasSetItem c

/-- The entry for the name is a member that a write would not find. -/
def staticEntry (c : ClrClass) (name : String) (k : Caches N Obj) : Option MemberInfo :=
  match checkMemberCache c name k with
  | some (.member m) => if (r.getMembers c name false).isEmpty then some m else none
  | _ => none

/-- The entry for the name is a function. -/
def functionEntry (c : ClrClass) (name : String) (k : Caches N Obj) : Bool :=
  match checkMemberCache c name k with
  | some (.function _) => true
  | _ => false

/-- The entry for the name leads a write astray. A static event does so by its message
only. -/
def misled (c : ClrClass) (name : String) (s : Caches N Obj × W) : Bool :=
  functionEntry c name s.1 ||
    match r.staticEntry c name s.1 with
    | some m => m.memberType.assignable || !r.hasIndexer c ((r.env s.2).isNumber (.string name))
    | none => false

variable {r} {c : ClrClass} {target : Obj} {slot value : LuaValue N} {k : Caches N Obj} {w : W}
  {name : String} {m : MemberInfo}

/-! ### The part of a write behind `trySetMember` -/

theorem trySetItem_true (h : r.hasSetItem c = true) :
    Triple (fun _ => True) (r.trySetItem c target slot value) (fun b _ => b = true)
      (fun _ _ => True) := by
  rw [hasSetItem] at h
  rw [trySetItem]
  cases hitem : r.setItem c with
  | error e => exact .throw fun _ _ => trivial
  | ok setter =>
      cases setter with
      | none => simp only [hitem] at h; cases h
      | some setter =>
          exact .bind .any fun _ => .bind .any fun _ => .bind .any fun _ => .bind .any fun _ =>
            .bind .any fun _ => .pure fun _ _ => rfl

theorem setByIndex_true :
    Triple (fun w => r.hasIndexer c ((r.env w).isNumber slot) = true)
      (r.setByIndex c target slot value) (fun b _ => b = true) (fun _ _ => True) := by
  refine .bind (R := fun isNumber _ => r.hasIndexer c isNumber = true) (.gets fun _ hw => hw)
    fun isNumber w hw => ?_
  simp only [hasIndexer] at hw
  cases helt : r.elementType c with
  | none =>
      simp only [helt] at hw
      exact trySetItem_true hw w trivial
  | some elementType =>
      simp only [helt] at hw
      cases isNumber with
      | true =>
          exact Triple.bind (P := fun _ => True) .any (fun _ => .bind .any fun _ =>
            .bind .any fun _ => .pure fun _ _ => rfl) w trivial
      | false => exact trySetItem_true hw w trivial

theorem setByIndex_false (h : r.hasIndexer c ((r.env w).isNumber slot) = false) :
    r.setByIndex c target slot value w = (.ok false, w) := by
  have hget : gets (fun w => (r.env w).isNumber slot) w =
      ((.ok ((r.env w).isNumber slot), w) : Except Exn Bool × W) := rfl
  rw [setByIndex, bind_ok hget]
  simp only [hasIndexer] at h
  have hitem (hset : r.hasSetItem c = false) :
      r.trySetItem c target slot value w = (.ok false, w) := by
    rw [hasSetItem] at hset
    rw [trySetItem]
    cases hitem : r.setItem c with
    | error e => simp only [hitem] at hset; cases hset
    | ok setter =>
        cases setter with
        | none => rfl
        | some setter => simp only [hitem] at hset; cases hset
  cases helt : r.elementType c with
  | none => simp only [helt] at h ⊢; exact hitem h
  | some elementType =>
      cases hnumber : (r.env w).isNumber slot with
      | true => simp only [helt, hnumber] at h; cases h
      | false => simp only [helt, hnumber] at h ⊢; exact hitem h

/-- With an indexer the detail message is not used. -/
theorem setWithout_of_indexer (h : r.hasIndexer c ((r.env w).isNumber slot) = true)
    (d d' : String) :
    r.setWithout c target slot value d w = r.setWithout c target slot value d' w := by
  have hset : Exits _ _ (r.setByIndex c target slot value w) := setByIndex_true w h
  cases hrun : r.setByIndex c target slot value w with
  | mk a w' =>
      rw [hrun] at hset
      have hattempt : (attempt (r.setByIndex c target slot value) : Prog W AccessFault _) w =
          (.ok a, w') := by rw [attempt, hrun]
      rw [setWithout, setWithout, bind_ok hattempt, bind_ok hattempt]
      cases a with
      | ok b =>
          obtain rfl : b = true := hset
          rfl
      | error e => rfl

/-- Without an indexer the detail message is the error. -/
theorem setWithout_of_no_indexer (h : r.hasIndexer c ((r.env w).isNumber slot) = false)
    (d : String) :
    r.setWithout c target slot value d w = (.error (.error (.message d)), w) := by
  have hattempt : (attempt (r.setByIndex c target slot value) : Prog W AccessFault _) w =
      (.ok (.ok false), w) := by rw [attempt, setByIndex_false h]
  rw [setWithout, bind_ok hattempt]
  rfl

/-- All exceptions are caught. -/
theorem setWithout_error (d : String) :
    Triple (fun _ => True) (r.setWithout c target slot value d) (fun _ _ => True)
      (fun e _ => ∃ error, e = .error error) := by
  refine .bind (R := fun _ _ => True) (fun _ _ => trivial) fun a => ?_
  cases a with
  | ok b =>
      cases b with
      | true => exact .pure fun _ _ => trivial
      | false => exact .throw fun _ _ => ⟨_, rfl⟩
  | error e => exact .throw fun _ _ => ⟨_, rfl⟩

/-! ### `trySetMember` -/

/-- An assignment either succeeds or fails with what it threw. -/
theorem assign_assignable (h : m.memberType.assignable = true) :
    Triple (fun _ => True) (r.assign m target name value) (fun d _ => d = none)
      (fun e _ => ∀ s, e ≠ .error (.message s)) := by
  have huncaught (x : Prog W Exn (Option (ClrValue N Obj) × LuaValue N)) :
      Triple (fun _ => True) (uncaught x) (fun _ _ => True)
        (fun e _ => ∀ s, e ≠ .error (.message s)) := by
    refine .bind (R := fun _ _ => True) (fun _ _ => trivial) fun a => ?_
    cases a with
    | ok v => exact .pure fun _ _ => trivial
    | error e => exact .throw fun _ _ s hs => by cases hs
  have hset (x : Prog W Exn Unit) {next : Except Exn Unit → Prog W AccessFault (Option String)}
      (hok : next (.ok ()) = pure none) (herror : ∀ e, next (.error e) = ThrowError e) :
      Triple (fun _ => True) (attempt x >>= next)
        (fun d _ => d = none) (fun e _ => ∀ s, e ≠ .error (.message s)) := by
    refine .bind (R := fun _ _ => True) (fun _ _ => trivial) fun a => ?_
    cases a with
    | ok v => exact hok ▸ .pure fun _ _ => rfl
    | error e =>
        rw [herror]
        exact .throw fun _ _ s hs => by cases hs
  rw [assign]
  cases hm : m.memberType with
  | Field => exact .bind (huncaught _) fun _ => hset _ rfl fun _ => rfl
  | Property => exact .bind (huncaught _) fun _ => hset _ rfl fun _ => rfl
  | _ => rw [hm] at h; cases h

/-- Any other member is not assigned to. -/
theorem assign_not_assignable (h : m.memberType.assignable = false) :
    r.assign m target name value =
      pure (some ("'" ++ name ++ "' is not a .net field or property")) := by
  rw [assign]
  cases hm : m.memberType with
  | Field => rw [hm] at h; cases h
  | Property => rw [hm] at h; cases h
  | _ => rfl

/-- An entry that a write would find itself makes no difference. -/
theorem setNamed_implements (hk : r.Valid k) (hfunction : functionEntry c name k = false)
    (hstatic : r.staticEntry c name k = none) :
    ImplementsAt r.Valid k (r.setNamed c target name value)
      (r.plainNamed c target name value) := by
  refine .read ?_
  rw [functionEntry] at hfunction
  rw [staticEntry] at hstatic
  rw [plainNamed]
  cases hentry : checkMemberCache c name k with
  | none =>
      cases hinst : r.getMembers c name false with
      | nil => exact .pure hk
      | cons m ms =>
          have hfind : r.findMember c name = some (m, false) := by
            rw [findMember_instance, hinst, List.head?_cons]
          exact .write (.beside (hk.setMemberCache ⟨false, hfind, fun h => by cases h⟩))
  | some e =>
      simp only [hentry] at hfunction hstatic
      have he := hk.entry _ _ _ hentry
      cases e with
      | function w => cases hfunction
      | member m =>
          obtain ⟨implicitStatic, hfind, -⟩ := he
          cases hinst : r.getMembers c name false with
          | nil => simp only [hinst] at hstatic; cases hstatic
          | cons m' ms =>
              have hm : m' = m := by
                rw [findMember] at hfind
                simp only [hinst] at hfind
                exact congrArg Prod.fst (Option.some.inj hfind)
              subst hm
              exact .beside hk

/-! ### `__newindex` -/

/-- Where `trySetMember` does what it does without caches, so does the write. -/
theorem setFieldOrProperty_implements
    (h : ImplementsAt r.Valid k (r.trySetMember (r.typeOf target) target slot value)
      (r.plainSet (r.typeOf target) target slot value)) :
    ImplementsAt r.Valid k (r.setFieldOrProperty target slot value)
      (r.plainNewIndex target slot value) := by
  refine .bind h fun detail k' hk' _ => ?_
  cases detail with
  | none => exact .pure hk'
  | some d => exact .beside hk'

theorem setNamed_valid :
    Triple (fun s : Caches N Obj × W => r.Valid s.1) (r.setNamed c target name value)
      (fun _ s => r.Valid s.1) (fun _ s => r.Valid s.1) := by
  refine .bind (R := fun _ s => r.Valid s.1) (.gets fun _ hs => hs) fun entry => ?_
  cases entry with
  | none =>
      cases hinst : r.getMembers c name false with
      | nil => exact .pure fun _ hs => hs
      | cons m ms =>
          have hfind : r.findMember c name = some (m, false) := by
            rw [findMember_instance, hinst, List.head?_cons]
          exact .bind (.record fun k hk => hk.setMemberCache ⟨false, hfind, fun h => by cases h⟩)
            fun _ => .beside
  | some e =>
      cases e with
      | function w => exact .throw fun _ hs => hs
      | member m => exact .beside

/-- A write leaves right entries, misled or not. -/
theorem setFieldOrProperty_valid :
    Triple (fun s : Caches N Obj × W => r.Valid s.1) (r.setFieldOrProperty target slot value)
      (fun _ s => r.Valid s.1) (fun _ s => r.Valid s.1) := by
  refine .bind (R := fun _ s => r.Valid s.1) ?_ fun detail => ?_
  · cases slot with
    | string name =>
        rw [trySetMember]
        split
        · exact setNamed_valid
        · exact .pure fun _ hs => hs
    | _ => exact .pure fun _ hs => hs
  · cases detail with
    | none => exact .pure fun _ hs => hs
    | some d => exact .beside

theorem staticEntry_spec (hk : r.Valid k) (h : r.staticEntry c name k = some m) :
    checkMemberCache c name k = some (.member m) ∧ r.getMembers c name false = [] ∧
      m.memberType.allowsImplicitStatic = true := by
  rw [staticEntry] at h
  cases hentry : checkMemberCache c name k with
  | none => simp only [hentry] at h; cases h
  | some e =>
      have he := hk.entry _ _ _ hentry
      cases e with
      | function w => simp only [hentry] at h; cases h
      | member m' =>
          simp only [hentry] at h
          obtain ⟨implicitStatic, hfind, hstatic⟩ := he
          cases hinst : r.getMembers c name false with
          | cons m'' ms => simp only [hinst] at h; cases h
          | nil =>
              simp only [hinst] at h
              obtain rfl : m' = m := Option.some.inj h
              refine ⟨rfl, rfl, hstatic ?_⟩
              cases implicitStatic with
              | true => rfl
              | false =>
                  rw [findMember_instance, hinst] at hfind
                  cases hfind

theorem setFieldOrProperty_of_detail {k' : Caches N Obj} {w' : W} {d : String}
    (h : r.trySetMember (r.typeOf target) target slot value (k, w) = (.ok (some d), (k', w'))) :
    r.setFieldOrProperty target slot value (k, w) =
      beside (r.setWithout (r.typeOf target) target slot value d) (k', w') := by
  rw [setFieldOrProperty, bind_ok h]

theorem plainNewIndex_of_detail {d : String}
    (h : r.plainSet (r.typeOf target) target slot value = pure (some d)) :
    r.plainNewIndex target slot value =
      r.setWithout (r.typeOf target) target slot value d := by
  rw [plainNewIndex, h]
  rfl

/-- A write without caches does not find a static member. -/
theorem plainNewIndex_of_nil (hname : r.isPropertyName name = true)
    (hinst : r.getMembers (r.typeOf target) name false = []) :
    r.plainNewIndex target (.string name) value =
      r.setWithout (r.typeOf target) target (.string name) value
        ("field or property '" ++ name ++ "' does not exist") :=
  plainNewIndex_of_detail (by simp only [plainSet, hname, if_true, plainNamed, hinst])

theorem trySetMember_string (hname : r.isPropertyName name = true) :
    r.trySetMember c target (.string name) value = r.setNamed c target name value := by
  simp only [trySetMember, hname, if_true]

theorem trySetMember_of_member (hname : r.isPropertyName name = true)
    (hentry : checkMemberCache c name k = some (.member m)) :
    r.trySetMember c target (.string name) value (k, w) =
      beside (r.assign m target name value) (k, w) := by
  rw [trySetMember_string hname, setNamed, consult_bind, hentry]

theorem trySetMember_of_function {f : Wrapper} (hname : r.isPropertyName name = true)
    (hentry : checkMemberCache c name k = some (.function f)) :
    r.trySetMember c target (.string name) value (k, w) =
      (.error (.exception .invalidCast), (k, w)) := by
  rw [trySetMember_string hname, setNamed, consult_bind, hentry]
  rfl

theorem trySetMember_of_not_assignable (hname : r.isPropertyName name = true)
    (hentry : checkMemberCache c name k = some (.member m))
    (hassign : m.memberType.assignable = false) :
    r.trySetMember c target (.string name) value (k, w) =
      (.ok (some ("'" ++ name ++ "' is not a .net field or property")), (k, w)) := by
  rw [trySetMember_of_member hname hentry, assign_not_assignable hassign]
  rfl

/-- A function under the name is not a `MemberInfo`. -/
theorem setFieldOrProperty_of_function (hk : r.Valid k) (hname : r.isPropertyName name = true)
    (hfunction : functionEntry (r.typeOf target) name k = true) :
    (r.setFieldOrProperty target (.string name) value (k, w)).1 ≠
      (r.plainNewIndex target (.string name) value w).1 := by
  rw [functionEntry] at hfunction
  cases hentry : checkMemberCache (r.typeOf target) name k with
  | none => simp only [hentry] at hfunction; cases hfunction
  | some e =>
      cases e with
      | member m => simp only [hentry] at hfunction; cases hfunction
      | function f =>
          obtain ⟨-, m, hfind, hm⟩ := hk.entry _ _ _ hentry
          have hcast : r.trySetMember (r.typeOf target) target (.string name) value (k, w) =
              (.error (.exception .invalidCast), (k, w)) := trySetMember_of_function hname hentry
          have hplain : r.plainSet (r.typeOf target) target (.string name) value =
              pure (some ("'" ++ name ++ "' is not a .net field or property")) := by
            rw [findMember_instance, List.head?_eq_some_iff] at hfind
            obtain ⟨ms, hinst⟩ := hfind
            simp only [plainSet, hname, if_true, plainNamed, hinst]
            exact assign_not_assignable (by rw [hm]; rfl)
          rw [setFieldOrProperty, bind_error hcast, plainNewIndex_of_detail hplain]
          intro hsame
          have hcaught : Exits _ _ (r.setWithout (r.typeOf target) target (.string name) value
            ("'" ++ name ++ "' is not a .net field or property") w) := setWithout_error _ w trivial
          cases hrun : r.setWithout (r.typeOf target) target (.string name) value
              ("'" ++ name ++ "' is not a .net field or property") w with
          | mk a w' =>
              rw [hrun] at hsame hcaught
              obtain rfl : .error (.exception .invalidCast) = a := hsame
              obtain ⟨error, herror⟩ := hcaught
              cases herror

/-- A static member under the name is assigned to, or is blamed in other words. -/
theorem setFieldOrProperty_of_static (hk : r.Valid k) (hname : r.isPropertyName name = true)
    (hentry : r.staticEntry (r.typeOf target) name k = some m)
    (hindexer : r.hasIndexer (r.typeOf target) ((r.env w).isNumber (.string name)) = false) :
    (r.setFieldOrProperty target (.string name) value (k, w)).1 ≠
      (r.plainNewIndex target (.string name) value w).1 := by
  obtain ⟨hmember, hinst, -⟩ := staticEntry_spec hk hentry
  rw [plainNewIndex_of_nil hname hinst, setWithout_of_no_indexer hindexer]
  cases hassign : m.memberType.assignable with
  | false =>
      rw [setFieldOrProperty_of_detail (trySetMember_of_not_assignable hname hmember hassign),
        beside, setWithout_of_no_indexer hindexer]
      intro hsame
      have htext : "'" ++ name ++ "' is not a .net field or property" =
          "field or property '" ++ name ++ "' does not exist" := by
        simpa using hsame
      have hhead := congrArg (fun s => s.toList.head?) htext
      simp only [String.toList_append] at hhead
      exact absurd hhead (by simp)
  | true =>
      have hexit : Exits _ _ (r.assign m target name value w) := assign_assignable hassign w trivial
      cases hrun : r.assign m target name value w with
      | mk a w' =>
          rw [hrun] at hexit
          have htry : r.trySetMember (r.typeOf target) target (.string name) value (k, w) =
              (a, (k, w')) := by rw [trySetMember_of_member hname hmember, beside, hrun]
          cases a with
          | ok d =>
              obtain rfl : d = none := hexit
              rw [setFieldOrProperty, bind_ok htry]
              intro hsame
              cases hsame
          | error e =>
              rw [setFieldOrProperty, bind_error htry]
              intro hsame
              exact hexit _ (Except.error.inj hsame)

end Reflection

/-- The access is a write that an entry leads astray. -/
def Access.misled (r : Reflection N Obj W) (s : Caches N Obj × W) : Access N Obj → Bool
  | .write obj (.string name) _ => r.isPropertyName name && r.misled (r.typeOf obj) name s
  | _ => false

/-- The access is a write to a static member that would have gone to an indexer. -/
def Access.setsStatic (r : Reflection N Obj W) (s : Caches N Obj × W) : Access N Obj → Bool
  | .write obj (.string name) _ =>
      match r.staticEntry (r.typeOf obj) name s.1 with
      | some m => m.memberType.assignable &&
          r.hasIndexer (r.typeOf obj) ((r.env s.2).isNumber (.string name))
      | none => false
  | _ => false

namespace Reflection

/-- A write that no entry leads astray does what it does without caches. -/
theorem setFieldOrProperty_of_not_misled (hk : r.Valid k)
    (h : (Access.write target slot value).misled r (k, w) = false) :
    ∃ k', r.Valid k' ∧ r.setFieldOrProperty target slot value (k, w) =
      ((r.plainNewIndex target slot value w).1, (k', (r.plainNewIndex target slot value w).2)) := by
  cases slot with
  | string name =>
      cases hname : r.isPropertyName name with
      | false =>
          refine setFieldOrProperty_implements ?_ w
          simp only [trySetMember, plainSet, hname]
          exact .pure hk
      | true =>
          rw [Access.misled, hname, Bool.true_and, misled, Bool.or_eq_false_iff] at h
          obtain ⟨hfunction, hstatic⟩ := h
          cases hentry : r.staticEntry (r.typeOf target) name k with
          | none =>
              refine setFieldOrProperty_implements ?_ w
              simp only [trySetMember, plainSet, hname, if_true]
              exact setNamed_implements hk hfunction hentry
          | some m =>
              simp only [hentry, Bool.or_eq_false_iff, Bool.not_eq_false'] at hstatic
              obtain ⟨hassign, hindexer⟩ := hstatic
              obtain ⟨hmember, hinst, -⟩ := staticEntry_spec hk hentry
              rw [plainNewIndex_of_nil hname hinst, setFieldOrProperty_of_detail
                (trySetMember_of_not_assignable hname hmember hassign),
                setWithout_of_indexer hindexer _ ("'" ++ name ++ "' is not a .net field or property")]
              exact ⟨k, hk, rfl⟩
  | _ => exact setFieldOrProperty_implements (.pure hk) w

/-- A write that is led astray ends in another way. -/
theorem setFieldOrProperty_of_misled (hk : r.Valid k)
    (h : (Access.write target slot value).misled r (k, w) = true)
    (hs : (Access.write target slot value).setsStatic r (k, w) = false) :
    (r.setFieldOrProperty target slot value (k, w)).1 ≠
      (r.plainNewIndex target slot value w).1 := by
  cases slot with
  | string name =>
      rw [Access.misled, Bool.and_eq_true, misled, Bool.or_eq_true] at h
      obtain ⟨hname, hentry⟩ := h
      rcases hentry with hfunction | hstatic
      · exact setFieldOrProperty_of_function hk hname hfunction
      · cases hentry : r.staticEntry (r.typeOf target) name k with
        | none => simp only [hentry] at hstatic; cases hstatic
        | some m =>
            simp only [hentry, Bool.or_eq_true, Bool.not_eq_true'] at hstatic
            simp only [Access.setsStatic, hentry] at hs
            refine setFieldOrProperty_of_static hk hname hentry ?_
            rcases hstatic with hassign | hindexer
            · rw [hassign, Bool.true_and] at hs
              exact hs
            · exact hindexer
  | _ => cases h

end Reflection

/-! ### Runs -/

variable [DecidableEq N]

/-- One access more, whatever its outcome is. -/
def step (r : Reflection N Obj W) (s : Caches N Obj × W) (a : Access N Obj) :
    Option (Caches N Obj × W) := some (a.perform r s).2

namespace Access

/-- The result of an access, and the world that it leaves. -/
def outcome (r : Reflection N Obj W) (s : Caches N Obj × W) (a : Access N Obj) :
    Except AccessFault (Option (Pushed N Obj)) × W := ((a.perform r s).1, (a.perform r s).2.2)

/-- The outcome is the same as with empty caches. -/
def Transparent (r : Reflection N Obj W) (s : Caches N Obj × W) (a : Access N Obj) : Prop :=
  a.outcome r s = a.outcome r (Caches.empty, s.2)

end Access

variable {r : Reflection N Obj W} {s s' : Caches N Obj × W} {w₀ : W} {a : Access N Obj}
  {history : List (Access N Obj)}

theorem Access.perform_write (obj : Obj) (name value : LuaValue N) (s : Caches N Obj × W) :
    (Access.write obj name value).perform r s =
      ((r.setFieldOrProperty obj name value s).1.map (fun _ => none),
        (r.setFieldOrProperty obj name value s).2) := map_apply _ _ s

omit [DecidableEq N] in
theorem except_map_const_inj {x y : Except AccessFault Unit}
    (h : x.map (fun _ => (none : Option (Pushed N Obj))) = y.map fun _ => none) : x = y := by
  cases x with
  | ok u =>
      cases y with
      | ok v => rfl
      | error e => cases h
  | error e =>
      cases y with
      | ok v => cases h
      | error e' => exact congrArg _ (Except.error.inj h)

theorem valid_step (h : r.Valid s.1) (hs : step r s a = some s') : r.Valid s'.1 := by
  obtain rfl := Option.some.inj hs
  cases a with
  | read obj name =>
      have hread : ImplementsAt r.Valid s.1 ((Access.read obj name).perform r)
          (some <$> r.plainIndex obj name) :=
        .bind (Reflection.index_implements h) fun _ _ hk' _ => .pure hk'
      exact hread.invariant s.2
  | write obj name value =>
      have hwrite : Triple (fun s : Caches N Obj × W => r.Valid s.1)
          ((Access.write obj name value).perform r) (fun _ s => r.Valid s.1)
          (fun _ s => r.Valid s.1) :=
        .map Reflection.setFieldOrProperty_valid fun _ _ hs => hs
      have hexit := hwrite s h
      generalize (Access.write obj name value).perform r s = out at hexit ⊢
      rcases out with ⟨e | v, s'⟩ <;> exact hexit

theorem valid_run (hrun : run (step r) (Caches.empty, w₀) history = some s) : r.Valid s.1 :=
  run_invariant (fun _ _ _ h hs => valid_step h hs) hrun Reflection.valid_empty

omit [DecidableEq N] in
theorem not_misled_empty {w : W} : a.misled r (Caches.empty, w) = false := by
  cases a with
  | read obj name => rfl
  | write obj name value =>
      cases name with
      | string name => exact Bool.and_false _
      | _ => rfl

/-- The access without caches. -/
def Access.plain (r : Reflection N Obj W) :
    Access N Obj → Prog W AccessFault (Option (Pushed N Obj))
  | .read obj name => some <$> r.plainIndex obj name
  | .write obj name value => (fun _ => none) <$> r.plainNewIndex obj name value

theorem outcome_eq_plain (h : r.Valid s.1) (ha : a.misled r s = false) :
    a.outcome r s = a.plain r s.2 := by
  obtain ⟨k, w⟩ := s
  cases a with
  | read obj name =>
      have hread : ImplementsAt r.Valid k ((Access.read obj name).perform r)
          ((Access.read obj name).plain r) :=
        .bind (Reflection.index_implements h) fun _ _ hk' _ => .pure hk'
      obtain ⟨k', -, hrun⟩ := hread w
      rw [Access.outcome, hrun]
  | write obj name value =>
      obtain ⟨k', -, hrun⟩ := Reflection.setFieldOrProperty_of_not_misled h ha
      rw [Access.outcome, Access.perform_write, hrun]
      exact (map_apply _ _ w).symm

theorem not_transparent_of_misled (h : r.Valid s.1) (ha : a.misled r s = true)
    (hs : a.setsStatic r s = false) : ¬ a.Transparent r s := by
  intro hsame
  rw [Access.Transparent, outcome_eq_plain Reflection.valid_empty not_misled_empty] at hsame
  obtain ⟨k, w⟩ := s
  cases a with
  | read obj name => cases ha
  | write obj name value =>
      refine Reflection.setFieldOrProperty_of_misled h ha hs ?_
      have hfirst := congrArg Prod.fst hsame
      rw [Access.outcome, Access.perform_write, Access.plain, map_apply] at hfirst
      exact except_map_const_inj hfirst

/-- **Caches of members.** After any accesses, whatever their outcomes, an access that is not
led astray by an entry of `memberCache` has the outcome that it would have with empty caches.
One that is led astray has another outcome, except that setting a static member may by
chance do what the indexer would have done. -/
theorem access_transparent (r : Reflection N Obj W) (w₀ : W) (history : List (Access N Obj))
    (s : Caches N Obj × W) (a : Access N Obj)
    (hrun : run (step r) (Caches.empty, w₀) history = some s) :
    (a.misled r s = false → a.Transparent r s) ∧
      (a.Transparent r s → a.misled r s = false ∨ a.setsStatic r s = true) := by
  have hvalid : r.Valid s.1 := valid_run hrun
  constructor
  · intro ha
    rw [Access.Transparent, outcome_eq_plain hvalid ha,
      outcome_eq_plain Reflection.valid_empty not_misled_empty]
  · intro hsame
    cases ha : a.misled r s with
    | false => exact .inl rfl
    | true =>
        cases hs : a.setsStatic r s with
        | true => exact .inr rfl
        | false => exact absurd hsame (not_transparent_of_misled hvalid ha hs)

/-- A world with one type of objects. Fields and properties are kept by their tokens. -/
def Reflection.plain (members : List MemberInfo) :
    Reflection ℤ ℕ (ℕ → Option (ClrValue ℤ ℕ)) where
  env _ := LuaEnv.plain
  typeOf _ := .derived 0 .object
  members _ := members
  sameName a b := a.toList.map Char.toLower == b.toList.map Char.toLower
  isLetter c := c.isAlpha
  getField m _ := gets fun w => w m.token
  getProperty m _ := gets fun w => w m.token
  setField m _ v := modify fun w => Function.update w m.token v
  setProperty m _ v := modify fun w => Function.update w m.token v
  findType _ _ := none
  elementType _ := none
  arrayLength _ _ := 0
  getElement _ _ := throw .indexOutOfRange
  setElement _ _ _ := throw .indexOutOfRange
  getItems _ := []
  setItem _ := .ok none
  invokeGetter _ _ _ := throw .target
  invokeSetter _ _ _ _ := throw .target
  text _ _ := ""
  isKeyNotFound _ := false
  invocationMessage := ""

/-- A type with a field `size` and a method `Run`. -/
def Reflection.runner : Reflection ℤ ℕ (ℕ → Option (ClrValue ℤ ℕ)) :=
  .plain [⟨0, "size", .Field, false, "Runner", .double, false⟩,
    ⟨1, "Run", .Method, false, "Runner", .void, false⟩]

/-- Setting the field once both members were read. -/
theorem access_transparent_field :
    (Access.write 0 (.string "Size") (.number 2)).Transparent Reflection.runner
      ((Access.read 0 (.string "Size")).perform Reflection.runner
        ((Access.read 0 (.string "Run")).perform Reflection.runner
          (Caches.empty, fun _ => none)).2).2 :=
  (access_transparent Reflection.runner (fun _ => none)
    [.read 0 (.string "Run"), .read 0 (.string "Size")] _ _ rfl).1 (by decide)

/-- Once the method was read, setting it is an `InvalidCastException`, and no error of
Lua. -/
theorem access_transparent_fails :
    ¬ ∀ (history : List (Access ℤ ℕ)) (s : Caches ℤ ℕ × (ℕ → Option (ClrValue ℤ ℕ)))
      (a : Access ℤ ℕ),
      run (step Reflection.runner) (Caches.empty, fun _ => none) history = some s →
        a.Transparent Reflection.runner s := by
  intro h
  have hsame := h [.read 0 (.string "Run")] _ (.write 0 (.string "Run") (.number 2)) rfl
  have hfirst : (Except.error (.exception .invalidCast) : Except AccessFault (Option _)) =
      .error (.error (.message "'Run' is not a .net field or property")) :=
    congrArg Prod.fst hsame
  cases hfirst

end UnityLua
