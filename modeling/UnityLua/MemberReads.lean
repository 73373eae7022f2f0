import UnityLua.MemberCache

/-!
# Reads of members

A read never shows the caches: from caches with right entries, `__index` does what it does
without caches.

## Main results

* `Valid`: the entries of both caches say what reflection says.
* `getMember_implements`: from valid caches `getMember` does what it does without them, and
  leaves valid caches.
* `index_implements`: so does `luaIndexFunction` with its own cache of functions.
-/

namespace UnityLua

open Library Prog

variable {N Obj W : Type}

/-- Static members of these kinds may be reached through an instance. -/
def MemberTypes.allowsImplicitStatic : MemberTypes → Bool
  | .Field | .Property | .Event => true
  | .NestedType | .Method => false

namespace Reflection

variable (r : Reflection N Obj W)

/-! ### Reading without caches -/

/-- What a member that was found gives; `baseMember` is what the base type gives. -/
def plainUse (baseMember : Option (Prog W AccessFault (Pushed N Obj × IsFunc)))
    (objType : ClrClass) (obj : Obj) (methodName : String) (member : MemberInfo)
    (implicitStatic : Bool) : Prog W AccessFault (Pushed N Obj × IsFunc) :=
  match member.memberType with
  | .Field => r.readField member obj
  | .Property =>
      if member.hasGetter then r.readProperty member obj
      else baseMember.getD (pure (.value none, .flag false))
  | .Event => pure (.eventHandler obj member, .flag false)
  | .NestedType =>
      if implicitStatic then throwMessage ("can't pass instance to static method " ++ methodName)
      else r.readNestedType member
  | .Method =>
      if implicitStatic then throwMessage ("can't pass instance to static method " ++ methodName)
      else pure (.function ⟨objType, methodName⟩, .flag true)

def plainIn (baseMember : Option (Prog W AccessFault (Pushed N Obj × IsFunc)))
    (objType : ClrClass) (obj : Obj) (methodName : String) :
    Prog W AccessFault (Pushed N Obj × IsFunc) :=
  match r.findMember objType methodName with
  | some (member, implicitStatic) =>
      r.plainUse baseMember objType obj methodName member implicitStatic
  | none => throwMessage ("unknown member name " ++ methodName)

def plainMember (obj : Obj) (methodName : String) :
    ClrClass → Prog W AccessFault (Pushed N Obj × IsFunc)
  | .object => plainIn r none .object obj methodName
  | .derived id baseType =>
      plainIn r (some (plainMember obj methodName baseType)) (.derived id baseType) obj methodName

def plainTry (objType : ClrClass) (obj : Obj) (methodName : String) :
    Prog W AccessFault (Option (Pushed N Obj × IsFunc)) :=
  match !(r.getMembers objType methodName true).isEmpty with
  | false => pure none
  | true => do
      match ← attempt (r.plainMember obj methodName objType) with
      | .ok v => pure (some v)
      | .error (.error e) => throw (.error e)
      | .error (.exception _) => pure none

def plainName (objType : ClrClass) (obj : Obj) :
    LuaValue N → Prog W AccessFault (Option (Pushed N Obj × IsFunc))
  | .string methodName => r.plainTry objType obj methodName
  | _ => pure none

def plainMethod (obj : Obj) (slot : LuaValue N) :
    Prog W AccessFault (Pushed N Obj × IsFunc) := do
  match ← r.plainName (r.typeOf obj) obj slot with
  | some v => pure v
  | none => r.getByIndex (r.typeOf obj) obj slot

def plainResult (value : Pushed N Obj) (isFunc : IsFunc) : Prog W AccessFault (Pushed N Obj) :=
  match value.isNil, isFunc with
  | true, .message s => throwMessage s
  | _, _ => pure value

/-- Reading a member without caches. -/
def plainIndex (obj : Obj) (name : LuaValue N) : Prog W AccessFault (Pushed N Obj) := do
  let (value, isFunc) ← r.plainMethod obj name
  plainResult value isFunc

/-! ### Members and functions -/

/-- The function that a read gives, if it gives one; `baseFunction` is that of the base
type. -/
def functionIn (baseFunction : Option Wrapper) (objType : ClrClass) (methodName : String) :
    Option Wrapper :=
  match r.findMember objType methodName with
  | some (member, implicitStatic) =>
      match member.memberType with
      | .Property => if member.hasGetter then none else baseFunction
      | .Method => if implicitStatic then none else some ⟨objType, methodName⟩
      | _ => none
  | none => none

def functionOf (methodName : String) : ClrClass → Option Wrapper
  | .object => functionIn r none .object methodName
  | .derived id baseType =>
      functionIn r (functionOf methodName baseType) (.derived id baseType) methodName

variable {r} {objType : ClrClass} {obj : Obj} {methodName : String} {member : MemberInfo}

theorem findMember_isSome :
    (r.findMember objType methodName).isSome = !(r.getMembers objType methodName true).isEmpty := by
  rw [findMember]
  cases hinst : r.getMembers objType methodName false with
  | nil =>
      cases r.getMembers objType methodName true with
      | nil => rfl
      | cons m ms => rfl
  | cons m ms =>
      have hm : m ∈ r.getMembers objType methodName false := hinst ▸ List.mem_cons_self
      have hm' : m ∈ r.getMembers objType methodName true := by
        rw [getMembers, List.mem_filter, Bool.and_eq_true] at hm ⊢
        exact ⟨hm.1, hm.2.1, rfl⟩
      cases htrue : r.getMembers objType methodName true with
      | nil => rw [htrue] at hm'; cases hm'
      | cons m' ms' => rfl

/-- Only the search among instance members finds a member that is not `implicitStatic`. -/
theorem findMember_instance :
    r.findMember objType methodName = some (member, false) ↔
      (r.getMembers objType methodName false).head? = some member := by
  rw [findMember]
  cases r.getMembers objType methodName false with
  | nil =>
      cases r.getMembers objType methodName true with
      | nil => simp
      | cons m ms => simp
  | cons m ms => simp

theorem findMember_of_functionOf {c : ClrClass} {w : Wrapper}
    (h : r.functionOf methodName c = some w) : (r.findMember c methodName).isSome := by
  cases c with
  | object =>
      rw [functionOf, functionIn] at h
      cases hfind : r.findMember .object methodName with
      | none => simp [hfind] at h
      | some p => rfl
  | derived id b =>
      rw [functionOf, functionIn] at h
      cases hfind : r.findMember (.derived id b) methodName with
      | none => simp [hfind] at h
      | some p => rfl

/-- For the kinds that allow it, it makes no difference that a member is static. -/
theorem plainUse_static {base : Option (Prog W AccessFault (Pushed N Obj × IsFunc))}
    {implicitStatic : Bool}
    (h : implicitStatic = true → member.memberType.allowsImplicitStatic = true) :
    r.plainUse base objType obj methodName member implicitStatic =
      r.plainUse base objType obj methodName member false := by
  cases implicitStatic with
  | false => rfl
  | true =>
      have hkind := h rfl
      rw [plainUse, plainUse]
      cases hm : member.memberType with
      | NestedType => rw [hm] at hkind; cases hkind
      | Method => rw [hm] at hkind; cases hkind
      | _ => rfl

/-- Where there is a function, reading gives it, and nothing else happens. -/
theorem plainIn_of_functionIn {base : Option (Prog W AccessFault (Pushed N Obj × IsFunc))}
    {baseFunction : Option Wrapper}
    (hbase : ∀ w, baseFunction = some w → base = some (pure (.function w, .flag true)))
    {w : Wrapper} (h : r.functionIn baseFunction objType methodName = some w) :
    r.plainIn base objType obj methodName = pure (.function w, .flag true) := by
  rw [functionIn] at h
  rw [plainIn]
  cases hfind : r.findMember objType methodName with
  | none => simp [hfind] at h
  | some p =>
      obtain ⟨m, s⟩ := p
      simp only [hfind] at h ⊢
      rw [plainUse]
      cases hm : m.memberType with
      | Property =>
          simp only [hm] at h ⊢
          split at h
          · cases h
          · rename_i hget
            rw [if_neg hget, hbase w h]
            rfl
      | Method =>
          simp only [hm] at h ⊢
          split at h
          · cases h
          · rename_i hs
            rw [if_neg hs, Option.some.inj h]
      | _ => simp [hm] at h

theorem plainMember_of_functionOf {c : ClrClass} {w : Wrapper}
    (h : r.functionOf methodName c = some w) :
    r.plainMember obj methodName c = pure (.function w, .flag true) := by
  induction c generalizing w with
  | object => exact plainIn_of_functionIn (fun _ hw => by cases hw) h
  | derived id b ih => exact plainIn_of_functionIn (fun w hw => by rw [ih hw]) h

/-! ### Valid caches -/

variable (r) in
/-- What an entry of `memberCache` says of the type and the name. A method is entered as a
member by a write, and as a function by a read. -/
def Describes (objType : ClrClass) (methodName : String) : CachedMember → Prop
  | .function w => w = ⟨objType, methodName⟩ ∧
      ∃ m, r.findMember objType methodName = some (m, false) ∧ m.memberType = .Method
  | .member m => ∃ implicitStatic, r.findMember objType methodName = some (m, implicitStatic) ∧
      (implicitStatic = true → m.memberType.allowsImplicitStatic = true)

variable (r) in
/-- The entries of the caches are right. -/
structure Valid (k : Caches N Obj) : Prop where
  entry : ∀ c n e, checkMemberCache c n k = some e → r.Describes c n e
  function : ∀ c key, (k.metaCache c key).truthy = true →
    ∃ n w, key = .string n ∧ k.metaCache c key = .function w ∧ r.functionOf n c = some w

theorem valid_empty : r.Valid Caches.empty where
  entry _ _ _ h := by cases h
  function _ _ h := by cases h

variable {k : Caches N Obj}

theorem Valid.setMemberCache {e : CachedMember} (h : r.Valid k)
    (he : r.Describes objType methodName e) :
    r.Valid (UnityLua.setMemberCache objType methodName e k) where
  entry c n e' he' := by
    rw [checkMemberCache_setMemberCache] at he'
    split at he'
    · rename_i hcn
      obtain ⟨rfl, rfl⟩ := hcn
      exact Option.some.inj he' ▸ he
    · exact h.entry c n e' he'
  function := h.function

theorem Valid.setMetaCache [DecidableEq N] {w : Wrapper} (h : r.Valid k)
    (hw : r.functionOf methodName objType = some w) :
    r.Valid (UnityLua.setMetaCache objType (.string methodName) (.function w) k) where
  entry := h.entry
  function c key hkey := by
    rw [setMetaCache_metaCache] at hkey ⊢
    split at hkey
    · rename_i hcn
      obtain ⟨rfl, rfl⟩ := hcn
      rw [if_pos ⟨rfl, rfl⟩]
      exact ⟨methodName, w, rfl, rfl, hw⟩
    · rename_i hcn
      rw [if_neg hcn]
      exact h.function c key hkey

/-! ### Reading -/

theorem cacheUnless_implements {cached : Bool} {e : CachedMember}
    {f : Unit → AccessM N Obj W (Pushed N Obj × IsFunc)}
    {y : Prog W AccessFault (Pushed N Obj × IsFunc)} (hk : r.Valid k)
    (he : cached = false → r.Describes objType methodName e)
    (hf : ∀ k', r.Valid k' → ImplementsAt r.Valid k' (f ()) y) :
    ImplementsAt r.Valid k (cacheUnless cached objType methodName e >>= f) y := by
  cases cached with
  | true => exact hf k hk
  | false => exact .write (hf _ (hk.setMemberCache (he rfl)))

/-- The use of a member, whether it comes from the cache or not. -/
theorem useMember_implements
    {base : Option (AccessM N Obj W (Pushed N Obj × IsFunc))}
    {plainBase : Option (Prog W AccessFault (Pushed N Obj × IsFunc))}
    {implicitStatic cached : Bool} (hk : r.Valid k)
    (hbase : ∀ k', r.Valid k' → ImplementsAt r.Valid k'
      (base.getD (pure (.value none, .flag false)))
      (plainBase.getD (pure (.value none, .flag false))))
    (hfind : cached = false → r.findMember objType methodName = some (member, implicitStatic)) :
    ImplementsAt r.Valid k
      (r.useMember base objType obj methodName member implicitStatic cached)
      (r.plainUse plainBase objType obj methodName member implicitStatic) := by
  rw [useMember, plainUse]
  cases hm : member.memberType with
  | Field =>
      exact cacheUnless_implements hk (fun hc => ⟨implicitStatic, hfind hc, fun _ => by rw [hm]; rfl⟩)
        fun _ => .beside
  | Property =>
      refine cacheUnless_implements hk
        (fun hc => ⟨implicitStatic, hfind hc, fun _ => by rw [hm]; rfl⟩) fun k' hk' => ?_
      cases member.hasGetter with
      | true => exact .beside hk'
      | false => exact hbase k' hk'
  | Event =>
      exact cacheUnless_implements hk (fun hc => ⟨implicitStatic, hfind hc, fun _ => by rw [hm]; rfl⟩)
        fun _ hk' => .pure hk'
  | NestedType =>
      cases implicitStatic with
      | true => exact .throw hk
      | false =>
          exact cacheUnless_implements hk (fun hc => ⟨false, hfind hc, fun h => by cases h⟩)
            fun _ => .beside
  | Method =>
      cases implicitStatic with
      | true => exact .throw hk
      | false =>
          exact cacheUnless_implements hk (fun hc => ⟨rfl, member, hfind hc, hm⟩)
            fun _ hk' => .pure hk'

theorem getMemberIn_implements
    {base : Option (AccessM N Obj W (Pushed N Obj × IsFunc))}
    {plainBase : Option (Prog W AccessFault (Pushed N Obj × IsFunc))} (hk : r.Valid k)
    (hbase : ∀ k', r.Valid k' → ImplementsAt r.Valid k'
      (base.getD (pure (.value none, .flag false)))
      (plainBase.getD (pure (.value none, .flag false)))) :
    ImplementsAt r.Valid k (r.getMemberIn base objType obj methodName)
      (r.plainIn plainBase objType obj methodName) := by
  refine .read ?_
  rw [plainIn]
  cases hentry : checkMemberCache objType methodName k with
  | none =>
      cases hfind : r.findMember objType methodName with
      | none => exact .throw hk
      | some p => exact useMember_implements hk hbase fun _ => hfind
  | some e =>
      have he := hk.entry _ _ _ hentry
      cases e with
      | function w =>
          obtain ⟨rfl, m, hfind, hm⟩ := he
          simp only [hfind, plainUse, hm]
          exact .pure hk
      | member m =>
          obtain ⟨implicitStatic, hfind, hstatic⟩ := he
          simp only [hfind]
          rw [plainUse_static hstatic]
          exact useMember_implements hk hbase fun h => by cases h

/-- `getMember` gives what reflection gives. -/
theorem getMember_implements (hk : r.Valid k) (c : ClrClass) :
    ImplementsAt r.Valid k (r.getMember obj methodName c) (r.plainMember obj methodName c) := by
  induction c generalizing k with
  | object => exact getMemberIn_implements hk fun _ hk' => .pure hk'
  | derived id b ih => exact getMemberIn_implements hk fun _ hk' => ih hk'

theorem isMemberPresent_eq (hk : r.Valid k) :
    r.isMemberPresent objType methodName k =
      !(r.getMembers objType methodName true).isEmpty := by
  rw [isMemberPresent]
  cases hentry : checkMemberCache objType methodName k with
  | none => rfl
  | some e =>
      have he := hk.entry _ _ _ hentry
      rw [← findMember_isSome]
      cases e with
      | function w =>
          obtain ⟨-, m, hfind, -⟩ := he
          simp only [hfind, Option.isSome_some]
      | member m =>
          obtain ⟨s, hfind, -⟩ := he
          simp only [hfind, Option.isSome_some]

theorem tryMember_implements (hk : r.Valid k) :
    ImplementsAt r.Valid k (r.tryMember objType obj methodName)
      (r.plainTry objType obj methodName) := by
  refine .read ?_
  rw [isMemberPresent_eq hk, plainTry]
  cases !(r.getMembers objType methodName true).isEmpty with
  | false => exact .pure hk
  | true =>
      refine .bind (.attempt (getMember_implements hk objType)) fun a k' hk' _ => ?_
      cases a with
      | ok v => exact .pure hk'
      | error e =>
          cases e with
          | error e => exact .throw hk'
          | exception e => exact .pure hk'

theorem getMethod_implements {slot : LuaValue N} (hk : r.Valid k) :
    ImplementsAt r.Valid k (r.getMethod obj slot) (r.plainMethod obj slot) := by
  have hfound : ImplementsAt r.Valid k (r.tryName (r.typeOf obj) obj slot)
      (r.plainName (r.typeOf obj) obj slot) := by
    cases slot with
    | string methodName => exact tryMember_implements hk
    | _ => exact .pure hk
  refine .bind hfound fun found k' hk' _ => ?_
  cases found with
  | some v => exact .pure hk'
  | none => exact .beside hk'

/-! ### The functions among the values -/

variable (r) in
/-- The results of `getMethod`: a value that is no function, a message, or the function of the
name. -/
def Answers (c : ClrClass) (slot : LuaValue N) (p : Pushed N Obj × IsFunc) : Prop :=
  p.2 = .flag false ∨ (∃ s, p = (.value none, .message s)) ∨
    ∃ methodName w, slot = .string methodName ∧ r.functionOf methodName c = some w ∧
      p = (.function w, .flag true)

/-- What a read of a member gives if it ends: no function, or this one. -/
def NoFunctionBut (x : Prog W AccessFault (Pushed N Obj × IsFunc)) (function : Option Wrapper) :
    Prop :=
  Triple (fun _ => True) x
    (fun p _ => p.2 = .flag false ∨ ∃ w, function = some w ∧ p = (.function w, .flag true))
    (fun _ _ => True)

theorem readField_flag (f : Option Wrapper) : NoFunctionBut (r.readField member obj) f := by
  refine .bind .any fun v => ?_
  cases v with
  | ok v => exact .pure fun _ _ => .inl rfl
  | error e => exact .pure fun _ _ => .inl rfl

theorem readProperty_flag (f : Option Wrapper) : NoFunctionBut (r.readProperty member obj) f := by
  refine .bind .any fun v => ?_
  cases v with
  | ok v => exact .pure fun _ _ => .inl rfl
  | error e =>
      cases e with
      | thrown e => exact .throw fun _ _ => trivial
      | parameterCount => exact .throw fun _ _ => trivial

theorem plainIn_function {base : Option (Prog W AccessFault (Pushed N Obj × IsFunc))}
    {baseFunction : Option Wrapper}
    (hbase : NoFunctionBut (base.getD (pure (.value none, .flag false))) baseFunction) :
    NoFunctionBut (r.plainIn base objType obj methodName)
      (r.functionIn baseFunction objType methodName) := by
  rw [plainIn, functionIn]
  cases r.findMember objType methodName with
  | none => exact .throw fun _ _ => trivial
  | some p =>
      obtain ⟨m, implicitStatic⟩ := p
      simp only [plainUse]
      cases m.memberType with
      | Field => exact readField_flag _
      | Property =>
          cases m.hasGetter with
          | true => exact readProperty_flag _
          | false => exact hbase
      | Event => exact .pure fun _ _ => .inl rfl
      | NestedType =>
          cases implicitStatic with
          | true => exact .throw fun _ _ => trivial
          | false =>
              exact .bind .any fun _ => .pure fun _ _ => .inl rfl
      | Method =>
          cases implicitStatic with
          | true => exact .throw fun _ _ => trivial
          | false => exact .pure fun _ _ => .inr ⟨_, rfl, rfl⟩

theorem plainMember_function (c : ClrClass) :
    NoFunctionBut (r.plainMember obj methodName c) (r.functionOf methodName c) := by
  induction c with
  | object => exact plainIn_function (.pure fun _ _ => .inl rfl)
  | derived id b ih => exact plainIn_function ih

theorem pushError_answers {slot : LuaValue N} {P : W → Prop} (message : String) :
    Triple P (pushError message : Prog W AccessFault (Pushed N Obj × IsFunc))
      (fun p _ => r.Answers objType slot p) (fun _ _ => True) :=
  .pure fun _ _ => .inr (.inl ⟨message, rfl⟩)

theorem tryGetItems_answers {slot : LuaValue N} (getters : List Accessor) (slot' : LuaValue N)
    (index : Option (ClrValue N Obj)) (result : Option (Option (ClrValue N Obj))) :
    Triple (fun _ => True) (r.tryGetItems obj getters slot' index result)
      (fun p _ => r.Answers objType slot p) (fun _ _ => True) := by
  induction getters generalizing slot' index result with
  | nil =>
      cases result with
      | none =>
          exact .bind .any fun _ => pushError_answers _
      | some v => exact .pure fun _ _ => .inl rfl
  | cons getter getters ih =>
      rw [tryGetItems]
      split
      · refine .bind .any fun converted => .bind .any fun text => .bind .any fun v => ?_
        cases v with
        | ok v => exact ih _ _ _
        | error e =>
            cases e with
            | thrown e =>
                cases hkey : r.isKeyNotFound e with
                | true => simp only [hkey, if_true]; exact pushError_answers _
                | false => simp only [hkey]; exact pushError_answers _
            | _ => exact .throw fun _ _ => trivial
      · exact ih _ _ _

theorem readElement_answers {slot : LuaValue N} (i : ℤ) :
    Triple (fun _ => True) (r.readElement obj i) (fun p _ => r.Answers objType slot p)
      (fun _ _ => True) := by
  refine .bind .any fun length => ?_
  split
  · exact pushError_answers _
  · exact .bind .any fun _ => .pure fun _ _ => .inl rfl

theorem getByIndex_answers {slot : LuaValue N} :
    Triple (fun _ => True) (r.getByIndex objType obj slot)
      (fun p _ => r.Answers objType slot p) (fun _ _ => True) := by
  refine .bind .any fun index => ?_
  split
  · exact .bind .any fun i => readElement_answers i
  · exact tryGetItems_answers _ _ _ _

/-- What `getMethod` gives is an answer for the type and the name. -/
theorem plainMethod_answers {slot : LuaValue N} :
    Triple (fun _ => True) (r.plainMethod obj slot)
      (fun p _ => r.Answers (r.typeOf obj) slot p) (fun _ _ => True) := by
  refine .bind (R := fun found _ => ∀ p, found = some p → r.Answers (r.typeOf obj) slot p) ?_
    fun found => ?_
  · cases slot with
    | string methodName =>
        rw [plainName, plainTry]
        cases !(r.getMembers (r.typeOf obj) methodName true).isEmpty with
        | false => exact .pure fun _ _ p hp => by cases hp
        | true =>
            have hmember : NoFunctionBut (r.plainMember obj methodName (r.typeOf obj))
              (r.functionOf methodName (r.typeOf obj)) := plainMember_function _
            refine .bind (R := fun a _ => ∀ p, a = .ok p →
              r.Answers (r.typeOf obj) (.string methodName) p) (fun w _ p hp => ?_) fun a => ?_
            · have hexit := hmember w trivial
              cases hrun : r.plainMember obj methodName (r.typeOf obj) w with
              | mk a w' =>
                  rw [hrun] at hp hexit
                  obtain rfl : a = .ok p := hp
                  rcases hexit with hflag | ⟨f, hf, hp⟩
                  · exact .inl hflag
                  · exact .inr (.inr ⟨methodName, f, rfl, hf, hp⟩)
            · cases a with
              | ok v => exact .pure fun _ hv p hp => Option.some.inj hp ▸ hv v rfl
              | error e =>
                  cases e with
                  | error e => exact .throw fun _ _ => trivial
                  | exception e => exact .pure fun _ _ p hp => by cases hp
    | _ => exact .pure fun _ _ p hp => by cases hp
  · cases found with
    | some v => exact .pure fun _ hv => hv v rfl
    | none => exact getByIndex_answers.weaken (fun _ _ => trivial) (fun _ _ h => h) fun _ _ h => h

/-! ### `__index` -/

variable [DecidableEq N]

theorem indexResult_implements {slot : LuaValue N} {p : Pushed N Obj × IsFunc} (hk : r.Valid k)
    (hp : r.Answers objType slot p) :
    ImplementsAt r.Valid k (indexResult objType slot p.1 p.2) (plainResult (W := W) p.1 p.2) := by
  rcases hp with hflag | ⟨s, rfl⟩ | ⟨methodName, w, rfl, hw, rfl⟩
  · obtain ⟨v, f⟩ := p
    obtain rfl : f = .flag false := hflag
    simp only [indexResult, plainResult]
    cases v.isNil with
    | true => exact .pure hk
    | false => exact .pure hk
  · exact .throw hk
  · exact .write (.pure (hk.setMetaCache hw))

omit [DecidableEq N] in
/-- Where there is a function of the name, a read without caches gives it. -/
theorem plainIndex_of_functionOf {w : Wrapper}
    (h : r.functionOf methodName (r.typeOf obj) = some w) :
    r.plainIndex obj (.string methodName) = pure (.function w) := by
  have hpresent := findMember_of_functionOf h
  rw [findMember_isSome] at hpresent
  rw [plainIndex, plainMethod, plainName, plainTry, hpresent, plainMember_of_functionOf h]
  rfl

/-- **Reads do not show the caches.** -/
theorem index_implements {name : LuaValue N} (hk : r.Valid k) :
    ImplementsAt r.Valid k (r.index obj name) (r.plainIndex obj name) := by
  refine .read ?_
  cases hcached : (k.metaCache (r.typeOf obj) name).truthy with
  | true =>
      obtain ⟨methodName, w, rfl, hw, hfunction⟩ := hk.function _ _ hcached
      rw [plainIndex_of_functionOf hfunction]
      simp only [hw]
      exact .pure hk
  | false =>
      refine .bind (getMethod_implements hk) fun p k' hk' hret => ?_
      obtain ⟨w, hw⟩ := hret
      have hanswers : Triple _ (r.plainMethod obj name) _ _ := plainMethod_answers
      have hexit := hanswers w trivial
      cases hrun : r.plainMethod obj name w with
      | mk a w' =>
          rw [hrun] at hw hexit
          obtain rfl : a = .ok p := hw
          exact indexResult_implements hk' hexit

end Reflection

end UnityLua
