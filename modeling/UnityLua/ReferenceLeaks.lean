import UnityLua.LuaValue
import UnityLua.ReferenceOwnership

/-!
# Leaked references

Every table, function or foreign userdata that is read from Lua is put into the registry and gets
a wrapper. `Dispose` gives the reference back, the finalizer does not. A read with a path makes a
wrapper for every value on the way, and `GetTableDict` for every key and value, and the caller gets
only some of them.

## Main results

* `Balanced.obtain`, `leaks_obtain`: what a wrapper that the caller gets, or does not get, does to
  the references in use.
* `exact_iff_returns`: the references in use are those of the living wrappers exactly in the runs
  in which callers get, and dispose, every wrapper that is made.
-/

open Library

namespace UnityLua

namespace ReferenceOwners

variable {N : Type}

/-- What the reads find in Lua at the time: the index operation, where `none` is an error, which
userdata the library made, and `Equals` on the objects for two keys. -/
structure LuaView (N : Type) where
  globals : LuaValue N
  gettable : LuaValue N → LuaValue N → Option (LuaValue N)
  netObject : ℕ → Bool
  equals : LuaValue N → LuaValue N → Bool

/-- The class of the wrapper that `getObject` makes, if it makes one. -/
def LuaView.wrapper (lua : LuaView N) : LuaValue N → Option OwnerKind
  | .table _ => some .luaTable
  | .function _ => some .luaFunction
  | .userdata id => if lua.netObject id then none else some .luaUserData
  | _ => none

/-- `getObject` returns `null`. -/
def isNull : LuaValue N → Bool
  | .nil | .lightUserdata _ | .thread _ => true
  | _ => false

/-- The values on which a read calls `getObject`, in order, and whether the caller gets the
object. -/
abbrev Reading (N : Type) := List (LuaValue N × Bool)

/-- `LuaState.getObject(string[] remainingPath)` on the value on the top: the values of the path,
and whether it came to an end without an error. The first `null` ends it. -/
def getObjectPath (lua : LuaView N) (top : LuaValue N) :
    List String → List (LuaValue N) × Bool
  | [] => ([], true)
  | field :: remainingPath =>
      match lua.gettable top (.string field) with
      | none => ([], false)
      | some v =>
          if isNull v then ([v], true)
          else
            let (vs, returned) := getObjectPath lua v remainingPath
            (v :: vs, returned)

/-- The last object is returned, if there was no error. -/
def lastOf (returned : Bool) : List (LuaValue N) → Reading N
  | [] => []
  | [v] => [(v, returned)]
  | v :: w :: vs => (v, false) :: lastOf returned (w :: vs)

/-- What is done from C#. A path is given by its parts, of which there is at least one. -/
inductive Operation (N : Type)
  | popValues (values : List (LuaValue N))
  | getItem (name : String) (remainingPath : List String)
  | getField (table : LuaValue N) (field : String) (remainingPath : List String)
  | getKey (table key : LuaValue N)
  | getTableDict (entries : List (LuaValue N × LuaValue N))
  | dispose (k : ℕ) (disposeManagedResources : Bool)

/-- The getter of `LuaState`. -/
def getItem (lua : LuaView N) (name : String) (remainingPath : List String) : Reading N :=
  match lua.gettable lua.globals (.string name) with
  | none => []
  | some v =>
      let (vs, returned) := getObjectPath lua v remainingPath
      lastOf returned (v :: vs)

/-- The getter of `LuaTable` for strings. -/
def getField (lua : LuaView N) (table : LuaValue N) (field : String)
    (remainingPath : List String) : Reading N :=
  let (vs, returned) := getObjectPath lua table (field :: remainingPath)
  lastOf returned vs

/-- The getter of `LuaTable` for other keys. -/
def getKey (lua : LuaView N) (table key : LuaValue N) : Reading N :=
  match lua.gettable table key with
  | none => []
  | some v => [(v, true)]

/-- An entry of the `ListDictionary`: the key, and the numbers of the table entries from which the
key object and the value object are. -/
structure DictEntry (N : Type) where
  key : LuaValue N
  keyFrom : ℕ
  valueFrom : ℕ

/-- The setter of `ListDictionary`: an entry with an equal key keeps its key object and gets the
new value. -/
def setEntry (lua : LuaView N) (key : LuaValue N) (i : ℕ) : List (DictEntry N) → List (DictEntry N)
  | [] => [⟨key, i, i⟩]
  | e :: dict =>
      if lua.equals e.key key then { e with valueFrom := i } :: dict
      else e :: setEntry lua key i dict

/-- The loop of `GetTableDict`, from the entry number `i` on: the dictionary, unless a key is
`null`, and how many entries were read. -/
def dictLoop (lua : LuaView N) (dict : List (DictEntry N)) (i : ℕ) :
    List (LuaValue N × LuaValue N) → Option (List (DictEntry N)) × ℕ
  | [] => (some dict, i)
  | (key, _) :: entries =>
      if isNull key then (none, i + 1)
      else dictLoop lua (setEntry lua key i dict) (i + 1) entries

/-- `GetTableDict`. -/
def getTableDict (lua : LuaView N) (entries : List (LuaValue N × LuaValue N)) : Reading N :=
  let (result, read) := dictLoop lua [] 0 entries
  let dict := result.getD []
  (entries.take read).zipIdx.flatMap fun (e, i) =>
    [(e.1, dict.any fun d => d.keyFrom = i), (e.2, dict.any fun d => d.valueFrom = i)]

/-- What an operation reads. -/
def Operation.reading (lua : LuaView N) : Operation N → Reading N
  | .popValues values => values.map fun v => (v, true)
  | .getItem name remainingPath => ReferenceOwners.getItem lua name remainingPath
  | .getField table field remainingPath => ReferenceOwners.getField lua table field remainingPath
  | .getKey table key => ReferenceOwners.getKey lua table key
  | .getTableDict entries => ReferenceOwners.getTableDict lua entries
  | .dispose _ _ => []

variable (h : Host (LuaValue N))

/-- The finalizer of the `k`-th owner, `Dispose(false)`. -/
def finalize {V : Type} (s : ReferenceOwners V) (k : ℕ) : ReferenceOwners V :=
  match s.owners[k]? with
  | some o => disposeBase s k o false
  | none => s

/-- `getObject` on a value. A wrapper that the caller does not get counts as finalized. -/
def obtain (lua : LuaView N) (s : ReferenceOwners (LuaValue N)) (v : LuaValue N × Bool) :
    ReferenceOwners (LuaValue N) :=
  match lua.wrapper v.1 with
  | none => s
  | some kind =>
      let s' := newOwner h s kind (some v.1)
      if v.2 then s' else finalize s' s.owners.length

/-- An operation, with what it finds in Lua. -/
def operate (s : ReferenceOwners (LuaValue N)) (e : LuaView N × Operation N) :
    Option (ReferenceOwners (LuaValue N)) :=
  match e.2 with
  | .dispose k managed => step h s (.dispose k managed)
  | op => some ((op.reading e.1).foldl (obtain h e.1) s)

/-- The references in use are those of the wrappers that were neither disposed nor finalized. -/
def Exact {V : Type} (s : ReferenceOwners V) : Prop :=
  ∀ r, (s.registry.live r).isSome ↔ ∃ k o, s.At k o ∧ o.disposed = false ∧ o.reference = r

/-- The condition on an operation: the caller gets every wrapper that is made, and no wrapper is
finalized that was not disposed. -/
def Returns (s : ReferenceOwners (LuaValue N)) (e : LuaView N × Operation N) : Prop :=
  match e.2 with
  | .dispose k managed => managed = false → ∀ o, s.At k o → o.disposed = true
  | op => ∀ v ∈ op.reading e.1, (e.1.wrapper v.1).isSome → v.2 = true

/-! ### Wrappers -/

section Wrappers

variable {V : Type} {h : Host V} {s s' : ReferenceOwners V} {k j : ℕ} {x o : Owner V} {v : V}
  {kind : OwnerKind}

/-- All owners are wrappers with a registry slot. -/
structure OwnedWrappers (s : ReferenceOwners V) : Prop extends Owned s where
  slot : ∀ k o, s.At k o → 0 < o.reference ∧ o.kind ≠ .luaThread

theorem ownedWrappers_initial : OwnedWrappers (initial : ReferenceOwners V) where
  toOwned := owned_initial
  slot := by simp [At, initial]

theorem exact_initial : Exact (initial : ReferenceOwners V) := by
  simp [Exact, At, initial, RefTable.live, RefTable.rawgeti, RefTable.empty]

theorem OwnedWrappers.newOwner (hs : OwnedWrappers s) (hh : h.Lawful) (hkind : kind ≠ .luaThread) :
    OwnedWrappers (newOwner h s kind (some v)) where
  toOwned := hs.toOwned.newOwner hh fun _ => hkind
  slot k o ho := by
    rcases at_concat.mp ho with ho | ⟨-, rfl⟩
    · exact hs.slot k o ho
    · exact ⟨(RefTable.luaL_ref_spec hh hs.sound v).1, hkind⟩

theorem OwnedWrappers.disposeBase (hs : OwnedWrappers s) (hx : s.At k x) (managed : Bool) :
    OwnedWrappers (disposeBase s k x managed) where
  toOwned := hs.toOwned.disposeBase hx (hs.slot k x hx).2 managed
  slot j o ho := by
    unfold ReferenceOwners.disposeBase at ho
    split at ho
    · exact hs.slot j o ho
    · split at ho
      · obtain ⟨p, hp, rfl⟩ := at_setDisposed_unref.mp ho
        split <;> exact hs.slot j p hp
      · obtain ⟨p, hp, rfl⟩ := at_setDisposed.mp ho
        split <;> exact hs.slot j p hp

/-- The reference of a wrapper that was not disposed leads somewhere. -/
theorem OwnedWrappers.live (hs : OwnedWrappers s) (ho : s.At k o) (hr : o.released = 0) :
    ∃ v, s.registry.live o.reference = some v := by
  obtain ⟨v, -, hlive⟩ := hs.holds k o ho hr (hs.slot k o ho).1
  exact ⟨v, hlive⟩

/-- The `k`-th owner is at its end, and its reference was not released. -/
def LeakedAt (s : ReferenceOwners V) (k : ℕ) : Prop :=
  ∃ o, s.At k o ∧ o.disposed = true ∧ o.released = 0

/-- A leaked reference is in use and belongs to no living wrapper. -/
theorem OwnedWrappers.not_exact (hs : OwnedWrappers s) (hleak : LeakedAt s k) : ¬ Exact s := by
  intro hexact
  obtain ⟨o, ho, hdisposed, hreleased⟩ := hleak
  obtain ⟨v, hlive⟩ := hs.live ho hreleased
  obtain ⟨j, p, hp, hpd, hpr⟩ := (hexact o.reference).mp (by rw [hlive]; rfl)
  have hjk : k ≠ j := by
    rintro rfl
    obtain rfl := ho.unique hp
    exact absurd (hdisposed.symm.trans hpd) (by decide)
  exact hs.distinct k j o p ho hp hjk hreleased (hs.released_eq_zero hp hpd) (hs.slot k o ho).1
    hpr.symm

/-- A new wrapper that the caller gets. -/
theorem OwnedWrappers.exact_newOwner (hs : OwnedWrappers s) (hh : h.Lawful) (hexact : Exact s) :
    Exact (ReferenceOwners.newOwner h s kind (some v)) := by
  obtain ⟨-, hfresh, -, hlive⟩ := RefTable.luaL_ref_spec hh hs.sound v
  intro r
  simp only [ReferenceOwners.newOwner, hlive]
  by_cases hr : r = (RefTable.luaL_ref h s.registry (some v)).1
  · subst hr
    rw [Function.update_self]
    exact iff_of_true rfl ⟨_, _, at_concat.mpr (Or.inr ⟨rfl, rfl⟩), rfl, rfl⟩
  · rw [Function.update_of_ne hr, hexact r]
    constructor
    · rintro ⟨k, o, ho, hd, hor⟩
      exact ⟨k, o, at_concat.mpr (Or.inl ho), hd, hor⟩
    · rintro ⟨k, o, ho, hd, hor⟩
      rcases at_concat.mp ho with ho | ⟨-, rfl⟩
      · exact ⟨k, o, ho, hd, hor⟩
      · exact absurd hor.symm hr

/-- `Dispose` of a living wrapper gives its reference back. -/
theorem OwnedWrappers.exact_release (hs : OwnedWrappers s) (hx : s.At k x)
    (hd : x.disposed = false) (hexact : Exact s) : Exact (setDisposed (unref s k x) k) := by
  have hreleased := hs.released_eq_zero hx hd
  obtain ⟨v, hv⟩ := hs.live hx hreleased
  have hmap : (setDisposed (unref s k x) k).registry.live =
      Function.update s.registry.live x.reference none :=
    (RefTable.luaL_unref_spec hs.sound hv).2
  intro r
  rw [hmap]
  by_cases hr : r = x.reference
  · subst hr
    rw [Function.update_self]
    refine iff_of_false (by simp) ?_
    rintro ⟨j, o, ho, hod, hor⟩
    obtain ⟨p, hp, rfl⟩ := at_setDisposed_unref.mp ho
    split at hod
    · cases hod
    · next hkj =>
      rw [if_neg hkj] at hor
      exact hs.distinct k j x p hx hp hkj hreleased (hs.released_eq_zero hp hod) (hs.slot k x hx).1
        hor.symm
  · rw [Function.update_of_ne hr, hexact r]
    constructor
    · rintro ⟨j, p, hp, hpd, hpr⟩
      have hkj : k ≠ j := by
        rintro rfl
        obtain rfl := hx.unique hp
        exact hr hpr.symm
      exact ⟨j, p, at_setDisposed_unref.mpr ⟨p, hp, (if_neg hkj).symm⟩, hpd, hpr⟩
    · rintro ⟨j, o, ho, hod, hor⟩
      obtain ⟨p, hp, rfl⟩ := at_setDisposed_unref.mp ho
      split at hod
      · cases hod
      · next hkj =>
        rw [if_neg hkj] at hor
        exact ⟨j, p, hp, hod, hor⟩

theorem LeakedAt.newOwner (hleak : LeakedAt s k) {v : Option V} :
    LeakedAt (newOwner h s kind v) k := by
  obtain ⟨o, ho, hd⟩ := hleak
  exact ⟨o, at_concat.mpr (Or.inl ho), hd⟩

/-- Marking a living wrapper without releasing its reference leaks it. -/
theorem leakedAt_setDisposed (hx : s.At k x) (hr : x.released = 0) :
    LeakedAt (setDisposed s k) k :=
  ⟨{ x with disposed := true }, at_setDisposed.mpr ⟨x, hx, (if_pos rfl).symm⟩, rfl, hr⟩

theorem LeakedAt.setDisposed (hleak : LeakedAt s k) : LeakedAt (setDisposed s j) k := by
  obtain ⟨o, ho, hd, hr⟩ := hleak
  refine ⟨_, at_setDisposed.mpr ⟨o, ho, rfl⟩, ?_⟩
  split
  · exact ⟨rfl, hr⟩
  · exact ⟨hd, hr⟩

end Wrappers

/-! ### Operations -/

section Operations

variable {h : Host (LuaValue N)} {s s' : ReferenceOwners (LuaValue N)} {lua : LuaView N}
  {v : LuaValue N × Bool} {values : Reading N} {k : ℕ}

theorem wrapper_ne_luaThread {v : LuaValue N} {kind : OwnerKind} (hv : lua.wrapper v = some kind) :
    kind ≠ .luaThread := by
  rintro rfl
  unfold LuaView.wrapper at hv
  split at hv
  · cases hv
  · cases hv
  · split at hv <;> cases hv
  · cases hv

/-- The end of a wrapper that was just made. -/
theorem finalize_newOwner {V : Type} {h : Host V} {s : ReferenceOwners V} {kind : OwnerKind}
    {v : Option V} :
    finalize (newOwner h s kind v) s.owners.length =
      setDisposed (newOwner h s kind v) s.owners.length := by
  have hget : (newOwner h s kind v).owners[s.owners.length]? = some
      { kind := kind, reference := (RefTable.luaL_ref h s.registry v).1, created := v } :=
    at_concat.mpr (Or.inr ⟨rfl, rfl⟩)
  simp [finalize, hget, disposeBase]

theorem OwnedWrappers.obtain (hs : OwnedWrappers s) (hh : h.Lawful) :
    OwnedWrappers (ReferenceOwners.obtain h lua s v) := by
  unfold ReferenceOwners.obtain
  split
  · exact hs
  · next kind hkind =>
    have hnew := hs.newOwner (v := v.1) hh (wrapper_ne_luaThread hkind)
    dsimp only
    split
    · exact hnew
    · unfold finalize
      split
      · next o ho => exact hnew.disposeBase ho false
      · exact hnew

/-- A value whose wrapper, if there is one, the caller gets. -/
theorem OwnedWrappers.exact_obtain (hs : OwnedWrappers s) (hh : h.Lawful) (hexact : Exact s)
    (hv : (lua.wrapper v.1).isSome → v.2 = true) : Exact (ReferenceOwners.obtain h lua s v) := by
  unfold ReferenceOwners.obtain
  split
  · exact hexact
  · next kind hkind =>
    rw [if_pos (hv (by rw [hkind]; rfl))]
    exact hs.exact_newOwner hh hexact

/-- A wrapper that the caller does not get. -/
theorem leakedAt_obtain (hv : (lua.wrapper v.1).isSome) (hdropped : v.2 = false) :
    LeakedAt (ReferenceOwners.obtain h lua s v) s.owners.length := by
  obtain ⟨kind, hkind⟩ := Option.isSome_iff_exists.mp hv
  simp only [ReferenceOwners.obtain, hkind, hdropped, Bool.false_eq_true, if_false]
  rw [finalize_newOwner]
  exact leakedAt_setDisposed (at_concat.mpr (Or.inr ⟨rfl, rfl⟩)) rfl

theorem LeakedAt.obtain (hleak : LeakedAt s k) : LeakedAt (ReferenceOwners.obtain h lua s v) k := by
  unfold ReferenceOwners.obtain
  split
  · exact hleak
  · dsimp only
    split
    · exact hleak.newOwner
    · rw [finalize_newOwner]
      exact hleak.newOwner.setDisposed

theorem OwnedWrappers.read (hs : OwnedWrappers s) (hh : h.Lawful) :
    OwnedWrappers (values.foldl (ReferenceOwners.obtain h lua) s) := by
  induction values generalizing s with
  | nil => exact hs
  | cons v values ih => exact ih (hs.obtain hh)

theorem OwnedWrappers.exact_read (hs : OwnedWrappers s) (hh : h.Lawful) (hexact : Exact s)
    (hvalues : ∀ v ∈ values, (lua.wrapper v.1).isSome → v.2 = true) :
    Exact (values.foldl (ReferenceOwners.obtain h lua) s) := by
  induction values generalizing s with
  | nil => exact hexact
  | cons v values ih =>
      obtain ⟨hv, hvalues⟩ := List.forall_mem_cons.mp hvalues
      exact ih (hs.obtain hh) (hs.exact_obtain hh hexact hv) hvalues

theorem LeakedAt.read (hleak : LeakedAt s k) :
    LeakedAt (values.foldl (ReferenceOwners.obtain h lua) s) k := by
  induction values generalizing s with
  | nil => exact hleak
  | cons v values ih => exact ih hleak.obtain

/-- A read in which some wrapper is dropped leaks a reference. -/
theorem leakedAt_read
    (hvalues : ¬ ∀ v ∈ values, (lua.wrapper v.1).isSome → v.2 = true) :
    ∃ k, LeakedAt (values.foldl (ReferenceOwners.obtain h lua) s) k := by
  induction values generalizing s with
  | nil => exact absurd (fun _ hv => absurd hv List.not_mem_nil) hvalues
  | cons v values ih =>
      by_cases hv : (lua.wrapper v.1).isSome → v.2 = true
      · exact ih fun hrest => hvalues (List.forall_mem_cons.mpr ⟨hv, hrest⟩)
      · obtain ⟨hsome, hdropped⟩ := Classical.not_imp.mp hv
        exact ⟨_, (leakedAt_obtain hsome (Bool.not_eq_true _ ▸ hdropped)).read⟩

/-- The steps of a run: a `Dispose`, or a read. -/
theorem operate_cases {e : LuaView N × Operation N} (hstep : operate h s e = some s') :
    (∃ k managed x, e.2 = .dispose k managed ∧ s.At k x ∧ s' = disposeBase s k x managed ∧
      (Returns s e ↔ (managed = false → x.disposed = true))) ∨
    (s' = (e.2.reading e.1).foldl (ReferenceOwners.obtain h e.1) s ∧
      (Returns s e ↔ ∀ v ∈ e.2.reading e.1, (e.1.wrapper v.1).isSome → v.2 = true)) := by
  obtain ⟨lua, op⟩ := e
  cases op with
  | dispose k managed =>
      obtain ⟨x, hx, -, rfl⟩ := step_dispose (h := h) hstep
      refine Or.inl ⟨k, managed, x, rfl, hx, rfl, fun hok hm => hok hm x hx, ?_⟩
      intro hok hm o ho
      obtain rfl := hx.unique ho
      exact hok hm
  | _ => exact Or.inr ⟨(Option.some.inj hstep).symm, Iff.rfl⟩

/-- **The references in use are those of the living wrappers exactly** in the runs in which the
callers get every wrapper that is made, and dispose it before it is finalized. -/
theorem exact_iff_returns (hh : h.Lawful) {es : List (LuaView N × Operation N)}
    {t : ReferenceOwners (LuaValue N)} (hrun : run (operate h) initial es = some t) :
    Throughout (operate h) Exact initial es ↔ AllSteps (operate h) Returns initial es := by
  refine throughout_iff_allSteps (I := fun s => OwnedWrappers s ∧ Exact s) (B := fun _ => True)
    (A := fun _ => True) (fun _ hs => hs.2) (fun _ _ _ _ _ => trivial) ?_ ?_ hrun
    (fun _ _ => trivial) ⟨ownedWrappers_initial, exact_initial⟩ trivial
  · rintro s e s' - ⟨hs, hexact⟩ hok hstep -
    rcases operate_cases hstep with ⟨k, managed, x, -, hx, rfl, hreturns⟩ | ⟨rfl, hreturns⟩
    · refine ⟨hs.disposeBase hx managed, ?_⟩
      unfold disposeBase
      split
      · exact hexact
      · next hd =>
        have hm : managed = true := by
          by_contra hm
          exact hd (hreturns.mp hok (Bool.not_eq_true _ ▸ hm))
        have hpos := (hs.slot k x hx).1
        rw [if_pos ⟨hm, by omega⟩]
        exact hs.exact_release hx (Bool.not_eq_true _ ▸ hd) hexact
    · exact ⟨hs.read hh, hs.exact_read hh hexact (hreturns.mp hok)⟩
  · rintro s e s' - ⟨hs, hexact⟩ hok hstep -
    rcases operate_cases hstep with ⟨k, managed, x, -, hx, rfl, hreturns⟩ | ⟨rfl, hreturns⟩
    · obtain ⟨hm, hd⟩ := Classical.not_imp.mp fun hx => hok (hreturns.mpr hx)
      subst hm
      refine (hs.disposeBase hx false).not_exact (k := k) ?_
      simp only [disposeBase, hd, Bool.false_eq_true, if_false, false_and]
      exact leakedAt_setDisposed hx (hs.released_eq_zero hx (Bool.not_eq_true _ ▸ hd))
    · obtain ⟨k, hleak⟩ := leakedAt_read fun hvalues => hok (hreturns.mpr hvalues)
      exact (hs.read hh).not_exact hleak

/-- Every global and every field is the same table. -/
def oneTable : LuaView ℕ where
  globals := .table 0
  gettable _ _ := some (.table 1)
  netObject _ := false
  equals _ _ := false

/-- A host whose length operator stops at the first hole. -/
def firstHole : Host (LuaValue ℕ) :=
  ⟨fun l => (l.takeWhile fun s => s != .nil).length, fun _ => 0⟩

/-- A table is read and disposed. -/
theorem exact_iff_returns_disposed :
    Throughout (operate firstHole) Exact initial
      [(oneTable, .getItem "Libs" []), (oneTable, .dispose 0 true)] := by
  refine (exact_iff_returns lawful_takeWhile rfl).mpr ⟨?_, fun s hs => ?_⟩
  · intro v hv _
    obtain rfl := List.mem_singleton.mp hv
    rfl
  · obtain rfl := Option.some.inj hs
    exact ⟨fun hm => absurd hm (by decide), fun _ _ => trivial⟩

/-- After the read of `Libs.f` one reference too many is in use. -/
theorem exact_fails :
    ¬ Throughout (operate firstHole) Exact initial [(oneTable, .getItem "Libs" ["f"])] := by
  intro hall
  have hexact := hall _ _ (List.prefix_refl _) rfl
  obtain ⟨k, o, ho, hd, hr⟩ := (hexact 1).mp rfl
  match k with
  | 0 =>
      obtain rfl := Option.some.inj ho
      cases hd
  | 1 =>
      obtain rfl := Option.some.inj ho
      exact absurd hr (by decide)
  | k + 2 => cases ho

end Operations

end ReferenceOwners

end UnityLua
