import Mathlib.Algebra.Group.Nat.Defs
import Mathlib.Logic.Function.Basic
import UnityLua.Library.HashDictionary
import UnityLua.Library.Run

/-!
# The object registry of the translator

`ObjectTranslator` hands CLR objects to Lua as userdata that carry an integer id. It keeps
two maps, `objects` from ids to objects and `objectsBackMap` from objects to ids; on the
Lua side the weak-valued table `luaNet_objects` leads from an id to the userdata that
carries it. This module models the registry and every event that touches it:

* `pushObject`, the push of any object, and `registerTable`, which registers the object it
  makes a second time (`make_object`);
* Lua dropping a userdata, the collector clearing its weak entry, and its `__gc` finalizer,
  which runs once and at any moment after the clearing;
* a field write, after which the registered objects may compare and hash differently.

The back map is an ordinary hash dictionary keyed by the objects' own `Equals` and
`GetHashCode`, so the model carries the current comparison (`comparer`) as part of the
state. Userdata are never removed from the model's list: a userdata is its position there,
and its flags say how far its life has gone.
-/

open Library

namespace UnityLua

/-- The value a 32-bit signed counter holds for the integer `n`. -/
def wrapInt32 (n : ℤ) : ℤ := n.bmod 4294967296

theorem wrapInt32_wrapInt32_add_one (n : ℤ) :
    wrapInt32 (wrapInt32 n + 1) = wrapInt32 (n + 1) := by
  simp only [wrapInt32, Int.bmod_add_bmod]

/-- The first `2 ^ 32` values of the counter are pairwise different. -/
theorem wrapInt32_inj {m n : ℕ} (hm : m < 2 ^ 32) (hn : n < 2 ^ 32)
    (h : wrapInt32 m = wrapInt32 n) : m = n := by
  simp only [wrapInt32, Int.bmod] at h
  omega

/-- The counter reaches `-1` only at its last value before it starts over. -/
theorem wrapInt32_ne_neg_one {n : ℕ} (hn : n + 1 < 2 ^ 32) : wrapInt32 n ≠ -1 := by
  simp only [wrapInt32, Int.bmod]
  omega

/-- The metatables a CLR object may be pushed with. -/
inductive Metatable
  | luaNet_metatable
  | luaNet_class
  | luaNet_function
  | luaNet_searchbase
  deriving DecidableEq, Repr

/-- A full userdata made by `pushNewObject`: the id in its block, its metatable, and how
far its life has gone. `object` is the object it was created for; no code reads it. -/
structure Userdata (Obj : Type) where
  id : ℤ
  object : Obj
  metatable : Metatable
  reachable : Bool := true
  cleared : Bool := false
  finalized : Bool := false

/-- The registry: the translator's maps, the weak table, all userdata ever made, and the
current `Equals` and `GetHashCode` of the CLR objects. -/
structure ObjectTranslator (Obj : Type) where
  objects : ℤ → Option Obj
  objectsBackMap : Dictionary Obj ℤ
  nextObj : ℤ
  luaNet_objects : ℤ → Option ℕ
  userdata : List (Userdata Obj)
  comparer : KeyComparer Obj

variable {Obj : Type}

namespace ObjectTranslator

/-- The registry of a new `LuaState`. -/
def initial (c : KeyComparer Obj) : ObjectTranslator Obj where
  objects := fun _ => none
  objectsBackMap := []
  nextObj := 0
  luaNet_objects := fun _ => none
  userdata := []
  comparer := c

/-! ### The registry's own methods -/

/-- `collectObject(object o, int udata)`: removes both entries without looking. -/
def collectObjectRef (t : ObjectTranslator Obj) (o : Obj) (udata : ℤ) :
    ObjectTranslator Obj :=
  { t with
    objects := Function.update t.objects udata none
    objectsBackMap := Dictionary.remove t.comparer t.objectsBackMap o }

/-- `collectObject(int udata)`: an id that is no longer registered is ignored. -/
def collectObject (t : ObjectTranslator Obj) (udata : ℤ) : ObjectTranslator Obj :=
  match t.objects udata with
  | some o => collectObjectRef t o udata
  | none => t

/-- `addObject`: a new id, written into both maps. -/
def addObject (t : ObjectTranslator Obj) (o : Obj) : ℤ × ObjectTranslator Obj :=
  (t.nextObj,
    { t with
      nextObj := wrapInt32 (t.nextObj + 1)
      objects := Function.update t.objects t.nextObj (some o)
      objectsBackMap := Dictionary.set t.comparer t.objectsBackMap o t.nextObj })

/-- `pushNewObject`: a new userdata around the id, stored in the weak table. -/
def pushNewObject (t : ObjectTranslator Obj) (o : Obj) (index : ℤ)
    (metatable : Metatable) : ℕ × ObjectTranslator Obj :=
  (t.userdata.length,
    { t with
      userdata := t.userdata ++ [{ id := index, object := o, metatable := metatable }]
      luaNet_objects := Function.update t.luaNet_objects index (some t.userdata.length) })

/-- `addObject` followed by `pushNewObject` for the new id. -/
def pushFresh (t : ObjectTranslator Obj) (o : Obj) (metatable : Metatable) :
    ℕ × ObjectTranslator Obj :=
  pushNewObject (addObject t o).2 o (addObject t o).1 metatable

/-- Changes the flags of one userdata. -/
def modifyUserdata (t : ObjectTranslator Obj) (k : ℕ) (f : Userdata Obj → Userdata Obj) :
    ObjectTranslator Obj :=
  { t with userdata := t.userdata.modify k f }

/-- `pushObject`: `none` stands for `null` and for the `nil` that is pushed for it. A weak
entry that was cleared before its finalizer ran is collected on the spot. -/
def pushObject (t : ObjectTranslator Obj) (o : Option Obj) (metatable : Metatable) :
    Option ℕ × ObjectTranslator Obj :=
  match o with
  | none => (none, t)
  | some o =>
      match Dictionary.tryGetValue t.comparer t.objectsBackMap o with
      | some index =>
          match t.luaNet_objects index with
          | some k => (some k, modifyUserdata t k fun u => { u with reachable := true })
          | none =>
              let (k, t') := pushFresh (collectObjectRef t o index) o metatable
              (some k, t')
      | none =>
          let (k, t') := pushFresh t o metatable
          (some k, t')

/-- The registrations of `registerTable`: the object it made is pushed, and then registered
once more for the `base` field of the table. -/
def registerTable (t : ObjectTranslator Obj) (obj : Obj) : ObjectTranslator Obj :=
  (pushFresh (pushObject t (some obj) .luaNet_metatable).2 obj .luaNet_searchbase).2

/-- What `getObject` makes of a slot that holds a userdata, or `nil`. -/
inductive GetResult (Obj : Type)
  | null
  | object (o : Obj)
  | luaUserData (k : ℕ)
  | keyNotFound
  deriving DecidableEq, Repr

/-- `getObject` on a slot with the `k`-th userdata (`nil` for `none`): the id `-1` means
that the userdata is not a CLR object. -/
def getObject (t : ObjectTranslator Obj) : Option ℕ → GetResult Obj
  | none => .null
  | some k =>
      match t.userdata[k]? with
      | none => .null
      | some u =>
          if u.id = -1 then .luaUserData k
          else match t.objects u.id with
            | some o => .object o
            | none => .keyNotFound

/-! ### Events -/

/-- What can happen to the registry. -/
inductive Event (Obj : Type)
  | push (o : Option Obj) (metatable : Metatable)
  | makeObject (obj : Obj)
  | drop (k : ℕ)
  | clear (k : ℕ)
  | finalize (k : ℕ)
  | fieldWrite (c : KeyComparer Obj)

/-- The collector drops the weak entries of an unreachable userdata. -/
def clearEntry (t : ObjectTranslator Obj) (k : ℕ) : ObjectTranslator Obj :=
  modifyUserdata
    { t with luaNet_objects := fun i =>
        if t.luaNet_objects i = some k then none else t.luaNet_objects i }
    k fun u => { u with cleared := true }

/-- The `__gc` metamethod (`MetaFunctions.collectObject`) of a userdata with this id. -/
def gcFunction (t : ObjectTranslator Obj) (udata : ℤ) : ObjectTranslator Obj :=
  if udata ≠ -1 then collectObject t udata else t

/-- One event. Clearing needs an unreachable userdata, and the finalizer runs once, after
the clearing. -/
def step (t : ObjectTranslator Obj) : Event Obj → Option (ObjectTranslator Obj)
  | .push o metatable => some (pushObject t o metatable).2
  | .makeObject obj => some (registerTable t obj)
  | .drop k =>
      match t.userdata[k]? with
      | some _ => some (modifyUserdata t k fun u => { u with reachable := false })
      | none => none
  | .clear k =>
      match t.userdata[k]? with
      | some u =>
          if u.reachable = false ∧ u.cleared = false then some (clearEntry t k) else none
      | none => none
  | .finalize k =>
      match t.userdata[k]? with
      | some u =>
          if u.cleared = true ∧ u.finalized = false then
            some (modifyUserdata (gcFunction t u.id) k fun u => { u with finalized := true })
          else none
      | none => none
  | .fieldWrite c => some { t with comparer := c }

end ObjectTranslator

end UnityLua
