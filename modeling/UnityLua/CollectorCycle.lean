import UnityLua.Collector

/-!
# A collection

The steps of the collector: it marks the roots, marks what they lead to one object at a time,
finishes with marking in one step in which the program does nothing, sweeps the strings and then
the other objects, and calls finalizers. What the program does in between goes through the
barriers.
-/

namespace UnityLua.Collector

open Library

variable (g : State)

/-! ### Barriers and new objects -/

/-- `luaC_barrierf`. -/
def luaC_barrierf (o v : GCObject) : State :=
  if g.gcstate = .propagate then reallymarkobject g v else makewhite g o

/-- `luaC_barrierback`. -/
def luaC_barrierback (t : ℕ) : State :=
  { setcolor g (.table t) .gray with grayagain := .table t :: g.grayagain }

/-- `luaC_objbarrier`. -/
def luaC_objbarrier (p o : GCObject) : State :=
  if iswhite g o && isblack g p then luaC_barrierf g p o else g

/-- `luaC_barrier`. -/
def luaC_barrier (p : GCObject) (v : TValue) : State :=
  match v.gcvalue with
  | some o => luaC_objbarrier g p o
  | none => g

/-- `luaC_barriert`, and `luaC_objbarriert` for a table as a value. -/
def luaC_barriert (t : ℕ) (v : TValue) : State :=
  match v.gcvalue with
  | some o => if iswhite g o && isblack g (.table t) then luaC_barrierback g t else g
  | none => g

/-- An object becomes the first one of `rootgc`. -/
def linkroot (o : GCObject) : State :=
  if g.swept = [] then { g with unswept := o :: g.unswept } else { g with swept := o :: g.swept }

/-- A mark of a new object. -/
def newmark (o : GCObject) : State :=
  { g with color := Function.update g.color o (some (.white g.currentwhite))
           fixed := Function.update g.fixed o false }

/-- `luaC_link`. -/
def luaC_link (o : GCObject) : State := linkroot (newmark g o) o

/-- `luaC_linkupval`. -/
def luaC_linkupval (u : ℕ) : State :=
  let g := linkroot g (.upval u)
  if isgray g (.upval u) then
    if g.gcstate = .propagate then
      luaC_barrier (setcolor g (.upval u) .black) (.upval u) (uvalue g u)
    else makewhite g (.upval u)
  else g

/-- Puts an object after another one. -/
def insertAfter (m o : GCObject) : List GCObject → List GCObject
  | [] => []
  | x :: xs => if x = m then x :: o :: xs else x :: insertAfter m o xs

/-- A userdata goes behind the main thread in `rootgc`. -/
def linkudata (u : ℕ) : State :=
  if g.swept.getLast? = some (.thread g.mainthread) then
    { g with unswept := .userdata u :: g.unswept }
  else
    { g with swept := insertAfter (.thread g.mainthread) (.userdata u) g.swept
             unswept := insertAfter (.thread g.mainthread) (.userdata u) g.unswept }

/-! ### Upvalues -/

/-- `freeobj` without what it frees with the object. -/
def freeobj (o : GCObject) : State := { g with color := Function.update g.color o none }

/-- An upvalue leaves the lists of open ones. -/
def unlinkupval (th u : ℕ) : State :=
  { g with
    thread := Function.update g.thread th
      { g.thread th with openupval := (g.thread th).openupval.erase u }
    uvhead := g.uvhead.erase u }

/-- One round of `luaF_close`. -/
def closeupval (th u : ℕ) : State :=
  if isdead g (.upval u) then freeobj (unlinkupval g th u) (.upval u)
  else
    let v := uvalue g u
    let g := unlinkupval g th u
    luaC_linkupval { g with upval := Function.update g.upval u (.closed v) } u

/-- Whether an upvalue is open at this level or above. -/
def openat (level u : ℕ) : Bool :=
  match g.upval u with
  | .opened _ l => level ≤ l
  | .closed _ => false

/-- `luaF_close`. -/
def luaF_close (th level : ℕ) : State :=
  ((g.thread th).openupval.takeWhile (openat g level)).foldl (fun g u => closeupval g th u) g

/-! ### The atomic step -/

/-- `remarkupvals`. -/
def remarkupvals : State :=
  g.uvhead.foldl
    (fun g u => if isgray g (.upval u) then markvalue g (uvalue g u) else g) g

/-- `markmt`. -/
def markmt : State := g.mt.foldl markmeta g

/-- The part of `rootgc` behind the main thread: the userdata. -/
def behind (m : GCObject) (os : List GCObject) : List GCObject := (os.dropWhile (· ≠ m)).tail

/-- One round of `luaC_separateudata`. -/
def separate (o : GCObject) : State :=
  match o with
  | .userdata u =>
      if !iswhite g o || (g.udata u).finalized then g
      else
        let udata := Function.update g.udata u { g.udata u with finalized := true }
        if gfasttm g (g.udata u).metatable g.tmgc = .nil then { g with udata := udata }
        else { g with udata := udata, swept := g.swept.erase o, unswept := g.unswept.erase o
                      tmudata := g.tmudata ++ [u] }
  | _ => g

/-- `luaC_separateudata`. -/
def luaC_separateudata : State :=
  (behind (.thread g.mainthread) (rootgc g)).foldl separate g

/-- `marktmu`. -/
def marktmu : State :=
  g.tmudata.foldl
    (fun g u => reallymarkobject (makewhite g (.userdata u)) (.userdata u)) g

/-- `iscleared`. -/
def iscleared (o : TValue) (iskey : Bool) : State × Bool :=
  match o with
  | .nil | .plain => (g, false)
  | .string i => (if iswhite g (.string i) then setcolor g (.string i) .gray else g, false)
  | .userdata i =>
      (g, iswhite g (.userdata i) || (!iskey && (g.udata i).finalized))
  | .function i => (g, iswhite g (.function i))
  | .table i => (g, iswhite g (.table i))
  | .thread i => (g, iswhite g (.thread i))
  | .proto i => (g, iswhite g (.proto i))

def cleararray : State → List TValue → State × List TValue
  | g, [] => (g, [])
  | g, o :: os =>
      let r := cleararray g os
      let c := iscleared r.1 o false
      (c.1, (if c.2 then .nil else o) :: r.2)

def clearnodes : State → List Node → State × List Node
  | g, [] => (g, [])
  | g, n :: ns =>
      let r := clearnodes g ns
      if n.val = .nil then (r.1, n :: r.2)
      else
        let k := iscleared r.1 n.key true
        if k.2 then (k.1, ⟨n.key, .nil⟩ :: r.2)
        else
          let v := iscleared k.1 n.val false
          (v.1, (if v.2 then ⟨n.key, .nil⟩ else n) :: r.2)

/-- `cleartable` of one table of the list. -/
def clearone (t : ℕ) : State :=
  let a := if (g.weakbits t).2 then cleararray g (g.table t).array else (g, (g.table t).array)
  let n := clearnodes a.1 (g.table t).node
  { n.1 with table := Function.update n.1.table t { n.1.table t with array := a.2, node := n.2 } }

/-- `cleartable`. -/
def cleartable (l : List ℕ) : State := l.foldl clearone g

/-- `atomic`. -/
def atomic : State :=
  let g := remarkupvals g
  -- objects caught by the barriers and by `remarkupvals`
  let g := propagateall g
  -- weak tables again
  let g := { g with gray := g.weak.map .table, weak := [] }
  let g := markmt (markobject g (.thread g.running))
  let g := propagateall g
  let g := propagateall { g with gray := g.grayagain, grayagain := [] }
  -- userdata that are to be finalized, and what they lead to
  let g := propagateall (marktmu (luaC_separateudata g))
  let g := cleartable g g.weak
  { g with currentwhite := !g.currentwhite, sweepstrgc := 0, gcstate := .sweepstring
           swept := [], unswept := rootgc g }

/-- `markroot`. -/
def markroot : State :=
  let g := { g with gray := [], grayagain := [], weak := [] }
  let g := markobject g (.thread g.mainthread)
  let g := markvalue g (g.thread g.mainthread).gt
  let g := markmt (markvalue g g.registry)
  { g with gcstate := .propagate }

/-! ### Sweeping -/

/-- Whether `sweeplist` keeps an object. -/
def keeps (o : GCObject) : Bool := !isdead g o || g.fixed o

/-- `sweeplist` over a whole list that is not `rootgc`: the objects that are kept, white again,
and the others freed. -/
def sweepobjects (os : List GCObject) : State :=
  os.foldl (fun g o => if keeps g o then makewhite g o else freeobj g o) g

/-- The open upvalues of a thread. -/
def sweepupvals (th : ℕ) : State :=
  let us := (g.thread th).openupval
  let kept := us.filter fun u => keeps g (.upval u)
  let uvhead := g.uvhead.filter fun u => !us.contains u || kept.contains u
  let g := sweepobjects g (us.map .upval)
  { g with
    thread := Function.update g.thread th { g.thread th with openupval := kept }
    uvhead := uvhead }

/-- One round of `sweeplist` over `rootgc`. -/
def sweepone : State :=
  match g.unswept with
  | [] => g
  | o :: unswept =>
      let g := match o with
        | .thread th => sweepupvals g th
        | _ => g
      if keeps g o then
        { makewhite g o with swept := g.swept ++ [o], unswept := unswept }
      else
        let g := { g with unswept := unswept }
        match o with
        | .thread th => freeobj (luaF_close g th 0) o
        | _ => freeobj g o

/-- `sweeplist` over `rootgc`. -/
def sweeplist : ℕ → State → State
  | 0, g => g
  | count + 1, g => sweeplist count (sweepone g)

/-- The bucket of a string. -/
def bucket (size : ℕ) (str : ByteString) : ℕ := (hashstr str).toNat % size

/-- `luaS_resize`. -/
def luaS_resize (newsize : ℕ) : State :=
  if g.gcstate = .sweepstring then g
  else
    let strt := g.strt.flatten.foldl
      (fun strt i => strt.modify (bucket newsize (g.content i)) (i :: ·))
      (List.replicate newsize [])
    { g with strt := strt }

def MINSTRTABSIZE : ℕ := 32

/-- `checkSizes`. -/
def checkSizes : State :=
  if g.strt.flatten.length < g.strt.length / 4 ∧ g.strt.length > MINSTRTABSIZE * 2 then
    luaS_resize g (g.strt.length / 2)
  else g

/-- The step of a collection that sweeps one list of strings. -/
def sweepstrings : State :=
  let os := g.strt.getD g.sweepstrgc []
  let kept := os.filter fun i => keeps g (.string i)
  let g := sweepobjects g (os.map .string)
  let g := { g with strt := g.strt.set g.sweepstrgc kept, sweepstrgc := g.sweepstrgc + 1 }
  if g.sweepstrgc ≥ g.strt.length then { g with gcstate := .sweep } else g

def GCSWEEPMAX : ℕ := 40

/-- A thread has another stack. -/
def setstack (th : ℕ) (stack : List TValue) : State :=
  { g with thread := Function.update g.thread th { g.thread th with stack := stack } }

/-- The stack of the thread that runs. -/
def stack : List TValue := (g.thread g.running).stack

/-- A value is pushed. -/
def push (v : TValue) : State := setstack g g.running (stack g ++ [v])

/-- `GCTM` up to the call of the finalizer, which the thread that runs has on its stack then. -/
def GCTM : State :=
  match g.tmudata with
  | [] => g
  | u :: tmudata =>
      let g := makewhite (linkudata { g with tmudata := tmudata } u) (.userdata u)
      match gfasttm g (g.udata u).metatable g.tmgc with
      | .nil => g
      | tm => push (push g tm) (.userdata u)

/-- `singlestep`. -/
def singlestep : State :=
  match g.gcstate with
  | .pause => markroot g
  | .propagate => if g.gray = [] then atomic g else propagatemark g
  | .sweepstring => sweepstrings g
  | .sweep =>
      let g := sweeplist GCSWEEPMAX g
      if g.unswept = [] then { checkSizes g with gcstate := .finalize } else g
  | .finalize => if g.tmudata = [] then { g with gcstate := .pause } else GCTM g

/-- What `luaC_fullgc` does first when nothing is swept: all objects are swept, back to white. -/
def resetmarks : State :=
  { g with sweepstrgc := 0, swept := [], unswept := rootgc g, gray := [], grayagain := [],
           weak := [], gcstate := .sweepstring }

end UnityLua.Collector
