import UnityLua.HashTableKeys

/-!
# The garbage collector of Lua

`lgc.c`, and what `lfunc.c`, `lstring.c` and `lstate.c` do with the marks of objects. Objects are
white, gray or black; there are two whites, and the one that is not current is that of dead
objects while a collection sweeps. Marking makes objects that are reached gray and those whose
references are marked too black; between its steps the program goes on.

An object is its type and its address, and the fields of the objects of one type are a function
of the address. What the marks of an object do not depend on is left out: the values of numbers
and the layout of tables, which `HashTables` has, and the keys that are marked dead.
-/

namespace UnityLua.Collector

open Library

/-! ### Objects -/

/-- A collectable object. -/
inductive GCObject
  | string (i : ℕ)
  | userdata (i : ℕ)
  | upval (i : ℕ)
  | function (i : ℕ)
  | table (i : ℕ)
  | thread (i : ℕ)
  | proto (i : ℕ)
  deriving DecidableEq, Repr

/-- A value; `plain` stands for the values that are not collectable, other than `nil`. -/
inductive TValue
  | nil
  | plain
  | string (i : ℕ)
  | userdata (i : ℕ)
  | function (i : ℕ)
  | table (i : ℕ)
  | thread (i : ℕ)
  | proto (i : ℕ)
  deriving DecidableEq, Repr

def TValue.gcvalue : TValue → Option GCObject
  | .nil | .plain => none
  | .string i => some (.string i)
  | .userdata i => some (.userdata i)
  | .function i => some (.function i)
  | .table i => some (.table i)
  | .thread i => some (.thread i)
  | .proto i => some (.proto i)

/-- The bits `WHITE0BIT`, `WHITE1BIT` and `BLACKBIT` of a mark; no two of them are set. -/
inductive Colour
  | white (w : Bool)
  | gray
  | black
  deriving DecidableEq, Repr

structure Udata where
  metatable : Option ℕ
  env : ℕ
  finalized : Bool

/-- An upvalue points into the stack of a thread, or has its value. -/
inductive UpVal
  | opened (thread level : ℕ)
  | closed (v : TValue)

inductive Closure
  | c (env : ℕ) (upvalue : List TValue)
  | lua (env : ℕ) (p : ℕ) (upvals : List ℕ)

structure Node where
  key : TValue
  val : TValue

structure Table where
  metatable : Option ℕ
  array : List TValue
  node : List Node

/-- A thread: its table of globals, its stack up to the top and its open upvalues, the one of the
highest level first. -/
structure Thread where
  gt : TValue
  stack : List TValue
  openupval : List ℕ

inductive GCState
  | pause
  | propagate
  | sweepstring
  | sweep
  | finalize
  deriving DecidableEq, Repr

/-- `global_State` with the objects. An object without a colour is not allocated. -/
structure State where
  color : GCObject → Option Colour
  fixed : GCObject → Bool
  content : ℕ → ByteString
  udata : ℕ → Udata
  upval : ℕ → UpVal
  closure : ℕ → Closure
  table : ℕ → Table
  /-- `KEYWEAKBIT` and `VALUEWEAKBIT`. -/
  weakbits : ℕ → Bool × Bool
  thread : ℕ → Thread
  /-- The source, the literals, the names and the nested prototypes of a prototype. -/
  proto : ℕ → List TValue
  strt : List (List ℕ)
  currentwhite : Bool
  gcstate : GCState
  sweepstrgc : ℕ
  /-- `rootgc` up to where `sweepgc` points, and from there on. -/
  swept : List GCObject
  unswept : List GCObject
  gray : List GCObject
  grayagain : List GCObject
  weak : List ℕ
  tmudata : List ℕ
  uvhead : List ℕ
  mainthread : ℕ
  registry : TValue
  mt : List (Option ℕ)
  /-- `tmname[TM_GC]` and `tmname[TM_MODE]`. -/
  tmgc : ℕ
  tmmode : ℕ
  /-- The thread that runs, and those that have resumed it, the last one first. -/
  running : ℕ
  resumers : List ℕ

variable (g : State)

/-! ### References -/

/-- The value of an upvalue. -/
def uvalue (u : ℕ) : TValue :=
  match g.upval u with
  | .closed v => v
  | .opened th level => ((g.thread th).stack[level]?).getD .nil

def TValue.refs (v : TValue) : List GCObject := v.gcvalue.toList

/-- What a node refers to; the key of one without a value does not count. -/
def Node.refs (n : Node) : List GCObject :=
  if n.val = .nil then [] else n.key.refs ++ n.val.refs

def Table.refs (t : Table) : List GCObject :=
  t.metatable.toList.map .table ++ t.array.flatMap TValue.refs ++ t.node.flatMap Node.refs

def Closure.refs : Closure → List GCObject
  | .c env upvalue => .table env :: upvalue.flatMap TValue.refs
  | .lua env p upvals => .table env :: .proto p :: upvals.map .upval

/-- What an object refers to. -/
def refs : GCObject → List GCObject
  | .string _ => []
  | .userdata i => (g.udata i).metatable.toList.map .table ++ [.table (g.udata i).env]
  | .upval i => (uvalue g i).refs
  | .function i => (g.closure i).refs
  | .table i => (g.table i).refs
  | .thread i => (g.thread i).gt.refs ++ (g.thread i).stack.flatMap TValue.refs
  | .proto i => (g.proto i).flatMap TValue.refs

/-- `rootgc`. -/
def rootgc : List GCObject := g.swept ++ g.unswept

/-- The open upvalues of a thread. -/
def openupvals : GCObject → List GCObject
  | .thread i => (g.thread i).openupval.map .upval
  | _ => []

/-- All objects. -/
def objects : List GCObject :=
  g.strt.flatten.map .string ++ (rootgc g ++ (g.tmudata.map .userdata ++
    (rootgc g).flatMap (openupvals g)))

/-! ### Marks -/

def iswhite (o : GCObject) : Bool :=
  match g.color o with
  | some (.white _) => true
  | _ => false

def isblack (o : GCObject) : Bool := g.color o = some .black

def isgray (o : GCObject) : Bool := g.color o = some .gray

def isdead (o : GCObject) : Bool := g.color o = some (.white (!g.currentwhite))

def isopen (u : ℕ) : Bool :=
  match g.upval u with
  | .opened _ _ => true
  | .closed _ => false

/-- A new colour of an object. -/
def setcolor (o : GCObject) (c : Colour) : State :=
  { g with color := Function.update g.color o ((g.color o).map fun _ => c) }

def makewhite (o : GCObject) : State := setcolor g o (.white g.currentwhite)

/-- The object is gray and one of those whose references are to be marked. -/
def linkgray (o : GCObject) : State :=
  { setcolor g o .gray with gray := o :: g.gray }

/-- `markobject` of a table. -/
def marktable (t : ℕ) : State := if iswhite g (.table t) then linkgray g (.table t) else g

/-- `markobject` of a metatable, if there is one. -/
def markmeta (mt : Option ℕ) : State :=
  match mt with
  | some t => marktable g t
  | none => g

/-- `reallymarkobject` of a value. -/
def reallymarkvalue : GCObject → State
  | .string i => setcolor g (.string i) .gray
  | .userdata i =>
      -- userdata are never gray
      let g := setcolor g (.userdata i) .black
      marktable (markmeta g (g.udata i).metatable) (g.udata i).env
  | o => linkgray g o

/-- `markvalue`. -/
def markvalue (v : TValue) : State :=
  match v.gcvalue with
  | some o => if iswhite g o then reallymarkvalue g o else g
  | none => g

/-- `reallymarkobject`. The recursion ends with a table, as the value of an upvalue is no
upvalue, and a metatable and an environment are tables. -/
def reallymarkobject : GCObject → State
  | .upval i =>
      let g := setcolor g (.upval i) .gray
      let g := markvalue g (uvalue g i)
      if isopen g i then g else setcolor g (.upval i) .black
  | o => reallymarkvalue g o

/-- `markobject`. -/
def markobject (o : GCObject) : State := if iswhite g o then reallymarkobject g o else g

/-! ### Traversing a gray object -/

/-- `luaH_getstr`. -/
def luaH_getstr (t : Table) (key : ℕ) : TValue :=
  ((t.node.find? fun n => n.key = .string key).map Node.val).getD .nil

/-- `gfasttm`. -/
def gfasttm (mt : Option ℕ) (name : ℕ) : TValue :=
  match mt with
  | some t => luaH_getstr (g.table t) name
  | none => .nil

/-- Whether the keys and whether the values of a table are weak. -/
def weakmode (i : ℕ) : Bool × Bool :=
  match gfasttm g (g.table i).metatable g.tmmode with
  | .string mode => ((g.content mode).contains 107, (g.content mode).contains 118)
  | _ => (false, false)

/-- The values that `traversetable` marks, but for the metatable. -/
def strongvalues (t : Table) (weak : Bool × Bool) : List TValue :=
  if weak.1 && weak.2 then []
  else
    (if weak.2 then [] else t.array.reverse) ++ t.node.reverse.flatMap fun n =>
      if n.val = .nil then []
      else (if weak.1 then [] else [n.key]) ++ if weak.2 then [] else [n.val]

/-- `traversetable`, and whether the table is weak. -/
def traversetable (i : ℕ) : State × Bool :=
  let g := markmeta g (g.table i).metatable
  let weak := weakmode g i
  let isweak := weak.1 || weak.2
  let g := if isweak then
      { g with weakbits := Function.update g.weakbits i weak, weak := i :: g.weak }
    else g
  ((strongvalues (g.table i) weak).foldl markvalue g, isweak)

def traverseproto (i : ℕ) : State := (g.proto i).foldl markvalue g

def traverseclosure (i : ℕ) : State :=
  match g.closure i with
  | .c env upvalue => upvalue.foldl markvalue (marktable g env)
  | .lua env p upvals =>
      (upvals.map GCObject.upval).foldl markobject (markobject (marktable g env) (.proto p))

def traversestack (i : ℕ) : State :=
  (g.thread i).stack.foldl markvalue (markvalue g (g.thread i).gt)

/-- `propagatemark`. -/
def propagatemark : State :=
  match g.gray with
  | [] => g
  | o :: gray =>
      let g := setcolor { g with gray := gray } o .black
      match o with
      | .table i =>
          let r := traversetable g i
          if r.2 then setcolor r.1 o .gray else r.1
      | .function i => traverseclosure g i
      | .thread i => traversestack (setcolor { g with grayagain := o :: g.grayagain } o .gray) i
      | .proto i => traverseproto g i
      | _ => g

/-- The loop of `propagateall`, at most so many times. -/
def propagate : ℕ → State → State
  | 0, g => g
  | rounds + 1, g => if g.gray = [] then g else propagate rounds (propagatemark g)

/-- `propagateall`. A white object becomes gray once, and a gray one that is taken from the list
does not come back. -/
def propagateall : State := propagate (g.gray.length + (objects g).countP (iswhite g)) g

end UnityLua.Collector
