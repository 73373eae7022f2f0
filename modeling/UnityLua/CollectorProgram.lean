import UnityLua.CollectorCycle

/-!
# The program and the collector

What the program does with objects, and the steps of the collector between it, in any order. The
program gets at objects from the stack of the thread that runs, the main thread, the registry and
the metatables of the types; a step of its that is not possible has no successor. New objects are
at any address where there is none.
-/

namespace UnityLua.Collector

open Library

variable (g : State)

/-! ### What the program gets at -/

/-- The objects that are not found through others. -/
def roots : List GCObject :=
  .thread g.running :: .thread g.mainthread :: g.registry.refs ++
    g.mt.flatMap (fun mt => mt.toList.map .table) ++ g.resumers.map .thread

/-- What is found from the roots by reading up to four times: the stack has a function, the
function an upvalue, the upvalue a value and that a metatable. -/
def readable : List GCObject :=
  let a := (roots g).flatMap (refs g)
  let b := a.flatMap (refs g)
  let c := b.flatMap (refs g)
  roots g ++ a ++ b ++ c ++ c.flatMap (refs g)

/-- The program has the value at hand. -/
def athand (v : TValue) : Bool := v.refs.all (readable g).contains

/-- A thread that has resumed another one has it on its stack. -/
def chained : List ℕ → Bool
  | th :: resumer :: rest =>
      (g.thread resumer).stack.contains (.thread th) && chained (resumer :: rest)
  | _ => true

/-! ### New objects -/

/-- The only white that an object that is not dead has. -/
def changewhite (o : GCObject) : State := setcolor g o (.white g.currentwhite)

/-- An upvalue for the new closure: one of the function that makes it, or one for a level of the
stack, which is new at this address if there is none. -/
inductive Capture
  | inherit (u : ℕ)
  | level (level : ℕ) (new : ℕ)

/-- Whether an upvalue is open at this level. -/
def isat (level u : ℕ) : Bool :=
  match g.upval u with
  | .opened _ l => l = level
  | .closed _ => false

/-- Whether an upvalue is open above this level. -/
def isabove (level u : ℕ) : Bool :=
  match g.upval u with
  | .opened _ l => level < l
  | .closed _ => false

/-- `luaF_findupval`. -/
def luaF_findupval (level new : ℕ) : Option (State × ℕ) :=
  let open' := (g.thread g.running).openupval
  match open'.find? (isat g level) with
  | some u => some (if isdead g (.upval u) then changewhite g (.upval u) else g, u)
  | none =>
      if g.color (.upval new) = none ∧ level < (stack g).length then
        let open' := open'.takeWhile (isabove g level) ++
          new :: open'.dropWhile (isabove g level)
        let g := newmark g (.upval new)
        some ({ g with
          upval := Function.update g.upval new (.opened g.running level)
          thread := Function.update g.thread g.running
            { g.thread g.running with openupval := open' }
          uvhead := new :: g.uvhead }, new)
      else none

/-- The upvalues of `OP_CLOSURE`. -/
def capture : State → List Capture → Option (State × List ℕ)
  | g, [] => some (g, [])
  | g, .inherit u :: cs =>
      if (readable g).contains (.upval u) then
        (capture g cs).map fun r => (r.1, u :: r.2)
      else none
  | g, .level level new :: cs =>
      (luaF_findupval g level new).bind fun r =>
        (capture r.1 cs).map fun r' => (r'.1, r.2 :: r'.2)

/-- The string with this content, if there is one. -/
def findstr (str : ByteString) : Option ℕ :=
  (g.strt.getD (bucket g.strt.length str) []).find? fun i => g.content i = str

/-- `newlstr`. -/
def newlstr (str : ByteString) (new : ℕ) : State :=
  let g := newmark g (.string new)
  let g := { g with
    content := Function.update g.content new str
    strt := g.strt.modify (bucket g.strt.length str) (new :: ·) }
  if g.strt.flatten.length > g.strt.length then luaS_resize g (g.strt.length * 2) else g

/-- `luaS_newlstr`, for a new string at this address if there is none with the content. -/
def luaS_newlstr (str : ByteString) (new : ℕ) : Option (State × ℕ) :=
  match findstr g str with
  | some i => some (if isdead g (.string i) then changewhite g (.string i) else g, i)
  | none => if g.color (.string new) = none then some (newlstr g str new, new) else none

/-! ### Writes -/

/-- A write to an upvalue. -/
def setuvalue (u : ℕ) (v : TValue) : State :=
  match g.upval u with
  | .closed _ => { g with upval := Function.update g.upval u (.closed v) }
  | .opened th level => setstack g th ((g.thread th).stack.set level v)

/-- Another environment of a closure. -/
def Closure.withenv : Closure → ℕ → Closure
  | .c _ upvalue, env => .c env upvalue
  | .lua _ p upvals, env => .lua env p upvals

/-- What the program and the collector do. -/
inductive Op
  | push (v : TValue)
  | settop (n : ℕ)
  | replace (i : ℕ) (v : TValue)
  | newtable (new : ℕ)
  | newuserdata (new env : ℕ)
  | newcclosure (new env n : ℕ)
  | newlclosure (new env p : ℕ) (upvals : List Capture)
  | newthread (new : ℕ)
  | newproto (new : ℕ)
  | newstring (str : ByteString) (new : ℕ)
  | fix (i : ℕ)
  | settable (t : ℕ) (key v : TValue) (isnew : Bool) (array : List TValue) (node : List Node)
  | setmetatable (t : ℕ) (mt : Option ℕ)
  | setumetatable (u : ℕ) (mt : Option ℕ)
  | settypemetatable (type : ℕ) (mt : Option ℕ)
  | setfenv (f env : ℕ)
  | setuenv (u env : ℕ)
  | setgt (th env : ℕ)
  | setupval (u : ℕ) (v : TValue)
  | setcupvalue (f n : ℕ) (v : TValue)
  | setupvalue (f n : ℕ) (v : TValue)
  | addk (p : ℕ) (v : TValue)
  | close (level : ℕ)
  | resume (th : ℕ)
  | yield
  | xmove (th : ℕ) (v : TValue)
  | singlestep
  | fullgc
  | restart

/-- A step when it is possible. -/
def when (p : Prop) [Decidable p] (g : State) : Option State := if p then some g else none

/-- A new object that is pushed. -/
def pushnew (o : GCObject) (v : TValue) : Option State :=
  when (g.color o = none) (push (luaC_link g o) v)

/-- One step of the program or of the collector. -/
def step (g : State) : Op → Option State
  | .push v => when (athand g v) (push g v)
  | .settop n =>
      when ((g.thread g.running).openupval.all fun u => !openat g n u)
        (setstack g g.running ((stack g).take n ++ List.replicate (n - (stack g).length) .nil))
  | .replace i v => when (athand g v) (setstack g g.running ((stack g).set i v))
  | .newtable new =>
      pushnew { g with table := Function.update g.table new ⟨none, [], []⟩ } (.table new)
        (.table new)
  | .newuserdata new env =>
      -- a userdata is linked behind the main thread
      when (g.color (.userdata new) = none ∧ athand g (.table env))
        (push (linkudata (newmark { g with
          udata := Function.update g.udata new ⟨none, env, false⟩ } (.userdata new)) new)
          (.userdata new))
  | .newcclosure new env n =>
      let upvalue := (stack g).drop ((stack g).length - n)
      when (athand g (.table env) ∧ g.color (.function new) = none ∧
          (g.thread g.running).openupval.all fun u => !openat g ((stack g).length - n) u)
        (push (luaC_link { setstack g g.running ((stack g).take ((stack g).length - n)) with
          closure := Function.update g.closure new (.c env upvalue) } (.function new))
          (.function new))
  | .newlclosure new env p upvals =>
      (capture g upvals).bind fun r =>
        when (athand g (.table env) ∧ athand g (.proto p) ∧ r.1.color (.function new) = none)
          (push (luaC_link { r.1 with
            closure := Function.update r.1.closure new (.lua env p r.2) } (.function new))
            (.function new))
  | .newthread new =>
      pushnew { g with thread := Function.update g.thread new ⟨(g.thread g.running).gt, [], []⟩ }
        (.thread new) (.thread new)
  | .newproto new =>
      pushnew { g with proto := Function.update g.proto new [] } (.proto new) (.proto new)
  | .newstring str new => (luaS_newlstr g str new).map fun r => push r.1 (.string r.2)
  | .fix i =>
      when (athand g (.string i))
        { g with fixed := Function.update g.fixed (.string i) true }
  | .settable t key v isnew array node =>
      let old := g.table t
      let new := (⟨old.metatable, array, node⟩ : Table)
      when (athand g (.table t) ∧ athand g key ∧ athand g v ∧
          new.refs.all fun c => (old.refs ++ v.refs ++ if isnew then key.refs else []).contains c)
        (let g := { g with table := Function.update g.table t new }
         luaC_barriert (if isnew then luaC_barriert g t key else g) t v)
  | .setmetatable t mt =>
      when (athand g (.table t) ∧ ∀ m ∈ mt, athand g (.table m))
        (let g := { g with
          table := Function.update g.table t { g.table t with metatable := mt } }
         match mt with
         | some m => luaC_barriert g t (.table m)
         | none => g)
  | .setumetatable u mt =>
      when (athand g (.userdata u) ∧ ∀ m ∈ mt, athand g (.table m))
        (let g := { g with
          udata := Function.update g.udata u { g.udata u with metatable := mt } }
         match mt with
         | some m => luaC_objbarrier g (.userdata u) (.table m)
         | none => g)
  | .settypemetatable type mt =>
      when (∀ m ∈ mt, athand g (.table m)) { g with mt := g.mt.set type mt }
  | .setfenv f env =>
      when (athand g (.function f) ∧ athand g (.table env))
        (luaC_objbarrier { g with
          closure := Function.update g.closure f ((g.closure f).withenv env) }
          (.function f) (.table env))
  | .setuenv u env =>
      when (athand g (.userdata u) ∧ athand g (.table env))
        (luaC_objbarrier { g with
          udata := Function.update g.udata u { g.udata u with env := env } }
          (.userdata u) (.table env))
  | .setgt th env =>
      when (athand g (.thread th) ∧ athand g (.table env))
        (luaC_objbarrier { g with
          thread := Function.update g.thread th { g.thread th with gt := .table env } }
          (.thread th) (.table env))
  | .setupval u v =>
      let g' := setuvalue g u v
      when ((readable g).contains (.upval u) ∧ athand g v ∧ chained g' (g.running :: g.resumers))
        (luaC_barrier g' (.upval u) v)
  | .setcupvalue f n v =>
      match g.closure f with
      | .c env upvalue =>
          when (athand g (.function f) ∧ athand g v)
            (luaC_barrier { g with
              closure := Function.update g.closure f (.c env (upvalue.set n v)) }
              (.function f) v)
      | .lua _ _ _ => none
  | .setupvalue f n v =>
      match g.closure f with
      | .c _ _ => none
      | .lua _ _ upvals => (upvals[n]?).bind fun u =>
          let g' := setuvalue g u v
          when (athand g (.function f) ∧ athand g v ∧ chained g' (g.running :: g.resumers))
            (luaC_barrier g' (.function f) v)
  | .addk p v =>
      when (athand g (.proto p) ∧ athand g v)
        (luaC_barrier { g with proto := Function.update g.proto p (g.proto p ++ [v]) }
          (.proto p) v)
  | .close level => some (luaF_close g g.running level)
  | .resume th =>
      when (.thread th ∈ stack g ∧ th ∉ g.running :: g.resumers)
        { g with running := th, resumers := g.running :: g.resumers }
  | .yield =>
      match g.resumers with
      | th :: resumers => some { g with running := th, resumers := resumers }
      | [] => none
  | .xmove th v =>
      when (athand g (.thread th) ∧ athand g v)
        (setstack g th ((g.thread th).stack ++ [v]))
  | .singlestep => some (singlestep g)
  | .fullgc => when (g.gcstate = .pause ∨ g.gcstate = .propagate) (resetmarks g)
  | .restart => when (g.gcstate = .finalize) (markroot g)

@[simp] theorem step_close (g : State) (level : ℕ) :
    step g (.close level) = some (luaF_close g g.running level) := by rw [step]

@[simp] theorem step_singlestep (g : State) : step g .singlestep = some (singlestep g) := by rw [step]

end UnityLua.Collector
