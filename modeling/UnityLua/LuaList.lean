import Mathlib.Data.Int.Notation
import UnityLua.Library.DoublyLinked

/-!
# The list module

`list.lua`: a doubly linked list of Lua tables with `head`, `tail` and `count` fields, and
the functions that `new` puts into it. Nodes are cells of a heap; a popped or removed node
stays in the heap, as it may still be referred to from elsewhere. An element is any Lua
value, `none` standing for `nil`.

A function passed to `traverse` or `remove_if` is given by the way its answers depend on
the element and on the rest of the world, `σ`, which it may change; it may also raise an
error. Its answer is a truth value: `false` and `nil` count as false, all else as true.
Loops take fuel, and running out of it is a fault like indexing `nil`.
-/

open Library

namespace UnityLua

variable {V σ ε : Type}

/-- The table that `new` returns; its function fields are the definitions below. -/
structure LuaList (V : Type) where
  nodes : Cells (Option V)
  fresh : ℕ
  head : Option ℕ
  tail : Option ℕ
  count : ℤ

/-- What a call cannot recover from: an attempt to index `nil`, or a loop that does not
end within its fuel. -/
inductive Fault
  | nilIndex
  | outOfFuel
  deriving DecidableEq, Repr

/-- A Lua function of one argument, seen through its answers. -/
abbrev LuaPredicate (V σ ε : Type) := σ → Option V → Except ε Bool × σ

/-- What a call returns: nothing, a value (`none` is `nil`), a number, or the error that
the function passed to it has raised. -/
inductive Returned (V ε : Type)
  | nothing
  | value (v : Option V)
  | number (n : ℤ)
  | error (e : ε)
  deriving DecidableEq, Repr

namespace LuaList

/-- `new`. -/
def new : LuaList V := ⟨fun _ => none, 0, none, none, 0⟩

/-! ### Tables -/

/-- A table constructor: a new node. -/
def newNode (self : LuaList V) (node : Cell (Option V)) : ℕ × LuaList V :=
  (self.fresh,
    { self with
      nodes := Function.update self.nodes self.fresh (some node)
      fresh := self.fresh + 1 })

/-- The node that a field or a local variable refers to. -/
def index (self : LuaList V) : Option ℕ → Except Fault (ℕ × Cell (Option V))
  | none => .error .nilIndex
  | some a =>
      match self.nodes a with
      | none => .error .nilIndex
      | some node => .ok (a, node)

/-- The assignment `node.left = l`. -/
def setLeft (self : LuaList V) (node l : Option ℕ) : Except Fault (LuaList V) := do
  let (a, cell) ← self.index node
  .ok { self with nodes := Function.update self.nodes a (some { cell with left := l }) }

/-- The assignment `node.right = r`. -/
def setRight (self : LuaList V) (node r : Option ℕ) : Except Fault (LuaList V) := do
  let (a, cell) ← self.index node
  .ok { self with nodes := Function.update self.nodes a (some { cell with right := r }) }

/-! ### The functions of the module -/

def push_back (self : LuaList V) (var : Option V) : Except Fault (LuaList V) :=
  let self := { self with count := self.count + 1 }
  match self.head with
  | none =>
      let (node, self) := self.newNode ⟨var, none, none⟩
      .ok { self with head := some node, tail := some node }
  | some _ => do
      let (node, self) := self.newNode ⟨var, self.tail, none⟩
      let self ← self.setRight self.tail (some node)
      .ok { self with tail := some node }

def push_front (self : LuaList V) (var : Option V) : Except Fault (LuaList V) :=
  let self := { self with count := self.count + 1 }
  match self.head with
  | none =>
      let (node, self) := self.newNode ⟨var, none, none⟩
      .ok { self with head := some node, tail := some node }
  | some _ => do
      let (node, self) := self.newNode ⟨var, none, self.head⟩
      let self ← self.setLeft self.head (some node)
      .ok { self with head := some node }

def pop_front (self : LuaList V) : Except Fault (Option V × LuaList V) :=
  match self.head with
  | none => .ok (none, self)
  | some _ => do
      let (_, node) ← self.index self.head
      let self := { self with head := node.right }
      let self ← match self.head with
        | some _ => self.setLeft self.head none
        | none => .ok { self with tail := none }
      .ok (node.value, { self with count := self.count - 1 })

def pop_back (self : LuaList V) : Except Fault (Option V × LuaList V) :=
  match self.tail with
  | none => .ok (none, self)
  | some _ => do
      let (_, node) ← self.index self.tail
      let self := { self with tail := node.left }
      let self ← match self.tail with
        | some _ => self.setRight self.tail none
        | none => .ok { self with head := none }
      .ok (node.value, { self with count := self.count - 1 })

def front (self : LuaList V) : Except Fault (Option V) :=
  match self.head with
  | none => .ok none
  | some _ => do
      let (_, node) ← self.index self.head
      .ok node.value

def back (self : LuaList V) : Except Fault (Option V) :=
  match self.tail with
  | none => .ok none
  | some _ => do
      let (_, node) ← self.index self.tail
      .ok node.value

def size (self : LuaList V) : ℤ := self.count

/-- The loop of `traverse`, at `node`. -/
def traverseLoop (func : LuaPredicate V σ ε) (self : LuaList V) :
    ℕ → Option ℕ → σ → Except Fault (Returned V ε × σ)
  | 0, _, _ => .error .outOfFuel
  | _ + 1, none, s => .ok (.nothing, s)
  | fuel + 1, some a, s => do
      let (_, node) ← self.index (some a)
      match func s node.value with
      | (.error e, s) => .ok (.error e, s)
      | (.ok false, s) => .ok (.nothing, s)
      | (.ok true, s) => traverseLoop func self fuel node.right s

def traverse (fuel : ℕ) (func : LuaPredicate V σ ε) (self : LuaList V) (s : σ) :
    Except Fault (Returned V ε × σ) :=
  traverseLoop func self fuel self.head s

/-- In `remove_if`: what is to the left of a node that goes. -/
def unlinkLeft (self : LuaList V) (cell : Cell (Option V)) : Except Fault (LuaList V) :=
  match cell.left with
  | some l => self.setRight (some l) cell.right
  | none => .ok { self with head := cell.right }

/-- In `remove_if`: what is to the right of it. -/
def unlinkRight (self : LuaList V) (cell : Cell (Option V)) : Except Fault (LuaList V) :=
  match cell.right with
  | some r => self.setLeft (some r) cell.left
  | none => .ok { self with tail := cell.left }

/-- The body of `remove_if` for a node that goes; its links are read again in between. -/
def unlink (self : LuaList V) (node : Option ℕ) : Except Fault (LuaList V) := do
  let (_, cell) ← self.index node
  let self ← self.unlinkLeft cell
  let (_, cell) ← self.index node
  let self ← self.unlinkRight cell
  .ok { self with count := self.count - 1 }

/-- The loop of `remove_if`, at `node`. An error of the function leaves the list as it is
at that moment. -/
def removeIfLoop (func : LuaPredicate V σ ε) :
    ℕ → LuaList V → Option ℕ → σ → Except Fault (Returned V ε × LuaList V × σ)
  | 0, _, _, _ => .error .outOfFuel
  | _ + 1, self, none, s => .ok (.nothing, self, s)
  | fuel + 1, self, some a, s => do
      let (_, node) ← self.index (some a)
      match func s node.value with
      | (.error e, s) => .ok (.error e, self, s)
      | (.ok bRet, s) => do
          let self ← if bRet then self.unlink (some a) else .ok self
          let (_, node) ← self.index (some a)
          removeIfLoop func fuel self node.right s

def remove_if (fuel : ℕ) (func : LuaPredicate V σ ε) (self : LuaList V) (s : σ) :
    Except Fault (Returned V ε × LuaList V × σ) :=
  removeIfLoop func fuel self self.head s

/-! ### Calls -/

/-- A method call on the list. -/
inductive Call (V σ ε : Type)
  | push_back (var : Option V)
  | push_front (var : Option V)
  | pop_back
  | pop_front
  | front
  | back
  | size
  | traverse (func : LuaPredicate V σ ε)
  | remove_if (func : LuaPredicate V σ ε)

/-- One call: what it returns, the list and the world after it. -/
def call (fuel : ℕ) (self : LuaList V) (s : σ) :
    Call V σ ε → Except Fault (Returned V ε × LuaList V × σ)
  | .push_back var => do
      let self ← self.push_back var
      .ok (.nothing, self, s)
  | .push_front var => do
      let self ← self.push_front var
      .ok (.nothing, self, s)
  | .pop_back => do
      let (v, self) ← self.pop_back
      .ok (.value v, self, s)
  | .pop_front => do
      let (v, self) ← self.pop_front
      .ok (.value v, self, s)
  | .front => do
      let v ← self.front
      .ok (.value v, self, s)
  | .back => do
      let v ← self.back
      .ok (.value v, self, s)
  | .size => .ok (.number self.size, self, s)
  | .traverse func => do
      let (r, s) ← self.traverse fuel func s
      .ok (r, self, s)
  | .remove_if func => self.remove_if fuel func s

/-- A sequence of calls, with everything they return. -/
def calls (fuel : ℕ) : LuaList V → σ → List (Call V σ ε) →
    Except Fault (List (Returned V ε) × LuaList V × σ)
  | self, s, [] => .ok ([], self, s)
  | self, s, c :: cs => do
      let (r, self, s) ← self.call fuel s c
      let (rs, self, s) ← calls fuel self s cs
      .ok (r :: rs, self, s)

end LuaList

end UnityLua
