import Mathlib.Algebra.Order.Ring.Int
import UnityLua.Library.Links

/-!
# Tables of Lua

`ltable.c`. A table has an array part, for the keys from 1 to its size, and a hash part: nodes
with a key, a value and a link to the next node of their chain. A key is looked for from its
main position along the chain. A key that is not there goes to its main position; if that is
taken, the node there is moved to a free place when it is not in its own main position, and
otherwise the new key goes to a free place behind it. Free places are looked for from the end;
when none is left the table is made again in sizes that fit.

A value that may be `nil` is an `Option`. The nodes are numbered, and past the last one there
are empty nodes. A key is compared as `luaO_rawequalObj` does; for a key that is no number
`luaH_get` is one search, where the source has one more for strings that does the same.
-/

namespace UnityLua

open Library

/-- Keys of tables other than `nil`: what `ltable.c` asks about a key. -/
class TableKey (K : Type) extends BEq K where
  /-- The node that the hash of the key leads to, among `2 ^ lsizenode` nodes. -/
  mainposition (lsizenode : ℕ) (key : K) : ℕ
  /-- The `int` that is equal to the key. -/
  toInt (key : K) : Option ℤ
  /-- An `int` as a key. -/
  ofInt (n : ℤ) : K
  iscollectable (key : K) : Bool

/-- `lua_number2int` and `cast_num` go between the keys and the values of an `int`, keys are
equal or not as values of Lua are (a NaN is not equal to itself), and equal keys have the same
main position. -/
class LawfulTableKey (K : Type) [TableKey K] : Prop extends PartialEquivBEq K where
  mainposition_lt (n : ℕ) (k : K) : TableKey.mainposition n k < 2 ^ n
  mainposition_congr (n : ℕ) {k k' : K} (h : (k == k') = true) :
    TableKey.mainposition n k = TableKey.mainposition n k'
  toInt_eq_some {k : K} {i : ℤ} :
    TableKey.toInt k = some i ↔ -2 ^ 31 ≤ i ∧ i < 2 ^ 31 ∧ (TableKey.ofInt i == k) = true
  ofInt_refl (i : ℤ) (h : -2 ^ 31 ≤ i) (h' : i < 2 ^ 31) :
    ((TableKey.ofInt i : K) == TableKey.ofInt i) = true

variable {K V : Type}

/-- The key of a node: none yet, one that was collected, or one that is there. -/
inductive NodeKey (K : Type)
  | nil
  | dead (k : K)
  | live (k : K)
  deriving DecidableEq, Repr

structure Node (K V : Type) where
  key : NodeKey K
  val : Option V
  next : Option ℕ
  deriving DecidableEq, Repr

/-- What `setnodevector` fills new nodes with; `dummynode` is one too. -/
def emptyNode : Node K V := ⟨.nil, none, none⟩

/-- The entry of a node whose value is not `nil`. -/
def Node.entry (n : Node K V) : Option (K × V) :=
  match n.key, n.val with
  | .live k, some v => some (k, v)
  | _, _ => none

structure Table (K V : Type) where
  array : List (Option V)
  lsizenode : ℕ
  node : ℕ → Node K V
  /-- The hash part is the one node that all tables without a hash part share. -/
  dummy : Bool
  /-- Every free place is before this one. -/
  lastfree : ℕ

/-- Where a value is kept. -/
inductive NodeSlot
  | array (i : ℕ)
  | node (i : ℕ)
  deriving DecidableEq, Repr

namespace Table

def sizearray (t : Table K V) : ℕ := t.array.length

def sizenode (t : Table K V) : ℕ := 2 ^ t.lsizenode

def next (t : Table K V) (i : ℕ) : Option ℕ := (t.node i).next

/-- What is kept in a slot. -/
def get (t : Table K V) : NodeSlot → Option V
  | .array i => (t.array[i]?).join
  | .node i => (t.node i).val

/-- A write to a slot. -/
def put (t : Table K V) : NodeSlot → Option V → Table K V
  | .array i, v => { t with array := t.array.set i v }
  | .node i, v => { t with node := Function.update t.node i { t.node i with val := v } }

@[simp] theorem put_array (t : Table K V) (i : ℕ) (v : Option V) :
    t.put (.array i) v = { t with array := t.array.set i v } := by rw [put]

@[simp] theorem put_node (t : Table K V) (i : ℕ) (v : Option V) : t.put (.node i) v =
    { t with node := Function.update t.node i { t.node i with val := v } } := by rw [put]

end Table

def MAXBITS : ℕ := 26

def MAXASIZE : ℕ := 2 ^ MAXBITS

/-- `luaO_log2` of `x`, and `ceillog2` of it. -/
def ceillog2 (x : ℕ) : ℕ := if x = 1 then 0 else (x - 1).log2 + 1

section Get

variable [TableKey K]

def mainposition (t : Table K V) (key : K) : ℕ := TableKey.mainposition t.lsizenode key

/-- Whether a node has this key. -/
def NodeKey.holds : NodeKey K → K → Bool
  | .live k, key => k == key
  | _, _ => false

/-- The loops over a chain from the main position of a key. -/
def searchKey (t : Table K V) (key : K) : Option NodeSlot :=
  (search t.next (fun i => (t.node i).key.holds key) t.sizenode (mainposition t key)).map .node

def luaH_getnum (t : Table K V) (key : ℤ) : Option NodeSlot :=
  if 1 ≤ key ∧ key ≤ t.sizearray then some (.array (key - 1).toNat)
  else searchKey t (TableKey.ofInt key)

/-- The slot of a key, or `luaO_nilobject`. -/
def luaH_get (t : Table K V) (key : K) : Option NodeSlot :=
  match TableKey.toInt key with
  | some k => luaH_getnum t k
  | none => searchKey t key

/-- The value of a key. -/
def rawget (t : Table K V) (key : K) : Option V := (luaH_get t key).bind t.get

end Get

/-! ### New keys -/

section Set

variable [TableKey K]

def getfreepos (node : ℕ → Node K V) : ℕ → Option ℕ × ℕ
  | 0 => (none, 0)
  | lastfree + 1 =>
      match (node lastfree).key with
      | .nil => (some lastfree, lastfree)
      | _ => getfreepos node lastfree

/-- The main position of the key of the node `mp`. -/
def otherposition (t : Table K V) (mp : ℕ) : ℕ :=
  match (t.node mp).key with
  | .live k => mainposition t k
  | .dead k => mainposition t k
  | .nil => mp

/-- `newkey` when the main position `mp` of the key is taken and `n` is free. -/
def collide (t : Table K V) (key : K) (mp n : ℕ) : Table K V × NodeSlot :=
  let othern := otherposition t mp
  if othern ≠ mp then
    -- the node at `mp` moves to `n`, and the one before it links to `n`
    let prev := (search t.next (fun i => t.next i == some mp) t.sizenode othern).getD othern
    let node := Function.update t.node prev { t.node prev with next := some n }
    let node := Function.update node n (node mp)
    ({ t with node := Function.update node mp ⟨.live key, none, none⟩ }, .node mp)
  else
    let node := Function.update t.node n ⟨.live key, (t.node n).val, (t.node mp).next⟩
    ({ t with node := Function.update node mp { node mp with next := some n } }, .node n)

/-- `newkey`, with what is done when no place is free. -/
def newkeyWith (rehash : Table K V → K → Except String (Table K V × NodeSlot)) (t : Table K V)
    (key : K) : Except String (Table K V × NodeSlot) :=
  let mp := mainposition t key
  if (t.node mp).val.isSome || t.dummy then
    match getfreepos t.node t.lastfree with
    | (none, lastfree) => rehash { t with lastfree := lastfree } key
    | (some n, lastfree) => .ok (collide { t with lastfree := lastfree } key mp n)
  else
    .ok ({ t with node := Function.update t.node mp { t.node mp with key := .live key } },
      .node mp)

/-- `luaH_set`, for a key that is not `nil`. -/
def luaH_setWith (newkey : Table K V → K → Except String (Table K V × NodeSlot)) (t : Table K V)
    (key : K) : Except String (Table K V × NodeSlot) :=
  match luaH_get t key with
  | some slot => .ok (t, slot)
  | none => if key == key then newkey t key else .error "table index is NaN"

def luaH_setnumWith (newkey : Table K V → K → Except String (Table K V × NodeSlot)) (t : Table K V)
    (key : ℤ) : Except String (Table K V × NodeSlot) :=
  match luaH_getnum t key with
  | some slot => .ok (t, slot)
  | none => newkey t (TableKey.ofInt key)

/-! ### Rehash -/

def setarrayvector (t : Table K V) (size : ℕ) : Table K V :=
  { t with array := t.array.take size ++ List.replicate (size - t.sizearray) none }

def setnodevector (t : Table K V) (size : ℕ) : Except String (Table K V) :=
  if size = 0 then
    .ok { t with node := fun _ => emptyNode, dummy := true, lsizenode := 0, lastfree := 0 }
  else
    let lsize := ceillog2 size
    if lsize > MAXBITS then .error "table overflow"
    else .ok { t with
      node := fun _ => emptyNode, dummy := false, lsizenode := lsize, lastfree := 2 ^ lsize }

/-- The entries of a slice of the array part that begins after the index `i`. -/
def sliceEntries : ℕ → List (Option V) → List (ℤ × V)
  | _, [] => []
  | i, none :: vs => sliceEntries (i + 1) vs
  | i, some v :: vs => (i + 1, v) :: sliceEntries (i + 1) vs

@[simp] theorem sliceEntries_nil (i : ℕ) : sliceEntries i ([] : List (Option V)) = [] := by
  rw [sliceEntries]

@[simp] theorem sliceEntries_none (i : ℕ) (vs : List (Option V)) :
    sliceEntries i (none :: vs) = sliceEntries (i + 1) vs := by rw [sliceEntries]

@[simp] theorem sliceEntries_some (i : ℕ) (v : V) (vs : List (Option V)) :
    sliceEntries i (some v :: vs) = ((i : ℤ) + 1, v) :: sliceEntries (i + 1) vs := by
  rw [sliceEntries]

/-- The entries of the hash part. -/
def nodeEntries (t : Table K V) : List (K × V) :=
  (List.range t.sizenode).filterMap fun i => (t.node i).entry

/-- Entries are set one after the other. -/
def reinsert {α : Type} (set : Table K V → α → Except String (Table K V × NodeSlot)) :
    List (α × V) → Table K V → Except String (Table K V)
  | [], t => .ok t
  | (key, v) :: rest, t => do
      let (t, slot) ← set t key
      reinsert set rest (t.put slot (some v))

/-- `resize`, with what the insertions do that find their key in no node. -/
def resizeWith (newkey : Table K V → K → Except String (Table K V × NodeSlot)) (t : Table K V)
    (nasize nhsize : ℕ) : Except String (Table K V) := do
  let old := t
  let t := if nasize > old.sizearray then setarrayvector t nasize else t
  let t ← setnodevector t nhsize
  let t ← reinsert (luaH_setnumWith newkey) (sliceEntries nasize (old.array.drop nasize))
    { t with array := t.array.take nasize }
  reinsert (luaH_setWith newkey) (nodeEntries old).reverse t

/-- The key as a number for the array part, or -1. -/
def arrayindex (key : K) : ℤ := (TableKey.toInt key).getD (-1)

/-- `countint`: whether it counts, and the counts. -/
def countint (key : K) (nums : ℕ → ℕ) : ℕ × (ℕ → ℕ) :=
  let k := arrayindex key
  if 0 < k ∧ k ≤ MAXASIZE then
    (1, Function.update nums (ceillog2 k.toNat) (nums (ceillog2 k.toNat) + 1))
  else (0, nums)

/-- The loop of `numusearray` over the slices up to `2 ^ MAXBITS`: how many slices are left,
the number of the next one, its upper limit and its first index, and the sum and the counts
so far. -/
def numusearrayFrom (array : List (Option V)) :
    ℕ → ℕ → ℕ → ℕ → ℕ → (ℕ → ℕ) → ℕ × (ℕ → ℕ)
  | 0, _, _, _, ause, nums => (ause, nums)
  | slices + 1, lg, ttlg, i, ause, nums =>
      if array.length < ttlg ∧ array.length < i then (ause, nums)
      else
        let lim := min ttlg array.length
        let lc := ((array.take lim).drop (i - 1)).countP Option.isSome
        numusearrayFrom array slices (lg + 1) (ttlg * 2) (lim + 1) (ause + lc)
          (Function.update nums lg (nums lg + lc))

def numusearray (t : Table K V) (nums : ℕ → ℕ) : ℕ × (ℕ → ℕ) :=
  numusearrayFrom t.array (MAXBITS + 1) 0 1 1 0 nums

/-- `numusehash`: the number of entries, how many of their keys count for the array part, and
the counts. -/
def numusehash (t : Table K V) (nums : ℕ → ℕ) : ℕ × ℕ × (ℕ → ℕ) :=
  (nodeEntries t).foldr (fun e r =>
    let c := countint e.1 r.2.2
    (r.1 + 1, r.2.1 + c.1, c.2)) (0, 0, nums)

/-- The loop of `computesizes`: how many counts are left, the number of the next one and the
power of two, the elements smaller than it, how many go to the array part and its size. -/
def computesizesFrom (nums : ℕ → ℕ) (narray : ℕ) : ℕ → ℕ → ℕ → ℕ → ℕ → ℕ → ℕ × ℕ
  | 0, _, _, _, na, n => (n, na)
  | counts + 1, i, twotoi, a, na, n =>
      if twotoi / 2 < narray then
        let a' := a + nums i
        let more := 0 < nums i ∧ twotoi / 2 < a'
        let n := if more then twotoi else n
        let na := if more then a' else na
        if a' = narray then (n, na)
        else computesizesFrom nums narray counts (i + 1) (twotoi * 2) a' na n
      else (n, na)

/-- The size of the array part, and how many elements go there. -/
def computesizes (nums : ℕ → ℕ) (narray : ℕ) : ℕ × ℕ :=
  computesizesFrom nums narray (MAXBITS + 1) 0 1 0 0 0

/-- The sizes that `rehash` computes: of the array part and of the hash part. -/
def rehashSizes (t : Table K V) (ek : K) : ℕ × ℕ :=
  let a := numusearray t fun _ => 0
  let h := numusehash t a.2
  let e := countint ek h.2.2
  let totaluse := a.1 + h.1 + 1
  let r := computesizes e.2 (a.1 + h.2.1 + e.1)
  (r.1, totaluse - r.2)

def rehashWith (newkey : Table K V → K → Except String (Table K V × NodeSlot)) (t : Table K V)
    (ek : K) : Except String (Table K V) :=
  resizeWith newkey t (rehashSizes t ek).1 (rehashSizes t ek).2

/-- `newkey`. The first argument bounds how deep the calls are nested. -/
def newkey : ℕ → Table K V → K → Except String (Table K V × NodeSlot)
  | 0, _, _ => .error "C stack overflow"
  | calls + 1, t, key =>
      newkeyWith (fun t key => do
        let t ← rehashWith (newkey calls) t key
        luaH_setWith (newkey calls) t key) t key

def luaH_set (calls : ℕ) (t : Table K V) : Option K → Except String (Table K V × NodeSlot)
  | none => .error "table index is nil"
  | some key => luaH_setWith (newkey calls) t key

/-- `luaH_resizearray`. -/
def luaH_resizearray (calls : ℕ) (t : Table K V) (nasize : ℕ) : Except String (Table K V) :=
  resizeWith (newkey calls) t nasize (if t.dummy then 0 else t.sizenode)

def luaH_new (narray nhash : ℕ) : Except String (Table K V) :=
  setnodevector (setarrayvector ⟨[], 0, fun _ => emptyNode, true, 0⟩ narray) nhash

/-- An assignment to a key. -/
def rawset (calls : ℕ) (t : Table K V) (key : Option K) (v : Option V) :
    Except String (Table K V) := do
  let (t, slot) ← luaH_set calls t key
  pure (t.put slot v)

end Set

/-! ### Traversals -/

/-- The first of the places from `i` on, among the next `n`, that has something. -/
def firstFrom {α : Type} (f : ℕ → Option α) : ℕ → ℕ → Option α
  | _, 0 => none
  | i, n + 1 => (f i).or (firstFrom f (i + 1) n)

section Next

variable [TableKey K]

/-- Whether a traversal may go on from this node when it was at the key. -/
def NodeKey.wasAt : NodeKey K → K → Bool
  | .live k, key => k == key
  | .dead k, key => TableKey.iscollectable key && k == key
  | .nil, _ => false

/-- The index of a key: how many places there are up to it. -/
def findindex (t : Table K V) : Option K → Except String ℕ
  | none => .ok 0
  | some key =>
      if 0 < arrayindex key ∧ arrayindex key ≤ t.sizearray then .ok (arrayindex key).toNat
      else
        match search t.next (fun i => (t.node i).key.wasAt key) t.sizenode
            (mainposition t key) with
        | some i => .ok (i + 1 + t.sizearray)
        | none => .error "invalid key to 'next'"

/-- The entry after a key. -/
def luaH_next (t : Table K V) (key : Option K) : Except String (Option (K × V)) := do
  let i ← findindex t key
  let inArray := firstFrom (fun i => ((t.array[i]?).join).map fun v => (TableKey.ofInt (i + 1), v))
    i (t.sizearray - i)
  pure (inArray.or
    (firstFrom (fun i => (t.node i).entry) (i - t.sizearray) (t.sizenode - (i - t.sizearray))))

/-- `traversetable` with `removeentry`: collectable keys without a value are dead. -/
def removeentries (t : Table K V) : Table K V :=
  { t with node := fun i =>
      match (t.node i).key, (t.node i).val with
      | .live k, none =>
          if TableKey.iscollectable k then { t.node i with key := .dead k } else t.node i
      | _, _ => t.node i }

end Next

/-! ### Borders -/

section Getn

/-- The binary search between an index `i` that is 0 or has a value and an index `j` that has
none. -/
def bisect (present : ℕ → Bool) : ℕ → ℕ → ℕ → ℕ
  | 0, i, _ => i
  | fuel + 1, i, j =>
      if j - i > 1 then
        let m := (i + j) / 2
        if present m then bisect present fuel m j else bisect present fuel i m
      else i

/-- Linear search for the first index from `i` on without a value. -/
def linear (present : ℕ → Bool) : ℕ → ℕ → ℕ
  | 0, i => i
  | fuel + 1, i => if present i then linear present fuel (i + 1) else i

/-- The doubling of `unbound_search`, from the index `i` that is 0 or has a value on. -/
def doubling (present : ℕ → Bool) (fuel : ℕ) : ℕ → ℕ → ℕ → ℕ
  | 0, i, _ => i
  | doublings + 1, i, j =>
      if present j then
        if j * 2 > 2 ^ 31 - 1 then linear present fuel 1 - 1
        else doubling present fuel doublings j (j * 2)
      else bisect present (j - i) i j

variable [TableKey K]

/-- Whether the index has a value. -/
def hasInt (t : Table K V) (m : ℕ) : Bool := ((luaH_getnum t m).bind t.get).isSome

def unbound_search (t : Table K V) (j : ℕ) : ℕ :=
  doubling (hasInt t) (t.sizearray + t.sizenode + 1) 32 j (j + 1)

def luaH_getn (t : Table K V) : ℕ :=
  let j := t.sizearray
  if 0 < j ∧ (t.get (.array (j - 1))).isNone then
    bisect (fun m => (t.get (.array (m - 1))).isSome) j 0 j
  else if t.dummy then j
  else unbound_search t j

end Getn

end UnityLua
