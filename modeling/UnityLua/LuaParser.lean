import Mathlib.Data.List.Dedup
import Mathlib.Logic.Function.Basic
import UnityLua.LuaLexer

/-!
# Chunks that return a constant

The part of `lparser.c` of Lua 5.1.5 that reads `return` and an expression of constants, unary minus
and table constructors with keys, and the values of such expressions. Of other chunks, as of syntax
errors, the model makes nothing.

Values are trees: tables have no identity here, and what is compared is their structure.

## Main results

* `LuaData.Same`: equal structure, whatever the order of the keys.
* `LuaData.cells_ofCells`: a table made from its cells has them.
-/

namespace UnityLua

namespace LuaText

open Library

/-! ### Values -/

/-- What a key is. -/
inductive LuaScalar
  | boolean (b : Bool)
  | number (n : ExactInteger)
  | string (s : ByteString)
  deriving DecidableEq

/-- A value that is not `nil`. The keys of a table stand in the order of `pairs`. -/
inductive LuaData
  | scalar (s : LuaScalar)
  | table (keys : List LuaScalar) (nodup : keys.Nodup) (value : {k // k ∈ keys} → LuaData)

namespace LuaData

/-- Equal scalars, or tables with the same keys and the same values. -/
def Same : LuaData → LuaData → Prop
  | .scalar a, .scalar b => a = b
  | .table keys _ value, .table keys' _ value' =>
      (∀ k, k ∈ keys ↔ k ∈ keys') ∧ ∀ k h h', Same (value ⟨k, h⟩) (value' ⟨k, h'⟩)
  | _, _ => False

def IsTable (t : LuaData) : Prop := ∃ keys nodup value, t = .table keys nodup value

/-- The value at a key. -/
def cells : LuaData → LuaScalar → Option LuaData
  | .scalar _, _ => none
  | .table keys _ value, k => if h : k ∈ keys then some (value ⟨k, h⟩) else none

/-- The table with these cells, of which all that are not empty have one of the keys. -/
def ofCells (keys : List LuaScalar) (cells : LuaScalar → Option LuaData) : LuaData :=
  .table (keys.dedup.filter fun k => (cells k).isSome) ((List.nodup_dedup keys).filter _)
    fun k => (cells k.1).get (List.mem_filter.mp k.2).2

/-- The table that a constructor begins with. -/
def empty : LuaData := .table [] List.nodup_nil fun k => absurd k.2 List.not_mem_nil

theorem cells_ofCells {keys : List LuaScalar} {f : LuaScalar → Option LuaData}
    (h : ∀ k, (f k).isSome → k ∈ keys) : (ofCells keys f).cells = f := by
  funext k
  by_cases hk : (f k).isSome
  · have hmem : k ∈ keys.dedup.filter fun k => (f k).isSome :=
      List.mem_filter.mpr ⟨List.mem_dedup.mpr (h k hk), hk⟩
    simp [ofCells, cells, hmem]
  · have hnot : k ∉ keys.dedup.filter fun k => (f k).isSome :=
      fun hmem => hk (List.mem_filter.mp hmem).2
    rw [ofCells, cells, dif_neg hnot, Option.not_isSome_iff_eq_none.mp hk]

/-- A table is the same as another table that has the same cells in structure. -/
theorem same_of_cells {keys : List LuaScalar} {nodup : keys.Nodup}
    {value : {k // k ∈ keys} → LuaData} {t : LuaData} (ht : t.IsTable)
    (hout : ∀ k, k ∉ keys → t.cells k = none)
    (hin : ∀ k, ∃ w, t.cells k.1 = some w ∧ Same (value k) w) :
    Same (.table keys nodup value) t := by
  obtain ⟨keys', nodup', value', rfl⟩ := ht
  refine ⟨fun k => ⟨fun hk => ?_, fun hk => ?_⟩, fun k hk hk' => ?_⟩
  · by_contra hnot
    obtain ⟨w, hw, -⟩ := hin ⟨k, hk⟩
    simp [cells, hnot] at hw
  · by_contra hnot
    have hnone := hout k hnot
    simp [cells, hk] at hnone
  · obtain ⟨w, hw, hsame⟩ := hin ⟨k, hk⟩
    obtain rfl : value' ⟨k, hk'⟩ = w := by simpa [cells, hk'] using hw
    exact hsame

end LuaData

/-! ### Expressions -/

/-- Expressions of constants. A constructor is the code that it becomes: a new table and a store
for every field. -/
inductive Exp
  | nil
  | boolean (b : Bool)
  | number (r : ExactInteger)
  | string (s : ByteString)
  | minus (e : Exp)
  | newtable
  | settable (t key value : Exp)
  deriving DecidableEq

/-- `checknext`: what follows a token that has to be here. -/
def checknext (c : UInt8) (ts : List Token) : Option (List Token) :=
  if ts.head? = some (.char c) then some ts.tail else none

/-- `recfield`: a field with a key, stored into `t`. -/
def recfield (expr : List Token → Option (Exp × List Token)) (t : Exp) (ts : List Token) :
    Option (Exp × List Token) :=
  match ts with
  | .name s :: ts => do
      let ts ← checknext equals ts
      let val ← expr ts
      some (.settable t (.string s) val.1, val.2)
  | .char c :: ts =>
      if c = openBracket then do
        let key ← expr ts
        let ts ← checknext closeBracket key.2
        let ts ← checknext equals ts
        let val ← expr ts
        some (.settable t key.1 val.1, val.2)
      else none
  | _ => none

mutual

/-- `expr`: a constant, a constructor or a unary minus before an expression. -/
def expr : ℕ → List Token → Option (Exp × List Token)
  | 0, _ => none
  | fuel + 1, ts =>
      match ts with
      | .number r :: ts => some (.number r, ts)
      | .string s :: ts => some (.string s, ts)
      | .reserved word :: ts =>
          if word = bytes "nil" then some (.nil, ts)
          else if word = bytes "true" then some (.boolean true, ts)
          else if word = bytes "false" then some (.boolean false, ts)
          else none
      | .char c :: ts =>
          if c = minus then do
            let e ← expr fuel ts
            some (.minus e.1, e.2)
          else if c = openBrace then constructorFields fuel .newtable ts
          else none
      | _ => none

/-- The loop of `constructor`, after what has been stored into `t`. -/
def constructorFields : ℕ → Exp → List Token → Option (Exp × List Token)
  | 0, _, _ => none
  | fuel + 1, t, ts =>
      if ts.head? = some (.char closeBrace) then some (t, ts.tail)
      else do
        let field ← recfield (expr fuel) t ts
        if field.2.head? = some (.char comma) ∨ field.2.head? = some (.char semicolon) then
          constructorFields fuel field.1 field.2.tail
        else do
          let ts ← checknext closeBrace field.2
          some (field.1, ts)

end

/-- `chunk`, of a `return` statement with one expression. -/
def chunk (ts : List Token) : Option Exp :=
  match ts with
  | .reserved word :: ts =>
      if word = bytes "return" then do
        let e ← expr (ts.length + 1) ts
        let rest := if e.2.head? = some (.char semicolon) then e.2.tail else e.2
        if rest = [] then some e.1 else none
      else none
  | _ => none

/-! ### Values of expressions -/

/-- `t[key] = value`, of which `nil` is no key. -/
def settable (t key value : Option LuaData) : Option LuaData :=
  match t, key with
  | some (.table keys nodup val), some (.scalar k) =>
      some (.ofCells (k :: keys) (Function.update (LuaData.table keys nodup val).cells k value))
  | _, _ => none

/-- The value of an expression; the inner `none` is `nil`. -/
def eval : Exp → Option (Option LuaData)
  | .nil => some none
  | .boolean b => some (some (.scalar (.boolean b)))
  | .number r => some (some (.scalar (.number r)))
  | .string s => some (some (.scalar (.string s)))
  | .minus e => do
      match ← eval e with
      | some (.scalar (.number n)) => some (some (.scalar (.number n.neg)))
      | _ => none
  | .newtable => some (some .empty)
  | .settable t key value => do
      let t ← eval t
      let key ← eval key
      let value ← eval value
      let t ← settable t key value
      some (some t)

/-- What `loadstring` makes of a chunk, and what this returns. -/
def loadstring (z : ByteString) : Option (Option LuaData) := do
  let ts ← tokens z.length z
  let e ← chunk ts
  eval e

end LuaText

end UnityLua
