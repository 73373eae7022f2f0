import UnityLua.HashTables
import UnityLua.Library.ByteStrings
import UnityLua.Library.DoubleEquality

/-!
# Keys of Lua

What `ltable.c` asks about a key, for the values that a key can be: their equality
(`luaO_rawequalObj`), their hashes and the `int` that is equal to a number. An object is given by
its address; a string is one object for each content and is given by it.
-/

namespace UnityLua

open Library

/-- The values other than `nil`. -/
inductive LuaKey
  | boolean (b : Bool)
  | lightuserdata (p : ℕ)
  | number (n : Float.Model)
  | string (str : ByteString)
  | table (p : ℕ)
  | function (p : ℕ)
  | userdata (p : ℕ)
  | thread (p : ℕ)
  deriving DecidableEq

/-- `luaO_rawequalObj`. -/
def luaO_rawequalObj : LuaKey → LuaKey → Bool
  | .number n, .number n' => n == n'
  | k, k' => k = k'

/-! ### Hashes -/

/-- The loop over the bytes of a string in `luaS_newlstr`. -/
def hashBytes (str : ByteString) (step : ℕ) : ℕ → ℕ → UInt32 → UInt32
  | 0, _, h => h
  | rounds + 1, l1, h =>
      if l1 ≥ step then
        hashBytes str step rounds (l1 - step)
          (h ^^^ ((h <<< 5) + (h >>> 2) + (str.getD (l1 - 1) 0).toUInt32))
      else h

/-- The hash of a string. A long string is not hashed byte by byte. -/
def hashstr (str : ByteString) : UInt32 :=
  hashBytes str (str.length / 2 ^ 5 + 1) str.length str.length (UInt32.ofNat str.length)

/-- `hashmod`. -/
def hashmod (lsizenode : ℕ) (n : UInt32) : ℕ := n.toNat % ((2 ^ lsizenode - 1) ||| 1)

/-- `hashpow2`. -/
def hashpow2 (lsizenode : ℕ) (n : UInt32) : ℕ := n.toNat % 2 ^ lsizenode

/-- The two words of a double are added. -/
def hashnum (lsizenode : ℕ) (n : Float.Model) : ℕ :=
  if n == .ofInt 0 then 0
  else hashmod lsizenode (n.toBits.toUInt32 + (n.toBits >>> 32).toUInt32)

instance : TableKey LuaKey where
  beq := luaO_rawequalObj
  mainposition lsizenode
    | .number n => hashnum lsizenode n
    | .string str => hashpow2 lsizenode (hashstr str)
    | .boolean b => hashpow2 lsizenode b.toUInt32
    | .lightuserdata p => hashmod lsizenode (UInt32.ofNat p)
    | .table p => hashmod lsizenode (UInt32.ofNat p)
    | .function p => hashmod lsizenode (UInt32.ofNat p)
    | .userdata p => hashmod lsizenode (UInt32.ofNat p)
    | .thread p => hashmod lsizenode (UInt32.ofNat p)
  toInt
    | .number n =>
        if -2 ^ 31 ≤ truncate n ∧ truncate n < 2 ^ 31 ∧ Float.Model.ofInt (truncate n) == n then
          some (truncate n)
        else none
    | _ => none
  ofInt n := .number (.ofInt n)
  iscollectable
    | .boolean _ | .lightuserdata _ | .number _ => false
    | _ => true

/-! ### They obey the laws of keys -/

theorem luaKey_beq_iff {k k' : LuaKey} :
    (k == k') = true ↔ (∃ n n', k = .number n ∧ k' = .number n' ∧ (n == n') = true) ∨
      (∀ n, k ≠ .number n) ∧ k = k' := by
  change luaO_rawequalObj k k' = true ↔ _
  cases k with
  | number n => cases k' <;> simp [luaO_rawequalObj]
  | _ => simp [luaO_rawequalObj]

theorem hashmod_lt (n : ℕ) (h : UInt32) : hashmod n h < 2 ^ n := by
  rw [hashmod]
  obtain rfl | hn := Nat.eq_zero_or_pos n
  · exact Nat.mod_lt _ (by decide)
  · have htwo : 2 ≤ 2 ^ n := Nat.le_self_pow (by omega) 2
    have hle : (2 ^ n - 1) ||| 1 < 2 ^ n := Nat.or_lt_two_pow (by omega) (by omega)
    have hpos : 0 < (2 ^ n - 1) ||| 1 := Nat.pos_of_ne_zero fun h0 => by
      have := (Nat.or_eq_zero_iff.mp h0).2
      omega
    exact (Nat.mod_lt _ hpos).trans hle

theorem log2_lt_of_int {i : ℤ} (hlo : -2 ^ 31 ≤ i) (hhi : i < 2 ^ 31) :
    i.natAbs.log2 < 1023 := by
  obtain h0 | hne := eq_or_ne i.natAbs 0
  · rw [h0]
    decide
  · have : i.natAbs.log2 < 32 := (Nat.log2_lt hne).mpr (by omega)
    omega

instance : LawfulTableKey LuaKey where
  symm {k k'} h := by
    rw [luaKey_beq_iff] at h ⊢
    obtain ⟨n, n', rfl, rfl, h⟩ | ⟨hk, rfl⟩ := h
    · exact Or.inl ⟨n', n, rfl, rfl, BEq.symm h⟩
    · exact Or.inr ⟨hk, rfl⟩
  trans {k k' k''} h h' := by
    rw [luaKey_beq_iff] at h h' ⊢
    obtain ⟨n, n', rfl, rfl, h⟩ | ⟨hk, rfl⟩ := h
    · obtain ⟨m, n'', hm, rfl, h'⟩ | ⟨hk', -⟩ := h'
      · obtain rfl := LuaKey.number.inj hm
        exact Or.inl ⟨n, n'', rfl, rfl, PartialEquivBEq.trans h h'⟩
      · exact absurd rfl (hk' n')
    · exact h'
  mainposition_lt n k := by
    cases k with
    | number x =>
        change hashnum n x < _
        rw [hashnum]
        split
        · exact Nat.two_pow_pos n
        · exact hashmod_lt ..
    | string str => exact Nat.mod_lt _ (Nat.two_pow_pos n)
    | boolean b => exact Nat.mod_lt _ (Nat.two_pow_pos n)
    | _ => exact hashmod_lt ..
  mainposition_congr n {k k'} h := by
    obtain ⟨x, x', rfl, rfl, h⟩ | ⟨-, rfl⟩ := luaKey_beq_iff.mp h
    · change hashnum n x = hashnum n x'
      obtain ⟨rfl, -⟩ | ⟨hx, hx'⟩ := beq_iff.mp h
      · rfl
      · rw [hashnum, hashnum, if_pos hx, if_pos hx']
    · rfl
  toInt_eq_some {k i} := by
    cases k with
    | number n =>
        change (if _ then some (truncate n) else none) = some i ↔
          _ ∧ _ ∧ (Float.Model.ofInt i == n) = true
        constructor
        · intro h
          split at h
          · next hn =>
              obtain rfl := Option.some.inj h
              exact hn
          · cases h
        · rintro ⟨hlo, hhi, heq⟩
          have htrunc : truncate n = i := by
            rw [← truncate_congr heq, truncate_ofInt_eq_iff (log2_lt_of_int hlo hhi)]
            exact exact_of_natAbs_le (by omega)
          rw [htrunc, if_pos ⟨hlo, hhi, heq⟩]
    | _ =>
        constructor
        · intro h
          cases h
        · rintro ⟨-, -, h⟩
          cases h
  ofInt_refl i hlo hhi := ofInt_beq_self (log2_lt_of_int hlo hhi)

end UnityLua
