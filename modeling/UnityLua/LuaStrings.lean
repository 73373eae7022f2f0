import Mathlib.Algebra.Order.Group.Unbundled.Int
import Mathlib.Data.List.Basic
import Mathlib.Data.Int.Order.Basic

/-!
# Positions in strings

`string.byte` and `string.sub` of `lstrlib.c`. A position counts from one, a negative position
counts from the end. The functions are generic in what the strings consist of.
-/

namespace UnityLua

variable {α : Type}

/-- `posrelat`. -/
def posrelat (pos : ℤ) (len : ℕ) : ℤ :=
  let pos := if pos < 0 then pos + len + 1 else pos
  if 0 ≤ pos then pos else 0

/-- `str_byte` for one position: nothing where the string has none. -/
def strByte (s : List α) (i : ℤ) : Option α :=
  let posi := posrelat i s.length
  if posi ≤ 0 then none else s[(posi - 1).toNat]?

/-- `str_sub`. -/
def strSub (s : List α) (i j : ℤ) : List α :=
  let start := max (posrelat i s.length) 1
  let stop := min (posrelat j s.length) s.length
  if start ≤ stop then (s.drop (start - 1).toNat).take (stop - start + 1).toNat else []

theorem posrelat_natCast (n len : ℕ) : posrelat n len = n := by
  have hneg : ¬(n : ℤ) < 0 := by omega
  simp only [posrelat, if_neg hneg]
  exact if_pos (by omega)

/-- The byte after a prefix. -/
theorem strByte_append_cons (s t : List α) (c : α) :
    strByte (s ++ c :: t) (s.length + 1) = some c := by
  have hpos : posrelat ((s.length : ℤ) + 1) (s ++ c :: t).length = s.length + 1 :=
    posrelat_natCast (s.length + 1) _
  simp only [strByte, hpos, add_sub_cancel_right, Int.toNat_natCast]
  rw [if_neg (by omega), List.getElem?_append_right (le_refl _), Nat.sub_self,
    List.getElem?_cons_zero]

/-- `string.sub` between positions that count from the start. -/
theorem strSub_natCast (s : List α) (i j : ℕ) : strSub s i j = (s.take j).drop (i - 1) := by
  simp only [strSub, posrelat_natCast]
  have hlen := s.length_take (i := j)
  split
  · next hle =>
      rw [List.drop_take]
      rcases le_total j s.length with hj | hj
      · rw [show ((max (i : ℤ) 1) - 1).toNat = i - 1 by omega,
          show ((min (j : ℤ) s.length) - (max (i : ℤ) 1) + 1).toNat = j - (i - 1) by omega]
      · rw [show ((max (i : ℤ) 1) - 1).toNat = i - 1 by omega, List.take_of_length_le,
          List.take_of_length_le]
        · rw [List.length_drop]; omega
        · rw [List.length_drop]; omega
  · next hle =>
      rw [List.drop_eq_nil_of_le]
      omega

/-- `string.sub` between the ends of two prefixes. -/
theorem strSub_append (s t u : List α) :
    strSub (s ++ t ++ u) (s.length + 1) (s.length + t.length) = t := by
  have h := strSub_natCast (s ++ t ++ u) (s.length + 1) (s.length + t.length)
  rw [Nat.add_sub_cancel, ← List.length_append, List.take_left, List.drop_left] at h
  simpa using h

/-- `string.sub` from a position on. -/
theorem strSub_toEnd (s : List α) (a : ℕ) : strSub s (a + 1) (-1) = s.drop a := by
  have hstart : posrelat ((a : ℤ) + 1) s.length = a + 1 := posrelat_natCast (a + 1) _
  have hstop : posrelat (-1) s.length = s.length := by
    simp only [posrelat]
    rw [if_pos (by omega), if_pos (by omega)]
    omega
  simp only [strSub, hstart, hstop, min_self]
  split
  · next hle =>
      rw [show (max ((a : ℤ) + 1) 1 - 1).toNat = a by omega, List.take_of_length_le]
      rw [List.length_drop]
      omega
  · rw [List.drop_eq_nil_of_le (by omega)]

end UnityLua
