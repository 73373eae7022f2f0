import Mathlib.Data.Int.ConditionallyCompleteOrder
import Mathlib.Data.Rat.Floor
import Mathlib.Order.CompletePartialOrder
import Mathlib.Order.Interval.Set.Basic
import UnityLua.Library.BitFields

/-!
# Bits of numbers

`LoadBits` and `SetBits` of `lib.lua` read and replace a range of bits of a number by remainders,
powers of two and a division. Lua numbers are taken as exact rationals here: the remainder rounds
down, and a power may have a negative exponent.

## Main results

* `loadBits_intCast`, `setBits_intCast`: on integers the two are the field of bits and its
  replacement.
* `bits_laws`: what was set is read, nothing else changes, and 32 bits stay 32 bits.
-/

namespace UnityLua

open Library

/-- `a % b` of Lua. -/
def luaMod (a b : ℚ) : ℚ := a - ⌊a / b⌋ * b

/-- `Lib.LoadBits`. -/
def LoadBits (nInt32 : ℚ) (nBegin nEnd : ℤ) : ℚ :=
  let (nBegin, nEnd) := if nBegin > nEnd then (nEnd, nBegin) else (nBegin, nEnd)
  if nBegin < 0 ∨ nEnd ≥ 32 then 0
  else
    let nInt32 := luaMod nInt32 (2 ^ (nEnd + 1))
    let nInt32 := nInt32 / 2 ^ nBegin
    ⌊nInt32⌋

/-- `Lib.SetBits`. -/
def SetBits (nInt32 nBits : ℚ) (nBegin nEnd : ℤ) : ℚ :=
  let (nBegin, nEnd) := if nBegin > nEnd then (nEnd, nBegin) else (nBegin, nEnd)
  let nBits := luaMod nBits (2 ^ (nEnd - nBegin + 1))
  let nBits := nBits * 2 ^ nBegin
  let nInt32 := luaMod nInt32 (2 ^ nBegin) + nInt32 - luaMod nInt32 (2 ^ (nEnd + 1))
  nInt32 + nBits

/-! ### On integers -/

theorem floor_intCast_div (n : ℤ) (k : ℕ) : ⌊(n : ℚ) / 2 ^ k⌋ = n / 2 ^ k := by
  exact_mod_cast Rat.floor_intCast_div_natCast n (2 ^ k)

theorem luaMod_intCast (n : ℤ) (k : ℕ) : luaMod n (2 ^ k) = (n % 2 ^ k : ℤ) := by
  rw [luaMod, floor_intCast_div, Int.emod_def]
  push_cast
  ring

/-- The bits may be given in either order. -/
theorem loadBits_comm (n : ℚ) (b e : ℤ) : LoadBits n b e = LoadBits n e b := by
  rcases lt_trichotomy b e with h | rfl | h
  · simp [LoadBits, h, h.not_gt]
  · rfl
  · simp [LoadBits, h, h.not_gt]

theorem setBits_comm (n v : ℚ) (b e : ℤ) : SetBits n v b e = SetBits n v e b := by
  rcases lt_trichotomy b e with h | rfl | h
  · simp [SetBits, h, h.not_gt]
  · rfl
  · simp [SetBits, h, h.not_gt]

/-- **`LoadBits` of an integer.** -/
theorem loadBits_intCast (n : ℤ) (lo w : ℕ) (h : lo + w < 32) :
    LoadBits n lo (lo + w) = (field n lo (w + 1) : ℤ) := by
  have horder : ¬ (lo : ℤ) > lo + w := by omega
  have hrange : ¬ ((lo : ℤ) < 0 ∨ (lo : ℤ) + w ≥ 32) := by omega
  have hhigh : (lo : ℤ) + w + 1 = (lo + (w + 1) : ℕ) := by push_cast; ring
  simp only [LoadBits, if_neg horder, if_neg hrange]
  rw [hhigh, zpow_natCast, zpow_natCast, luaMod_intCast, floor_intCast_div, field_eq_emod_ediv]

/-- **`SetBits` of integers.** -/
theorem setBits_intCast (n v : ℤ) (lo w : ℕ) :
    SetBits n v lo (lo + w) = (setField n v lo (w + 1) : ℤ) := by
  have horder : ¬ (lo : ℤ) > lo + w := by omega
  have hwidth : (lo : ℤ) + w - lo + 1 = (w + 1 : ℕ) := by push_cast; ring
  have hhigh : (lo : ℤ) + w + 1 = (lo + (w + 1) : ℕ) := by push_cast; ring
  simp only [SetBits, if_neg horder]
  rw [hwidth, hhigh, zpow_natCast, zpow_natCast, zpow_natCast, luaMod_intCast, luaMod_intCast,
    luaMod_intCast, emod_eq_field, setField]
  push_cast
  ring

/-- Bits outside of the 32 read as nothing. -/
theorem loadBits_outside {b e : ℤ} (hle : b ≤ e) (h : b < 0 ∨ e ≥ 32) (n : ℚ) :
    LoadBits n b e = 0 := by
  simp only [LoadBits, if_neg hle.not_gt, if_pos h]

/-- Another range of bits is not touched. -/
theorem loadBits_setBits_of_disjoint (n v : ℤ) (lo w : ℕ) {b e : ℤ} (hle : b ≤ e)
    (hdisjoint : e < lo ∨ (lo : ℤ) + w < b) :
    LoadBits (SetBits n v lo (lo + w)) b e = LoadBits n b e := by
  by_cases hout : b < 0 ∨ e ≥ 32
  · rw [loadBits_outside hle hout, loadBits_outside hle hout]
  · obtain ⟨lo', rfl⟩ := Int.eq_ofNat_of_zero_le (by omega : 0 ≤ b)
    obtain ⟨w', hw'⟩ := Int.eq_ofNat_of_zero_le (by omega : 0 ≤ e - lo')
    obtain rfl : e = lo' + w' := by omega
    rw [setBits_intCast, loadBits_intCast _ _ _ (by omega), loadBits_intCast _ _ _ (by omega)]
    rcases hdisjoint with hbelow | habove
    · rw [field_setField_below n v (by omega)]
    · rw [field_setField_above n v (by omega)]

/-- Disjoint ranges lie one below the other. -/
theorem lt_or_lt_of_disjoint {a b c d : ℤ} (hab : a ≤ b) (hcd : c ≤ d)
    (h : Disjoint (Set.Icc a b) (Set.Icc c d)) : d < a ∨ b < c := by
  by_contra hnot
  have hfirst : max a c ∈ Set.Icc a b := Set.mem_Icc.mpr (by omega)
  have hsecond : max a c ∈ Set.Icc c d := Set.mem_Icc.mpr (by omega)
  exact Set.disjoint_left.mp h hfirst hsecond

/-- The laws for bits in ascending order. -/
theorem bits_laws_ordered (n v : ℤ) {b e : ℤ} (hb : 0 ≤ b) (hbe : b ≤ e) (he : e < 32) :
    LoadBits (SetBits n v b e) b e = (v % 2 ^ ((e - b).natAbs + 1) : ℤ) ∧
      (∀ b' e' : ℤ, b' ≤ e' → Disjoint (Set.Icc b e) (Set.Icc b' e') →
        LoadBits (SetBits n v b e) b' e' = LoadBits n b' e') ∧
      SetBits n (LoadBits n b e) b e = n ∧
      (0 ≤ n ∧ n < 2 ^ 32 → ∃ m : ℤ, SetBits n v b e = m ∧ 0 ≤ m ∧ m < 2 ^ 32) := by
  obtain ⟨lo, rfl⟩ := Int.eq_ofNat_of_zero_le hb
  obtain ⟨w, hw⟩ := Int.eq_ofNat_of_zero_le (by omega : 0 ≤ e - lo)
  obtain rfl : e = lo + w := by omega
  have hwidth : ((lo : ℤ) + w - lo).natAbs = w := by omega
  refine ⟨?_, ?_, ?_, ?_⟩
  · rw [setBits_intCast, loadBits_intCast _ _ _ (by omega), field_setField, hwidth]
  · intro b' e' hle hdisjoint
    exact loadBits_setBits_of_disjoint n v lo w hle (lt_or_lt_of_disjoint hbe hle hdisjoint)
  · rw [loadBits_intCast _ _ _ (by omega), setBits_intCast, setField_field]
  · intro hn
    exact ⟨setField n v lo (w + 1), setBits_intCast n v lo w, setField_lt n v (by omega) hn⟩

/-- **The laws of bits.** For all integers and all bits from 0 to 31, in either order: the low
bits of what was set are read, no other bits change, setting what was read changes nothing, and a
number of 32 bits stays one. -/
theorem bits_laws (n v b e : ℤ) (hb : 0 ≤ b ∧ b < 32) (he : 0 ≤ e ∧ e < 32) :
    LoadBits (SetBits n v b e) b e = (v % 2 ^ ((e - b).natAbs + 1) : ℤ) ∧
      (∀ b' e' : ℤ,
        Disjoint (Set.Icc (min b e) (max b e)) (Set.Icc (min b' e') (max b' e')) →
          LoadBits (SetBits n v b e) b' e' = LoadBits n b' e') ∧
      SetBits n (LoadBits n b e) b e = n ∧
      (0 ≤ n ∧ n < 2 ^ 32 → ∃ m : ℤ, SetBits n v b e = m ∧ 0 ≤ m ∧ m < 2 ^ 32) := by
  have hother : ∀ (x y : ℚ) (b' e' : ℤ),
      LoadBits x (min b' e') (max b' e') = LoadBits y (min b' e') (max b' e') →
        LoadBits x b' e' = LoadBits y b' e' := by
    intro x y b' e' h
    rcases le_total b' e' with hle | hle
    · rwa [min_eq_left hle, max_eq_right hle] at h
    · rwa [min_eq_right hle, max_eq_left hle, loadBits_comm x, loadBits_comm y] at h
  rcases le_total b e with hbe | hbe
  · obtain ⟨hget, hdisjoint, hset, hrange⟩ := bits_laws_ordered n v hb.1 hbe he.2
    rw [min_eq_left hbe, max_eq_right hbe]
    exact ⟨hget, fun b' e' h => hother _ _ b' e' (hdisjoint _ _ min_le_max h), hset, hrange⟩
  · obtain ⟨hget, hdisjoint, hset, hrange⟩ := bits_laws_ordered n v he.1 hbe hb.2
    have hwidth : (e - b).natAbs = (b - e).natAbs := by omega
    rw [min_eq_right hbe, max_eq_left hbe]
    simp only [setBits_comm _ _ b e, loadBits_comm _ b e, hwidth]
    exact ⟨hget, fun b' e' h => hother _ _ b' e' (hdisjoint _ _ min_le_max h), hset, hrange⟩

/-- The bits 7 to 4 of a negative number. -/
theorem bits_laws_negative :
    LoadBits (SetBits (-3 : ℤ) (21 : ℤ) (7 : ℤ) (4 : ℤ)) (7 : ℤ) (4 : ℤ) =
      ((21 % 2 ^ ((4 - 7 : ℤ).natAbs + 1) : ℤ) : ℚ) :=
  (bits_laws (-3) 21 7 4 (by decide) (by decide)).1

end UnityLua
