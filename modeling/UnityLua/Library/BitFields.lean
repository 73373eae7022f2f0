import Mathlib.Algebra.Order.Ring.Int
import Mathlib.Tactic.LinearCombination
import Mathlib.Tactic.Ring

/-!
# Fields of bits

The `w` bits of an integer from the bit `lo` on, read and replaced. Integers have infinitely many
bits, those of a negative one end in ones; division and remainder round down, so that the laws
hold of all integers alike.

## Main results

* `field_setField`, `setField_field`: what was set is read, and setting what was read changes
  nothing.
* `field_setField_below`, `field_setField_above`: the bits below and above stay as they were.
-/

namespace Library

/-- The `w` bits of `n` from `lo` on. -/
def field (n : ℤ) (lo w : ℕ) : ℤ := n / 2 ^ lo % 2 ^ w

/-- `n` with the low bits of `v` in place of its `w` bits from `lo` on. -/
def setField (n v : ℤ) (lo w : ℕ) : ℤ := n + (v % 2 ^ w - field n lo w) * 2 ^ lo

theorem two_pow_pos (k : ℕ) : (0 : ℤ) < 2 ^ k := Int.pow_pos (by decide)

theorem field_emod (n : ℤ) (lo w : ℕ) : field n lo w % 2 ^ w = field n lo w :=
  Int.emod_emod_of_dvd _ (dvd_refl _)

/-- The bits from `lo` on are the field and those above it. -/
theorem ediv_eq_field (n : ℤ) (lo w : ℕ) :
    n / 2 ^ lo = n / 2 ^ (lo + w) * 2 ^ w + field n lo w := by
  rw [pow_add, Int.ediv_ediv_of_nonneg (two_pow_pos lo).le |>.symm, field, mul_comm]
  exact (Int.mul_ediv_add_emod (n / 2 ^ lo) (2 ^ w)).symm

/-- The remainder by a higher power is the remainder by a lower one and the bits between. -/
theorem emod_eq_field (n : ℤ) (lo w : ℕ) :
    n % 2 ^ (lo + w) = n % 2 ^ lo + field n lo w * 2 ^ lo := by
  have hhigh := Int.mul_ediv_add_emod n (2 ^ (lo + w))
  have hlow := Int.mul_ediv_add_emod n (2 ^ lo)
  have hdiv := ediv_eq_field n lo w
  rw [pow_add] at hhigh ⊢
  rw [hdiv, pow_add] at hlow
  linear_combination hhigh - hlow

/-- A field is a remainder that is shifted down. -/
theorem field_eq_emod_ediv (n : ℤ) (lo w : ℕ) : field n lo w = n % 2 ^ (lo + w) / 2 ^ lo := by
  rw [emod_eq_field, Int.add_mul_ediv_right _ _ (two_pow_pos lo).ne',
    Int.ediv_eq_zero_of_lt (Int.emod_nonneg _ (two_pow_pos lo).ne')
      (Int.emod_lt_of_pos _ (two_pow_pos lo)), zero_add]

theorem setField_emod (n v : ℤ) (lo w : ℕ) : setField n v lo w % 2 ^ lo = n % 2 ^ lo :=
  Int.add_mul_emod_self_right _ _ _

theorem setField_ediv (n v : ℤ) (lo w : ℕ) :
    setField n v lo w / 2 ^ lo = n / 2 ^ (lo + w) * 2 ^ w + v % 2 ^ w := by
  rw [setField, Int.add_mul_ediv_right _ _ (two_pow_pos lo).ne', ediv_eq_field n lo w]
  ring

/-- **What was set is read.** -/
theorem field_setField (n v : ℤ) (lo w : ℕ) : field (setField n v lo w) lo w = v % 2 ^ w := by
  rw [field, setField_ediv, add_comm, Int.add_mul_emod_self_right,
    Int.emod_emod_of_dvd _ (dvd_refl _)]

/-- **Setting what was read changes nothing.** -/
theorem setField_field (n : ℤ) (lo w : ℕ) : setField n (field n lo w) lo w = n := by
  rw [setField, field_emod, sub_self, zero_mul, add_zero]

theorem setField_ediv_above (n v : ℤ) (lo w : ℕ) :
    setField n v lo w / 2 ^ (lo + w) = n / 2 ^ (lo + w) := by
  have hlt : v % 2 ^ w / 2 ^ w = 0 := Int.ediv_eq_zero_of_lt
    (Int.emod_nonneg _ (two_pow_pos w).ne') (Int.emod_lt_of_pos _ (two_pow_pos w))
  rw [pow_add 2 lo w, ← Int.ediv_ediv_of_nonneg (two_pow_pos lo).le, setField_ediv, add_comm,
    Int.add_mul_ediv_right _ _ (two_pow_pos w).ne', hlt, zero_add, pow_add]

theorem ediv_pow_add (n : ℤ) (j k : ℕ) : n / 2 ^ (j + k) = n / 2 ^ j / 2 ^ k := by
  rw [pow_add, Int.ediv_ediv_of_nonneg (two_pow_pos j).le]

/-- **The bits above stay.** -/
theorem field_setField_above (n v : ℤ) {lo w lo' : ℕ} (h : lo + w ≤ lo') (w' : ℕ) :
    field (setField n v lo w) lo' w' = field n lo' w' := by
  obtain ⟨k, rfl⟩ := Nat.exists_eq_add_of_le h
  rw [field, field, ediv_pow_add _ (lo + w) k, ediv_pow_add n (lo + w) k, setField_ediv_above]

/-- A field below a bit is known from the remainder by its power. -/
theorem field_congr {n m : ℤ} {lo w k : ℕ} (hk : lo + w ≤ k) (h : n % 2 ^ k = m % 2 ^ k) :
    field n lo w = field m lo w := by
  have hdvd : (2 : ℤ) ^ (lo + w) ∣ 2 ^ k := pow_dvd_pow 2 hk
  rw [field_eq_emod_ediv, field_eq_emod_ediv, ← Int.emod_emod_of_dvd n hdvd, h,
    Int.emod_emod_of_dvd m hdvd]

/-- **The bits below stay.** -/
theorem field_setField_below (n v : ℤ) {lo w lo' w' : ℕ} (h : lo' + w' ≤ lo) :
    field (setField n v lo w) lo' w' = field n lo' w' :=
  field_congr h (setField_emod n v lo w)

theorem ediv_two_pow_eq_zero {n : ℤ} {k : ℕ} : n / 2 ^ k = 0 ↔ 0 ≤ n ∧ n < 2 ^ k := by
  constructor
  · intro h
    have hdecomp := Int.mul_ediv_add_emod n (2 ^ k)
    rw [h, mul_zero, zero_add] at hdecomp
    rw [← hdecomp]
    exact ⟨Int.emod_nonneg _ (two_pow_pos k).ne', Int.emod_lt_of_pos _ (two_pow_pos k)⟩
  · rintro ⟨h0, hlt⟩
    exact Int.ediv_eq_zero_of_lt h0 hlt

/-- A number of `k` bits stays one if the field lies within them. -/
theorem setField_lt (n v : ℤ) {lo w k : ℕ} (hk : lo + w ≤ k) (hn : 0 ≤ n ∧ n < 2 ^ k) :
    0 ≤ setField n v lo w ∧ setField n v lo w < 2 ^ k := by
  obtain ⟨j, rfl⟩ := Nat.exists_eq_add_of_le hk
  rw [← ediv_two_pow_eq_zero] at hn ⊢
  rw [ediv_pow_add _ (lo + w) j, setField_ediv_above, ← ediv_pow_add, hn]

end Library
