import Mathlib.Algebra.BigOperators.Fin
import Mathlib.Data.Fintype.BigOperators
import Mathlib.Data.Fintype.Perm
import Mathlib.Data.Nat.Factorial.BigOperators
import Mathlib.Logic.Equiv.Fin.Basic

/-!
# Shuffles by transpositions

For every position a choice among the positions up to it: the product of the transpositions of
each position and its choice. Every permutation is one such product, and of one family of choices
only.

## Main results

* `shuffle_bijective`: choices and permutations are in bijection.
-/

namespace Library

open Equiv

variable {n : ℕ}

/-- For every position a choice among the positions up to it. -/
abbrev Choices (n : ℕ) := (i : Fin n) → Fin (i + 1)

/-- The chosen position. -/
def Choices.at (c : Choices n) (i : Fin n) : Fin n :=
  ⟨c i, by have := (c i).isLt; omega⟩

theorem Choices.at_le (c : Choices n) (i : Fin n) : c.at i ≤ i :=
  Nat.lt_succ_iff.mp (c i).isLt

/-- The product of the transpositions of the first `k` positions, that of the last one outermost. -/
def swapsBelow (c : Choices n) : ℕ → Perm (Fin n)
  | 0 => 1
  | k + 1 => if h : k < n then swap ⟨k, h⟩ (c.at ⟨k, h⟩) * swapsBelow c k else swapsBelow c k

/-- The permutation that the choices make. -/
def shuffle (c : Choices n) : Perm (Fin n) := swapsBelow c n

theorem swapsBelow_succ (c : Choices n) {k : ℕ} (h : k < n) :
    swapsBelow c (k + 1) = swap ⟨k, h⟩ (c.at ⟨k, h⟩) * swapsBelow c k := dif_pos h

/-- Transpositions of lower positions do not move a position. -/
theorem swapsBelow_apply_of_le (c : Choices n) {k : ℕ} {p : Fin n} (hp : k ≤ p) :
    swapsBelow c k p = p := by
  induction k with
  | zero => rfl
  | succ k ih =>
      have hk : k < n := by omega
      have hat : (c.at ⟨k, hk⟩ : ℕ) ≤ k := c.at_le ⟨k, hk⟩
      rw [swapsBelow_succ c hk, Perm.mul_apply, ih (by omega)]
      exact swap_apply_of_ne_of_ne (Fin.ne_of_val_ne (by simp; omega))
        (Fin.ne_of_val_ne (by omega))

/-- The last position shows the last choice. -/
theorem swapsBelow_succ_apply (c : Choices n) {k : ℕ} (h : k < n) :
    swapsBelow c (k + 1) ⟨k, h⟩ = c.at ⟨k, h⟩ := by
  rw [swapsBelow_succ c h, Perm.mul_apply, swapsBelow_apply_of_le c (le_refl k), swap_apply_left]

/-- The product shows every choice. -/
theorem choices_eq_of_swapsBelow {c d : Choices n} {k : ℕ} (hk : k ≤ n)
    (h : swapsBelow c k = swapsBelow d k) : ∀ i : Fin n, (i : ℕ) < k → c i = d i := by
  induction k with
  | zero => exact fun i hi => absurd hi (Nat.not_lt_zero _)
  | succ k ih =>
      have hlt : k < n := hk
      have hat : c.at ⟨k, hlt⟩ = d.at ⟨k, hlt⟩ := by
        rw [← swapsBelow_succ_apply c hlt, ← swapsBelow_succ_apply d hlt, h]
      have hrest : swapsBelow c k = swapsBelow d k := by
        rw [swapsBelow_succ c hlt, swapsBelow_succ d hlt, hat] at h
        exact mul_left_cancel h
      intro i hi
      rcases Nat.lt_succ_iff_lt_or_eq.mp hi with hlow | heq
      · exact ih (by omega) hrest i hlow
      · obtain rfl : i = ⟨k, hlt⟩ := Fin.ext heq
        exact Fin.ext (Fin.mk.inj_iff.mp hat)

theorem shuffle_injective : Function.Injective (shuffle (n := n)) := fun _ _ h =>
  funext fun i => choices_eq_of_swapsBelow (le_refl n) h i i.isLt

/-- There are as many choices as permutations. -/
theorem card_choices : Fintype.card (Choices n) = n.factorial := by
  rw [Fintype.card_pi]
  simp only [Fintype.card_fin]
  rw [Fin.prod_univ_eq_prod_range (fun i => i + 1) n, Finset.prod_range_add_one_eq_factorial]

theorem shuffle_bijective : Function.Bijective (shuffle (n := n)) := by
  refine (Fintype.bijective_iff_injective_and_card _).mpr ⟨shuffle_injective, ?_⟩
  rw [card_choices, Fintype.card_perm, Fintype.card_fin]

end Library
