import UnityLua.Library.Loops
import UnityLua.Library.Shuffles

/-!
# Shuffling a table

`Lib.RandomTable` goes from the last position of a list to the first and swaps each with one that
`Random` chooses among the positions up to it. `Random` is a global that is defined elsewhere.

## Main results

* `randomTable_counts`: the states of the loop, each the list after some of the swaps.
* `randomTable_shuffles`: the list is permuted by the shuffle of the choices, and choices and
  permutations are in bijection.
-/

namespace UnityLua

open Library Equiv

variable {V : Type} {n : ℕ}

/-- The global `Random`: what its `k`th call returns, which is in the range asked for. -/
structure RandomGlobal where
  result : ℕ → ℤ → ℤ → ℤ
  inRange : ∀ k lo hi, lo ≤ hi → lo ≤ result k lo hi ∧ result k lo hi ≤ hi

/-- The cells of a table with integer keys. -/
abbrev Cells (V : Type) := ℤ → Option V

section Source

variable (random : RandomGlobal)

structure RandomTableState (V : Type) where
  i : ℤ
  calls : ℕ
  tb : Cells V

/-- One round of the loop of `Lib.RandomTable`. -/
def randomTableStep (st : RandomTableState V) :
    Except Empty (RandomTableState V ⊕ RandomTableState V) :=
  let n := random.result st.calls 1 st.i
  let temp := st.tb st.i
  let tb := Function.update st.tb st.i (st.tb n)
  let tb := Function.update tb n temp
  let i := st.i - 1
  .ok (if i = 0 then .inr ⟨i, st.calls + 1, tb⟩ else .inl ⟨i, st.calls + 1, tb⟩)

/-- `Lib.RandomTable`, where `len` is what `#tb` gives. -/
def randomTable (len : ℕ) (tb : Cells V) : Fueled Empty (Cells V) :=
  if len ≤ 1 then fun _ => some (.ok tb)
  else (loop (randomTableStep random) ⟨len, 0, tb⟩).andThen fun st => .ok st.tb

end Source

/-! ### Lists -/

/-- The cells of a list, which is at the positions from one. -/
def listCells (xs : Fin n → V) : Cells V := fun i =>
  if h : 1 ≤ i ∧ i ≤ n then some (xs ⟨(i - 1).toNat, by omega⟩) else none

/-- What `#` may give: a position with a value, or zero, before one without. -/
def IsBorder (tb : Cells V) (len : ℕ) : Prop := (len = 0 ∨ tb len ≠ none) ∧ tb (len + 1) = none

/-- A list has no border but its length. -/
theorem isBorder_listCells {xs : Fin n → V} {len : ℕ} :
    IsBorder (listCells xs) len ↔ len = n := by
  have hnone : ∀ i : ℤ, listCells xs i = none ↔ ¬(1 ≤ i ∧ i ≤ n) := by
    intro i
    unfold listCells
    split
    · next h => exact iff_of_false (Option.some_ne_none _) (not_not_intro h)
    · next h => exact iff_of_true rfl h
  rw [IsBorder, ne_eq, hnone, hnone]
  omega

theorem listCells_apply (xs : Fin n → V) (p : Fin n) : listCells xs (p + 1) = some (xs p) := by
  rw [listCells, dif_pos (by omega)]
  congr 1
  exact congrArg xs (Fin.ext (by simp))

/-- Two assignments swap two positions. -/
theorem update_listCells (xs : Fin n → V) (p q : Fin n) :
    Function.update (Function.update (listCells xs) (p + 1) (listCells xs (q + 1))) (q + 1)
      (listCells xs (p + 1)) = listCells (xs ∘ swap p q) := by
  funext i
  by_cases hi : 1 ≤ i ∧ i ≤ n
  · obtain ⟨r, rfl⟩ : ∃ r : Fin n, i = r + 1 :=
      ⟨⟨(i - 1).toNat, by omega⟩, by simp only; omega⟩
    rw [listCells_apply, listCells_apply, listCells_apply, Function.comp_apply]
    by_cases hq : r = q
    · rw [hq, Function.update_self, swap_apply_right]
    · rw [Function.update_of_ne (by have := Fin.val_ne_of_ne hq; omega)]
      by_cases hp : r = p
      · rw [hp, Function.update_self, swap_apply_left]
      · rw [Function.update_of_ne (by have := Fin.val_ne_of_ne hp; omega), listCells_apply,
          swap_apply_of_ne_of_ne hp hq]
  · rw [Function.update_of_ne (by omega), Function.update_of_ne (by omega), listCells, listCells,
      dif_neg hi, dif_neg hi]

/-! ### The choices of a run -/

/-- What the calls of `Random` choose when a list of length `n` is shuffled: `Random(1, i + 1)` is
the call before which the loop has passed the positions after `i`. -/
def RandomGlobal.choices (random : RandomGlobal) (n : ℕ) : Choices n := fun i =>
  ⟨(random.result (n - 1 - i) 1 (i + 1) - 1).toNat, by
    have := random.inRange (n - 1 - i) 1 (i + 1) (by omega)
    omega⟩

theorem RandomGlobal.result_eq (random : RandomGlobal) (i : Fin n) :
    random.result (n - 1 - i) 1 (i + 1) = (random.choices n).at i + 1 := by
  have := random.inRange (n - 1 - i) 1 (i + 1) (by omega)
  simp only [Choices.at, RandomGlobal.choices]
  omega

/-- Any choices are those of some `Random`. -/
theorem exists_choices_eq (c : Choices n) : ∃ random : RandomGlobal, random.choices n = c := by
  refine ⟨⟨fun _ lo hi => if h : (hi - 1).toNat < n ∧ (hi - 1).toNat + 1 = hi ∧ lo = 1 then
    c ⟨(hi - 1).toNat, h.1⟩ + 1 else lo, fun k lo hi hle => ?_⟩, ?_⟩
  · split
    · next h =>
        have := (c ⟨(hi - 1).toNat, h.1⟩).isLt
        simp only at this
        omega
    · omega
  · funext i
    have hpos : ((i : ℤ) + 1 - 1).toNat = i := by omega
    have hi : (⟨((i : ℤ) + 1 - 1).toNat, by omega⟩ : Fin n) = i := Fin.ext hpos
    have hcond : ((i : ℤ) + 1 - 1).toNat < n ∧
        (((i : ℤ) + 1 - 1).toNat : ℤ) + 1 = i + 1 ∧ True := ⟨by omega, by omega, trivial⟩
    apply Fin.ext
    simp only [RandomGlobal.choices]
    rw [dif_pos hcond, add_sub_cancel_right, Int.toNat_natCast]
    exact congrArg (fun j => (c j : ℕ)) hi

/-! ### The loop -/

/-- The list after the swaps of the positions from `k` on. -/
def swappedFrom (c : Choices n) (xs : Fin n → V) (k : ℕ) : Fin n → V :=
  xs ∘ (shuffle c * (swapsBelow c k)⁻¹ : Perm (Fin n))

/-- Another swap. -/
theorem swappedFrom_comp (c : Choices n) (xs : Fin n → V) {k : ℕ} (hk : k < n) :
    swappedFrom c xs (k + 1) ∘ swap ⟨k, hk⟩ (c.at ⟨k, hk⟩) = swappedFrom c xs k := by
  rw [swappedFrom, swappedFrom, Function.comp_assoc, ← Perm.coe_mul, swapsBelow_succ c hk,
    mul_inv_rev, swap_inv, mul_assoc, mul_assoc, swap_mul_self, mul_one]

/-- The state of the loop after `k` rounds. -/
def shuffleStateAt (random : RandomGlobal) (xs : Fin n → V) (k : ℕ) : RandomTableState V :=
  ⟨n - k, k, listCells (swappedFrom (random.choices n) xs (n - k))⟩

theorem randomTableStep_shuffleStateAt (random : RandomGlobal) (xs : Fin n → V) {k : ℕ}
    (hk : k < n) :
    randomTableStep random (shuffleStateAt random xs k) =
      .ok (if k + 1 = n then .inr (shuffleStateAt random xs (k + 1))
        else .inl (shuffleStateAt random xs (k + 1))) := by
  let i : Fin n := ⟨n - (k + 1), by omega⟩
  have hi : ((n : ℤ) - k) = i + 1 := by simp only [i]; omega
  have hcalls : n - 1 - (i : ℕ) = k := by simp only [i]; omega
  have hresult : random.result k 1 (i + 1) = (random.choices n).at i + 1 := by
    rw [← random.result_eq i, hcalls]
  have htb : swappedFrom (random.choices n) xs (n - k) ∘ swap i ((random.choices n).at i) =
      swappedFrom (random.choices n) xs (n - (k + 1)) := by
    rw [show n - k = n - (k + 1) + 1 by omega]
    exact swappedFrom_comp _ xs i.isLt
  have hzero : (i : ℤ) + 1 - 1 = 0 ↔ k + 1 = n := by simp only [i]; omega
  have hdone : (n : ℤ) - (k + 1 : ℕ) = i + 1 - 1 := by simp only [i]; omega
  simp only [randomTableStep, shuffleStateAt, hi, hresult, update_listCells, htb, hzero, hdone]

/-- The loop takes a round for every position. -/
theorem randomTable_counts (random : RandomGlobal) (xs : Fin n → V) (hn : 0 < n) :
    Counts (randomTableStep random) (shuffleStateAt random xs) (n - 1)
      (shuffleStateAt random xs n) where
  next k hk := by
    rw [randomTableStep_shuffleStateAt random xs (by omega), if_neg (by omega)]
  last := by
    rw [randomTableStep_shuffleStateAt random xs (by omega), if_pos (by omega),
      Nat.sub_add_cancel hn]

theorem shuffleStateAt_zero (random : RandomGlobal) (xs : Fin n → V) :
    shuffleStateAt random xs 0 = ⟨n, 0, listCells xs⟩ := by
  have hxs : swappedFrom (random.choices n) xs n = xs := by
    rw [swappedFrom, shuffle, mul_inv_cancel]
    rfl
  rw [shuffleStateAt, Nat.sub_zero, hxs]
  simp

theorem shuffleStateAt_tb (random : RandomGlobal) (xs : Fin n → V) :
    (shuffleStateAt random xs n).tb = listCells (xs ∘ shuffle (random.choices n)) := by
  have hxs : swappedFrom (random.choices n) xs 0 = xs ∘ shuffle (random.choices n) := by
    rw [swappedFrom, swapsBelow, inv_one, mul_one]
  rw [shuffleStateAt, Nat.sub_self, hxs]

/-- `RandomTable` permutes the list by the shuffle of its choices. -/
theorem randomTable_returns (random : RandomGlobal) (xs : Fin n → V) :
    Returns (randomTable random n (listCells xs))
      (.ok (listCells (xs ∘ shuffle (random.choices n)))) := by
  by_cases hn : n ≤ 1
  · have hone : shuffle (random.choices n) = 1 := by
      have : Subsingleton (Fin n) := Fin.subsingleton_iff_le_one.mpr hn
      exact Subsingleton.elim _ _
    rw [randomTable, if_pos hn, hone]
    exact Returns.const _
  · have hreturns := (randomTable_counts random xs (by omega)).returns
    rw [shuffleStateAt_zero] at hreturns
    have h := hreturns.andThen fun st => .ok st.tb
    rw [Except.bind, shuffleStateAt_tb] at h
    rw [randomTable, if_neg hn]
    exact h

/-- `RandomTable` returns with the list permuted, at indices of the list only, and every
permutation comes of one sequence of choices. -/
theorem randomTable_shuffles (n : ℕ) :
    (∀ (V : Type) (random : RandomGlobal) (xs : Fin n → V),
      Returns (randomTable random n (listCells xs))
          (.ok (listCells (xs ∘ shuffle (random.choices n)))) ∧
        (List.ofFn (xs ∘ shuffle (random.choices n))).Perm (List.ofFn xs) ∧
        (1 < n → ∀ st, Visits (randomTableStep random) ⟨n, 0, listCells xs⟩ st →
          (1 ≤ st.i ∧ st.i ≤ n) ∧
            1 ≤ random.result st.calls 1 st.i ∧ random.result st.calls 1 st.i ≤ n)) ∧
      Function.Surjective (fun random : RandomGlobal => random.choices n) ∧
      Fintype.card (Choices n) = n.factorial ∧
      Function.Bijective (fun c : Choices n => shuffle c) := by
  refine ⟨fun V random xs => ⟨randomTable_returns random xs, ?_, fun hn st hst => ?_⟩,
    exists_choices_eq, card_choices, shuffle_bijective⟩
  · exact (shuffle (random.choices n)).ofFn_comp_perm xs
  · rw [← shuffleStateAt_zero random] at hst
    obtain ⟨k, hk, rfl⟩ := (randomTable_counts random xs (by omega)).visits hst
    have hi : 1 ≤ (shuffleStateAt random xs k).i ∧ (shuffleStateAt random xs k).i ≤ n := by
      simp only [shuffleStateAt]
      omega
    have hrange := random.inRange (shuffleStateAt random xs k).calls 1 _ hi.1
    exact ⟨hi, hrange.1, hrange.2.trans hi.2⟩

end UnityLua
