import Mathlib.Algebra.BigOperators.Group.Finset.Piecewise
import Mathlib.Algebra.Order.BigOperators.Group.Finset
import UnityLua.HashTableRehash

/-!
# The sizes of a table that is made again

`rehash` counts the numbers among the keys by powers of two, and takes as size of the array part
the largest power of two of which more than half is in use. What is not in the array part then
is the size of the hash part.

## Main results

* `rehashSizes_spec`: the two sizes.
* `rehash_spec`: the table made again has the same values and room for the new key.
* `rehashSizes_largest`: no larger size of the array part is in use so far.
* `luaH_set_spec`, `rawset_spec`: what an assignment does.
-/

namespace UnityLua

open Library

variable {K V : Type}

/-- The sum of the counts up to the one with the number `i`. -/
def below (i : ℕ) (nums : ℕ → ℕ) : ℕ := ∑ l ∈ Finset.range (i + 1), nums l

theorem below_update (i j c : ℕ) (nums : ℕ → ℕ) :
    below i (Function.update nums j (nums j + c)) = below i nums + if j ≤ i then c else 0 := by
  rw [below, below]
  by_cases hj : j ≤ i
  · have hmem : j ∈ Finset.range (i + 1) := Finset.mem_range.mpr (by omega)
    rw [if_pos hj, Finset.sum_update_of_mem hmem, ← Finset.sum_erase_add _ _ hmem]
    rw [Finset.sdiff_singleton_eq_erase]
    omega
  · rw [if_neg hj, Nat.add_zero]
    refine Finset.sum_congr rfl fun l hl => Function.update_of_ne ?_ ..
    have := Finset.mem_range.mp hl
    omega

theorem length_sliceEntries (i : ℕ) (vs : List (Option V)) :
    (sliceEntries i vs).length = vs.countP Option.isSome := by
  induction vs generalizing i with
  | nil => rfl
  | cons w vs ih => cases w <;> simp [ih]

/-! ### `computesizes` -/

/-- A size for the array part: none, or a power of two of which more than half is in use. -/
def GoodSize (nums : ℕ → ℕ) (n na : ℕ) : Prop :=
  n = 0 ∧ na = 0 ∨ ∃ i, i ≤ MAXBITS ∧ n = 2 ^ i ∧ na = below i nums ∧ 2 ^ i / 2 < na

theorem computesizesFrom_good {m : ℕ → ℕ} {a c i na n : ℕ}
    (hcounts : i + c = MAXBITS + 1) (hgood : GoodSize m n na) :
    GoodSize m (computesizesFrom m a c i (2 ^ i)
        (∑ l ∈ Finset.range i, m l) na n).1
      (computesizesFrom m a c i (2 ^ i) (∑ l ∈ Finset.range i, m l) na n).2 := by
  induction c generalizing i na n with
  | zero => exact hgood
  | succ c ih =>
      rw [computesizesFrom]
      split
      · dsimp only
        have hsum : ∑ l ∈ Finset.range i, m l + m i = below i m :=
          (Finset.sum_range_succ m i).symm
        rw [hsum]
        have hstep : GoodSize m (if 0 < m i ∧ 2 ^ i / 2 < below i m then 2 ^ i else n)
            (if 0 < m i ∧ 2 ^ i / 2 < below i m then below i m else na) := by
          split
          · next hmore => exact Or.inr ⟨i, by omega, rfl, rfl, hmore.2⟩
          · exact hgood
        split
        · exact hstep
        · rw [← pow_succ]
          exact ih (by omega) hstep
      · exact hgood

theorem computesizes_good (nums : ℕ → ℕ) (narray : ℕ) :
    GoodSize nums (computesizes nums narray).1 (computesizes nums narray).2 := by
  have := computesizesFrom_good (m := nums) (a := narray) (c := MAXBITS + 1)
    (i := 0) (Nat.zero_add _) (Or.inl ⟨rfl, rfl⟩)
  exact this

/-- It is the largest such power of two, as there are no more elements than places. -/
theorem computesizesFrom_largest {nums : ℕ → ℕ} {narray : ℕ}
    (hall : ∀ j, j ≤ MAXBITS → below j nums ≤ narray)
    (hplaces : ∀ j, j ≤ MAXBITS → below j nums ≤ 2 ^ j) {counts i na n : ℕ}
    (hcounts : i + counts = MAXBITS + 1)
    (hlargest : ∀ j, j < i → 2 ^ j / 2 < below j nums → 2 ^ j ≤ n) :
    ∀ j, j ≤ MAXBITS → 2 ^ j / 2 < below j nums →
      2 ^ j ≤ (computesizesFrom nums narray counts i (2 ^ i)
        (∑ l ∈ Finset.range i, nums l) na n).1 := by
  have hpow : ∀ {j l}, j ≤ l → 2 ^ j ≤ 2 ^ l := fun h => Nat.pow_le_pow_right (by omega) h
  induction counts generalizing i na n with
  | zero => exact fun j hj => hlargest j (by omega)
  | succ counts ih =>
      rw [computesizesFrom]
      have hsum : ∑ l ∈ Finset.range i, nums l + nums i = below i nums :=
        (Finset.sum_range_succ nums i).symm
      split
      · dsimp only
        rw [hsum]
        have hstep : ∀ j, j < i + 1 → 2 ^ j / 2 < below j nums →
            2 ^ j ≤ if 0 < nums i ∧ 2 ^ i / 2 < below i nums then 2 ^ i else n := by
          intro j hj hhalf
          split
          · exact hpow (Nat.le_of_lt_succ hj)
          · next hmore =>
              refine hlargest j ((Nat.le_of_lt_succ hj).lt_of_ne ?_) hhalf
              rintro rfl
              refine hmore ⟨?_, hhalf⟩
              -- the elements in the slice `j` are those that are not below half of it
              cases j with
              | zero =>
                  rw [Finset.range_zero, Finset.sum_empty, Nat.zero_add] at hsum
                  omega
              | succ j =>
                  have hprev : ∑ l ∈ Finset.range (j + 1), nums l = below j nums := rfl
                  have := hplaces j (by omega)
                  rw [pow_succ] at hhalf
                  omega
        split
        · next hend =>
            intro j hj hhalf
            refine hstep j ?_ hhalf
            by_contra hle
            have hbelow := hall j hj
            have hfit := hplaces i (by omega)
            have := hpow (show i + 1 ≤ j by omega)
            rw [pow_succ] at this
            omega
        · rw [← pow_succ]
          exact ih (by omega) hstep
      · next hstop =>
          intro j hj hhalf
          refine hlargest j ?_ hhalf
          by_contra hle
          have hbelow := hall j hj
          have := hpow (show i ≤ j by omega)
          omega

/-! ### Counting the keys -/

/-- The loop over the slices of the array part, from the slice `lg` and the index `p` on. -/
theorem numusearrayFrom_spec (array : List (Option V)) {r l p b : ℕ} {m : ℕ → ℕ}
    (hslices : l + r = MAXBITS + 1) (hp : p ≤ array.length) (hpow : p ≤ 2 ^ l) :
    (numusearrayFrom array r l (2 ^ l) (p + 1) b m).1 =
        b + (if r = 0 then 0 else ((array.take (2 ^ MAXBITS)).drop p).countP Option.isSome) ∧
      ∀ i, i ≤ MAXBITS →
        below i (numusearrayFrom array r l (2 ^ l) (p + 1) b m).2 = below i m +
          if l ≤ i then ((array.take (2 ^ i)).drop p).countP Option.isSome else 0 := by
  induction r generalizing l p b m with
  | zero =>
      refine ⟨rfl, fun i hi => ?_⟩
      rw [if_neg (by omega), numusearrayFrom, Nat.add_zero]
  | succ r ih =>
      rw [numusearrayFrom]
      split
      · next hbreak =>
          -- the array part ends before this slice
          have hend : ∀ j, (array.take j).drop p = [] := fun j => by
            refine List.drop_eq_nil_of_le ?_
            rw [List.length_take]
            omega
          refine ⟨by simp [hend], fun i _ => by simp [hend]⟩
      · next hgo =>
          dsimp only
          set lim := min (2 ^ l) array.length with hlim
          have hlimle : lim ≤ array.length := Nat.min_le_right _ _
          have hlimpow : lim ≤ 2 ^ (l + 1) :=
            (Nat.min_le_left _ _).trans (Nat.pow_le_pow_right (by omega) (by omega))
          have hplim : p ≤ lim := Nat.le_min.mpr ⟨hpow, hp⟩
          -- what is left of a longer part after the slice
          have hcut : ∀ j, l ≤ j → ((array.take (2 ^ j)).drop p).countP Option.isSome =
              ((array.take lim).drop p).countP Option.isSome +
                ((array.take (2 ^ j)).drop lim).countP Option.isSome := by
            intro j hj
            have hlimj : lim ≤ 2 ^ j :=
              (Nat.min_le_left _ _).trans (Nat.pow_le_pow_right (by omega) hj)
            rw [← List.take_append_drop lim (array.take (2 ^ j)), List.take_take,
              Nat.min_eq_left hlimj, List.drop_append_of_le_length, List.countP_append,
              List.drop_append_of_le_length]
            · congr 2
              rw [List.drop_take_self]
              rfl
            all_goals
              rw [List.length_take]
              omega
          rw [Nat.add_sub_cancel, ← pow_succ]
          obtain ⟨hause, hbelow⟩ := ih (l := l + 1) (p := lim)
            (b := b + ((array.take lim).drop p).countP Option.isSome)
            (m := Function.update m l
              (m l + ((array.take lim).drop p).countP Option.isSome))
            (by omega) hlimle hlimpow
          constructor
          · rw [hause, if_neg (Nat.succ_ne_zero r), hcut MAXBITS (by omega), Nat.add_assoc]
            congr 2
            split
            · next hzero =>
                have hlg : l = MAXBITS := by omega
                rw [List.drop_eq_nil_of_le]
                · rfl
                · rw [List.length_take, hlim, hlg]
            · rfl
          · intro i hi
            rw [hbelow i hi, below_update]
            by_cases hlg : l ≤ i
            · rw [if_pos hlg, if_pos hlg, hcut i hlg, Nat.add_assoc]
              congr 2
              split
              · rfl
              · next hne =>
                  have hlgi : l = i := by omega
                  rw [List.drop_eq_nil_of_le]
                  · rfl
                  · rw [List.length_take, hlim, hlgi]
            · rw [if_neg hlg, if_neg hlg, if_neg (by omega)]

section

variable [TableKey K]

/-- How many of the keys are numbers from 1 to `n`. -/
def numbers (n : ℕ) (keys : List K) : ℕ := keys.countP (inArray n)

theorem inArray_iff_arrayindex {n : ℕ} {key : K} :
    inArray n key = true ↔ 0 < arrayindex key ∧ arrayindex key ≤ n := by
  rw [inArray_iff, arrayindex]
  cases TableKey.toInt key with
  | none => simp
  | some m => simp [Int.lt_iff_add_one_le]

theorem countint_fst (key : K) (nums : ℕ → ℕ) :
    (countint key nums).1 = numbers MAXASIZE [key] := by
  rw [countint, numbers, List.countP_singleton]
  simp only [inArray_iff_arrayindex]
  split <;> rfl

theorem below_countint {i : ℕ} (hi : i ≤ MAXBITS) (key : K) (nums : ℕ → ℕ) :
    below i (countint key nums).2 = below i nums + numbers (2 ^ i) [key] := by
  have hmax : 2 ^ i ≤ MAXASIZE := Nat.pow_le_pow_right (by omega) hi
  rw [countint, numbers, List.countP_singleton]
  simp only [inArray_iff_arrayindex]
  split
  · next hk =>
      rw [below_update]
      refine congrArg _ (if_congr ?_ rfl rfl)
      rw [ceillog2_le_iff (by omega)]
      generalize 2 ^ i = n at *
      omega
  · next hk =>
      rw [if_neg, Nat.add_zero]
      generalize 2 ^ i = n at *
      omega

/-- What `numusehash` counts. -/
theorem numusehash_spec (t : Table K V) (nums : ℕ → ℕ) :
    (numusehash t nums).1 = (nodeEntries t).length ∧
      (numusehash t nums).2.1 = numbers MAXASIZE ((nodeEntries t).map Prod.fst) ∧
      ∀ i, i ≤ MAXBITS → below i (numusehash t nums).2.2 =
        below i nums + numbers (2 ^ i) ((nodeEntries t).map Prod.fst) := by
  rw [numusehash]
  induction nodeEntries t with
  | nil => exact ⟨rfl, rfl, fun i _ => rfl⟩
  | cons e es ih =>
      obtain ⟨hlen, hnum, hbelow⟩ := ih
      have hcons : ∀ n, numbers n ((e :: es).map Prod.fst) =
          numbers n (es.map Prod.fst) + numbers n [e.1] := fun n => by
        simp only [numbers, List.map_cons, List.countP_cons, List.countP_nil, Nat.zero_add]
      refine ⟨?_, ?_, fun i hi => ?_⟩
      · rw [List.foldr_cons, List.length_cons, ← hlen]
      · rw [List.foldr_cons, hcons, ← hnum, ← countint_fst]
      · rw [List.foldr_cons, hcons, ← Nat.add_assoc, ← hbelow i hi]
        exact below_countint hi _ _

variable [LawfulTableKey K] {t : Table K V}

/-- The numbers up to `n` of an array part are its values there. -/
theorem numbers_array (h : t.WellFormed) (n : ℕ) :
    numbers n (((sliceEntries 0 t.array).map (numberEntry (K := K))).map Prod.fst) =
      (t.array.take n).countP Option.isSome := by
  have hint : ∀ {m v}, (m, v) ∈ sliceEntries 0 t.array →
      TableKey.toInt (TableKey.ofInt m : K) = some m ∧ 1 ≤ m := by
    intro m v hm
    obtain ⟨j, hj, rfl⟩ := mem_sliceEntries.mp hm
    have hlt : j < t.sizearray := (List.getElem?_eq_some_iff.mp hj).1
    exact ⟨toInt_of_le h.sizearray_le (by omega) (by omega), by omega⟩
  have hcut : sliceEntries 0 t.array =
      sliceEntries 0 (t.array.take n) ++ sliceEntries (t.array.take n).length (t.array.drop n) := by
    conv_lhs => rw [← List.take_append_drop n t.array, sliceEntries_append, Nat.zero_add]
  have hin : ∀ e ∈ sliceEntries 0 (t.array.take n),
      (inArray n ∘ Prod.fst ∘ numberEntry (K := K)) e = true := by
    rintro ⟨m, v⟩ hm
    obtain ⟨hto, hlo⟩ := hint (hcut ▸ List.mem_append_left _ hm)
    obtain ⟨j, hj, rfl⟩ := mem_sliceEntries.mp hm
    have hlt := (List.getElem?_eq_some_iff.mp hj).1
    rw [List.length_take] at hlt
    exact inArray_iff.mpr ⟨_, hto, hlo, by omega⟩
  have hout : ∀ e ∈ sliceEntries (t.array.take n).length (t.array.drop n),
      ¬(inArray n ∘ Prod.fst ∘ numberEntry (K := K)) e = true := by
    rintro ⟨m, v⟩ hm hmem
    obtain ⟨hto, hlo⟩ := hint (hcut ▸ List.mem_append_right _ hm)
    obtain ⟨m', hm', -, hhi⟩ := inArray_iff.mp hmem
    obtain rfl := Option.some.inj (hto.symm.trans hm')
    obtain ⟨j, hj, rfl⟩ := mem_sliceEntries.mp hm
    have hlt := (List.getElem?_eq_some_iff.mp hj).1
    rw [List.length_drop] at hlt
    rw [List.length_take] at hhi
    omega
  rw [numbers, List.map_map, List.countP_map, hcut, List.countP_append,
    List.countP_eq_length.mpr hin, List.countP_eq_zero.mpr hout, length_sliceEntries, Nat.add_zero]

/-- What `rehash` counts of all keys and the new one. -/
theorem numbers_entries (h : t.WellFormed) (n : ℕ) (ek : K) :
    numbers n (ek :: (entries t).map Prod.fst) =
      (t.array.take n).countP Option.isSome + numbers n ((nodeEntries t).map Prod.fst) +
        numbers n [ek] := by
  rw [← numbers_array h]
  simp only [numbers, entries, List.map_append, List.countP_cons, List.countP_append,
    List.countP_nil, Nat.zero_add]

/-- The counts that `rehash` makes, and the number of keys that could go to the array part. -/
theorem rehash_counts (h : t.WellFormed) (ek : K) :
    (∀ i, i ≤ MAXBITS →
      below i (countint ek (numusehash t (numusearray t fun _ => 0).2).2.2).2 =
        numbers (2 ^ i) (ek :: (entries t).map Prod.fst)) ∧
      (numusearray t fun _ => 0).1 + (numusehash t (numusearray t fun _ => 0).2).2.1 +
        (countint ek (numusehash t (numusearray t fun _ => 0).2).2.2).1 =
          numbers MAXASIZE (ek :: (entries t).map Prod.fst) ∧
      (numusearray t fun _ => 0).1 + (numusehash t (numusearray t fun _ => 0).2).1 =
        (entries t).length := by
  obtain ⟨hause, habelow⟩ := numusearrayFrom_spec t.array (r := MAXBITS + 1) (l := 0)
    (p := 0) (b := 0) (m := fun _ => 0) (Nat.zero_add _) (Nat.zero_le _) (Nat.zero_le _)
  rw [pow_zero, Nat.zero_add] at hause
  simp only [pow_zero, Nat.zero_add] at habelow
  rw [if_neg (Nat.succ_ne_zero _), Nat.zero_add, List.drop_zero] at hause
  obtain ⟨hlen, hnum, hhbelow⟩ := numusehash_spec t (numusearray t fun _ => 0).2
  have hzero : ∀ i, below i (fun _ => 0) = 0 := fun i => by simp [below]
  refine ⟨fun i hi => ?_, ?_, ?_⟩
  · rw [below_countint hi, hhbelow i hi, numbers_entries h, numusearray, habelow i hi,
      if_pos (Nat.zero_le i), hzero, Nat.zero_add, List.drop_zero]
  · rw [numbers_entries h, countint_fst, hnum, numusearray, hause, MAXASIZE]
  · have htake : t.array.take (2 ^ MAXBITS) = t.array := List.take_of_length_le h.sizearray_le
    rw [hlen, numusearray, hause, htake, entries, List.length_append, List.length_map,
      length_sliceEntries]

/-- **The sizes.** The array part has no room, or more than half of it is in use; the hash part
has room for exactly the other keys. -/
theorem rehashSizes_spec (h : t.WellFormed) (ek : K) :
    ((rehashSizes t ek).1 = 0 ∨ ∃ i, i ≤ MAXBITS ∧ (rehashSizes t ek).1 = 2 ^ i ∧
        2 ^ i / 2 < numbers (2 ^ i) (ek :: (entries t).map Prod.fst)) ∧
      (rehashSizes t ek).2 +
        numbers (rehashSizes t ek).1 (ek :: (entries t).map Prod.fst) =
          (entries t).length + 1 := by
  obtain ⟨hbelow, -, htotal⟩ := rehash_counts h ek
  have hgood := computesizes_good
    (countint ek (numusehash t (numusearray t fun _ => 0).2).2.2).2
    ((numusearray t fun _ => 0).1 + (numusehash t (numusearray t fun _ => 0).2).2.1 +
      (countint ek (numusehash t (numusearray t fun _ => 0).2).2.2).1)
  have hle : ∀ n, numbers n (ek :: (entries t).map Prod.fst) ≤ (entries t).length + 1 := fun n =>
    List.countP_le_length.trans_eq (by rw [List.length_cons, List.length_map])
  have hnone : numbers 0 (ek :: (entries t).map Prod.fst) = 0 := by
    rw [numbers, List.countP_eq_zero]
    intro k _ hk
    obtain ⟨m, -, hlo, hhi⟩ := inArray_iff.mp hk
    omega
  rw [rehashSizes]
  dsimp only
  obtain ⟨hn, hna⟩ | ⟨i, hi, hn, hna, hhalf⟩ := hgood
  · rw [hn, hna, hnone, htotal]
    exact ⟨Or.inl rfl, rfl⟩
  · rw [hn, hna, hbelow i hi, htotal]
    exact ⟨Or.inr ⟨i, hi, rfl, by rw [← hbelow i hi, ← hna]; exact hhalf⟩,
      Nat.sub_add_cancel (hle _)⟩

omit [LawfulTableKey K] in
theorem numbers_mono {n m : ℕ} (h : n ≤ m) (keys : List K) : numbers n keys ≤ numbers m keys := by
  refine List.countP_mono_left fun k _ hk => ?_
  obtain ⟨i, hi, hlo, hhi⟩ := inArray_iff.mp hk
  exact inArray_iff.mpr ⟨i, hi, hlo, by omega⟩

/-- Of distinct keys no more than `n` are numbers from 1 to `n`. -/
theorem numbers_le {keys : List K} (hdist : keys.Pairwise fun k k' => (k == k') = false) (n : ℕ) :
    numbers n keys ≤ n := by
  have hnodup : ((keys.filter (inArray n)).map fun k => (arrayindex k).toNat - 1).Nodup := by
    rw [List.Nodup, List.pairwise_map]
    refine (hdist.filter _).imp_of_mem fun {k k'} hk hk' hne heq => ?_
    obtain ⟨m, hm, hlo, -⟩ := inArray_iff.mp (List.of_mem_filter hk)
    obtain ⟨m', hm', hlo', -⟩ := inArray_iff.mp (List.of_mem_filter hk')
    rw [arrayindex, hm, arrayindex, hm', Option.getD_some, Option.getD_some] at heq
    obtain rfl : m = m' := by omega
    have hkk : (k == k') = true := BEq.trans
      (BEq.symm (LawfulTableKey.toInt_eq_some.mp hm).2.2) (LawfulTableKey.toInt_eq_some.mp hm').2.2
    rw [hne] at hkk
    cases hkk
  have hsub : ((keys.filter (inArray n)).map fun k => (arrayindex k).toNat - 1) ⊆ List.range n := by
    intro p hp
    obtain ⟨k, hk, rfl⟩ := List.mem_map.mp hp
    have := inArray_iff_arrayindex.mp (List.of_mem_filter hk)
    exact List.mem_range.mpr (by omega)
  have hle := (hnodup.subperm hsub).length_le
  rwa [List.length_map, List.length_range, ← List.countP_eq_length_filter] at hle

/-- **The largest size.** More than half of no larger power of two is in use. -/
theorem rehashSizes_largest (h : t.WellFormed) {ek : K} (habs : luaH_get t ek = none) {i : ℕ}
    (hi : i ≤ MAXBITS) (hhalf : 2 ^ i / 2 < numbers (2 ^ i) (ek :: (entries t).map Prod.fst)) :
    2 ^ i ≤ (rehashSizes t ek).1 := by
  obtain ⟨hbelow, hnarray, -⟩ := rehash_counts h ek
  have hdist : (ek :: (entries t).map Prod.fst).Pairwise fun k k' => (k == k') = false := by
    refine List.pairwise_cons.mpr ⟨fun k hk => ?_, List.pairwise_map.mpr (entries_distinct h)⟩
    obtain ⟨⟨k', v⟩, he, rfl⟩ := List.mem_map.mp hk
    by_contra heq
    have hv := (rawget_eq_some_iff_mem h).mpr ⟨k', he, BEq.symm (Bool.not_eq_false _ ▸ heq)⟩
    rw [rawget, habs] at hv
    cases hv
  rw [← hbelow i hi] at hhalf
  rw [rehashSizes]
  refine computesizesFrom_largest (i := 0) (fun j hj => ?_) (fun j hj => ?_) (Nat.zero_add _)
    (fun j hj => absurd hj (Nat.not_lt_zero j)) i hi hhalf
  · rw [hbelow j hj, hnarray]
    exact numbers_mono (Nat.pow_le_pow_right (by omega) hj) _
  · rw [hbelow j hj]
    exact numbers_le hdist _

/-! ### `rehash` and `luaH_set` -/

variable {key : K}

omit [LawfulTableKey K] in
theorem outsideArray_add_numbers (n : ℕ) (es : List (K × V)) :
    outsideArray n es + numbers n (es.map Prod.fst) = es.length := by
  rw [outsideArray, numbers, List.countP_map, List.length_eq_countP_add_countP
    (inArray n ∘ Prod.fst) (l := es), Nat.add_comm]
  refine congrArg _ (List.countP_congr fun e _ => ?_)
  simp

/-- What `rehash` makes of a table. -/
structure Table.Rehashed (t : Table K V) (key : K) (t' : Table K V) : Prop where
  wf : t'.WellFormed
  rawget : ∀ k, rawget t' k = rawget t k
  sizearray : t'.sizearray = (rehashSizes t key).1
  dummy : t'.dummy = true ↔ (rehashSizes t key).2 = 0
  lsizenode : t'.lsizenode =
    if (rehashSizes t key).2 = 0 then 0 else ceillog2 (rehashSizes t key).2
  room : inArray t'.sizearray key = true ∨ t'.dummy = false ∧ 0 < t'.freeNodes

/-- **A table that is made again** has the same values and room for the new key. -/
theorem rehash_spec (h : t.WellFormed) (key : K)
    (rehash : Table K V → K → Except String (Table K V × NodeSlot)) :
    rehashWith (newkeyWith rehash) t key = .error "table overflow" ∨
    ∃ t', rehashWith (newkeyWith rehash) t key = .ok t' ∧ t.Rehashed key t' := by
  obtain ⟨hsize, hcount⟩ := rehashSizes_spec h key
  rw [rehashWith]
  set n := (rehashSizes t key).1 with hn'
  set m := (rehashSizes t key).2 with hm'
  have hn : n ≤ MAXASIZE := by
    obtain hn | ⟨i, hi, hn, -⟩ := hsize
    · rw [hn]
      exact Nat.zero_le _
    · rw [hn]
      exact Nat.pow_le_pow_right (by omega) hi
  have hcons : numbers n (key :: (entries t).map Prod.fst) =
      numbers n ((entries t).map Prod.fst) + if inArray n key then 1 else 0 := by
    rw [numbers, List.countP_cons, numbers]
  have hout := outsideArray_add_numbers n (entries t)
  have hroom : outsideArray n (entries t) ≤ m := by
    rw [hcons] at hcount
    split at hcount <;> omega
  obtain herr | ⟨t', hok, hwf, hget, harr, hdummy, hlsize, hfree⟩ := resize_spec h hn hroom rehash
  · exact Or.inl herr
  · refine Or.inr ⟨t', hok, hwf, hget, harr, hdummy, hlsize, ?_⟩
    rw [harr]
    cases hin : inArray n key with
    | true => exact Or.inl rfl
    | false =>
        rw [hcons, hin, if_neg Bool.false_ne_true] at hcount
        refine Or.inr ⟨?_, by omega⟩
        by_contra hd
        have := hdummy.mp (Bool.not_eq_false _ ▸ hd)
        omega

/-- **`luaH_set`**, with two levels of calls: the key gets a slot, no value changes, and the only
failure for a key that is equal to itself is a table that is too large. -/
theorem luaH_set_spec (h : t.WellFormed) (hkey : (key == key) = true) (calls : ℕ) :
    luaH_set (calls + 2) t (some key) = .error "table overflow" ∨
    ∃ t' s, luaH_set (calls + 2) t (some key) = .ok (t', s) ∧ t'.WellFormed ∧
      luaH_get t' key = some s ∧ ∀ k, rawget t' k = rawget t k := by
  rw [luaH_set, luaH_setWith]
  cases hs : luaH_get t key with
  | some s => exact Or.inr ⟨t, s, rfl, h, hs, fun _ => rfl⟩
  | none =>
      have habs := h.luaH_get_eq_none.mp hs
      simp only [hkey, if_true]
      obtain ⟨t', i, heq, hins⟩ | ⟨-, heq, hwf⟩ := h.newkeyWith_cases hkey habs
        (fun t key => do
          let t ← rehashWith (newkey (calls + 1)) t key
          luaH_setWith (newkey (calls + 1)) t key)
      · have hfound := hins.found h hkey habs
        exact Or.inr ⟨t', _, heq, hfound.wf, hfound.slot, hfound.rawget⟩
      · have hget : ∀ k, rawget { t with lastfree := 0 } k = rawget t k := fun k => rfl
        rw [newkey, heq]
        obtain herr | ⟨t₁, hok, hre⟩ := rehash_spec hwf key
          (fun t key => do
            let t ← rehashWith (newkey calls) t key
            luaH_setWith (newkey calls) t key)
        · left
          change (rehashWith (newkeyWith _) _ key).bind _ = _
          rw [herr]
          rfl
        · obtain ⟨t', s, heq', hfound⟩ := set_found hre.wf hkey hre.room
            (fun t key => do
              let t ← rehashWith (newkey calls) t key
              luaH_setWith (newkey calls) t key)
          refine Or.inr ⟨t', s, ?_, hfound.wf, hfound.slot, fun k => ?_⟩
          · change (rehashWith (newkeyWith _) _ key).bind _ = _
            rw [hok]
            exact heq'
          · rw [hfound.rawget, hre.rawget, hget]

/-- **An assignment** changes the value of its key and no other. -/
theorem rawset_spec (h : t.WellFormed) (calls : ℕ) (key : Option K) (v : Option V) :
    (∃ msg, rawset (calls + 2) t key v = .error msg ∧
      (msg = "table overflow" ∨ msg = "table index is nil" ∧ key = none ∨
        msg = "table index is NaN" ∧ ∃ k, key = some k ∧ (k == k) = false)) ∨
    ∃ t' k, rawset (calls + 2) t key v = .ok t' ∧ t'.WellFormed ∧ key = some k ∧
      (k == k) = true ∧ ∀ k', rawget t' k' = if k == k' then v else rawget t k' := by
  cases key with
  | none => exact Or.inl ⟨_, rfl, Or.inr (Or.inl ⟨rfl, rfl⟩)⟩
  | some key =>
      cases hkey : key == key with
      | false =>
          left
          have hnone : luaH_get t key = none := by
            rw [h.luaH_get_eq_none]
            refine ⟨fun i k hk => ?_, fun m hm _ => ?_⟩
            · by_contra heq
              have hkk := Bool.not_eq_false _ ▸ heq
              rw [BEq.trans (BEq.symm hkk) hkk] at hkey
              cases hkey
            · have hkk := (LawfulTableKey.toInt_eq_some.mp hm).2.2
              rw [BEq.trans (BEq.symm hkk) hkk] at hkey
              cases hkey
          refine ⟨_, ?_, Or.inr (Or.inr ⟨rfl, key, rfl, hkey⟩)⟩
          rw [rawset, luaH_set, luaH_setWith, hnone]
          simp only [hkey]
          rfl
      | true =>
          obtain herr | ⟨t', s, hok, hwf, hslot, hget⟩ := luaH_set_spec h hkey calls
          · left
            refine ⟨_, ?_, Or.inl rfl⟩
            rw [rawset, herr]
            rfl
          · right
            refine ⟨t'.put s v, key, ?_, hwf.put hslot v, rfl, hkey, fun k' => ?_⟩
            · rw [rawset, hok]
              rfl
            · rw [hwf.rawget_put hslot, hget]

end

end UnityLua
