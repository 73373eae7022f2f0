import UnityLua.HashTableTraversal

/-!
# The length of a table

`#t` is a border: an index with a value, or 0, before an index without one. It is looked for in
the array part, and else in the hash part by doubling an index and then halving the interval;
where doubling leads beyond an `int`, index by index.

## Main results

* `luaH_getn_border`: `luaH_getn` answers a border.
* `getn_run`: it does so after every run, and for a list it is the length of the list.
-/

namespace UnityLua

open Library

/-! ### Searches -/

/-- An index with a value, or 0, before one without a value. -/
def Border (present : ℕ → Bool) (n : ℕ) : Prop := (n = 0 ∨ present n = true) ∧ present (n + 1) = false

theorem bisect_border {p : ℕ → Bool} {n i j : ℕ} (hfuel : j - i ≤ n) (hij : i < j)
    (hi : i = 0 ∨ p i = true) (hj : p j = false) :
    Border p (bisect p n i j) ∧ bisect p n i j < j := by
  induction n generalizing i j with
  | zero => omega
  | succ n ih =>
      rw [bisect]
      split
      · next hgap =>
          dsimp only
          split
          · next hm => exact ih (by omega) (by omega) (Or.inr hm) hj
          · next hm =>
              obtain ⟨hborder, hlt⟩ := ih (j := (i + j) / 2) (i := i) (by omega) (by omega) hi
                (Bool.eq_false_of_not_eq_true hm)
              exact ⟨hborder, by omega⟩
      · next hgap =>
          obtain rfl : j = i + 1 := by omega
          exact ⟨⟨hi, hj⟩, hij⟩

/-- Linear search stops before an index without a value that there is. -/
theorem linear_border {present : ℕ → Bool} {fuel i n : ℕ} (hi : 0 < i)
    (hbefore : i = 1 ∨ present (i - 1) = true) (hin : i ≤ n) (hn : n < i + fuel)
    (hfree : present n = false) :
    Border present (linear present fuel i - 1) ∧ linear present fuel i ≤ n := by
  induction fuel generalizing i with
  | zero => omega
  | succ fuel ih =>
      rw [linear]
      split
      · next hpresent =>
          have hne : i ≠ n := by
            rintro rfl
            rw [hpresent] at hfree
            cases hfree
          exact ih (by omega) (Or.inr hpresent) (by omega) (by omega)
      · next hpresent =>
          have hsucc : i - 1 + 1 = i := by omega
          refine ⟨⟨?_, by rw [hsucc]; exact Bool.eq_false_of_not_eq_true hpresent⟩, hin⟩
          obtain rfl | hbefore := hbefore
          · exact Or.inl rfl
          · exact Or.inr hbefore

theorem doubling_border {present : ℕ → Bool} {fuel doublings i j n : ℕ} (hij : i < j)
    (hj : j < 2 ^ 31) (henough : 2 ^ 31 ≤ j * 2 ^ doublings) (hi : i = 0 ∨ present i = true)
    (hn : 1 ≤ n) (hlt : n < 1 + fuel) (hsmall : n < 2 ^ 31) (hfree : present n = false) :
    Border present (doubling present fuel doublings i j) ∧
      doubling present fuel doublings i j < 2 ^ 31 - 1 := by
  induction doublings generalizing i j with
  | zero => omega
  | succ doublings ih =>
      rw [doubling]
      split
      · next hpresent =>
          split
          · obtain ⟨hborder, hle⟩ := linear_border Nat.one_pos (Or.inl rfl) hn hlt hfree
            exact ⟨hborder, by omega⟩
          · next hmax =>
              refine ih (by omega) (by omega) ?_ (Or.inr hpresent)
              calc 2 ^ 31 ≤ j * 2 ^ (doublings + 1) := henough
                _ = j * 2 * 2 ^ doublings := by rw [pow_succ', mul_assoc]
      · next hpresent =>
          obtain ⟨hborder, hltj⟩ := bisect_border le_rfl hij hi (Bool.eq_false_of_not_eq_true hpresent)
          exact ⟨hborder, by omega⟩

/-! ### Borders of tables -/

variable {K V : Type} [TableKey K] [LawfulTableKey K] {t : Table K V}

/-- An index has a value when its number has one. -/
theorem hasInt_eq {m : ℕ} (hm : m < 2 ^ 31) :
    hasInt t m = (rawget t (TableKey.ofInt m)).isSome := by
  rw [hasInt, rawget, luaH_get, toInt_ofInt (by omega) (by exact_mod_cast hm)]

/-- Not all of the first indices have values: they have different places. -/
theorem exists_hasInt_eq_false (h : t.WellFormed) :
    ∃ n, 1 ≤ n ∧ n < 1 + (t.sizearray + t.sizenode + 1) ∧ hasInt t n = false := by
  have hsmall : t.sizearray + t.sizenode + 1 < 2 ^ 31 := by
    have harray := h.sizearray_le
    have hnode : t.sizenode ≤ 2 ^ MAXBITS := Nat.pow_le_pow_right (by omega) h.lsizenode_le
    simp only [MAXASIZE, MAXBITS] at harray hnode
    omega
  by_contra hall
  have hplace : ∀ n, ∃ q, n < t.sizearray + t.sizenode + 1 → q < t.sizearray + t.sizenode ∧
      ∃ k, HasPlace t k q ∧ (k == TableKey.ofInt ((n + 1 : ℕ) : ℤ)) = true := by
    intro n
    by_cases hn : n < t.sizearray + t.sizenode + 1
    · have hint : hasInt t (n + 1) = true := by
        by_contra hfalse
        exact hall ⟨n + 1, by omega, by omega, Bool.eq_false_of_not_eq_true hfalse⟩
      rw [hasInt_eq (by omega)] at hint
      obtain ⟨v, hv⟩ := Option.isSome_iff_exists.mp hint
      obtain ⟨q, k, hq, hentry, hk⟩ := (rawget_eq_some_iff_entryAt h).mp hv
      exact ⟨q, fun _ => ⟨hq, k, hasPlace_of_entryAt hentry, hk⟩⟩
    · exact ⟨0, fun h => absurd h hn⟩
  choose place hplace using hplace
  obtain ⟨n, hn, m, hm, hne, heq⟩ := Finset.exists_ne_map_eq_of_card_lt_of_maps_to
    (s := Finset.range (t.sizearray + t.sizenode + 1))
    (t := Finset.range (t.sizearray + t.sizenode)) (f := place) (by simp)
    fun n hn => Finset.mem_coe.mpr (Finset.mem_range.mpr
      (hplace n (Finset.mem_range.mp (Finset.mem_coe.mp hn))).1)
  rw [Finset.mem_range] at hn hm
  obtain ⟨-, k, hk, hkn⟩ := hplace n hn
  obtain ⟨-, k', hk', hkm⟩ := hplace m hm
  have hkk : k = k' := (heq ▸ hk).unique hk'
  have hint : (TableKey.ofInt ((n + 1 : ℕ) : ℤ) : K) == TableKey.ofInt ((m + 1 : ℕ) : ℤ) :=
    BEq.trans (BEq.symm hkn) (hkk ▸ hkm)
  have hnm := toInt_congr hint
  rw [toInt_ofInt (by omega) (by omega), toInt_ofInt (by omega) (by omega)] at hnm
  have := Option.some.inj hnm
  omega

theorem luaH_getn_border (h : t.WellFormed) :
    Border (hasInt t) (luaH_getn t) ∧ luaH_getn t < 2 ^ 31 - 1 := by
  have harray : t.sizearray ≤ 2 ^ 26 := h.sizearray_le
  have hslot : ∀ m, 1 ≤ m → m ≤ t.sizearray → hasInt t m = (t.get (.array (m - 1))).isSome := by
    intro m hlo hhi
    rw [hasInt, luaH_getnum, if_pos (by omega), Option.bind_some]
    congr 3
    omega
  rw [luaH_getn]
  split
  · next hlast =>
      obtain ⟨⟨hn, hfree⟩, hlt⟩ := bisect_border
        (p := fun m => (t.get (.array (m - 1))).isSome) (n := t.sizearray) (i := 0)
        (Nat.sub_le _ _) hlast.1 (Or.inl rfl) (by simpa using hlast.2)
      refine ⟨⟨?_, (hslot _ (by omega) (by omega)).trans hfree⟩, by omega⟩
      obtain hn | hn := hn
      · exact Or.inl hn
      · exact or_iff_not_imp_left.mpr fun hne => (hslot _ (by omega) (by omega)).trans hn
  · next hlast =>
      have hj : t.sizearray = 0 ∨ hasInt t t.sizearray = true := by
        refine or_iff_not_imp_left.mpr fun hne => ?_
        rw [hslot _ (by omega) le_rfl, ← Option.not_isNone, Bool.not_eq_true']
        exact Bool.eq_false_of_not_eq_true fun hnone => hlast ⟨by omega, hnone⟩
      obtain ⟨n, hn, hlt, hfree⟩ := exists_hasInt_eq_false h
      have hnode : t.sizenode ≤ 2 ^ 26 := Nat.pow_le_pow_right (by omega) h.lsizenode_le
      split
      · next hdummy =>
          refine ⟨⟨hj, ?_⟩, by omega⟩
          rw [hasInt_eq (by omega), Option.isSome_eq_false_iff, Option.isNone_iff_eq_none]
          by_contra hsome
          obtain ⟨v, hv⟩ := Option.ne_none_iff_exists'.mp hsome
          obtain ⟨m, hm, -, hle, -⟩ | ⟨i, k, hi, -⟩ := h.rawget_eq_some.mp hv
          · rw [toInt_ofInt (by omega) (by omega)] at hm
            have := Option.some.inj hm
            omega
          · rw [h.node_of_dummy hdummy] at hi
            cases hi
      · exact doubling_border (Nat.lt_succ_self _) (by omega) (by omega) hj hn hlt (by omega) hfree

/-- **The length is a border.** After every run, `#t` is 0 or an index with a value, and the
index after it has none; when the indices with values are those from 1 to `n` it is `n`. -/
theorem getn_run {narray nhash : ℕ} (hna : narray ≤ MAXASIZE) {t₀ : Table K V}
    (hnew : luaH_new narray nhash = .ok t₀) {ops : List (TableOp K V)}
    (hrun : run tableStep t₀ ops = some t) :
    (luaH_getn t = 0 ∨ rawget t (TableKey.ofInt (luaH_getn t)) ≠ none) ∧
      rawget t (TableKey.ofInt (luaH_getn t + 1)) = none ∧
      ∀ n : ℕ, (∀ m : ℕ, 1 ≤ m → m < 2 ^ 31 →
        (rawget t (TableKey.ofInt m) ≠ none ↔ m ≤ n)) → luaH_getn t = n := by
  have h := run_wellFormed (luaH_new_wellFormed hna hnew).1 hrun
  obtain ⟨⟨hn, hfree⟩, hlt⟩ := luaH_getn_border h
  rw [hasInt_eq (Nat.add_lt_of_lt_sub hlt)] at hfree
  have hfree' : rawget t (TableKey.ofInt ((luaH_getn t + 1 : ℕ) : ℤ)) = none := by
    simpa using hfree
  have hn' : luaH_getn t = 0 ∨ rawget t (TableKey.ofInt (luaH_getn t)) ≠ none := by
    refine hn.imp_right fun hn => ?_
    rw [hasInt_eq (hlt.trans_le (Nat.sub_le _ _))] at hn
    exact Option.isSome_iff_ne_none.mp hn
  refine ⟨hn', by exact_mod_cast hfree', fun n hlist => ?_⟩
  have hnot := (hlist (luaH_getn t + 1) (by omega) (by omega)).not.mp fun hne => hne hfree'
  obtain hzero | hpos := Nat.eq_zero_or_pos (luaH_getn t)
  · omega
  · have hle := (hlist (luaH_getn t) hpos (by omega)).mp (hn'.resolve_left (by omega))
    omega

theorem getn_run_flag : ∃ t₀ t : Table LuaKey ℕ, luaH_new 3 0 = .ok t₀ ∧
    run tableStep t₀ [.assign (some (.boolean true)) (some 1)] = some t ∧
    rawget t (TableKey.ofInt (luaH_getn t + 1)) = none := by
  obtain ⟨t₀, hnew, t, hrun⟩ : ∃ t₀ : Table LuaKey ℕ, luaH_new 3 0 = .ok t₀ ∧ ∃ t,
      run tableStep t₀ [.assign (some (.boolean true)) (some 1)] = some t := ⟨_, rfl, _, rfl⟩
  exact ⟨t₀, t, hnew, hrun, (getn_run (by decide) hnew hrun).2.1⟩

end UnityLua
