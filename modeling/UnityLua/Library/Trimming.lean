import Mathlib.Data.List.DropRight
import Mathlib.Data.List.TakeWhile

/-!
# Trimming

A list without its longest prefix and suffix of one element, and where the other elements of the
list begin and end.

## Main results

* `trim_eq_take_drop`: what is left, by the positions of the first and the last other element.
* `countP_trim`: nothing is taken away but the element.
* `trim_trim`: trimming twice is trimming once.
-/

namespace Library

variable {α : Type} {c : α} {s : List α} {L : ℕ}

/-- From a position on there is nothing but `c`. -/
def OnlyFrom (c : α) (s : List α) (i : ℕ) : Prop := ∀ j x, i ≤ j → s[j]? = some x → x = c

theorem OnlyFrom.mono {i j : ℕ} (h : OnlyFrom c s i) (hij : i ≤ j) : OnlyFrom c s j :=
  fun k x hk hx => h k x (hij.trans hk) hx

/-- The position of the last element that is not `c`. -/
structure LastOther (c : α) (s : List α) (L : ℕ) : Prop where
  other : ∃ x, s[L]? = some x ∧ x ≠ c
  after : OnlyFrom c s (L + 1)

theorem LastOther.lt (h : LastOther c s L) : L < s.length := by
  obtain ⟨x, hx, -⟩ := h.other
  exact (List.getElem?_eq_some_iff.mp hx).1

/-- A list has other elements or none. -/
theorem onlyFrom_zero_or_lastOther (c : α) (s : List α) :
    OnlyFrom c s 0 ∨ ∃ L, LastOther c s L := by
  induction s using List.reverseRecOn with
  | nil => exact Or.inl fun j x _ hx => absurd hx (by simp)
  | append_singleton s a ih =>
      have hget : ∀ {j : ℕ} {x : α}, (s ++ [a])[j]? = some x → s[j]? = some x ∨ x = a := by
        intro j x hx
        rcases Nat.lt_or_ge j s.length with hj | hj
        · exact Or.inl (List.getElem?_append_left hj ▸ hx)
        · have hmem := List.mem_of_getElem? (List.getElem?_append_right hj ▸ hx)
          exact Or.inr (List.mem_singleton.mp hmem)
      by_cases ha : a = c
      · have honly : ∀ i, OnlyFrom c s i → OnlyFrom c (s ++ [a]) i := by
          intro i h j x hj hx
          rcases hget hx with hs | rfl
          · exact h j x hj hs
          · exact ha
        refine ih.imp (honly 0) ?_
        rintro ⟨L, hL⟩
        refine ⟨L, ?_, honly _ hL.after⟩
        rw [List.getElem?_append_left hL.lt]
        exact hL.other
      · refine Or.inr ⟨s.length, ⟨a, by simp, ha⟩, fun j x hj hx => ?_⟩
        have := (List.getElem?_eq_some_iff.mp hx).1
        simp only [List.length_append, List.length_singleton] at this
        omega

theorem onlyFrom_zero_iff : OnlyFrom c s 0 ↔ ∀ x ∈ s, x = c := by
  constructor
  · intro h x hx
    obtain ⟨j, hj⟩ := List.getElem?_of_mem hx
    exact h j x (Nat.zero_le j) hj
  · exact fun h j x _ hx => h x (List.mem_of_getElem? hx)

variable [DecidableEq α]

/-- Without the longest prefix and suffix that consist of `c`. -/
def trim (c : α) (s : List α) : List α := (s.dropWhile (· = c)).rdropWhile (· = c)

/-- How many elements `c` a list begins with. -/
def leading (c : α) (s : List α) : ℕ := (s.takeWhile (· = c)).length

theorem drop_leading (c : α) (s : List α) : s.drop (leading c s) = s.dropWhile (· = c) := by
  have h : s.takeWhile (· = c) ++ s.dropWhile (· = c) = s := List.takeWhile_append_dropWhile
  calc s.drop (leading c s)
      = (s.takeWhile (· = c) ++ s.dropWhile (· = c)).drop (s.takeWhile (· = c)).length :=
        congrArg (List.drop _) h.symm
    _ = s.dropWhile (· = c) := List.drop_left

theorem trim_eq_nil_iff : trim c s = [] ↔ ∀ x ∈ s, x = c := by
  rw [trim, List.rdropWhile_eq_nil_iff]
  constructor
  · intro h
    have hnil : s.dropWhile (· = c) = [] := by
      by_contra hne
      have hhead := List.head_dropWhile_not (fun x => decide (x = c)) hne
      exact Bool.false_ne_true (hhead ▸ h _ (List.head_mem hne))
    simpa using List.dropWhile_eq_nil_iff.mp hnil
  · intro h
    rw [List.dropWhile_eq_nil_iff.mpr (by simpa using h)]
    simp

/-- The elements `c` at the beginning end before the last other element. -/
theorem LastOther.leading_le (h : LastOther c s L) : leading c s ≤ L := by
  obtain ⟨x, hx, hne⟩ := h.other
  by_contra hlt
  have hlt' : L < (s.takeWhile (· = c)).length := by
    rw [leading] at hlt
    omega
  have hget := (List.takeWhile_prefix (fun x => decide (x = c)) (l := s)).getElem hlt'
  have hmem := List.mem_takeWhile_imp (List.getElem_mem hlt')
  rw [hget, (List.getElem?_eq_some_iff.mp hx).2] at hmem
  exact hne (of_decide_eq_true hmem)

/-- Up to the last other element. -/
theorem rdropWhile_eq_take (h : LastOther c s L) : s.rdropWhile (· = c) = s.take (L + 1) := by
  have hall : ∀ t u : List α, (∀ x ∈ u, x = c) →
      (t ++ u).rdropWhile (· = c) = t.rdropWhile (· = c) := by
    intro t u hu
    induction u using List.reverseRecOn with
    | nil => rw [List.append_nil]
    | append_singleton u a ih =>
        have ha : a = c := hu a (by simp)
        rw [← List.append_assoc, List.rdropWhile_concat_pos (fun x => decide (x = c)) _ _
          (decide_eq_true ha)]
        exact ih fun x hx => hu x (List.mem_append_left _ hx)
  obtain ⟨x, hx, hne⟩ := h.other
  obtain ⟨hlt, hget⟩ := List.getElem?_eq_some_iff.mp hx
  have hafter : ∀ y ∈ s.drop (L + 1), y = c := by
    intro y hy
    obtain ⟨j, hj⟩ := List.getElem?_of_mem hy
    rw [List.getElem?_drop] at hj
    exact h.after _ y (Nat.le_add_right _ _) hj
  conv_lhs => rw [← List.take_append_drop (L + 1) s]
  rw [hall _ _ hafter, List.take_succ_eq_append_getElem hlt, hget]
  exact List.rdropWhile_concat_neg _ _ _ (by simpa using hne)

/-- What is left is from the first to the last other element. -/
theorem trim_eq_take_drop (h : LastOther c s L) :
    trim c s = (s.drop (leading c s)).take (L + 1 - leading c s) := by
  have hle := h.leading_le
  have hdrop : LastOther c (s.drop (leading c s)) (L - leading c s) := by
    obtain ⟨x, hx, hne⟩ := h.other
    refine ⟨⟨x, ?_, hne⟩, fun j y hj hy => ?_⟩
    · rw [List.getElem?_drop, Nat.add_sub_cancel' hle, hx]
    · rw [List.getElem?_drop] at hy
      exact h.after _ y (by omega) hy
  rw [trim, ← drop_leading, rdropWhile_eq_take hdrop]
  congr 1
  omega

theorem take_leading (c : α) (s : List α) : s.take (leading c s) = s.takeWhile (· = c) := by
  have h : s.takeWhile (· = c) ++ s.dropWhile (· = c) = s := List.takeWhile_append_dropWhile
  calc s.take (leading c s)
      = (s.takeWhile (· = c) ++ s.dropWhile (· = c)).take (s.takeWhile (· = c)).length :=
        congrArg (List.take _) h.symm
    _ = s.takeWhile (· = c) := List.take_left

/-- The last other element is the only one exactly if nothing but `c` is before it. -/
theorem LastOther.leading_eq_iff (h : LastOther c s L) :
    leading c s = L ↔ s.countP (· ≠ c) ≤ 1 := by
  obtain ⟨x, hx, hne⟩ := h.other
  obtain ⟨hlt, hget⟩ := List.getElem?_eq_some_iff.mp hx
  have hafter : ∀ y ∈ s.drop (L + 1), y = c := by
    intro y hy
    obtain ⟨j, hj⟩ := List.getElem?_of_mem hy
    rw [List.getElem?_drop] at hj
    exact h.after _ y (Nat.le_add_right _ _) hj
  have hcount : s.countP (· ≠ c) = (s.take L).countP (· ≠ c) + 1 := by
    conv_lhs => rw [← List.take_append_drop L s, List.drop_eq_getElem_cons hlt, hget]
    have hzero : (s.drop (L + 1)).countP (· ≠ c) = 0 :=
      List.countP_eq_zero.mpr fun y hy => by simpa using hafter y hy
    rw [List.countP_append, List.countP_cons_of_pos (by simpa using hne), hzero]
  rw [hcount]
  constructor
  · intro hL
    rw [← hL, take_leading, List.countP_eq_zero.mpr]
    intro y hy
    simpa using List.mem_takeWhile_imp hy
  · intro hle
    have hbefore := List.countP_eq_zero.mp (by omega : (s.take L).countP (· ≠ c) = 0)
    refine le_antisymm h.leading_le ?_
    have hwhile : s.takeWhile (· = c) = s.take L ++ (s.drop L).takeWhile (· = c) := by
      conv_lhs => rw [← List.take_append_drop L s]
      exact List.takeWhile_append_of_pos fun y hy => by simpa using hbefore y hy
    have hlen := congrArg List.length hwhile
    rw [List.length_append, List.length_take] at hlen
    rw [leading]
    omega

/-- What is taken away is `c`. -/
theorem countP_trim {q : α → Bool} (hq : q c = false) (s : List α) :
    (trim c s).countP q = s.countP q := by
  have hzero : ∀ t : List α, (∀ x ∈ t, x = c) → t.countP q = 0 := fun t ht =>
    List.countP_eq_zero.mpr fun x hx => by simp [ht x hx, hq]
  have hpre : (s.takeWhile (· = c)).countP q = 0 :=
    hzero _ fun x hx => by simpa using List.mem_takeWhile_imp hx
  have hsuf : ((s.dropWhile (· = c)).rtakeWhile (· = c)).countP q = 0 :=
    hzero _ fun x hx => by simpa using List.mem_rtakeWhile_imp hx
  have hdrop : (s.dropWhile (· = c)).countP q = (trim c s).countP q := by
    have happend : trim c s ++ (s.dropWhile (· = c)).rtakeWhile (· = c) = s.dropWhile (· = c) :=
      List.rdropWhile_append_rtakeWhile
    conv_lhs => rw [← happend]
    rw [List.countP_append, hsuf, Nat.add_zero]
  have happend : s.takeWhile (· = c) ++ s.dropWhile (· = c) = s := List.takeWhile_append_dropWhile
  conv_rhs => rw [← happend]
  rw [List.countP_append, hpre, hdrop, Nat.zero_add]

theorem trim_trim (c : α) (s : List α) : trim c (trim c s) = trim c s := by
  have hpre : trim c s <+: s.dropWhile (· = c) := List.rdropWhile_prefix _ _
  have hhead : (trim c s).dropWhile (· = c) = trim c s := by
    rw [List.dropWhile_eq_self_iff]
    intro hpos
    rw [hpre.getElem hpos]
    exact List.dropWhile_get_zero_not _ s (hpos.trans_le hpre.length_le)
  conv_lhs => rw [trim, hhead]
  exact List.rdropWhile_idempotent _ _

end Library
