import Mathlib.Data.List.Basic
import Mathlib.Data.List.Infix

/-!
# Cutting a list at a sublist

Where a list first has another one, and what is left when a list is cut there, over and over. A
cut may take more than the sublist away.

## Main results

* `firstOccurrence_eq_none`, `firstOccurrence_eq_some`: what is found.
* `Cuts.intercalate_eq`: what is cut is joined again, if only the sublist was taken away.
* `Cuts.intercalate_eq_iff`: if more is taken away, exactly when it is joined again.
-/

namespace Library

variable {α : Type} [DecidableEq α]

/-- How many elements are before the first occurrence of `t`. -/
def firstOccurrence (t : List α) : List α → Option ℕ
  | [] => if t = [] then some 0 else none
  | a :: s => if t <+: a :: s then some 0 else (firstOccurrence t s).map (· + 1)

theorem firstOccurrence_eq_none {t s : List α} : firstOccurrence t s = none ↔ ¬ t <:+: s := by
  induction s with
  | nil =>
      rw [firstOccurrence, List.infix_nil]
      split <;> simp [*]
  | cons a s ih =>
      rw [firstOccurrence, List.infix_cons_iff]
      split
      · next hpre => simp [hpre]
      · next hpre => simp [hpre, ih]

/-- The first occurrence is one, and there is none before. -/
theorem firstOccurrence_eq_some {t s : List α} {k : ℕ} (h : firstOccurrence t s = some k) :
    t <+: s.drop k ∧ ∀ j < k, ¬ t <+: s.drop j := by
  induction s generalizing k with
  | nil =>
      rw [firstOccurrence] at h
      split at h
      · next ht =>
          obtain rfl := Option.some.inj h
          exact ⟨by simp [ht], fun j hj => absurd hj (Nat.not_lt_zero j)⟩
      · exact absurd h (by simp)
  | cons a s ih =>
      rw [firstOccurrence] at h
      split at h
      · next hpre =>
          obtain rfl := Option.some.inj h
          exact ⟨hpre, fun j hj => absurd hj (Nat.not_lt_zero j)⟩
      · next hpre =>
          obtain ⟨m, hm, rfl⟩ := Option.map_eq_some_iff.mp h
          obtain ⟨hat, hbefore⟩ := ih hm
          refine ⟨hat, fun j hj => ?_⟩
          rcases j with - | j
          · exact hpre
          · exact hbefore j (by omega)

/-- What is before the first occurrence does not have the sublist. -/
theorem not_infix_take {t s : List α} {k : ℕ} (ht : t ≠ []) (h : firstOccurrence t s = some k) :
    ¬ t <:+: s.take k := by
  rintro ⟨u, v, huv⟩
  obtain ⟨hat, hbefore⟩ := firstOccurrence_eq_some h
  have hlt : u.length < k := by
    have hlen := congrArg List.length huv
    have hpos := List.length_pos_iff.mpr ht
    simp only [List.length_append, List.length_take] at hlen
    omega
  refine hbefore u.length hlt ⟨v ++ s.drop k, ?_⟩
  have hs : s = u ++ (t ++ (v ++ s.drop k)) := by
    conv_lhs => rw [← List.take_append_drop k s, ← huv]
    simp only [List.append_assoc]
  conv_rhs => rw [hs]
  rw [List.drop_left]

/-- Around the first occurrence. -/
theorem take_append_drop_of_firstOccurrence {t s : List α} {k : ℕ}
    (h : firstOccurrence t s = some k) : s.take k ++ (t ++ s.drop (k + t.length)) = s := by
  obtain ⟨v, hv⟩ := (firstOccurrence_eq_some h).1
  have hdrop : s.drop (k + t.length) = v := by
    rw [← List.drop_drop, ← hv, List.drop_left]
  rw [hdrop, hv, List.take_append_drop]

/-- The pieces of a list that is cut at each first occurrence of `t`, where a cut takes `d`
elements away. -/
inductive Cuts (t : List α) (d : ℕ) : List α → List (List α) → Prop
  | last {u : List α} : firstOccurrence t u = none → Cuts t d u [u]
  | cut {u : List α} {k : ℕ} {ps : List (List α)} : firstOccurrence t u = some k →
      Cuts t d (u.drop (k + d)) ps → Cuts t d u (u.take k :: ps)

namespace Cuts

variable {t u : List α} {d : ℕ} {ps : List (List α)}

/-- Every list can be cut. -/
theorem exists_cuts (ht : t ≠ []) (hd : 0 < d) (u : List α) : ∃ ps, Cuts t d u ps := by
  generalize hn : u.length = n
  induction n using Nat.strong_induction_on generalizing u with
  | _ n ih =>
      rcases hk : firstOccurrence t u with - | k
      · exact ⟨[u], .last hk⟩
      · have hpos : 0 < u.length := by
          have hlen := congrArg List.length (take_append_drop_of_firstOccurrence hk)
          have := List.length_pos_iff.mpr ht
          simp only [List.length_append] at hlen
          omega
        obtain ⟨ps, hps⟩ := ih (u.drop (k + d)).length (by rw [List.length_drop]; omega) _ rfl
        exact ⟨u.take k :: ps, .cut hk hps⟩

theorem ne_nil (h : Cuts t d u ps) : ps ≠ [] := by
  rcases h with - | - <;> exact List.cons_ne_nil _ _

/-- No piece has the sublist. -/
theorem not_infix (ht : t ≠ []) (h : Cuts t d u ps) : ∀ p ∈ ps, ¬ t <:+: p := by
  induction h with
  | last hnone =>
      intro p hp
      obtain rfl := List.mem_singleton.mp hp
      exact firstOccurrence_eq_none.mp hnone
  | cut hk _ ih => exact List.forall_mem_cons.mpr ⟨not_infix_take ht hk, ih⟩

/-- Joined again. -/
theorem intercalate_eq (h : Cuts t t.length u ps) : t.intercalate ps = u := by
  induction h with
  | last _ => exact List.intercalate_singleton
  | cut hk hps ih =>
      rw [List.intercalate_cons_of_ne_nil hps.ne_nil, ih, List.append_assoc]
      exact take_append_drop_of_firstOccurrence hk

/-- What is joined again is not longer, if more was taken away. -/
theorem length_intercalate_le (hd : t.length ≤ d) (h : Cuts t d u ps) :
    (t.intercalate ps).length ≤ u.length := by
  induction h with
  | last _ => rw [List.intercalate_singleton]
  | cut hk hps ih =>
      have hlen := congrArg List.length (take_append_drop_of_firstOccurrence hk)
      rw [List.intercalate_cons_of_ne_nil hps.ne_nil]
      simp only [List.length_append, List.length_drop, List.length_take] at hlen ih ⊢
      omega

theorem eq_of_nil (ht : t ≠ []) (h : Cuts t d [] ps) : ps = [[]] := by
  rcases h with - | ⟨hk, -⟩
  · rfl
  · rw [firstOccurrence, if_neg ht] at hk
    exact absurd hk (by simp)

/-- If more than the sublist is taken away, the list is joined again exactly when nothing follows
the sublist wherever the list has it. -/
theorem intercalate_eq_iff (ht : t ≠ []) (hd : t.length < d) (h : Cuts t d u ps) :
    t.intercalate ps = u ↔ ∀ a b, u = a ++ t ++ b → b = [] := by
  rcases h with hnone | @⟨_, k, ps, hk, hps⟩
  · refine iff_of_true List.intercalate_singleton fun a b hab => ?_
    exact absurd ⟨a, b, hab.symm⟩ (firstOccurrence_eq_none.mp hnone)
  have hsplit := take_append_drop_of_firstOccurrence hk
  have hlen := congrArg List.length hsplit
  simp only [List.length_append, List.length_take, List.length_drop] at hlen
  rw [List.intercalate_cons_of_ne_nil hps.ne_nil]
  constructor
  · intro hjoin a b hab
    have hjoinlen := congrArg List.length hjoin
    have hle := hps.length_intercalate_le hd.le
    simp only [List.length_append, List.length_take, List.length_drop] at hjoinlen hle
    have hfirst : k ≤ a.length := by
      by_contra hlt
      refine (firstOccurrence_eq_some hk).2 a.length (by omega) ⟨b, ?_⟩
      rw [hab, List.append_assoc, List.drop_left]
    have hablen := congrArg List.length hab
    simp only [List.length_append] at hablen
    exact List.length_eq_zero_iff.mp (by omega)
  · intro hend
    have hrest : u.drop (k + t.length) = [] :=
      hend (u.take k) _ (by rw [List.append_assoc, hsplit])
    have hdrop : u.drop (k + d) = [] := by
      rw [List.drop_eq_nil_iff] at hrest ⊢
      omega
    rw [hdrop] at hps
    rw [hps.eq_of_nil ht, List.intercalate_singleton, List.append_nil]
    conv_rhs => rw [← hsplit, hrest, List.append_nil]

end Cuts

end Library
