import Mathlib.Algebra.Order.Field.Basic
import Mathlib.Order.Interval.Set.Basic

/-!
# Intervals cut by half-lines

An interval of an ordered field is cut by inequalities `p * t ≤ q`. Each is a half-line, all of
the field or nothing, depending on the sign of `p`; what is left is an interval again, or nothing.

## Main results

* `points_cut`, `points_cutAll`: what is left are the points that satisfy the inequalities.
* `Interval.isLeast`, `Interval.isGreatest`: its bounds are the extreme ones of these.
-/

namespace Library

universe u

variable {K : Type u}

/-- An interval with its bounds, which is not empty. -/
structure Interval (K : Type u) [LE K] where
  lo : K
  hi : K
  le : lo ≤ hi

namespace Interval

variable [PartialOrder K]

/-- The points of what is left of an interval. -/
def points : Option (Interval K) → Set K
  | none => ∅
  | some I => Set.Icc I.lo I.hi

theorem isLeast (I : Interval K) : IsLeast (points (some I)) I.lo := isLeast_Icc I.le

theorem isGreatest (I : Interval K) : IsGreatest (points (some I)) I.hi := isGreatest_Icc I.le

end Interval

section Cut

variable [Field K] [LinearOrder K]

/-- The part of an interval where `p * t ≤ q`. -/
def cut (p q : K) (I : Interval K) : Option (Interval K) :=
  if p = 0 then
    if q < 0 then none else some I
  else if p < 0 then
    if hhi : I.hi < q / p then none
    else if I.lo < q / p then some ⟨q / p, I.hi, not_lt.mp hhi⟩ else some I
  else
    if hlo : q / p < I.lo then none
    else if q / p < I.hi then some ⟨I.lo, q / p, not_lt.mp hlo⟩ else some I

/-- Cut by one inequality after the other. -/
def cutAll : List (K × K) → Interval K → Option (Interval K)
  | [], I => some I
  | c :: cs, I => (cut c.1 c.2 I).bind (cutAll cs)

variable [IsStrictOrderedRing K]

/-- **One inequality.** -/
theorem points_cut (p q : K) (I : Interval K) :
    Interval.points (cut p q I) = {t | t ∈ Set.Icc I.lo I.hi ∧ p * t ≤ q} := by
  ext t
  rw [cut]
  rcases lt_trichotomy p 0 with hp | rfl | hp
  · have hiff : p * t ≤ q ↔ q / p ≤ t := by rw [div_le_iff_of_neg' hp]
    rw [if_neg hp.ne, if_pos hp, Set.mem_ofPred_eq, hiff]
    split
    · next hhi => exact iff_of_false (Set.notMem_empty t) fun h => (h.1.2.trans_lt hhi).not_ge h.2
    · split
      · next hlo =>
          exact ⟨fun h => ⟨⟨hlo.le.trans h.1, h.2⟩, h.1⟩, fun h => ⟨h.2, h.1.2⟩⟩
      · next hlo => exact ⟨fun h => ⟨h, (not_lt.mp hlo).trans h.1⟩, fun h => h.1⟩
  · rw [if_pos rfl, Set.mem_ofPred_eq, zero_mul]
    split
    · next hq => exact iff_of_false (Set.notMem_empty t) fun h => hq.not_ge h.2
    · next hq => exact ⟨fun h => ⟨h, not_lt.mp hq⟩, fun h => h.1⟩
  · have hiff : p * t ≤ q ↔ t ≤ q / p := by rw [le_div_iff₀' hp]
    rw [if_neg hp.ne', if_neg hp.not_gt, Set.mem_ofPred_eq, hiff]
    split
    · next hlo => exact iff_of_false (Set.notMem_empty t) fun h => (hlo.trans_le h.1.1).not_ge h.2
    · split
      · next hhi =>
          exact ⟨fun h => ⟨⟨h.1, h.2.trans hhi.le⟩, h.2⟩, fun h => ⟨h.1.1, h.2⟩⟩
      · next hhi => exact ⟨fun h => ⟨h, h.2.trans (not_lt.mp hhi)⟩, fun h => h.1⟩

/-- **All inequalities.** -/
theorem points_cutAll (cs : List (K × K)) (I : Interval K) :
    Interval.points (cutAll cs I) =
      {t | t ∈ Set.Icc I.lo I.hi ∧ ∀ c ∈ cs, c.1 * t ≤ c.2} := by
  induction cs generalizing I with
  | nil => ext t; simp [cutAll, Interval.points]
  | cons c cs ih =>
      have hcut := points_cut c.1 c.2 I
      ext t
      rw [cutAll]
      cases hI : cut c.1 c.2 I with
      | none =>
          rw [hI] at hcut
          refine iff_of_false (Set.notMem_empty t) fun h => ?_
          have hmem : t ∈ Interval.points (none : Option (Interval K)) :=
            hcut ▸ ⟨h.1, h.2 c List.mem_cons_self⟩
          exact hmem
      | some J =>
          rw [hI] at hcut
          have hJ : t ∈ Set.Icc J.lo J.hi ↔ t ∈ Set.Icc I.lo I.hi ∧ c.1 * t ≤ c.2 :=
            Set.ext_iff.mp hcut t
          rw [Option.bind_some, ih J, Set.mem_ofPred_eq, Set.mem_ofPred_eq, hJ,
            List.forall_mem_cons, and_assoc]

end Cut

end Library
