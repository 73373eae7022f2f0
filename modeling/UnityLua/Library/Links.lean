import Mathlib.Data.Finset.Card
import Mathlib.Data.Option.NAry
import Mathlib.Logic.Equiv.Basic
import Mathlib.Logic.Relation

/-!
# Chains of links

Places with at most one link each. The links make chains when no place has two links to it and
no chain comes back to where it was. A place that is in no chain is put into one behind another
place, or takes over the part of a third place.

## Main results

* `Chains.insertAfter`, `Ahead.insertAfter`, `Ahead.of_insertAfter`: a free place behind a place of a chain.
* `Chains.moved`, `ahead_moved`, `update_eq_moved`: a free place instead of a place of a chain.
* `search_some`, `search_none`: what is found along a chain is the first place that satisfies
  the test.
-/

namespace Library

universe u

variable {ι : Type u} {next : ι → Option ι}

/-- `b` is met when the links are followed from `a`; `a` itself is. -/
def Ahead (next : ι → Option ι) : ι → ι → Prop :=
  Relation.ReflTransGen fun a b => next a = some b

namespace Ahead

theorem refl (a : ι) : Ahead next a a := Relation.ReflTransGen.refl

theorem trans {a b c : ι} (h : Ahead next a b) (h' : Ahead next b c) : Ahead next a c :=
  Relation.ReflTransGen.trans h h'

theorem head {a b c : ι} (h : next a = some b) (h' : Ahead next b c) : Ahead next a c :=
  Relation.ReflTransGen.head h h'

theorem tail {a b c : ι} (h : Ahead next a b) (h' : next b = some c) : Ahead next a c :=
  Relation.ReflTransGen.tail h h'

theorem cases_head {a c : ι} (h : Ahead next a c) :
    a = c ∨ ∃ b, next a = some b ∧ Ahead next b c :=
  Relation.ReflTransGen.cases_head h

end Ahead

/-- The links make chains: no place has two links to it, and no chain comes back. -/
structure Chains (next : ι → Option ι) : Prop where
  inj : ∀ {a b c}, next a = some c → next b = some c → a = b
  acyclic : ∀ {a b}, next a = some b → ¬ Ahead next b a

/-- No link goes from or to the place. -/
structure Isolated (next : ι → Option ι) (n : ι) : Prop where
  out : next n = none
  into : ∀ a, next a ≠ some n

namespace Chains

theorem antisymm (h : Chains next) {a b : ι} (hab : Ahead next a b) (hba : Ahead next b a) :
    a = b := by
  obtain hab | ⟨c, hc, hcb⟩ := hab.cases_head
  · exact hab
  · exact absurd (hcb.trans hba) (h.acyclic hc)

end Chains

/-! ### A free place behind a place of a chain -/

section InsertAfter

variable [DecidableEq ι]

/-- `n` behind `p`. -/
def insertAfter (next : ι → Option ι) (p n : ι) : ι → Option ι :=
  Function.update (Function.update next n (next p)) p (some n)

variable {p n : ι}

theorem insertAfter_self : insertAfter next p n p = some n := Function.update_self ..

theorem insertAfter_new (hnp : n ≠ p) : insertAfter next p n n = next p := by
  rw [insertAfter, Function.update_of_ne hnp, Function.update_self]

theorem insertAfter_of_ne {a : ι} (hap : a ≠ p) (han : a ≠ n) :
    insertAfter next p n a = next a := by
  rw [insertAfter, Function.update_of_ne hap, Function.update_of_ne han]

/-- A chain through `p` goes on from the new place. -/
theorem Ahead.insertAfter (h : Isolated next n) (hnp : n ≠ p) {a b : ι}
    (hab : Ahead next a b) : Ahead (insertAfter next p n) a b := by
  induction hab with
  | refl => exact Ahead.refl a
  | @tail b c _ hbc ih =>
      obtain rfl | hbp := eq_or_ne b p
      · exact (ih.tail insertAfter_self).tail ((insertAfter_new hnp).trans hbc)
      · have hbn : b ≠ n := fun hb => by simp [hb, h.out] at hbc
        exact ih.tail ((insertAfter_of_ne hbp hbn).trans hbc)

theorem Ahead.of_insertAfter (h : Isolated next n) (hnp : n ≠ p) {a b : ι}
    (hab : Ahead (Library.insertAfter next p n) a b) (han : a ≠ n) :
    (b ≠ n → Ahead next a b) ∧ (b = n → Ahead next a p) := by
  induction hab with
  | refl => exact ⟨fun _ => Ahead.refl a, fun hb => absurd hb han⟩
  | @tail b c _ hbc ih =>
      obtain rfl | hbp := eq_or_ne b p
      · obtain rfl : n = c := Option.some.inj (insertAfter_self.symm.trans hbc)
        exact ⟨fun hc => absurd rfl hc, fun _ => ih.1 hnp.symm⟩
      · obtain rfl | hbn := eq_or_ne b n
        · rw [insertAfter_new hnp] at hbc
          exact ⟨fun _ => (ih.2 rfl).tail hbc, fun hc => absurd (hc ▸ hbc) (h.into p)⟩
        · rw [insertAfter_of_ne hbp hbn] at hbc
          exact ⟨fun _ => (ih.1 hbn).tail hbc, fun hc => absurd (hc ▸ hbc) (h.into b)⟩

/-- What was behind `p` is behind the new place. -/
theorem Ahead.from_new (h : Isolated next n) (hnp : n ≠ p) {b : ι} (hpb : Ahead next p b)
    (hb : b ≠ p) : Ahead (Library.insertAfter next p n) n b := by
  obtain hpb | ⟨c, hc, hcb⟩ := hpb.cases_head
  · exact absurd hpb.symm hb
  · exact Ahead.head ((insertAfter_new hnp).trans hc) (hcb.insertAfter h hnp)

theorem Chains.insertAfter (h : Chains next) (hn : Isolated next n) (hnp : n ≠ p) :
    Chains (insertAfter next p n) := by
  -- the links other than the new one are those of before, with `n` for `p`
  have hold : ∀ {a c}, Library.insertAfter next p n a = some c → a = p ∧ c = n ∨
      a ≠ p ∧ c ≠ n ∧ next (if a = n then p else a) = some c := by
    intro a c hac
    obtain rfl | hap := eq_or_ne a p
    · exact Or.inl ⟨rfl, (Option.some.inj (insertAfter_self.symm.trans hac)).symm⟩
    · refine Or.inr ⟨hap, ?_⟩
      obtain rfl | han := eq_or_ne a n
      · rw [insertAfter_new hnp] at hac
        exact ⟨fun hc => hn.into p (hc ▸ hac), by rwa [if_pos rfl]⟩
      · rw [insertAfter_of_ne hap han] at hac
        exact ⟨fun hc => hn.into a (hc ▸ hac), by rwa [if_neg han]⟩
  refine ⟨fun {a b c} ha hb => ?_, fun {a b} hab hba => ?_⟩
  · obtain ⟨rfl, hc⟩ | ⟨hap, hc, ha⟩ := hold ha <;> obtain ⟨rfl, hc'⟩ | ⟨hbp, hc', hb⟩ := hold hb
    · rfl
    · exact absurd hc hc'
    · exact absurd hc' hc
    · have := h.inj ha hb
      split at this <;> split at this <;> simp_all
  · obtain ⟨rfl, rfl⟩ | ⟨hap, hbn, hab⟩ := hold hab
    · obtain hba | ⟨c, hc, hca⟩ := hba.cases_head
      · exact hnp hba
      · rw [insertAfter_new hnp] at hc
        have hcn : c ≠ b := fun hcb => hn.into a (hcb ▸ hc)
        exact h.acyclic hc ((hca.of_insertAfter hn hnp hcn).1 hnp.symm)
    · have hback := hba.of_insertAfter hn hnp hbn
      split at hab
      · next han => exact h.acyclic hab (hback.2 han)
      · next han => exact h.acyclic hab (hback.1 han)

end InsertAfter

/-! ### A free place instead of a place of a chain -/

section Moved

variable [DecidableEq ι]

/-- `m` and `n` have changed places. -/
def moved (next : ι → Option ι) (m n : ι) : ι → Option ι :=
  fun a => (next (Equiv.swap m n a)).map (Equiv.swap m n)

theorem moved_eq_some {m n a b : ι} :
    moved next m n a = some b ↔ next (Equiv.swap m n a) = some (Equiv.swap m n b) := by
  rw [moved, Option.map_eq_some_iff]
  constructor
  · rintro ⟨c, hc, rfl⟩
    rwa [Equiv.swap_apply_self]
  · exact fun h => ⟨_, h, Equiv.swap_apply_self m n b⟩

theorem ahead_moved {m n a b : ι} :
    Ahead (moved next m n) a b ↔ Ahead next (Equiv.swap m n a) (Equiv.swap m n b) := by
  constructor
  · intro h
    induction h with
    | refl => exact Ahead.refl _
    | tail _ hbc ih => exact ih.tail (moved_eq_some.mp hbc)
  · intro h
    have hback : ∀ {c d}, Ahead next c d →
        Ahead (moved next m n) (Equiv.swap m n c) (Equiv.swap m n d) := by
      intro c d hcd
      induction hcd with
      | refl => exact Ahead.refl _
      | tail _ hde ih =>
          refine ih.tail (moved_eq_some.mpr ?_)
          rwa [Equiv.swap_apply_self, Equiv.swap_apply_self]
    simpa only [Equiv.swap_apply_self] using hback h

theorem Chains.moved (h : Chains next) (m n : ι) : Chains (moved next m n) := by
  refine ⟨fun ha hb => ?_, fun hab hba => ?_⟩
  · exact (Equiv.swap m n).injective (h.inj (moved_eq_some.mp ha) (moved_eq_some.mp hb))
  · exact h.acyclic (moved_eq_some.mp hab) (ahead_moved.mp hba)

/-- The three writes that let the free place `n` take over from `m`. -/
theorem update_eq_moved (h : Chains next) {q m n : ι} (hn : Isolated next n)
    (hq : next q = some m) :
    Function.update (Function.update (Function.update next q (some n)) n (next m)) m none =
      moved next m n := by
  have hnm : n ≠ m := fun hnm => hn.into q (hnm ▸ hq)
  have hqm : q ≠ m := fun hqm => h.acyclic hq (hqm ▸ Ahead.refl q)
  have hqn : q ≠ n := fun hqn => by simp [hqn, hn.out] at hq
  -- only `q` has a link to `m`, and none goes to `n`
  have hkeep : ∀ {a c}, next a = some c → c = m ∨ c ≠ m ∧ c ≠ n := fun {a c} hc => by
    by_cases hcm : c = m
    · exact Or.inl hcm
    · exact Or.inr ⟨hcm, fun hcn => hn.into a (hcn ▸ hc)⟩
  funext a
  rw [Library.moved]
  obtain rfl | ham := eq_or_ne a m
  · rw [Function.update_self, Equiv.swap_apply_left, hn.out]
    rfl
  rw [Function.update_of_ne ham]
  obtain rfl | han := eq_or_ne a n
  · rw [Function.update_self, Equiv.swap_apply_right]
    cases hm : next m with
    | none => rfl
    | some c =>
        have hcm : c ≠ m := fun hcm => h.acyclic hm (hcm ▸ Ahead.refl c)
        have hca : c ≠ a := fun hca => hn.into m (hca ▸ hm)
        rw [Option.map_some, Equiv.swap_apply_of_ne_of_ne hcm hca]
  rw [Function.update_of_ne han, Equiv.swap_apply_of_ne_of_ne ham han]
  obtain rfl | haq := eq_or_ne a q
  · rw [Function.update_self, hq, Option.map_some, Equiv.swap_apply_left]
  · rw [Function.update_of_ne haq]
    cases ha : next a with
    | none => rfl
    | some c =>
        obtain rfl | ⟨hcm, hcn⟩ := hkeep ha
        · exact absurd (h.inj ha hq) haq
        · rw [Option.map_some, Equiv.swap_apply_of_ne_of_ne hcm hcn]

end Moved

/-! ### Searching along a chain -/

/-- The first place from `a` on that satisfies the test. The first argument bounds how many
places are looked at. -/
def search (next : ι → Option ι) (p : ι → Bool) : ℕ → ι → Option ι
  | 0, _ => none
  | fuel + 1, a => if p a then some a else (next a).bind (search next p fuel)

theorem search_some {p : ι → Bool} {fuel : ℕ} {a b : ι} (h : search next p fuel a = some b) :
    Ahead next a b ∧ p b = true := by
  induction fuel generalizing a with
  | zero => exact absurd h (Option.some_ne_none b).symm
  | succ fuel ih =>
      rw [search] at h
      split at h
      · next hp =>
          obtain rfl := Option.some.inj h
          exact ⟨Ahead.refl a, hp⟩
      · obtain ⟨c, hc, hcb⟩ := Option.bind_eq_some_iff.mp h
        exact ⟨(ih hcb).1.head hc, (ih hcb).2⟩

/-- What is found is in front of everything else that satisfies the test. -/
theorem search_first {p : ι → Bool} {fuel : ℕ} {a b c : ι}
    (h : search next p fuel a = some b) (hac : Ahead next a c) (hc : p c = true) :
    Ahead next b c := by
  induction fuel generalizing a with
  | zero => exact absurd h (Option.some_ne_none b).symm
  | succ fuel ih =>
      rw [search] at h
      split at h
      · exact Option.some.inj h ▸ hac
      · next hp =>
          obtain ⟨d, hd, hdb⟩ := Option.bind_eq_some_iff.mp h
          obtain rfl | ⟨e, he, hec⟩ := hac.cases_head
          · exact absurd hc hp
          · obtain rfl : e = d := Option.some.inj (he.symm.trans hd)
            exact ih hdb hec

/-- A search that may look at as many places as there are in front of it misses none. -/
theorem search_none (h : Chains next) {p : ι → Bool} {fuel : ℕ} {a b : ι} {s : Finset ι}
    (hs : ∀ c, Ahead next a c → c ∈ s) (hfuel : s.card ≤ fuel)
    (hnone : search next p fuel a = none) (hab : Ahead next a b) : p b = false := by
  classical
  induction fuel generalizing a s with
  | zero =>
      have hempty : s = ∅ := Finset.card_eq_zero.mp (Nat.le_zero.mp hfuel)
      exact absurd (hs a (Ahead.refl a)) (by simp [hempty])
  | succ fuel ih =>
      rw [search] at hnone
      split at hnone
      · exact absurd hnone (Option.some_ne_none a)
      · next hp =>
          obtain rfl | ⟨c, hc, hcb⟩ := hab.cases_head
          · exact Bool.eq_false_iff.mpr hp
          · rw [hc, Option.bind_some] at hnone
            have hcard : (s.erase a).card ≤ fuel := by
              rw [Finset.card_erase_of_mem (hs a (Ahead.refl a))]
              omega
            refine ih (s := s.erase a) (fun d hd => ?_) hcard hnone hcb
            exact Finset.mem_erase.mpr
              ⟨fun hda => h.acyclic hc (hda ▸ hd), hs d (hd.head hc)⟩

end Library
