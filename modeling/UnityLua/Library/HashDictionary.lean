import Mathlib.Data.Int.Notation
import Mathlib.Data.List.Basic
import Mathlib.Data.Set.Defs

/-!
# Hash dictionaries over mutable keys

A hash dictionary compares keys by a hash code and an equality test that belong to the
keys themselves, and it stores the hash code a key had when it was inserted. When a key
is mutated after insertion the stored code and the current one drift apart, and the entry
is no longer found. The comparison is therefore an explicit argument of every operation:
the same dictionary may be read under one comparer and written under another.

## Main results

* `tryGetValue_eq_some_iff`: when every stored code is current and at most one entry
  answers the probe, a lookup finds exactly that entry.
* `Coherent.tryGetValue_eq_some_iff`: where the comparer is an equivalence, coherence of
  the dictionary (current codes, pairwise different keys) is enough.
* `Coherent.cons`, `Coherent.remove`, `Coherent.mem_remove_iff`: both writes keep a
  dictionary coherent, and a removal takes away exactly the entry of its key.

The comparer need not behave on every key: the results take the set of keys on which it
is an equivalence (`EquivOn`) and ask that stored keys and probes come from there.
-/

namespace Library

universe u v

variable {κ : Type u} {ν : Type v}

/-- How keys are compared at one moment: `equals stored probe` asks the stored key. -/
structure KeyComparer (κ : Type u) where
  hash : κ → ℤ
  equals : κ → κ → Bool

namespace KeyComparer

/-- The two keys are one key for the dictionary: same hash code and equal. -/
def Same (c : KeyComparer κ) (stored probe : κ) : Prop :=
  c.hash stored = c.hash probe ∧ c.equals stored probe = true

/-- On the keys of `U` the dictionary's notion of "one key" is an equivalence. -/
structure EquivOn (c : KeyComparer κ) (U : Set κ) : Prop where
  refl : ∀ k ∈ U, c.Same k k
  symm : ∀ k ∈ U, ∀ l ∈ U, c.Same k l → c.Same l k
  trans : ∀ k ∈ U, ∀ l ∈ U, ∀ m ∈ U, c.Same k l → c.Same l m → c.Same k m

/-- The contract of an equality and a hash code: an equivalence that the hash respects. -/
structure Lawful (c : KeyComparer κ) : Prop where
  refl : ∀ k, c.equals k k = true
  symm : ∀ k l, c.equals k l = true → c.equals l k = true
  trans : ∀ k l m, c.equals k l = true → c.equals l m = true → c.equals k m = true
  hash_eq : ∀ k l, c.equals k l = true → c.hash k = c.hash l

/-- A lawful comparer is an equivalence on all keys. -/
theorem Lawful.equivOn {c : KeyComparer κ} (hc : c.Lawful) : c.EquivOn Set.univ where
  refl k _ := ⟨rfl, hc.refl k⟩
  symm k _ l _ h := ⟨h.1.symm, hc.symm k l h.2⟩
  trans k _ l _ m _ h h' := ⟨h.1.trans h'.1, hc.trans k l m h.2 h'.2⟩

/-- A comparer that tells any two keys of `U` apart is an equivalence there. -/
theorem equivOn_of_separates {c : KeyComparer κ} {U : Set κ}
    (h : ∀ k ∈ U, ∀ l ∈ U, c.Same k l ↔ k = l) : c.EquivOn U where
  refl k hk := (h k hk k hk).mpr rfl
  symm k hk l hl hs := (h l hl k hk).mpr ((h k hk l hl).mp hs).symm
  trans k hk l hl m hm hs hs' :=
    (h k hk m hm).mpr (((h k hk l hl).mp hs).trans ((h l hl m hm).mp hs'))

end KeyComparer

/-- One entry: the key, its hash code at insertion, and the value. -/
structure Entry (κ : Type u) (ν : Type v) where
  hashCode : ℤ
  key : κ
  value : ν

/-- The entries, the most recently inserted first. -/
abbrev Dictionary (κ : Type u) (ν : Type v) := List (Entry κ ν)

namespace Dictionary

/-- The test a probe makes on an entry: the stored hash code first, then the key. -/
def hits (c : KeyComparer κ) (k : κ) (e : Entry κ ν) : Bool :=
  e.hashCode == c.hash k && c.equals e.key k

/-- The value of the first entry the probe hits. -/
def tryGetValue (c : KeyComparer κ) (d : Dictionary κ ν) (k : κ) : Option ν :=
  (d.find? (hits c k)).map Entry.value

/-- Removal of the first entry the probe hits; nothing happens when there is none. -/
def remove (c : KeyComparer κ) (d : Dictionary κ ν) (k : κ) : Dictionary κ ν :=
  d.eraseP (hits c k)

/-- The first entry the probe hits gets the new value, and keeps its key and code. -/
def replace (c : KeyComparer κ) (k : κ) (v : ν) : Dictionary κ ν → Dictionary κ ν
  | [] => []
  | e :: d => if hits c k e then { e with value := v } :: d else e :: replace c k v d

/-- The write `d[k] = v`: replaces the value of an entry the probe hits, and inserts a
new entry when there is none. -/
def set (c : KeyComparer κ) (d : Dictionary κ ν) (k : κ) (v : ν) : Dictionary κ ν :=
  if d.any (hits c k) then replace c k v d else ⟨c.hash k, k, v⟩ :: d

/-! ### Probes -/

/-- Every entry stores the hash code its key has now. -/
def Current (c : KeyComparer κ) (d : Dictionary κ ν) : Prop :=
  ∀ e ∈ d, e.hashCode = c.hash e.key

theorem hits_iff_same {c : KeyComparer κ} {e : Entry κ ν} {k : κ}
    (he : e.hashCode = c.hash e.key) : hits c k e = true ↔ c.Same e.key k := by
  simp only [hits, Bool.and_eq_true, beq_iff_eq, KeyComparer.Same, he]

/-- A value that is found belongs to an entry the probe hits. -/
theorem exists_mem_of_tryGetValue {c : KeyComparer κ} {d : Dictionary κ ν} {k : κ} {v : ν}
    (h : tryGetValue c d k = some v) : ∃ e ∈ d, hits c k e = true ∧ e.value = v := by
  simp only [tryGetValue, Option.map_eq_some_iff] at h
  obtain ⟨e, he, rfl⟩ := h
  exact ⟨e, List.mem_of_find?_eq_some he, List.find?_some he, rfl⟩

theorem tryGetValue_eq_none_iff {c : KeyComparer κ} {d : Dictionary κ ν} {k : κ} :
    tryGetValue c d k = none ↔ ∀ e ∈ d, hits c k e = false := by
  simp only [tryGetValue, Option.map_eq_none_iff, List.find?_eq_none, Bool.not_eq_true]

/-- When the stored codes are current and at most one entry answers the probe, the
lookup finds exactly the entries that answer it. -/
theorem tryGetValue_eq_some_iff {c : KeyComparer κ} {d : Dictionary κ ν} {k : κ} {v : ν}
    (hcur : Current c d)
    (huniq : ∀ e ∈ d, ∀ e' ∈ d, c.Same e.key k → c.Same e'.key k → e = e') :
    tryGetValue c d k = some v ↔ ∃ e ∈ d, c.Same e.key k ∧ e.value = v := by
  constructor
  · intro h
    obtain ⟨e, he, hhit, hv⟩ := exists_mem_of_tryGetValue h
    exact ⟨e, he, (hits_iff_same (hcur e he)).mp hhit, hv⟩
  · rintro ⟨e, he, hsame, rfl⟩
    cases hfound : tryGetValue c d k with
    | none =>
        have hmiss := tryGetValue_eq_none_iff.mp hfound e he
        rw [(hits_iff_same (hcur e he)).mpr hsame] at hmiss
        exact absurd hmiss (by decide)
    | some w =>
        obtain ⟨e', he', hhit, rfl⟩ := exists_mem_of_tryGetValue hfound
        rw [huniq e he e' he' hsame ((hits_iff_same (hcur e' he')).mp hhit)]

/-! ### Writes -/

/-- Writing a key that the lookup does not find inserts one entry. -/
theorem set_of_tryGetValue_eq_none {c : KeyComparer κ} {d : Dictionary κ ν} {k : κ}
    (h : tryGetValue c d k = none) (v : ν) : set c d k v = ⟨c.hash k, k, v⟩ :: d := by
  have hmiss : d.any (hits c k) = false := by
    simpa only [List.any_eq_false, Bool.not_eq_true] using tryGetValue_eq_none_iff.mp h
  simp only [set, hmiss, Bool.false_eq_true, if_false]

theorem mem_of_mem_remove {c : KeyComparer κ} {d : Dictionary κ ν} {k : κ} {e : Entry κ ν}
    (h : e ∈ remove c d k) : e ∈ d :=
  List.mem_of_mem_eraseP h

theorem Current.remove {c : KeyComparer κ} {d : Dictionary κ ν} (hcur : Current c d)
    (k : κ) : Current c (remove c d k) :=
  fun e he => hcur e (mem_of_mem_remove he)

/-! ### Coherent dictionaries -/

/-- Current codes, and no two entries under one key. -/
structure Coherent (c : KeyComparer κ) (d : Dictionary κ ν) : Prop where
  current : Current c d
  distinct : d.Pairwise fun e e' => ¬ c.Same e.key e'.key

theorem coherent_nil (c : KeyComparer κ) : Coherent c ([] : Dictionary κ ν) :=
  ⟨fun _ h => absurd h List.not_mem_nil, List.Pairwise.nil⟩

/-- Two entries of a coherent dictionary under one key are one entry. -/
theorem Coherent.eq_of_same {c : KeyComparer κ} {U : Set κ} (hU : c.EquivOn U)
    {d : Dictionary κ ν} (hd : Coherent c d) (hkeys : ∀ e ∈ d, e.key ∈ U)
    {e e' : Entry κ ν} (he : e ∈ d) (he' : e' ∈ d) (hsame : c.Same e.key e'.key) :
    e = e' := by
  induction d with
  | nil => exact absurd he List.not_mem_nil
  | cons x d ih =>
      obtain ⟨hx, hdist⟩ := List.pairwise_cons.mp hd.distinct
      have hd' : Coherent c d := ⟨fun y hy => hd.current y (List.mem_cons_of_mem _ hy), hdist⟩
      have hback := hU.symm _ (hkeys e he) _ (hkeys e' he') hsame
      rcases List.mem_cons.mp he with rfl | hmem <;>
        rcases List.mem_cons.mp he' with rfl | hmem'
      · rfl
      · exact absurd hsame (hx e' hmem')
      · exact absurd hback (hx e hmem)
      · exact ih hd' (fun y hy => hkeys y (List.mem_cons_of_mem _ hy)) hmem hmem'

/-- A lookup in a coherent dictionary finds exactly the entry under the probe's key. -/
theorem Coherent.tryGetValue_eq_some_iff {c : KeyComparer κ} {U : Set κ}
    (hU : c.EquivOn U) {d : Dictionary κ ν} (hd : Coherent c d)
    (hkeys : ∀ e ∈ d, e.key ∈ U) {k : κ} (hk : k ∈ U) {v : ν} :
    tryGetValue c d k = some v ↔ ∃ e ∈ d, c.Same e.key k ∧ e.value = v := by
  refine Dictionary.tryGetValue_eq_some_iff hd.current fun e he e' he' h h' => ?_
  have hback := hU.symm _ (hkeys e' he') _ hk h'
  exact hd.eq_of_same hU hkeys he he'
    (hU.trans _ (hkeys e he) _ hk _ (hkeys e' he') h hback)

/-- Inserting a key that the lookup does not find keeps the dictionary coherent. -/
theorem Coherent.cons {c : KeyComparer κ} {U : Set κ} (hU : c.EquivOn U)
    {d : Dictionary κ ν} (hd : Coherent c d) (hkeys : ∀ e ∈ d, e.key ∈ U) {k : κ}
    (hk : k ∈ U) (h : tryGetValue c d k = none) (v : ν) :
    Coherent c (⟨c.hash k, k, v⟩ :: d) := by
  refine ⟨?_, List.pairwise_cons.mpr ⟨?_, hd.distinct⟩⟩
  · intro e he
    rcases List.mem_cons.mp he with rfl | he
    · rfl
    · exact hd.current e he
  · intro e he hsame
    have hmiss := tryGetValue_eq_none_iff.mp h e he
    have hback : c.Same e.key k := hU.symm _ hk _ (hkeys e he) hsame
    rw [(hits_iff_same (hd.current e he)).mpr hback] at hmiss
    exact absurd hmiss (by decide)

theorem Coherent.remove {c : KeyComparer κ} {d : Dictionary κ ν} (hd : Coherent c d)
    (k : κ) : Coherent c (Dictionary.remove c d k) :=
  ⟨hd.current.remove k, hd.distinct.sublist List.eraseP_sublist⟩

/-- A removal takes away exactly the entry under its key. -/
theorem Coherent.mem_remove_iff {c : KeyComparer κ} {U : Set κ} (hU : c.EquivOn U)
    {d : Dictionary κ ν} (hd : Coherent c d) (hkeys : ∀ e ∈ d, e.key ∈ U) {k : κ}
    (hk : k ∈ U) {e : Entry κ ν} :
    e ∈ Dictionary.remove c d k ↔ e ∈ d ∧ ¬ c.Same e.key k := by
  induction d with
  | nil => simp [Dictionary.remove]
  | cons x d ih =>
      obtain ⟨hx, hdist⟩ := List.pairwise_cons.mp hd.distinct
      have hd' : Coherent c d := ⟨fun y hy => hd.current y (List.mem_cons_of_mem _ hy), hdist⟩
      have hxU : x.key ∈ U := hkeys x List.mem_cons_self
      have hkeys' : ∀ y ∈ d, y.key ∈ U := fun y hy => hkeys y (List.mem_cons_of_mem _ hy)
      have hhit := hits_iff_same (k := k) (hd.current x List.mem_cons_self)
      by_cases hit : hits c k x = true
      · -- the head answers the probe, so no later entry does
        rw [Dictionary.remove, List.eraseP_cons_of_pos hit]
        have hrest : ∀ y ∈ d, ¬ c.Same y.key k := fun y hy hyk =>
          hx y hy (hU.trans _ hxU _ hk _ (hkeys' y hy) (hhit.mp hit)
            (hU.symm _ (hkeys' y hy) _ hk hyk))
        constructor
        · exact fun he => ⟨List.mem_cons_of_mem _ he, hrest e he⟩
        · rintro ⟨he, hne⟩
          rcases List.mem_cons.mp he with rfl | he
          · exact absurd (hhit.mp hit) hne
          · exact he
      · rw [Dictionary.remove, List.eraseP_cons_of_neg hit, List.mem_cons, List.mem_cons]
        have hne : ¬ c.Same x.key k := fun h => hit (hhit.mpr h)
        constructor
        · rintro (rfl | he)
          · exact ⟨Or.inl rfl, hne⟩
          · exact ⟨Or.inr ((ih hd' hkeys').mp he).1, ((ih hd' hkeys').mp he).2⟩
        · rintro ⟨rfl | he, hek⟩
          · exact Or.inl rfl
          · exact Or.inr ((ih hd' hkeys').mpr ⟨he, hek⟩)

end Dictionary

end Library
