import Mathlib.Data.List.Nodup
import Mathlib.Data.List.Perm.Basic
import Mathlib.Logic.Function.Basic

/-!
# Differences of tables

`Lib.DiffTable` lists what has to be done to a table to make it another one, and
`Lib.MergeTableDiff` does it. For a key with a table on both sides each calls itself, by a global
name; but `lib.lua` makes fields of a local table of its functions, and there are no such globals.

Tables are cells on a heap and are compared as objects. They have no metatables, and their scalars
are equal to themselves.

## Main results

* `diffTable_ok`, `diffTable_error`: what `DiffTable` returns where it calls nothing, and that it
  fails where it does.
* `mergeTableDiff_ok`: merged in any order, the difference makes the table what it should be.
* `diff_merge_iff`: exactly for which tables the two do what they are for.
-/

namespace UnityLua

/-- A value that is not `nil`. -/
inductive DiffValue (S : Type)
  | scalar (s : S)
  | table (t : ℕ)
  deriving DecidableEq

/-- An entry of a difference: `{false, key, value}`, `{false, key}` or `{true, key, subDiff}`. -/
inductive DiffEntry (S : Type)
  | replace (key : DiffValue S) (value : Option (DiffValue S))
  | change (key : DiffValue S) (subDiff : List (DiffEntry S))

/-- The cells of all tables. -/
abbrev DiffHeap (S : Type) := ℕ → DiffValue S → Option (DiffValue S)

/-- What `pairs` goes through: every entry once, in some order. -/
structure Enumerates {S : Type} (cells : DiffValue S → Option (DiffValue S))
    (l : List (DiffValue S × DiffValue S)) : Prop where
  keys_nodup : (l.map Prod.fst).Nodup
  mem : ∀ k v, (k, v) ∈ l ↔ cells k = some v

/-- The error of a call of a global that is `nil`. -/
inductive DiffError
  | callNil (global : String)

/-- The globals that the two functions call. -/
structure DiffGlobals (S : Type) where
  DiffTable : Option (ℕ → ℕ → Except DiffError (List (DiffEntry S)))
  MergeTableDiff :
    Option (DiffHeap S → Option (DiffValue S) → List (DiffEntry S) → Except DiffError (DiffHeap S))

/-- Where `lib.lua` is loaded there is no global of either name. -/
def DiffGlobals.loaded {S : Type} : DiffGlobals S := ⟨none, none⟩

variable {S : Type} [DecidableEq S]

section Source

variable (g : DiffGlobals S)

/-- A call of the global `DiffTable`. -/
def callDiffTable (srcValue value : ℕ) : Except DiffError (List (DiffEntry S)) :=
  match g.DiffTable with
  | none => .error (.callNil "DiffTable")
  | some f => f srcValue value

/-- A call of the global `MergeTableDiff`. -/
def callMergeTableDiff (heap : DiffHeap S) (src : Option (DiffValue S))
    (diff : List (DiffEntry S)) : Except DiffError (DiffHeap S) :=
  match g.MergeTableDiff with
  | none => .error (.callNil "MergeTableDiff")
  | some f => f heap src diff

/-- The first loop of `DiffTable`, over the entries of `dst`, with `diff` and `existKey`. -/
def diffLoop (src : DiffValue S → Option (DiffValue S)) :
    List (DiffValue S × DiffValue S) → List (DiffEntry S) → List (DiffValue S) →
      Except DiffError (List (DiffEntry S) × List (DiffValue S))
  | [], diff, existKey => .ok (diff, existKey)
  | (key, value) :: rest, diff, existKey =>
      match src key with
      | none => diffLoop src rest (diff ++ [.replace key (some value)]) existKey
      | some srcValue =>
          let existKey := existKey ++ [key]
          if value = srcValue then diffLoop src rest diff existKey
          else
            match srcValue, value with
            | .table a, .table b => do
                let subDiff ← callDiffTable g a b
                if subDiff.length > 0 then
                  diffLoop src rest (diff ++ [.change key subDiff]) existKey
                else diffLoop src rest diff existKey
            | _, _ => diffLoop src rest (diff ++ [.replace key (some value)]) existKey

/-- The second loop, over the entries of `src`. -/
def deleteLoop (existKey : List (DiffValue S)) (srcPairs : List (DiffValue S × DiffValue S))
    (diff : List (DiffEntry S)) : List (DiffEntry S) :=
  srcPairs.foldl
    (fun diff e => if e.1 ∈ existKey then diff else diff ++ [.replace e.1 none]) diff

/-- `Lib.DiffTable`, by the cells of `src` and the entries of both tables. -/
def DiffTable (src : DiffValue S → Option (DiffValue S))
    (srcPairs dstPairs : List (DiffValue S × DiffValue S)) :
    Except DiffError (List (DiffEntry S)) := do
  let s ← diffLoop g src dstPairs [] []
  .ok (deleteLoop s.2 srcPairs s.1)

/-- `Lib.MergeTableDiff`, with the entries of `diff` in the order of `pairs`. -/
def MergeTableDiff (src : ℕ) : List (DiffEntry S) → DiffHeap S → Except DiffError (DiffHeap S)
  | [], heap => .ok heap
  | .replace key value :: diff, heap =>
      MergeTableDiff src diff
        (Function.update heap src (Function.update (heap src) key value))
  | .change key subDiff :: diff, heap => do
      let heap ← callMergeTableDiff g heap (heap src key) subDiff
      MergeTableDiff src diff heap

end Source

/-! ### Equal structure -/

/-- Equal scalars, or related tables. -/
def SameUpTo (R : ℕ → ℕ → Prop) : Option (DiffValue S) → Option (DiffValue S) → Prop
  | some (.table a), some (.table b) => R a b
  | v, w => v = w

/-- Two tables have the same keys with values of the same structure, as far down as one goes. -/
def StructurallyEqual (heap : DiffHeap S) (t u : ℕ) : Prop :=
  ∃ R : ℕ → ℕ → Prop, R t u ∧ ∀ a b, R a b → ∀ k, SameUpTo R (heap a k) (heap b k)

/-- What the two functions are for: the difference of `src` and `dst` can be merged, in any order
of its entries, and `src` then is as `dst`; and it is empty if `src` was as `dst` before. -/
structure Reproduces (g : DiffGlobals S) (heap : DiffHeap S) (src dst : ℕ)
    (srcPairs dstPairs : List (DiffValue S × DiffValue S)) : Prop where
  merges : ∃ diff, DiffTable g (heap src) srcPairs dstPairs = .ok diff ∧
    ∀ order, order.Perm diff → ∃ heap', MergeTableDiff g src order heap = .ok heap' ∧
      StructurallyEqual heap' src dst
  empty : StructurallyEqual heap src dst → DiffTable g (heap src) srcPairs dstPairs = .ok []

/-- No key leads to two tables that are not one. -/
def NoTablePair (heap : DiffHeap S) (src dst : ℕ) : Prop :=
  ∀ k a b, heap src k = some (.table a) → heap dst k = some (.table b) → a = b

/-! ### The difference -/

section Difference

variable {g : DiffGlobals S} {src : DiffValue S → Option (DiffValue S)}

/-- The entries of a difference for the entries of `dst`. -/
def replaced (src : DiffValue S → Option (DiffValue S))
    (dstPairs : List (DiffValue S × DiffValue S)) : List (DiffEntry S) :=
  dstPairs.filterMap fun e =>
    if src e.1 = some e.2 then none else some (.replace e.1 (some e.2))

/-- The keys of these entries that `src` has. -/
def shared (src : DiffValue S → Option (DiffValue S))
    (dstPairs : List (DiffValue S × DiffValue S)) : List (DiffValue S) :=
  (dstPairs.filter fun e => (src e.1).isSome).map Prod.fst

/-- A step of the loop at a key with another value, of which not both are tables. -/
theorem diffLoop_replace {key value srcValue : DiffValue S}
    {rest : List (DiffValue S × DiffValue S)} {diff : List (DiffEntry S)}
    {existKey : List (DiffValue S)} (hsrc : src key = some srcValue) (hne : value ≠ srcValue)
    (hpair : ∀ a b, srcValue = .table a → value ≠ .table b) :
    diffLoop g src ((key, value) :: rest) diff existKey =
      diffLoop g src rest (diff ++ [.replace key (some value)]) (existKey ++ [key]) := by
  rcases srcValue with s | a <;> rcases value with s' | b
  · simp [diffLoop, hsrc, hne]
  · simp [diffLoop, hsrc]
  · simp [diffLoop, hsrc]
  · exact absurd rfl (hpair a b rfl)

/-- A step at a pair of tables, where there is nothing to call. -/
theorem diffLoop_callNil (hg : g.DiffTable = none) {key : DiffValue S} {a b : ℕ}
    (hsrc : src key = some (.table a)) (hab : a ≠ b) (rest : List (DiffValue S × DiffValue S))
    (diff : List (DiffEntry S)) (existKey : List (DiffValue S)) :
    diffLoop g src ((key, .table b) :: rest) diff existKey =
      .error (.callNil "DiffTable") := by
  have hne : DiffValue.table (S := S) b ≠ .table a := fun h => hab (DiffValue.table.inj h).symm
  simp only [diffLoop, hsrc, hne, if_false, callDiffTable, hg]
  rfl

/-- Without a pair of tables the first loop calls nothing. -/
theorem diffLoop_ok {dstPairs : List (DiffValue S × DiffValue S)}
    (h : ∀ e ∈ dstPairs, ∀ a b, src e.1 = some (.table a) → e.2 = .table b → a = b)
    (diff : List (DiffEntry S)) (existKey : List (DiffValue S)) :
    diffLoop g src dstPairs diff existKey =
      .ok (diff ++ replaced src dstPairs, existKey ++ shared src dstPairs) := by
  induction dstPairs generalizing diff existKey with
  | nil => simp [diffLoop, replaced, shared]
  | cons e dstPairs ih =>
      obtain ⟨key, value⟩ := e
      obtain ⟨he, hrest⟩ := List.forall_mem_cons.mp h
      cases hsrc : src key with
      | none => simp [diffLoop, hsrc, ih hrest, replaced, shared]
      | some srcValue =>
          by_cases heq : value = srcValue
          · simp [diffLoop, hsrc, heq, ih hrest, replaced, shared]
          · have hpair : ∀ a b, srcValue = .table a → value ≠ .table b := by
              rintro a b rfl rfl
              exact heq (congrArg DiffValue.table (he a b hsrc rfl).symm)
            have hne : srcValue ≠ value := fun h => heq h.symm
            rw [diffLoop_replace hsrc heq hpair, ih hrest]
            simp [replaced, shared, hsrc, hne]

/-- With one it fails, at the first of them. -/
theorem diffLoop_error (hg : g.DiffTable = none)
    {dstPairs : List (DiffValue S × DiffValue S)}
    (h : ∃ e ∈ dstPairs, ∃ a b, src e.1 = some (.table a) ∧ e.2 = .table b ∧ a ≠ b)
    (diff : List (DiffEntry S)) (existKey : List (DiffValue S)) :
    diffLoop g src dstPairs diff existKey = .error (.callNil "DiffTable") := by
  obtain ⟨e, he, a, b, ha, hb, hab⟩ := h
  induction dstPairs generalizing diff existKey with
  | nil => exact absurd he List.not_mem_nil
  | cons e' dstPairs ih =>
      obtain ⟨key, value⟩ := e'
      rcases List.mem_cons.mp he with rfl | hmem
      · obtain rfl : value = .table b := hb
        exact diffLoop_callNil hg ha hab dstPairs diff existKey
      · have hrest := fun diff existKey => ih diff existKey hmem
        cases hsrc : src key with
        | none => simp [diffLoop, hsrc, hrest]
        | some srcValue =>
            by_cases heq : value = srcValue
            · simp [diffLoop, hsrc, heq, hrest]
            · by_cases hpair : ∀ a b, srcValue = .table a → value ≠ .table b
              · rw [diffLoop_replace hsrc heq hpair, hrest]
              · push Not at hpair
                obtain ⟨c, d, rfl, rfl⟩ := hpair
                have hcd : c ≠ d := fun h => heq (congrArg DiffValue.table h.symm)
                exact diffLoop_callNil hg hsrc hcd dstPairs diff existKey

/-- The second loop adds an entry for every key of `src` that the first one did not meet. -/
theorem deleteLoop_eq (existKey : List (DiffValue S)) (srcPairs : List (DiffValue S × DiffValue S))
    (diff : List (DiffEntry S)) :
    deleteLoop existKey srcPairs diff =
      diff ++ (srcPairs.filter fun e => e.1 ∉ existKey).map fun e => .replace e.1 none := by
  induction srcPairs generalizing diff with
  | nil => simp [deleteLoop]
  | cons e srcPairs ih =>
      have hstep : deleteLoop existKey (e :: srcPairs) diff =
          deleteLoop existKey srcPairs
            (if e.1 ∈ existKey then diff else diff ++ [.replace e.1 none]) := rfl
      rw [hstep, ih]
      by_cases he : e.1 ∈ existKey <;> simp [he]

variable {dst : DiffValue S → Option (DiffValue S)}
  {srcPairs dstPairs : List (DiffValue S × DiffValue S)}

theorem mem_replaced (hdst : Enumerates dst dstPairs) (e : DiffEntry S) :
    e ∈ replaced src dstPairs ↔
      ∃ k v, dst k = some v ∧ src k ≠ some v ∧ e = .replace k (some v) := by
  simp only [replaced, List.mem_filterMap, Prod.exists, hdst.mem, Option.ite_none_left_eq_some,
    Option.some.injEq]
  constructor
  · rintro ⟨k, v, hk, hne, he⟩
    exact ⟨k, v, hk, hne, he.symm⟩
  · rintro ⟨k, v, hk, hne, he⟩
    exact ⟨k, v, hk, hne, he.symm⟩

omit [DecidableEq S] in
theorem mem_shared (hdst : Enumerates dst dstPairs) (k : DiffValue S) :
    k ∈ shared src dstPairs ↔ (src k).isSome ∧ (dst k).isSome := by
  simp only [shared, List.mem_map, List.mem_filter, Prod.exists, hdst.mem, Option.isSome_iff_exists]
  constructor
  · rintro ⟨k, v, ⟨hk, hsrc⟩, rfl⟩
    exact ⟨hsrc, v, hk⟩
  · rintro ⟨hsrc, v, hk⟩
    exact ⟨k, v, ⟨hk, hsrc⟩, rfl⟩

/-- The difference has an entry for every key at which the tables differ, with the value of `dst`,
and no other. -/
theorem diffTable_ok (hsrc : Enumerates src srcPairs) (hdst : Enumerates dst dstPairs)
    (h : ∀ k a b, src k = some (.table a) → dst k = some (.table b) → a = b) :
    ∃ diff, DiffTable g src srcPairs dstPairs = .ok diff ∧
      ∀ e, e ∈ diff ↔ ∃ k, src k ≠ dst k ∧ e = .replace k (dst k) := by
  have hpairs : ∀ e ∈ dstPairs, ∀ a b, src e.1 = some (.table a) → e.2 = .table b → a = b :=
    fun e he a b ha hb => h e.1 a b ha (by rw [← hb]; exact (hdst.mem _ _).mp he)
  have hloop := diffLoop_ok (g := g) hpairs [] []
  refine ⟨deleteLoop (shared src dstPairs) srcPairs (replaced src dstPairs),
    by simp only [DiffTable, hloop]; rfl, fun e => ?_⟩
  rw [deleteLoop_eq, List.mem_append, mem_replaced hdst]
  simp only [List.mem_map, List.mem_filter, Prod.exists, hsrc.mem, decide_eq_true_eq,
    mem_shared hdst]
  constructor
  · rintro (⟨k, v, hk, hne, rfl⟩ | ⟨k, v, ⟨hk, hnot⟩, rfl⟩)
    · exact ⟨k, hk ▸ hne, hk ▸ rfl⟩
    · have hnone : dst k = none := by
        rw [← Option.not_isSome_iff_eq_none]
        exact fun hsome => hnot ⟨Option.isSome_of_mem hk, hsome⟩
      exact ⟨k, by simp [hk, hnone], by rw [hnone]⟩
  · rintro ⟨k, hne, rfl⟩
    rcases hk : dst k with _ | v
    · obtain ⟨v, hv⟩ := Option.ne_none_iff_exists'.mp (hk ▸ hne)
      exact Or.inr ⟨k, v, ⟨hv, by simp [hk]⟩, rfl⟩
    · exact Or.inl ⟨k, v, hk, hk ▸ hne, rfl⟩

/-- It fails at a pair of tables. -/
theorem diffTable_error (hg : g.DiffTable = none) (hdst : Enumerates dst dstPairs)
    {k : DiffValue S} {a b : ℕ} (ha : src k = some (.table a)) (hb : dst k = some (.table b))
    (hab : a ≠ b) : DiffTable g src srcPairs dstPairs = .error (.callNil "DiffTable") := by
  have hpair : ∃ e ∈ dstPairs, ∃ a b, src e.1 = some (.table a) ∧ e.2 = .table b ∧ a ≠ b :=
    ⟨(k, .table b), (hdst.mem _ _).mpr hb, a, b, ha, rfl, hab⟩
  have hloop := diffLoop_error hg hpair [] []
  simp only [DiffTable, hloop]
  rfl

end Difference

/-! ### Merging -/

section Merging

variable {g : DiffGlobals S} {src : ℕ} {target : DiffValue S → Option (DiffValue S)}

/-- Entries with the values of `target`, one for every key that `src` has otherwise, make `src`
the target in any order. -/
theorem mergeTableDiff_ok {order : List (DiffEntry S)} {heap : DiffHeap S}
    (hall : ∀ e ∈ order, ∃ k, e = .replace k (target k))
    (hmem : ∀ k, heap src k ≠ target k → .replace k (target k) ∈ order) :
    MergeTableDiff g src order heap = .ok (Function.update heap src target) := by
  induction order generalizing heap with
  | nil =>
      have hsame : heap src = target := by
        funext k
        by_contra hne
        exact List.not_mem_nil (hmem k hne)
      rw [MergeTableDiff, ← hsame, Function.update_eq_self]
  | cons e order ih =>
      obtain ⟨⟨k, rfl⟩, hrest⟩ := List.forall_mem_cons.mp hall
      rw [MergeTableDiff, ih hrest, Function.update_idem]
      intro k' hne
      rw [Function.update_self] at hne
      by_cases hk : k' = k
      · subst hk
        exact absurd (Function.update_self ..) hne
      · rw [Function.update_of_ne hk] at hne
        rcases List.mem_cons.mp (hmem k' hne) with heq | hin
        · exact absurd (DiffEntry.replace.inj heq).1 hk
        · exact hin

end Merging

/-! ### What the two are for -/

section Reproducing

variable {heap : DiffHeap S} {src dst : ℕ}

omit [DecidableEq S] in
/-- A table with the cells of another has its structure. -/
theorem structurallyEqual_of_eq (h : heap src = heap dst) : StructurallyEqual heap src dst := by
  refine ⟨fun a b => a = b ∨ (a = src ∧ b = dst), Or.inr ⟨rfl, rfl⟩, fun a b hab k => ?_⟩
  have hcells : heap a = heap b := by
    rcases hab with rfl | ⟨rfl, rfl⟩
    · rfl
    · exact h
  rw [hcells]
  rcases heap b k with _ | v
  · rfl
  · rcases v with s | t
    · rfl
    · exact Or.inl rfl

omit [DecidableEq S] in
/-- Where no key leads to two tables, equal structure is equal cells. -/
theorem StructurallyEqual.eq (h : StructurallyEqual heap src dst)
    (hpair : NoTablePair heap src dst) : heap src = heap dst := by
  obtain ⟨R, hR, hstep⟩ := h
  funext k
  have hk := hstep src dst hR k
  rcases hs : heap src k with _ | v <;> rcases hd : heap dst k with _ | w
  · rfl
  · simp [SameUpTo, hs, hd] at hk
  · rcases v with s | a <;> simp [SameUpTo, hs, hd] at hk
  · rcases v with s | a <;> rcases w with s' | b
    · simpa [SameUpTo, hs, hd] using hk
    · simp [SameUpTo, hs, hd] at hk
    · simp [SameUpTo, hs, hd] at hk
    · rw [hpair k a b hs hd]

variable {srcPairs dstPairs : List (DiffValue S × DiffValue S)}

/-- As `lib.lua` is loaded, the difference of two tables can be merged into the first, and is empty
between tables of equal structure, exactly when no key leads to two tables that are not one. -/
theorem diff_merge_iff (hsrc : Enumerates (heap src) srcPairs)
    (hdst : Enumerates (heap dst) dstPairs) :
    Reproduces .loaded heap src dst srcPairs dstPairs ↔ NoTablePair heap src dst := by
  constructor
  · intro h k a b ha hb
    by_contra hab
    obtain ⟨diff, hdiff, -⟩ := h.merges
    have herror : DiffTable .loaded (heap src) srcPairs dstPairs = .error (.callNil "DiffTable") :=
      diffTable_error rfl hdst ha hb hab
    simp [hdiff] at herror
  · intro hpair
    obtain ⟨diff, hdiff, hmem⟩ := diffTable_ok (g := .loaded) hsrc hdst hpair
    refine ⟨⟨diff, hdiff, fun order horder => ?_⟩, fun hequal => ?_⟩
    · have hmerge : MergeTableDiff .loaded src order heap =
          .ok (Function.update heap src (heap dst)) := by
        refine mergeTableDiff_ok (fun e he => ?_) fun k hne => ?_
        · obtain ⟨k, -, rfl⟩ := (hmem e).mp (horder.mem_iff.mp he)
          exact ⟨k, rfl⟩
        · exact horder.mem_iff.mpr ((hmem _).mpr ⟨k, hne, rfl⟩)
      refine ⟨_, hmerge, structurallyEqual_of_eq ?_⟩
      by_cases hsd : dst = src
      · rw [hsd]
      · rw [Function.update_self, Function.update_of_ne hsd]
    · have hcells := hequal.eq hpair
      have hnil : diff = [] := by
        refine List.eq_nil_iff_forall_not_mem.mpr fun e he => ?_
        obtain ⟨k, hne, -⟩ := (hmem e).mp he
        exact hne (congrFun hcells k)
      rw [hdiff, hnil]

end Reproducing

/-- Two tables, `0` and `1`, with one key, that leads to `a` and to `b`. -/
def oneKeyHeap (a b : DiffValue (String ⊕ Bool)) : DiffHeap (String ⊕ Bool) := fun t k =>
  if k = .scalar (.inl "key") then
    if t = 0 then some a else if t = 1 then some b else none
  else none

theorem oneKeyHeap_enumerates (a b : DiffValue (String ⊕ Bool)) :
    Enumerates (oneKeyHeap a b 0) [(.scalar (.inl "key"), a)] ∧
      Enumerates (oneKeyHeap a b 1) [(.scalar (.inl "key"), b)] := by
  refine ⟨⟨List.nodup_singleton _, fun k v => ?_⟩, ⟨List.nodup_singleton _, fun k v => ?_⟩⟩
  all_goals
    by_cases hk : k = .scalar (.inl "key") <;> simp [oneKeyHeap, hk, eq_comm]

/-- `{key = false}` is made `{key = true}`. -/
theorem diff_merge_iff_scalars :
    Reproduces .loaded (oneKeyHeap (.scalar (.inr false)) (.scalar (.inr true))) 0 1
      [(.scalar (.inl "key"), .scalar (.inr false))]
      [(.scalar (.inl "key"), .scalar (.inr true))] := by
  refine (diff_merge_iff (oneKeyHeap_enumerates _ _).1 (oneKeyHeap_enumerates _ _).2).mpr ?_
  intro k a b ha hb
  by_cases hk : k = .scalar (.inl "key") <;> simp [oneKeyHeap, hk] at ha

/-- Of `{key = {}}` and `{key = {}}` no difference can be had. -/
theorem diff_merge_fails :
    Enumerates (oneKeyHeap (.table 2) (.table 3) 0) [(.scalar (.inl "key"), .table 2)] ∧
    Enumerates (oneKeyHeap (.table 2) (.table 3) 1) [(.scalar (.inl "key"), .table 3)] ∧
    ¬ Reproduces .loaded (oneKeyHeap (.table 2) (.table 3)) 0 1
        [(.scalar (.inl "key"), .table 2)] [(.scalar (.inl "key"), .table 3)] := by
  obtain ⟨hsrc, hdst⟩ := oneKeyHeap_enumerates (.table 2) (.table 3)
  refine ⟨hsrc, hdst, fun h => ?_⟩
  obtain ⟨diff, hdiff, -⟩ := h.merges
  have ha : oneKeyHeap (.table 2) (.table 3) 0 (.scalar (.inl "key")) = some (.table 2) := by
    simp [oneKeyHeap]
  have hb : oneKeyHeap (.table 2) (.table 3) 1 (.scalar (.inl "key")) = some (.table 3) := by
    simp [oneKeyHeap]
  have herror : DiffTable .loaded (oneKeyHeap (.table 2) (.table 3) 0)
      [(.scalar (.inl "key"), .table 2)] [(.scalar (.inl "key"), .table 3)] =
        .error (.callNil "DiffTable") :=
    diffTable_error rfl hdst ha hb (by omega)
  simp [hdiff] at herror

end UnityLua
