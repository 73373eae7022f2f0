import Mathlib.Algebra.BigOperators.Group.Finset.Basic
import Mathlib.Data.List.Count
import UnityLua.HashTableValues

/-!
# Making a table again

`resize` sets the entries of the old parts one after the other in new parts. The sizes that
`rehash` computes leave room for each of them and for the key that found no place, so that no
insertion makes the table again a second time.

## Main results

* `reinsert_spec`: entries with distinct keys, set one after the other.
* `resize_spec`: the new table has the values of the old one.
-/

namespace UnityLua

open Library

variable {K V : Type}

/-- How many nodes never had a key. -/
def Table.freeNodes (t : Table K V) : ℕ :=
  ((Finset.range t.sizenode).filter fun i => (t.key? i).isNone = true).card

theorem Table.freeNodes_pos {t : Table K V} (h : 0 < t.freeNodes) :
    ∃ i, i < t.sizenode ∧ t.key? i = none := by
  obtain ⟨i, hi⟩ := Finset.card_pos.mp h
  rw [Finset.mem_filter, Finset.mem_range, Option.isNone_iff_eq_none] at hi
  exact ⟨i, hi⟩

theorem Table.freeNodes_congr {t t' : Table K V} (hsize : t'.lsizenode = t.lsizenode)
    (hkey : ∀ i, t'.key? i = t.key? i) : t'.freeNodes = t.freeNodes := by
  simp only [freeNodes, sizenode, hsize, hkey]

/-- A table whose nodes are all empty has room in each of them. -/
theorem Table.freeNodes_of_empty {t : Table K V} (h : ∀ i, t.node i = emptyNode) :
    t.freeNodes = t.sizenode := by
  rw [freeNodes, Finset.filter_true_of_mem, Finset.card_range]
  intro i _
  rw [key?, h]
  rfl

section

variable [TableKey K] [LawfulTableKey K] {t : Table K V} {key : K}

/-! ### Setting entries -/

omit [LawfulTableKey K] in
/-- A new key takes one free node at most. -/
theorem Table.Inserted.freeNodes_le {t' : Table K V} {i : ℕ} (h : t.Inserted key t' i) :
    t.freeNodes ≤ t'.freeNodes + 1 := by
  obtain ⟨x, hx⟩ := h.free
  have hsize : t'.sizenode = t.sizenode := by rw [sizenode, h.lsizenode, sizenode]
  have hsub : ((Finset.range t.sizenode).filter fun i => (t.key? i).isNone = true) ⊆
      insert x ((Finset.range t'.sizenode).filter fun i => (t'.key? i).isNone = true) := by
    intro j hj
    rw [Finset.mem_filter, Option.isNone_iff_eq_none] at hj
    rw [Finset.mem_insert, Finset.mem_filter, Option.isNone_iff_eq_none, hsize]
    by_cases hjx : j = x
    · exact Or.inl hjx
    · exact Or.inr ⟨hj.1, hx j hjx hj.2⟩
  exact (Finset.card_le_card hsub).trans (Finset.card_insert_le _ _)

/-- `t'` has the key in the slot `s`, and the values of `t`. -/
structure Table.Found (t : Table K V) (key : K) (t' : Table K V) (s : NodeSlot) : Prop where
  wf : t'.WellFormed
  slot : luaH_get t' key = some s
  rawget : ∀ k, rawget t' k = rawget t k
  sizearray : t'.sizearray = t.sizearray
  dummy : t'.dummy = t.dummy
  lsizenode : t'.lsizenode = t.lsizenode
  free : t.freeNodes ≤ t'.freeNodes + if inArray t.sizearray key then 0 else 1

omit [LawfulTableKey K] in
theorem Table.WellFormed.found_self (h : t.WellFormed) {s : NodeSlot}
    (hs : luaH_get t key = some s) : t.Found key t s :=
  ⟨h, hs, fun _ => rfl, rfl, rfl, rfl, Nat.le_add_right _ _⟩

theorem Table.Inserted.found (h : t.WellFormed) (hkey : (key == key) = true)
    (habs : t.Absent key) {t' : Table K V} {i : ℕ} (hins : t.Inserted key t' i) :
    t.Found key t' (.node i) := by
  refine ⟨hins.wf, hins.luaH_get_eq hkey, hins.rawget_eq h, ?_, hins.dummy, hins.lsizenode, ?_⟩
  · rw [Table.sizearray, hins.array, Table.sizearray]
  · have hnot : inArray t.sizearray key = false := by
      by_contra hin
      obtain ⟨m, hm, hlo, hhi⟩ := inArray_iff.mp (Bool.not_eq_false _ ▸ hin)
      exact habs.array m hm ⟨hlo, hhi⟩
    simpa [hnot] using hins.freeNodes_le

/-- With room for the key, setting it does not make the table again. -/
theorem set_found (h : t.WellFormed) (hkey : (key == key) = true)
    (hroom : inArray t.sizearray key = true ∨ t.dummy = false ∧ 0 < t.freeNodes)
    (rehash : Table K V → K → Except String (Table K V × NodeSlot)) :
    ∃ t' s, luaH_setWith (newkeyWith rehash) t key = .ok (t', s) ∧ t.Found key t' s := by
  rw [luaH_setWith]
  cases hs : luaH_get t key with
  | some s => exact ⟨t, s, rfl, h.found_self hs⟩
  | none =>
      have habs := h.luaH_get_eq_none.mp hs
      obtain hin | ⟨hdummy, hfree⟩ := hroom
      · obtain ⟨m, hm, hlo, hhi⟩ := inArray_iff.mp hin
        exact absurd ⟨hlo, hhi⟩ (habs.array m hm)
      · obtain ⟨t', i, heq, hins⟩ | ⟨hfull, -⟩ := h.newkeyWith_cases hkey habs rehash
        · refine ⟨t', .node i, ?_, hins.found h hkey habs⟩
          simp only [hkey, if_true, heq]
        · obtain ⟨i, hi, hnone⟩ := Table.freeNodes_pos hfree
          obtain hd | hall := hfull
          · rw [hdummy] at hd
            cases hd
          · exact absurd hnone (hall i hi)

/-- How many of the keys do not go to an array part of size `n`. -/
def outsideArray (n : ℕ) (es : List (K × V)) : ℕ := es.countP fun e => !inArray n e.1

/-- Entries with distinct keys that have no value yet, set one after the other. -/
theorem reinsert_spec (rehash : Table K V → K → Except String (Table K V × NodeSlot))
    {es : List (K × V)} (h : t.WellFormed) (hrefl : ∀ e ∈ es, (e.1 == e.1) = true)
    (hdist : es.Pairwise fun a b => (a.1 == b.1) = false)
    (hnone : ∀ e ∈ es, rawget t e.1 = none)
    (hroom : outsideArray t.sizearray es ≤ t.freeNodes)
    (hdummy : t.dummy = true → outsideArray t.sizearray es = 0) :
    ∃ t', reinsert (luaH_setWith (newkeyWith rehash)) es t = .ok t' ∧ t'.WellFormed ∧
      (∀ k v, rawget t' k = some v ↔
        (∃ k', (k', v) ∈ es ∧ (k' == k) = true) ∨ rawget t k = some v) ∧
      t'.sizearray = t.sizearray ∧ t'.dummy = t.dummy ∧ t'.lsizenode = t.lsizenode ∧
      t.freeNodes ≤ t'.freeNodes + outsideArray t.sizearray es := by
  induction es generalizing t with
  | nil => exact ⟨t, rfl, h, fun k v => by simp, rfl, rfl, rfl, Nat.le_add_right _ _⟩
  | cons e es ih =>
      obtain ⟨key, v⟩ := e
      have hkey : (key == key) = true := hrefl _ List.mem_cons_self
      obtain ⟨hkdist, hdist⟩ := List.pairwise_cons.mp hdist
      have hout : outsideArray t.sizearray ((key, v) :: es) =
          outsideArray t.sizearray es + if inArray t.sizearray key then 0 else 1 := by
        rw [outsideArray, List.countP_cons, outsideArray]
        cases inArray t.sizearray key <;> rfl
      have hplace : inArray t.sizearray key = true ∨ t.dummy = false ∧ 0 < t.freeNodes := by
        cases hin : inArray t.sizearray key with
        | true => exact Or.inl rfl
        | false =>
            rw [hout, hin] at hroom hdummy
            refine Or.inr ⟨?_, by simp at hroom; omega⟩
            by_contra hd
            have := hdummy (Bool.not_eq_false _ ▸ hd)
            simp at this
      obtain ⟨t₁, s, heq, hfound⟩ := set_found h hkey hplace rehash
      have hfree : (t₁.put s (some v)).freeNodes = t₁.freeNodes :=
        Table.freeNodes_congr (t₁.put_lsizenode s _) (t₁.put_key? s _)
      have hsize : (t₁.put s (some v)).sizearray = t.sizearray :=
        (t₁.put_sizearray s _).trans hfound.sizearray
      have hval : ∀ k, rawget (t₁.put s (some v)) k =
          if key == k then some v else rawget t k := fun k => by
        rw [hfound.wf.rawget_put hfound.slot, hfound.rawget]
      obtain ⟨t', heq', hwf, hget, harr, hdum, hlsize, hfree'⟩ := ih
        (t := t₁.put s (some v)) (hfound.wf.put hfound.slot _)
        (fun e he => hrefl e (List.mem_cons_of_mem _ he)) hdist
        (fun e he => by
          rw [hval, if_neg (by rw [hkdist e he]; exact Bool.false_ne_true)]
          exact hnone e (List.mem_cons_of_mem _ he))
        (by
          have := hfound.free
          rw [hsize, hfree]
          omega)
        (fun hd => by
          rw [Table.put_dummy, hfound.dummy] at hd
          have := hdummy hd
          rw [hsize]
          omega)
      refine ⟨t', ?_, hwf, fun k w => ?_, harr.trans hsize, ?_, ?_, ?_⟩
      · rw [reinsert, heq]
        exact heq'
      · rw [hget, hval]
        simp only [List.mem_cons, Prod.mk.injEq]
        cases hkk : key == k with
        | true =>
            have hold : rawget t k = none := by
              rw [rawget, ← luaH_get_congr h hkk, ← rawget]
              exact hnone _ List.mem_cons_self
            rw [if_pos rfl, hold]
            constructor
            · rintro (⟨k', hmem, heqk⟩ | hv)
              · exact Or.inl ⟨k', Or.inr hmem, heqk⟩
              · exact Or.inl ⟨key, Or.inl ⟨rfl, (Option.some.inj hv).symm⟩, hkk⟩
            · rintro (⟨k', ⟨rfl, rfl⟩ | hmem, heqk⟩ | hv)
              · exact Or.inr rfl
              · exact Or.inl ⟨k', hmem, heqk⟩
              · cases hv
        | false =>
            rw [if_neg Bool.false_ne_true]
            refine or_congr (Iff.intro ?_ ?_) Iff.rfl
            · rintro ⟨k', hmem, heqk⟩
              exact ⟨k', Or.inr hmem, heqk⟩
            rintro ⟨k', ⟨rfl, rfl⟩ | hmem, heqk⟩
            · rw [hkk] at heqk
              cases heqk
            · exact ⟨k', hmem, heqk⟩
      · rw [hdum, Table.put_dummy, hfound.dummy]
      · rw [hlsize, Table.put_lsizenode, hfound.lsizenode]
      · have := hfound.free
        rw [hsize, hfree] at hfree'
        omega

/-! ### `resize` -/

theorem ceillog2_le_iff {x i : ℕ} (hx : 1 ≤ x) : ceillog2 x ≤ i ↔ x ≤ 2 ^ i := by
  rw [ceillog2]
  split
  · next hone =>
      have := Nat.two_pow_pos i
      omega
  · next hone =>
      have hne : x - 1 ≠ 0 := by omega
      have := Nat.log2_lt (k := i) hne
      omega

theorem le_two_pow_ceillog2 {x : ℕ} (hx : 1 ≤ x) : x ≤ 2 ^ ceillog2 x :=
  (ceillog2_le_iff hx).mp le_rfl

/-- It is less than twice as much. -/
theorem two_pow_ceillog2_lt {x : ℕ} (hx : 1 ≤ x) : 2 ^ ceillog2 x < 2 * x := by
  cases hc : ceillog2 x with
  | zero => omega
  | succ c =>
      have hlt : ¬x ≤ 2 ^ c := by
        rw [← ceillog2_le_iff hx, hc]
        omega
      rw [pow_succ]
      omega

omit [LawfulTableKey K] in
/-- A table without keys. -/
theorem Table.wellFormed_of_empty (hnode : ∀ i, t.node i = emptyNode)
    (hdummy : t.dummy = true → t.lsizenode = 0 ∧ t.lastfree = 0)
    (hlast : t.dummy = false → t.lastfree = t.sizenode) (harray : t.sizearray ≤ MAXASIZE)
    (hsize : t.lsizenode ≤ MAXBITS) : t.WellFormed := by
  have hnext : ∀ i, t.next i = none := fun i => by rw [next, hnode]; rfl
  have hkey : ∀ i, t.key? i = none := fun i => by rw [key?, hnode]; rfl
  have hlive : ∀ {i k}, (t.node i).key ≠ .live k := fun {i k} h => by rw [hnode] at h; cases h
  constructor
  case chains =>
    exact ⟨fun {a b c} ha => by simp [hnext] at ha, fun {a b} ha => by simp [hnext] at ha⟩
  case inside => exact fun i _ => hnode i
  case linked => exact fun i j hij => by simp [hnext] at hij
  case main => exact fun i k hk => by simp [hkey] at hk
  case own => exact fun i k hk => by simp [hkey] at hk
  case first => exact fun i j k k' hk => absurd hk hlive
  case free =>
    intro hd i hi hlt
    have := hlast hd
    omega
  case lastfree_le =>
    cases hd : t.dummy with
    | true => rw [(hdummy hd).2]; exact Nat.zero_le _
    | false => exact (hlast hd).le
  case value => exact fun i hi => absurd (by rw [hnode]; rfl) hi
  case refl => exact fun i k hk => absurd hk hlive
  case outside => exact fun i k m hk => absurd hk hlive
  case dummy => exact fun hd => ⟨(hdummy hd).1, hnode 0, (hdummy hd).2⟩
  case sizearray_le => exact harray
  case lsizenode_le => exact hsize

omit [TableKey K] [LawfulTableKey K] in
theorem setnodevector_cases (t : Table K V) (size : ℕ) :
    setnodevector t size = .error "table overflow" ∨
    ∃ t', setnodevector t size = .ok t' ∧ t'.array = t.array ∧ (∀ i, t'.node i = emptyNode) ∧
      (t'.dummy = true ↔ size = 0) ∧ (t'.dummy = true → t'.lsizenode = 0 ∧ t'.lastfree = 0) ∧
      (t'.dummy = false → t'.lastfree = t'.sizenode) ∧
      (t'.lsizenode = if size = 0 then 0 else ceillog2 size) ∧ t'.lsizenode ≤ MAXBITS := by
  rw [setnodevector]
  split
  · next hzero =>
      exact Or.inr ⟨_, rfl, rfl, fun _ => rfl, iff_of_true rfl hzero, fun _ => ⟨rfl, rfl⟩,
        fun hd => Bool.noConfusion hd, rfl, Nat.zero_le _⟩
  · next hne =>
      dsimp only
      split
      · exact Or.inl rfl
      · next hle =>
          exact Or.inr ⟨_, rfl, rfl, fun _ => rfl, iff_of_false Bool.false_ne_true hne,
            fun hd => Bool.noConfusion hd, fun _ => rfl, rfl, Nat.le_of_not_lt hle⟩

/-- Setting numbers is setting them as keys. -/
theorem reinsert_setnum (newkey : Table K V → K → Except String (Table K V × NodeSlot))
    {es : List (ℤ × V)} (hes : ∀ e ∈ es, -2 ^ 31 ≤ e.1 ∧ e.1 < 2 ^ 31) (t : Table K V) :
    reinsert (luaH_setnumWith newkey) es t =
      reinsert (luaH_setWith newkey) (es.map numberEntry) t := by
  induction es generalizing t with
  | nil => rfl
  | cons e es ih =>
      obtain ⟨m, v⟩ := e
      obtain ⟨hlo, hhi⟩ := hes _ List.mem_cons_self
      have hset : luaH_setWith newkey t (TableKey.ofInt m) = luaH_setnumWith newkey t m := by
        rw [luaH_setWith, luaH_get, toInt_ofInt hlo hhi, luaH_setnumWith]
        simp only [LawfulTableKey.ofInt_refl m hlo hhi, if_true]
      rw [List.map_cons, numberEntry, reinsert, reinsert, hset]
      exact bind_congr fun r => ih (fun e he => hes e (List.mem_cons_of_mem _ he)) _

omit [TableKey K] [LawfulTableKey K] in
theorem reinsert_append {α : Type} (set : Table K V → α → Except String (Table K V × NodeSlot))
    (es fs : List (α × V)) (t : Table K V) :
    reinsert set (es ++ fs) t = (reinsert set es t).bind fun t => reinsert set fs t := by
  induction es generalizing t with
  | nil => rfl
  | cons e es ih =>
      rw [List.cons_append, reinsert, reinsert]
      cases hset : set t e.1 with
      | error msg => rfl
      | ok r => exact ih _

/-- The keys of a table are distinct. -/
theorem entries_distinct (h : t.WellFormed) :
    (entries t).Pairwise fun a b => (a.1 == b.1) = false := by
  have hnumber : ∀ e ∈ sliceEntries 0 t.array, 1 ≤ e.1 ∧ e.1 ≤ t.sizearray := by
    rintro ⟨m, v⟩ he
    obtain ⟨j, hj, rfl⟩ := mem_sliceEntries.mp he
    have hlt : j < t.sizearray := (List.getElem?_eq_some_iff.mp hj).1
    dsimp only
    omega
  have hint : ∀ e ∈ sliceEntries 0 t.array,
      TableKey.toInt (TableKey.ofInt e.1 : K) = some e.1 := fun e he =>
    toInt_of_le h.sizearray_le (hnumber e he).1 (hnumber e he).2
  refine List.pairwise_append.mpr ⟨?_, ?_, ?_⟩
  · rw [List.pairwise_map]
    refine (sliceEntries_pairwise 0 t.array).imp_of_mem fun {a b} ha hb hab => ?_
    by_contra heq
    have := toInt_congr (Bool.not_eq_false _ ▸ heq)
    rw [numberEntry, numberEntry, hint a ha, hint b hb] at this
    exact hab.ne (Option.some.inj this)
  · rw [nodeEntries, List.pairwise_filterMap]
    refine List.nodup_range.imp fun {i j} hij a hi b hj => ?_
    by_contra heq
    have hia := Node.entry_eq_some.mp (show (t.node i).entry = some (a.1, a.2) from hi)
    have hjb := Node.entry_eq_some.mp (show (t.node j).entry = some (b.1, b.2) from hj)
    exact hij (h.live_unique hia.1 hjb.1 (Bool.not_eq_false _ ▸ heq))
  · rintro a ha b hb
    obtain ⟨e, he, rfl⟩ := List.mem_map.mp ha
    obtain ⟨i, hi⟩ := (mem_nodeEntries h).mp hb
    by_contra heq
    have hb' := Node.entry_eq_some.mp (show (t.node i).entry = some (b.1, b.2) from hi)
    have := toInt_congr (Bool.not_eq_false _ ▸ heq)
    rw [numberEntry, hint e he] at this
    exact h.outside i b.1 e.1 hb'.1 this.symm (hnumber e he)

theorem entries_refl (h : t.WellFormed) {e : K × V} (he : e ∈ entries t) :
    (e.1 == e.1) = true := by
  obtain he | he := List.mem_append.mp he
  · obtain ⟨⟨m, v⟩, hm, rfl⟩ := List.mem_map.mp he
    obtain ⟨j, hj, rfl⟩ := mem_sliceEntries.mp hm
    have hlt : j < t.sizearray := (List.getElem?_eq_some_iff.mp hj).1
    have := h.sizearray_le
    have hmax : MAXASIZE < 2 ^ 31 := by decide
    exact LawfulTableKey.ofInt_refl _ (by omega) (by push_cast at *; omega)
  · obtain ⟨i, hi⟩ := (mem_nodeEntries h).mp he
    exact h.refl i e.1 (Node.entry_eq_some.mp (show (t.node i).entry = some (e.1, e.2) from hi)).1

/-- The table that `resize` sets the entries in: the array part is cut or grown, the hash part
is empty. -/
structure Table.Emptied (t : Table K V) (nasize nhsize : ℕ) (t₀ : Table K V) : Prop where
  array : t₀.array = t.array.take nasize ++ List.replicate (nasize - t.sizearray) none
  node : ∀ i, t₀.node i = emptyNode
  dummy_iff : t₀.dummy = true ↔ nhsize = 0
  dummy : t₀.dummy = true → t₀.lsizenode = 0 ∧ t₀.lastfree = 0
  lastfree : t₀.dummy = false → t₀.lastfree = t₀.sizenode
  lsizenode : t₀.lsizenode = if nhsize = 0 then 0 else ceillog2 nhsize
  lsizenode_le : t₀.lsizenode ≤ MAXBITS

namespace Table.Emptied

variable {nasize nhsize : ℕ} {t₀ : Table K V}

omit [TableKey K] [LawfulTableKey K] in
theorem sizearray (h : t.Emptied nasize nhsize t₀) : t₀.sizearray = nasize := by
  rw [Table.sizearray, h.array, List.length_append, List.length_take, List.length_replicate,
    Table.sizearray]
  omega

omit [LawfulTableKey K] in
theorem wf (h : t.Emptied nasize nhsize t₀) (hna : nasize ≤ MAXASIZE) : t₀.WellFormed :=
  Table.wellFormed_of_empty h.node h.dummy h.lastfree (h.sizearray ▸ hna) h.lsizenode_le

omit [TableKey K] [LawfulTableKey K] in
theorem room (h : t.Emptied nasize nhsize t₀) : nhsize ≤ t₀.sizenode := by
  rw [Table.sizenode, h.lsizenode]
  split
  · omega
  · exact le_two_pow_ceillog2 (by omega)

/-- The entries that are set again. -/
def moved (t : Table K V) (nasize : ℕ) : List (K × V) :=
  (sliceEntries nasize (t.array.drop nasize)).map numberEntry ++ (nodeEntries t).reverse

omit [LawfulTableKey K] in
theorem perm (h : t.Emptied nasize nhsize t₀) :
    (entries t).Perm (entries t₀ ++ moved t nasize) := by
  have hnode : nodeEntries t₀ = [] := by
    rw [nodeEntries, List.filterMap_eq_nil_iff]
    intro i _
    rw [h.node]
    rfl
  have hcut : sliceEntries 0 t.array =
      sliceEntries 0 (t.array.take nasize) ++ sliceEntries nasize (t.array.drop nasize) := by
    conv_lhs => rw [← List.take_append_drop nasize t.array, sliceEntries_append]
    by_cases hle : nasize ≤ t.array.length
    · rw [List.length_take, Nat.min_eq_left hle, Nat.zero_add]
    · rw [List.drop_eq_nil_of_le (Nat.le_of_not_le hle)]
      rfl
  rw [entries, hcut, entries, hnode, List.append_nil, h.array, sliceEntries_append,
    sliceEntries_replicate, List.append_nil, List.map_append, List.append_assoc, moved]
  exact (List.reverse_perm _).symm.append_left _ |>.append_left _

omit [TableKey K] [LawfulTableKey K] in
theorem cases (t : Table K V) (nasize nhsize : ℕ) :
    setnodevector (if nasize > t.sizearray then setarrayvector t nasize else t) nhsize =
      .error "table overflow" ∨
    ∃ t₁, setnodevector (if nasize > t.sizearray then setarrayvector t nasize else t) nhsize =
      .ok t₁ ∧ t.Emptied nasize nhsize { t₁ with array := t₁.array.take nasize } := by
  obtain herr | ⟨t₁, hok, harr, hnode, hiff, hdummy, hlast, hroom, hle⟩ :=
    setnodevector_cases (if nasize > t.sizearray then setarrayvector t nasize else t) nhsize
  · exact Or.inl herr
  · refine Or.inr ⟨t₁, hok, ?_, hnode, hiff, hdummy, hlast, hroom, hle⟩
    rw [harr]
    by_cases hgrow : nasize > t.sizearray
    · rw [if_pos hgrow, setarrayvector, List.take_of_length_le]
      rw [List.length_append, List.length_take, List.length_replicate, Table.sizearray]
      omega
    · rw [if_neg hgrow]
      have hzero : nasize - t.sizearray = 0 := by omega
      rw [hzero, List.replicate_zero, List.append_nil]

end Table.Emptied

/-- **Resizing keeps the values.** The only failure is a hash part that is too large. -/
theorem resize_spec (h : t.WellFormed) {nasize nhsize : ℕ} (hna : nasize ≤ MAXASIZE)
    (hroom : outsideArray nasize (entries t) ≤ nhsize)
    (rehash : Table K V → K → Except String (Table K V × NodeSlot)) :
    resizeWith (newkeyWith rehash) t nasize nhsize = .error "table overflow" ∨
    ∃ t', resizeWith (newkeyWith rehash) t nasize nhsize = .ok t' ∧ t'.WellFormed ∧
      (∀ k, rawget t' k = rawget t k) ∧ t'.sizearray = nasize ∧
      (t'.dummy = true ↔ nhsize = 0) ∧
      (t'.lsizenode = if nhsize = 0 then 0 else ceillog2 nhsize) ∧
      nhsize ≤ t'.freeNodes + outsideArray nasize (entries t) := by
  rw [resizeWith]
  obtain herr | ⟨t₁, hok, hempty⟩ := Table.Emptied.cases t nasize nhsize
  · left
    rw [herr]
    rfl
  right
  set t₀ : Table K V := { t₁ with array := t₁.array.take nasize }
  have hwf := hempty.wf hna
  have hperm := hempty.perm
  have hsymm : ∀ a b : K × V, (a.1 == b.1) = false → (b.1 == a.1) = false := by
    intro a b hab
    rw [BEq.comm, hab]
  have hdist : (entries t₀ ++ Table.Emptied.moved t nasize).Pairwise
      fun a b => (a.1 == b.1) = false :=
    (hperm.pairwise_iff fun {a b} => hsymm a b).mp (entries_distinct h)
  obtain ⟨-, hmoved, hcross⟩ := List.pairwise_append.mp hdist
  have hmem : ∀ {e}, e ∈ Table.Emptied.moved t nasize → e ∈ entries t := fun he =>
    hperm.mem_iff.mpr (List.mem_append_right _ he)
  have hcount : outsideArray nasize (Table.Emptied.moved t nasize) ≤
      outsideArray nasize (entries t) := by
    rw [outsideArray, outsideArray, hperm.countP_eq, List.countP_append]
    exact Nat.le_add_left _ _
  have hfree : t₀.freeNodes = t₀.sizenode := Table.freeNodes_of_empty hempty.node
  obtain ⟨t', heq, hwf', hget, harr, hdummy, hlsize, hfree'⟩ :=
    reinsert_spec rehash hwf (fun e he => entries_refl h (hmem he)) hmoved
      (fun e he => by
        by_contra hsome
        obtain ⟨v, hv⟩ := Option.ne_none_iff_exists'.mp hsome
        obtain ⟨k, hk, heq⟩ := (rawget_eq_some_iff_mem hwf).mp hv
        have := hcross _ hk e he
        rw [heq] at this
        cases this)
      (by
        rw [hempty.sizearray, hfree]
        exact hcount.trans (hroom.trans hempty.room))
      (fun hd => by
        have := hempty.dummy_iff.mp hd
        rw [hempty.sizearray]
        omega)
  refine ⟨t', ?_, hwf', fun k => Option.ext fun v => ?_, harr.trans hempty.sizearray, ?_,
    hlsize.trans hempty.lsizenode, ?_⟩
  · rw [hok]
    change (reinsert (luaH_setnumWith _) _ t₀).bind _ = _
    rw [reinsert_setnum]
    · rw [Table.Emptied.moved, reinsert_append] at heq
      exact heq
    · rintro ⟨m, v⟩ hm
      obtain ⟨j, hj, rfl⟩ := mem_sliceEntries.mp hm
      have hlt : nasize + j < t.sizearray := by
        rw [List.getElem?_drop] at hj
        exact (List.getElem?_eq_some_iff.mp hj).1
      have := h.sizearray_le
      have hmax : MAXASIZE < 2 ^ 31 := by decide
      push_cast at *
      omega
  · rw [hget, rawget_eq_some_iff_mem hwf, rawget_eq_some_iff_mem h, ← exists_or]
    refine exists_congr fun k' => ?_
    rw [← or_and_right, hperm.mem_iff, List.mem_append]
    exact and_congr_left fun _ => Or.comm
  · rw [hdummy]
    exact hempty.dummy_iff
  · rw [hempty.sizearray, hfree] at hfree'
    have := hempty.room
    omega

end

end UnityLua
