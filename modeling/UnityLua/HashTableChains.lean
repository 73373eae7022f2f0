import UnityLua.HashTables

/-!
# The chains of a table

What holds of the hash part of every table: the links make chains, each key is met from its main
position, a main position that some key has is taken by a key that has it too, and a key that
is there is in front of the same key that was collected. A new key keeps this, in each of the
three ways it is put into the table.

## Main results

* `luaH_get_eq_some`: where a key is found.
* `Table.WellFormed.newkeyWith_cases`: a new key is put in, or the table is made again.
-/

namespace UnityLua

open Library

variable {K V : Type}

/-- The key of a node, collected or not. -/
def NodeKey.key? : NodeKey K → Option K
  | .nil => none
  | .dead k => some k
  | .live k => some k

@[simp] theorem NodeKey.key?_nil : (NodeKey.nil : NodeKey K).key? = none := rfl

@[simp] theorem NodeKey.key?_dead (k : K) : (NodeKey.dead k).key? = some k := rfl

@[simp] theorem NodeKey.key?_live (k : K) : (NodeKey.live k).key? = some k := rfl

@[simp] theorem NodeKey.key?_eq_none {k : NodeKey K} : k.key? = none ↔ k = .nil := by
  cases k <;> simp [NodeKey.key?]

def Table.key? (t : Table K V) (i : ℕ) : Option K := (t.node i).key.key?

theorem Node.entry_eq_some {n : Node K V} {k : K} {v : V} :
    n.entry = some (k, v) ↔ n.key = .live k ∧ n.val = some v := by
  obtain ⟨_ | k' | k', _ | v', next⟩ := n <;> simp [Node.entry]

/-- A node without a value has no entry. -/
theorem Node.entry_of_val {n : Node K V} (hn : n.val = none) : n.entry = none := by
  obtain ⟨_ | k | k, v, next⟩ := n <;> subst hn <;> rfl

theorem Node.entry_congr {n n' : Node K V} (hkey : n.key = n'.key) (hval : n.val = n'.val) :
    n.entry = n'.entry := by
  obtain ⟨key, val, next⟩ := n
  obtain ⟨key', val', next'⟩ := n'
  subst hkey hval
  rfl

section

variable [TableKey K]

/-- What holds of every table. -/
structure Table.WellFormed (t : Table K V) : Prop where
  chains : Chains t.next
  inside : ∀ i, t.sizenode ≤ i → t.node i = emptyNode
  linked : ∀ i j, t.next i = some j → t.key? i ≠ none ∧ t.key? j ≠ none
  main : ∀ i k, t.key? i = some k → Ahead t.next (mainposition t k) i
  own : ∀ i k, t.key? i = some k →
    ∃ k', t.key? (mainposition t k) = some k' ∧ mainposition t k' = mainposition t k
  first : ∀ i j k k', (t.node i).key = .live k → t.key? j = some k' → (k == k') = true →
    Ahead t.next i j
  free : t.dummy = false → ∀ i, t.lastfree ≤ i → i < t.sizenode → t.key? i ≠ none
  lastfree_le : t.lastfree ≤ t.sizenode
  value : ∀ i, (t.node i).val ≠ none → ∃ k, (t.node i).key = .live k
  refl : ∀ i k, (t.node i).key = .live k → (k == k) = true
  outside : ∀ i k m, (t.node i).key = .live k → TableKey.toInt k = some m →
    ¬(1 ≤ m ∧ m ≤ t.sizearray)
  dummy : t.dummy = true → t.lsizenode = 0 ∧ t.node 0 = emptyNode ∧ t.lastfree = 0
  sizearray_le : t.sizearray ≤ MAXASIZE
  lsizenode_le : t.lsizenode ≤ MAXBITS

variable {t : Table K V} {key : K}

theorem NodeKey.holds_iff {n : NodeKey K} :
    n.holds key = true ↔ ∃ k, n = .live k ∧ (k == key) = true := by
  cases n <;> simp [NodeKey.holds]

namespace Table.WellFormed

/-- A node that never had a key is in no chain. -/
theorem isolated (h : t.WellFormed) {i : ℕ} (hi : t.key? i = none) : Isolated t.next i := by
  constructor
  · cases hn : t.next i with
    | none => rfl
    | some j => exact absurd hi (h.linked i j hn).1
  · exact fun a ha => (h.linked a i ha).2 hi

theorem node_of_dummy (h : t.WellFormed) (hd : t.dummy = true) (i : ℕ) : t.node i = emptyNode := by
  obtain ⟨hsize, hnode, -⟩ := h.dummy hd
  cases i with
  | zero => exact hnode
  | succ i => exact h.inside _ (by simp [Table.sizenode, hsize])

theorem val_none (h : t.WellFormed) {i : ℕ} (hi : t.key? i = none) : (t.node i).val = none := by
  by_contra hv
  obtain ⟨k, hk⟩ := h.value i hv
  simp [key?, hk] at hi

theorem lt_sizenode (h : t.WellFormed) {i : ℕ} {k : K} (hi : t.key? i = some k) :
    i < t.sizenode := by
  by_contra hle
  rw [key?, h.inside i (Nat.le_of_not_lt hle)] at hi
  simp [emptyNode] at hi

/-- What is met from a node is in the table. -/
theorem lt_of_ahead (h : t.WellFormed) {i j : ℕ} (hi : i < t.sizenode)
    (hij : Ahead t.next i j) : j < t.sizenode := by
  obtain rfl | ⟨c, -, hc⟩ := Relation.ReflTransGen.cases_tail hij
  · exact hi
  · obtain ⟨k, hk⟩ := Option.ne_none_iff_exists'.mp (h.linked c j hc).2
    exact h.lt_sizenode hk

/-- A search along a chain fails only if nothing on the chain is what is searched. -/
theorem search_none (h : t.WellFormed) {p : ℕ → Bool} {i j : ℕ} (hi : i < t.sizenode)
    (hnone : search t.next p t.sizenode i = none) (hij : Ahead t.next i j) : p j = false :=
  Library.search_none h.chains (s := Finset.range t.sizenode)
    (fun _ hc => Finset.mem_range.mpr (h.lt_of_ahead hi hc)) (Finset.card_range _).le hnone hij

end Table.WellFormed

variable [LawfulTableKey K]

theorem mainposition_lt (t : Table K V) (key : K) : mainposition t key < t.sizenode :=
  LawfulTableKey.mainposition_lt _ _

theorem mainposition_congr (t : Table K V) {k k' : K} (h : (k == k') = true) :
    mainposition t k = mainposition t k' := LawfulTableKey.mainposition_congr _ h

/-- Equal keys are the same number. -/
theorem toInt_congr {k k' : K} (h : (k == k') = true) :
    TableKey.toInt k = TableKey.toInt k' := by
  have hsub : ∀ {k k' : K}, (k == k') = true → ∀ m, TableKey.toInt k = some m →
      TableKey.toInt k' = some m := by
    intro k k' hk m hm
    obtain ⟨hlo, hhi, heq⟩ := LawfulTableKey.toInt_eq_some.mp hm
    exact LawfulTableKey.toInt_eq_some.mpr ⟨hlo, hhi, BEq.trans heq hk⟩
  exact Option.ext fun m => ⟨hsub h m, hsub (BEq.symm h) m⟩

theorem toInt_ofInt {m : ℤ} (hlo : -2 ^ 31 ≤ m) (hhi : m < 2 ^ 31) :
    TableKey.toInt (TableKey.ofInt m : K) = some m :=
  LawfulTableKey.toInt_eq_some.mpr ⟨hlo, hhi, LawfulTableKey.ofInt_refl m hlo hhi⟩

namespace Table.WellFormed

/-- Of one key there is one live node. -/
theorem live_unique (h : t.WellFormed) {i j : ℕ} {k k' : K} (hi : (t.node i).key = .live k)
    (hj : (t.node j).key = .live k') (hk : (k == k') = true) : i = j :=
  h.chains.antisymm (h.first i j k k' hi (by simp [key?, hj]) hk)
    (h.first j i k' k hj (by simp [key?, hi]) (BEq.symm hk))

theorem searchKey_eq_some (h : t.WellFormed) {s : NodeSlot} :
    searchKey t key = some s ↔
      ∃ i k, s = .node i ∧ (t.node i).key = .live k ∧ (k == key) = true := by
  rw [searchKey, Option.map_eq_some_iff]
  constructor
  · rintro ⟨i, hi, rfl⟩
    obtain ⟨k, hk, heq⟩ := NodeKey.holds_iff.mp (search_some hi).2
    exact ⟨i, k, rfl, hk, heq⟩
  · rintro ⟨i, k, rfl, hk, heq⟩
    have hmain : Ahead t.next (mainposition t key) i :=
      mainposition_congr t heq ▸ h.main i k (by simp [key?, hk])
    cases hs : search t.next (fun i => (t.node i).key.holds key) t.sizenode
        (mainposition t key) with
    | none =>
        have := h.search_none (mainposition_lt t key) hs hmain
        exact absurd (NodeKey.holds_iff.mpr ⟨k, hk, heq⟩) (Bool.eq_false_iff.mp this)
    | some j =>
        obtain ⟨k', hk', heq'⟩ := NodeKey.holds_iff.mp (search_some hs).2
        exact ⟨j, rfl, by rw [h.live_unique hk' hk (BEq.trans heq' (BEq.symm heq))]⟩

/-- Where a key is found: in the array part if it is a number there, and otherwise in the node
that has it. -/
theorem luaH_get_eq_some (h : t.WellFormed) {s : NodeSlot} :
    luaH_get t key = some s ↔
      (∃ m, TableKey.toInt key = some m ∧ 1 ≤ m ∧ m ≤ t.sizearray ∧
        s = .array (m - 1).toNat) ∨
      ∃ i k, s = .node i ∧ (t.node i).key = .live k ∧ (k == key) = true := by
  rw [luaH_get]
  cases hkey : TableKey.toInt key with
  | none => simp only [h.searchKey_eq_some, reduceCtorEq, false_and, exists_false, false_or]
  | some m =>
      have heq : (TableKey.ofInt m == key) = true := (LawfulTableKey.toInt_eq_some.mp hkey).2.2
      simp only [luaH_getnum, Option.some.injEq, exists_eq_left']
      split
      · next hm =>
          simp only [Option.some.injEq, hm, true_and]
          constructor
          · exact fun hs => Or.inl hs.symm
          · rintro (hs | ⟨i, k, -, hk, hkk⟩)
            · exact hs.symm
            · exact absurd hm (h.outside i k m hk ((toInt_congr hkk).trans hkey))
      · next hm =>
          rw [h.searchKey_eq_some]
          constructor
          · rintro ⟨i, k, hs, hk, hkk⟩
            exact Or.inr ⟨i, k, hs, hk, BEq.trans hkk heq⟩
          · rintro (⟨hlo, hhi, -⟩ | ⟨i, k, hs, hk, hkk⟩)
            · exact absurd ⟨hlo, hhi⟩ hm
            · exact ⟨i, k, hs, hk, BEq.trans hkk (BEq.symm heq)⟩

end Table.WellFormed

/-- A key that is not found: no node has it, and it is not a number of the array part. -/
structure Table.Absent (t : Table K V) (key : K) : Prop where
  node : ∀ i k, (t.node i).key = .live k → (k == key) = false
  array : ∀ m, TableKey.toInt key = some m → ¬(1 ≤ m ∧ m ≤ t.sizearray)

theorem Table.WellFormed.luaH_get_eq_none (h : t.WellFormed) : luaH_get t key = none ↔ t.Absent key := by
  constructor
  · intro hnone
    refine ⟨fun i k hk => ?_, fun m hm hin => ?_⟩
    · by_contra heq
      have hsome : luaH_get t key = some (.node i) :=
        h.luaH_get_eq_some.mpr (Or.inr ⟨i, k, rfl, hk, Bool.not_eq_false _ ▸ heq⟩)
      rw [hnone] at hsome
      cases hsome
    · have hsome := h.luaH_get_eq_some.mpr (Or.inl ⟨m, hm, hin.1, hin.2, rfl⟩)
      rw [hnone] at hsome
      cases hsome
  · intro habs
    by_contra hsome
    obtain ⟨s, hs⟩ := Option.ne_none_iff_exists'.mp hsome
    obtain ⟨m, hm, hlo, hhi, -⟩ | ⟨i, k, -, hk, heq⟩ := h.luaH_get_eq_some.mp hs
    · exact habs.array m hm ⟨hlo, hhi⟩
    · rw [habs.node i k hk] at heq
      exact Bool.noConfusion heq

/-! ### The three ways to put a new key into a table -/

/-- `t'` is the table with a new key in the node `i`, without a value. -/
structure Table.Inserted (t : Table K V) (key : K) (t' : Table K V) (i : ℕ) : Prop where
  wf : t'.WellFormed
  array : t'.array = t.array
  lsizenode : t'.lsizenode = t.lsizenode
  dummy : t'.dummy = t.dummy
  key : (t'.node i).key = .live key
  val : (t'.node i).val = none
  entry : ∀ e, (∃ j, (t'.node j).entry = some e) ↔ ∃ j, (t.node j).entry = some e
  free : ∃ x, ∀ j, j ≠ x → t.key? j = none → t'.key? j = none

namespace Table

omit [LawfulTableKey K] in
/-- What is common to the three ways: the nodes but the one of the new key are those of before,
in other places, the chains go on, and no main position of a key is moved. -/
theorem WellFormed.inserted (h : t.WellFormed) (hkey : (key == key) = true)
    (habs : t.Absent key) {t' : Table K V} {p : ℕ} {f : Equiv.Perm ℕ}
    (harray : t'.array = t.array) (hlsize : t'.lsizenode = t.lsizenode)
    (hdummy : t.dummy = false) (hdummy' : t'.dummy = t.dummy)
    (hfixed : ∀ i, t.sizenode ≤ i → t'.node i = t.node i)
    (hp : (t'.node p).key = .live key) (hpv : (t'.node p).val = none)
    (hσp : (t.node (f p)).val = none)
    (hkeys : ∀ i, i ≠ p → (t'.node i).key = (t.node (f i)).key)
    (hvals : ∀ i, i ≠ p → (t'.node i).val = (t.node (f i)).val)
    (hchains : Chains t'.next)
    (hlinked : ∀ i j, t'.next i = some j → t'.key? i ≠ none ∧ t'.key? j ≠ none)
    (hahead : ∀ i j, Ahead t.next (f i) (f j) → Ahead t'.next i j)
    (hmain : Ahead t'.next (mainposition t key) p)
    (hown : ∃ k, t'.key? (mainposition t key) = some k ∧
      mainposition t k = mainposition t key)
    (hfirst : ∀ j k, t'.key? j = some k → (key == k) = true → Ahead t'.next p j)
    (hmains : ∀ i k, t.key? i = some k → f (mainposition t k) = mainposition t k ∧
      (mainposition t k = p → mainposition t key = p))
    (hfree : ∀ i, t'.lastfree ≤ i → i < t.sizenode → t'.key? i ≠ none)
    (hlast : t'.lastfree ≤ t.sizenode)
    (hnil : ∃ x, ∀ j, j ≠ x → t.key? j = none → t'.key? j = none) :
    t.Inserted key t' p := by
  have hkp : t'.key? p = some key := by rw [key?, hp, NodeKey.key?_live]
  have hk : ∀ {i}, i ≠ p → t'.key? i = t.key? (f i) := fun hi => by rw [key?, hkeys _ hi, key?]
  have hmp : ∀ k, mainposition t' k = mainposition t k := fun k => by
    rw [mainposition, hlsize, mainposition]
  have hsize : t'.sizenode = t.sizenode := by rw [sizenode, hlsize, sizenode]
  have harr : t'.sizearray = t.sizearray := by rw [sizearray, harray, sizearray]
  have hlive : ∀ {k}, (t'.node p).key = .live k → key = k := fun hpk =>
    NodeKey.live.inj (hp.symm.trans hpk)
  refine ⟨⟨hchains, ?inside, hlinked, ?main, ?own, ?first,
    fun _ i hi hlt => hfree i hi (hsize ▸ hlt),
    hsize ▸ hlast, ?value, ?refl, ?outside, ?dummy, harr ▸ h.sizearray_le,
    hlsize ▸ h.lsizenode_le⟩, harray, hlsize, hdummy', hp, hpv, ?entry, hnil⟩
  case inside => exact fun i hi => (hfixed i (hsize ▸ hi)).trans (h.inside i (hsize ▸ hi))
  case main =>
    intro i k hik
    rw [hmp]
    obtain rfl | hi := eq_or_ne i p
    · obtain rfl := Option.some.inj (hkp.symm.trans hik)
      exact hmain
    · rw [hk hi] at hik
      have hold := h.main _ k hik
      rw [← (hmains _ k hik).1] at hold
      exact hahead _ _ hold
  case own =>
    intro i k hik
    simp only [hmp]
    obtain rfl | hi := eq_or_ne i p
    · obtain rfl := Option.some.inj (hkp.symm.trans hik)
      exact hown
    · rw [hk hi] at hik
      obtain ⟨hfix, hpos⟩ := hmains _ k hik
      by_cases hq : mainposition t k = p
      · exact ⟨key, hq ▸ hkp, (hpos hq).trans hq.symm⟩
      · rw [hk hq, hfix]
        exact h.own _ k hik
  case first =>
    intro i j k k' hi hj hkk
    obtain rfl | hip := eq_or_ne i p
    · obtain rfl := hlive hi
      exact hfirst j k' hj hkk
    · rw [hkeys i hip] at hi
      obtain rfl | hjp := eq_or_ne j p
      · obtain rfl := Option.some.inj (hkp.symm.trans hj)
        exact absurd (habs.node _ k hi) (by simp [hkk])
      · rw [hk hjp] at hj
        exact hahead _ _ (h.first _ _ k k' hi hj hkk)
  case value =>
    intro i hi
    obtain rfl | hip := eq_or_ne i p
    · exact ⟨key, hp⟩
    · rw [hvals i hip] at hi
      rw [hkeys i hip]
      exact h.value _ hi
  case refl =>
    intro i k hi
    obtain rfl | hip := eq_or_ne i p
    · exact hlive hi ▸ hkey
    · exact h.refl _ k (hkeys i hip ▸ hi)
  case outside =>
    intro i k m hi hm
    rw [harr]
    obtain rfl | hip := eq_or_ne i p
    · exact habs.array m (hlive hi ▸ hm)
    · exact h.outside _ k m (hkeys i hip ▸ hi) hm
  case dummy => exact fun hd => absurd hd (by simp [hdummy', hdummy])
  case entry =>
    intro e
    have hentry : ∀ {i}, i ≠ p → (t'.node i).entry = (t.node (f i)).entry := fun hi =>
      Node.entry_congr (hkeys _ hi) (hvals _ hi)
    constructor
    · rintro ⟨j, hj⟩
      have hjp : j ≠ p := by
        rintro rfl
        rw [Node.entry_of_val hpv] at hj
        cases hj
      exact ⟨f j, hentry hjp ▸ hj⟩
    · rintro ⟨j, hj⟩
      have hjp : f.symm j ≠ p := by
        rintro rfl
        rw [f.apply_symm_apply] at hσp
        rw [Node.entry_of_val hσp] at hj
        cases hj
      exact ⟨f.symm j, by rw [hentry hjp, f.apply_symm_apply, hj]⟩

/-- The new key in its main position. -/
theorem WellFormed.inserted_main (h : t.WellFormed) (hkey : (key == key) = true)
    (habs : t.Absent key) (hdummy : t.dummy = false)
    (hval : (t.node (mainposition t key)).val = none) :
    t.Inserted key
      { t with node := (Function.update t.node (mainposition t key)
        { t.node (mainposition t key) with key := .live key }) } (mainposition t key) := by
  set mp := mainposition t key with hmp
  set t' : Table K V :=
    { t with node := Function.update t.node mp { t.node mp with key := .live key } } with ht'
  have hself : (t'.node mp).key = .live key := by simp [ht']
  have hother : ∀ {i}, i ≠ mp → t'.node i = t.node i := fun hi => Function.update_of_ne hi ..
  have hnext : t'.next = t.next := by
    funext i
    obtain rfl | hi := eq_or_ne i mp
    · simp [ht', next]
    · rw [next, hother hi, next]
  have hkself : t'.key? mp = some key := by rw [key?, hself, NodeKey.key?_live]
  have hkother : ∀ {i}, i ≠ mp → t'.key? i = t.key? i := fun hi => by rw [key?, hother hi, key?]
  have hkmono : ∀ {i}, t.key? i ≠ none → t'.key? i ≠ none := by
    intro i hi
    obtain rfl | hne := eq_or_ne i mp
    · simp [hkself]
    · rwa [hkother hne]
  refine h.inserted (f := Equiv.refl ℕ) hkey habs rfl rfl hdummy rfl ?fixed hself
    (by simpa [ht'] using hval) hval (fun i hi => by rw [hother hi]; rfl)
    (fun i hi => by rw [hother hi]; rfl) (hnext ▸ h.chains) ?linked (fun i j hij => hnext ▸ hij)
    (Ahead.refl _) ⟨key, hkself, rfl⟩ ?first (fun i k _ => ⟨rfl, fun _ => rfl⟩)
    (fun i hi hlt => hkmono (h.free hdummy i hi hlt)) h.lastfree_le
    ⟨mp, fun j hj hk => (hkother hj).trans hk⟩
  case fixed =>
    intro i hi
    refine hother fun hne => ?_
    have := mainposition_lt t key
    omega
  case linked =>
    intro i j hij
    rw [hnext] at hij
    exact ⟨hkmono (h.linked i j hij).1, hkmono (h.linked i j hij).2⟩
  case first =>
    intro j k hj hkk
    rw [hnext]
    obtain rfl | hjmp := eq_or_ne j mp
    · exact Ahead.refl _
    · rw [hkother hjmp] at hj
      exact hmp ▸ mainposition_congr t hkk ▸ h.main j k hj

/-- The new key in a free node behind the one in its main position. -/
theorem WellFormed.inserted_after (h : t.WellFormed) (hkey : (key == key) = true)
    (habs : t.Absent key) (hdummy : t.dummy = false) {n : ℕ} {k₀ : K}
    (hk₀ : (t.node (mainposition t key)).key = .live k₀)
    (hpos : mainposition t k₀ = mainposition t key)
    (hn : t.key? n = none) (hnlt : n < t.sizenode)
    (hafter : ∀ i, n < i → i < t.sizenode → t.key? i ≠ none) {t' : Table K V}
    (ht' : t' = { t with
      lastfree := n
      node := Function.update (Function.update t.node n
          ⟨.live key, (t.node n).val, (t.node (mainposition t key)).next⟩) (mainposition t key)
        { t.node (mainposition t key) with next := some n } }) :
    t.Inserted key t' n := by
  set mp := mainposition t key with hmp
  have hnmp : n ≠ mp := by
    rintro rfl
    simp [key?, hk₀] at hn
  have hiso := h.isolated hn
  have hself : t'.node n = ⟨.live key, none, t.next mp⟩ := by
    simp [ht', Function.update_of_ne hnmp, h.val_none hn, next]
  have hmpnode : t'.node mp = { t.node mp with next := some n } := by simp [ht']
  have hother : ∀ {i}, i ≠ n → i ≠ mp → t'.node i = t.node i := fun hi hi' => by
    simp [ht', Function.update_of_ne hi, Function.update_of_ne hi']
  have hnext : t'.next = insertAfter t.next mp n := by
    funext i
    obtain rfl | hi := eq_or_ne i mp
    · rw [insertAfter_self, next, hmpnode]
    · obtain rfl | hin := eq_or_ne i n
      · rw [insertAfter_new hi, next, hself]
      · rw [insertAfter_of_ne hi hin, next, hother hin hi, next]
  have hkeys : ∀ i, i ≠ n → (t'.node i).key = (t.node i).key := by
    intro i hi
    obtain rfl | himp := eq_or_ne i mp
    · rw [hmpnode]
    · rw [hother hi himp]
  have hvals : ∀ i, i ≠ n → (t'.node i).val = (t.node i).val := by
    intro i hi
    obtain rfl | himp := eq_or_ne i mp
    · rw [hmpnode]
    · rw [hother hi himp]
  have hkn : t'.key? n = some key := by rw [key?, hself, NodeKey.key?_live]
  have hk : ∀ {i}, i ≠ n → t'.key? i = t.key? i := fun hi => by rw [key?, hkeys _ hi, key?]
  have hkmono : ∀ {i}, t.key? i ≠ none → t'.key? i ≠ none := by
    intro i hi
    have hin : i ≠ n := by
      rintro rfl
      exact hi hn
    rwa [hk hin]
  have hkmp : t.key? mp = some k₀ := by rw [key?, hk₀, NodeKey.key?_live]
  have hahead : ∀ i j, Ahead t.next i j → Ahead t'.next i j := fun i j hij =>
    hnext ▸ hij.insertAfter hiso hnmp
  refine h.inserted (f := Equiv.refl ℕ) hkey habs (by rw [ht']) (by rw [ht']) hdummy
    (by rw [ht']) ?fixed (by rw [hself]) (by rw [hself]) (h.val_none hn) hkeys hvals
    (hnext ▸ h.chains.insertAfter hiso hnmp) ?linked hahead ?main ⟨k₀, ?own, hpos⟩ ?first
    (fun i k hik => ⟨rfl, fun hpn => ?mains⟩) ?free (by rw [ht']; exact hnlt.le)
    ⟨n, fun j hj hkj => (hk hj).trans hkj⟩
  case fixed =>
    intro i hi
    have := mainposition_lt t key
    exact hother (by omega) (by omega)
  case linked =>
    intro i j hij
    rw [hnext] at hij
    obtain rfl | himp := eq_or_ne i mp
    · obtain rfl := Option.some.inj (insertAfter_self.symm.trans hij)
      exact ⟨hkmono (by simp [hkmp]), by simp [hkn]⟩
    · obtain rfl | hin := eq_or_ne i n
      · rw [insertAfter_new himp] at hij
        exact ⟨by simp [hkn], hkmono (h.linked mp j hij).2⟩
      · rw [insertAfter_of_ne himp hin] at hij
        exact ⟨hkmono (h.linked i j hij).1, hkmono (h.linked i j hij).2⟩
  case main => exact (Ahead.refl mp).tail (hnext ▸ insertAfter_self)
  case own => rw [hk hnmp.symm, hkmp]
  case first =>
    intro j k hj hkk
    obtain rfl | hjn := eq_or_ne j n
    · exact Ahead.refl _
    · rw [hk hjn] at hj
      have hjmp : j ≠ mp := by
        rintro rfl
        obtain rfl := Option.some.inj (hkmp.symm.trans hj)
        exact absurd (habs.node _ _ hk₀) (by simp [BEq.symm hkk])
      have hold : Ahead t.next mp j := hmp ▸ mainposition_congr t hkk ▸ h.main j k hj
      exact hnext ▸ hold.from_new hiso hnmp hjmp
  case mains =>
    obtain ⟨k', hk', -⟩ := h.own i k hik
    rw [hpn, hn] at hk'
    cases hk'
  case free =>
    intro i hi hlt
    obtain rfl | hin := eq_or_ne i n
    · simp [hkn]
    · have hni : n ≤ i := by rwa [ht'] at hi
      exact hkmono (hafter i (by omega) hlt)

/-- The new key in its main position, from which a node is moved that was not in its own. -/
theorem WellFormed.inserted_moved (h : t.WellFormed) (hkey : (key == key) = true)
    (habs : t.Absent key) (hdummy : t.dummy = false) {n q : ℕ} {k₀ : K}
    (hk₀ : (t.node (mainposition t key)).key = .live k₀)
    (hpos : mainposition t k₀ ≠ mainposition t key)
    (hq : t.next q = some (mainposition t key))
    (hn : t.key? n = none) (hnlt : n < t.sizenode)
    (hafter : ∀ i, n < i → i < t.sizenode → t.key? i ≠ none) {t' : Table K V}
    (ht' : t' = { t with
      lastfree := n
      node := Function.update (Function.update (Function.update t.node q
            { t.node q with next := some n }) n (t.node (mainposition t key)))
          (mainposition t key) ⟨.live key, none, none⟩ }) :
    t.Inserted key t' (mainposition t key) := by
  set mp := mainposition t key with hmp
  have hiso := h.isolated hn
  have hkmp : t.key? mp = some k₀ := by rw [key?, hk₀, NodeKey.key?_live]
  have hnmp : n ≠ mp := by
    rintro rfl
    simp [hkmp] at hn
  have hqmp : q ≠ mp := fun hqm => h.chains.acyclic hq (hqm ▸ Ahead.refl q)
  have hqn : q ≠ n := by
    rintro rfl
    simp [hiso.out] at hq
  have hself : t'.node mp = ⟨.live key, none, none⟩ := by simp [ht']
  have hnnode : t'.node n = t.node mp := by simp [ht', Function.update_of_ne hnmp]
  have hqnode : t'.node q = { t.node q with next := some n } := by
    simp [ht', Function.update_of_ne hqmp, Function.update_of_ne hqn]
  have hother : ∀ {i}, i ≠ q → i ≠ n → i ≠ mp → t'.node i = t.node i := fun hi hi' hi'' => by
    simp [ht', Function.update_of_ne hi, Function.update_of_ne hi', Function.update_of_ne hi'']
  have hnext : t'.next = moved t.next mp n := by
    rw [← update_eq_moved h.chains hiso hq]
    funext i
    obtain rfl | himp := eq_or_ne i mp
    · rw [Function.update_self, next, hself]
    rw [Function.update_of_ne himp]
    obtain rfl | hin := eq_or_ne i n
    · rw [Function.update_self, next, hnnode, next]
    rw [Function.update_of_ne hin]
    obtain rfl | hiq := eq_or_ne i q
    · rw [Function.update_self, next, hqnode]
    · rw [Function.update_of_ne hiq, next, hother hiq hin himp, next]
  -- but for the new key and the links, `mp` and `n` have changed places
  have hswap : ∀ i, i ≠ mp → (t'.node i).key = (t.node (Equiv.swap mp n i)).key ∧
      (t'.node i).val = (t.node (Equiv.swap mp n i)).val := by
    intro i himp
    obtain rfl | hin := eq_or_ne i n
    · rw [hnnode, Equiv.swap_apply_right]
      exact ⟨rfl, rfl⟩
    · rw [Equiv.swap_apply_of_ne_of_ne himp hin]
      obtain rfl | hiq := eq_or_ne i q
      · rw [hqnode]
        exact ⟨rfl, rfl⟩
      · rw [hother hiq hin himp]
        exact ⟨rfl, rfl⟩
  have hkself : t'.key? mp = some key := by rw [key?, hself, NodeKey.key?_live]
  have hk : ∀ {i}, i ≠ mp → t'.key? i = t.key? (Equiv.swap mp n i) := fun hi => by
    rw [key?, (hswap _ hi).1, key?]
  -- a key of this main position would have moved the node away before
  have hmains : ∀ i k, t.key? i = some k → mainposition t k ≠ mp ∧ mainposition t k ≠ n := by
    intro i k hik
    obtain ⟨k', hk', hsame⟩ := h.own i k hik
    constructor
    · intro hmain
      rw [hmain, hkmp] at hk'
      obtain rfl := Option.some.inj hk'
      exact hpos (hsame.trans hmain)
    · intro hmain
      rw [hmain, hn] at hk'
      cases hk'
  have hkmono : ∀ {i}, i ≠ n → t.key? i ≠ none → t'.key? i ≠ none := by
    intro i hin hi
    obtain rfl | himp := eq_or_ne i mp
    · simp [hkself]
    · rwa [hk himp, Equiv.swap_apply_of_ne_of_ne himp hin]
  have hkn : t'.key? n ≠ none := by
    rw [hk hnmp, Equiv.swap_apply_right, hkmp]
    exact Option.some_ne_none _
  refine h.inserted (f := Equiv.swap mp n) hkey habs (by rw [ht']) (by rw [ht']) hdummy
    (by rw [ht']) ?fixed (by rw [hself]) (by rw [hself]) ?σp (fun i hi => (hswap i hi).1)
    (fun i hi => (hswap i hi).2) (hnext ▸ h.chains.moved mp n) ?linked
    (fun i j hij => hnext ▸ ahead_moved.mpr hij) (Ahead.refl _) ⟨key, hkself, rfl⟩ ?first
    (fun i k hik => ⟨Equiv.swap_apply_of_ne_of_ne (hmains i k hik).1 (hmains i k hik).2,
      fun hmain => absurd hmain (hmains i k hik).1⟩) ?free (by rw [ht']; exact hnlt.le)
    ⟨n, fun j hj hkj => ?_⟩
  case fixed =>
    intro i hi
    have hmplt := mainposition_lt t key
    have hqlt : q < t.sizenode := by
      obtain ⟨k, hkq⟩ := Option.ne_none_iff_exists'.mp (h.linked q mp hq).1
      exact h.lt_sizenode hkq
    exact hother (by omega) (by omega) (by omega)
  case σp =>
    rw [Equiv.swap_apply_left]
    exact h.val_none hn
  case linked =>
    intro i j hij
    rw [hnext, moved_eq_some] at hij
    obtain ⟨hi, hj⟩ := h.linked _ _ hij
    have hback : ∀ {i}, t.key? (Equiv.swap mp n i) ≠ none → t'.key? i ≠ none := by
      intro i hi
      obtain rfl | himp := eq_or_ne i mp
      · simp [hkself]
      · rwa [hk himp]
    exact ⟨hback hi, hback hj⟩
  case first =>
    intro j k hj hkk
    obtain rfl | hjmp := eq_or_ne j mp
    · exact Ahead.refl _
    · rw [hk hjmp] at hj
      exact absurd (mainposition_congr t hkk).symm (hmains _ k hj).1
  case free =>
    intro i hi hlt
    obtain rfl | hin := eq_or_ne i n
    · exact hkn
    · have hni : n ≤ i := by rwa [ht'] at hi
      exact hkmono hin (hafter i (by omega) hlt)
  · have hjmp : j ≠ mp := by
      rintro rfl
      simp [hkmp] at hkj
    rw [hk hjmp, Equiv.swap_apply_of_ne_of_ne hjmp hj, hkj]

omit [LawfulTableKey K] in
/-- The free position may be anywhere from which on every node has a key. -/
theorem WellFormed.setLastfree (h : t.WellFormed) {l : ℕ}
    (hfree : t.dummy = false → ∀ i, l ≤ i → i < t.sizenode → t.key? i ≠ none) (hle : l ≤ t.lastfree) :
    { t with lastfree := l }.WellFormed := by
  refine { h with free := hfree, lastfree_le := hle.trans h.lastfree_le, dummy := fun hd => ?_ }
  obtain ⟨hsize, hnode, hlast⟩ := h.dummy hd
  exact ⟨hsize, hnode, by change l = 0; omega⟩

end Table

/-! ### `newkey` -/

omit [TableKey K] [LawfulTableKey K] in
theorem getfreepos_some {node : ℕ → Node K V} {l n l' : ℕ}
    (h : getfreepos node l = (some n, l')) :
    l' = n ∧ n < l ∧ (node n).key = .nil ∧ ∀ i, n < i → i < l → (node i).key ≠ .nil := by
  induction l with
  | zero => simp [getfreepos] at h
  | succ l ih =>
      rw [getfreepos] at h
      split at h
      · next hnil =>
          simp only [Prod.mk.injEq, Option.some.injEq] at h
          obtain ⟨rfl, rfl⟩ := h
          exact ⟨rfl, Nat.lt_succ_self _, hnil, fun i hi hlt => by omega⟩
      · next hkey =>
          obtain ⟨hl, hlt, hnil, hafter⟩ := ih h
          refine ⟨hl, by omega, hnil, fun i hi hil => ?_⟩
          obtain hil | rfl := Nat.lt_succ_iff_lt_or_eq.mp hil
          · exact hafter i hi hil
          · exact fun hk => hkey hk

omit [TableKey K] [LawfulTableKey K] in
theorem getfreepos_none {node : ℕ → Node K V} {l l' : ℕ} (h : getfreepos node l = (none, l')) :
    l' = 0 ∧ ∀ i, i < l → (node i).key ≠ .nil := by
  induction l with
  | zero =>
      simp only [getfreepos, Prod.mk.injEq, true_and] at h
      exact ⟨h.symm, fun i hi => absurd hi (Nat.not_lt_zero i)⟩
  | succ l ih =>
      rw [getfreepos] at h
      split at h
      · simp at h
      · next hkey =>
          obtain ⟨hl, hall⟩ := ih h
          refine ⟨hl, fun i hil => ?_⟩
          obtain hil | rfl := Nat.lt_succ_iff_lt_or_eq.mp hil
          · exact hall i hil
          · exact fun hk => hkey hk

theorem Table.WellFormed.inserted_collide (h : t.WellFormed) (hkey : (key == key) = true)
    (habs : t.Absent key) (hdummy : t.dummy = false) {n : ℕ} {v : V}
    (hval : (t.node (mainposition t key)).val = some v)
    (hn : t.key? n = none) (hnlt : n < t.sizenode)
    (hafter : ∀ i, n < i → i < t.sizenode → t.key? i ≠ none) :
    ∃ t' i, collide { t with lastfree := n } key (mainposition t key) n = (t', .node i) ∧
      t.Inserted key t' i := by
  set mp := mainposition t key with hmp
  obtain ⟨k₀, hk₀⟩ := h.value mp (by rw [hval]; exact Option.some_ne_none v)
  have hkmp : t.key? mp = some k₀ := by rw [Table.key?, hk₀, NodeKey.key?_live]
  have hother : otherposition { t with lastfree := n } mp = mainposition t k₀ := by
    rw [otherposition, hk₀]
    rfl
  rw [collide, hother]
  by_cases hpos : mainposition t k₀ = mp
  · rw [if_neg (not_not.mpr hpos)]
    have hnmp : mp ≠ n := by
      rintro rfl
      simp [hkmp] at hn
    refine ⟨_, n, rfl, h.inserted_after hkey habs hdummy hk₀ hpos hn hnlt hafter ?_⟩
    rw [Function.update_of_ne hnmp]
  · rw [if_pos hpos]
    -- the chain from the main position of `k₀` comes to `mp`, so that the search finds a node
    have hahead : Ahead t.next (mainposition t k₀) mp := h.main mp k₀ hkmp
    obtain hend | ⟨q, hbefore, hq⟩ := Relation.ReflTransGen.cases_tail hahead
    · exact absurd hend.symm hpos
    cases hs : search t.next (fun i => t.next i == some mp) t.sizenode (mainposition t k₀) with
    | none =>
        have := h.search_none (mainposition_lt t k₀) hs hbefore
        simp [hq] at this
    | some q' =>
        have hq' : t.next q' = some mp := by simpa using (search_some hs).2
        refine ⟨_, mp, rfl, h.inserted_moved hkey habs hdummy hk₀ hpos hq' hn hnlt hafter ?_⟩
        have hsame : search (Table.next { t with lastfree := n })
            (fun i => Table.next { t with lastfree := n } i == some mp)
            (Table.sizenode { t with lastfree := n }) (mainposition t k₀) = some q' := hs
        rw [hsame, Option.getD_some]
        have hqmp : mp ≠ q' := fun hqm => h.chains.acyclic hq' (hqm ▸ Ahead.refl mp)
        rw [Function.update_of_ne hqmp]

/-- What `newkey` does: the key is put into the table, or no node is free and the table is made
again. -/
theorem Table.WellFormed.newkeyWith_cases (h : t.WellFormed) (hkey : (key == key) = true)
    (habs : t.Absent key)
    (rehash : Table K V → K → Except String (Table K V × NodeSlot)) :
    (∃ t' i, newkeyWith rehash t key = .ok (t', .node i) ∧ t.Inserted key t' i) ∨
      (t.dummy = true ∨ ∀ i, i < t.sizenode → t.key? i ≠ none) ∧
      newkeyWith rehash t key = rehash { t with lastfree := 0 } key ∧
      { t with lastfree := 0 }.WellFormed := by
  rw [newkeyWith]
  cases hval : (t.node (mainposition t key)).val with
  | none =>
      obtain hdummy | hdummy := Bool.eq_false_or_eq_true t.dummy
      · right
        obtain ⟨-, -, hlast⟩ := h.dummy hdummy
        rw [if_pos (by simp [hdummy]), hlast]
        exact ⟨Or.inl hdummy, rfl, h.setLastfree (hlast ▸ h.free) (Nat.zero_le _)⟩
      · left
        rw [if_neg (by simp [hdummy])]
        exact ⟨_, _, rfl, h.inserted_main hkey habs hdummy hval⟩
  | some v =>
      rw [if_pos (by simp)]
      cases hfree : getfreepos t.node t.lastfree with
      | mk found l =>
          cases found with
          | none =>
              right
              obtain ⟨rfl, hall⟩ := getfreepos_none hfree
              have hfull : t.dummy = false → ∀ i, i < t.sizenode → t.key? i ≠ none := by
                intro hdummy i hi
                by_cases hil : i < t.lastfree
                · exact fun hk => hall i hil (NodeKey.key?_eq_none.mp hk)
                · exact h.free hdummy i (Nat.le_of_not_lt hil) hi
              refine ⟨?_, rfl, h.setLastfree (fun hd i _ hi => hfull hd i hi) (Nat.zero_le _)⟩
              cases hdummy : t.dummy with
              | true => exact Or.inl rfl
              | false => exact Or.inr (hfull hdummy)
          | some n =>
              left
              obtain ⟨rfl, hnlt, hnil, hafter⟩ := getfreepos_some hfree
              have hdummy : t.dummy = false := by
                by_contra hd
                obtain ⟨-, -, hlast⟩ := h.dummy (Bool.not_eq_false _ ▸ hd)
                omega
              obtain ⟨t', i, heq, hins⟩ := h.inserted_collide hkey habs hdummy hval
                (NodeKey.key?_eq_none.mpr hnil) (hnlt.trans_le h.lastfree_le)
                (fun i hi hlt => by
                  by_cases hil : i < t.lastfree
                  · exact fun hk => hafter i hi hil (NodeKey.key?_eq_none.mp hk)
                  · exact h.free hdummy i (Nat.le_of_not_lt hil) hlt)
              exact ⟨t', i, congrArg Except.ok heq, hins⟩

end

end UnityLua
