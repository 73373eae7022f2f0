import UnityLua.HashTableChains

/-!
# The values of a table

What is read at a key, before and after a new key and a write to a slot.
A new key has no value, so that it changes none; a write changes the value of its own key.

## Main results

* `Table.WellFormed.rawget_put`: what a write changes.
* `rawget_eq_some_iff_mem`: the values of a table are those of its entries.
-/

namespace UnityLua

open Library

variable {K V : Type}

namespace Table

theorem put_node_key (t : Table K V) (i j : ℕ) (v : Option V) :
    ((t.put (.node i) v).node j).key = (t.node j).key := by
  obtain rfl | hji := eq_or_ne j i <;> simp [*]

theorem put_next (t : Table K V) (s : NodeSlot) (v : Option V) :
    (t.put s v).next = t.next := by
  funext j
  cases s with
  | array i => rfl
  | node i => obtain rfl | hji := eq_or_ne j i <;> simp [next, *]

theorem put_key? (t : Table K V) (s : NodeSlot) (v : Option V) (j : ℕ) :
    (t.put s v).key? j = t.key? j := by
  cases s with
  | array i => rfl
  | node i => rw [key?, put_node_key, key?]

theorem put_live (t : Table K V) (s : NodeSlot) (v : Option V) (j : ℕ) :
    ((t.put s v).node j).key = (t.node j).key := by
  cases s with
  | array i => rfl
  | node i => exact t.put_node_key i j v

@[simp] theorem put_sizearray (t : Table K V) (s : NodeSlot) (v : Option V) :
    (t.put s v).sizearray = t.sizearray := by
  cases s <;> simp [sizearray]

@[simp] theorem put_lsizenode (t : Table K V) (s : NodeSlot) (v : Option V) :
    (t.put s v).lsizenode = t.lsizenode := by
  cases s <;> rfl

@[simp] theorem put_dummy (t : Table K V) (s : NodeSlot) (v : Option V) :
    (t.put s v).dummy = t.dummy := by
  cases s <;> rfl

@[simp] theorem put_lastfree (t : Table K V) (s : NodeSlot) (v : Option V) :
    (t.put s v).lastfree = t.lastfree := by
  cases s <;> rfl

theorem get_put_of_ne {t : Table K V} {s s' : NodeSlot} (hs : s' ≠ s) (v : Option V) :
    (t.put s v).get s' = t.get s' := by
  cases s with
  | array i =>
      cases s' with
      | array j =>
          have hji : i ≠ j := fun hij => hs (by rw [hij])
          simp [get, List.getElem?_set_ne hji]
      | node j => rfl
  | node i =>
      cases s' with
      | array j => rfl
      | node j =>
          have hji : j ≠ i := fun hij => hs (by rw [hij])
          simp [get, Function.update_of_ne hji]

end Table

theorem mem_sliceEntries {m : ℤ} {v : V} {vs : List (Option V)} {i : ℕ} :
    (m, v) ∈ sliceEntries i vs ↔ ∃ j : ℕ, vs[j]? = some (some v) ∧ m = i + j + 1 := by
  induction vs generalizing i with
  | nil => simp
  | cons w vs ih =>
      have hcons : (∃ j : ℕ, (w :: vs)[j]? = some (some v) ∧ m = i + j + 1) ↔
          (w = some v ∧ m = i + 1) ∨ ∃ j : ℕ, vs[j]? = some (some v) ∧ m = (i + 1 : ℕ) + j + 1 := by
        constructor
        · rintro ⟨j, hj, hm⟩
          cases j with
          | zero => exact Or.inl ⟨by simpa using hj, by simpa using hm⟩
          | succ j => exact Or.inr ⟨j, by simpa using hj, by push_cast at hm ⊢; omega⟩
        · rintro (⟨hw, hm⟩ | ⟨j, hj, hm⟩)
          · exact ⟨0, by simpa using hw, by simpa using hm⟩
          · exact ⟨j + 1, by simpa using hj, by push_cast at hm ⊢; omega⟩
      rw [hcons]
      cases w with
      | none => simp [ih]
      | some w =>
          rw [sliceEntries_some, List.mem_cons, ih, Prod.mk.injEq, Option.some.injEq]
          refine or_congr ⟨fun h => ⟨h.2.symm, h.1⟩, fun h => ⟨h.2, h.1.symm⟩⟩ Iff.rfl

theorem sliceEntries_append (vs ws : List (Option V)) (i : ℕ) :
    sliceEntries i (vs ++ ws) = sliceEntries i vs ++ sliceEntries (i + vs.length) ws := by
  induction vs generalizing i with
  | nil => simp
  | cons w vs ih =>
      have hlen : i + 1 + vs.length = i + (vs.length + 1) := by omega
      cases w with
      | none =>
          rw [List.cons_append, sliceEntries_none, ih, sliceEntries_none, List.length_cons, hlen]
      | some w =>
          rw [List.cons_append, sliceEntries_some, ih, sliceEntries_some, List.length_cons, hlen,
            List.cons_append]

theorem sliceEntries_replicate (i n : ℕ) :
    sliceEntries i (List.replicate n (none : Option V)) = [] := by
  induction n generalizing i with
  | zero => rfl
  | succ n ih => rw [List.replicate_succ, sliceEntries_none, ih]

theorem sliceEntries_pairwise (i : ℕ) (vs : List (Option V)) :
    (sliceEntries i vs).Pairwise fun a b => a.1 < b.1 := by
  induction vs generalizing i with
  | nil => exact List.Pairwise.nil
  | cons w vs ih =>
      cases w with
      | none => exact ih (i + 1)
      | some w =>
          refine List.Pairwise.cons (fun b hb => ?_) (ih (i + 1))
          obtain ⟨j, -, hj⟩ := mem_sliceEntries.mp hb
          rw [hj]
          push_cast
          omega

section

variable [TableKey K] [LawfulTableKey K] {t : Table K V} {key : K}

/-- The values of a table: those of its array part and of its nodes. -/
theorem Table.WellFormed.rawget_eq_some (h : t.WellFormed) {v : V} :
    rawget t key = some v ↔
      (∃ m, TableKey.toInt key = some m ∧ 1 ≤ m ∧ m ≤ t.sizearray ∧
        (t.array[(m - 1).toNat]?).join = some v) ∨
      ∃ i k, (t.node i).entry = some (k, v) ∧ (k == key) = true := by
  rw [rawget, Option.bind_eq_some_iff]
  simp only [h.luaH_get_eq_some, Node.entry_eq_some]
  constructor
  · rintro ⟨s, ⟨m, hm, hlo, hhi, rfl⟩ | ⟨i, k, rfl, hk, heq⟩, hv⟩
    · exact Or.inl ⟨m, hm, hlo, hhi, hv⟩
    · exact Or.inr ⟨i, k, ⟨hk, hv⟩, heq⟩
  · rintro (⟨m, hm, hlo, hhi, hv⟩ | ⟨i, k, ⟨hk, hv⟩, heq⟩)
    · exact ⟨_, Or.inl ⟨m, hm, hlo, hhi, rfl⟩, hv⟩
    · exact ⟨_, Or.inr ⟨i, k, rfl, hk, heq⟩, hv⟩

/-- Equal keys are found in the same slot. -/
theorem luaH_get_congr (h : t.WellFormed) {k k' : K} (hk : (k == k') = true) :
    luaH_get t k = luaH_get t k' := by
  refine Option.ext fun s => ?_
  rw [h.luaH_get_eq_some, h.luaH_get_eq_some, toInt_congr hk]
  refine or_congr Iff.rfl (exists_congr fun i => exists_congr fun k₀ => ?_)
  refine and_congr_right fun _ => and_congr_right fun _ => ?_
  exact ⟨fun h => BEq.trans h hk, fun h => BEq.trans h (BEq.symm hk)⟩

/-- Keys that are found in the same slot are equal. -/
theorem beq_of_luaH_get (h : t.WellFormed) {k k' : K} {s : NodeSlot}
    (hk : luaH_get t k = some s) (hk' : luaH_get t k' = some s) : (k == k') = true := by
  obtain ⟨m, hm, hlo, hhi, rfl⟩ | ⟨i, k₀, rfl, hk₀, heq⟩ := h.luaH_get_eq_some.mp hk
  · obtain ⟨m', hm', hlo', hhi', hs⟩ | ⟨i, k₀, hs, -, -⟩ := h.luaH_get_eq_some.mp hk'
    · have hmm : m = m' := by
        have := NodeSlot.array.inj hs
        omega
      subst hmm
      exact BEq.trans (BEq.symm (LawfulTableKey.toInt_eq_some.mp hm).2.2)
        (LawfulTableKey.toInt_eq_some.mp hm').2.2
    · cases hs
  · obtain ⟨m', hm', hlo', hhi', hs⟩ | ⟨i', k₀', hs, hk₀', heq'⟩ := h.luaH_get_eq_some.mp hk'
    · cases hs
    · obtain rfl := NodeSlot.node.inj hs
      obtain rfl := NodeKey.live.inj (hk₀.symm.trans hk₀')
      exact BEq.trans (BEq.symm heq) heq'

/-! ### New keys -/

/-- A new key changes no value. -/
theorem Table.Inserted.rawget_eq {t' : Table K V} {i : ℕ} (h : t.WellFormed)
    (hins : t.Inserted key t' i) (key' : K) : rawget t' key' = rawget t key' := by
  refine Option.ext fun v => ?_
  rw [hins.wf.rawget_eq_some, h.rawget_eq_some, Table.sizearray, hins.array, Table.sizearray]
  refine or_congr Iff.rfl ?_
  constructor
  · rintro ⟨j, k, hj, heq⟩
    obtain ⟨j', hj'⟩ := (hins.entry (k, v)).mp ⟨j, hj⟩
    exact ⟨j', k, hj', heq⟩
  · rintro ⟨j, k, hj, heq⟩
    obtain ⟨j', hj'⟩ := (hins.entry (k, v)).mpr ⟨j, hj⟩
    exact ⟨j', k, hj', heq⟩

theorem Table.Inserted.luaH_get_eq {t' : Table K V} {i : ℕ} (hkey : (key == key) = true)
    (hins : t.Inserted key t' i) : luaH_get t' key = some (.node i) :=
  hins.wf.luaH_get_eq_some.mpr (Or.inr ⟨i, key, rfl, hins.key, hkey⟩)

/-! ### Writes -/

/-- A write to the slot of a key keeps what holds of a table. -/
theorem Table.WellFormed.put (h : t.WellFormed) {s : NodeSlot} (hs : luaH_get t key = some s)
    (v : Option V) : (t.put s v).WellFormed := by
  have hmp : ∀ k, mainposition (t.put s v) k = mainposition t k := fun k => by
    rw [mainposition, put_lsizenode, mainposition]
  have hsize : (t.put s v).sizenode = t.sizenode := by
    rw [Table.sizenode, put_lsizenode, Table.sizenode]
  have hkept : ∀ i, t.sizenode ≤ i → (t.put s v).node i = t.node i := by
    intro i hi
    obtain ⟨m, -, -, -, rfl⟩ | ⟨j, k, rfl, hk, -⟩ := h.luaH_get_eq_some.mp hs
    · rfl
    · have := h.lt_sizenode (i := j) (k := k) (by rw [Table.key?, hk, NodeKey.key?_live])
      exact Function.update_of_ne (by omega) ..
  constructor
  case chains => exact t.put_next s v ▸ h.chains
  case inside => exact fun i hi => (hkept i (hsize ▸ hi)).trans (h.inside i (hsize ▸ hi))
  case linked => simpa only [put_next, put_key?] using h.linked
  case main => simpa only [put_next, put_key?, hmp] using h.main
  case own => simpa only [put_key?, hmp] using h.own
  case first => simpa only [put_next, put_key?, put_live] using h.first
  case free => simpa only [put_key?, put_lastfree, put_dummy, hsize] using h.free
  case lastfree_le => simpa only [put_lastfree, hsize] using h.lastfree_le
  case value =>
    intro i hi
    rw [put_live]
    obtain ⟨m, -, -, -, rfl⟩ | ⟨j, k, rfl, hk, -⟩ := h.luaH_get_eq_some.mp hs
    · exact h.value i hi
    · obtain rfl | hij := eq_or_ne i j
      · exact ⟨k, hk⟩
      · exact h.value i (by simpa [Function.update_of_ne hij] using hi)
  case refl => simpa only [put_live] using h.refl
  case outside => simpa only [put_live, put_sizearray] using h.outside
  case dummy =>
    intro hd
    rw [put_dummy] at hd
    obtain ⟨hsize', hnode, hlast⟩ := h.dummy hd
    refine ⟨(t.put_lsizenode s v).trans hsize', ?_, (t.put_lastfree s v).trans hlast⟩
    obtain ⟨m, -, -, -, rfl⟩ | ⟨j, k, rfl, hk, -⟩ := h.luaH_get_eq_some.mp hs
    · exact hnode
    · have hlt := h.lt_sizenode (i := j) (k := k) (by rw [Table.key?, hk, NodeKey.key?_live])
      have hj : j = 0 := by
        rw [Table.sizenode, hsize', Nat.pow_zero] at hlt
        omega
      rw [hj, hnode] at hk
      cases hk
  case sizearray_le => simpa only [put_sizearray] using h.sizearray_le
  case lsizenode_le => simpa only [put_lsizenode] using h.lsizenode_le

/-- A write moves no key. -/
theorem Table.WellFormed.luaH_get_put (h : t.WellFormed) {s : NodeSlot}
    (hs : luaH_get t key = some s) (v : Option V) (key' : K) :
    luaH_get (t.put s v) key' = luaH_get t key' := by
  refine Option.ext fun s' => ?_
  rw [(h.put hs v).luaH_get_eq_some, h.luaH_get_eq_some]
  simp only [Table.put_live, Table.put_sizearray]

theorem Table.get_put_self (h : t.WellFormed) {s : NodeSlot} (hs : luaH_get t key = some s)
    (v : Option V) : (t.put s v).get s = v := by
  obtain ⟨m, -, hlo, hhi, rfl⟩ | ⟨j, k, rfl, -, -⟩ := h.luaH_get_eq_some.mp hs
  · have hlt : (m - 1).toNat < t.array.length := by
      rw [Table.sizearray] at hhi
      omega
    change ((t.array.set (m - 1).toNat v)[(m - 1).toNat]?).join = v
    rw [List.getElem?_set_self hlt, Option.join_some]
  · simp [Table.get]

/-- A write to the slot of a key changes the value of this key and of no other. -/
theorem Table.WellFormed.rawget_put (h : t.WellFormed) {s : NodeSlot}
    (hs : luaH_get t key = some s) (v : Option V) (key' : K) :
    rawget (t.put s v) key' = if key == key' then v else rawget t key' := by
  rw [rawget, h.luaH_get_put hs]
  split
  · next heq =>
      rw [← luaH_get_congr h heq, hs, Option.bind_some, Table.get_put_self h hs]
  · next hne =>
      cases hs' : luaH_get t key' with
      | none => rw [rawget, hs']; rfl
      | some s' =>
          rw [Option.bind_some, rawget, hs', Option.bind_some, Table.get_put_of_ne]
          rintro rfl
          exact hne (beq_of_luaH_get h hs hs')

/-! ### Entries -/

/-- A number as a key. -/
def numberEntry (e : ℤ × V) : K × V := (TableKey.ofInt e.1, e.2)

/-- The entries of a table, in the order of a traversal. -/
def entries (t : Table K V) : List (K × V) :=
  (sliceEntries 0 t.array).map numberEntry ++ nodeEntries t

/-- A key that is a number from 1 to `n`. -/
def inArray (n : ℕ) (key : K) : Bool :=
  (TableKey.toInt key).any fun m : ℤ => decide (1 ≤ m ∧ m ≤ n)

omit [LawfulTableKey K] in
theorem inArray_iff {n : ℕ} :
    inArray n key = true ↔ ∃ m, TableKey.toInt key = some m ∧ 1 ≤ m ∧ m ≤ n := by
  rw [inArray, Option.any_eq_true]
  simp only [decide_eq_true_eq]

/-- The numbers of an array part that is not too large are values of an `int`. -/
theorem toInt_of_le {m : ℤ} {n : ℕ} (hn : n ≤ MAXASIZE) (hlo : 1 ≤ m) (hhi : m ≤ n) :
    TableKey.toInt (TableKey.ofInt m : K) = some m := by
  refine toInt_ofInt (by omega) ?_
  have : (n : ℤ) ≤ 2 ^ 26 := by exact_mod_cast hn
  omega

omit [LawfulTableKey K] in
theorem mem_nodeEntries (h : t.WellFormed) {e : K × V} :
    e ∈ nodeEntries t ↔ ∃ i, (t.node i).entry = some e := by
  rw [nodeEntries, List.mem_filterMap]
  constructor
  · exact fun ⟨i, _, hi⟩ => ⟨i, hi⟩
  · rintro ⟨i, hi⟩
    refine ⟨i, List.mem_range.mpr ?_, hi⟩
    by_contra hle
    rw [h.inside i (Nat.le_of_not_lt hle)] at hi
    cases hi

/-- The values of a table are those of its entries. -/
theorem rawget_eq_some_iff_mem (h : t.WellFormed) {v : V} :
    rawget t key = some v ↔ ∃ k, (k, v) ∈ entries t ∧ (k == key) = true := by
  rw [h.rawget_eq_some]
  simp only [entries, List.mem_append, mem_nodeEntries h, List.mem_map, numberEntry,
    Prod.mk.injEq, Prod.exists, mem_sliceEntries]
  constructor
  · rintro (⟨m, hm, hlo, hhi, hv⟩ | ⟨i, k, hi, heq⟩)
    · refine ⟨TableKey.ofInt m, Or.inl ⟨m, v, ⟨(m - 1).toNat, ?_, by omega⟩, rfl, rfl⟩,
        (LawfulTableKey.toInt_eq_some.mp hm).2.2⟩
      exact Option.join_eq_some_iff.mp hv
    · exact ⟨k, Or.inr ⟨i, hi⟩, heq⟩
  · rintro ⟨k, ⟨m, w, ⟨j, hj, hm⟩, rfl, rfl⟩ | ⟨i, hi⟩, heq⟩
    · have hlt : j < t.sizearray := (List.getElem?_eq_some_iff.mp hj).1
      have hm' : m ≤ t.sizearray := by omega
      refine Or.inl ⟨m, (toInt_congr heq).symm.trans
        (toInt_of_le h.sizearray_le (by omega) hm'), by omega, hm', ?_⟩
      have hjm : (m - 1).toNat = j := by omega
      rw [hjm, hj, Option.join_some]
    · exact Or.inr ⟨i, k, hi, heq⟩

end

end UnityLua
