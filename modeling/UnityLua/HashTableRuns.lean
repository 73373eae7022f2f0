import UnityLua.HashTableKeys
import UnityLua.HashTableSizes
import UnityLua.Library.Run

/-!
# Runs of a table

Assignments, the room that a constructor makes for its list, and the collector that takes away
keys without a value, in any order. The table is a map from keys to values throughout, the last
value assigned to a key is the one that is read, and it is never made again while it is being
made again.

## Main results

* `removeentries_wellFormed`, `rawget_removeentries`: the collector changes no value.
* `resizearray_spec`: neither does room for a list.
* `table_run`: what is read after a run.
-/

namespace UnityLua

open Library

variable {K V : Type} [TableKey K] {t : Table K V} {key : K}

/-! ### Collected keys -/

@[simp] theorem removeentries_next (t : Table K V) : (removeentries t).next = t.next := by
  funext i
  simp only [Table.next, removeentries]
  split
  · split <;> rfl
  · rfl

@[simp] theorem removeentries_val (t : Table K V) (i : ℕ) :
    ((removeentries t).node i).val = (t.node i).val := by
  simp only [removeentries]
  split
  · split <;> rfl
  · rfl

@[simp] theorem removeentries_key? (t : Table K V) (i : ℕ) :
    (removeentries t).key? i = t.key? i := by
  simp only [Table.key?, removeentries]
  split
  · next k hk _ =>
      split
      · simp [hk]
      · rfl
  · rfl

/-- What is live afterwards was live. -/
theorem live_of_removeentries {i : ℕ} {k : K} (h : ((removeentries t).node i).key = .live k) :
    (t.node i).key = .live k := by
  simp only [removeentries] at h
  split at h
  · split at h
    · cases h
    · exact h
  · exact h

/-- A key that has a value or is not collectable stays. -/
theorem removeentries_live {i : ℕ} {k : K} (h : (t.node i).key = .live k)
    (hk : (t.node i).val ≠ none ∨ TableKey.iscollectable k = false) :
    ((removeentries t).node i).key = .live k := by
  simp only [removeentries]
  split
  · next k' hk' hv =>
      obtain rfl := NodeKey.live.inj (h.symm.trans hk')
      obtain hk | hk := hk
      · exact absurd hv hk
      · rw [if_neg (by simp [hk])]
        exact h
  · exact h

theorem removeentries_entry (i : ℕ) :
    ((removeentries t).node i).entry = (t.node i).entry := by
  cases hv : (t.node i).val with
  | none => rw [Node.entry_of_val hv, Node.entry_of_val ((removeentries_val t i).trans hv)]
  | some v =>
      refine Node.entry_congr ?_ (removeentries_val t i)
      simp only [removeentries]
      split
      · next hnone =>
          rw [hv] at hnone
          cases hnone
      · rfl

theorem removeentries_wellFormed (h : t.WellFormed) : (removeentries t).WellFormed := by
  constructor
  case chains => exact (removeentries_next t).symm ▸ h.chains
  case inside =>
    intro i hi
    have hi := h.inside i hi
    simp only [removeentries, hi]
    rfl
  case linked => simpa only [removeentries_next, removeentries_key?] using h.linked
  case main =>
    intro i k hk
    rw [removeentries_next]
    exact h.main i k (removeentries_key? t i ▸ hk)
  case own =>
    intro i k hk
    simp only [removeentries_key?] at hk ⊢
    exact h.own i k hk
  case first =>
    intro i j k k' hi hj hkk
    rw [removeentries_next]
    exact h.first i j k k' (live_of_removeentries hi) (removeentries_key? t j ▸ hj) hkk
  case free =>
    intro hd i hi hlt
    rw [removeentries_key?]
    exact h.free hd i hi hlt
  case lastfree_le => exact h.lastfree_le
  case value =>
    intro i hi
    rw [removeentries_val] at hi
    obtain ⟨k, hk⟩ := h.value i hi
    exact ⟨k, removeentries_live hk (Or.inl hi)⟩
  case refl => exact fun i k hi => h.refl i k (live_of_removeentries hi)
  case outside => exact fun i k m hi => h.outside i k m (live_of_removeentries hi)
  case dummy =>
    intro hd
    obtain ⟨hsize, hnode, hlast⟩ := h.dummy hd
    refine ⟨hsize, ?_, hlast⟩
    simp only [removeentries, hnode]
    rfl
  case sizearray_le => exact h.sizearray_le
  case lsizenode_le => exact h.lsizenode_le

variable [LawfulTableKey K]

theorem rawget_removeentries (h : t.WellFormed) (key : K) :
    rawget (removeentries t) key = rawget t key := by
  refine Option.ext fun v => ?_
  rw [(removeentries_wellFormed h).rawget_eq_some, h.rawget_eq_some]
  simp only [removeentries_entry]
  rfl

/-! ### Room for a list -/

omit [TableKey K] [LawfulTableKey K] in
theorem length_nodeEntries_le (t : Table K V) : (nodeEntries t).length ≤ t.sizenode :=
  (List.length_filterMap_le _ _).trans_eq List.length_range

/-- A larger array part keeps the values. -/
theorem resizearray_spec (h : t.WellFormed) {nasize : ℕ} (hgrow : t.sizearray < nasize)
    (hna : nasize ≤ MAXASIZE) (calls : ℕ) :
    luaH_resizearray (calls + 1) t nasize = .error "table overflow" ∨
    ∃ t', luaH_resizearray (calls + 1) t nasize = .ok t' ∧ t'.WellFormed ∧
      ∀ k, rawget t' k = rawget t k := by
  have hin : outsideArray nasize ((sliceEntries 0 t.array).map (numberEntry (K := K))) = 0 := by
    have hcount := outsideArray_add_numbers nasize
      ((sliceEntries 0 t.array).map (numberEntry (K := K)))
    rw [numbers_array h, List.take_of_length_le (le_of_lt hgrow), List.length_map,
      length_sliceEntries] at hcount
    omega
  have hroom : outsideArray nasize (entries t) ≤ if t.dummy then 0 else t.sizenode := by
    have hsplit : outsideArray nasize (entries t) = outsideArray nasize (nodeEntries t) := by
      rw [outsideArray, entries, List.countP_append, ← outsideArray, hin, Nat.zero_add,
        outsideArray]
    rw [hsplit]
    split
    · next hd =>
        have hnil : nodeEntries t = [] := by
          rw [nodeEntries, List.filterMap_eq_nil_iff]
          intro i _
          rw [h.node_of_dummy hd]
          rfl
        rw [hnil]
        exact le_rfl
    · exact List.countP_le_length.trans (length_nodeEntries_le t)
  obtain herr | ⟨t', hok, hwf, hget, -⟩ := resize_spec h hna hroom fun t key => do
    let t ← rehashWith (newkey calls) t key
    luaH_setWith (newkey calls) t key
  · exact Or.inl herr
  · exact Or.inr ⟨t', hok, hwf, hget⟩

/-! ### Runs -/

/-- What is done to a table. The array part has a limit, which `luaH_resizearray` is not asked to
go beyond. -/
inductive TableOp (K V : Type)
  | assign (key : Option K) (v : Option V)
  | setlist (last : ℕ) (h : last ≤ MAXASIZE)
  | collect

omit [LawfulTableKey K] in
/-- A step; one that raises an error has no successor. -/
def tableStep (t : Table K V) : TableOp K V → Option (Table K V)
  | .assign key v => (rawset 2 t key v).toOption
  | .setlist last _ =>
      if last > t.sizearray then (luaH_resizearray 2 t last).toOption else some t
  | .collect => some (removeentries t)

/-- A map from keys to values after one more step. -/
def assigned (m : K → Option V) : TableOp K V → K → Option V
  | .assign (some key) v => fun k => if key == k then v else m k
  | _ => m

theorem tableStep_spec (h : t.WellFormed) {op : TableOp K V} {t' : Table K V}
    (hstep : tableStep t op = some t') :
    t'.WellFormed ∧ rawget t' = assigned (rawget t) op := by
  cases op with
  | assign key v =>
      obtain ⟨msg, herr, -⟩ | ⟨t₁, k, hok, hwf, rfl, -, hget⟩ := rawset_spec h 0 key v
      · rw [tableStep, herr] at hstep
        cases hstep
      · rw [tableStep, hok] at hstep
        obtain rfl := Option.some.inj hstep
        exact ⟨hwf, funext hget⟩
  | setlist last hlast =>
      rw [tableStep] at hstep
      split at hstep
      · next hgrow =>
          obtain herr | ⟨t₁, hok, hwf, hget⟩ := resizearray_spec h hgrow hlast 1
          · rw [herr] at hstep
            cases hstep
          · rw [hok] at hstep
            obtain rfl := Option.some.inj hstep
            exact ⟨hwf, funext hget⟩
      · obtain rfl := Option.some.inj hstep
        exact ⟨h, rfl⟩
  | collect =>
      obtain rfl := Option.some.inj hstep
      exact ⟨removeentries_wellFormed h, funext (rawget_removeentries h)⟩

omit [LawfulTableKey K] in
/-- `luaH_new` makes a table without entries. -/
theorem luaH_new_wellFormed {narray nhash : ℕ} (hna : narray ≤ MAXASIZE)
    (hnew : luaH_new narray nhash = .ok t) :
    t.WellFormed ∧ (∀ i, t.node i = emptyNode) ∧ t.array = List.replicate narray none := by
  rw [luaH_new] at hnew
  have harr : (setarrayvector (⟨[], 0, fun _ => emptyNode, true, 0⟩ : Table K V) narray).array =
      List.replicate narray none := by
    simp [setarrayvector, Table.sizearray]
  obtain herr | ⟨t', hok, harr', hnode, -, hdummy, hlast, -, hle⟩ := setnodevector_cases
    (setarrayvector (⟨[], 0, fun _ => emptyNode, true, 0⟩ : Table K V) narray) nhash
  · rw [herr] at hnew
    cases hnew
  · rw [hok] at hnew
    obtain rfl := Except.ok.inj hnew
    refine ⟨Table.wellFormed_of_empty hnode hdummy hlast ?_ hle, hnode, harr'.trans harr⟩
    rw [Table.sizearray, harr', harr, List.length_replicate]
    exact hna

theorem rawget_luaH_new {narray nhash : ℕ} (hna : narray ≤ MAXASIZE)
    (hnew : luaH_new narray nhash = .ok t) (k : K) : rawget t k = none := by
  obtain ⟨hwf, hnode, harr⟩ := luaH_new_wellFormed hna hnew
  by_contra hsome
  obtain ⟨v, hv⟩ := Option.ne_none_iff_exists'.mp hsome
  obtain ⟨m, -, -, -, hm⟩ | ⟨i, k', hi, -⟩ := hwf.rawget_eq_some.mp hv
  · rw [harr, List.getElem?_replicate] at hm
    split at hm <;> cases hm
  · rw [hnode] at hi
    cases hi

theorem run_wellFormed {ops : List (TableOp K V)} {t' : Table K V} (h : t.WellFormed)
    (hrun : run tableStep t ops = some t') : t'.WellFormed :=
  run_invariant (I := Table.WellFormed) (fun _ _ _ hwf hstep => (tableStep_spec hwf hstep).1)
    hrun h

/-- What is read after a run are the values that the run assigned last. -/
theorem run_rawget {ops : List (TableOp K V)} {t' : Table K V} (h : t.WellFormed)
    (hrun : run tableStep t ops = some t') : rawget t' = ops.foldl assigned (rawget t) := by
  induction ops generalizing t with
  | nil => rw [← Option.some.inj hrun]; rfl
  | cons op ops ih =>
      rw [run_cons, Option.bind_eq_some_iff] at hrun
      obtain ⟨t₁, hstep, hrun⟩ := hrun
      obtain ⟨hwf, hget⟩ := tableStep_spec h hstep
      rw [ih hwf hrun, hget, List.foldl_cons]

/-- **The sizes of a table that is made again** for a key that it does not have, in every run.
The array part has the size of the largest power of two of which more than half is in use, or no
size; the hash part has room for the other keys, and for less than twice as many. -/
theorem rehash_run {narray nhash : ℕ} (hna : narray ≤ MAXASIZE) {t₀ : Table K V}
    (hnew : luaH_new narray nhash = .ok t₀) {ops : List (TableOp K V)}
    (hrun : run tableStep t₀ ops = some t) (hkey : luaH_get t key = none) {t' : Table K V}
    (hrehash : rehashWith (newkey 1) t key = .ok t') :
    let keys := key :: (entries t).map Prod.fst
    let rest := keys.length - numbers t'.sizearray keys
    (∀ k, rawget t' k = rawget t k) ∧
      (t'.sizearray = 0 ∨ ∃ i, i ≤ MAXBITS ∧ t'.sizearray = 2 ^ i ∧
        2 ^ i / 2 < numbers (2 ^ i) keys) ∧
      (∀ i, i ≤ MAXBITS → 2 ^ i / 2 < numbers (2 ^ i) keys → 2 ^ i ≤ t'.sizearray) ∧
      (t'.dummy = true ↔ rest = 0) ∧
      (0 < rest → rest ≤ t'.sizenode ∧ t'.sizenode < 2 * rest) := by
  intro keys rest
  have h := run_wellFormed (luaH_new_wellFormed hna hnew).1 hrun
  obtain herr | ⟨t₁, hok, hre⟩ := rehash_spec h key fun t key => do
    let t ← rehashWith (newkey 0) t key
    luaH_setWith (newkey 0) t key
  · have herr' : rehashWith (newkey 1) t key = .error "table overflow" := herr
    rw [herr'] at hrehash
    cases hrehash
  · have hok' : rehashWith (newkey 1) t key = .ok t₁ := hok
    rw [hok'] at hrehash
    obtain rfl := Except.ok.inj hrehash
    obtain ⟨hsize, hcount⟩ := rehashSizes_spec h key
    have hrest : rest = (rehashSizes t key).2 := by
      have hlen : keys.length = (entries t).length + 1 := by
        rw [List.length_cons, List.length_map]
      rw [← hre.sizearray] at hcount
      exact Nat.sub_eq_of_eq_add (hlen.trans hcount.symm)
    refine ⟨hre.rawget, hre.sizearray ▸ hsize, fun i hi hhalf => ?_, ?_, fun hpos => ?_⟩
    · exact (rehashSizes_largest h hkey hi hhalf).trans_eq hre.sizearray.symm
    · rw [hrest]
      exact hre.dummy
    · rw [Table.sizenode, hre.lsizenode, ← hrest, if_neg (by omega)]
      exact ⟨le_two_pow_ceillog2 hpos, two_pow_ceillog2_lt hpos⟩

theorem rehash_run_flags : ∃ t₀ t t' : Table LuaKey ℕ, luaH_new 0 0 = .ok t₀ ∧
    run tableStep t₀ [.assign (some (.boolean true)) (some 1)] = some t ∧
    rehashWith (newkey 1) t (.boolean false) = .ok t' ∧ rawget t' (.boolean true) = some 1 := by
  obtain ⟨t₀, hnew, t, hrun, hkey, t', hrehash, hone⟩ : ∃ t₀ : Table LuaKey ℕ,
      luaH_new 0 0 = .ok t₀ ∧ ∃ t,
      run tableStep t₀ [.assign (some (.boolean true)) (some 1)] = some t ∧
      luaH_get t (.boolean false) = none ∧ ∃ t',
      rehashWith (newkey 1) t (.boolean false) = .ok t' ∧ rawget t (.boolean true) = some 1 :=
    ⟨_, rfl, _, rfl, rfl, _, rfl, rfl⟩
  exact ⟨t₀, t, t', hnew, hrun, hrehash,
    ((rehash_run (Nat.zero_le _) hnew hrun hkey hrehash).1 _).trans hone⟩

/-- **A table is a map.** In every run of a new table what is read at a key is what was assigned
to it last, and one more assignment raises no error but for a key that is `nil`, a NaN or too
much. -/
theorem table_run {narray nhash : ℕ} (hna : narray ≤ MAXASIZE) {t₀ : Table K V}
    (hnew : luaH_new narray nhash = .ok t₀) {ops : List (TableOp K V)}
    (hrun : run tableStep t₀ ops = some t) :
    (∀ k, rawget t k = ops.foldl assigned (fun _ => none) k) ∧
      ∀ key v msg, rawset 2 t key v = .error msg →
        msg = "table overflow" ∨ msg = "table index is nil" ∧ key = none ∨
          msg = "table index is NaN" ∧ ∃ k, key = some k ∧ (k == k) = false := by
  have hwf₀ := (luaH_new_wellFormed hna hnew).1
  constructor
  · intro k
    rw [run_rawget hwf₀ hrun, funext (rawget_luaH_new hna hnew)]
  · intro key v msg hmsg
    obtain ⟨msg', herr, hcase⟩ | ⟨t', k, hok, -⟩ := rawset_spec (run_wellFormed hwf₀ hrun) 0 key v
    · rw [herr] at hmsg
      obtain rfl := Except.error.inj hmsg
      exact hcase
    · rw [hok] at hmsg
      cases hmsg

theorem table_run_flag : ∃ t₀ t : Table LuaKey ℕ, luaH_new 0 0 = .ok t₀ ∧
    run tableStep t₀ [.assign (some (.boolean true)) (some 1), .assign (some (.table 8)) (some 2),
      .assign (some (.boolean true)) (some 3), .collect] = some t ∧
    rawget t (.boolean true) = some 3 := by
  obtain ⟨t₀, hnew, t, hrun⟩ : ∃ t₀ : Table LuaKey ℕ, luaH_new 0 0 = .ok t₀ ∧ ∃ t,
      run tableStep t₀ [.assign (some (.boolean true)) (some 1),
        .assign (some (.table 8)) (some 2), .assign (some (.boolean true)) (some 3),
        .collect] = some t := ⟨_, rfl, _, rfl⟩
  exact ⟨t₀, t, hnew, hrun, (table_run (Nat.zero_le _) hnew hrun).1 _⟩

end UnityLua
