import UnityLua.HashTableRuns

/-!
# Traversing a table

`next` finds the place of the key that it is given and goes on from there. The keys of a table
keep their places while it is only written at keys that have one and while the collector takes
away keys without a value, so that a traversal may do both: it comes to every key that keeps a
value, and to none twice.

## Main results

* `luaH_next_of_findindex`: what comes after the key of a place.
* `traversal_run`: a traversal of a table that changes.
-/

namespace UnityLua

open Library

variable {K V : Type}

/-! ### The first of some places -/

theorem firstFrom_eq_some {α : Type} {f : ℕ → Option α} {i n : ℕ} {a : α}
    (h : firstFrom f i n = some a) :
    ∃ j, i ≤ j ∧ j < i + n ∧ f j = some a ∧ ∀ l, i ≤ l → l < j → f l = none := by
  induction n generalizing i with
  | zero => cases h
  | succ n ih =>
      rw [firstFrom] at h
      cases hi : f i with
      | some b =>
          rw [hi, Option.some_or] at h
          exact ⟨i, le_rfl, by omega, hi.trans h, fun l hl hlt => by omega⟩
      | none =>
          rw [hi, Option.none_or] at h
          obtain ⟨j, hij, hjn, hj, hbefore⟩ := ih h
          refine ⟨j, by omega, by omega, hj, fun l hl hlt => ?_⟩
          obtain rfl | hlt' := Nat.eq_or_lt_of_le hl
          · exact hi
          · exact hbefore l hlt' hlt

theorem firstFrom_eq_none {α : Type} {f : ℕ → Option α} {i n : ℕ} (h : firstFrom f i n = none) :
    ∀ l, i ≤ l → l < i + n → f l = none := by
  induction n generalizing i with
  | zero => exact fun l hl hlt => by omega
  | succ n ih =>
      rw [firstFrom] at h
      cases hi : f i with
      | some b => rw [hi] at h; cases h
      | none =>
          rw [hi, Option.none_or] at h
          intro l hl hlt
          obtain rfl | hl := Nat.eq_or_lt_of_le hl
          · exact hi
          · exact ih h l hl (by omega)

theorem firstFrom_add {α : Type} (f : ℕ → Option α) (i n m : ℕ) :
    firstFrom f i (n + m) = (firstFrom f i n).or (firstFrom f (i + n) m) := by
  induction n generalizing i with
  | zero => rw [Nat.zero_add, Nat.add_zero, firstFrom, Option.none_or]
  | succ n ih =>
      have hn : n + 1 + m = (n + m) + 1 := by omega
      have hi : i + 1 + n = i + (n + 1) := by omega
      rw [hn, firstFrom, firstFrom, ih, hi, Option.or_assoc]

theorem firstFrom_congr {α : Type} {f g : ℕ → Option α} {i j n : ℕ}
    (h : ∀ l, l < n → f (i + l) = g (j + l)) : firstFrom f i n = firstFrom g j n := by
  induction n generalizing i j with
  | zero => rfl
  | succ n ih =>
      have hhead : f i = g j := h 0 (by omega)
      rw [firstFrom, firstFrom, hhead, ih fun l hl => ?_]
      have hl := h (l + 1) (by omega)
      rwa [show i + 1 + l = i + (l + 1) by omega, show j + 1 + l = j + (l + 1) by omega]

section

variable [TableKey K] {t t' : Table K V} {key : K}

/-! ### Places -/

/-- The entry at a place: the array part comes first. -/
def entryAt (t : Table K V) (p : ℕ) : Option (K × V) :=
  if p < t.sizearray then ((t.array[p]?).join).map fun v => (TableKey.ofInt (p + 1), v)
  else (t.node (p - t.sizearray)).entry

/-- The key has the place `p`. -/
def HasPlace (t : Table K V) (key : K) (p : ℕ) : Prop :=
  (p < t.sizearray ∧ key = TableKey.ofInt (p + 1)) ∨
    ∃ i, p = t.sizearray + i ∧ (t.node i).key = .live key

theorem hasPlace_of_entryAt {p : ℕ} {v : V} (h : entryAt t p = some (key, v)) :
    HasPlace t key p := by
  rw [entryAt] at h
  split at h
  · next hp =>
      obtain ⟨w, -, hw⟩ := Option.map_eq_some_iff.mp h
      exact Or.inl ⟨hp, (Prod.mk.inj hw).1.symm⟩
  · next hp =>
      exact Or.inr ⟨p - t.sizearray, by omega, (Node.entry_eq_some.mp h).1⟩

/-- The other table has no new keys, and of the old ones only collected ones are dead. -/
structure Table.SameKeys (t t' : Table K V) : Prop where
  lsizenode : t'.lsizenode = t.lsizenode
  sizearray : t'.sizearray = t.sizearray
  next : t'.next = t.next
  key? : ∀ i, t'.key? i = t.key? i
  live : ∀ i k, (t'.node i).key = .live k → (t.node i).key = .live k
  stays : ∀ i k, (t.node i).key = .live k → TableKey.iscollectable k = false →
    (t'.node i).key = .live k

namespace Table.SameKeys

theorem refl (t : Table K V) : t.SameKeys t :=
  ⟨rfl, rfl, rfl, fun _ => rfl, fun _ _ h => h, fun _ _ h _ => h⟩

theorem trans {t'' : Table K V} (h : t.SameKeys t') (h' : t'.SameKeys t'') : t.SameKeys t'' :=
  ⟨h'.lsizenode.trans h.lsizenode, h'.sizearray.trans h.sizearray, h'.next.trans h.next,
    fun i => (h'.key? i).trans (h.key? i), fun i k hk => h.live i k (h'.live i k hk),
    fun i k hk hc => h'.stays i k (h.stays i k hk hc) hc⟩

theorem put (t : Table K V) (s : NodeSlot) (v : Option V) : t.SameKeys (t.put s v) :=
  ⟨t.put_lsizenode s v, t.put_sizearray s v, t.put_next s v, t.put_key? s v,
    fun i _ h => (t.put_live s v i).symm.trans h, fun i _ h _ => (t.put_live s v i).trans h⟩

theorem removeentries (t : Table K V) : t.SameKeys (removeentries t) :=
  ⟨rfl, rfl, removeentries_next t, removeentries_key? t, fun _ _ h => live_of_removeentries h,
    fun _ _ h hc => removeentries_live h (Or.inr hc)⟩

theorem mainposition (h : t.SameKeys t') (k : K) :
    UnityLua.mainposition t' k = UnityLua.mainposition t k := by
  rw [UnityLua.mainposition, h.lsizenode, UnityLua.mainposition]

end Table.SameKeys

/-- What a loop may do to the table that it traverses. -/
inductive Change : Table K V → Table K V → Prop
  | write (t : Table K V) (key : K) (s : NodeSlot) (v : Option V) (h : luaH_get t key = some s) :
      Change t (t.put s v)
  | collect (t : Table K V) : Change t (removeentries t)

theorem Change.sameKeys (h : Change t t') : t.SameKeys t' := by
  cases h with
  | write key s v hs => exact Table.SameKeys.put t s v
  | collect => exact Table.SameKeys.removeentries t

theorem NodeKey.wasAt_iff {n : NodeKey K} :
    n.wasAt key = true ↔ ∃ k, n.key? = some k ∧ (k == key) = true ∧
      (n = .live k ∨ TableKey.iscollectable key = true) := by
  cases n with
  | nil => simp [NodeKey.wasAt]
  | dead k => simp [NodeKey.wasAt, and_comm]
  | live k => simp [NodeKey.wasAt]

variable [LawfulTableKey K]

theorem Change.wellFormed (h : t.WellFormed) (hc : Change t t') : t'.WellFormed := by
  cases hc with
  | write key s v hs => exact h.put hs v
  | collect => exact removeentries_wellFormed h

theorem arrayindex_ofInt (h : t.WellFormed) {p : ℕ} (hp : p < t.sizearray) :
    arrayindex (TableKey.ofInt (p + 1) : K) = p + 1 := by
  rw [arrayindex, toInt_of_le h.sizearray_le (by omega) (by omega), Option.getD_some]

/-- A key is found at its place as long as no new key came. -/
theorem findindex_of_place (h : t.WellFormed) {p : ℕ} (hp : HasPlace t key p)
    (hsame : t.SameKeys t') (h' : t'.WellFormed) : findindex t' (some key) = .ok (p + 1) := by
  rw [findindex]
  obtain ⟨hlt, rfl⟩ | ⟨i, rfl, hi⟩ := hp
  · rw [arrayindex_ofInt h hlt, hsame.sizearray, if_pos (by omega)]
    exact congrArg Except.ok (by omega)
  · have hnot : ¬(0 < arrayindex key ∧ arrayindex key ≤ t'.sizearray) := by
      rw [← inArray_iff_arrayindex, inArray_iff]
      rintro ⟨m, hm, hlo, hhi⟩
      exact h.outside i key m hi hm ⟨hlo, hsame.sizearray ▸ hhi⟩
    rw [if_neg hnot]
    have hkey? : t'.key? i = some key := by
      rw [hsame.key?, Table.key?, hi, NodeKey.key?_live]
    have hrefl := h.refl i key hi
    have hat : (t'.node i).key.wasAt key = true := by
      rw [NodeKey.wasAt_iff]
      refine ⟨key, hkey?, hrefl, ?_⟩
      cases hc : TableKey.iscollectable key with
      | false => exact Or.inl (hsame.stays i key hi hc)
      | true => exact Or.inr rfl
    cases hs : search t'.next (fun i => (t'.node i).key.wasAt key) t'.sizenode
        (mainposition t' key) with
    | none =>
        have := h'.search_none (mainposition_lt t' key) hs (h'.main i key hkey?)
        rw [hat] at this
        cases this
    | some j =>
        -- what is found is this node: it is in front of the others with this key
        obtain ⟨k, hk, hkk, -⟩ := NodeKey.wasAt_iff.mp (search_some hs).2
        have hji : Ahead t.next j i :=
          hsame.next ▸ search_first hs (h'.main i key hkey?) hat
        have hij : Ahead t.next i j :=
          h.first i j key k hi ((hsame.key? j).symm.trans hk) (BEq.symm hkk)
        rw [h.chains.antisymm hij hji, hsame.sizearray]
        exact congrArg Except.ok (by omega)

omit [LawfulTableKey K] in
/-- **What comes after a key**: the next place with an entry, or nothing. -/
theorem luaH_next_of_findindex {key : Option K} {p : ℕ} (hp : findindex t key = .ok p)
    (hle : p ≤ t.sizearray + t.sizenode) :
    luaH_next t key = .ok (firstFrom (entryAt t) p (t.sizearray + t.sizenode - p)) := by
  rw [luaH_next, hp]
  refine congrArg Except.ok ?_
  have htotal : t.sizearray + t.sizenode - p =
      (t.sizearray - p) + (t.sizenode - (p - t.sizearray)) := by omega
  rw [htotal, firstFrom_add]
  congr 1
  · refine firstFrom_congr fun l hl => ?_
    rw [entryAt, if_pos (by omega)]
  · refine firstFrom_congr fun l hl => ?_
    rw [entryAt, if_neg (by omega)]
    congr 2
    omega

omit [LawfulTableKey K] in
/-- One place is the place of one key. -/
theorem HasPlace.unique {k k' : K} {p : ℕ} (hk : HasPlace t k p) (hk' : HasPlace t k' p) :
    k = k' := by
  obtain ⟨hp, rfl⟩ | ⟨i, rfl, hi⟩ := hk
  · obtain ⟨-, rfl⟩ | ⟨i', rfl, -⟩ := hk'
    · rfl
    · omega
  · obtain ⟨hp', -⟩ | ⟨i', hii, hi'⟩ := hk'
    · omega
    · obtain rfl := Nat.add_left_cancel hii
      exact NodeKey.live.inj (hi.symm.trans hi')

/-! ### Traversals -/

/-- A traversal of the table `t` from `key` on: the tables that `next` was asked about with the
entries that it answered, and the key and the table that it is asked about now. After each
answer the loop may change the table. -/
inductive Traversal : Option K → Table K V → List (Table K V × K × V) → Option K → Table K V → Prop
  | start (key : Option K) (t : Table K V) : Traversal key t [] key t
  | visit (key key' : Option K) (t t' t'' : Table K V) (k : K) (v : V)
      (visits : List (Table K V × K × V)) (hnext : luaH_next t key = .ok (some (k, v)))
      (hchange : Relation.ReflTransGen Change t t') (hrest : Traversal (some k) t' visits key' t'') :
      Traversal key t ((t, k, v) :: visits) key' t''

omit [LawfulTableKey K] in
theorem sameKeys_of_changes (h : Relation.ReflTransGen Change t t') : t.SameKeys t' := by
  induction h with
  | refl => exact Table.SameKeys.refl t
  | tail _ hc ih => exact ih.trans hc.sameKeys

theorem wellFormed_of_changes (h : t.WellFormed) (hc : Relation.ReflTransGen Change t t') :
    t'.WellFormed := by
  induction hc with
  | refl => exact h
  | tail _ hc ih => exact hc.wellFormed ih

/-- A traversal of the table is before the place `p`. -/
structure At (t : Table K V) (key : Option K) (p : ℕ) : Prop where
  wf : t.WellFormed
  index : findindex t key = .ok p
  le : p ≤ t.sizearray + t.sizenode

omit [LawfulTableKey K] in
theorem At.start (h : t.WellFormed) : At t none 0 := ⟨h, rfl, Nat.zero_le _⟩

/-- After a visit and some changes the traversal is before the next place. -/
theorem At.visited {key : Option K} {p : ℕ} (h : At t key p) {k : K} {v : V}
    (hnext : luaH_next t key = .ok (some (k, v))) (hchange : Relation.ReflTransGen Change t t') :
    ∃ q, p ≤ q ∧ entryAt t q = some (k, v) ∧ (∀ r, p ≤ r → r < q → entryAt t r = none) ∧
      HasPlace t k q ∧ At t' (some k) (q + 1) := by
  rw [luaH_next_of_findindex h.index h.le] at hnext
  obtain ⟨q, hpq, hq, hentry, hbefore⟩ := firstFrom_eq_some (Except.ok.inj hnext)
  have hplace := hasPlace_of_entryAt hentry
  have hsame := sameKeys_of_changes hchange
  have hwf := wellFormed_of_changes h.wf hchange
  have hsize : t'.sizenode = t.sizenode := by
    rw [Table.sizenode, hsame.lsizenode, Table.sizenode]
  refine ⟨q, hpq, hentry, hbefore, hplace, hwf, findindex_of_place h.wf hplace hsame hwf, ?_⟩
  rw [hsame.sizearray, hsize]
  omega

omit [LawfulTableKey K] in
/-- A traversal does not fail. -/
theorem At.luaH_next_ok {key : Option K} {p : ℕ} (h : At t key p) : ∃ r, luaH_next t key = .ok r :=
  ⟨_, luaH_next_of_findindex h.index h.le⟩

omit [LawfulTableKey K] in
/-- A key that has a place has had it before. -/
theorem HasPlace.of_sameKeys (hsame : t.SameKeys t') {k : K} {p : ℕ} (h : HasPlace t' k p) :
    HasPlace t k p := by
  obtain ⟨hp, hk⟩ | ⟨i, hi, hk⟩ := h
  · exact Or.inl ⟨hsame.sizearray ▸ hp, hk⟩
  · exact Or.inr ⟨i, hi.trans (by rw [hsame.sizearray]), hsame.live i k hk⟩

/-- Keys that have different places in one table are different. -/
theorem beq_false_of_place (h : t.WellFormed) {k k' : K} {p p' : ℕ} (hk : HasPlace t k p)
    (hk' : HasPlace t k' p') (hne : p ≠ p') : (k == k') = false := by
  by_contra heq
  have hkk : (k == k') = true := Bool.not_eq_false _ ▸ heq
  obtain ⟨hp, rfl⟩ | ⟨i, rfl, hi⟩ := hk
  · have hint := toInt_of_le (K := K) h.sizearray_le (m := p + 1) (by omega) (by omega)
    obtain ⟨hp', rfl⟩ | ⟨i', rfl, hi'⟩ := hk'
    · have hint' := toInt_of_le (K := K) h.sizearray_le (m := p' + 1) (by omega) (by omega)
      rw [toInt_congr hkk, hint'] at hint
      have := Option.some.inj hint
      omega
    · rw [toInt_congr hkk] at hint
      exact h.outside i' k' _ hi' hint ⟨by omega, by omega⟩
  · obtain ⟨hp', rfl⟩ | ⟨i', rfl, hi'⟩ := hk'
    · have hint' := toInt_of_le (K := K) h.sizearray_le (m := p' + 1) (by omega) (by omega)
      rw [← toInt_congr hkk] at hint'
      exact h.outside i k _ hi hint' ⟨by omega, by omega⟩
    · exact hne (by rw [h.live_unique hi hi' hkk])

omit [LawfulTableKey K] in
theorem Table.SameKeys.places (hsame : t.SameKeys t') :
    t'.sizearray + t'.sizenode = t.sizearray + t.sizenode := by
  rw [hsame.sizearray, Table.sizenode, hsame.lsizenode, Table.sizenode]

/-- The visits of a traversal that is before the place `p` are at places from `p` on, which go
up, of keys that had them in the first table. -/
theorem Traversal.places {key key' : Option K} {visits : List (Table K V × K × V)} {p : ℕ}
    (htr : Traversal key t visits key' t') (h : At t key p) :
    ∃ places : List ℕ, places.length = visits.length ∧ places.Pairwise (· < ·) ∧
      (∀ q ∈ places, p ≤ q ∧ q < t.sizearray + t.sizenode) ∧
      ∀ i (hi : i < visits.length) (hi' : i < places.length),
        HasPlace t visits[i].2.1 places[i] := by
  induction htr generalizing p with
  | start key t =>
      exact ⟨[], rfl, List.Pairwise.nil, by simp, fun i hi => absurd hi (Nat.not_lt_zero i)⟩
  | visit key key' t t' t'' k v visits hnext hchange _ ih =>
      obtain ⟨q, hpq, hentry, -, hplace, hat⟩ := h.visited hnext hchange
      have hsame := sameKeys_of_changes hchange
      have hsize := hsame.places
      obtain ⟨places, hlen, hup, hfrom, hhas⟩ := ih hat
      refine ⟨q :: places, by simp [hlen], List.Pairwise.cons (fun r hr => ?_) hup, ?_, ?_⟩
      · have := (hfrom r hr).1
        omega
      · intro r hr
        obtain rfl | hr := List.mem_cons.mp hr
        · have := hat.le
          omega
        · have := hfrom r hr
          omega
      · intro i hi hi'
        cases i with
        | zero => exact hplace
        | succ i =>
            exact (hhas i (Nat.lt_of_succ_lt_succ hi) (Nat.lt_of_succ_lt_succ hi')).of_sameKeys
              hsame

/-- It comes to no key twice. -/
theorem Traversal.distinct {key key' : Option K} {visits : List (Table K V × K × V)} {p : ℕ}
    (htr : Traversal key t visits key' t') (h : At t key p) :
    visits.Pairwise (fun e e' => (e.2.1 == e'.2.1) = false) ∧
      visits.length ≤ t.sizearray + t.sizenode := by
  obtain ⟨places, hlen, hup, hfrom, hhas⟩ := htr.places h
  constructor
  · rw [List.pairwise_iff_getElem] at hup ⊢
    intro i j hi hj hij
    have hlt := hup i j (hlen ▸ hi) (hlen ▸ hj) hij
    exact beq_false_of_place h.wf (hhas i hi (hlen ▸ hi)) (hhas j hj (hlen ▸ hj)) (ne_of_lt hlt)
  · have hnodup : places.Nodup := hup.imp fun hlt => ne_of_lt hlt
    have hsub : places ⊆ List.range (t.sizearray + t.sizenode) :=
      fun q hq => List.mem_range.mpr (hfrom q hq).2
    rw [← hlen]
    exact (hnodup.subperm hsub).length_le.trans_eq List.length_range

/-- What is at a place is the value of its key. -/
theorem rawget_eq_some_iff_entryAt (h : t.WellFormed) {v : V} :
    rawget t key = some v ↔
      ∃ q k, q < t.sizearray + t.sizenode ∧ entryAt t q = some (k, v) ∧ (k == key) = true := by
  rw [h.rawget_eq_some]
  constructor
  · rintro (⟨m, hm, hlo, hhi, hv⟩ | ⟨i, k, hi, heq⟩)
    · refine ⟨(m - 1).toNat, TableKey.ofInt m, by omega, ?_,
        (LawfulTableKey.toInt_eq_some.mp hm).2.2⟩
      rw [entryAt, if_pos (by omega), hv, Option.map_some]
      congr 3
      omega
    · have hlt : i < t.sizenode := by
        by_contra hle
        rw [h.inside i (Nat.le_of_not_lt hle)] at hi
        cases hi
      refine ⟨t.sizearray + i, k, by omega, ?_, heq⟩
      rw [entryAt, if_neg (by omega), Nat.add_sub_cancel_left, hi]
  · rintro ⟨q, k, hq, hentry, heq⟩
    rw [entryAt] at hentry
    split at hentry
    · next hlt =>
        obtain ⟨w, hw, hkw⟩ := Option.map_eq_some_iff.mp hentry
        obtain ⟨rfl, rfl⟩ := Prod.mk.inj hkw
        refine Or.inl ⟨q + 1, (toInt_congr heq).symm.trans
          (toInt_of_le h.sizearray_le (by omega) (by omega)), by omega, by omega, ?_⟩
        have hq1 : ((q : ℤ) + 1 - 1).toNat = q := by omega
        rw [hq1, hw]
    · exact Or.inr ⟨q - t.sizearray, k, hentry, heq⟩

/-- It reads what the key has at that moment. -/
theorem Traversal.values {key key' : Option K} {visits : List (Table K V × K × V)} {p : ℕ}
    (htr : Traversal key t visits key' t') (h : At t key p) :
    ∀ e ∈ visits, rawget e.1 e.2.1 = some e.2.2 := by
  induction htr generalizing p with
  | start key t => simp
  | visit key key' t t' t'' k v visits hnext hchange _ ih =>
      obtain ⟨q, -, hentry, -, hplace, hat⟩ := h.visited hnext hchange
      intro e he
      obtain rfl | he := List.mem_cons.mp he
      · have hle := hat.le
        rw [(sameKeys_of_changes hchange).places] at hle
        refine (rawget_eq_some_iff_entryAt h.wf).mpr ⟨q, k, hle, hentry, ?_⟩
        obtain ⟨hlt, rfl⟩ | ⟨i, -, hi⟩ := hplace
        · have := h.wf.sizearray_le
          exact LawfulTableKey.ofInt_refl _ (by omega) (by simp only [MAXASIZE, MAXBITS] at this; omega)
        · exact h.wf.refl i k hi
      · exact ih hat e he

/-- Where the traversal is now. -/
theorem Traversal.at_end {key key' : Option K} {visits : List (Table K V × K × V)} {p : ℕ}
    (htr : Traversal key t visits key' t') (h : At t key p) : ∃ q, At t' key' q := by
  induction htr generalizing p with
  | start key t => exact ⟨p, h⟩
  | visit key key' t t' t'' k v visits hnext hchange _ ih =>
      obtain ⟨q, -, -, -, -, hat⟩ := h.visited hnext hchange
      exact ih hat

/-- A key with a value has it at its place. -/
theorem HasPlace.entry (h : t.WellFormed) {k k₀ : K} {q : ℕ} (hq : HasPlace t k q)
    (hk : (k == k₀) = true) (hvalue : rawget t k₀ ≠ none) :
    ∃ k' v, q < t.sizearray + t.sizenode ∧ entryAt t q = some (k', v) ∧ (k' == k₀) = true := by
  obtain ⟨v, hv⟩ := Option.ne_none_iff_exists'.mp hvalue
  obtain ⟨q', k', hlt, hentry, hk'⟩ := (rawget_eq_some_iff_entryAt h).mp hv
  by_cases hne : q = q'
  · exact ⟨k', v, hne ▸ hlt, hne ▸ hentry, hk'⟩
  · have := beq_false_of_place h hq (hasPlace_of_entryAt hentry) hne
    rw [PartialEquivBEq.trans hk (BEq.symm hk')] at this
    cases this

/-- When it has come to its end, it has visited every later key that always had a value. -/
theorem Traversal.complete {key key' : Option K} {visits : List (Table K V × K × V)} {p : ℕ}
    (htr : Traversal key t visits key' t') (h : At t key p) (hend : luaH_next t' key' = .ok none)
    {k₀ k : K} {q : ℕ} (hpq : p ≤ q) (hq : HasPlace t k q) (hk : (k == k₀) = true)
    (hvalues : ∀ e ∈ visits, rawget e.1 k₀ ≠ none) (hvalue : rawget t' k₀ ≠ none) :
    ∃ e ∈ visits, (e.2.1 == k₀) = true := by
  induction htr generalizing p k with
  | start key t =>
      obtain ⟨k', v, hlt, hentry, -⟩ := hq.entry h.wf hk hvalue
      rw [luaH_next_of_findindex h.index h.le] at hend
      have hnone := firstFrom_eq_none (Except.ok.inj hend) q hpq (by omega)
      rw [hentry] at hnone
      cases hnone
  | visit key key' t t' t'' k₁ v₁ visits hnext hchange hrest ih =>
      obtain ⟨r, -, hentry₁, hbefore, -, hat⟩ := h.visited hnext hchange
      obtain ⟨k', v, -, hentry, hk'⟩ := hq.entry h.wf hk (hvalues _ List.mem_cons_self)
      obtain hlt | rfl | hgt := lt_trichotomy q r
      · rw [hbefore q hpq hlt] at hentry
        cases hentry
      · rw [hentry₁] at hentry
        obtain ⟨rfl, -⟩ := Prod.mk.inj (Option.some.inj hentry)
        exact ⟨_, List.mem_cons_self, hk'⟩
      · have hrestvalues : ∀ e ∈ visits, rawget e.1 k₀ ≠ none :=
          fun e he => hvalues e (List.mem_cons_of_mem _ he)
        -- the key still has its place, as it has a value in the next table
        have hvalue' : rawget t' k₀ ≠ none := by
          cases hrest with
          | start => exact hvalue
          | visit => exact hrestvalues _ List.mem_cons_self
        obtain ⟨w, hw⟩ := Option.ne_none_iff_exists'.mp hvalue'
        obtain ⟨q', k'', -, hentry', hk''⟩ := (rawget_eq_some_iff_entryAt hat.wf).mp hw
        have hplace' := hasPlace_of_entryAt hentry'
        have hqq' : q = q' := by
          by_contra hne
          have := beq_false_of_place h.wf hq (hplace'.of_sameKeys (sameKeys_of_changes hchange)) hne
          rw [PartialEquivBEq.trans hk (BEq.symm hk'')] at this
          cases this
        obtain ⟨e, he, heq⟩ := ih hat hend hgt (hqq' ▸ hplace') hk'' hrestvalues hvalue
        exact ⟨e, List.mem_cons_of_mem _ he, heq⟩

theorem Traversal.spec (h : t.WellFormed) {visits : List (Table K V × K × V)} {key : Option K}
    (htr : Traversal none t visits key t') :
    (∃ r, luaH_next t' key = .ok r) ∧
      visits.length ≤ t.sizearray + t.sizenode ∧
      visits.Pairwise (fun e e' => (e.2.1 == e'.2.1) = false) ∧
      (∀ e ∈ visits, rawget e.1 e.2.1 = some e.2.2) ∧
      (luaH_next t' key = .ok none → ∀ k, (∀ e ∈ visits, rawget e.1 k ≠ none) →
        rawget t' k ≠ none → ∃ e ∈ visits, (e.2.1 == k) = true) := by
  have hat := At.start h
  obtain ⟨hdistinct, hlen⟩ := htr.distinct hat
  obtain ⟨q, hend⟩ := htr.at_end hat
  refine ⟨hend.luaH_next_ok, hlen, hdistinct, htr.values hat, fun hlast k hvalues hvalue => ?_⟩
  have hfirst : rawget t k ≠ none := by
    cases htr with
    | start => exact hvalue
    | visit => exact hvalues _ List.mem_cons_self
  obtain ⟨v, hv⟩ := Option.ne_none_iff_exists'.mp hfirst
  obtain ⟨q, k', -, hentry, hk'⟩ := (rawget_eq_some_iff_entryAt h).mp hv
  exact htr.complete hat hlast (Nat.zero_le q) (hasPlace_of_entryAt hentry) hk' hvalues hvalue

/-- **A traversal of a table that is written at keys that it has, and collected from, in
between**, after any run that made the table. It does not fail and is not longer than the table;
it comes to no key twice and reads the value of the moment; when it is at its end it has come to
every key that had a value whenever `next` was called. -/
theorem traversal_run {narray nhash : ℕ} (hna : narray ≤ MAXASIZE) {t₀ : Table K V}
    (hnew : luaH_new narray nhash = .ok t₀) {ops : List (TableOp K V)}
    (hrun : run tableStep t₀ ops = some t) {visits : List (Table K V × K × V)} {key : Option K}
    (htr : Traversal none t visits key t') :
    (∃ r, luaH_next t' key = .ok r) ∧
      visits.length ≤ t.sizearray + t.sizenode ∧
      visits.Pairwise (fun e e' => (e.2.1 == e'.2.1) = false) ∧
      (∀ e ∈ visits, rawget e.1 e.2.1 = some e.2.2) ∧
      (luaH_next t' key = .ok none → ∀ k, (∀ e ∈ visits, rawget e.1 k ≠ none) →
        rawget t' k ≠ none → ∃ e ∈ visits, (e.2.1 == k) = true) :=
  htr.spec (run_wellFormed (luaH_new_wellFormed hna hnew).1 hrun)

/-- The value of a key is removed when the traversal is at it. -/
theorem traversal_run_removal : ∃ t₀ t : Table LuaKey ℕ, ∃ s, luaH_new 0 0 = .ok t₀ ∧
    run tableStep t₀ [.assign (some (.boolean true)) (some 1)] = some t ∧
    luaH_get t (.boolean true) = some s ∧
    ∃ r, luaH_next (t.put s none) (some (.boolean true)) = .ok r := by
  obtain ⟨t₀, hnew, t, hrun, s, hget, hnext⟩ : ∃ t₀ : Table LuaKey ℕ, luaH_new 0 0 = .ok t₀ ∧ ∃ t,
      run tableStep t₀ [.assign (some (.boolean true)) (some 1)] = some t ∧ ∃ s,
      luaH_get t (.boolean true) = some s ∧
      luaH_next t none = .ok (some (.boolean true, 1)) := ⟨_, rfl, _, rfl, _, rfl, rfl⟩
  have hchange : Relation.ReflTransGen Change t (t.put s none) :=
    Relation.ReflTransGen.single (Change.write t _ s none hget)
  exact ⟨t₀, t, s, hnew, hrun, hget, (traversal_run (Nat.zero_le _) hnew hrun
    (Traversal.visit _ _ t _ _ _ 1 [] hnext hchange (Traversal.start _ _))).1⟩

end

end UnityLua
