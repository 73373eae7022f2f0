import Mathlib.Data.List.Nodup
import UnityLua.LuaList

/-!
# The list module refines a sequence

Whatever is called on a list, it behaves like the sequence of its elements. The invariant
`Spells` says that the nodes form one well-linked segment between `nil` and `nil`, with
`head` and `tail` at its ends and its length in `count`. Each function of the module has
one specification; the two loops are followed element by element, with the part already
visited in front of the part still to come.

## Main results

* `unlink_spec`: removing a node at any place during a traversal.
* `call_spec`: one call, against the same operation on the sequence.
* `calls_refine`: all sequences of calls, with the shape of the list after them.
-/

open Library Library.Cells

namespace UnityLua

variable {V σ ε : Type}

namespace LuaList

/-! ### Operations on sequences -/

/-- `traverse`: the function sees the elements in order, until it answers false. -/
def traverseSeq (func : LuaPredicate V σ ε) : List (Option V) → σ → Returned V ε × σ
  | [], s => (.nothing, s)
  | x :: xs, s =>
      match func s x with
      | (.error e, s) => (.error e, s)
      | (.ok false, s) => (.nothing, s)
      | (.ok true, s) => traverseSeq func xs s

/-- `remove_if`: the function sees every element once, in order, and those stay for which
it answers false. After an error the elements not yet decided stay. -/
def removeIfSeq (func : LuaPredicate V σ ε) :
    List (Option V) → σ → Returned V ε × List (Option V) × σ
  | [], s => (.nothing, [], s)
  | x :: xs, s =>
      match func s x with
      | (.error e, s) => (.error e, x :: xs, s)
      | (.ok bRet, s) =>
          let (r, ys, s) := removeIfSeq func xs s
          (r, if bRet then ys else x :: ys, s)

theorem length_removeIfSeq_le (func : LuaPredicate V σ ε) (xs : List (Option V)) (s : σ) :
    (removeIfSeq func xs s).2.1.length ≤ xs.length := by
  induction xs generalizing s with
  | nil => exact Nat.le_refl 0
  | cons x xs ih =>
      simp only [removeIfSeq]
      rcases func s x with ⟨e | _ | _, s'⟩
      · exact Nat.le_refl _
      · exact Nat.succ_le_succ (ih s')
      · exact Nat.le_succ_of_le (ih s')

/-- What a call does to the sequence. -/
def seqCall (xs : List (Option V)) (s : σ) :
    Call V σ ε → Returned V ε × List (Option V) × σ
  | .push_back var => (.nothing, xs ++ [var], s)
  | .push_front var => (.nothing, var :: xs, s)
  | .pop_back => (.value xs.getLast?.join, xs.dropLast, s)
  | .pop_front => (.value xs.head?.join, xs.tail, s)
  | .front => (.value xs.head?.join, xs, s)
  | .back => (.value xs.getLast?.join, xs, s)
  | .size => (.number xs.length, xs, s)
  | .traverse func =>
      let (r, s) := traverseSeq func xs s
      (r, xs, s)
  | .remove_if func => removeIfSeq func xs s

def seqCalls : List (Option V) → σ → List (Call V σ ε) →
    List (Returned V ε) × List (Option V) × σ
  | xs, s, [] => ([], xs, s)
  | xs, s, c :: cs =>
      let (r, xs, s) := seqCall xs s c
      let (rs, xs, s) := seqCalls xs s cs
      (r :: rs, xs, s)

/-- A function that raises no error and keeps a record of its calls: it is called once for
each element, in order, and `remove_if` filters. -/
theorem removeIfSeq_record (p : Option V → Bool) (xs s : List (Option V)) :
    removeIfSeq (fun s x => ((.ok (p x) : Except ε Bool), s ++ [x])) xs s =
      (.nothing, xs.filter fun x => !p x, s ++ xs) := by
  induction xs generalizing s with
  | nil => simp [removeIfSeq]
  | cons x xs ih =>
      simp only [removeIfSeq, ih, List.append_assoc, List.singleton_append]
      cases hp : p x <;> simp [hp]

/-! ### The invariant -/

/-- The nodes at the addresses of `ps` are the list, with the values of `ps`. -/
structure Spells (l : LuaList V) (ps : List (ℕ × Option V)) : Prop where
  seg : Seg l.nodes none ps none
  nodup : (ps.map Prod.fst).Nodup
  head : l.head = firstOr ps none
  tail : l.tail = lastOr none ps
  count : l.count = ps.length
  bound : ∀ a ∈ ps.map Prod.fst, a < l.fresh

theorem spells_new : Spells (new : LuaList V) [] where
  seg := trivial
  nodup := List.nodup_nil
  head := rfl
  tail := rfl
  count := rfl
  bound := by simp

/-- A new node is none of the list's. -/
theorem Spells.fresh_notMem {l : LuaList V} {ps : List (ℕ × Option V)}
    (h : Spells l ps) : l.fresh ∉ ps.map Prod.fst :=
  fun hmem => absurd (h.bound _ hmem) (Nat.lt_irrefl _)

theorem ok_bind {α β : Type} (a : α) (f : α → Except Fault β) :
    (Except.ok a >>= f) = f a := rfl

theorem index_eq_ok {l : LuaList V} {a : ℕ} {node : Cell (Option V)}
    (h : l.nodes a = some node) : l.index (some a) = .ok (a, node) := by
  simp only [index, h]

theorem setLeft_eq_ok {l : LuaList V} {a : ℕ} {node : Cell (Option V)}
    (h : l.nodes a = some node) (left : Option ℕ) :
    l.setLeft (some a) left = .ok { l with
      nodes := Function.update l.nodes a (some { node with left := left }) } := by
  simp only [setLeft, index_eq_ok h]
  rfl

theorem setRight_eq_ok {l : LuaList V} {a : ℕ} {node : Cell (Option V)}
    (h : l.nodes a = some node) (right : Option ℕ) :
    l.setRight (some a) right = .ok { l with
      nodes := Function.update l.nodes a (some { node with right := right }) } := by
  simp only [setRight, index_eq_ok h]
  rfl

/-- Addresses of a segment with one cell in its middle. -/
theorem nodup_middle {ks rs : List (ℕ × Option V)} {p : ℕ × Option V}
    (h : ((ks ++ p :: rs).map Prod.fst).Nodup) :
    p.1 ∉ ks.map Prod.fst ∧ p.1 ∉ rs.map Prod.fst ∧ ((ks ++ rs).map Prod.fst).Nodup ∧
      ∀ a ∈ ks.map Prod.fst, a ∉ rs.map Prod.fst := by
  simp only [List.map_append, List.map_cons, List.nodup_append, List.nodup_cons,
    List.mem_cons] at h ⊢
  obtain ⟨hks, ⟨hp, hrs⟩, hdisj⟩ := h
  exact ⟨fun hmem => hdisj _ hmem _ (Or.inl rfl) rfl, hp,
    ⟨hks, hrs, fun a ha b hb => hdisj a ha b (Or.inr hb)⟩,
    fun a ha hb => hdisj a ha a (Or.inr hb) rfl⟩

/-- A list that begins or ends with a node has a head. -/
theorem Spells.exists_head {l : LuaList V} {p : ℕ × Option V} {ps qs : List (ℕ × Option V)}
    (h : Spells l (ps ++ p :: qs)) : ∃ a, l.head = some a := by
  rw [h.head]
  cases ps with
  | nil => exact ⟨_, rfl⟩
  | cons q ps => exact ⟨_, rfl⟩

/-! ### Pushing -/

/-- What a new node at either end does to the addresses. -/
theorem Spells.addresses {l : LuaList V} {ps qs : List (ℕ × Option V)}
    (h : Spells l ps) (v : Option V) (hperm : qs.Perm ((l.fresh, v) :: ps)) :
    (qs.map Prod.fst).Nodup ∧ ∀ a ∈ qs.map Prod.fst, a < l.fresh + 1 := by
  have hfst := hperm.map Prod.fst
  rw [List.map_cons] at hfst
  refine ⟨hfst.nodup_iff.mpr (List.nodup_cons.mpr ⟨h.fresh_notMem, h.nodup⟩), fun a ha => ?_⟩
  rcases List.mem_cons.mp (hfst.mem_iff.mp ha) with rfl | ha
  · exact Nat.lt_succ_self _
  · exact Nat.lt_succ_of_lt (h.bound a ha)

theorem push_back_spec {l : LuaList V} {ps : List (ℕ × Option V)} (h : Spells l ps)
    (var : Option V) :
    ∃ l', l.push_back var = .ok l' ∧ Spells l' (ps ++ [(l.fresh, var)]) := by
  obtain ⟨hnodup, hbound⟩ := h.addresses var (List.perm_append_singleton _ _)
  rcases List.eq_nil_or_concat ps with rfl | ⟨qs, ⟨t, y⟩, rfl⟩
  · have hhead : l.head = none := h.head
    refine ⟨_, by simp only [push_back, hhead]; rfl, ?_⟩
    exact
      { seg := ⟨Function.update_self .., trivial⟩
        nodup := hnodup
        head := rfl
        tail := rfl
        count := congrArg (· + 1) h.count
        bound := hbound }
  · rw [List.concat_eq_append] at h hnodup hbound ⊢
    have htail : l.tail = some t := by rw [h.tail, lastOr_concat]
    obtain ⟨a, hhead⟩ := h.exists_head
    obtain ⟨ht, -⟩ := nodup_middle h.nodup
    have hne : l.fresh ∉ (qs ++ [(t, y)]).map Prod.fst := h.fresh_notMem
    have hseg := h.seg.update hne (some ⟨var, some t, none⟩)
    have hset := @setRight_eq_ok V
      ⟨Function.update l.nodes l.fresh (some ⟨var, some t, none⟩), l.fresh + 1, some a,
        some t, l.count + 1⟩ t _ hseg.last (some l.fresh)
    refine ⟨_, by
      simp only [push_back, hhead, htail, newNode]
      rw [hset]
      rfl, ?_⟩
    have hnew : l.fresh ≠ t := fun heq => hne (by simp [heq])
    have hcount : l.count + 1 = (qs ++ [(t, y)] ++ [(l.fresh, var)]).length := by
      rw [h.count, @List.length_append _ _ [(l.fresh, var)]]
      rfl
    exact
      { seg := seg_append.mpr ⟨hseg.setRight ht (some l.fresh), by
          rw [lastOr_concat]
          exact ⟨(Function.update_of_ne hnew _ _).trans (Function.update_self ..), trivial⟩⟩
        nodup := hnodup
        head := by
          rw [List.append_assoc]
          exact hhead.symm.trans (h.head.trans (firstOr_middle qs _ _ (t, y) _ _))
        tail := by rw [lastOr_concat]
        count := hcount
        bound := hbound }

theorem push_front_spec {l : LuaList V} {ps : List (ℕ × Option V)} (h : Spells l ps)
    (var : Option V) :
    ∃ l', l.push_front var = .ok l' ∧ Spells l' ((l.fresh, var) :: ps) := by
  obtain ⟨hnodup, hbound⟩ := h.addresses var (List.Perm.refl _)
  cases ps with
  | nil =>
      have hhead : l.head = none := h.head
      refine ⟨_, by simp only [push_front, hhead]; rfl, ?_⟩
      exact
        { seg := ⟨Function.update_self .., trivial⟩
          nodup := hnodup
          head := rfl
          tail := rfl
          count := congrArg (· + 1) h.count
          bound := hbound }
  | cons p ps =>
      have hhead : l.head = some p.1 := h.head
      have hne : l.fresh ∉ (p :: ps).map Prod.fst := h.fresh_notMem
      have hseg := h.seg.update hne (some ⟨var, none, some p.1⟩)
      have hp : p.1 ∉ ps.map Prod.fst := (List.nodup_cons.mp h.nodup).1
      have hset := @setLeft_eq_ok V
        ⟨Function.update l.nodes l.fresh (some ⟨var, none, some p.1⟩), l.fresh + 1, some p.1,
          l.tail, l.count + 1⟩ p.1 _ hseg.1 (some l.fresh)
      refine ⟨_, by
        simp only [push_front, hhead, newNode]
        rw [hset]
        rfl, ?_⟩
      have hnew : l.fresh ≠ p.1 := fun heq => hne (by simp [heq])
      exact
        { seg := ⟨(Function.update_of_ne hnew _ _).trans (Function.update_self ..),
            hseg.setLeft hp (some l.fresh)⟩
          nodup := hnodup
          head := rfl
          tail := h.tail
          count := congrArg (· + 1) h.count
          bound := hbound }

/-! ### Reading and popping -/

theorem front_spec {l : LuaList V} {ps : List (ℕ × Option V)} (h : Spells l ps) :
    l.front = .ok (ps.map Prod.snd).head?.join := by
  cases ps with
  | nil =>
      have hhead : l.head = none := h.head
      simp only [front, hhead]
      rfl
  | cons p ps =>
      have hhead : l.head = some p.1 := h.head
      simp only [front, hhead, index_eq_ok h.seg.1]
      rfl

theorem back_spec {l : LuaList V} {ps : List (ℕ × Option V)} (h : Spells l ps) :
    l.back = .ok (ps.map Prod.snd).getLast?.join := by
  rcases List.eq_nil_or_concat ps with rfl | ⟨qs, p, rfl⟩
  · have htail : l.tail = none := h.tail
    simp only [back, htail]
    rfl
  · rw [List.concat_eq_append] at h ⊢
    have htail : l.tail = some p.1 := by rw [h.tail, lastOr_concat]
    simp only [back, htail, index_eq_ok h.seg.last]
    rw [List.map_append, List.map_singleton, List.getLast?_concat]
    rfl

/-- The addresses of a part of the list. -/
theorem Spells.addresses_sublist {l : LuaList V} {ps qs : List (ℕ × Option V)}
    (h : Spells l ps) (hsub : qs.Sublist ps) :
    (qs.map Prod.fst).Nodup ∧ ∀ a ∈ qs.map Prod.fst, a < l.fresh :=
  have hfst := hsub.map Prod.fst
  ⟨h.nodup.sublist hfst, fun a ha => h.bound a (hfst.subset ha)⟩

theorem pop_front_spec {l : LuaList V} {ps : List (ℕ × Option V)} (h : Spells l ps) :
    ∃ l', l.pop_front = .ok ((ps.map Prod.snd).head?.join, l') ∧ Spells l' ps.tail := by
  cases ps with
  | nil =>
      have hhead : l.head = none := h.head
      exact ⟨l, by simp only [pop_front, hhead]; rfl, h⟩
  | cons p ps =>
      have hhead : l.head = some p.1 := h.head
      obtain ⟨hnodup, hbound⟩ := h.addresses_sublist (List.sublist_cons_self p ps)
      have hcount : l.count - 1 = ps.length := by
        have := h.count
        rw [List.length_cons] at this
        omega
      cases ps with
      | nil =>
          refine ⟨_, by
            simp only [pop_front, hhead, index_eq_ok h.seg.1]
            rfl, ?_⟩
          exact
            { seg := trivial
              nodup := hnodup
              head := rfl
              tail := rfl
              count := hcount
              bound := hbound }
      | cons q ps =>
          have hq : q.1 ∉ ps.map Prod.fst := (List.nodup_cons.mp hnodup).1
          have hset := @setLeft_eq_ok V ⟨l.nodes, l.fresh, some q.1, l.tail, l.count⟩ q.1 _
            h.seg.2.1 none
          refine ⟨_, by
            simp only [pop_front, hhead, index_eq_ok h.seg.1, ok_bind, firstOr]
            rw [hset]
            rfl, ?_⟩
          exact
            { seg := h.seg.2.setLeft hq none
              nodup := hnodup
              head := rfl
              tail := h.tail
              count := hcount
              bound := hbound }

theorem pop_back_spec {l : LuaList V} {ps : List (ℕ × Option V)} (h : Spells l ps) :
    ∃ l', l.pop_back = .ok ((ps.map Prod.snd).getLast?.join, l') ∧ Spells l' ps.dropLast := by
  rcases List.eq_nil_or_concat ps with rfl | ⟨qs, p, rfl⟩
  · have htail : l.tail = none := h.tail
    exact ⟨l, by simp only [pop_back, htail]; rfl, h⟩
  · rw [List.concat_eq_append] at h ⊢
    rw [List.dropLast_concat, List.map_append, List.map_singleton, List.getLast?_concat]
    have htail : l.tail = some p.1 := by rw [h.tail, lastOr_concat]
    obtain ⟨hnodup, hbound⟩ := h.addresses_sublist (List.sublist_append_left qs [p])
    have hseg : Seg l.nodes none qs (some p.1) := (seg_append.mp h.seg).1
    have hcount : l.count - 1 = qs.length := by
      have := h.count
      rw [List.length_append, List.length_singleton] at this
      omega
    rcases List.eq_nil_or_concat qs with rfl | ⟨rs, q, rfl⟩
    · refine ⟨_, by
        simp only [pop_back, htail, index_eq_ok h.seg.last]
        rfl, ?_⟩
      exact
        { seg := trivial
          nodup := hnodup
          head := rfl
          tail := rfl
          count := hcount
          bound := hbound }
    · rw [List.concat_eq_append] at h hseg hnodup hbound hcount ⊢
      obtain ⟨hq, -⟩ := nodup_middle hnodup
      have hset := @setRight_eq_ok V ⟨l.nodes, l.fresh, l.head, some q.1, l.count⟩ q.1 _
        hseg.last none
      refine ⟨_, by
        simp only [pop_back, htail, index_eq_ok h.seg.last, ok_bind, lastOr_concat]
        rw [hset]
        rfl, ?_⟩
      exact
        { seg := hseg.setRight hq none
          nodup := hnodup
          head := h.head.trans (by rw [List.append_assoc]; exact firstOr_middle rs _ _ q _ _)
          tail := (lastOr_concat _ _ _).symm
          count := hcount
          bound := hbound }

/-! ### Removal during a traversal -/

/-- The half of `unlink` to the left of the node: what is in front of it now leads to what
is behind it, and the node itself is as it was. -/
theorem unlink_left {l : LuaList V} {ks rs : List (ℕ × Option V)} {p : ℕ × Option V}
    (h : Spells l (ks ++ p :: rs)) :
    ∃ nodes, l.unlinkLeft ⟨p.2, lastOr none ks, firstOr rs none⟩ =
        .ok { l with nodes := nodes, head := firstOr (ks ++ rs) none } ∧
      Seg nodes none ks (firstOr rs none) ∧ Seg nodes (some p.1) rs none ∧
      nodes p.1 = l.nodes p.1 := by
  obtain ⟨hks, hp⟩ := seg_append.mp h.seg
  obtain ⟨hpks, hprs, -, hdisj⟩ := nodup_middle h.nodup
  rcases List.eq_nil_or_concat ks with rfl | ⟨js, q, rfl⟩
  · exact ⟨l.nodes, rfl, trivial, hp.2, rfl⟩
  · rw [List.concat_eq_append] at *
    have hnodup : ((js ++ [q]).map Prod.fst).Nodup :=
      h.nodup.sublist ((List.sublist_append_left _ _).map _)
    obtain ⟨hq, -⟩ := nodup_middle hnodup
    have hqmem : q.1 ∈ (js ++ [q]).map Prod.fst := by simp
    have hpq : p.1 ≠ q.1 := fun heq => hpks (heq ▸ hqmem)
    have hhead : l.head = firstOr (js ++ [q] ++ rs) none := by
      rw [h.head, List.append_assoc, List.append_assoc]
      exact firstOr_middle js _ _ q _ _
    refine ⟨_, ?_, hks.setRight hq (firstOr rs none), hp.2.update (hdisj q.1 hqmem) _,
      Function.update_of_ne hpq _ _⟩
    simp only [unlinkLeft, lastOr_concat, setRight_eq_ok hks.last, ← hhead]

/-- The half to the right of the node. -/
theorem unlink_right {l : LuaList V} {ks rs : List (ℕ × Option V)} {p : ℕ × Option V}
    (hks : Seg l.nodes none ks (firstOr rs none)) (hrs : Seg l.nodes (some p.1) rs none)
    (hnodup : ((ks ++ p :: rs).map Prod.fst).Nodup) (htail : l.tail = lastOr none (ks ++ p :: rs)) :
    ∃ nodes, l.unlinkRight ⟨p.2, lastOr none ks, firstOr rs none⟩ =
        .ok { l with nodes := nodes, tail := lastOr none (ks ++ rs) } ∧
      Seg nodes none (ks ++ rs) none ∧ nodes p.1 = l.nodes p.1 := by
  obtain ⟨-, hprs, -, hdisj⟩ := nodup_middle hnodup
  cases rs with
  | nil =>
      rw [List.append_nil]
      exact ⟨l.nodes, rfl, hks, rfl⟩
  | cons q rs =>
      have hq : q.1 ∉ rs.map Prod.fst := by
        have hsub := (List.sublist_append_right ks (p :: q :: rs)).map Prod.fst
        exact (List.nodup_cons.mp (List.nodup_cons.mp (hnodup.sublist hsub)).2).1
      have hqks : q.1 ∉ ks.map Prod.fst := fun hmem => hdisj q.1 hmem (by simp)
      have hpq : p.1 ≠ q.1 := fun heq => hprs (by simp [heq])
      refine ⟨_, ?_, seg_append.mpr ⟨hks.update hqks _, hrs.setLeft hq (lastOr none ks)⟩,
        Function.update_of_ne hpq _ _⟩
      have heq : l.tail = lastOr none (ks ++ q :: rs) := by
        rw [htail, lastOr_append, lastOr_append]
        rfl
      simp only [unlinkRight, firstOr, setLeft_eq_ok hrs.1, ← heq]

/-- **Removing a node at any place**: what is before it and what is behind it are joined,
and the node still leads to what was behind it. -/
theorem unlink_spec {l : LuaList V} {ks rs : List (ℕ × Option V)} {p : ℕ × Option V}
    (h : Spells l (ks ++ p :: rs)) :
    ∃ l', l.unlink (some p.1) = .ok l' ∧ Spells l' (ks ++ rs) ∧
      l'.nodes p.1 = some ⟨p.2, lastOr none ks, firstOr rs none⟩ := by
  have hp : l.nodes p.1 = some ⟨p.2, lastOr none ks, firstOr rs none⟩ :=
    (seg_append.mp h.seg).2.1
  obtain ⟨nodes₁, hleft, hks, hrs, hp₁⟩ := unlink_left h
  obtain ⟨nodes₂, hright, hseg, hp₂⟩ :=
    @unlink_right V { l with nodes := nodes₁, head := firstOr (ks ++ rs) none } ks rs p hks hrs
      h.nodup h.tail
  refine ⟨{ l with
    nodes := nodes₂, head := firstOr (ks ++ rs) none, tail := lastOr none (ks ++ rs),
    count := l.count - 1 }, ?_, ?_, hp₂.trans (hp₁.trans hp)⟩
  · have hcell : l.index (some p.1) = .ok (p.1, ⟨p.2, lastOr none ks, firstOr rs none⟩) :=
      index_eq_ok hp
    have hcell₁ : ({ l with nodes := nodes₁, head := firstOr (ks ++ rs) none }).index
        (some p.1) = .ok (p.1, ⟨p.2, lastOr none ks, firstOr rs none⟩) :=
      index_eq_ok (hp₁.trans hp)
    simp only [unlink, hcell, ok_bind, hleft, hcell₁, hright]
  · obtain ⟨hnodup, hbound⟩ := h.addresses_sublist
      ((List.sublist_cons_self p rs).append_left ks)
    exact
      { seg := hseg
        nodup := hnodup
        head := rfl
        tail := rfl
        count := by
          have := h.count
          simp only [List.length_append, List.length_cons] at this ⊢
          omega
        bound := hbound }

/-! ### The loops -/

theorem traverseLoop_spec (func : LuaPredicate V σ ε) {l : LuaList V} {prev : Option ℕ}
    {ps : List (ℕ × Option V)} (h : Seg l.nodes prev ps none) {fuel : ℕ}
    (hfuel : ps.length < fuel) (s : σ) :
    traverseLoop func l fuel (firstOr ps none) s =
      .ok (traverseSeq func (ps.map Prod.snd) s) := by
  induction ps generalizing prev fuel s with
  | nil =>
      obtain ⟨fuel, rfl⟩ := Nat.exists_eq_succ_of_ne_zero (Nat.ne_of_gt hfuel)
      rfl
  | cons p ps ih =>
      obtain ⟨fuel, rfl⟩ := Nat.exists_eq_succ_of_ne_zero (Nat.ne_of_gt (Nat.zero_lt_of_lt hfuel))
      simp only [firstOr, traverseLoop, index_eq_ok h.1, ok_bind, List.map_cons, traverseSeq]
      rcases func s p.2 with ⟨e | _ | _, s'⟩
      · rfl
      · rfl
      · exact ih h.2 (Nat.lt_of_succ_lt_succ hfuel) s'

/-- The loop invariant of `remove_if`: `ks` was visited and stays, `rs` is still to come. -/
theorem removeIfLoop_spec (func : LuaPredicate V σ ε) {l : LuaList V}
    {ks rs : List (ℕ × Option V)} (h : Spells l (ks ++ rs)) {fuel : ℕ}
    (hfuel : rs.length < fuel) (s : σ) :
    ∃ l' rs', removeIfLoop func fuel l (firstOr rs none) s =
        .ok ((removeIfSeq func (rs.map Prod.snd) s).1, l',
          (removeIfSeq func (rs.map Prod.snd) s).2.2) ∧
      Spells l' (ks ++ rs') ∧
      rs'.map Prod.snd = (removeIfSeq func (rs.map Prod.snd) s).2.1 := by
  induction rs generalizing l ks fuel s with
  | nil =>
      obtain ⟨fuel, rfl⟩ := Nat.exists_eq_succ_of_ne_zero (Nat.ne_of_gt hfuel)
      exact ⟨l, [], rfl, h, rfl⟩
  | cons p rs ih =>
      obtain ⟨fuel, rfl⟩ := Nat.exists_eq_succ_of_ne_zero (Nat.ne_of_gt (Nat.zero_lt_of_lt hfuel))
      have hlt := Nat.lt_of_succ_lt_succ hfuel
      have hp : l.nodes p.1 = some ⟨p.2, lastOr none ks, firstOr rs none⟩ :=
        (seg_append.mp h.seg).2.1
      simp only [firstOr, removeIfLoop, index_eq_ok hp, ok_bind, List.map_cons, removeIfSeq]
      rcases func s p.2 with ⟨e | _ | _, s'⟩
      · exact ⟨l, p :: rs, rfl, h, rfl⟩
      · -- the node stays and joins the visited part
        obtain ⟨l', rs', hloop, hspells, hvals⟩ :=
          @ih l (ks ++ [p]) (by rwa [List.append_assoc]) fuel hlt s'
        refine ⟨l', p :: rs', ?_, by rwa [List.append_assoc] at hspells, ?_⟩
        · simp only [Bool.false_eq_true, if_false]
          exact hloop
        · exact congrArg (p.2 :: ·) hvals
      · -- the node goes, and still leads to the next one
        obtain ⟨l₁, hunlink, hspells₁, hp₁⟩ := unlink_spec h
        obtain ⟨l', rs', hloop, hspells, hvals⟩ := ih hspells₁ hlt s'
        refine ⟨l', rs', ?_, hspells, hvals⟩
        simp only [if_true, hunlink, ok_bind, index_eq_ok hp₁]
        exact hloop

/-! ### Calls -/

/-- **One call refines its operation on the sequence**, given fuel for one loop over the
list. -/
theorem call_spec {l : LuaList V} {ps : List (ℕ × Option V)} (h : Spells l ps) {fuel : ℕ}
    (hfuel : ps.length < fuel) (s : σ) (c : Call V σ ε) :
    ∃ l' ps', l.call fuel s c = .ok ((seqCall (ps.map Prod.snd) s c).1, l',
        (seqCall (ps.map Prod.snd) s c).2.2) ∧
      Spells l' ps' ∧ ps'.map Prod.snd = (seqCall (ps.map Prod.snd) s c).2.1 ∧
      ps'.length ≤ ps.length + 1 := by
  cases c with
  | push_back var =>
      obtain ⟨l', hpush, hspells⟩ := push_back_spec h var
      exact ⟨l', _, by simp only [call, hpush, ok_bind, seqCall], hspells,
        by rw [List.map_append]; rfl, by simp⟩
  | push_front var =>
      obtain ⟨l', hpush, hspells⟩ := push_front_spec h var
      exact ⟨l', _, by simp only [call, hpush, ok_bind, seqCall], hspells, rfl, by simp⟩
  | pop_back =>
      obtain ⟨l', hpop, hspells⟩ := pop_back_spec h
      exact ⟨l', _, by simp only [call, hpop, ok_bind, seqCall], hspells,
        List.map_dropLast, by simp; omega⟩
  | pop_front =>
      obtain ⟨l', hpop, hspells⟩ := pop_front_spec h
      exact ⟨l', _, by simp only [call, hpop, ok_bind, seqCall], hspells,
        List.map_tail, by simp; omega⟩
  | front => exact ⟨l, ps, by simp only [call, front_spec h, ok_bind, seqCall], h, rfl, by simp⟩
  | back => exact ⟨l, ps, by simp only [call, back_spec h, ok_bind, seqCall], h, rfl, by simp⟩
  | size =>
      refine ⟨l, ps, ?_, h, rfl, Nat.le_succ _⟩
      simp only [call, size, h.count, seqCall, List.length_map]
  | traverse func =>
      refine ⟨l, ps, ?_, h, rfl, Nat.le_succ _⟩
      simp only [call, traverse, h.head, traverseLoop_spec func h.seg hfuel s, ok_bind, seqCall]
  | remove_if func =>
      obtain ⟨l', ps', hloop, hspells, hvals⟩ :=
        @removeIfLoop_spec V σ ε func l [] ps h fuel hfuel s
      refine ⟨l', ps', ?_, hspells, hvals, ?_⟩
      · simp only [call, remove_if, h.head, hloop, seqCall]
      · have hle := length_removeIfSeq_le func (ps.map Prod.snd) s
        rw [← hvals, List.length_map, List.length_map] at hle
        exact Nat.le_succ_of_le hle

/-- All calls in sequence, from a list that spells its sequence. -/
theorem calls_spec {l : LuaList V} {ps : List (ℕ × Option V)} (h : Spells l ps)
    (cs : List (Call V σ ε)) {fuel : ℕ} (hfuel : ps.length + cs.length < fuel) (s : σ) :
    ∃ l' ps', calls fuel l s cs = .ok ((seqCalls (ps.map Prod.snd) s cs).1, l',
        (seqCalls (ps.map Prod.snd) s cs).2.2) ∧
      Spells l' ps' ∧ ps'.map Prod.snd = (seqCalls (ps.map Prod.snd) s cs).2.1 := by
  induction cs generalizing l ps s with
  | nil => exact ⟨l, ps, rfl, h, rfl⟩
  | cons c cs ih =>
      rw [List.length_cons] at hfuel
      obtain ⟨l₁, ps₁, hcall, hspells₁, hvals₁, hlen⟩ :=
        call_spec h (Nat.lt_of_le_of_lt (Nat.le_add_right _ _) hfuel) s c
      obtain ⟨l', ps', hcalls, hspells, hvals⟩ :=
        ih hspells₁ (by omega) (seqCall (ps.map Prod.snd) s c).2.2
      refine ⟨l', ps', ?_, hspells, ?_⟩
      · simp only [calls, hcall, ok_bind, hcalls, seqCalls, hvals₁]
      · rw [hvals, hvals₁]
        rfl

/-- The shape of a list that holds the sequence `xs`. -/
structure Linked (l : LuaList V) (xs : List (Option V)) : Prop where
  /-- The right links from the head spell the sequence; the left links from the tail visit
  the same nodes backwards. -/
  walks : ∃ ps, ps.map Prod.snd = xs ∧ RightWalk l.nodes l.head ps ∧
    LeftWalk l.nodes l.tail ps.reverse
  head_nil : l.head = none ↔ xs = []
  tail_nil : l.tail = none ↔ xs = []
  head_left : ∀ a node, l.head = some a → l.nodes a = some node → node.left = none
  tail_right : ∀ a node, l.tail = some a → l.nodes a = some node → node.right = none
  count : l.count = xs.length

theorem Spells.linked {l : LuaList V} {ps : List (ℕ × Option V)} (h : Spells l ps) :
    Linked l (ps.map Prod.snd) where
  walks := ⟨ps, rfl, h.head ▸ h.seg.rightWalk, h.tail ▸ h.seg.leftWalk⟩
  head_nil := by
    rw [h.head, List.map_eq_nil_iff]
    cases ps with
    | nil => exact iff_of_true rfl rfl
    | cons p ps => exact iff_of_false (Option.some_ne_none _) (List.cons_ne_nil _ _)
  tail_nil := by
    rw [h.tail, List.map_eq_nil_iff]
    rcases List.eq_nil_or_concat ps with rfl | ⟨qs, p, rfl⟩
    · exact iff_of_true rfl rfl
    · rw [List.concat_eq_append, lastOr_concat]
      exact iff_of_false (Option.some_ne_none _) (by simp)
  head_left a node hhead hnode := by
    cases ps with
    | nil => exact absurd (hhead.symm.trans h.head) (Option.some_ne_none a)
    | cons p ps =>
        obtain rfl := Option.some.inj (hhead.symm.trans h.head)
        obtain rfl := Option.some.inj (hnode.symm.trans h.seg.1)
        rfl
  tail_right a node htail hnode := by
    rcases List.eq_nil_or_concat ps with rfl | ⟨qs, p, rfl⟩
    · exact absurd (htail.symm.trans h.tail) (Option.some_ne_none a)
    · rw [List.concat_eq_append] at h
      obtain rfl := Option.some.inj (htail.symm.trans (h.tail.trans (lastOr_concat _ _ _)))
      obtain rfl := Option.some.inj (hnode.symm.trans h.seg.last)
      rfl
  count := by rw [h.count, List.length_map]

/-- **The list module refines a sequence.** Any calls on a new list, with any functions
passed to them, end without a fault once the loops have more fuel than there are calls;
they return what the operations on the sequence return, leave the world as those do, and
the list they leave is well linked and holds the sequence. -/
theorem calls_refine (cs : List (Call V σ ε)) {fuel : ℕ} (hfuel : cs.length < fuel) (s : σ) :
    ∃ l, calls fuel (new : LuaList V) s cs =
        .ok ((seqCalls [] s cs).1, l, (seqCalls [] s cs).2.2) ∧
      Linked l (seqCalls [] s cs).2.1 := by
  obtain ⟨l, ps, hcalls, hspells, hvals⟩ :=
    @calls_spec V σ ε new [] spells_new cs fuel (by simpa using hfuel) s
  exact ⟨l, hcalls, hvals ▸ hspells.linked⟩

/-- Three elements, of which a traversal removes the first two. -/
def removeTwo : List (Call ℕ (List (Option ℕ)) Empty) :=
  [.push_back (some 1), .push_back (some 2), .push_front (some 0),
    .remove_if fun s x => (.ok (x != some 2), s ++ [x]), .front, .size]

theorem calls_refine_removeTwo :
    ∃ l, calls 7 (new : LuaList ℕ) [] removeTwo =
        .ok ([.nothing, .nothing, .nothing, .nothing, .value (some 2), .number 1], l,
          [some 0, some 1, some 2]) ∧
      Linked l [some 2] :=
  calls_refine removeTwo (by decide) []

end LuaList

end UnityLua
