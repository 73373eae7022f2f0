import Mathlib.Data.Int.Notation
import Mathlib.Data.List.Nodup
import Mathlib.Logic.Function.Basic

/-!
# Reference tables

The reference system of the Lua auxiliary library: `luaL_ref` stores a value under an
integer that is not in use and returns the integer, `luaL_unref` gives it back. The table
keeps its own list of free integers: slot `0` holds the first free one, and each free slot
holds the next, the last of them `nil`. Values and links share the slots, and neither
function checks what it finds there.

A caller that releases each reference at most once sees a finite map: this is what the
invariant `Sound` and the two specifications say. A second release links the free list to
itself and breaks the invariant.

## Main results

* `luaL_ref_spec`: a reference that was not live now leads to the value; all others are as
  they were.
* `luaL_unref_spec`: a live reference is live no more; all others are as they were.
-/

namespace Library

universe u

variable {V : Type u}

/-- What an integer key of the table leads to: nothing, a link that `luaL_unref` wrote, or
a stored value. -/
inductive Slot (V : Type u)
  | nil
  | number (n : ℤ)
  | value (v : V)
  deriving DecidableEq, Repr

/-- What the allocator takes from the interpreter: the length operator on the slots
`1, 2, ...`, which is any border when there are holes, and the conversion of a stored
value to an integer. -/
structure Host (V : Type u) where
  objlen : List (Slot V) → ℕ
  tointeger : V → ℤ

/-- The length of a sequence without holes is its length. -/
def Host.Lawful (h : Host V) : Prop :=
  ∀ l : List (Slot V), (∀ s ∈ l, s ≠ .nil) → h.objlen l = l.length

/-- The integer part of the table; no slot above `extent` was ever written. -/
structure RefTable (V : Type u) where
  slots : ℤ → Slot V
  extent : ℕ

namespace RefTable

/-- A table in which nothing was stored yet. -/
def empty : RefTable V := ⟨fun _ => .nil, 0⟩

/-- The slots the length operator looks at. -/
def array (t : RefTable V) : List (Slot V) :=
  (List.range t.extent).map fun i => t.slots (i + 1 : ℕ)

def rawgeti (t : RefTable V) (i : ℤ) : Slot V := t.slots i

def rawseti (t : RefTable V) (i : ℤ) (s : Slot V) : RefTable V :=
  ⟨Function.update t.slots i s, max t.extent i.toNat⟩

/-- `lua_tointeger`: `0` for everything that is not a number. -/
def tointeger (h : Host V) : Slot V → ℤ
  | .nil => 0
  | .number n => n
  | .value v => h.tointeger v

/-- `luaL_ref`; `none` is `nil`, which has the fixed reference `LUA_REFNIL = -1`. -/
def luaL_ref (h : Host V) (t : RefTable V) : Option V → ℤ × RefTable V
  | none => (-1, t)
  | some v =>
      let ref := tointeger h (t.rawgeti 0)
      if ref ≠ 0 then
        (ref, (t.rawseti 0 (t.rawgeti ref)).rawseti ref (.value v))
      else
        let ref : ℤ := (h.objlen t.array : ℤ) + 1
        (ref, t.rawseti ref (.value v))

/-- `luaL_unref`; negative references have no slot. -/
def luaL_unref (t : RefTable V) (ref : ℤ) : RefTable V :=
  if 0 ≤ ref then (t.rawseti ref (t.rawgeti 0)).rawseti 0 (.number ref) else t

/-! ### The map a well-behaved caller sees -/

/-- The value stored under a reference. -/
def live (t : RefTable V) (i : ℤ) : Option V :=
  match t.rawgeti i with
  | .value v => some v
  | _ => none

theorem live_eq_some {t : RefTable V} {i : ℤ} {v : V} :
    t.live i = some v ↔ t.rawgeti i = .value v := by
  simp only [live]
  split <;> simp_all

/-- The slot `head` starts a list of links through exactly the slots of `rs`. -/
def FreeChain (slots : ℤ → Slot V) (head : Slot V) : List ℕ → Prop
  | [] => head = .nil
  | r :: rs => head = .number r ∧ FreeChain slots (slots r) rs

/-- A chain does not see writes to slots outside it. -/
theorem FreeChain.update {slots : ℤ → Slot V} {head : Slot V} {rs : List ℕ}
    (h : FreeChain slots head rs) {i : ℤ} (hi : ∀ r ∈ rs, (r : ℤ) ≠ i) (s : Slot V) :
    FreeChain (Function.update slots i s) head rs := by
  induction rs generalizing head with
  | nil => exact h
  | cons r rs ih =>
      obtain ⟨hr, hrs⟩ := List.forall_mem_cons.mp hi
      refine ⟨h.1, ?_⟩
      rw [Function.update_of_ne hr]
      exact ih h.2 hrs

/-- No slot of a chain holds a value. -/
theorem FreeChain.ne_value {slots : ℤ → Slot V} {head : Slot V} {rs : List ℕ}
    (h : FreeChain slots head rs) {r : ℕ} (hr : r ∈ rs) (v : V) : slots r ≠ .value v := by
  induction rs generalizing head with
  | nil => exact absurd hr List.not_mem_nil
  | cons x rs ih =>
      rcases List.mem_cons.mp hr with rfl | hr
      · cases rs with
        | nil => exact fun hv => absurd (h.2.symm.trans hv) (by simp)
        | cons y rs => exact fun hv => absurd (h.2.1.symm.trans hv) (by simp)
      · exact ih h.2 hr

/-- The table is in order: the free list runs through the slots of `rs`, each once, and
every other slot that was ever used holds a value. -/
structure SoundWith (t : RefTable V) (rs : List ℕ) : Prop where
  chain : FreeChain t.slots (t.slots 0) rs
  nodup : rs.Nodup
  free : ∀ r ∈ rs, 0 < r ∧ r ≤ t.extent
  used : ∀ r : ℕ, 0 < r → r ≤ t.extent → r ∉ rs → ∃ v, t.slots r = .value v
  bounds : ∀ i v, t.slots i = .value v → 0 < i ∧ i ≤ t.extent
  negative : ∀ i, i < 0 → t.slots i = .nil

def Sound (t : RefTable V) : Prop := ∃ rs, SoundWith t rs

theorem sound_empty : Sound (empty : RefTable V) :=
  ⟨[], rfl, List.nodup_nil, by simp, fun r h h' => absurd h (Nat.not_lt.mpr h'),
    fun i v h => absurd h (by simp [empty]), fun _ _ => rfl⟩

/-- Neither does the slot a chain starts from. -/
theorem FreeChain.head_ne_value {slots : ℤ → Slot V} {head : Slot V} {rs : List ℕ}
    (h : FreeChain slots head rs) (v : V) : head ≠ .value v := by
  cases rs with
  | nil => exact fun hv => absurd (h.symm.trans hv) (by simp)
  | cons r rs => exact fun hv => absurd (h.1.symm.trans hv) (by simp)

theorem live_eq_none {t : RefTable V} {i : ℤ} (h : ∀ v, t.slots i ≠ .value v) :
    t.live i = none :=
  Option.eq_none_iff_forall_ne_some.mpr fun v hv => h v (live_eq_some.mp hv)

/-- A write of a value is a write to the map. -/
theorem live_rawseti_value (t : RefTable V) (i : ℤ) (v : V) :
    (t.rawseti i (.value v)).live = Function.update t.live i (some v) := by
  funext j
  by_cases hj : j = i
  · subst hj
    simp only [live, rawgeti, rawseti, Function.update_self]
  · simp only [live, rawgeti, rawseti, Function.update_of_ne hj]

/-- A write of anything else takes the slot out of the map. -/
theorem live_rawseti_of_ne_value (t : RefTable V) (i : ℤ) {s : Slot V}
    (hs : ∀ v, s ≠ .value v) : (t.rawseti i s).live = Function.update t.live i none := by
  funext j
  by_cases hj : j = i
  · subst hj
    rw [Function.update_self]
    exact live_eq_none fun v => by
      simp only [rawseti, Function.update_self]
      exact hs v
  · simp only [live, rawgeti, rawseti, Function.update_of_ne hj]

/-! ### The specifications -/

/-- In a table in order with no free slot, the length operator finds the last slot. -/
theorem SoundWith.objlen_array {h : Host V} (hh : h.Lawful) {t : RefTable V}
    (ht : SoundWith t []) : h.objlen t.array = t.extent := by
  rw [hh, array, List.length_map, List.length_range]
  intro s hs
  obtain ⟨i, hi, rfl⟩ := List.mem_map.mp hs
  obtain ⟨v, hv⟩ := ht.used (i + 1) (Nat.succ_pos i) (List.mem_range.mp hi) List.not_mem_nil
  rw [hv]
  exact fun h => absurd h (by simp)

/-- With no free slot a value goes behind the last one. -/
theorem SoundWith.rawseti_last {t : RefTable V} (ht : SoundWith t []) (v : V) :
    SoundWith (t.rawseti ((t.extent : ℤ) + 1) (.value v)) [] := by
  have hhead : t.slots 0 = .nil := ht.chain
  refine ⟨?_, List.nodup_nil, by simp, ?_, ?_, ?_⟩
  · simp only [FreeChain, rawseti]
    rw [Function.update_of_ne (by omega)]
    exact hhead
  · intro r hr hle _
    simp only [rawseti] at hle ⊢
    by_cases hlast : (r : ℤ) = t.extent + 1
    · exact ⟨v, by rw [hlast, Function.update_self]⟩
    · rw [Function.update_of_ne hlast]
      exact ht.used r hr (by omega) List.not_mem_nil
  · intro i w hw
    simp only [rawseti] at hw ⊢
    by_cases hlast : i = t.extent + 1
    · omega
    · rw [Function.update_of_ne hlast] at hw
      have := ht.bounds i w hw
      omega
  · intro i hi
    simp only [rawseti]
    rw [Function.update_of_ne (by omega)]
    exact ht.negative i hi

/-- The slots of a chain are apart from the head and from each other. -/
theorem SoundWith.rest_ne {t : RefTable V} {r : ℕ} {rs : List ℕ} (ht : SoundWith t (r :: rs)) :
    ∀ x ∈ rs, (x : ℤ) ≠ 0 ∧ (x : ℤ) ≠ r := by
  intro x hx
  obtain ⟨hnew, -⟩ := List.nodup_cons.mp ht.nodup
  have hpos := (ht.free x (List.mem_cons_of_mem _ hx)).1
  exact ⟨by omega, fun hxr => hnew (Int.ofNat_inj.mp hxr ▸ hx)⟩

/-- The first free slot takes a value, and the free list begins at the next one. -/
theorem SoundWith.rawseti_first {t : RefTable V} {r : ℕ} {rs : List ℕ}
    (ht : SoundWith t (r :: rs)) (v : V) :
    SoundWith ((t.rawseti 0 (t.slots r)).rawseti r (.value v)) rs := by
  obtain ⟨hpos, hle⟩ := ht.free r List.mem_cons_self
  refine ⟨?_, (List.nodup_cons.mp ht.nodup).2, ?_, ?_, ?_, ?_⟩
  · simp only [rawseti]
    rw [Function.update_of_ne (by omega), Function.update_self]
    exact (ht.chain.2.update (fun x hx => (ht.rest_ne x hx).1) _).update
      (fun x hx => (ht.rest_ne x hx).2) _
  · intro x hx
    have := ht.free x (List.mem_cons_of_mem _ hx)
    simp only [rawseti]
    omega
  · intro x hx hxle hxrs
    simp only [rawseti] at hxle ⊢
    by_cases hxr : (x : ℤ) = r
    · exact ⟨v, by rw [hxr, Function.update_self]⟩
    · rw [Function.update_of_ne hxr, Function.update_of_ne (by omega)]
      refine ht.used x hx (by omega) fun hmem => ?_
      rcases List.mem_cons.mp hmem with rfl | hmem
      · exact hxr rfl
      · exact hxrs hmem
  · intro i w hw
    simp only [rawseti] at hw ⊢
    by_cases hir : i = r
    · omega
    · rw [Function.update_of_ne hir] at hw
      by_cases hi0 : i = 0
      · rw [hi0, Function.update_self] at hw
        exact absurd hw (ht.chain.ne_value List.mem_cons_self w)
      · rw [Function.update_of_ne hi0] at hw
        have := ht.bounds i w hw
        omega
  · intro i hi
    simp only [rawseti]
    rw [Function.update_of_ne (by omega), Function.update_of_ne (by omega)]
    exact ht.negative i hi

/-- **`luaL_ref` extends the map** at a reference that was not live. -/
theorem luaL_ref_spec {h : Host V} (hh : h.Lawful) {t : RefTable V} (ht : t.Sound) (v : V) :
    0 < (luaL_ref h t (some v)).1 ∧ t.live (luaL_ref h t (some v)).1 = none ∧
      (luaL_ref h t (some v)).2.Sound ∧
      (luaL_ref h t (some v)).2.live =
        Function.update t.live (luaL_ref h t (some v)).1 (some v) := by
  obtain ⟨rs, ht⟩ := ht
  cases rs with
  | nil =>
      have hhead : t.slots 0 = .nil := ht.chain
      have heq : luaL_ref h t (some v) =
          ((t.extent : ℤ) + 1, t.rawseti ((t.extent : ℤ) + 1) (.value v)) := by
        simp only [luaL_ref, rawgeti, hhead, tointeger, ne_eq, not_true_eq_false, if_false,
          ht.objlen_array hh]
      rw [heq]
      refine ⟨by omega, live_eq_none fun w hw => ?_, ⟨[], ht.rawseti_last v⟩,
        live_rawseti_value t _ v⟩
      have := (ht.bounds _ w hw).2
      omega
  | cons r rs =>
      have hhead : t.slots 0 = .number r := ht.chain.1
      obtain ⟨hpos, -⟩ := ht.free r List.mem_cons_self
      have hr0 : (r : ℤ) ≠ 0 := by omega
      have heq : luaL_ref h t (some v) =
          ((r : ℤ), (t.rawseti 0 (t.slots r)).rawseti r (.value v)) := by
        simp only [luaL_ref, rawgeti, hhead, tointeger, ne_eq, hr0, not_false_eq_true, if_true]
      have hlive : (t.rawseti 0 (t.slots r)).live = t.live := by
        rw [live_rawseti_of_ne_value t 0 fun w => ht.chain.ne_value List.mem_cons_self w]
        exact Function.update_eq_self_iff.mpr (live_eq_none fun w => ht.chain.head_ne_value w).symm
      rw [heq]
      refine ⟨by omega, live_eq_none fun w => ht.chain.ne_value List.mem_cons_self w,
        ⟨rs, ht.rawseti_first v⟩, ?_⟩
      rw [live_rawseti_value, hlive]

/-- **`luaL_unref` of a live reference** takes it out of the map. -/
theorem luaL_unref_spec {t : RefTable V} (ht : t.Sound) {ref : ℤ} {v : V}
    (hlive : t.live ref = some v) :
    (luaL_unref t ref).Sound ∧
      (luaL_unref t ref).live = Function.update t.live ref none := by
  obtain ⟨rs, ht⟩ := ht
  have hval : t.slots ref = .value v := live_eq_some.mp hlive
  obtain ⟨hpos, hle⟩ := ht.bounds ref v hval
  obtain ⟨r, rfl⟩ : ∃ r : ℕ, ref = r := ⟨ref.toNat, by omega⟩
  have heq : luaL_unref t r = (t.rawseti r (t.slots 0)).rawseti 0 (.number r) := by
    simp only [luaL_unref, rawgeti, Int.natCast_nonneg, if_true]
  have hnot : r ∉ rs := fun hmem => ht.chain.ne_value hmem v hval
  have hrs : ∀ x ∈ rs, (x : ℤ) ≠ 0 ∧ (x : ℤ) ≠ r := fun x hx => by
    have := (ht.free x hx).1
    exact ⟨by omega, fun hxr => hnot (Int.ofNat_inj.mp hxr ▸ hx)⟩
  rw [heq]
  refine ⟨⟨r :: rs, ⟨?_, ?_⟩, List.nodup_cons.mpr ⟨hnot, ht.nodup⟩, ?_, ?_, ?_, ?_⟩, ?_⟩
  · simp only [rawseti, Function.update_self]
  · simp only [rawseti]
    rw [Function.update_of_ne (by omega), Function.update_self]
    exact (ht.chain.update (fun x hx => (hrs x hx).2) _).update (fun x hx => (hrs x hx).1) _
  · intro x hx
    simp only [rawseti]
    rcases List.mem_cons.mp hx with rfl | hx
    · omega
    · have := ht.free x hx
      omega
  · intro x hx hxle hxrs
    obtain ⟨hxr, hxrs⟩ := not_or.mp (mt List.mem_cons.mpr hxrs)
    simp only [rawseti] at hxle ⊢
    rw [Function.update_of_ne (by omega), Function.update_of_ne (by omega)]
    exact ht.used x hx (by omega) hxrs
  · intro i w hw
    simp only [rawseti] at hw ⊢
    by_cases hi0 : i = 0
    · rw [hi0, Function.update_self] at hw
      exact absurd hw (by simp)
    · rw [Function.update_of_ne hi0] at hw
      by_cases hir : i = r
      · omega
      · rw [Function.update_of_ne hir] at hw
        have := ht.bounds i w hw
        omega
  · intro i hi
    simp only [rawseti]
    rw [Function.update_of_ne (by omega), Function.update_of_ne (by omega)]
    exact ht.negative i hi
  · have hzero : t.live 0 = none := live_eq_none fun w => ht.chain.head_ne_value w
    rw [live_rawseti_of_ne_value _ 0 (by simp),
      live_rawseti_of_ne_value t r fun w => ht.chain.head_ne_value w]
    refine Function.update_eq_self_iff.mpr ?_
    rw [Function.update_of_ne (by omega), hzero]

/-- A negative reference is never live. -/
theorem Sound.rawgeti_negative {t : RefTable V} (ht : t.Sound) {i : ℤ} (hi : i < 0) :
    t.rawgeti i = .nil := by
  obtain ⟨rs, ht⟩ := ht
  exact ht.negative i hi

end RefTable

end Library
