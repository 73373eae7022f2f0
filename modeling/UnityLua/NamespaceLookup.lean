import Mathlib.Data.List.Infix
import Mathlib.Logic.Function.Basic
import UnityLua.Library.Run

/-!
# Namespace lookup

Lua scripts reach CLR types by indexing `luanet`. Its metatable is Lua code of this repository:
a component that is not in a table yet is looked for in the root, then imported under its full
name, and is else a new table for the namespace; what was found is kept in the table.

The root is consulted for the bare component from every namespace. It is meant to hold the
functions of `luanet`, but it also holds whatever was looked up at the root before.

## Main results

* `Faithful.index`: what a lookup of one component finds, and what it keeps.
* `Faithful.walk`, `Faithful.not_finds`: a path that is clear of the entries of the root leads to
  what its full name stands for, and no other one does.
* `looksUp_iff_unshadowed`: exactly which sequences of lookups find what they name.
-/

namespace UnityLua

open Library

/-- A name with dots, by components. The root has the empty one, which is `false` in Lua. -/
abbrev Fqn := List String

/-- What an index operation leads to: a function of `luanet`, a type, a table with the metatable
of `luanet`, or a member of a type and what lies behind it. -/
inductive Found (V : Type)
  | function (name : String)
  | type (fqn : Fqn)
  | node (address : ℕ)
  | value (v : V)
  deriving DecidableEq

/-- A table with its field `.fqn` and its other fields. -/
structure Namespace (V : Type) where
  fqn : Fqn
  fields : String → Option (Found V)

/-- The tables with the metatable; the first is `luanet` itself. -/
structure Luanet (V : Type) where
  tables : List (Namespace V)

/-- What the lookup takes from the assemblies: which types there are, and the values of the
members of a type and of these in turn; `none` is an error. -/
structure Assemblies (V : Type) where
  GetType : Fqn → Bool
  classIndex : Fqn → String → Option V
  index : V → String → Option V

/-- What `setGlobalFunctions`, the constructor of `LuaState` and `init_luanet` put in `luanet`. -/
def luanetFunctions : List String :=
  ["getmetatable", "get_object_member", "import_type", "load_assembly", "make_object",
    "free_object", "get_method_bysig", "get_constructor_bysig", "ctype", "enum", "error", "type"]

namespace Luanet

variable {V : Type}

/-- After `init_luanet`. -/
def initial : Luanet V :=
  ⟨[⟨[], fun key => if key ∈ luanetFunctions then some (.function key) else none⟩]⟩

def fqnAt (s : Luanet V) (a : ℕ) : Option Fqn := (s.tables[a]?).map (·.fqn)

def rawget (s : Luanet V) (a : ℕ) (key : String) : Option (Found V) :=
  (s.tables[a]?).bind fun t => t.fields key

def rawset (s : Luanet V) (a : ℕ) (key : String) (obj : Found V) : Luanet V :=
  ⟨s.tables.modify a fun t => { t with fields := Function.update t.fields key (some obj) }⟩

/-- `{ ['.fqn'] = fqn }`, at the address that follows the others. -/
def newTable (s : Luanet V) (fqn : Fqn) : Luanet V := ⟨s.tables ++ [⟨fqn, fun _ => none⟩]⟩

variable (clr : Assemblies V)

/-- `ObjectTranslator.importType`. -/
def import_type (fqn : Fqn) : Option (Found V) :=
  if clr.GetType fqn then some (.type fqn) else none

/-- `metatable:__index(key)`, of the table at `self` with this `.fqn`. -/
def metatable_index (s : Luanet V) (self : ℕ) (fqn : Fqn) (key : String) : Luanet V × Found V :=
  let fqn := fqn ++ [key]
  match s.rawget 0 key <|> import_type clr fqn with
  | some obj => (s.rawset self key obj, obj)
  | none =>
      let obj := .node s.tables.length
      ((s.newTable fqn).rawset self key obj, obj)

/-- The index operation; `none` is an error. -/
def index (s : Luanet V) (obj : Found V) (key : String) : Luanet V × Option (Found V) :=
  match obj with
  | .node a =>
      match s.rawget a key, s.fqnAt a with
      | some obj, _ => (s, some obj)
      | none, some fqn =>
          let found := s.metatable_index clr a fqn key
          (found.1, some found.2)
      | none, none => (s, none)
  | .type fqn => (s, (clr.classIndex fqn key).map .value)
  | .value v => (s, (clr.index v key).map .value)
  | .function _ => (s, none)

/-- `obj.c1.c2. ... .cn`. -/
def walk (s : Luanet V) (obj : Found V) : List String → Luanet V × Option (Found V)
  | [] => (s, some obj)
  | key :: path =>
      match s.index clr obj key with
      | (s, some obj) => walk s obj path
      | (s, none) => (s, none)

/-- What a full name stands for: the type, or else a table for the namespace. -/
def Denotes (s : Luanet V) (fqn : Fqn) (obj : Found V) : Prop :=
  if clr.GetType fqn then obj = .type fqn else ∃ a, obj = .node a ∧ s.fqnAt a = some fqn

/-! ### Tables -/

variable {clr} {s s' : Luanet V} {a b : ℕ} {p q : Fqn} {x y : String} {obj : Found V}

theorem fqnAt_eq_some : s.fqnAt a = some p ↔ ∃ t, s.tables[a]? = some t ∧ t.fqn = p :=
  Option.map_eq_some_iff

theorem lt_of_fqnAt (h : s.fqnAt a = some p) : a < s.tables.length := by
  obtain ⟨t, ht, -⟩ := fqnAt_eq_some.mp h
  exact (List.getElem?_eq_some_iff.mp ht).1

@[simp] theorem fqnAt_rawset : (s.rawset a x obj).fqnAt b = s.fqnAt b := by
  rw [fqnAt, fqnAt, rawset, List.getElem?_modify]
  split <;> simp [Option.map_map, Function.comp_def]

theorem rawget_rawset (h : s.fqnAt a = some p) :
    (s.rawset a x obj).rawget b y = if b = a ∧ y = x then some obj else s.rawget b y := by
  obtain ⟨t, ht, -⟩ := fqnAt_eq_some.mp h
  rw [rawget, rawset, List.getElem?_modify]
  by_cases hb : b = a
  · subst hb
    by_cases hy : y = x
    · subst hy
      simp [ht]
    · simp [ht, rawget, hy]
  · have hb' : ¬ a = b := fun heq => hb heq.symm
    simp [rawget, hb, hb']

theorem fqnAt_newTable :
    (s.newTable q).fqnAt b = if b = s.tables.length then some q else s.fqnAt b := by
  rw [fqnAt, newTable, List.getElem?_append]
  split
  · rw [if_neg (by omega), fqnAt]
  · split
    · simp_all
    · rw [List.getElem?_eq_none (by simp; omega), fqnAt, List.getElem?_eq_none (by omega)]

@[simp] theorem rawget_newTable : (s.newTable q).rawget b y = s.rawget b y := by
  rw [rawget, rawget, newTable, List.getElem?_append]
  split
  · rfl
  · rename_i hb
    rw [List.getElem?_eq_none (Nat.not_lt.mp hb)]
    rcases Nat.eq_zero_or_pos (b - s.tables.length) with hzero | hpos
    · simp [hzero]
    · rw [List.getElem?_eq_none (by rw [List.length_singleton]; omega)]

theorem rawget_of_fqnAt_none (h : s.fqnAt a = none) : s.rawget a x = none := by
  rw [rawget, Option.map_eq_none_iff.mp h]
  rfl

theorem Denotes.of_fqnAt (h : Denotes clr s q obj)
    (hs : ∀ a, s.fqnAt a = some q → s'.fqnAt a = some q) : Denotes clr s' q obj := by
  by_cases hq : clr.GetType q
  · rw [Denotes, if_pos hq] at h ⊢
    exact h
  · rw [Denotes, if_neg hq] at h ⊢
    exact h.imp fun a ha => ⟨ha.1, hs a ha.2⟩

/-! ### Faithful tables -/

/-- The tables after lookups of the paths in `L`, with all their prefixes, if each found what it
stands for: there is one table a name, and its entries are the components looked up in it. -/
structure Faithful (clr : Assemblies V) (L : Fqn → Prop) (s : Luanet V) : Prop where
  root : s.fqnAt 0 = some []
  unique : ∀ a b p, s.fqnAt a = some p → s.fqnAt b = some p → a = b
  ofPrefix : ∀ p x, L (p ++ [x]) → p = [] ∨ L p
  denotes : ∀ a p x obj, s.fqnAt a = some p → s.rawget a x = some obj →
    p = [] ∧ x ∈ luanetFunctions ∨ Denotes clr s (p ++ [x]) obj
  looked : ∀ a p x, s.fqnAt a = some p →
    ((s.rawget a x).isSome ↔ L (p ++ [x]) ∨ p = [] ∧ x ∈ luanetFunctions)
  function : ∀ x ∈ luanetFunctions, s.rawget 0 x = some (.function x)

/-- Only namespaces that were looked up have a table. -/
def Named (L : Fqn → Prop) (s : Luanet V) : Prop := ∀ a p, s.fqnAt a = some p → p = [] ∨ L p

variable {L L' : Fqn → Prop}

theorem Faithful.congr (h : Faithful clr L s) (hL : ∀ q, L q ↔ L' q) : Faithful clr L' s := by
  obtain rfl : L = L' := funext fun q => propext (hL q)
  exact h

/-- The entries of the root. -/
theorem Faithful.rawget_root (h : Faithful clr L s) :
    (s.rawget 0 x).isSome ↔ L [x] ∨ x ∈ luanetFunctions := by
  simpa using h.looked 0 [] x h.root

theorem faithful_initial : Faithful clr (fun _ => False) (initial : Luanet V) := by
  have hfqn : ∀ a p, (initial : Luanet V).fqnAt a = some p → a = 0 ∧ p = [] := by
    intro a p ha
    obtain ⟨t, ht, rfl⟩ := fqnAt_eq_some.mp ha
    cases a with
    | zero => exact ⟨rfl, by simp [initial] at ht; rw [← ht]⟩
    | succ a => simp [initial] at ht
  have hget : ∀ x, (initial : Luanet V).rawget 0 x =
      if x ∈ luanetFunctions then some (.function x) else none := fun x => rfl
  constructor
  · rfl
  · intro a b p ha hb
    rw [(hfqn a p ha).1, (hfqn b p hb).1]
  · exact fun _ _ h => h.elim
  · intro a p x obj ha hx
    obtain ⟨rfl, rfl⟩ := hfqn a p ha
    refine Or.inl ⟨rfl, ?_⟩
    by_contra hnot
    simp [hget, hnot] at hx
  · intro a p x ha
    obtain ⟨rfl, rfl⟩ := hfqn a p ha
    by_cases hx : x ∈ luanetFunctions <;> simp [hget, hx]
  · intro x hx
    rw [hget, if_pos hx]

/-- A component that was not looked up in a namespace is kept there. -/
theorem Faithful.rawset (h : Faithful clr L s) (ha : s.fqnAt a = some p) (hp : p = [] ∨ L p)
    (hx : ¬ (p = [] ∧ x ∈ luanetFunctions)) (hobj : Denotes clr s (p ++ [x]) obj) :
    Faithful clr (fun q => L q ∨ q = p ++ [x]) (s.rawset a x obj) := by
  constructor
  · rw [fqnAt_rawset, h.root]
  · intro b c q
    rw [fqnAt_rawset, fqnAt_rawset]
    exact h.unique b c q
  · rintro q y (hq | hq)
    · exact (h.ofPrefix q y hq).imp_right Or.inl
    · obtain ⟨rfl, -⟩ := List.append_inj' hq rfl
      exact hp.imp_right Or.inl
  · intro b q y o hb hy
    rw [fqnAt_rawset] at hb
    rw [rawget_rawset ha] at hy
    split at hy
    · next heq =>
      obtain ⟨rfl, rfl⟩ := heq
      obtain rfl := Option.some.inj (ha.symm.trans hb)
      obtain rfl := Option.some.inj hy
      exact Or.inr (hobj.of_fqnAt fun c hc => by rwa [fqnAt_rawset])
    · exact (h.denotes b q y o hb hy).imp_right
        fun hden => hden.of_fqnAt fun c hc => by rwa [fqnAt_rawset]
  · intro b q y hb
    rw [fqnAt_rawset] at hb
    rw [rawget_rawset ha]
    split
    · next heq =>
      obtain ⟨rfl, rfl⟩ := heq
      obtain rfl := Option.some.inj (ha.symm.trans hb)
      simp
    · next hne =>
      rw [h.looked b q y hb]
      constructor
      · exact Or.imp_left Or.inl
      · rintro ((hq | hq) | hq)
        · exact Or.inl hq
        · obtain ⟨rfl, hyx⟩ := List.append_inj' hq rfl
          obtain rfl := List.singleton_inj.mp hyx
          exact absurd ⟨h.unique b a q hb ha, rfl⟩ hne
        · exact Or.inr hq
  · intro y hy
    rw [rawget_rawset ha, if_neg ?_, h.function y hy]
    rintro ⟨rfl, rfl⟩
    exact hx ⟨Option.some.inj (ha.symm.trans h.root), hy⟩

/-- A table for a namespace that was not looked up. -/
theorem Faithful.newTable (h : Faithful clr L s) (hq : q ≠ []) (hL : ¬ L q)
    (hfresh : ∀ b, s.fqnAt b ≠ some q) : Faithful clr L (s.newTable q) := by
  have hold : ∀ b r, s.fqnAt b = some r → (s.newTable q).fqnAt b = some r := by
    intro b r hb
    rw [fqnAt_newTable, if_neg (Nat.ne_of_lt (lt_of_fqnAt hb)), hb]
  have hempty : s.fqnAt s.tables.length = none :=
    Option.map_eq_none_iff.mpr (List.getElem?_eq_none (le_refl _))
  constructor
  · exact hold 0 [] h.root
  · intro b c r hb hc
    rw [fqnAt_newTable] at hb hc
    split at hb <;> split at hc
    · omega
    · exact absurd (hc.trans hb.symm) (hfresh c)
    · exact absurd (hb.trans hc.symm) (hfresh b)
    · exact h.unique b c r hb hc
  · exact h.ofPrefix
  · intro b r y o hb hy
    rw [rawget_newTable] at hy
    rw [fqnAt_newTable] at hb
    split at hb
    · next heq =>
      rw [heq, rawget_of_fqnAt_none hempty] at hy
      cases hy
    · exact (h.denotes b r y o hb hy).imp_right fun hden => hden.of_fqnAt fun c => hold c _
  · intro b r y hb
    rw [rawget_newTable]
    rw [fqnAt_newTable] at hb
    split at hb
    · next heq =>
      obtain rfl := Option.some.inj hb
      rw [heq, rawget_of_fqnAt_none hempty]
      have hnot : ¬ L (q ++ [y]) := fun hy => (h.ofPrefix q y hy).elim hq hL
      simp [hnot, hq]
    · exact h.looked b r y hb
  · intro y hy
    rw [rawget_newTable, h.function y hy]

/-- One component, in a table that leads to the right place: what is found is what the full name
stands for, unless the root has an entry for the bare component. -/
theorem Faithful.index (h : Faithful clr L s) (hnamed : Named L s) (ha : s.fqnAt a = some p)
    (hx : p = [] → x ∉ luanetFunctions)
    (hclear : p ≠ [] → L (p ++ [x]) ∨ ¬ L [x] ∧ x ∉ luanetFunctions) :
    ∃ s' obj, s.index clr (.node a) x = (s', some obj) ∧ Denotes clr s' (p ++ [x]) obj ∧
      Faithful clr (fun q => L q ∨ q = p ++ [x]) s' ∧ Named (fun q => L q ∨ q = p ++ [x]) s' := by
  have hp := hnamed a p ha
  have hx' : ¬ (p = [] ∧ x ∈ luanetFunctions) := fun hroot => hx hroot.1 hroot.2
  cases hget : s.rawget a x with
  | some obj =>
      have hL : L (p ++ [x]) :=
        ((h.looked a p x ha).mp (by rw [hget]; rfl)).resolve_right hx'
      have hsame : ∀ q, L q ↔ L q ∨ q = p ++ [x] := fun q =>
        ⟨Or.inl, fun hq => hq.elim id fun heq => heq ▸ hL⟩
      refine ⟨s, obj, by rw [Luanet.index, hget], ?_, h.congr hsame, ?_⟩
      · exact (h.denotes a p x obj ha hget).resolve_left fun hroot => hx' ⟨hroot.1, hroot.2⟩
      · exact fun b q hb => (hnamed b q hb).imp_right Or.inl
  | none =>
      have hL : ¬ L (p ++ [x]) := fun hL => by
        have := (h.looked a p x ha).mpr (Or.inl hL)
        rw [hget] at this
        cases this
      have hroot : s.rawget 0 x = none := by
        rw [← Option.not_isSome_iff_eq_none, h.rawget_root]
        by_cases hnil : p = []
        · subst hnil
          exact not_or.mpr ⟨hL, hx rfl⟩
        · exact not_or.mpr ((hclear hnil).resolve_left hL)
      have hindex : s.index clr (.node a) x =
          ((s.metatable_index clr a p x).1, some (s.metatable_index clr a p x).2) := by
        rw [Luanet.index, hget, ha]
      by_cases htype : clr.GetType (p ++ [x])
      · have hden : Denotes clr s (p ++ [x]) (.type (p ++ [x])) := by rw [Denotes, if_pos htype]
        refine ⟨s.rawset a x (.type (p ++ [x])), .type (p ++ [x]), ?_, ?_,
          h.rawset ha hp hx' hden, ?_⟩
        · rw [hindex, metatable_index, hroot]
          simp [import_type, htype]
        · exact hden.of_fqnAt fun b hb => by rwa [fqnAt_rawset]
        · intro b q hb
          rw [fqnAt_rawset] at hb
          exact (hnamed b q hb).imp_right Or.inl
      · have hfresh : ∀ b, s.fqnAt b ≠ some (p ++ [x]) := fun b hb =>
          (hnamed b _ hb).elim (by simp) hL
        have ha' : (s.newTable (p ++ [x])).fqnAt a = some p := by
          rw [fqnAt_newTable, if_neg (Nat.ne_of_lt (lt_of_fqnAt ha)), ha]
        have hden : Denotes clr (s.newTable (p ++ [x])) (p ++ [x]) (.node s.tables.length) := by
          rw [Denotes, if_neg htype]
          exact ⟨_, rfl, by rw [fqnAt_newTable, if_pos rfl]⟩
        refine ⟨(s.newTable (p ++ [x])).rawset a x (.node s.tables.length),
          .node s.tables.length, ?_, ?_,
          (h.newTable (by simp) hL hfresh).rawset ha' hp hx' hden, ?_⟩
        · rw [hindex, metatable_index, hroot]
          simp [import_type, htype]
        · exact hden.of_fqnAt fun b hb => by rwa [fqnAt_rawset]
        · intro b q hb
          rw [fqnAt_rawset, fqnAt_newTable] at hb
          split at hb
          · exact Or.inr (Or.inr (Option.some.inj hb).symm)
          · exact (hnamed b q hb).imp_right Or.inl

/-! ### Lookups that go astray -/

/-- What is found bears a name of at most `n` components, if it is a type or a namespace. -/
def Short (s : Luanet V) (n : ℕ) : Found V → Prop
  | .type q => q.length ≤ n
  | .node b => ∃ q, s.fqnAt b = some q ∧ q.length ≤ n
  | _ => True

/-- No entry bears a longer name than the place where it is found. -/
def Bounded (s : Luanet V) : Prop :=
  s.fqnAt 0 = some [] ∧ ∀ a p x obj, s.fqnAt a = some p → s.rawget a x = some obj →
    s.Short (p.length + 1) obj

variable {m n : ℕ} {path : List String}

theorem Short.mono (h : s.Short m obj) (hmn : m ≤ n)
    (hs : ∀ b q, s.fqnAt b = some q → s'.fqnAt b = some q) : s'.Short n obj := by
  cases obj with
  | type q => exact le_trans h hmn
  | node b => exact h.imp fun q hq => ⟨hs b q hq.1, hq.2.trans hmn⟩
  | _ => trivial

theorem not_denotes_of_short (h : s.Short n obj) (hn : n < q.length) :
    ¬ Denotes clr s q obj := by
  intro hden
  unfold Denotes at hden
  split at hden
  · subst hden
    exact absurd h (Nat.not_le.mpr hn)
  · obtain ⟨b, rfl, hb⟩ := hden
    obtain ⟨q', hq', hle⟩ := h
    obtain rfl := Option.some.inj (hb.symm.trans hq')
    exact absurd hle (Nat.not_le.mpr hn)

theorem Denotes.short (h : Denotes clr s q obj) : s.Short q.length obj := by
  unfold Denotes at h
  split at h
  · subst h
    exact le_refl _
  · obtain ⟨b, rfl, hb⟩ := h
    exact ⟨q, hb, le_refl _⟩

theorem Faithful.bounded (h : Faithful clr L s) : s.Bounded := by
  refine ⟨h.root, fun a p x obj ha hx => ?_⟩
  rcases h.denotes a p x obj ha hx with ⟨rfl, hfun⟩ | hden
  · obtain rfl := h.unique a 0 [] ha h.root
    obtain rfl := Option.some.inj (hx.symm.trans (h.function x hfun))
    trivial
  · simpa using hden.short

theorem Bounded.rawset (h : s.Bounded) (ha : s.fqnAt a = some p)
    (hobj : s.Short (p.length + 1) obj) : (s.rawset a x obj).Bounded := by
  refine ⟨by rw [fqnAt_rawset, h.1], fun b q y o hb hy => ?_⟩
  rw [fqnAt_rawset] at hb
  rw [rawget_rawset ha] at hy
  split at hy
  · next heq =>
    obtain ⟨rfl, rfl⟩ := heq
    obtain rfl := Option.some.inj (ha.symm.trans hb)
    obtain rfl := Option.some.inj hy
    exact hobj.mono (le_refl _) fun c r hc => by rwa [fqnAt_rawset]
  · exact (h.2 b q y o hb hy).mono (le_refl _) fun c r hc => by rwa [fqnAt_rawset]

theorem fqnAt_newTable_of_some (hb : s.fqnAt b = some p) :
    (s.newTable q).fqnAt b = some p := by
  rw [fqnAt_newTable, if_neg (Nat.ne_of_lt (lt_of_fqnAt hb)), hb]

theorem Bounded.newTable (h : s.Bounded) : (s.newTable q).Bounded := by
  refine ⟨fqnAt_newTable_of_some h.1, fun b q' y o hb hy => ?_⟩
  rw [rawget_newTable] at hy
  cases hold : s.fqnAt b with
  | none => rw [rawget_of_fqnAt_none hold] at hy; cases hy
  | some q'' =>
      obtain rfl := Option.some.inj ((fqnAt_newTable_of_some hold).symm.trans hb)
      exact (h.2 b q'' y o hold hy).mono (le_refl _) fun c r hc => fqnAt_newTable_of_some hc

theorem Bounded.metatable_index (h : s.Bounded) (ha : s.fqnAt a = some p) :
    (s.metatable_index clr a p x).1.Bounded ∧
      (s.metatable_index clr a p x).1.Short (p.length + 1) (s.metatable_index clr a p x).2 := by
  rw [Luanet.metatable_index]
  cases hfound : s.rawget 0 x <|> import_type clr (p ++ [x]) with
  | some o =>
      have hshort : s.Short (p.length + 1) o := by
        cases hroot : s.rawget 0 x with
        | some o' =>
            rw [hroot] at hfound
            obtain rfl := Option.some.inj hfound
            exact (h.2 0 [] x o' h.1 hroot).mono (by simp) fun _ _ hb => hb
        | none =>
            rw [hroot] at hfound
            obtain ⟨-, ho⟩ := Option.ite_none_right_eq_some.mp hfound
            obtain rfl := Option.some.inj ho
            simp [Short]
      exact ⟨h.rawset ha hshort, hshort.mono (le_refl _) fun c r hc => by rwa [fqnAt_rawset]⟩
  | none =>
      have hshort : (s.newTable (p ++ [x])).Short (p.length + 1) (.node s.tables.length) :=
        ⟨p ++ [x], by rw [fqnAt_newTable, if_pos rfl], by simp⟩
      exact ⟨h.newTable.rawset (fqnAt_newTable_of_some ha) hshort,
        hshort.mono (le_refl _) fun c r hc => by rwa [fqnAt_rawset]⟩

/-- A lookup that is behind its path does not catch up. -/
theorem Bounded.index (h : s.Bounded) (hobj : s.Short n obj) {obj' : Found V}
    (hindex : s.index clr obj x = (s', some obj')) : s'.Bounded ∧ s'.Short (n + 1) obj' := by
  cases obj with
  | function name => cases hindex
  | value v =>
      obtain ⟨rfl, hv⟩ := Prod.mk.inj hindex
      obtain ⟨w, -, rfl⟩ := Option.map_eq_some_iff.mp hv
      exact ⟨h, trivial⟩
  | type q =>
      obtain ⟨rfl, hv⟩ := Prod.mk.inj hindex
      obtain ⟨w, -, rfl⟩ := Option.map_eq_some_iff.mp hv
      exact ⟨h, trivial⟩
  | node a =>
      obtain ⟨p, ha, hle⟩ := hobj
      rw [Luanet.index, ha] at hindex
      cases hget : s.rawget a x with
      | some o =>
          rw [hget] at hindex
          obtain ⟨rfl, ho⟩ := Prod.mk.inj hindex
          obtain rfl := Option.some.inj ho
          exact ⟨h, (h.2 a p x o ha hget).mono (by omega) fun _ _ hb => hb⟩
      | none =>
          rw [hget] at hindex
          obtain ⟨rfl, ho⟩ := Prod.mk.inj hindex
          obtain rfl := Option.some.inj ho
          obtain ⟨hbounded, hshort⟩ := @Bounded.metatable_index V clr s a p x h ha
          exact ⟨hbounded, hshort.mono (by omega) fun _ _ hb => hb⟩

/-! ### Paths -/

/-- The lookup of `path` behind `p` finds what the full name stands for. -/
def Finds (clr : Assemblies V) (s : Luanet V) (obj : Found V) (p path : Fqn) : Prop :=
  ∃ found, (s.walk clr obj path).2 = some found ∧
    Denotes clr (s.walk clr obj path).1 (p ++ path) found

/-- A path behind `p` is clear: nothing before its end is a type, and each component was looked up
there before or is not an entry of the root. `L` tells which names were looked up. -/
def Clear (clr : Assemblies V) (L : Fqn → Prop) : Fqn → List String → Prop
  | _, [] => True
  | p, x :: path =>
      clr.GetType p = false ∧ (L (p ++ [x]) ∨ ¬ L [x] ∧ x ∉ luanetFunctions) ∧
        Clear clr L (p ++ [x]) path

/-- The names looked up with `path`, behind `p`. -/
def Visited (L : Fqn → Prop) (p : Fqn) (path : List String) (q : Fqn) : Prop :=
  L q ∨ ∃ r, r ≠ [] ∧ r <+: path ∧ q = p ++ r

theorem walk_of_index {obj' : Found V} (h : s.index clr obj x = (s', some obj')) :
    s.walk clr obj (x :: path) = s'.walk clr obj' path := by
  rw [walk, h]

theorem walk_of_index_none (h : s.index clr obj x = (s', none)) :
    s.walk clr obj (x :: path) = (s', none) := by
  rw [walk, h]

theorem finds_cons {obj' : Found V} (h : s.index clr obj x = (s', some obj')) :
    Finds clr s obj p (x :: path) ↔ Finds clr s' obj' (p ++ [x]) path := by
  rw [Finds, Finds, walk_of_index h, List.append_assoc, List.singleton_append]

theorem not_finds_cons (h : s.index clr obj x = (s', none)) :
    ¬ Finds clr s obj p (x :: path) := by
  rintro ⟨found, hfound, -⟩
  rw [walk_of_index_none h] at hfound
  cases hfound

/-- Once it is behind, a lookup does not find what it is meant to. -/
theorem not_finds_of_short (h : s.Bounded) (hobj : s.Short n obj) (hn : n < p.length) :
    ¬ Finds clr s obj p path := by
  induction path generalizing s obj n p with
  | nil =>
      rintro ⟨found, hfound, hden⟩
      obtain rfl := Option.some.inj hfound
      rw [List.append_nil] at hden
      exact not_denotes_of_short hobj hn hden
  | cons x path ih =>
      rcases hindex : s.index clr obj x with ⟨s', _ | obj'⟩
      · exact not_finds_cons hindex
      · rw [finds_cons hindex]
        obtain ⟨h', hobj'⟩ := h.index hobj hindex
        exact ih h' hobj' (by simpa using hn)

/-- Behind a type are its members. -/
theorem not_finds_type (h : s.Bounded) :
    ¬ Finds clr s (.type p) p (x :: path) := by
  rcases hindex : s.index clr (.type p) x with ⟨s', _ | obj'⟩
  · exact not_finds_cons hindex
  · rw [finds_cons hindex]
    obtain ⟨rfl, hv⟩ := Prod.mk.inj hindex
    obtain ⟨w, -, rfl⟩ := Option.map_eq_some_iff.mp hv
    have hshort : s.Short 0 (.value w) := trivial
    exact not_finds_of_short h hshort (by simp)

/-- The root answers for the bare component. -/
theorem not_finds_shadowed (h : Faithful clr L s) (ha : s.fqnAt a = some p) (hp : p ≠ [])
    (hx : ¬ (L (p ++ [x]) ∨ ¬ L [x] ∧ x ∉ luanetFunctions)) :
    ¬ Finds clr s (.node a) p (x :: path) := by
  obtain ⟨hL, hroot⟩ := not_or.mp hx
  have hget : s.rawget a x = none := by
    rw [← Option.not_isSome_iff_eq_none, h.looked a p x ha]
    simp [hL, hp]
  have hsome : (s.rawget 0 x).isSome := by
    rw [h.rawget_root]
    by_contra hnot
    exact hroot (not_or.mp hnot)
  obtain ⟨o, ho⟩ := Option.isSome_iff_exists.mp hsome
  have hindex : s.index clr (.node a) x = (s.rawset a x o, some o) := by
    simp only [Luanet.index, hget, ha, metatable_index, ho]
    rfl
  have hshort : s.Short 1 o := h.bounded.2 0 [] x o h.root ho
  have hpos := List.length_pos_iff.mpr hp
  rw [finds_cons hindex]
  refine not_finds_of_short (n := 1) ?_ ?_ (by simpa using hpos)
  · exact h.bounded.rawset ha (hshort.mono (by omega) fun _ _ hb => hb)
  · exact hshort.mono (le_refl _) fun c r hc => by rwa [fqnAt_rawset]

/-- What is looked up behind `p` has longer names than `p`, so that a longer `L` with the same
entries for these and for the bare components gives the same condition. -/
theorem clear_congr (hp : ∀ r, r ≠ [] → (L (p ++ r) ↔ L' (p ++ r)))
    (hroot : ∀ x, L [x] ↔ L' [x]) : Clear clr L p path ↔ Clear clr L' p path := by
  induction path generalizing p with
  | nil => exact Iff.rfl
  | cons x path ih =>
      rw [Clear, Clear, hp [x] (by simp), hroot x, ih]
      intro r hr
      rw [List.append_assoc]
      exact hp (_ ++ r) (by simp)

theorem clear_insert (hp : p ≠ []) :
    Clear clr (fun q => L q ∨ q = p ++ [x]) (p ++ [x]) path ↔ Clear clr L (p ++ [x]) path := by
  have hpos := List.length_pos_iff.mpr hp
  refine clear_congr (fun r hr => or_iff_left fun heq => ?_) fun y => or_iff_left fun heq => ?_
  · exact hr (List.append_right_eq_self.mp heq)
  · have hlen := congrArg List.length heq
    simp only [List.length_append, List.length_singleton] at hlen
    omega

theorem visited_cons {q : Fqn} :
    Visited (fun q => L q ∨ q = p ++ [x]) (p ++ [x]) path q ↔ Visited L p (x :: path) q := by
  constructor
  · rintro ((hq | rfl) | ⟨r, hr, hpre, rfl⟩)
    · exact Or.inl hq
    · exact Or.inr ⟨[x], by simp, by simp, rfl⟩
    · exact Or.inr ⟨x :: r, by simp, List.cons_prefix_cons.mpr ⟨rfl, hpre⟩, by simp⟩
  · rintro (hq | ⟨r, hr, hpre, rfl⟩)
    · exact Or.inl (Or.inl hq)
    · cases r with
      | nil => exact absurd rfl hr
      | cons y r =>
          obtain ⟨rfl, hrest⟩ := List.cons_prefix_cons.mp hpre
          by_cases hnil : r = []
          · subst hnil
            exact Or.inl (Or.inr rfl)
          · exact Or.inr ⟨r, hnil, hrest, by simp⟩

theorem visited_nil {q : Fqn} : Visited L p [] q ↔ L q := by
  refine or_iff_left ?_
  rintro ⟨r, hr, hpre, -⟩
  exact hr (List.prefix_nil.mp hpre)

/-- **A clear path** finds what its full name stands for, and leaves the tables faithful. -/
theorem Faithful.walk (h : Faithful clr L s) (hnamed : Named L s) (hp : p ≠ [])
    (hden : Denotes clr s p obj) (hclear : Clear clr L p path) :
    Finds clr s obj p path ∧ Faithful clr (Visited L p path) (s.walk clr obj path).1 ∧
      Named (Visited L p path) (s.walk clr obj path).1 := by
  induction path generalizing s obj p L with
  | nil =>
      refine ⟨⟨obj, rfl, by rwa [List.append_nil]⟩, h.congr fun q => visited_nil.symm, ?_⟩
      exact fun a q ha => (hnamed a q ha).imp_right visited_nil.mpr
  | cons x path ih =>
      obtain ⟨htype, hx, hclear⟩ := hclear
      rw [Denotes, if_neg (by simp [htype])] at hden
      obtain ⟨a, rfl, ha⟩ := hden
      obtain ⟨s', obj', hindex, hden', h', hnamed'⟩ :=
        h.index hnamed ha (fun hnil => absurd hnil hp) fun _ => hx
      obtain ⟨hfinds, hfaithful, hnamed'⟩ :=
        ih h' hnamed' (by simp) hden' ((clear_insert hp).mpr hclear)
      rw [finds_cons hindex, walk_of_index hindex]
      refine ⟨hfinds, hfaithful.congr fun q => visited_cons, ?_⟩
      exact fun b q hb => (hnamed' b q hb).imp_right visited_cons.mp

/-- A path that is not clear finds something else. -/
theorem Faithful.not_finds (h : Faithful clr L s) (hnamed : Named L s) (hp : p ≠ [])
    (hden : Denotes clr s p obj) (hclear : ¬ Clear clr L p path) :
    ¬ Finds clr s obj p path := by
  induction path generalizing s obj p L with
  | nil => exact absurd trivial hclear
  | cons x path ih =>
      cases htype : clr.GetType p with
      | true =>
          rw [Denotes, if_pos htype] at hden
          subst hden
          exact not_finds_type h.bounded
      | false =>
          rw [Denotes, if_neg (by simp [htype])] at hden
          obtain ⟨a, rfl, ha⟩ := hden
          by_cases hx : L (p ++ [x]) ∨ ¬ L [x] ∧ x ∉ luanetFunctions
          · obtain ⟨s', obj', hindex, hden', h', hnamed'⟩ :=
              h.index hnamed ha (fun hnil => absurd hnil hp) fun _ => hx
            rw [finds_cons hindex]
            refine ih h' hnamed' (by simp) hden' fun hrest => hclear ⟨htype, hx, ?_⟩
            exact (clear_insert hp).mp hrest
          · exact not_finds_shadowed h ha hp hx

/-! ### Sequences of lookups -/

/-- The tables with the paths looked up so far. -/
structure Session (V : Type) where
  luanet : Luanet V
  earlier : List Fqn

/-- A new interpreter. -/
def Session.initial : Session V := ⟨Luanet.initial, []⟩

/-- The lookup `luanet.c1.c2. ... .cn`, as `c1` and the other components. -/
def Session.step (clr : Assemblies V) (s : Session V) (e : String × List String) :
    Option (Session V) :=
  some ⟨(s.luanet.walk clr (.node 0) (e.1 :: e.2)).1, s.earlier ++ [e.1 :: e.2]⟩

/-- The lookup finds the type with the full name, or else the namespace with it. -/
def Session.LooksUp (clr : Assemblies V) (s : Session V) (e : String × List String) : Prop :=
  Finds clr s.luanet (.node 0) [] (e.1 :: e.2)

/-- A name is a prefix of a path. -/
def LookedUp (paths : List Fqn) (q : Fqn) : Prop := q ≠ [] ∧ ∃ path ∈ paths, q <+: path

/-- The path does not begin with a function of `luanet`, and is clear behind its first
component. -/
def Session.Unshadowed (clr : Assemblies V) (s : Session V) (e : String × List String) : Prop :=
  e.1 ∉ luanetFunctions ∧ Clear clr (LookedUp (s.earlier ++ [[e.1]])) [e.1] e.2

theorem lookedUp_concat {paths : List Fqn} :
    LookedUp (paths ++ [path]) q ↔ LookedUp paths q ∨ q ≠ [] ∧ q <+: path := by
  simp only [LookedUp, List.mem_append, List.mem_singleton, or_and_right, exists_or, and_or_left,
    exists_eq_left]

theorem lookedUp_singleton {paths : List Fqn} :
    LookedUp (paths ++ [[x]]) q ↔ LookedUp paths q ∨ q = [] ++ [x] := by
  rw [lookedUp_concat, List.nil_append]
  refine or_congr_right ⟨fun ⟨hq, hpre⟩ => ?_, ?_⟩
  · rcases List.prefix_cons_iff.mp hpre with rfl | ⟨t, rfl, ht⟩
    · exact absurd rfl hq
    · rw [List.prefix_nil.mp ht]
  · rintro rfl
    exact ⟨by simp, List.prefix_refl _⟩

theorem visited_lookedUp {paths : List Fqn} :
    Visited (LookedUp (paths ++ [[x]])) [x] path q ↔ LookedUp (paths ++ [x :: path]) q := by
  have hcons : Visited (fun q => LookedUp paths q ∨ q = [] ++ [x]) ([] ++ [x]) path q ↔ _ :=
    visited_cons
  rw [show LookedUp (paths ++ [[x]]) = fun q => LookedUp paths q ∨ q = [] ++ [x] from
    funext fun q => propext lookedUp_singleton, lookedUp_concat]
  refine hcons.trans (or_congr_right ⟨?_, ?_⟩)
  · rintro ⟨r, hr, hpre, rfl⟩
    exact ⟨hr, hpre⟩
  · rintro ⟨hq, hpre⟩
    exact ⟨q, hq, hpre, rfl⟩

/-- The tables are faithful to the paths looked up so far. -/
def Session.Sound (clr : Assemblies V) (s : Session V) : Prop :=
  Faithful clr (LookedUp s.earlier) s.luanet ∧ Named (LookedUp s.earlier) s.luanet

theorem session_sound_initial : Session.Sound clr (Session.initial : Session V) := by
  have hL : ∀ q, False ↔ LookedUp (Session.initial : Session V).earlier q := by
    simp [LookedUp, Session.initial]
  refine ⟨faithful_initial.congr hL, fun a p ha => Or.inl ?_⟩
  obtain ⟨t, ht, rfl⟩ := fqnAt_eq_some.mp ha
  cases a with
  | zero =>
      obtain rfl := Option.some.inj ht
      rfl
  | succ a => simp [Session.initial, initial] at ht

variable {S S' : Session V} {e : String × List String}

/-- The first component, if it is no function of `luanet`. -/
theorem Session.Sound.first (h : S.Sound clr) (hx : x ∉ luanetFunctions) :
    ∃ s' obj, S.luanet.index clr (.node 0) x = (s', some obj) ∧ Denotes clr s' [x] obj ∧
      Faithful clr (LookedUp (S.earlier ++ [[x]])) s' ∧
        Named (LookedUp (S.earlier ++ [[x]])) s' := by
  obtain ⟨s', obj, hindex, hden, hfaithful, hnamed⟩ :=
    h.1.index h.2 h.1.root (fun _ => hx) fun hne => absurd rfl hne
  refine ⟨s', obj, hindex, hden, hfaithful.congr fun q => lookedUp_singleton.symm, ?_⟩
  exact fun a q ha => (hnamed a q ha).imp_right lookedUp_singleton.mpr

/-- A lookup finds what its full name stands for exactly when it is not shadowed. -/
theorem Session.Sound.looksUp_iff (h : S.Sound clr) :
    S.LooksUp clr e ↔ S.Unshadowed clr e := by
  obtain ⟨x, path⟩ := e
  by_cases hx : x ∈ luanetFunctions
  · have hindex : S.luanet.index clr (.node 0) x = (S.luanet, some (.function x)) := by
      rw [Luanet.index, h.1.function x hx]
    have hshort : S.luanet.Short 0 (.function x : Found V) := trivial
    have hnot : ¬ S.LooksUp clr (x, path) := by
      rw [Session.LooksUp, finds_cons hindex]
      exact not_finds_of_short h.1.bounded hshort (by simp)
    exact iff_of_false hnot fun hclear => hclear.1 hx
  · obtain ⟨s', obj, hindex, hden, hfaithful, hnamed⟩ := h.first hx
    rw [Session.LooksUp, finds_cons hindex, Session.Unshadowed]
    constructor
    · intro hfinds
      refine ⟨hx, ?_⟩
      by_contra hclear
      exact hfaithful.not_finds hnamed (by simp) hden hclear hfinds
    · exact fun hclear => (hfaithful.walk hnamed (by simp) hden hclear.2).1

theorem Session.Sound.step (h : S.Sound clr) (hclear : S.Unshadowed clr e)
    (hstep : Session.step clr S e = some S') : S'.Sound clr := by
  obtain ⟨x, path⟩ := e
  obtain rfl := Option.some.inj hstep
  obtain ⟨s', obj, hindex, hden, hfaithful, hnamed⟩ := h.first hclear.1
  obtain ⟨-, hfaithful, hnamed⟩ := hfaithful.walk hnamed (by simp) hden hclear.2
  rw [Session.Sound, walk_of_index hindex]
  exact ⟨hfaithful.congr fun q => visited_lookedUp,
    fun a q ha => (hnamed a q ha).imp_right visited_lookedUp.mp⟩

/-- **A sequence of lookups finds what the full names stand for exactly when** no path begins with
a function of `luanet` or goes through a type, and no component that is new in its namespace is
an entry of the root. -/
theorem looksUp_iff_unshadowed (clr : Assemblies V) (es : List (String × List String)) :
    AllSteps (Session.step clr) (Session.LooksUp clr) Session.initial es ↔
      AllSteps (Session.step clr) (Session.Unshadowed clr) Session.initial es :=
  allSteps_iff_allSteps (I := Session.Sound clr) (fun _ _ h => h.looksUp_iff)
    (fun _ _ _ h hclear hstep => h.step hclear hstep) session_sound_initial

/-- One type, `System.Math`, whose members are numbers. -/
def mathOnly : Assemblies ℕ where
  GetType fqn := fqn = ["System", "Math"]
  classIndex _ _ := some 3
  index _ _ := none

/-- By itself, `luanet.System.Math.PI` is the member. After a lookup through `luanet.Game`,
`luanet.Plugin.Game` is the namespace `Game`. -/
theorem looksUp_fails :
    ¬ AllSteps (Session.step mathOnly) (Session.LooksUp mathOnly) Session.initial
        [("System", ["Math", "PI"])] ∧
      ¬ AllSteps (Session.step mathOnly) (Session.LooksUp mathOnly) Session.initial
        [("Game", ["Player"]), ("Plugin", ["Game"])] := by
  have hinitial : Session.Sound mathOnly (Session.initial : Session ℕ) := session_sound_initial
  constructor
  · intro h
    obtain ⟨-, -, -, htype, -⟩ := hinitial.looksUp_iff.mp h.1
    exact absurd htype (by simp [mathOnly])
  · intro h
    have hsound := hinitial.step (hinitial.looksUp_iff.mp h.1) rfl
    obtain ⟨-, -, hclear, -⟩ := hsound.looksUp_iff.mp (h.2 _ rfl).1
    rcases hclear with hlooked | ⟨hroot, -⟩
    · simp [LookedUp, Session.initial] at hlooked
    · simp [LookedUp, Session.initial] at hroot

end Luanet

end UnityLua
