import Mathlib.Data.List.Nodup
import Mathlib.Data.List.Perm.Basic
import UnityLua.Library.Run

/-!
# The list of globals

`Lua` keeps a list of what was assigned to it from C#, for completion: the path of a value, and
for an object the paths of its methods and, two levels deep, of its fields and properties.
`registerGlobal` appends what it finds; the assignment of `null` takes one entry out, the path
itself. The list is sorted when it is read next.

## Main results

* `registerGlobal_eq`: the entries of a type are the path followed by the completions of the
  type.
* `globals_exact_iff`: exactly which runs of assignments keep the list free of duplicates and of
  entries of values that are gone.
-/

namespace UnityLua

open Library

/-- A method, as `registerGlobal` sees it. -/
structure GlobalMethod where
  name : String
  /-- `GetParameters().Length`. -/
  parameters : ℕ
  luaHide : Bool := false
  luaGlobal : Bool := false

/-- A field or a property, with its type. -/
structure GlobalMember (τ : Type) where
  name : String
  type : τ
  luaHide : Bool := false
  luaGlobal : Bool := false

/-- What reflection tells of the types: the public instance members, and the tests of a type. -/
structure MemberLists (τ : Type) where
  isLuaCSFunction : τ → Bool
  isClass : τ → Bool
  isInterface : τ → Bool
  isString : τ → Bool
  GetMethods : τ → List GlobalMethod
  GetFields : τ → List (GlobalMember τ)
  GetProperties : τ → List (GlobalMember τ)

/-- `List<string>.Sort()`, by the order of the current culture. -/
structure Sorting where
  le : String → String → Prop
  sort : List String → List String
  perm : ∀ l, (sort l).Perm l
  sorted : ∀ l, (sort l).Pairwise le

namespace GlobalMethod

/-- `StartsWith(prefix, StringComparison.Ordinal)`. -/
def StartsWith (s start : String) : Bool := start.toList.isPrefixOf s.toList

/-- The tests that `registerGlobal` makes of a method. -/
def listed (m : GlobalMethod) : Bool :=
  !m.luaHide && !m.luaGlobal &&
    m.name != "GetType" && m.name != "GetHashCode" && m.name != "Equals" &&
    m.name != "ToString" && m.name != "Clone" && m.name != "Dispose" &&
    m.name != "GetEnumerator" && m.name != "CopyTo" &&
    !StartsWith m.name "get_" && !StartsWith m.name "set_" &&
    !StartsWith m.name "add_" && !StartsWith m.name "remove_"

/-- What is listed for a method. -/
def command (path : String) (m : GlobalMethod) : String :=
  let command := path ++ ":" ++ m.name ++ "("
  if m.parameters = 0 then command ++ ")" else command

end GlobalMethod

namespace GlobalMember

variable {τ : Type}

/-- The tests made of a field. -/
def fieldListed (f : GlobalMember τ) : Bool := !f.luaHide && !f.luaGlobal

/-- The tests made of a property. -/
def propertyListed (p : GlobalMember τ) : Bool := !p.luaHide && !p.luaGlobal && p.name != "Item"

end GlobalMember

variable {τ : Type} (R : MemberLists τ)

/-- The types whose members are listed. -/
def MemberLists.hasMembers (type : τ) : Bool :=
  (R.isClass type || R.isInterface type) && !R.isString type

/-- The recursion of `registerGlobal` into the fields or the properties. -/
def registerMembers (listed : GlobalMember τ → Bool)
    (register : List String → String → τ → List String) (path : String)
    (members : List (GlobalMember τ)) (globals : List String) : List String :=
  members.foldl
    (fun globals m =>
      if listed m then register globals (path ++ "." ++ m.name) m.type else globals) globals

/-- `registerGlobal`, on the list so far. `levels` is `2 - recursionCounter`. -/
def registerGlobal : ℕ → List String → String → τ → List String
  | 0, globals, path, type =>
      if R.isLuaCSFunction type then globals ++ [path ++ "("] else globals ++ [path]
  | levels + 1, globals, path, type =>
      if R.isLuaCSFunction type then globals ++ [path ++ "("]
      else if R.hasMembers type then
        let globals := (R.GetMethods type).foldl
          (fun globals m => if m.listed then globals ++ [m.command path] else globals) globals
        let globals := registerMembers GlobalMember.fieldListed (registerGlobal levels) path
          (R.GetFields type) globals
        registerMembers GlobalMember.propertyListed (registerGlobal levels) path
          (R.GetProperties type) globals
      else globals ++ [path]

/-- The fields `globals` and `globalsSorted` of `Lua`, and the path whose assignment listed an
entry last. -/
structure Globals where
  globals : List String
  globalsSorted : Bool
  addedFor : String → Option String

namespace Globals

def initial : Globals := ⟨[], false, fun _ => none⟩

/-- The property `Globals`: the list is sorted on the way out. -/
def get (S : Sorting) (s : Globals) : Globals :=
  if s.globalsSorted then s else { s with globals := S.sort s.globals, globalsSorted := true }

/-- The last part of the setter of `this[]`; the type is the one of a value that is not `null`. -/
def set (s : Globals) (fullPath : String) (value : Option τ) : Globals :=
  match value with
  | none => { s with globals := s.globals.erase fullPath }
  | some type =>
      if fullPath ∈ s.globals then s
      else
        { globals := registerGlobal R 2 s.globals fullPath type
          globalsSorted := false
          addedFor := fun entry =>
            if entry ∈ registerGlobal R 2 [] fullPath type then some fullPath
            else s.addedFor entry }

/-- An assignment that returns, or a reading of the list. -/
inductive Event (τ : Type)
  | assign (fullPath : String) (value : Option τ)
  | read

def step (S : Sorting) (s : Globals) : Event τ → Option Globals
  | .assign fullPath value => some (s.set R fullPath value)
  | .read => some (s.get S)

/-- What is asked of a step: whoever reads `Globals` after it sees a sorted list without
duplicates, and after the assignment of `null` nothing that was added for the path. -/
def Exact (S : Sorting) (s : Globals) (e : Event τ) : Prop :=
  ∀ s', step R S s e = some s' →
    (s'.get S).globals.Pairwise S.le ∧ (s'.get S).globals.Nodup ∧
      ∀ fullPath, e = .assign fullPath none →
        ∀ entry ∈ (s'.get S).globals, s'.addedFor entry ≠ some fullPath

end Globals

/-! ### What a type adds -/

/-- What completes a path to an object of a type. -/
def completions : ℕ → τ → List String
  | 0, type => if R.isLuaCSFunction type then ["("] else [""]
  | levels + 1, type =>
      if R.isLuaCSFunction type then ["("]
      else if R.hasMembers type then
        ((R.GetMethods type).filter GlobalMethod.listed).map (GlobalMethod.command "") ++
          (((R.GetFields type).filter GlobalMember.fieldListed) ++
            ((R.GetProperties type).filter GlobalMember.propertyListed)).flatMap fun m =>
              (completions levels m.type).map fun c => "." ++ m.name ++ c
      else [""]

theorem command_eq (path : String) (m : GlobalMethod) :
    m.command path = path ++ m.command "" := by
  unfold GlobalMethod.command
  split <;> simp [String.append_assoc]

theorem registerMembers_eq {listed : GlobalMember τ → Bool}
    {register : List String → String → τ → List String} {suffixes : τ → List String}
    (h : ∀ globals path type,
      register globals path type = globals ++ (suffixes type).map fun c => path ++ c)
    (path : String) (members : List (GlobalMember τ)) (globals : List String) :
    registerMembers listed register path members globals =
      globals ++ ((members.filter listed).flatMap fun m =>
        (suffixes m.type).map fun c => "." ++ m.name ++ c).map fun c => path ++ c := by
  have hregister : registerMembers listed register path members globals =
      (members.filter listed).foldl
        (fun globals m => globals ++ (suffixes m.type).map fun c => path ++ "." ++ m.name ++ c)
        globals := by
    rw [List.foldl_filter]
    simp only [registerMembers, h]
  rw [hregister, List.foldl_append_eq_append, ← List.flatMap_def, List.map_flatMap]
  simp [Function.comp_def, String.append_assoc]

theorem addMethods_eq (path : String) (methods : List GlobalMethod) (globals : List String) :
    methods.foldl (fun globals m => if m.listed then globals ++ [m.command path] else globals)
        globals =
      globals ++ ((methods.filter GlobalMethod.listed).map (GlobalMethod.command "")).map
        fun c => path ++ c := by
  rw [← List.foldl_filter, List.foldl_append_eq_append, ← List.flatMap_def, List.map_map,
    List.map_eq_flatMap]
  simp only [Function.comp_apply, ← command_eq path]

/-- **What `registerGlobal` adds.** -/
theorem registerGlobal_eq (levels : ℕ) (globals : List String) (path : String) (type : τ) :
    registerGlobal R levels globals path type =
      globals ++ (completions R levels type).map fun c => path ++ c := by
  induction levels generalizing globals path type with
  | zero =>
      unfold registerGlobal completions
      split <;> simp
  | succ levels ih =>
      unfold registerGlobal completions
      split
      · simp
      · split
        · simp only [addMethods_eq, registerMembers_eq ih]
          simp [List.flatMap_append, List.append_assoc]
        · simp

theorem append_injective (path : String) : Function.Injective fun c : String => path ++ c := by
  intro c c' h
  have hlist : path.toList ++ c.toList = path.toList ++ c'.toList := by
    simpa only [String.toList_append] using congrArg String.toList h
  exact String.ext (List.append_cancel_left hlist)

namespace Globals

variable (S : Sorting)

@[simp] theorem get_addedFor (s : Globals) : (s.get S).addedFor = s.addedFor := by
  unfold get
  split <;> rfl

@[simp] theorem get_globalsSorted (s : Globals) : (s.get S).globalsSorted = true := by
  unfold get
  split
  · assumption
  · rfl

theorem perm_get (s : Globals) : (s.get S).globals.Perm s.globals := by
  unfold get
  split
  · exact List.Perm.refl _
  · exact S.perm _

/-- A list marked as sorted is sorted. -/
def MarkedSorted (s : Globals) : Prop := s.globalsSorted = true → s.globals.Pairwise S.le

theorem MarkedSorted.get {s : Globals} (h : s.MarkedSorted S) :
    (s.get S).globals.Pairwise S.le := by
  unfold Globals.get
  split
  · exact h (by assumption)
  · exact S.sorted _

/-- Marked lists are sorted, and every entry is there once. -/
structure Inv (s : Globals) : Prop where
  marked : s.MarkedSorted S
  nodup : s.globals.Nodup

theorem inv_initial : initial.Inv S := ⟨nofun, List.nodup_nil⟩

theorem inv_get {s : Globals} (h : s.Inv S) : (s.get S).Inv S :=
  ⟨fun _ => h.marked.get S, (perm_get S s).nodup_iff.mpr h.nodup⟩

/-- The assignment of `null` takes entries out, the others keep their order. -/
theorem inv_set_none {s : Globals} (h : s.Inv S) (fullPath : String) :
    (s.set R fullPath none).Inv S :=
  ⟨fun hs => (h.marked hs).sublist List.erase_sublist, h.nodup.erase fullPath⟩

/-- Whether a value is new or not, a list that is marked afterwards was not touched. -/
theorem markedSorted_set {s : Globals} (h : s.MarkedSorted S) (fullPath : String) (type : τ) :
    (s.set R fullPath (some type)).MarkedSorted S := by
  unfold set
  dsimp only
  split
  · exact h
  · exact nofun

/-- A value at a path that is not listed: its entries are new, and no two are equal. -/
def AddsNew (s : Globals) (fullPath : String) (type : τ) : Prop :=
  fullPath ∉ s.globals →
    (completions R 2 type).Nodup ∧ ∀ c ∈ completions R 2 type, fullPath ++ c ∉ s.globals

theorem nodup_set_iff {s : Globals} (h : s.globals.Nodup) (fullPath : String) (type : τ) :
    (s.set R fullPath (some type)).globals.Nodup ↔ s.AddsNew R fullPath type := by
  unfold set AddsNew
  dsimp only
  split
  case isTrue hmem => exact iff_of_true h fun hnot => absurd hmem hnot
  case isFalse hmem =>
    rw [registerGlobal_eq, List.nodup_append', List.nodup_map_iff (append_injective fullPath)]
    constructor
    · rintro ⟨-, hnodup, hdisjoint⟩ -
      exact ⟨hnodup, fun c hc hold => hdisjoint hold (List.mem_map_of_mem hc)⟩
    · intro hnew
      obtain ⟨hnodup, hnotin⟩ := hnew hmem
      refine ⟨h, hnodup, fun entry hold hentry => ?_⟩
      obtain ⟨c, hc, rfl⟩ := List.mem_map.mp hentry
      exact hnotin c hc hold

/-- Every entry that was added for the path is the path itself. -/
def OnlyItself (s : Globals) (fullPath : String) : Prop :=
  ∀ entry ∈ s.globals, s.addedFor entry = some fullPath → entry = fullPath

theorem set_none_iff {s : Globals} (h : s.globals.Nodup) (fullPath : String) :
    (∀ entry ∈ (s.set R fullPath none).globals, s.addedFor entry ≠ some fullPath) ↔
      s.OnlyItself fullPath := by
  unfold set OnlyItself
  constructor
  · intro hgone entry hentry hfor
    by_contra hne
    exact hgone entry ((h.mem_erase_iff).mpr ⟨hne, hentry⟩) hfor
  · intro honly entry hentry hfor
    obtain ⟨hne, hold⟩ := h.mem_erase_iff.mp hentry
    exact hne (honly entry hold hfor)

/-- The steps that keep the list as it should be. -/
def KeepsGlobals (s : Globals) : Event τ → Prop
  | .assign fullPath (some type) => s.AddsNew R fullPath type
  | .assign fullPath none => s.OnlyItself fullPath
  | .read => True

theorem exact_iff {s s' : Globals} {e : Event τ} (hs : step R S s e = some s')
    (hmarked : s'.MarkedSorted S) :
    Exact R S s e ↔ s'.globals.Nodup ∧ ∀ fullPath, e = .assign fullPath none →
      ∀ entry ∈ s'.globals, s'.addedFor entry ≠ some fullPath := by
  have hperm := perm_get S s'
  constructor
  · intro h
    obtain ⟨-, hnodup, hgone⟩ := h s' hs
    exact ⟨hperm.nodup_iff.mp hnodup, fun p he entry hentry =>
      hgone p he entry (hperm.mem_iff.mpr hentry)⟩
  · rintro ⟨hnodup, hgone⟩ t ht
    obtain rfl := Option.some.inj (hs.symm.trans ht)
    exact ⟨hmarked.get S, hperm.nodup_iff.mpr hnodup, fun p he entry hentry =>
      hgone p he entry (hperm.mem_iff.mp hentry)⟩

/-- One step does what is asked of it exactly when it meets the condition. -/
theorem exact_iff_keepsGlobals {s : Globals} (h : s.Inv S) (e : Event τ) :
    Exact R S s e ↔ s.KeepsGlobals R e := by
  rcases e with ⟨fullPath, _ | type⟩ | _
  · rw [exact_iff R S rfl (inv_set_none R S h fullPath).marked]
    constructor
    · rintro ⟨-, hgone⟩
      exact (set_none_iff R h.nodup fullPath).mp (hgone fullPath rfl)
    · intro honly
      refine ⟨(inv_set_none R S h fullPath).nodup, ?_⟩
      rintro p ⟨⟩
      exact (set_none_iff R h.nodup fullPath).mpr honly
  · rw [exact_iff R S rfl (markedSorted_set R S h.marked fullPath type)]
    constructor
    · rintro ⟨hnodup, -⟩
      exact (nodup_set_iff R h.nodup fullPath type).mp hnodup
    · exact fun hnew => ⟨(nodup_set_iff R h.nodup fullPath type).mpr hnew, nofun⟩
  · rw [exact_iff R S rfl (inv_get S h).marked]
    exact iff_of_true ⟨(inv_get S h).nodup, nofun⟩ trivial

theorem inv_step {s s' : Globals} {e : Event τ} (h : s.Inv S) (hok : s.KeepsGlobals R e)
    (hs : step R S s e = some s') : s'.Inv S := by
  rcases e with ⟨fullPath, _ | type⟩ | _ <;> obtain rfl := Option.some.inj hs
  · exact inv_set_none R S h fullPath
  · exact ⟨markedSorted_set R S h.marked fullPath type,
      (nodup_set_iff R h.nodup fullPath type).mpr hok⟩
  · exact inv_get S h

/-- **When the list of globals is exact.** In every run of assignments and readings, all steps
leave the list sorted, free of duplicates and, after `null`, free of what was added for the path,
exactly when every assignment of a value lists new entries, all different, and every assignment
of `null` finds no entry of its path but the path itself. -/
theorem globals_exact_iff (es : List (Event τ)) :
    AllSteps (step R S) (Exact R S) initial es ↔
      AllSteps (step R S) (KeepsGlobals R) initial es :=
  allSteps_iff_allSteps (fun _ e h => exact_iff_keepsGlobals R S h e)
    (fun _ _ _ h hok hs => inv_step R S h hok hs) (inv_initial S)

/-! ### An object with a method -/

/-- The classes `0`, with one method, and `1`, with two overloads of it. -/
def sampleMembers : MemberLists (Fin 2) where
  isLuaCSFunction _ := false
  isClass _ := true
  isInterface _ := false
  isString _ := false
  GetMethods type :=
    if type = 0 then [⟨"Run", 0, false, false⟩]
    else [⟨"Run", 1, false, false⟩, ⟨"Run", 2, false, false⟩]
  GetFields _ := []
  GetProperties _ := []

/-- Strings in the order of their code points. -/
def ordinal : Sorting where
  le a b := a ≤ b
  sort l := l.mergeSort fun a b => decide (a ≤ b)
  perm l := List.mergeSort_perm l _
  sorted l := by
    have htrans : ∀ a b c : String, decide (a ≤ b) → decide (b ≤ c) → decide (a ≤ c) :=
      fun a b c hab hbc => decide_eq_true
        (String.le_trans (of_decide_eq_true hab) (of_decide_eq_true hbc))
    have htotal : ∀ a b : String, decide (a ≤ b) || decide (b ≤ a) := by
      intro a b
      simpa using String.le_total a b
    exact (List.pairwise_mergeSort htrans htotal l).imp of_decide_eq_true

/-- The entry `o:Run()` stays after the object is gone, and overloads are listed twice. -/
theorem globals_exact_fails :
    ¬ AllSteps (step sampleMembers ordinal) (Exact sampleMembers ordinal) initial
        [.assign "o" (some 0), .assign "o" none] ∧
      ¬ AllSteps (step sampleMembers ordinal) (Exact sampleMembers ordinal) initial
        [.assign "o" (some 1)] := by
  constructor
  · rintro ⟨-, h⟩
    obtain ⟨-, -, hgone⟩ := (h _ rfl).1 _ rfl
    exact hgone "o" rfl "o:Run()" ((perm_get _ _).mem_iff.mpr (by decide)) (by decide)
  · rintro ⟨h, -⟩
    obtain ⟨-, hnodup, -⟩ := h _ rfl
    exact absurd ((perm_get _ _).nodup_iff.mp hnodup) (by decide)

end Globals

end UnityLua
