import UnityLua.CollectorSafety

/-!
# Strings are interned

Two strings with the same content are one object, so that `luaV_equalval` and `luaH_getstr` may
compare addresses. A string is in the list that its hash chooses: `luaS_newlstr` looks for it there
before it makes a new one, `luaS_resize` brings the strings to other lists, and the sweep takes dead
ones away between two calls; a dead string that is asked for again comes back.

## Main results

* `Interned`: the strings of the table.
* `interned_step`: every step keeps it; most steps do not touch the table (`strings`).
* `strings_interned_run`: in every run a content has one string, and `luaS_newlstr` gives it.
-/

namespace UnityLua.Collector

open Library

variable {g g' : State} {o : GCObject}

/-! ### What leaves the strings as they are -/

/-- The lists of strings and the contents. -/
def strings (g : State) : List (List ℕ) × (ℕ → ByteString) := (g.strt, g.content)

theorem strings_foldl {α : Type} {f : State → α → State}
    (h : ∀ g a, strings (f g a) = strings g) (l : List α) (g : State) :
    strings (l.foldl f g) = strings g := by
  induction l generalizing g with
  | nil => rfl
  | cons a l ih => exact (ih (f g a)).trans (h g a)

section Marking

variable (g)

@[simp] theorem strings_setcolor (o : GCObject) (c : Colour) :
    strings (setcolor g o c) = strings g := rfl

@[simp] theorem strings_makewhite (o : GCObject) : strings (makewhite g o) = strings g := rfl

@[simp] theorem strings_marktable (t : ℕ) : strings (marktable g t) = strings g := by
  rw [marktable]
  split <;> rfl

@[simp] theorem strings_markmeta (mt : Option ℕ) : strings (markmeta g mt) = strings g := by
  cases mt with
  | none => rfl
  | some t => exact strings_marktable g t

@[simp] theorem strings_reallymarkvalue (o : GCObject) :
    strings (reallymarkvalue g o) = strings g := by
  cases o with
  | userdata u => simp only [reallymarkvalue, strings_marktable, strings_markmeta, strings_setcolor]
  | _ => rfl

@[simp] theorem strings_markvalue (v : TValue) : strings (markvalue g v) = strings g := by
  rw [markvalue]
  split
  · split
    · exact strings_reallymarkvalue g _
    · rfl
  · rfl

@[simp] theorem strings_reallymarkobject (o : GCObject) :
    strings (reallymarkobject g o) = strings g := by
  cases o with
  | upval u =>
      simp only [reallymarkobject]
      split <;> simp only [strings_setcolor, strings_markvalue]
  | _ => exact strings_reallymarkvalue g _

@[simp] theorem strings_markobject (o : GCObject) : strings (markobject g o) = strings g := by
  rw [markobject]
  split
  · exact strings_reallymarkobject g o
  · rfl

theorem strings_markvalues (vs : List TValue) : strings (vs.foldl markvalue g) = strings g :=
  strings_foldl strings_markvalue vs g

theorem strings_traversetable (i : ℕ) : strings (traversetable g i).1 = strings g := by
  simp only [traversetable, strings_markvalues]
  split
  · exact strings_markmeta g _
  · exact strings_markmeta g _

theorem strings_traverseclosure (i : ℕ) : strings (traverseclosure g i) = strings g := by
  rw [traverseclosure]
  split
  · rw [strings_markvalues, strings_marktable]
  · rw [strings_foldl strings_markobject, strings_markobject, strings_marktable]

@[simp] theorem strings_propagatemark : strings (propagatemark g) = strings g := by
  rw [propagatemark]
  split
  · rfl
  next o gray _ =>
  cases o with
  | table i =>
      dsimp only
      split
      · rw [strings_setcolor, strings_traversetable]
        rfl
      · rw [strings_traversetable]
        rfl
  | function i => exact strings_traverseclosure _ i
  | thread i =>
      simp only [traversestack, strings_markvalues, strings_markvalue]
      rfl
  | proto i => exact strings_markvalues _ _
  | _ => rfl

@[simp] theorem strings_propagate (rounds : ℕ) : strings (propagate rounds g) = strings g := by
  induction rounds generalizing g with
  | zero => rfl
  | succ rounds ih =>
      rw [propagate]
      split
      · rfl
      · rw [ih, strings_propagatemark]

@[simp] theorem strings_propagateall : strings (propagateall g) = strings g :=
  strings_propagate g _

@[simp] theorem strings_markmt : strings (markmt g) = strings g :=
  strings_foldl strings_markmeta _ g

theorem strings_markroot : strings (markroot g) = strings g := by
  change strings (markmt _) = _
  rw [strings_markmt, strings_markvalue, strings_markvalue, strings_markobject]
  rfl

end Marking

/-! ### Barriers, new objects and upvalues -/

section Objects

variable (g)

theorem strings_luaC_barrierf (o v : GCObject) : strings (luaC_barrierf g o v) = strings g := by
  rw [luaC_barrierf]
  split
  · exact strings_reallymarkobject g v
  · rfl

@[simp] theorem strings_luaC_objbarrier (p o : GCObject) :
    strings (luaC_objbarrier g p o) = strings g := by
  rw [luaC_objbarrier]
  split
  · exact strings_luaC_barrierf g p o
  · rfl

@[simp] theorem strings_luaC_barrier (p : GCObject) (v : TValue) :
    strings (luaC_barrier g p v) = strings g := by
  rw [luaC_barrier]
  split
  · exact strings_luaC_objbarrier g p _
  · rfl

@[simp] theorem strings_luaC_barriert (t : ℕ) (v : TValue) :
    strings (luaC_barriert g t v) = strings g := by
  rw [luaC_barriert]
  split
  · split <;> rfl
  · rfl

@[simp] theorem strings_linkroot (o : GCObject) : strings (linkroot g o) = strings g := by
  rw [linkroot_eq]
  rfl

@[simp] theorem strings_luaC_link (o : GCObject) : strings (luaC_link g o) = strings g :=
  strings_linkroot _ o

@[simp] theorem strings_linkudata (u : ℕ) : strings (linkudata g u) = strings g := by
  rw [linkudata_eq]
  rfl

theorem strings_closedup (th u : ℕ) : strings (closedup g th u) = strings g :=
  strings_linkroot _ _

theorem strings_closeupval (th u : ℕ) : strings (closeupval g th u) = strings g := by
  rw [closeupval_eq]
  split_ifs
  · rfl
  · rw [strings_luaC_barrier, strings_setcolor, strings_closedup]
  · rw [strings_makewhite, strings_closedup]
  · exact strings_closedup g th u

@[simp] theorem strings_luaF_close (th level : ℕ) : strings (luaF_close g th level) = strings g :=
  strings_foldl (fun g u => strings_closeupval g th u) _ g

variable {g}

theorem strings_luaF_findupval {level new : ℕ} {r : State × ℕ}
    (h : luaF_findupval g level new = some r) : strings r.1 = strings g := by
  rw [luaF_findupval] at h
  dsimp only at h
  split at h
  · obtain rfl := Option.some.inj h
    dsimp only
    split <;> rfl
  · split at h
    · obtain rfl := Option.some.inj h
      rfl
    · cases h

theorem strings_capture {cs : List Capture} {r : State × List ℕ} (h : capture g cs = some r) :
    strings r.1 = strings g := by
  induction cs generalizing g r with
  | nil =>
      obtain rfl := Option.some.inj h
      rfl
  | cons c cs ih =>
      cases c with
      | inherit u =>
          rw [capture] at h
          split at h
          · obtain ⟨r', hr', rfl⟩ := Option.map_eq_some_iff.mp h
            have hsame : strings r'.1 = strings g := ih hr'
            exact hsame
          · cases h
      | level level new =>
          rw [capture] at h
          obtain ⟨r', hr', h⟩ := Option.bind_eq_some_iff.mp h
          obtain ⟨r'', hr'', rfl⟩ := Option.map_eq_some_iff.mp h
          exact (ih hr'').trans (strings_luaF_findupval hr')

variable (g)

theorem strings_setuvalue (u : ℕ) (v : TValue) : strings (setuvalue g u v) = strings g := by
  rw [setuvalue]
  split <;> rfl

end Objects

/-! ### The other steps of the collector -/

section Collection

variable (g)

theorem strings_separate (o : GCObject) : strings (separate g o) = strings g := by
  cases o with
  | userdata u =>
      rw [separate]
      split
      · rfl
      · dsimp only
        split <;> rfl
  | _ => rfl

theorem strings_iscleared (v : TValue) (iskey : Bool) :
    strings (iscleared g v iskey).1 = strings g := by
  cases v with
  | string i =>
      rw [iscleared]
      dsimp only
      split <;> rfl
  | _ => rfl

theorem strings_cleararray (os : List TValue) : strings (cleararray g os).1 = strings g := by
  induction os with
  | nil => rfl
  | cons o os ih =>
      rw [cleararray]
      exact (strings_iscleared _ o false).trans ih

theorem strings_clearnodes (ns : List Node) : strings (clearnodes g ns).1 = strings g := by
  induction ns with
  | nil => rfl
  | cons n ns ih =>
      rw [clearnodes]
      dsimp only
      have hkey := (strings_iscleared (clearnodes g ns).1 n.key true).trans ih
      split
      · exact ih
      · split
        · exact hkey
        · exact (strings_iscleared _ n.val false).trans hkey

theorem strings_clearone (t : ℕ) : strings (clearone g t) = strings g := by
  refine (strings_clearnodes _ _).trans ?_
  split
  · exact strings_cleararray g _
  · rfl

theorem strings_atomic : strings (atomic g) = strings g := by
  obtain ⟨g₂, g₃, g₄, g₅, g₆, g₇, g₈, g₉, h₂, h₃, h₄, h₅, h₆, h₇, h₈, h₉, heq⟩ := atomic_eq g
  have hremark : strings (remarkupvals g) = strings g := strings_foldl (fun g u => by
    split
    · exact strings_markvalue g _
    · rfl) _ g
  have hmarktmu : ∀ g, strings (marktmu g) = strings g := fun g => strings_foldl (fun g u => by
    rw [strings_reallymarkobject, strings_makewhite]) _ g
  have hseparate : ∀ g, strings (luaC_separateudata g) = strings g := fun g =>
    strings_foldl strings_separate _ g
  have hclear : strings g₉ = strings g₈ := h₉ ▸ strings_foldl strings_clearone _ g₈
  calc strings (atomic g) = strings g₉ := by rw [heq]; rfl
    _ = strings g₈ := hclear
    _ = strings g₇ := by rw [h₈, strings_propagateall, hmarktmu, hseparate]
    _ = strings g₅ := by rw [h₇, strings_propagateall, h₆]; rfl
    _ = strings g₄ := by rw [h₅, strings_propagateall]
    _ = strings g₂ := by rw [h₄, strings_markmt, strings_markobject, h₃]; rfl
    _ = strings g := by rw [h₂, strings_propagateall, hremark]

theorem strings_sweepupvals (th : ℕ) : strings (sweepupvals g th) = strings g := by
  rw [sweepupvals_eq]
  rfl

theorem strings_sweepone : strings (sweepone g) = strings g := by
  rw [sweepone]
  split
  · rfl
  next o unswept _ =>
  cases o with
  | thread th =>
      dsimp only
      split
      · exact strings_sweepupvals g th
      · exact (strings_luaF_close _ th 0).trans (strings_sweepupvals g th)
  | _ =>
      dsimp only
      split <;> rfl

theorem strings_sweeplist (count : ℕ) : strings (sweeplist count g) = strings g := by
  induction count generalizing g with
  | zero => rfl
  | succ count ih => exact (ih (sweepone g)).trans (strings_sweepone g)

theorem strings_GCTM : strings (GCTM g) = strings g := by
  rw [GCTM]
  split
  · rfl
  · dsimp only
    split <;> exact strings_linkudata _ _

end Collection

/-! ### The table of strings -/

/-- Each string is in the list of its hash, and no other string has its content. -/
structure Interned (s : List (List ℕ) × (ℕ → ByteString)) : Prop where
  placed : ∀ k, ∀ i ∈ s.1.getD k [], bucket s.1.length (s.2 i) = k
  unique : ∀ i ∈ s.1.flatten, ∀ j ∈ s.1.flatten, s.2 i = s.2 j → i = j

theorem exists_getD_of_mem_flatten {l : List (List ℕ)} {i : ℕ} (h : i ∈ l.flatten) :
    ∃ k, i ∈ l.getD k [] := by
  obtain ⟨os, hos, hi⟩ := List.mem_flatten.mp h
  obtain ⟨k, hk, rfl⟩ := List.mem_iff_getElem.mp hos
  exact ⟨k, by rwa [List.getD_eq_getElem _ _ hk]⟩

theorem mem_flatten_of_mem_getD {l : List (List ℕ)} {k i : ℕ} (h : i ∈ l.getD k []) :
    i ∈ l.flatten := by
  rw [List.getD_eq_getElem?_getD] at h
  cases hk : l[k]? with
  | none =>
      rw [hk] at h
      cases h
  | some os =>
      rw [hk] at h
      exact List.mem_flatten.mpr ⟨os, List.mem_of_getElem? hk, h⟩

/-- One string more in one of the lists. -/
theorem mem_getD_modify_cons {l : List (List ℕ)} {b k i new : ℕ}
    (h : i ∈ (l.modify b (new :: ·)).getD k []) : i ∈ l.getD k [] ∨ i = new ∧ k = b := by
  by_cases hk : b = k
  · subst hk
    exact (mem_getD_modify h).imp_right fun hi => ⟨hi, rfl⟩
  · rw [List.getD_eq_getElem?_getD, List.getElem?_modify_ne _ _ hk] at h
    rw [List.getD_eq_getElem?_getD]
    exact Or.inl h

/-- The string of a content is found where its hash says. -/
theorem Interned.findstr (h : Interned (strings g)) {i : ℕ} (hi : i ∈ g.strt.flatten) :
    findstr g (g.content i) = some i := by
  obtain ⟨k, hk⟩ := exists_getD_of_mem_flatten hi
  have hbucket : bucket g.strt.length (g.content i) = k := h.placed k i hk
  rw [Collector.findstr, hbucket]
  cases hfind : (g.strt.getD k []).find? fun j => g.content j = g.content i with
  | none => simpa using List.find?_eq_none.mp hfind i hk
  | some j =>
      have hcontent : g.content j = g.content i := by simpa using List.find?_some hfind
      have hj := mem_flatten_of_mem_getD (List.mem_of_find?_eq_some hfind)
      rw [h.unique j hj i hi hcontent]

/-- **A new string** is in the list of its hash, and its content is new. -/
theorem interned_withstring {str : ByteString} {new : ℕ} (hg : Shape g)
    (h : Interned (strings g)) (hnone : g.color (.string new) = none)
    (hfind : Collector.findstr g str = none) : Interned (strings (withstring g str new)) := by
  have hnew : ∀ {i}, i ∈ g.strt.flatten → i ≠ new := by
    rintro i hi rfl
    exact hg.strings.2 i hi hnone
  have hself : (withstring g str new).content new = str := Function.update_self ..
  have hother : ∀ {i}, i ∈ g.strt.flatten → (withstring g str new).content i = g.content i :=
    fun hi => Function.update_of_ne (hnew hi) ..
  -- the content is none of those that are there
  have hfresh : ∀ i ∈ g.strt.flatten, g.content i ≠ str := by
    rintro i hi rfl
    rw [h.findstr hi] at hfind
    cases hfind
  have hmem : ∀ {i}, i ∈ (withstring g str new).strt.flatten → i = new ∨ i ∈ g.strt.flatten :=
    fun hi => List.mem_cons.mp ((perm_flatten_modify (bucket_lt hg.strt str)).mem_iff.mp hi)
  have hlength : (withstring g str new).strt.length = g.strt.length := List.length_modify ..
  constructor
  case placed =>
    intro k i hi
    change bucket (withstring g str new).strt.length ((withstring g str new).content i) = k
    rw [hlength]
    rcases mem_getD_modify_cons hi with hi | ⟨rfl, hk⟩
    · rw [hother (mem_flatten_of_mem_getD hi)]
      exact h.placed k i hi
    · rw [hself]
      exact hk.symm
  case unique =>
    intro i hi j hj hij
    change (withstring g str new).content i = (withstring g str new).content j at hij
    rcases hmem hi with rfl | hi' <;> rcases hmem hj with rfl | hj'
    · rfl
    · rw [hself, hother hj'] at hij
      exact absurd hij.symm (hfresh j hj')
    · rw [hself, hother hi'] at hij
      exact absurd hij (hfresh i hi')
    · rw [hother hi', hother hj'] at hij
      exact h.unique i hi' j hj' hij

theorem placed_foldl_modify {f : ℕ → ℕ} {is : List ℕ} {l : List (List ℕ)}
    (hl : ∀ k, ∀ i ∈ l.getD k [], f i = k) :
    ∀ k, ∀ i ∈ (is.foldl (fun l i => l.modify (f i) (i :: ·)) l).getD k [], f i = k := by
  induction is generalizing l with
  | nil => exact hl
  | cons i is ih =>
      refine ih fun k j hj => ?_
      rcases mem_getD_modify_cons hj with hj | ⟨rfl, hk⟩
      · exact hl k j hj
      · exact hk.symm

/-- **All strings come to other lists.** -/
theorem interned_resize {newsize : ℕ} (hsize : 0 < newsize) (h : Interned (strings g)) :
    Interned (strings (luaS_resize g newsize)) := by
  rw [luaS_resize]
  split
  · exact h
  · obtain ⟨hlength, hperm⟩ := foldl_modify (f := fun i => bucket newsize (g.content i))
      (l := g.strt.flatten) (s := List.replicate newsize [])
      (fun i => by rw [List.length_replicate]; exact bucket_lt hsize _)
    rw [List.length_replicate] at hlength
    have hmem : ∀ {i}, i ∈ (g.strt.flatten.foldl
        (fun s i => s.modify (bucket newsize (g.content i)) (i :: ·))
        (List.replicate newsize [])).flatten → i ∈ g.strt.flatten := by
      intro i hi
      have hnil : (List.replicate newsize ([] : List ℕ)).flatten = [] := by simp
      rw [hperm.mem_iff, hnil, List.append_nil] at hi
      exact hi
    constructor
    case placed =>
      intro k i hi
      dsimp only [strings] at hi ⊢
      rw [hlength]
      refine placed_foldl_modify (fun k i hi => ?_) k i hi
      rw [List.getD_eq_getElem?_getD, List.getElem?_replicate] at hi
      split at hi <;> cases hi
    case unique => exact fun i hi j hj hij => h.unique i (hmem hi) j (hmem hj) hij

/-- **The strings that are swept** are some of those that were there. -/
theorem interned_sweepstrings (h : Interned (strings g)) : Interned (strings (sweepstrings g)) := by
  have hsub : (g.strt.set g.sweepstrgc (keptstrings g)).flatten.Sublist g.strt.flatten :=
    sublist_flatten_set List.filter_sublist
  have heq : strings (sweepstrings g) =
      (g.strt.set g.sweepstrgc (keptstrings g), g.content) := by
    rw [sweepstrings_eq]
    rfl
  rw [heq]
  constructor
  case placed =>
    intro k i hi
    dsimp only at hi ⊢
    rw [List.length_set]
    refine h.placed k i ?_
    change i ∈ g.strt.getD k []
    by_cases hk : g.sweepstrgc = k
    · subst hk
      rw [List.getD_eq_getElem?_getD, List.getElem?_set_self'] at hi
      cases hget : g.strt[g.sweepstrgc]? with
      | none =>
          rw [hget] at hi
          cases hi
      | some os =>
          rw [hget] at hi
          exact (mem_keptstrings.mp hi).1
    · rw [List.getD_eq_getElem?_getD, List.getElem?_set_ne hk] at hi
      rwa [List.getD_eq_getElem?_getD]
  case unique =>
    exact fun i hi j hj hij => h.unique i (hsub.subset hi) j (hsub.subset hj) hij

theorem interned_luaS_newlstr {str : ByteString} {new : ℕ} {r : State × ℕ} (hg : Shape g)
    (h : Interned (strings g)) (hr : luaS_newlstr g str new = some r) :
    Interned (strings r.1) := by
  rw [luaS_newlstr] at hr
  split at hr
  · obtain rfl := Option.some.inj hr
    dsimp only
    split
    · exact h
    · exact h
  · next hfind =>
      split at hr
      · next hnone =>
          obtain rfl := Option.some.inj hr
          have hnew := interned_withstring hg h hnone hfind
          change Interned (strings (if (withstring g str new).strt.flatten.length >
            (withstring g str new).strt.length then
              luaS_resize (withstring g str new) ((withstring g str new).strt.length * 2)
            else withstring g str new))
          split
          · refine interned_resize (Nat.mul_pos ?_ Nat.two_pos) hnew
            exact lt_of_lt_of_eq hg.strt (List.length_modify ..).symm
          · exact hnew
      · cases hr

/-! ### Every run -/

theorem interned_of_strings (hsame : strings g' = strings g) (h : Interned (strings g)) :
    Interned (strings g') := by rwa [hsame]

theorem interned_singlestep (h : Interned (strings g)) :
    Interned (strings (singlestep g)) := by
  rw [singlestep]
  split
  · exact interned_of_strings (strings_markroot g) h
  · split
    · exact interned_of_strings (strings_atomic g) h
    · exact interned_of_strings (strings_propagatemark g) h
  · exact interned_sweepstrings h
  · have hlist := interned_of_strings (strings_sweeplist g GCSWEEPMAX) h
    dsimp only
    split
    · change Interned (strings (checkSizes (sweeplist GCSWEEPMAX g)))
      rw [checkSizes]
      split
      · next hsize =>
          refine interned_resize ?_ hlist
          rw [MINSTRTABSIZE] at hsize
          omega
      · exact hlist
    · exact hlist
  · split
    · exact h
    · exact interned_of_strings (strings_GCTM g) h

/-- **Every step keeps the strings interned.** -/
theorem interned_step {op : Op} (hg : Shape g) (h : Interned (strings g))
    (hstep : step g op = some g') : Interned (strings g') := by
  cases op with
  | newstring str new =>
      rw [step] at hstep
      obtain ⟨r, hr, rfl⟩ := Option.map_eq_some_iff.mp hstep
      exact interned_luaS_newlstr hg h hr
  | singlestep =>
      rw [step_singlestep, Option.some.injEq] at hstep
      exact hstep ▸ interned_singlestep h
  | newlclosure new env p upvals =>
      rw [step] at hstep
      obtain ⟨r, hr, hstep⟩ := Option.bind_eq_some_iff.mp hstep
      rw [when_eq_some] at hstep
      refine interned_of_strings ?_ h
      rw [← hstep.2]
      exact (strings_luaC_link _ _).trans (strings_capture hr)
  | setmetatable t mt | setumetatable u mt =>
      rw [step, when_eq_some] at hstep
      refine interned_of_strings ?_ h
      rw [← hstep.2]
      cases mt with
      | none => rfl
      | some m => first | exact strings_luaC_barriert _ _ _ | exact strings_luaC_objbarrier _ _ _
  | settable t key v isnew array node =>
      rw [step, when_eq_some] at hstep
      refine interned_of_strings ?_ h
      rw [← hstep.2]
      dsimp only
      rw [strings_luaC_barriert]
      split
      · exact strings_luaC_barriert _ _ _
      · rfl
  | setcupvalue f n v =>
      rw [step] at hstep
      split at hstep
      · rw [when_eq_some] at hstep
        exact interned_of_strings (hstep.2 ▸ strings_luaC_barrier _ _ _) h
      · cases hstep
  | setupvalue f n v =>
      rw [step] at hstep
      split at hstep
      · cases hstep
      · obtain ⟨u, -, hstep⟩ := Option.bind_eq_some_iff.mp hstep
        rw [when_eq_some] at hstep
        refine interned_of_strings ?_ h
        rw [← hstep.2, strings_luaC_barrier]
        exact strings_setuvalue g u v
  | setupval u v =>
      rw [step, when_eq_some] at hstep
      refine interned_of_strings ?_ h
      rw [← hstep.2, strings_luaC_barrier]
      exact strings_setuvalue g u v
  | setfenv f env | setuenv f env | setgt f env =>
      rw [step, when_eq_some] at hstep
      refine interned_of_strings ?_ h
      rw [← hstep.2]
      exact strings_luaC_objbarrier _ _ _
  | addk p v =>
      rw [step, when_eq_some] at hstep
      refine interned_of_strings ?_ h
      rw [← hstep.2]
      exact strings_luaC_barrier _ _ _
  | close level =>
      rw [step_close, Option.some.injEq] at hstep
      exact interned_of_strings (hstep ▸ strings_luaF_close g _ _) h
  | yield =>
      rw [step] at hstep
      split at hstep
      · exact interned_of_strings (Option.some.inj hstep ▸ rfl) h
      · cases hstep
  | newtable new | newthread new | newproto new =>
      rw [step, pushnew, when_eq_some] at hstep
      refine interned_of_strings ?_ h
      rw [← hstep.2]
      exact strings_luaC_link _ _
  | newcclosure new env n =>
      rw [step, when_eq_some] at hstep
      refine interned_of_strings ?_ h
      rw [← hstep.2]
      exact strings_luaC_link _ _
  | newuserdata new env =>
      rw [step, when_eq_some] at hstep
      refine interned_of_strings ?_ h
      rw [← hstep.2]
      exact strings_linkudata _ _
  | restart =>
      rw [step, when_eq_some] at hstep
      exact interned_of_strings (hstep.2 ▸ strings_markroot g) h
  | _ =>
      rw [step, when_eq_some] at hstep
      exact interned_of_strings (hstep.2 ▸ rfl) h

theorem interned_lua_newstate : Interned (strings lua_newstate) := by
  rw [lua_newstate]
  generalize (luaT_eventname ++ reserved ++ [MEMERRMSG]).zipIdx = names
  suffices h : ∀ g, Sound NoRef g → Interned (strings g) → Interned (strings (names.foldl
      (fun g name => luaS_fixnew g (bytes name.1) name.2) g)) by
    refine h newstate sound_newstate ⟨fun k i hi => ?_, fun i hi => ?_⟩
    · change i ∈ (List.replicate MINSTRTABSIZE ([] : List ℕ)).getD k [] at hi
      rw [List.getD_eq_getElem?_getD, List.getElem?_replicate] at hi
      split at hi <;> cases hi
    · exact absurd hi (by simp [strings, newstate])
  induction names with
  | nil => exact fun g _ h => h
  | cons name names ih =>
      refine fun g hg h => ih _ (sound_luaS_fixnew hg _ _) ?_
      change Interned (strings (luaS_fixnew g (bytes name.1) name.2))
      rw [luaS_fixnew]
      split
      · next r hr => exact interned_luaS_newlstr hg.shape h hr
      · exact h

/-- **A content has one string** in every run, and `luaS_newlstr` gives it. -/
theorem strings_interned_run {ops : List Op} (hok : AllSteps step Guarded lua_newstate ops)
    (hrun : run step lua_newstate ops = some g) {i : ℕ} (hi : g.color (.string i) ≠ none) :
    (∀ j, g.color (.string j) ≠ none → g.content i = g.content j → i = j) ∧
      ∀ new, (luaS_newlstr g (g.content i) new).map Prod.snd = some i := by
  have hboth := run_invariant_of (I := fun g => Sound NoRef g ∧ Interned (strings g)) Guarded
    (fun _ _ _ hg hguard h => ⟨sound_step hg.1 hguard h, interned_step hg.1.shape hg.2 h⟩) hok hrun
    ⟨sound_lua_newstate, interned_lua_newstate⟩
  obtain ⟨hg, hinterned⟩ := hboth
  have hin : ∀ {i}, g.color (.string i) ≠ none → i ∈ g.strt.flatten := fun hi =>
    hg.shape.placed _ hi
  refine ⟨fun j hj hij => hinterned.unique i (hin hi) j (hin hj) hij, fun new => ?_⟩
  rw [luaS_newlstr, hinterned.findstr (hin hi)]
  rfl

/-- The names of the metamethods. -/
theorem strings_interned_run_closures :
    ∃ g, run step lua_newstate (closures ++ List.replicate 70 .singlestep) = some g ∧
      g.color (.string 2) ≠ none ∧
      (∀ j, g.color (.string j) ≠ none → g.content 2 = g.content j → 2 = j) ∧
      ∀ new, (luaS_newlstr g (g.content 2) new).map Prod.snd = some 2 := by
  obtain ⟨g, hrun, -, hne⟩ := run_closures_collected
  exact ⟨g, hrun, hne, strings_interned_run (guarded_closures _ 70) hrun hne⟩

end UnityLua.Collector
