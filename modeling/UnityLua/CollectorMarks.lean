import UnityLua.CollectorCycle

/-!
# Marking

Marking leaves the objects as they are. White objects become gray, and are then among those whose
references are to be marked, or black, and then all their references are marked; the others keep
their colour.

## Main results

* `Marks`: what marking may do; it composes.
* `reallymarkobject_marks`, `markvalue_marks`, `markobject_marks`.
-/

namespace UnityLua.Collector

open Library

variable {g g' g'' : State} {o : GCObject}

/-! ### Colours -/

/-- An object that is marked. -/
def nonwhite (g : State) (o : GCObject) : Prop :=
  g.color o = some .gray ∨ g.color o = some .black

/-- All references of an object are marked. -/
def scanned (g : State) (o : GCObject) : Prop := ∀ c ∈ refs g o, nonwhite g c

/-- No object refers to one that is not there. -/
def Whole (g : State) : Prop := ∀ o, g.color o ≠ none → ∀ c ∈ refs g o, g.color c ≠ none

/-- The objects that `gray` has: those whose references are marked later. -/
def traversable : GCObject → Prop
  | .function _ | .table _ | .thread _ | .proto _ => True
  | _ => False

theorem iswhite_iff : iswhite g o = true ↔ ∃ w, g.color o = some (.white w) := by
  rw [iswhite]
  split
  · next w hw => exact iff_of_true rfl ⟨w, hw⟩
  · next hw => exact iff_of_false Bool.false_ne_true fun ⟨w, h⟩ => hw w h

theorem nonwhite_or (h : g.color o ≠ none) : iswhite g o = true ∨ nonwhite g o := by
  rw [iswhite_iff, nonwhite]
  cases hc : g.color o with
  | none => exact absurd hc h
  | some c => cases c <;> simp

theorem not_nonwhite_of_iswhite (h : iswhite g o = true) : ¬nonwhite g o := by
  obtain ⟨w, hw⟩ := iswhite_iff.mp h
  rw [nonwhite, hw]
  simp

theorem nonwhite.ne_none (h : nonwhite g o) : g.color o ≠ none := by
  obtain h | h := h <;> rw [h] <;> simp

@[simp] theorem setcolor_color_self (g : State) (o : GCObject) (c : Colour) :
    (setcolor g o c).color o = (g.color o).map fun _ => c := Function.update_self ..

theorem setcolor_color_of_ne {x : GCObject} (h : x ≠ o) (c : Colour) :
    (setcolor g o c).color x = g.color x := Function.update_of_ne h ..

theorem setcolor_color_of_ne_none (h : g.color o ≠ none) (c : Colour) :
    (setcolor g o c).color o = some c := by
  obtain ⟨d, hd⟩ := Option.ne_none_iff_exists'.mp h
  rw [setcolor_color_self, hd, Option.map_some]

theorem setcolor_none (x : GCObject) (c : Colour) :
    (setcolor g o c).color x = none ↔ g.color x = none := by
  by_cases hx : x = o
  · subst hx
    rw [setcolor_color_self, Option.map_eq_none_iff]
  · rw [setcolor_color_of_ne hx]

theorem countP_lt_of_mem {α : Type} {p q : α → Bool} {l : List α} (hpq : ∀ x, p x = true → q x = true)
    {a : α} (ha : a ∈ l) (hp : p a = false) (hq : q a = true) : l.countP p < l.countP q := by
  obtain ⟨s, t, rfl⟩ := List.append_of_mem ha
  have hs : s.countP p ≤ s.countP q := List.countP_mono_left fun x _ => hpq x
  have ht : t.countP p ≤ t.countP q := List.countP_mono_left fun x _ => hpq x
  rw [List.countP_append, List.countP_append, List.countP_cons, List.countP_cons, hp, hq]
  simp only [Bool.false_eq_true, if_false, if_true]
  omega

/-- A colour other than white leaves fewer white objects. -/
theorem countP_iswhite_setcolor_le {c : Colour} (hc : iswhite g o = true ∨ c = .gray ∨ c = .black)
    (l : List GCObject) : l.countP (iswhite (setcolor g o c)) ≤ l.countP (iswhite g) := by
  refine List.countP_mono_left fun x _ hx => ?_
  by_cases hxo : x = o
  · subst hxo
    obtain hw | hc := hc
    · exact hw
    · obtain ⟨w, hw⟩ := iswhite_iff.mp hx
      rw [setcolor_color_self, Option.map_eq_some_iff] at hw
      obtain ⟨-, -, hw⟩ := hw
      obtain rfl | rfl := hc <;> cases hw
  · rwa [iswhite, setcolor_color_of_ne hxo] at hx

theorem countP_iswhite_setcolor_lt {c : Colour} (hw : iswhite g o = true)
    (hc : c = .gray ∨ c = .black) {l : List GCObject} (ho : o ∈ l) :
    l.countP (iswhite (setcolor g o c)) < l.countP (iswhite g) := by
  have hne : g.color o ≠ none := by
    obtain ⟨w, h⟩ := iswhite_iff.mp hw
    simp [h]
  refine countP_lt_of_mem (fun x hx => ?_) ho (Bool.eq_false_of_not_eq_true fun hx => ?_) hw
  · by_cases hxo : x = o
    · exact hxo ▸ hw
    · rwa [iswhite, setcolor_color_of_ne hxo] at hx
  · obtain ⟨w, hx⟩ := iswhite_iff.mp hx
    rw [setcolor_color_of_ne_none hne] at hx
    obtain rfl | rfl := hc <;> cases hx

/-! ### What marking may do -/

/-- `g'` is `g` after some objects were marked. -/
structure Marks (g g' : State) : Prop where
  eq : g' = { g with color := g'.color, gray := g'.gray }
  keep : ∀ o, nonwhite g o → g'.color o = g.color o
  absent : ∀ o, g.color o = none → g'.color o = none
  white : ∀ o, iswhite g o = true → nonwhite g' o ∨ g'.color o = g.color o
  gray_mem : ∀ o, o ∈ g.gray → o ∈ g'.gray
  mem_gray : ∀ o, o ∈ g'.gray → o ∈ g.gray ∨ traversable o ∧ g.color o ≠ none
  newgray : ∀ o, iswhite g o = true → g'.color o = some .gray → o ∈ g'.gray ∨
    (∃ i, o = .string i) ∨ ∃ u, o = .upval u ∧ isopen g u = true ∧ scanned g' o
  newblack : ∀ o, iswhite g o = true → g'.color o = some .black → scanned g' o ∧
    ((∃ u, o = .userdata u) ∨ ∃ u, o = .upval u ∧ isopen g u = false)
  /-- What comes to the gray objects was white. -/
  left : ∀ l : List GCObject, (∀ o, iswhite g o = true → o ∈ l) →
    g'.gray.length + l.countP (iswhite g') ≤ g.gray.length + l.countP (iswhite g)

namespace Marks

theorem refs (h : Marks g g') (o : GCObject) : Collector.refs g' o = Collector.refs g o := by
  rw [h.eq]
  cases o <;> rfl

theorem isopen (h : Marks g g') (u : ℕ) : Collector.isopen g' u = Collector.isopen g u := by
  rw [h.eq]
  rfl

theorem uvalue (h : Marks g g') (u : ℕ) : Collector.uvalue g' u = Collector.uvalue g u := by
  rw [h.eq]
  rfl

theorem nonwhite (h : Marks g g') (ho : nonwhite g o) : Collector.nonwhite g' o := by
  rw [Collector.nonwhite, h.keep o ho]
  exact ho

theorem scanned (h : Marks g g') (ho : scanned g o) : Collector.scanned g' o := by
  intro c hc
  rw [h.refs] at hc
  exact h.nonwhite (ho c hc)

theorem ne_none (h : Marks g g') (ho : g.color o ≠ none) : g'.color o ≠ none := by
  obtain hw | hn := nonwhite_or ho
  · obtain hn | heq := h.white o hw
    · exact hn.ne_none
    · rwa [heq]
  · exact (h.nonwhite hn).ne_none

theorem none_iff (h : Marks g g') : g'.color o = none ↔ g.color o = none :=
  ⟨fun ho => by_contra fun hne => h.ne_none hne ho, h.absent o⟩

theorem whole (h : Marks g g') (hg : Whole g) : Whole g' := by
  intro o ho c hc
  rw [h.refs] at hc
  exact h.ne_none (hg o (fun hnone => ho (h.absent o hnone)) c hc)

/-- What is white was white. -/
theorem iswhite (h : Marks g g') (ho : iswhite g' o = true) : Collector.iswhite g o = true := by
  by_cases hnone : g.color o = none
  · rw [Collector.iswhite, h.absent o hnone] at ho
    cases ho
  · refine (nonwhite_or hnone).resolve_right fun hn => ?_
    exact not_nonwhite_of_iswhite ho (h.nonwhite hn)

theorem refl (g : State) : Marks g g :=
  ⟨rfl, fun _ _ => rfl, fun _ h => h, fun _ _ => Or.inr rfl, fun _ h => h, fun _ h => Or.inl h,
    fun _ hw hg => absurd (Or.inl hg) (not_nonwhite_of_iswhite hw),
    fun _ hw hb => absurd (Or.inr hb) (not_nonwhite_of_iswhite hw), fun _ _ => le_rfl⟩

theorem trans (h : Marks g g') (h' : Marks g' g'') : Marks g g'' := by
  have hwhite' : ∀ {o}, Collector.iswhite g o = true → g'.color o = g.color o →
      Collector.iswhite g' o = true := fun {o} hw heq => by rwa [Collector.iswhite, heq]
  constructor
  case eq =>
    rw [h'.eq, h.eq]
  case keep => exact fun o ho => (h'.keep o (h.nonwhite ho)).trans (h.keep o ho)
  case absent => exact fun o ho => h'.absent o (h.absent o ho)
  case white =>
    intro o hw
    obtain hn | heq := h.white o hw
    · exact Or.inl (h'.nonwhite hn)
    · obtain hn | heq' := h'.white o (hwhite' hw heq)
      · exact Or.inl hn
      · exact Or.inr (heq'.trans heq)
  case gray_mem => exact fun _ ho => h'.gray_mem _ (h.gray_mem _ ho)
  case mem_gray =>
    intro o ho
    obtain ho | ⟨ht, hne⟩ := h'.mem_gray o ho
    · exact h.mem_gray o ho
    · exact Or.inr ⟨ht, fun hnone => hne (h.absent o hnone)⟩
  case newgray =>
    intro o hw hg
    obtain hn | heq := h.white o hw
    · have hcol := (h'.keep o hn).symm.trans hg
      obtain ho | hs | ⟨u, rfl, hopen, hscan⟩ := h.newgray o hw hcol
      · exact Or.inl (h'.gray_mem o ho)
      · exact Or.inr (Or.inl hs)
      · exact Or.inr (Or.inr ⟨u, rfl, hopen, h'.scanned hscan⟩)
    · obtain ho | hs | ⟨u, rfl, hopen, hscan⟩ := h'.newgray o (hwhite' hw heq) hg
      · exact Or.inl ho
      · exact Or.inr (Or.inl hs)
      · exact Or.inr (Or.inr ⟨u, rfl, h.isopen u ▸ hopen, hscan⟩)
  case newblack =>
    intro o hw hb
    obtain hn | heq := h.white o hw
    · have hcol := (h'.keep o hn).symm.trans hb
      obtain ⟨hscan, hkind⟩ := h.newblack o hw hcol
      exact ⟨h'.scanned hscan, hkind⟩
    · obtain ⟨hscan, hkind⟩ := h'.newblack o (hwhite' hw heq) hb
      refine ⟨hscan, hkind.imp_right ?_⟩
      rintro ⟨u, rfl, hopen⟩
      exact ⟨u, rfl, h.isopen u ▸ hopen⟩
  case left =>
    exact fun l hl => (h'.left l fun o ho => hl o (h.iswhite ho)).trans (h.left l hl)

/-- What is marked one after the other is marked at the end. -/
theorem foldl {α : Type} {f : State → α → State} {r : α → List GCObject}
    (hf : ∀ g a, Whole g → (∀ c ∈ r a, g.color c ≠ none) →
      Marks g (f g a) ∧ ∀ c ∈ r a, Collector.nonwhite (f g a) c)
    (l : List α) (g : State) (hwhole : Whole g)
    (hl : ∀ a ∈ l, ∀ c ∈ r a, g.color c ≠ none) :
    Marks g (l.foldl f g) ∧ ∀ a ∈ l, ∀ c ∈ r a, Collector.nonwhite (l.foldl f g) c := by
  induction l generalizing g with
  | nil => exact ⟨refl g, fun a ha => absurd ha List.not_mem_nil⟩
  | cons a l ih =>
      obtain ⟨hmarks, hdone⟩ := hf g a hwhole (hl a List.mem_cons_self)
      obtain ⟨hmarks', hdone'⟩ := ih (f g a) (hmarks.whole hwhole) fun b hb c hc =>
        hmarks.ne_none (hl b (List.mem_cons_of_mem _ hb) c hc)
      refine ⟨hmarks.trans hmarks', fun b hb c hc => ?_⟩
      obtain rfl | hb := List.mem_cons.mp hb
      · exact hmarks'.nonwhite (hdone c hc)
      · exact hdone' b hb c hc

end Marks

/-! ### The functions that mark -/

theorem linkgray_marks (hw : iswhite g o = true) (ht : traversable o) :
    Marks g (linkgray g o) := by
  obtain ⟨w, hcol⟩ := iswhite_iff.mp hw
  have hne : g.color o ≠ none := by simp [hcol]
  have hself : (linkgray g o).color o = some .gray := setcolor_color_of_ne_none hne _
  have hother : ∀ x, x ≠ o → (linkgray g o).color x = g.color x :=
    fun x hx => setcolor_color_of_ne hx _
  constructor
  case eq => rfl
  case keep =>
    intro x hx
    refine hother x ?_
    rintro rfl
    exact not_nonwhite_of_iswhite hw hx
  case absent =>
    intro x hx
    exact (setcolor_none x _).mpr hx
  case white =>
    intro x _
    by_cases hx : x = o
    · exact Or.inl (Or.inl (hx ▸ hself))
    · exact Or.inr (hother x hx)
  case gray_mem => exact fun x hx => List.mem_cons_of_mem _ hx
  case mem_gray =>
    intro x hx
    obtain rfl | hx := List.mem_cons.mp hx
    · exact Or.inr ⟨ht, hne⟩
    · exact Or.inl hx
  case newgray =>
    intro x hxw hxg
    by_cases hx : x = o
    · exact Or.inl (hx ▸ List.mem_cons_self)
    · rw [hother x hx] at hxg
      exact absurd (Or.inl hxg) (not_nonwhite_of_iswhite hxw)
  case newblack =>
    intro x hxw hxb
    by_cases hx : x = o
    · rw [hx, hself] at hxb
      cases hxb
    · rw [hother x hx] at hxb
      exact absurd (Or.inr hxb) (not_nonwhite_of_iswhite hxw)
  case left =>
    intro l hl
    have hlt : l.countP (iswhite (linkgray g o)) < l.countP (iswhite g) :=
      countP_iswhite_setcolor_lt hw (Or.inl rfl) (hl o hw)
    change g.gray.length + 1 + l.countP (iswhite (linkgray g o)) ≤ _
    omega

theorem marktable_marks (g : State) (t : ℕ) : Marks g (marktable g t) := by
  rw [marktable]
  split
  · next hw => exact linkgray_marks hw trivial
  · exact Marks.refl g

/-- A table that is there is marked afterwards. -/
theorem marktable_nonwhite {t : ℕ} (h : g.color (.table t) ≠ none) :
    nonwhite (marktable g t) (.table t) := by
  rw [marktable]
  split
  · exact Or.inl (setcolor_color_of_ne_none h _)
  · next hw => exact (nonwhite_or h).resolve_left hw

theorem markmeta_marks (g : State) (mt : Option ℕ) : Marks g (markmeta g mt) := by
  cases mt with
  | none => exact Marks.refl g
  | some t => exact marktable_marks g t

theorem markmeta_nonwhite {mt : Option ℕ} (ho : o ∈ mt.toList.map GCObject.table)
    (hne : g.color o ≠ none) : nonwhite (markmeta g mt) o := by
  obtain ⟨t, ht, rfl⟩ := List.mem_map.mp ho
  obtain rfl := Option.mem_toList.mp ht
  exact marktable_nonwhite hne

theorem setcolor_refs (g : State) (o x : GCObject) (c : Colour) :
    refs (setcolor g o c) x = refs g x := by
  cases x <;> rfl

theorem nonwhite_setcolor {x : GCObject} {c : Colour} (hc : c = .gray ∨ c = .black)
    (hx : nonwhite g x) : nonwhite (setcolor g o c) x := by
  by_cases hxo : x = o
  · subst hxo
    rw [nonwhite, setcolor_color_of_ne_none hx.ne_none]
    exact hc.imp (congrArg some) (congrArg some)
  · rwa [nonwhite, setcolor_color_of_ne hxo]

theorem setcolor_self {c : Colour} (h : g.color o = some c) : setcolor g o c = g := by
  rw [setcolor, h, Option.map_some, ← h, Function.update_eq_self]

/-- A white object is coloured, then others are marked, then it gets its last colour. -/
theorem marks_of_setcolor {c e : Colour} (hw : iswhite g o = true)
    (hc' : e = .gray ∨ e = .black) (h : Marks (setcolor g o c) g')
    (hgray : e = .gray → (∃ i, o = .string i) ∨
      ∃ u, o = .upval u ∧ isopen g u = true ∧ scanned (setcolor g' o e) o)
    (hblack : e = .black → scanned (setcolor g' o e) o ∧
      ((∃ u, o = .userdata u) ∨ ∃ u, o = .upval u ∧ isopen g u = false)) :
    Marks g (setcolor g' o e) := by
  obtain ⟨w, hcol⟩ := iswhite_iff.mp hw
  have hne : g.color o ≠ none := by simp [hcol]
  have hne' : g'.color o ≠ none := h.ne_none (by rwa [ne_eq, setcolor_none])
  have hself : (setcolor g' o e).color o = some e := setcolor_color_of_ne_none hne' _
  have hother : ∀ x, x ≠ o → (setcolor g' o e).color x = g'.color x :=
    fun x hx => setcolor_color_of_ne hx _
  have hfirst : ∀ x, x ≠ o → (setcolor g o c).color x = g.color x :=
    fun x hx => setcolor_color_of_ne hx _
  have hscan : ∀ x, scanned g' x → scanned (setcolor g' o e) x := fun x hx d hd => by
    rw [setcolor_refs] at hd
    exact nonwhite_setcolor hc' (hx d hd)
  have hwhite : ∀ x, x ≠ o → iswhite g x = true → iswhite (setcolor g o c) x = true :=
    fun x hx hxw => by rwa [iswhite, hfirst x hx]
  constructor
  case eq =>
    rw [setcolor, h.eq]
    rfl
  case keep =>
    intro x hx
    have hxo : x ≠ o := by
      rintro rfl
      exact not_nonwhite_of_iswhite hw hx
    rw [hother x hxo, h.keep x (by rwa [nonwhite, hfirst x hxo]), hfirst x hxo]
  case absent =>
    intro x hx
    rw [setcolor_none]
    exact h.absent x ((setcolor_none x c).mpr hx)
  case white =>
    intro x hxw
    by_cases hx : x = o
    · subst hx
      exact Or.inl (by rw [nonwhite, hself]; exact hc'.imp (congrArg some) (congrArg some))
    · rw [nonwhite, hother x hx, ← hfirst x hx]
      exact h.white x (hwhite x hx hxw)
  case gray_mem => exact h.gray_mem
  case mem_gray =>
    intro x hx
    obtain hx | ⟨ht, hne⟩ := h.mem_gray x hx
    · exact Or.inl hx
    · exact Or.inr ⟨ht, by rwa [ne_eq, setcolor_none] at hne⟩
  case newgray =>
    intro x hxw hxg
    by_cases hx : x = o
    · subst hx
      rw [hself] at hxg
      exact Or.inr (hgray (Option.some.inj hxg))
    · rw [hother x hx] at hxg
      obtain hm | hs | ⟨u, rfl, hopen, hs⟩ := h.newgray x (hwhite x hx hxw) hxg
      · exact Or.inl hm
      · exact Or.inr (Or.inl hs)
      · exact Or.inr (Or.inr ⟨u, rfl, hopen, hscan _ hs⟩)
  case newblack =>
    intro x hxw hxb
    by_cases hx : x = o
    · subst hx
      rw [hself] at hxb
      exact hblack (Option.some.inj hxb)
    · rw [hother x hx] at hxb
      obtain ⟨hs, hkind⟩ := h.newblack x (hwhite x hx hxw) hxb
      exact ⟨hscan _ hs, hkind⟩
  case left =>
    intro l hl
    have hsub : ∀ x, iswhite (setcolor g o c) x = true → x ∈ l := by
      intro x hx
      by_cases hxo : x = o
      · exact hxo ▸ hl o hw
      · exact hl x (by rwa [iswhite, hfirst x hxo] at hx)
    calc g'.gray.length + l.countP (iswhite (setcolor g' o e))
        ≤ g'.gray.length + l.countP (iswhite g') :=
          Nat.add_le_add_left (countP_iswhite_setcolor_le (Or.inr hc') l) _
      _ ≤ g.gray.length + l.countP (iswhite (setcolor g o c)) := h.left l hsub
      _ ≤ g.gray.length + l.countP (iswhite g) :=
          Nat.add_le_add_left (countP_iswhite_setcolor_le (Or.inl hw) l) _

theorem whole_setcolor (h : Whole g) (o : GCObject) (c : Colour) : Whole (setcolor g o c) := by
  intro x hx d hd
  rw [setcolor_refs] at hd
  rw [ne_eq, setcolor_none] at hx ⊢
  exact h x hx d hd

/-- A userdata is black at once, with its metatable and its environment marked. -/
theorem reallymarkvalue_userdata {u : ℕ} (hwhole : Whole g) (hne : g.color (.userdata u) ≠ none) :
    Marks (setcolor g (.userdata u) .black) (reallymarkvalue g (.userdata u)) ∧
      scanned (reallymarkvalue g (.userdata u)) (.userdata u) := by
  set g₁ := setcolor g (.userdata u) .black with hg₁
  have hne₁ : ∀ c ∈ refs g (.userdata u), g₁.color c ≠ none :=
    fun c hc => by rw [hg₁, ne_eq, setcolor_none]; exact hwhole _ hne c hc
  have heq : reallymarkvalue g (.userdata u) =
      marktable (markmeta g₁ (g.udata u).metatable) (g.udata u).env := rfl
  have hm := markmeta_marks g₁ (g.udata u).metatable
  have hm' := marktable_marks (markmeta g₁ (g.udata u).metatable) (g.udata u).env
  rw [heq]
  refine ⟨hm.trans hm', fun c hc => ?_⟩
  rw [(hm.trans hm').refs, setcolor_refs] at hc
  have hne := hne₁ c hc
  obtain hc | hc := List.mem_append.mp hc
  · exact hm'.nonwhite (markmeta_nonwhite hc hne)
  · obtain rfl := List.mem_singleton.mp hc
    exact marktable_nonwhite (hm.ne_none hne)

theorem reallymarkvalue_marks (hwhole : Whole g) (hw : iswhite g o = true)
    (hkind : ∀ u, o ≠ .upval u) : Marks g (reallymarkvalue g o) := by
  have hne : g.color o ≠ none := by
    obtain ⟨w, h⟩ := iswhite_iff.mp hw
    simp [h]
  cases o with
  | string i =>
      have h := marks_of_setcolor (c := .gray) (e := .gray) hw (Or.inl rfl)
        (Marks.refl _) (fun _ => Or.inl ⟨i, rfl⟩) nofun
      rwa [setcolor_self (setcolor_color_of_ne_none hne _)] at h
  | userdata u =>
      obtain ⟨hmarks, hscan⟩ := reallymarkvalue_userdata hwhole hne
      have hcol : (reallymarkvalue g (.userdata u)).color (.userdata u) = some .black := by
        have hself := setcolor_color_of_ne_none hne .black
        rw [hmarks.keep _ (Or.inr hself), hself]
      have heq := setcolor_self hcol
      have h := marks_of_setcolor (e := .black) hw (Or.inr rfl) hmarks nofun
        fun _ => ⟨by rwa [heq], Or.inl ⟨u, rfl⟩⟩
      rwa [heq] at h
  | upval u => exact absurd rfl (hkind u)
  | function i => exact linkgray_marks hw trivial
  | table i => exact linkgray_marks hw trivial
  | thread i => exact linkgray_marks hw trivial
  | proto i => exact linkgray_marks hw trivial

theorem gcvalue_ne_upval {v : TValue} (u : ℕ) : v.gcvalue ≠ some (.upval u) := by
  cases v <;> simp [TValue.gcvalue]

theorem markvalue_marks (hwhole : Whole g) (v : TValue) : Marks g (markvalue g v) := by
  rw [markvalue]
  split
  · next o ho =>
      split
      · next hw => exact reallymarkvalue_marks hwhole hw fun u hu => gcvalue_ne_upval u (hu ▸ ho)
      · exact Marks.refl g
  · exact Marks.refl g

theorem nonwhite_of_reallymarkvalue (hne : g.color o ≠ none) (hwhole : Whole g)
    (hkind : ∀ u, o ≠ .upval u) : nonwhite (reallymarkvalue g o) o := by
  have hgray : nonwhite (setcolor g o .gray) o := Or.inl (setcolor_color_of_ne_none hne _)
  cases o with
  | userdata u =>
      exact (reallymarkvalue_userdata hwhole hne).1.nonwhite
        (Or.inr (setcolor_color_of_ne_none hne _))
  | upval u => exact absurd rfl (hkind u)
  | _ => exact hgray

theorem markvalue_nonwhite (hwhole : Whole g) {v : TValue} (h : ∀ c ∈ v.refs, g.color c ≠ none) :
    ∀ c ∈ v.refs, nonwhite (markvalue g v) c := by
  intro c hc
  have hv : v.gcvalue = some c := Option.mem_toList.mp hc
  have hne := h c hc
  rw [markvalue, hv]
  dsimp only
  split
  · exact nonwhite_of_reallymarkvalue hne hwhole fun u hu => gcvalue_ne_upval u (hu ▸ hv)
  · next hw => exact (nonwhite_or hne).resolve_left hw

/-- `reallymarkobject` of any object. -/
theorem reallymarkobject_marks (hwhole : Whole g) (hw : iswhite g o = true) :
    Marks g (reallymarkobject g o) ∧ nonwhite (reallymarkobject g o) o := by
  have hne : g.color o ≠ none := by
    obtain ⟨w, h⟩ := iswhite_iff.mp hw
    simp [h]
  by_cases hkind : ∃ u, o = .upval u
  · obtain ⟨u, rfl⟩ := hkind
    have hwhole₁ := whole_setcolor hwhole (.upval u) .gray
    have hm := markvalue_marks hwhole₁ (uvalue g u)
    have hvalue : ∀ c ∈ refs g (.upval u),
        nonwhite (markvalue (setcolor g (.upval u) .gray) (uvalue g u)) c :=
      markvalue_nonwhite hwhole₁ fun c hc => by
        rw [ne_eq, setcolor_none]
        exact hwhole _ hne c hc
    have hscan : ∀ c', c' = .gray ∨ c' = .black → scanned (setcolor
        (markvalue (setcolor g (.upval u) .gray) (uvalue g u)) (.upval u) c') (.upval u) := by
      intro c' hc' c hc
      rw [setcolor_refs, hm.refs, setcolor_refs] at hc
      exact nonwhite_setcolor hc' (hvalue c hc)
    have hgray := setcolor_color_of_ne_none hne .gray
    have hcol := (hm.keep _ (Or.inl hgray)).trans hgray
    have hfold : reallymarkobject g (.upval u) =
        if isopen g u then markvalue (setcolor g (.upval u) .gray) (uvalue g u)
        else setcolor (markvalue (setcolor g (.upval u) .gray) (uvalue g u)) (.upval u) .black := by
      have hval : uvalue (setcolor g (.upval u) .gray) u = uvalue g u := rfl
      rw [reallymarkobject, hval, hm.isopen]
      rfl
    rw [hfold]
    split
    · next hopen =>
        have h := marks_of_setcolor (e := .gray) hw (Or.inl rfl) hm
          (fun _ => Or.inr ⟨u, rfl, hopen, hscan _ (Or.inl rfl)⟩) nofun
        rw [setcolor_self hcol] at h
        exact ⟨h, Or.inl hcol⟩
    · next hopen =>
        refine ⟨marks_of_setcolor hw (Or.inr rfl) hm nofun fun _ =>
          ⟨hscan _ (Or.inr rfl), Or.inr ⟨u, rfl, Bool.eq_false_of_not_eq_true hopen⟩⟩, Or.inr ?_⟩
        exact setcolor_color_of_ne_none (by rw [hcol]; simp) _
  · have hkind' : ∀ u, o ≠ .upval u := fun u hu => hkind ⟨u, hu⟩
    have heq : reallymarkobject g o = reallymarkvalue g o := by
      cases o with
      | upval u => exact absurd rfl (hkind' u)
      | _ => rfl
    rw [heq]
    exact ⟨reallymarkvalue_marks hwhole hw hkind',
      nonwhite_of_reallymarkvalue hne hwhole hkind'⟩

theorem markobject_marks (hwhole : Whole g) (o : GCObject) : Marks g (markobject g o) := by
  rw [markobject]
  split
  · next hw => exact (reallymarkobject_marks hwhole hw).1
  · exact Marks.refl g

theorem markobject_nonwhite (hwhole : Whole g) (hne : g.color o ≠ none) :
    nonwhite (markobject g o) o := by
  rw [markobject]
  split
  · next hw => exact (reallymarkobject_marks hwhole hw).2
  · next hw => exact (nonwhite_or hne).resolve_left hw

theorem foldl_markvalue_marks (hwhole : Whole g) {l : List TValue}
    (hvs : ∀ v ∈ l, ∀ c ∈ v.refs, g.color c ≠ none) :
    Marks g (l.foldl markvalue g) ∧ ∀ v ∈ l, ∀ c ∈ v.refs, nonwhite (l.foldl markvalue g) c :=
  Marks.foldl (fun _ v hwhole hv => ⟨markvalue_marks hwhole v, markvalue_nonwhite hwhole hv⟩) l g
    hwhole hvs

theorem foldl_markobject_marks (hwhole : Whole g) {l : List GCObject}
    (hos : ∀ o ∈ l, g.color o ≠ none) :
    Marks g (l.foldl markobject g) ∧ ∀ o ∈ l, nonwhite (l.foldl markobject g) o := by
  obtain ⟨hmarks, hdone⟩ := Marks.foldl (r := fun o => [o]) (fun g o hwhole ho =>
    ⟨markobject_marks hwhole o, fun c hc => by
      obtain rfl := List.mem_singleton.mp hc
      exact markobject_nonwhite hwhole (ho c hc)⟩) l g hwhole fun o ho c hc => by
    obtain rfl := List.mem_singleton.mp hc
    exact hos c ho
  exact ⟨hmarks, fun o ho => hdone o ho o (List.mem_singleton_self o)⟩

/-- The metatables of the types. -/
theorem markmt_marks (hwhole : Whole g)
    (hmt : ∀ mt ∈ g.mt, ∀ c ∈ mt.toList.map GCObject.table, g.color c ≠ none) :
    Marks g (markmt g) ∧
      ∀ mt ∈ g.mt, ∀ c ∈ mt.toList.map GCObject.table, nonwhite (markmt g) c :=
  Marks.foldl (fun g mt _ hmt => ⟨markmeta_marks g mt, fun c hc => markmeta_nonwhite hc (hmt c hc)⟩)
    g.mt g hwhole hmt

end UnityLua.Collector
