import UnityLua.CollectorMarks

/-!
# Tracing

One step of tracing takes an object from the gray ones and marks its references, but for the weak
ones of a weak table. When no gray object is left, whatever is marked has its references marked.

## Main results

* `propagatemark_spec`: one step.
* `propagateall_spec`: the loop comes to its end, and what is marked then is done.
-/

namespace UnityLua.Collector

open Library

variable {g g' : State} {o : GCObject}

/-! ### What is done -/

/-- The references of an object that are marked with it: a table that is known to be weak holds
only some. -/
def strongrefs (g : State) : GCObject → List GCObject
  | .table t =>
      if t ∈ g.weak then
        (g.table t).metatable.toList.map .table ++
          (strongvalues (g.table t) (g.weakbits t)).flatMap TValue.refs
      else (g.table t).refs
  | o => refs g o

/-- The strong references of an object are marked. -/
def done (g : State) (o : GCObject) : Prop := ∀ c ∈ strongrefs g o, nonwhite g c

theorem strongvalues_refs {t : Table} {weak : Bool × Bool} {c : GCObject}
    (hc : c ∈ (strongvalues t weak).flatMap TValue.refs) : c ∈ t.refs := by
  obtain ⟨v, hv, hcv⟩ := List.mem_flatMap.mp hc
  rw [strongvalues] at hv
  split at hv
  · cases hv
  · obtain hv | hv := List.mem_append.mp hv
    · split at hv
      · cases hv
      · exact List.mem_append_left _ (List.mem_append_right _
          (List.mem_flatMap.mpr ⟨v, List.mem_reverse.mp hv, hcv⟩))
    · obtain ⟨n, hn, hvn⟩ := List.mem_flatMap.mp hv
      refine List.mem_append_right _ (List.mem_flatMap.mpr ⟨n, List.mem_reverse.mp hn, ?_⟩)
      rw [Node.refs]
      split at hvn
      · cases hvn
      · next hval =>
          rw [if_neg hval]
          obtain hvn | hvn := List.mem_append.mp hvn
          · split at hvn
            · cases hvn
            · obtain rfl := List.mem_singleton.mp hvn
              exact List.mem_append_left _ hcv
          · split at hvn
            · cases hvn
            · obtain rfl := List.mem_singleton.mp hvn
              exact List.mem_append_right _ hcv

/-- A table that is not weak holds everything. -/
theorem refs_strongvalues {t : Table} {c : GCObject} (hc : c ∈ t.refs) :
    c ∈ t.metatable.toList.map .table ++ (strongvalues t (false, false)).flatMap TValue.refs := by
  obtain hc | hc := List.mem_append.mp hc
  · obtain hc | hc := List.mem_append.mp hc
    · exact List.mem_append_left _ hc
    · obtain ⟨v, hv, hcv⟩ := List.mem_flatMap.mp hc
      refine List.mem_append_right _ (List.mem_flatMap.mpr ⟨v, ?_, hcv⟩)
      simp [strongvalues, hv]
  · obtain ⟨n, hn, hcn⟩ := List.mem_flatMap.mp hc
    rw [Node.refs] at hcn
    split at hcn
    · cases hcn
    · next hval =>
        refine List.mem_append_right _ (List.mem_flatMap.mpr ?_)
        obtain hcn | hcn := List.mem_append.mp hcn
        · exact ⟨n.key, by simp [strongvalues]; exact Or.inr ⟨n, hn, by simp [hval]⟩, hcn⟩
        · exact ⟨n.val, by simp [strongvalues]; exact Or.inr ⟨n, hn, by simp [hval]⟩, hcn⟩

theorem strongrefs_subset {c : GCObject} (hc : c ∈ strongrefs g o) : c ∈ refs g o := by
  cases o with
  | table t =>
      rw [strongrefs] at hc
      split at hc
      · obtain hc | hc := List.mem_append.mp hc
        · exact List.mem_append_left _ (List.mem_append_left _ hc)
        · exact strongvalues_refs hc
      · exact hc
  | _ => exact hc

/-- Only tables are weak. -/
theorem strongrefs_of_ne (h : ∀ t, o ≠ .table t) : strongrefs g o = refs g o := by
  cases o with
  | table t => exact absurd rfl (h t)
  | _ => rfl

theorem done_of_scanned (h : scanned g o) : done g o := fun c hc => h c (strongrefs_subset hc)

/-! ### One object -/

theorem marks_withweak (h : Marks g g') (weak : List ℕ) (weakbits : ℕ → Bool × Bool) :
    Marks { g with weak := weak, weakbits := weakbits }
      { g' with weak := weak, weakbits := weakbits } := by
  have hrefs : ∀ x, refs { g' with weak := weak, weakbits := weakbits } x = refs g' x := fun x => by
    cases x <;> rfl
  have hscan : ∀ x, scanned g' x → scanned { g' with weak := weak, weakbits := weakbits } x :=
    fun x hx c hc => hx c (hrefs x ▸ hc)
  constructor
  case eq => rw [h.eq]
  case keep => exact h.keep
  case absent => exact h.absent
  case white => exact h.white
  case gray_mem => exact h.gray_mem
  case mem_gray => exact h.mem_gray
  case newgray =>
    intro x hw hx
    obtain hm | hs | ⟨u, rfl, hopen, hx⟩ := h.newgray x hw hx
    · exact Or.inl hm
    · exact Or.inr (Or.inl hs)
    · exact Or.inr (Or.inr ⟨u, rfl, hopen, hscan _ hx⟩)
  case newblack => exact fun x hw hx => (h.newblack x hw hx).imp_left (hscan x)
  case left => exact h.left

theorem weakmode_marks (h : Marks g g') (i : ℕ) : weakmode g' i = weakmode g i := by
  rw [h.eq]
  rfl

/-- The state in which the strong references of a table are marked. -/
def weakened (g : State) (i : ℕ) : State :=
  if (weakmode g i).1 || (weakmode g i).2 then
    { g with weakbits := Function.update g.weakbits i (weakmode g i), weak := i :: g.weak }
  else g

theorem weakened_refs (g : State) (i : ℕ) (x : GCObject) : refs (weakened g i) x = refs g x := by
  rw [weakened]
  split
  · cases x <;> rfl
  · rfl

@[simp] theorem weakened_color (g : State) (i : ℕ) : (weakened g i).color = g.color := by
  rw [weakened]
  split <;> rfl

theorem whole_of_refs (hwhole : Whole g) (hcolor : g'.color = g.color)
    (hrefs : ∀ x, refs g' x = refs g x) : Whole g' := by
  intro x hx c hc
  rw [hcolor] at hx ⊢
  rw [hrefs] at hc
  exact hwhole x hx c hc

theorem traversetable_spec (hwhole : Whole g) {i : ℕ} (hne : g.color (.table i) ≠ none) :
    (traversetable g i).2 = ((weakmode g i).1 || (weakmode g i).2) ∧
      Marks (weakened g i) (traversetable g i).1 ∧
      ∀ c ∈ (g.table i).metatable.toList.map GCObject.table ++
        (strongvalues (g.table i) (weakmode g i)).flatMap TValue.refs,
        nonwhite (traversetable g i).1 c := by
  have hm := markmeta_marks g (g.table i).metatable
  set g₁ := markmeta g (g.table i).metatable with hg₁
  have hmode : weakmode g₁ i = weakmode g i := weakmode_marks hm i
  have htable : g₁.table = g.table := by rw [hm.eq]
  have hfields : g₁.weak = g.weak ∧ g₁.weakbits = g.weakbits := by rw [hm.eq]; exact ⟨rfl, rfl⟩
  have heq : traversetable g i = ((strongvalues (g.table i) (weakmode g i)).foldl markvalue
      (weakened g₁ i), (weakmode g i).1 || (weakmode g i).2) := by
    rw [traversetable, ← hg₁, weakened, hmode]
    split <;> simp [htable]
  have hm₁ : Marks (weakened g i) (weakened g₁ i) := by
    rw [weakened, weakened, hmode]
    split
    · rw [hfields.1, hfields.2]
      exact marks_withweak hm _ _
    · exact hm
  have hwhole₁ : Whole (weakened g₁ i) :=
    whole_of_refs (hm.whole hwhole) (weakened_color ..) (weakened_refs g₁ i)
  have hvs : ∀ v ∈ strongvalues (g.table i) (weakmode g i), ∀ c ∈ v.refs,
      (weakened g₁ i).color c ≠ none := by
    intro v hv c hc
    rw [weakened_color]
    exact hm.ne_none (hwhole _ hne c (strongvalues_refs (List.mem_flatMap.mpr ⟨v, hv, hc⟩)))
  obtain ⟨hm₂, hdone⟩ := foldl_markvalue_marks hwhole₁ hvs
  rw [heq]
  refine ⟨rfl, hm₁.trans hm₂, fun c hc => ?_⟩
  obtain hc | hc := List.mem_append.mp hc
  · have hmeta : nonwhite g₁ c :=
      markmeta_nonwhite hc (hwhole _ hne c (List.mem_append_left _ (List.mem_append_left _ hc)))
    refine hm₂.nonwhite ?_
    rwa [nonwhite, weakened_color]
  · obtain ⟨v, hv, hcv⟩ := List.mem_flatMap.mp hc
    exact hdone v hv c hcv

/-- The objects of the other types hold all that they refer to. -/
theorem traverseclosure_spec (hwhole : Whole g) {i : ℕ} (hne : g.color (.function i) ≠ none) :
    Marks g (traverseclosure g i) ∧
      ∀ c ∈ refs g (.function i), nonwhite (traverseclosure g i) c := by
  have hall := hwhole _ hne
  rw [traverseclosure]
  change (∀ c ∈ (g.closure i).refs, _) at hall
  change _ ∧ ∀ c ∈ (g.closure i).refs, _
  cases hcl : g.closure i with
  | c env upvalue =>
      rw [hcl] at hall
      have hm := marktable_marks g env
      obtain ⟨hm', hdone⟩ := foldl_markvalue_marks (g := marktable g env) (l := upvalue)
        (hm.whole hwhole) fun v hv c hc => hm.ne_none (hall c
          (List.mem_cons_of_mem _ (List.mem_flatMap.mpr ⟨v, hv, hc⟩)))
      refine ⟨hm.trans hm', fun c hc => ?_⟩
      obtain rfl | hc := List.mem_cons.mp hc
      · exact hm'.nonwhite (marktable_nonwhite (hall _ List.mem_cons_self))
      · obtain ⟨v, hv, hcv⟩ := List.mem_flatMap.mp hc
        exact hdone v hv c hcv
  | lua env p upvals =>
      rw [hcl] at hall
      have hm := marktable_marks g env
      have hm₁ := markobject_marks (hm.whole hwhole) (.proto p)
      obtain ⟨hm₂, hdone⟩ := foldl_markobject_marks (l := upvals.map GCObject.upval)
        (hm₁.whole (hm.whole hwhole)) fun o ho => hm₁.ne_none (hm.ne_none (hall o
          (List.mem_cons_of_mem _ (List.mem_cons_of_mem _ ho))))
      refine ⟨(hm.trans hm₁).trans hm₂, fun c hc => ?_⟩
      obtain rfl | hc := List.mem_cons.mp hc
      · exact hm₂.nonwhite (hm₁.nonwhite (marktable_nonwhite (hall _ List.mem_cons_self)))
      · obtain rfl | hc := List.mem_cons.mp hc
        · exact hm₂.nonwhite (markobject_nonwhite (hm.whole hwhole)
            (hm.ne_none (hall _ (List.mem_cons_of_mem _ List.mem_cons_self))))
        · exact hdone c hc

theorem traverseproto_spec (hwhole : Whole g) {i : ℕ} (hne : g.color (.proto i) ≠ none) :
    Marks g (traverseproto g i) ∧ ∀ c ∈ refs g (.proto i), nonwhite (traverseproto g i) c := by
  obtain ⟨hm, hdone⟩ := foldl_markvalue_marks (l := g.proto i) hwhole fun v hv c hc =>
    hwhole _ hne c (List.mem_flatMap.mpr ⟨v, hv, hc⟩)
  refine ⟨hm, fun c hc => ?_⟩
  obtain ⟨v, hv, hcv⟩ := List.mem_flatMap.mp hc
  exact hdone v hv c hcv

theorem traversestack_spec (hwhole : Whole g) {i : ℕ} (hne : g.color (.thread i) ≠ none) :
    Marks g (traversestack g i) ∧ ∀ c ∈ refs g (.thread i), nonwhite (traversestack g i) c := by
  have hall := hwhole _ hne
  have hm := markvalue_marks hwhole (g.thread i).gt
  obtain ⟨hm', hdone⟩ := foldl_markvalue_marks (g := markvalue g (g.thread i).gt)
    (l := (g.thread i).stack) (hm.whole hwhole) fun v hv c hc => hm.ne_none (hall c
      (List.mem_append_right _ (List.mem_flatMap.mpr ⟨v, hv, hc⟩)))
  refine ⟨hm.trans hm', fun c hc => ?_⟩
  obtain hc | hc := List.mem_append.mp hc
  · exact hm'.nonwhite (markvalue_nonwhite hwhole
      (fun c hc => hall c (List.mem_append_left _ hc)) c hc)
  · obtain ⟨v, hv, hcv⟩ := List.mem_flatMap.mp hc
    exact hdone v hv c hcv

/-! ### A step of tracing -/

/-- The object `o` was taken from the gray ones, and is marked. -/
structure Popped (g : State) (o : GCObject) (b : State) : Prop where
  eq : b = { g with color := b.color, gray := b.gray, grayagain := b.grayagain, weak := b.weak,
                    weakbits := b.weakbits }
  gray : g.gray = o :: b.gray
  color : ∀ x, x ≠ o → b.color x = g.color x
  self : nonwhite b o
  grayagain : b.grayagain = g.grayagain ∨ b.grayagain = o :: g.grayagain
  weak : (b.weak = g.weak ∧ b.weakbits = g.weakbits) ∨ ∃ t, o = .table t ∧ b.weak = t :: g.weak ∧
    ∀ t', t' ≠ t → b.weakbits t' = g.weakbits t'

/-- The object is taken from the list and becomes black. -/
def pop (g : State) (o : GCObject) (gray : List GCObject) : State :=
  setcolor { g with gray := gray } o .black

theorem pop_popped {gray : List GCObject} (hgray : g.gray = o :: gray) (hne : g.color o ≠ none) :
    Popped g o (pop g o gray) :=
  ⟨rfl, hgray, fun _ hx => setcolor_color_of_ne hx _,
    Or.inr (setcolor_color_of_ne_none (g := { g with gray := gray }) hne _), Or.inl rfl,
    Or.inl ⟨rfl, rfl⟩⟩

theorem pop_refs (g : State) (o x : GCObject) (gray : List GCObject) :
    refs (pop g o gray) x = refs g x := by
  cases x <;> rfl

theorem pop_whole (hwhole : Whole g) (o : GCObject) (gray : List GCObject) :
    Whole (pop g o gray) := by
  intro x hx c hc
  rw [pop_refs] at hc
  rw [pop, ne_eq, setcolor_none] at hx ⊢
  exact hwhole x hx c hc

/-- What a step of tracing does. -/
structure Propagated (g : State) (o : GCObject) (g' : State) : Prop where
  /-- The object is taken from the list, others are marked, then it gets its colour. -/
  marks : ∃ b g₂ c, Popped g o b ∧ Marks b g₂ ∧ g' = setcolor g₂ o c ∧ (c = .gray ∨ c = .black)
  done : done g' o
  black : g'.color o = some .black → scanned g' o ∧ ∀ i, o ≠ .thread i
  gray : g'.color o = some .gray →
    (o ∈ g'.grayagain ∧ ∃ i, o = .thread i) ∨ ∃ t ∈ g'.weak, o = .table t

theorem propagatemark_spec (hwhole : Whole g) {gray : List GCObject} (hgray : g.gray = o :: gray)
    (ht : traversable o) (hne : g.color o ≠ none) : Propagated g o (propagatemark g) := by
  have hpop := pop_popped hgray hne
  have hwhole₁ := pop_whole hwhole o gray
  have hcol : (pop g o gray).color o = some .black :=
    setcolor_color_of_ne_none (g := { g with gray := gray }) hne _
  have hne₁ : (pop g o gray).color o ≠ none := by simp [hcol]
  -- a closure or a prototype: its references are marked, and it is black
  have hplain : ∀ g₂, (∀ i, o ≠ .thread i) → Marks (pop g o gray) g₂ →
      (∀ c ∈ refs (pop g o gray) o, nonwhite g₂ c) → Propagated g o g₂ := by
    intro g₂ hthread hm hdone
    have hblack : g₂.color o = some .black := by rw [hm.keep o (Or.inr hcol), hcol]
    have hscan : scanned g₂ o := fun c hc => hdone c (hm.refs o ▸ hc)
    refine ⟨⟨_, g₂, .black, hpop, hm, (setcolor_self hblack).symm, Or.inr rfl⟩,
      done_of_scanned hscan, fun _ => ⟨hscan, hthread⟩, fun hg => ?_⟩
    rw [hblack] at hg
    cases hg
  cases o with
  | string i => cases ht
  | userdata i => cases ht
  | upval i => cases ht
  | function i =>
      have heq : propagatemark g = traverseclosure (pop g (.function i) gray) i := by
        rw [propagatemark, hgray]
        rfl
      obtain ⟨hm, hdone⟩ := traverseclosure_spec hwhole₁ hne₁
      rw [heq]
      exact hplain _ (fun _ h => by cases h) hm hdone
  | proto i =>
      have heq : propagatemark g = traverseproto (pop g (.proto i) gray) i := by
        rw [propagatemark, hgray]
        rfl
      obtain ⟨hm, hdone⟩ := traverseproto_spec hwhole₁ hne₁
      rw [heq]
      exact hplain _ (fun _ h => by cases h) hm hdone
  | thread i =>
      set b : State := setcolor { pop g (.thread i) gray with
        grayagain := .thread i :: g.grayagain } (.thread i) .gray with hb
      have heq : propagatemark g = traversestack b i := by
        rw [propagatemark, hgray]
        rfl
      have hbcol : b.color (.thread i) = some .gray := setcolor_color_of_ne_none
        (g := { pop g (.thread i) gray with grayagain := .thread i :: g.grayagain }) hne₁ _
      have hbother : ∀ x, x ≠ .thread i → b.color x = g.color x := fun x hx =>
        (setcolor_color_of_ne (g := { pop g (.thread i) gray with
          grayagain := .thread i :: g.grayagain }) hx _).trans (hpop.color x hx)
      have hbpop : Popped g (.thread i) b :=
        ⟨rfl, hgray, hbother, Or.inl hbcol, Or.inr rfl, Or.inl ⟨rfl, rfl⟩⟩
      have hbrefs : ∀ x, refs b x = refs (pop g (.thread i) gray) x := fun x => by cases x <;> rfl
      have hbwhole : Whole b := by
        intro x hx c hc
        rw [hb, ne_eq, setcolor_none] at hx ⊢
        rw [hbrefs] at hc
        exact hwhole₁ x hx c hc
      obtain ⟨hm, hdone⟩ := traversestack_spec hbwhole (i := i) (by simp [hbcol])
      have hgraycol : (traversestack b i).color (.thread i) = some .gray := by
        rw [hm.keep _ (Or.inl hbcol), hbcol]
      have hscan : scanned (traversestack b i) (.thread i) :=
        fun c hc => hdone c (hm.refs _ ▸ hc)
      rw [heq]
      refine ⟨⟨b, _, .gray, hbpop, hm, (setcolor_self hgraycol).symm, Or.inl rfl⟩,
        done_of_scanned hscan, fun hblack => ?_, fun _ => Or.inl ⟨?_, i, rfl⟩⟩
      · rw [hgraycol] at hblack
        cases hblack
      · rw [hm.eq]
        exact List.mem_cons_self
  | table i =>
      obtain ⟨hweak, hm, hdone⟩ := traversetable_spec hwhole₁ (i := i) hne₁
      set r := traversetable (pop g (.table i) gray) i with hr
      set b := pop g (.table i) gray with hb
      have heq : propagatemark g = if r.2 then setcolor r.1 (.table i) .gray else r.1 := by
        rw [propagatemark, hgray]
        rfl
      have hwcol : (weakened b i).color = b.color := weakened_color b i
      have hrcol : r.1.color (.table i) = some .black := by
        rw [hm.keep _ (Or.inr (by rw [hwcol, hcol])), hwcol, hcol]
      rw [heq]
      cases hw : r.2 with
      | false =>
          rw [if_neg Bool.false_ne_true]
          have hb₁ : weakened b i = b := by
            rw [weakened, if_neg]
            rw [← hweak, hw]
            exact Bool.false_ne_true
          rw [hb₁] at hm
          refine hplain _ (fun _ h => by cases h) hm fun c hc => hdone c ?_
          have hmode : weakmode b i = (false, false) := by
            rw [hw] at hweak
            have := (Bool.or_eq_false_iff.mp hweak.symm)
            exact Prod.ext this.1 this.2
          rw [hmode]
          exact refs_strongvalues hc
      | true =>
          rw [if_pos rfl]
          have hb₁ : weakened b i = { b with
              weakbits := Function.update b.weakbits i (weakmode b i), weak := i :: b.weak } := by
            rw [weakened, if_pos]
            rw [← hweak, hw]
          have hwpop : Popped g (.table i) (weakened b i) := by
            rw [hb₁]
            exact ⟨rfl, hgray, hpop.color, hpop.self, Or.inl rfl,
              Or.inr ⟨i, rfl, rfl, fun t' ht' => Function.update_of_ne ht' ..⟩⟩
          have hrweak : r.1.weak = i :: g.weak ∧ r.1.weakbits i = weakmode b i ∧
              r.1.table i = b.table i := by
            rw [hm.eq, hb₁]
            exact ⟨rfl, Function.update_self .., rfl⟩
          have hgraycol : (setcolor r.1 (.table i) .gray).color (.table i) = some .gray :=
            setcolor_color_of_ne_none (by simp [hrcol]) _
          refine ⟨⟨weakened b i, r.1, .gray, hwpop, hm, rfl, Or.inl rfl⟩, fun c hc => ?_,
            fun hblack => ?_, fun _ => Or.inr ⟨i, ?_, rfl⟩⟩
          · refine nonwhite_setcolor (Or.inl rfl) (hdone c ?_)
            have hmem : i ∈ (setcolor r.1 (.table i) .gray).weak :=
              hrweak.1.symm ▸ List.mem_cons_self
            rw [strongrefs, if_pos hmem] at hc
            change c ∈ (r.1.table i).metatable.toList.map GCObject.table ++
              (strongvalues (r.1.table i) (r.1.weakbits i)).flatMap TValue.refs at hc
            rwa [hrweak.2.1, hrweak.2.2] at hc
          · rw [hgraycol] at hblack
            cases hblack
          · exact hrweak.1.symm ▸ List.mem_cons_self

/-! ### Tracing -/

/-- `g'` is `g` after some tracing. -/
structure Traces (g g' : State) : Prop where
  eq : g' = { g with color := g'.color, gray := g'.gray, grayagain := g'.grayagain,
                     weak := g'.weak, weakbits := g'.weakbits }
  nonwhite : ∀ o, nonwhite g o → nonwhite g' o
  none_iff : ∀ o, g'.color o = none ↔ g.color o = none
  white : ∀ o, iswhite g' o = true → g'.color o = g.color o
  grayagain : ∀ o ∈ g.grayagain, o ∈ g'.grayagain
  weak : ∀ t ∈ g.weak, t ∈ g'.weak

namespace Traces

theorem refl (g : State) : Traces g g :=
  ⟨rfl, fun _ h => h, fun _ => Iff.rfl, fun _ _ => rfl, fun _ h => h, fun _ h => h⟩

theorem refs (h : Traces g g') (o : GCObject) : Collector.refs g' o = Collector.refs g o := by
  rw [h.eq]
  cases o <;> rfl

theorem uvalue (h : Traces g g') (u : ℕ) : Collector.uvalue g' u = Collector.uvalue g u := by
  rw [h.eq]
  rfl

theorem isopen (h : Traces g g') (u : ℕ) : Collector.isopen g' u = Collector.isopen g u := by
  rw [h.eq]
  rfl

theorem objects (h : Traces g g') : Collector.objects g' = Collector.objects g := by
  rw [h.eq]
  rfl

theorem iswhite (h : Traces g g') (ho : iswhite g' o = true) : Collector.iswhite g o = true := by
  rw [Collector.iswhite, ← h.white o ho]
  exact ho

theorem whole (h : Traces g g') (hg : Whole g) : Whole g' := by
  intro o ho c hc
  rw [h.refs] at hc
  rw [ne_eq, h.none_iff] at ho ⊢
  exact hg o ho c hc

theorem scanned (h : Traces g g') (ho : scanned g o) : Collector.scanned g' o := by
  intro c hc
  rw [h.refs] at hc
  exact h.nonwhite c (ho c hc)

theorem trans {g'' : State} (h : Traces g g') (h' : Traces g' g'') : Traces g g'' := by
  refine ⟨?_, fun o ho => h'.nonwhite o (h.nonwhite o ho),
    fun o => (h'.none_iff o).trans (h.none_iff o), fun o ho => ?_,
    fun o ho => h'.grayagain o (h.grayagain o ho), fun t ht => h'.weak t (h.weak t ht)⟩
  · rw [h'.eq, h.eq]
  · exact (h'.white o ho).trans (h.white o (h'.iswhite ho))

end Traces

theorem traces_of_marks (h : Marks g g') : Traces g g' := by
  refine ⟨by rw [h.eq], fun _ => h.nonwhite, fun _ => h.none_iff, fun o ho => ?_,
    by rw [h.eq]; exact fun _ ho => ho, by rw [h.eq]; exact fun _ ht => ht⟩
  exact (h.white o (h.iswhite ho)).resolve_left (not_nonwhite_of_iswhite ho)

/-- The object is in one of the lists. -/
def Listed (g : State) (o : GCObject) : Prop :=
  o ∈ g.gray ∨ o ∈ g.grayagain ∨ ∃ t ∈ g.weak, o = .table t

/-- What holds whenever objects are marked. -/
structure Tidy (g : State) : Prop where
  whole : Whole g
  listed : ∀ o, Listed g o → traversable o ∧ g.color o ≠ none
  udata : ∀ u, g.color (.userdata u) ≠ some .gray
  thread : ∀ i, g.color (.thread i) ≠ some .black
  upval : ∀ u, isopen g u = true → g.color (.upval u) ≠ some .black

/-- What an object that is not the traversed one is like afterwards. -/
theorem marks_color_cases (h : Marks g g') (o : GCObject) :
    g'.color o = g.color o ∨
      iswhite g o = true ∧ g'.color o = some .gray ∧ (o ∈ g'.gray ∨ (∃ i, o = .string i) ∨
        ∃ u, o = .upval u ∧ isopen g u = true ∧ scanned g' o) ∨
      iswhite g o = true ∧ g'.color o = some .black ∧ scanned g' o ∧
        ((∃ u, o = .userdata u) ∨ ∃ u, o = .upval u ∧ isopen g u = false) := by
  by_cases hnone : g.color o = none
  · exact Or.inl ((h.absent o hnone).trans hnone.symm)
  · obtain hw | hn := nonwhite_or hnone
    · obtain (hg | hb) | heq := h.white o hw
      · exact Or.inr (Or.inl ⟨hw, hg, h.newgray o hw hg⟩)
      · exact Or.inr (Or.inr ⟨hw, hb, h.newblack o hw hb⟩)
      · exact Or.inl heq
    · exact Or.inl (h.keep o hn)

theorem tidy_of_marks (h : Marks g g') (hg : Tidy g) : Tidy g' := by
  have hlists : g'.grayagain = g.grayagain ∧ g'.weak = g.weak := by
    rw [h.eq]
    exact ⟨rfl, rfl⟩
  have hlisted : ∀ o, Listed g' o → traversable o ∧ g.color o ≠ none := by
    intro o ho
    rw [Listed, hlists.1, hlists.2] at ho
    obtain ho | ho := ho
    · obtain ho | ho := h.mem_gray o ho
      · exact hg.listed o (Or.inl ho)
      · exact ho
    · exact hg.listed o (Or.inr ho)
  constructor
  case whole => exact h.whole hg.whole
  case listed => exact fun o ho => (hlisted o ho).imp_right h.ne_none
  case udata =>
    intro u hu
    obtain heq | ⟨-, -, hin | ⟨i, hi⟩ | ⟨v, hv, -⟩⟩ | ⟨-, hb, -⟩ := marks_color_cases h (.userdata u)
    · exact hg.udata u (heq.symm.trans hu)
    · exact (hlisted _ (Or.inl hin)).1
    · cases hi
    · cases hv
    · rw [hu] at hb
      cases hb
  case thread =>
    intro i hi
    obtain heq | ⟨-, hgray, -⟩ | ⟨-, -, -, ⟨u, hu⟩ | ⟨u, hu, -⟩⟩ := marks_color_cases h (.thread i)
    · exact hg.thread i (heq.symm.trans hi)
    · rw [hi] at hgray
      cases hgray
    · cases hu
    · cases hu
  case upval =>
    intro u hopen hu
    rw [h.isopen] at hopen
    obtain heq | ⟨-, hgray, -⟩ | ⟨-, -, -, ⟨v, hv⟩ | ⟨v, hv, hclosed⟩⟩ := marks_color_cases h (.upval u)
    · exact hg.upval u hopen (heq.symm.trans hu)
    · rw [hu] at hgray
      cases hgray
    · cases hv
    · obtain rfl := GCObject.upval.inj hv
      rw [hopen] at hclosed
      cases hclosed

namespace Propagated

variable (h : Propagated g o g')

include h

theorem grayagain_mem {x : GCObject} (hx : x ∈ g.grayagain) : x ∈ g'.grayagain := by
  obtain ⟨b, g₂, c, hpop, hm, rfl, hc⟩ := h.marks
  have heq : (setcolor g₂ o c).grayagain = b.grayagain := by
    rw [setcolor, hm.eq]
  rw [heq]
  obtain heq | heq := hpop.grayagain
  · exact heq ▸ hx
  · exact heq ▸ List.mem_cons_of_mem _ hx

theorem weak_mem {t : ℕ} (ht : t ∈ g.weak) : t ∈ g'.weak := by
  obtain ⟨b, g₂, c, hpop, hm, rfl, hc⟩ := h.marks
  have heq : (setcolor g₂ o c).weak = b.weak := by
    rw [setcolor, hm.eq]
  rw [heq]
  obtain ⟨heq, -⟩ | ⟨t', -, heq, -⟩ := hpop.weak
  · exact heq ▸ ht
  · exact heq ▸ List.mem_cons_of_mem _ ht

theorem traces (hne : g.color o ≠ none) : Traces g g' := by
  obtain ⟨b, g₂, c, hpop, hm, rfl, hc⟩ := h.marks
  have hnw : ∀ x, nonwhite g x → nonwhite b x := fun x hx => by
    by_cases hxo : x = o
    · exact hxo ▸ hpop.self
    · rwa [nonwhite, hpop.color x hxo]
  have hnone : ∀ x, b.color x = none ↔ g.color x = none := fun x => by
    by_cases hxo : x = o
    · exact hxo ▸ iff_of_false hpop.self.ne_none hne
    · rw [hpop.color x hxo]
  constructor
  case eq =>
    rw [setcolor, hm.eq, hpop.eq]
  case nonwhite => exact fun x hx => nonwhite_setcolor hc (hm.nonwhite (hnw x hx))
  case none_iff => exact fun x => (setcolor_none x c).trans (hm.none_iff.trans (hnone x))
  case white =>
    intro x hx
    have hxo : x ≠ o := by
      rintro rfl
      refine not_nonwhite_of_iswhite hx (nonwhite_setcolor hc (hm.nonwhite hpop.self))
    rw [iswhite, setcolor_color_of_ne hxo] at hx
    rw [setcolor_color_of_ne hxo, (traces_of_marks hm).white x hx, hpop.color x hxo]
  case grayagain => exact fun x hx => h.grayagain_mem hx
  case weak => exact fun t ht => h.weak_mem ht

/-- What the other objects are like afterwards. -/
theorem color_cases {x : GCObject} (hx : x ≠ o) :
    g'.color x = g.color x ∨
      iswhite g x = true ∧ g'.color x = some .gray ∧ (x ∈ g'.gray ∨ (∃ i, x = .string i) ∨
        ∃ u, x = .upval u ∧ isopen g u = true ∧ scanned g' x) ∨
      iswhite g x = true ∧ g'.color x = some .black ∧ scanned g' x ∧
        ((∃ u, x = .userdata u) ∨ ∃ u, x = .upval u ∧ isopen g u = false) := by
  obtain ⟨b, g₂, c, hpop, hm, rfl, hc⟩ := h.marks
  have hscan : scanned g₂ x → scanned (setcolor g₂ o c) x := fun hs d hd => by
    rw [setcolor_refs] at hd
    exact nonwhite_setcolor hc (hs d hd)
  have hopen : ∀ u, isopen b u = isopen g u := fun u => by
    rw [hpop.eq]
    rfl
  rw [setcolor_color_of_ne hx]
  have hwhite : iswhite b x = true → iswhite g x = true := fun hw => by
    rwa [iswhite, hpop.color x hx] at hw
  obtain heq | ⟨hw, hgray, hin | hs | ⟨u, hxu, hu, hs⟩⟩ | ⟨hw, hb, hs, hkind⟩ :=
    marks_color_cases hm x
  · exact Or.inl (heq.trans (hpop.color x hx))
  · exact Or.inr (Or.inl ⟨hwhite hw, hgray, Or.inl hin⟩)
  · exact Or.inr (Or.inl ⟨hwhite hw, hgray, Or.inr (Or.inl hs)⟩)
  · exact Or.inr (Or.inl ⟨hwhite hw, hgray, Or.inr (Or.inr ⟨u, hxu, hopen u ▸ hu, hscan hs⟩)⟩)
  · refine Or.inr (Or.inr ⟨hwhite hw, hb, hscan hs, hkind.imp_right ?_⟩)
    rintro ⟨u, hxu, hu⟩
    exact ⟨u, hxu, hopen u ▸ hu⟩

theorem gray_mem {x : GCObject} (hx : x ∈ g.gray) (hxo : x ≠ o) : x ∈ g'.gray := by
  obtain ⟨b, g₂, c, hpop, hm, rfl, hc⟩ := h.marks
  rw [hpop.gray] at hx
  exact hm.gray_mem x ((List.mem_cons.mp hx).resolve_left hxo)

theorem tidy (hg : Tidy g) : Tidy g' := by
  have ho : Listed g o := by
    obtain ⟨b, -, -, hpop, -⟩ := h.marks
    exact Or.inl (hpop.gray ▸ List.mem_cons_self)
  have htr := h.traces (hg.listed o ho).2
  have hlisted : ∀ x, Listed g' x → traversable x ∧ g.color x ≠ none := by
    obtain ⟨b, g₂, c, hpop, hm, rfl, hc⟩ := h.marks
    have hlists : (setcolor g₂ o c).grayagain = b.grayagain ∧ (setcolor g₂ o c).weak = b.weak := by
      rw [setcolor, hm.eq]
      exact ⟨rfl, rfl⟩
    intro x hx
    rw [Listed, hlists.1, hlists.2] at hx
    obtain hx | hx | ⟨t, ht, rfl⟩ := hx
    · obtain hx | ⟨ht, hne⟩ := hm.mem_gray x hx
      · exact hg.listed x (Or.inl (hpop.gray ▸ List.mem_cons_of_mem _ hx))
      · refine ⟨ht, fun hnone => hne ?_⟩
        by_cases hxo : x = o
        · exact absurd hnone (hxo ▸ (hg.listed o ho).2)
        · rw [hpop.color x hxo, hnone]
    · obtain heq | heq := hpop.grayagain
      · exact hg.listed x (Or.inr (Or.inl (heq ▸ hx)))
      · rw [heq] at hx
        obtain rfl | hx := List.mem_cons.mp hx
        · exact hg.listed x ho
        · exact hg.listed x (Or.inr (Or.inl hx))
    · obtain ⟨heq, -⟩ | ⟨t', rfl, heq, -⟩ := hpop.weak
      · exact hg.listed _ (Or.inr (Or.inr ⟨t, heq ▸ ht, rfl⟩))
      · rw [heq] at ht
        obtain rfl | ht := List.mem_cons.mp ht
        · exact hg.listed _ ho
        · exact hg.listed _ (Or.inr (Or.inr ⟨t, ht, rfl⟩))
  constructor
  case whole => exact htr.whole hg.whole
  case listed =>
    intro x hx
    obtain ⟨ht, hne⟩ := hlisted x hx
    exact ⟨ht, fun hnone => hne ((htr.none_iff x).mp hnone)⟩
  case udata =>
    intro u hu
    by_cases hxo : GCObject.userdata u = o
    · exact (hxo ▸ (hg.listed o ho).1 : traversable (.userdata u))
    · obtain heq | ⟨-, -, hin | ⟨i, hi⟩ | ⟨v, hv, -⟩⟩ | ⟨-, hb, -⟩ := h.color_cases hxo
      · exact hg.udata u (heq.symm.trans hu)
      · exact (hlisted _ (Or.inl hin)).1
      · cases hi
      · cases hv
      · rw [hu] at hb
        cases hb
  case thread =>
    intro i hi
    by_cases hxo : GCObject.thread i = o
    · subst hxo
      exact (h.black hi).2 i rfl
    · obtain heq | ⟨-, hgray, -⟩ | ⟨-, -, -, ⟨u, hu⟩ | ⟨u, hu, -⟩⟩ := h.color_cases hxo
      · exact hg.thread i (heq.symm.trans hi)
      · rw [hi] at hgray
        cases hgray
      · cases hu
      · cases hu
  case upval =>
    intro u hopen hu
    rw [htr.isopen] at hopen
    by_cases hxo : GCObject.upval u = o
    · exact (hxo ▸ (hg.listed o ho).1 : traversable (.upval u))
    · obtain heq | ⟨-, hgray, -⟩ | ⟨-, -, -, ⟨v, hv⟩ | ⟨v, hv, hclosed⟩⟩ := h.color_cases hxo
      · exact hg.upval u hopen (heq.symm.trans hu)
      · rw [hu] at hgray
        cases hgray
      · cases hv
      · obtain rfl := GCObject.upval.inj hv
        rw [hopen] at hclosed
        cases hclosed

/-- One object less is left. -/
theorem left {l : List GCObject} (hl : ∀ x, iswhite g x = true → x ∈ l) :
    g'.gray.length + l.countP (iswhite g') < g.gray.length + l.countP (iswhite g) := by
  obtain ⟨b, g₂, c, hpop, hm, rfl, hc⟩ := h.marks
  have hsub : ∀ x, iswhite b x = true → iswhite g x = true := by
    intro x hx
    have hxo : x ≠ o := by
      rintro rfl
      exact not_nonwhite_of_iswhite hx hpop.self
    rwa [iswhite, hpop.color x hxo] at hx
  have hgray : (setcolor g₂ o c).gray = g₂.gray := rfl
  have hset : l.countP (iswhite (setcolor g₂ o c)) ≤ l.countP (iswhite g₂) :=
    countP_iswhite_setcolor_le (Or.inr hc) l
  have hleft := hm.left l fun x hx => hl x (hsub x hx)
  have hmono : l.countP (iswhite b) ≤ l.countP (iswhite g) :=
    List.countP_mono_left fun x _ => hsub x
  rw [hgray, hpop.gray, List.length_cons]
  omega

/-- What is done stays done. -/
theorem done_of_ne {x : GCObject} (hx : x ≠ o) (hne : g.color o ≠ none) (hd : Collector.done g x) :
    Collector.done g' x := by
  have htr := h.traces hne
  intro d hdx
  refine htr.nonwhite d (hd d ?_)
  obtain ⟨b, g₂, c, hpop, hm, rfl, hc⟩ := h.marks
  cases x with
  | table t =>
      have heqs : (setcolor g₂ o c).weak = b.weak ∧ (setcolor g₂ o c).weakbits = b.weakbits ∧
          (setcolor g₂ o c).table = g.table := by
        rw [setcolor, hm.eq, hpop.eq]
        exact ⟨rfl, rfl, rfl⟩
      rw [strongrefs, heqs.1, heqs.2.1, heqs.2.2] at hdx
      rw [strongrefs]
      obtain ⟨hw, hbits⟩ | ⟨t', rfl, hw, hbits⟩ := hpop.weak
      · rwa [hw, hbits] at hdx
      · have htt : t ≠ t' := fun heq => hx (heq ▸ rfl)
        have hmem : t ∈ b.weak ↔ t ∈ g.weak := by
          rw [hw, List.mem_cons, or_iff_right htt]
        simp only [hmem, hbits t htt] at hdx
        exact hdx
  | _ =>
      rw [strongrefs_of_ne (by simp), htr.refs] at hdx
      rwa [strongrefs_of_ne (by simp)]

end Propagated

/-! ### All of them -/

/-- What is marked is done, is gray and in the list of those that are left, or is one of `P`. -/
def Traced (P : GCObject → Prop) (g : State) : Prop :=
  ∀ o, nonwhite g o → o ∈ g.gray ∨ P o ∨ done g o

theorem strongrefs_marks (h : Marks g g') (o : GCObject) : strongrefs g' o = strongrefs g o := by
  cases o with
  | table t =>
      rw [h.eq]
      rfl
  | _ => rw [strongrefs_of_ne (by simp), strongrefs_of_ne (by simp), h.refs]

theorem traced_of_marks {P : GCObject → Prop} (h : Marks g g') (hP : Traced P g) : Traced P g' := by
  intro x hx
  obtain heq | ⟨-, -, hin | ⟨i, rfl⟩ | ⟨u, rfl, -, hs⟩⟩ | ⟨-, -, hs, -⟩ := marks_color_cases h x
  · rw [nonwhite, heq] at hx
    obtain hin | hPx | hd := hP x hx
    · exact Or.inl (h.gray_mem x hin)
    · exact Or.inr (Or.inl hPx)
    · refine Or.inr (Or.inr fun c hc => h.nonwhite (hd c ?_))
      rwa [strongrefs_marks h] at hc
  · exact Or.inl hin
  · exact Or.inr (Or.inr fun c hc => absurd hc List.not_mem_nil)
  · exact Or.inr (Or.inr (done_of_scanned hs))
  · exact Or.inr (Or.inr (done_of_scanned hs))

theorem traced_of_propagated {P : GCObject → Prop} (h : Propagated g o g') (hne : g.color o ≠ none)
    (hP : Traced P g) : Traced P g' := by
  intro x hx
  by_cases hxo : x = o
  · exact Or.inr (Or.inr (hxo ▸ h.done))
  obtain heq | ⟨-, -, hin | ⟨i, rfl⟩ | ⟨u, rfl, -, hs⟩⟩ | ⟨-, -, hs, -⟩ := h.color_cases hxo
  · rw [nonwhite, heq] at hx
    obtain hin | hPx | hd := hP x hx
    · exact Or.inl (h.gray_mem hin hxo)
    · exact Or.inr (Or.inl hPx)
    · exact Or.inr (Or.inr (h.done_of_ne hxo hne hd))
  · exact Or.inl hin
  · exact Or.inr (Or.inr fun c hc => absurd hc List.not_mem_nil)
  · exact Or.inr (Or.inr (done_of_scanned hs))
  · exact Or.inr (Or.inr (done_of_scanned hs))

theorem propagatemark_of_tidy (hg : Tidy g) (hgray : g.gray ≠ []) :
    ∃ o, Propagated g o (propagatemark g) ∧ g.color o ≠ none := by
  obtain ⟨o, gray, hcons⟩ := List.exists_cons_of_ne_nil hgray
  obtain ⟨ht, hne⟩ := hg.listed o (Or.inl (hcons ▸ List.mem_cons_self))
  exact ⟨o, propagatemark_spec hg.whole hcons ht hne, hne⟩

/-- The loop ends with no gray object left. -/
theorem propagate_spec {P : GCObject → Prop} {rounds : ℕ} {l : List GCObject} (hg : Tidy g)
    (hl : ∀ x, iswhite g x = true → x ∈ l)
    (hrounds : g.gray.length + l.countP (iswhite g) ≤ rounds) (hP : Traced P g) :
    Traces g (propagate rounds g) ∧ Tidy (propagate rounds g) ∧ Traced P (propagate rounds g) ∧
      (propagate rounds g).gray = [] := by
  induction rounds generalizing g with
  | zero =>
      have hnil : g.gray = [] := List.length_eq_zero_iff.mp (by omega)
      exact ⟨Traces.refl g, hg, hP, hnil⟩
  | succ rounds ih =>
      rw [propagate]
      split
      · next hnil => exact ⟨Traces.refl g, hg, hP, hnil⟩
      · next hgray =>
          obtain ⟨o, h, hne⟩ := propagatemark_of_tidy hg hgray
          have htr := h.traces hne
          have hleft := h.left hl
          obtain ⟨htr', htidy, hP', hnil⟩ := ih (h.tidy hg) (fun x hx => hl x (htr.iswhite hx))
            (by omega) (traced_of_propagated h hne hP)
          exact ⟨htr.trans htr', htidy, hP', hnil⟩

/-- **All that is gray is traced.** -/
theorem propagateall_spec {P : GCObject → Prop} (hg : Tidy g)
    (hall : ∀ x, g.color x ≠ none → x ∈ objects g) (hP : Traced P g) :
    Traces g (propagateall g) ∧ Tidy (propagateall g) ∧ Traced P (propagateall g) ∧
      (propagateall g).gray = [] := by
  refine propagate_spec hg (fun x hx => hall x ?_) le_rfl hP
  obtain ⟨w, hw⟩ := iswhite_iff.mp hx
  simp [hw]

end UnityLua.Collector
