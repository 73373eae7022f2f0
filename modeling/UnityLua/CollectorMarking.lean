import UnityLua.CollectorWrites

/-!
# Marking between the steps of the program

What marking and tracing do to the invariant, and the barriers, which mark objects too.

## Main results

* `sound_of_marks`, `sound_propagatemark`: marking and one step of tracing.
* `sound_objbarrier`, `sound_barriert`: the barriers behind a write.
-/

namespace UnityLua.Collector

open Library

variable {E E' D : GCObject → GCObject → Prop} {g g' : State} {o : GCObject}

/-! ### Tracing keeps the invariant -/

theorem shape_of_traces (h : Traces g g') (hg : Shape g) : Shape g' := by
  have heq := h.eq
  refine shape_congr hg h.none_iff ?_ ?_ ?_ ?_ ?_ ?_ ?_ ?_ ?_ ?_
  all_goals rw [heq]
  rfl

theorem live_of_ne_none (hnodead : ∀ o, g.color o ≠ some (.white (!g.currentwhite)))
    (ho : g.color o ≠ none) : live g o := ⟨ho, hnodead o⟩

theorem nonwhite.live (h : nonwhite g o) : live g o := by
  obtain h | h := h <;> exact ⟨by simp [h], by simp [h]⟩

theorem tidy_of_tricolour (hg : Sound E g) (hcol : Tricolour E' g) : Tidy g :=
  ⟨hg.whole hcol.nodead, hcol.listed, hg.udata, hg.thread, hg.upval⟩

/-- The colours after tracing. -/
theorem tricolour_of_traces (h : Traces g g') (hg : Tricolour E g) (htidy : Tidy g')
    (hblack : ∀ o, g'.color o = some .black → g.color o = some .black ∨ scanned g' o)
    (hgray : ∀ o, g'.color o = some .gray →
      Listed g' o ∨ (∃ i, o = .string i) ∨ ∃ u, o = .upval u ∧ isopen g' u = true) :
    Tricolour E g' := by
  have hfields : g'.currentwhite = g.currentwhite ∧ g'.tmudata = g.tmudata := by
    rw [h.eq]
    exact ⟨rfl, rfl⟩
  constructor
  case nodead =>
    intro o ho
    rw [hfields.1] at ho
    have heq := h.white o (iswhite_iff.mpr ⟨_, ho⟩)
    exact hg.nodead o (heq.symm.trans ho)
  case listed => exact htidy.listed
  case black =>
    intro o ho
    obtain hb | hs := hblack o ho
    · rw [hfields.2]
      refine (hg.black o hb).imp_right fun hrefs c hc => ?_
      rw [h.refs] at hc
      exact (hrefs c hc).imp_left (h.nonwhite c)
    · exact Or.inr fun c hc => Or.inl (hs c hc)
  case gray => exact hgray

/-- The invariant after tracing. -/
theorem sound_of_traces (h : Traces g g') (hstate : g.gcstate = .propagate) (hg : Sound E g)
    (htidy : Tidy g') (hcol : Tricolour E g') : Sound E g' := by
  have hfields : g'.gcstate = g.gcstate ∧ g'.registry = g.registry ∧
      g'.mainthread = g.mainthread ∧ g'.mt = g.mt ∧ g'.tmudata = g.tmudata := by
    rw [h.eq]
    exact ⟨rfl, rfl, rfl, rfl, rfl⟩
  obtain ⟨hstate', hregistry, hmain, hmt, htmudata⟩ := hfields
  have hmarking : Marking E g := by
    have hcol := hg.coloured
    rwa [Coloured, hstate] at hcol
  have hlive : ∀ o, live g o → live g' o := fun o ho =>
    live_of_ne_none hcol.nodead fun hnone => ho.1 ((h.none_iff o).mp hnone)
  constructor
  case shape => exact shape_of_traces h hg.shape
  case closed => exact fun o ho c hc => live_of_ne_none hcol.nodead (htidy.whole o ho.1 c hc)
  case main => rw [hmain]; exact hlive _ hg.main
  case registry => rw [hregistry]; exact fun c hc => hlive c (hg.registry c hc)
  case mt => rw [hmt]; exact fun c hc => hlive c (hg.mt c hc)
  case tmudata => rw [htmudata]; exact fun u hu => hlive _ (hg.tmudata u hu)
  case udata => exact htidy.udata
  case thread => exact htidy.thread
  case upval => exact htidy.upval
  case coloured =>
    rw [Coloured, hstate', hstate]
    refine ⟨hcol, ?_, ?_⟩
    · rw [hmain]
      exact h.nonwhite _ hmarking.main
    · rw [hregistry]
      exact fun c hc => h.nonwhite c (hmarking.registry c hc)

theorem tricolour_of_marks (h : Marks g g') (htidy : Tidy g) (hg : Tricolour E g) :
    Tricolour E g' := by
  have hlisted : ∀ o, Listed g o → Listed g' o := by
    have hlists : g'.grayagain = g.grayagain ∧ g'.weak = g.weak := by
      rw [h.eq]
      exact ⟨rfl, rfl⟩
    intro o ho
    rw [Listed, hlists.1, hlists.2]
    exact ho.imp_left (h.gray_mem o)
  refine tricolour_of_traces (traces_of_marks h) hg (tidy_of_marks h htidy) (fun o ho => ?_)
    fun o ho => ?_
  · obtain heq | ⟨-, hgray, -⟩ | ⟨-, -, hs, -⟩ := marks_color_cases h o
    · exact Or.inl (heq.symm.trans ho)
    · rw [ho] at hgray
      cases hgray
    · exact Or.inr hs
  · obtain heq | ⟨-, -, hin | hs | ⟨u, rfl, hu, -⟩⟩ | ⟨-, hb, -⟩ := marks_color_cases h o
    · refine (hg.gray o (heq.symm.trans ho)).imp (hlisted o) (Or.imp_right ?_)
      rintro ⟨u, rfl, hu⟩
      exact ⟨u, rfl, (h.isopen u).trans hu⟩
    · exact Or.inl (Or.inl hin)
    · exact Or.inr (Or.inl hs)
    · exact Or.inr (Or.inr ⟨u, rfl, (h.isopen u).trans hu⟩)
    · rw [ho] at hb
      cases hb

theorem marking_of_sound (hstate : g.gcstate = .propagate) (hg : Sound E g) : Marking E g := by
  have hcol := hg.coloured
  rwa [Coloured, hstate] at hcol

/-- **Marking between two steps.** -/
theorem sound_of_marks (h : Marks g g') (hstate : g.gcstate = .propagate) (hg : Sound E g) :
    Sound E g' := by
  have hcol := (marking_of_sound hstate hg).toTricolour
  have htidy := tidy_of_tricolour hg hcol
  exact sound_of_traces (traces_of_marks h) hstate hg (tidy_of_marks h htidy)
    (tricolour_of_marks h htidy hcol)

/-- **One step of tracing.** -/
theorem sound_propagatemark (hstate : g.gcstate = .propagate) (hgray : g.gray ≠ [])
    (hg : Sound E g) : Sound E (propagatemark g) := by
  have hcol := (marking_of_sound hstate hg).toTricolour
  have htidy := tidy_of_tricolour hg hcol
  obtain ⟨o, h, hne⟩ := propagatemark_of_tidy htidy hgray
  have htr := h.traces hne
  refine sound_of_traces htr hstate hg (h.tidy htidy)
    (tricolour_of_traces htr hcol (h.tidy htidy) (fun x hx => ?_) fun x hx => ?_)
  · by_cases hxo : x = o
    · exact Or.inr (hxo ▸ (h.black (hxo ▸ hx)).1)
    · obtain heq | ⟨-, hg, -⟩ | ⟨-, -, hs, -⟩ := h.color_cases hxo
      · exact Or.inl (heq.symm.trans hx)
      · rw [hx] at hg
        cases hg
      · exact Or.inr hs
  · by_cases hxo : x = o
    · obtain ⟨hin, -⟩ | ⟨t, ht, ho⟩ := h.gray (hxo ▸ hx)
      · exact Or.inl (Or.inr (Or.inl (hxo ▸ hin)))
      · exact Or.inl (Or.inr (Or.inr ⟨t, ht, hxo ▸ ho⟩))
    · obtain heq | ⟨-, -, hin | hs | ⟨u, hu, hopen, -⟩⟩ | ⟨-, hb, -⟩ := h.color_cases hxo
      · obtain (hin | hin | ⟨t, ht, heqt⟩) | hs | ⟨u, hu, hopen⟩ :=
          hcol.gray x (heq.symm.trans hx)
        · exact Or.inl (Or.inl (h.gray_mem hin hxo))
        · exact Or.inl (Or.inr (Or.inl (h.grayagain_mem hin)))
        · exact Or.inl (Or.inr (Or.inr ⟨t, h.weak_mem ht, heqt⟩))
        · exact Or.inr (Or.inl hs)
        · exact Or.inr (Or.inr ⟨u, hu, (htr.isopen u).trans hopen⟩)
      · exact Or.inl (Or.inl hin)
      · exact Or.inr (Or.inl hs)
      · exact Or.inr (Or.inr ⟨u, hu, (htr.isopen u).trans hopen⟩)
      · rw [hx] at hb
        cases hb

/-! ### Another colour for one object -/

/-- An object gets another colour, and more are looked at again. -/
def recolour (g : State) (o : GCObject) (c : Colour) (again : List GCObject) : State :=
  { setcolor g o c with grayagain := again }

theorem recolour_color_of_ne {x : GCObject} (hx : x ≠ o) (c : Colour) (again : List GCObject) :
    (recolour g o c again).color x = g.color x := setcolor_color_of_ne hx c

theorem recolour_none (x : GCObject) (c : Colour) (again : List GCObject) :
    (recolour g o c again).color x = none ↔ g.color x = none := setcolor_none x c

theorem recolour_refs (g : State) (o x : GCObject) (c : Colour) (again : List GCObject) :
    refs (recolour g o c again) x = refs g x := by
  cases x <;> rfl

theorem shape_recolour (hg : Shape g) (o : GCObject) (c : Colour) (again : List GCObject) :
    Shape (recolour g o c again) :=
  shape_congr hg (fun x => recolour_none x c again) rfl rfl rfl rfl rfl rfl rfl rfl rfl rfl

theorem live_recolour {c : Colour} (hne : g.color o ≠ none) (hc : c ≠ .white (!g.currentwhite))
    (again : List GCObject) (x : GCObject) (hx : live g x ∨ x = o) :
    live (recolour g o c again) x := by
  by_cases hxo : x = o
  · subst hxo
    have hcol : (recolour g x c again).color x = some c := setcolor_color_of_ne_none hne c
    rw [live, hcol]
    exact ⟨by simp, fun h => hc (Option.some.inj h)⟩
  · rw [live, recolour_color_of_ne hxo]
    exact hx.resolve_right hxo

/-- The object becomes gray or gets the current white. -/
theorem sound_recolour {c : Colour} {a : List GCObject} (hg : Sound E g)
    (hne : g.color o ≠ none) (hrefs : ∀ d ∈ refs g o, live g d)
    (hc : c = .gray ∨ c = .white g.currentwhite) (hgray : c = .gray → ∀ u, o ≠ .userdata u)
    (hcol : Coloured E (recolour g o c a)) : Sound E (recolour g o c a) := by
  have hdead : c ≠ .white (!g.currentwhite) := by
    obtain rfl | rfl := hc <;> simp
  have hblack : c ≠ .black := by
    obtain rfl | rfl := hc <;> simp
  have hlive := live_recolour hne hdead a
  have hnotblack : ∀ x, (recolour g o c a).color x = some .black → g.color x = some .black := by
    intro x hx
    by_cases hxo : x = o
    · subst hxo
      have hcol : (recolour g x c a).color x = some c := setcolor_color_of_ne_none hne c
      rw [hcol] at hx
      exact absurd (Option.some.inj hx) hblack
    · rwa [recolour_color_of_ne hxo] at hx
  constructor
  case shape => exact shape_recolour hg.shape o c a
  case closed =>
    intro x hx d hd
    rw [recolour_refs] at hd
    by_cases hxo : x = o
    · exact hlive d (Or.inl (hrefs d (hxo ▸ hd)))
    · rw [live, recolour_color_of_ne hxo] at hx
      exact hlive d (Or.inl (hg.closed x hx d hd))
  case main => exact hlive _ (Or.inl hg.main)
  case registry => exact fun d hd => hlive d (Or.inl (hg.registry d hd))
  case mt => exact fun d hd => hlive d (Or.inl (hg.mt d hd))
  case tmudata => exact fun u hu => hlive _ (Or.inl (hg.tmudata u hu))
  case udata =>
    intro u hu
    by_cases huo : GCObject.userdata u = o
    · subst huo
      have hcol : (recolour g (.userdata u) c a).color (.userdata u) = some c :=
        setcolor_color_of_ne_none hne c
      rw [hcol] at hu
      exact hgray (Option.some.inj hu) u rfl
    · rw [recolour_color_of_ne huo] at hu
      exact hg.udata u hu
  case thread => exact fun i hi => hg.thread i (hnotblack _ hi)
  case upval => exact fun u hopen hu => hg.upval u hopen (hnotblack _ hu)
  case coloured => exact hcol

theorem clean_recolour {again : List GCObject} {x : GCObject} (hx : clean g x) :
    clean (recolour g o (.white g.currentwhite) again) x := by
  by_cases hxo : x = o
  · subst hxo
    obtain hx | hx := hx
    · exact Or.inl ((recolour_none _ _ _).mpr hx)
    · exact Or.inr (setcolor_color_of_ne_none (by simp [hx]) _)
  · rw [clean, recolour_color_of_ne hxo]
    exact hx

/-- What is swept stays so where the object is not among it. -/
theorem coloured_recolour {c : Colour} {again : List GCObject} (hg : Coloured E g)
    (hmarking : g.gcstate = .propagate → Marking E (recolour g o c again))
    (hclean : ∀ x, clean g x → clean (recolour g o c again) x) :
    Coloured E (recolour g o c again) := by
  refine coloured_of_clean hg rfl hmarking hclean rfl rfl rfl rfl fun x _ hne d hd => ?_
  rw [ne_eq, recolour_none] at hne
  exact Or.inl ⟨hne, by cases x <;> exact hd⟩

theorem recolour_white (g : State) (o : GCObject) :
    recolour g o (.white g.currentwhite) g.grayagain = makewhite g o := rfl

/-- The object becomes white while nothing is marked; a dead one is live again. -/
theorem sound_makewhite (hstate : g.gcstate ≠ .propagate) (hg : Sound E g)
    (hne : g.color o ≠ none) (hrefs : ∀ d ∈ refs g o, live g d) : Sound E (makewhite g o) := by
  rw [← recolour_white]
  exact sound_recolour hg hne hrefs (Or.inr rfl) (fun h => by cases h)
    (coloured_recolour hg.coloured (fun h => absurd h hstate) fun x => clean_recolour)

/-! ### The barriers -/

theorem live.nonwhite_of_notwhite (h : live g o) (hw : iswhite g o = false) : nonwhite g o :=
  (nonwhite_or h.1).resolve_left (by simp [hw])

/-- **`luaC_objbarrier`.** -/
theorem sound_objbarrier {p : GCObject} (hp : live g p) (ho : live g o)
    (hg : Sound (fun x c => x = p ∧ c = o) g) : Sound NoRef (luaC_objbarrier g p o) := by
  rw [luaC_objbarrier]
  split
  · next hbarrier =>
      rw [Bool.and_eq_true] at hbarrier
      rw [luaC_barrierf]
      split
      · next hstate =>
          have hcol := marking_of_sound hstate hg
          obtain ⟨hm, hdone⟩ := reallymarkobject_marks (hg.whole hcol.nodead) hbarrier.1
          refine (sound_of_marks hm hstate hg).mono ?_
          rintro x c ⟨rfl, rfl⟩ -
          exact Or.inl hdone
      · next hstate =>
          refine (sound_makewhite hstate hg hp.1 (hg.closed p hp)).mono ?_
          rintro x c ⟨rfl, rfl⟩ hb
          have hcol : (makewhite g x).color x = some (.white g.currentwhite) :=
            setcolor_color_of_ne_none hp.1 _
          rw [hcol] at hb
          cases hb
  · next hbarrier =>
      refine hg.mono ?_
      rintro x c ⟨rfl, rfl⟩ hb
      refine Or.inl (ho.nonwhite_of_notwhite (Bool.eq_false_of_not_eq_true fun hw => hbarrier ?_))
      rw [hw, isblack, hb]
      rfl

/-- **`luaC_barrier`.** -/
theorem sound_barrier {p : GCObject} {v : TValue} (hp : live g p) (hv : ∀ c ∈ v.refs, live g c)
    (hg : Sound (fun x c => x = p ∧ c ∈ v.refs) g) : Sound NoRef (luaC_barrier g p v) := by
  rw [luaC_barrier]
  cases hgc : v.gcvalue with
  | none =>
      refine hg.mono ?_
      rintro x c ⟨-, hc⟩ -
      rw [TValue.refs, hgc] at hc
      cases hc
  | some o =>
      have hrefs : v.refs = [o] := by rw [TValue.refs, hgc]; rfl
      rw [hrefs] at hg hv
      refine sound_objbarrier hp (hv o List.mem_cons_self) (hg.mono ?_)
      rintro x c ⟨rfl, hc⟩ -
      exact Or.inr ⟨rfl, List.mem_singleton.mp hc⟩

theorem marking_barrierback {t : ℕ} (hb : g.color (.table t) = some .black) (hg : Marking E g) :
    Marking E (recolour g (.table t) .gray (.table t :: g.grayagain)) := by
  set g' := recolour g (.table t) .gray (.table t :: g.grayagain) with hg'
  have hself : g'.color (.table t) = some .gray := setcolor_color_of_ne_none (by simp [hb]) _
  have hother : ∀ x, x ≠ .table t → g'.color x = g.color x := fun x hx => recolour_color_of_ne hx ..
  have hnw : ∀ x, nonwhite g x → nonwhite g' x := fun x hx => nonwhite_setcolor (Or.inl rfl) hx
  have hlisted : ∀ x, Listed g' x ↔ x = .table t ∨ Listed g x := by
    intro x
    change (_ ∨ x ∈ GCObject.table t :: g.grayagain ∨ _) ↔ _
    rw [List.mem_cons, Listed, or_assoc, or_left_comm]
    rfl
  refine ⟨⟨fun x hx => ?_, fun x hx => ?_, fun x hx => ?_, fun x hx => ?_⟩, hnw _ hg.main,
    fun c hc => hnw c (hg.registry c hc)⟩
  · by_cases hxt : x = .table t
    · rw [hxt, hself] at hx
      cases hx
    · rw [hother x hxt] at hx
      exact hg.nodead x hx
  · rw [hg', ne_eq, recolour_none]
    obtain rfl | hx := (hlisted x).mp hx
    · exact ⟨trivial, by simp [hb]⟩
    · exact hg.listed x hx
  · have hxt : x ≠ .table t := by
      rintro rfl
      rw [hself] at hx
      cases hx
    rw [hother x hxt] at hx
    refine (hg.black x hx).imp_right fun hrefs c hc => ?_
    rw [hg', recolour_refs] at hc
    exact (hrefs c hc).imp_left (hnw c)
  · by_cases hxt : x = .table t
    · exact Or.inl ((hlisted x).mpr (Or.inl hxt))
    · rw [hother x hxt] at hx
      exact (hg.gray x hx).imp_left fun h => (hlisted x).mpr (Or.inr h)

/-- `luaC_barrierback` leaves a table that is not black. -/
theorem sound_barrierback {t : ℕ} (hb : g.color (.table t) = some .black) (hg : Sound E g) :
    Sound E (luaC_barrierback g t) := by
  have hlive : live g (.table t) := ⟨by simp [hb], by simp [hb]⟩
  refine sound_recolour (a := .table t :: g.grayagain) hg hlive.1 (hg.closed _ hlive)
    (Or.inl rfl) (fun _ u hu => by cases hu) ?_
  have hnotclean : ¬clean g (.table t) := by
    rw [clean, hb]
    simp
  refine coloured_recolour hg.coloured (fun hstate => ?_) fun x hx => ?_
  · exact marking_barrierback hb (marking_of_sound hstate hg)
  · have hxt : x ≠ .table t := by
      rintro rfl
      exact hnotclean hx
    rw [clean, recolour_color_of_ne hxt]
    exact hx

/-- **`luaC_barriert`.** The table may have other references without their barrier. -/
theorem sound_barriert {t : ℕ} {v : TValue} (hv : ∀ c ∈ v.refs, live g c)
    (hg : Sound (fun x c => x = .table t ∧ (c ∈ v.refs ∨ E x c)) g) :
    Sound (fun x c => x = .table t ∧ E x c) (luaC_barriert g t v) := by
  rw [luaC_barriert]
  cases hgc : v.gcvalue with
  | none =>
      refine hg.mono ?_
      rintro x c ⟨rfl, hc | hc⟩ -
      · rw [TValue.refs, hgc] at hc
        cases hc
      · exact Or.inr ⟨rfl, hc⟩
  | some o =>
      have hrefs : v.refs = [o] := by rw [TValue.refs, hgc]; rfl
      rw [hrefs] at hg hv
      simp only
      split
      · next hbarrier =>
          rw [Bool.and_eq_true, isblack, decide_eq_true_eq] at hbarrier
          refine (sound_barrierback hbarrier.2 hg).mono ?_
          rintro x c ⟨rfl, -⟩ hb
          have hgray : (luaC_barrierback g t).color (.table t) = some .gray :=
            setcolor_color_of_ne_none (by simp [hbarrier.2]) _
          rw [hgray] at hb
          cases hb
      · next hbarrier =>
          refine hg.mono ?_
          rintro x c ⟨rfl, hc | hc⟩ hb
          · obtain rfl := List.mem_singleton.mp hc
            refine Or.inl ((hv c hc).nonwhite_of_notwhite
              (Bool.eq_false_of_not_eq_true fun hw => hbarrier ?_))
            rw [hw, isblack, hb]
            rfl
          · exact Or.inr ⟨rfl, hc⟩

end UnityLua.Collector
