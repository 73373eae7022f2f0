import UnityLua.CollectorMarking

/-!
# The atomic step

In the atomic step marking is finished: the upvalues that are open, the weak tables, the thread
that runs and the metatables of types are looked at again, then what the barriers have put aside,
and last the userdata that are to be finalized. In the end all references of what is marked are to
what is marked, the weak ones being cleared, and what is white is dead.

## Main results

* `remarkupvals_spec`, `marktmu_spec`, `cleartable_spec`.
* `sound_atomic`.
-/

namespace UnityLua.Collector

open Library

variable {P Q : GCObject → Prop} {g g' : State} {o : GCObject}

/-! ### What holds between the parts of the step -/

/-- What holds all along; `P` are the marked objects whose references are still to be marked,
apart from the gray ones that are in the list. -/
structure Tracing (P : GCObject → Prop) (g : State) : Prop where
  shape : Shape g
  tidy : Tidy g
  nodead : ∀ o, g.color o ≠ some (.white (!g.currentwhite))
  main : nonwhite g (.thread g.mainthread)
  registry : ∀ c ∈ g.registry.refs, nonwhite g c
  mt : ∀ c ∈ g.mt.flatMap (fun mt => mt.toList.map GCObject.table), g.color c ≠ none
  tmudata : ∀ u ∈ g.tmudata, g.color (.userdata u) ≠ none
  traced : Traced P g

/-- Each object is in one of the lists. -/
theorem Shape.mem_objects (h : Shape g) (ho : g.color o ≠ none) : o ∈ objects g := by
  have hplaced := h.placed o ho
  rw [objects, List.mem_append, List.mem_append, List.mem_append]
  cases o with
  | string i => exact Or.inl (List.mem_map.mpr ⟨i, hplaced, rfl⟩)
  | userdata u =>
      obtain hin | hin := hplaced
      · exact Or.inr (Or.inl hin)
      · exact Or.inr (Or.inr (Or.inl (List.mem_map.mpr ⟨u, hin, rfl⟩)))
  | upval u =>
      obtain hopen | hin := hplaced
      · obtain ⟨th, l, hl⟩ := isopen_iff.mp hopen
        obtain ⟨hu, -, hth⟩ := h.opened u th l ho hl
        have hroot : GCObject.thread th ∈ rootgc g := h.placed _ hth
        exact Or.inr (Or.inr (Or.inr (List.mem_flatMap.mpr
          ⟨_, hroot, List.mem_map.mpr ⟨u, hu, rfl⟩⟩)))
      · exact Or.inr (Or.inl hin)
  | _ => exact Or.inr (Or.inl hplaced)

theorem Tracing.of_traces (h : Tracing P g) (ht : Traces g g') (htidy : Tidy g')
    (htraced : Traced Q g') : Tracing Q g' := by
  have hfields : g'.currentwhite = g.currentwhite ∧ g'.registry = g.registry ∧
      g'.mainthread = g.mainthread ∧ g'.mt = g.mt ∧ g'.tmudata = g.tmudata := by
    rw [ht.eq]
    exact ⟨rfl, rfl, rfl, rfl, rfl⟩
  obtain ⟨hwhite, hregistry, hmain, hmt, htmudata⟩ := hfields
  refine ⟨shape_of_traces ht h.shape, htidy, fun x hx => ?_, ?_, ?_, ?_, ?_, htraced⟩
  · rw [hwhite] at hx
    exact h.nodead x ((ht.white x (iswhite_iff.mpr ⟨_, hx⟩)).symm.trans hx)
  · rw [hmain]
    exact ht.nonwhite _ h.main
  · rw [hregistry]
    exact fun c hc => ht.nonwhite c (h.registry c hc)
  · rw [hmt]
    exact fun c hc hnone => h.mt c hc ((ht.none_iff c).mp hnone)
  · rw [htmudata]
    exact fun u hu hnone => h.tmudata u hu ((ht.none_iff _).mp hnone)

theorem Tracing.of_marks (h : Tracing P g) (hm : Marks g g') : Tracing P g' :=
  h.of_traces (traces_of_marks hm) (tidy_of_marks hm h.tidy) (traced_of_marks hm h.traced)

theorem Tracing.mono (h : Tracing P g) (hPQ : Traced Q g) : Tracing Q g :=
  ⟨h.shape, h.tidy, h.nodead, h.main, h.registry, h.mt, h.tmudata, hPQ⟩

/-- All that is gray is traced. -/
theorem Tracing.propagateall (h : Tracing P g) :
    Tracing P (propagateall g) ∧ Traces g (propagateall g) ∧ (propagateall g).gray = [] := by
  obtain ⟨ht, htidy, htraced, hgray⟩ :=
    propagateall_spec h.tidy (fun _ hx => h.shape.mem_objects hx) h.traced
  exact ⟨h.of_traces ht htidy htraced, ht, hgray⟩

/-- Other objects are in the lists of gray objects. -/
theorem Tracing.withlists (h : Tracing P g) {gray a : List GCObject} {w : List ℕ}
    (hgray : ∀ o ∈ gray, Listed g o) (hagain : ∀ o ∈ a, o ∈ g.grayagain)
    (hweak : ∀ t ∈ w, t ∈ g.weak)
    (htraced : Traced Q { g with gray := gray, grayagain := a, weak := w }) :
    Tracing Q { g with gray := gray, grayagain := a, weak := w } := by
  refine ⟨shape_congr h.shape (fun _ => Iff.rfl) rfl rfl rfl rfl rfl rfl rfl rfl rfl
      rfl,
    ⟨?_, fun x hx => ?_, h.tidy.udata, h.tidy.thread, h.tidy.upval⟩,
    h.nodead, h.main, h.registry, h.mt, h.tmudata, htraced⟩
  · exact whole_of_refs (g := g) h.tidy.whole rfl fun x => by cases x <;> rfl
  · refine h.tidy.listed x ?_
    obtain hx | hx | ⟨t, ht, rfl⟩ := hx
    · exact hgray x hx
    · exact Or.inr (Or.inl (hagain x hx))
    · exact Or.inr (Or.inr ⟨t, hweak t ht, rfl⟩)

/-! ### Open upvalues -/

/-- One round of `remarkupvals`. -/
def remarkupval (g : State) (u : ℕ) : State :=
  if isgray g (.upval u) then markvalue g (uvalue g u) else g

theorem remarkupval_marks (hwhole : Whole g) (u : ℕ) : Marks g (remarkupval g u) ∧
    (isgray g (.upval u) = true → scanned (remarkupval g u) (.upval u)) := by
  have hm : Marks g (remarkupval g u) := by
    rw [remarkupval]
    split
    · exact markvalue_marks hwhole _
    · exact Marks.refl g
  refine ⟨hm, fun hgray c hc => ?_⟩
  rw [hm.refs] at hc
  rw [remarkupval, if_pos hgray]
  rw [isgray, decide_eq_true_eq] at hgray
  exact markvalue_nonwhite hwhole (fun d hd => hwhole (.upval u) (by simp [hgray]) d hd) c hc

theorem remarkupvals_marks {l : List ℕ} (hwhole : Whole g) : Marks g (l.foldl remarkupval g) ∧
    ∀ u ∈ l, isgray g (.upval u) = true → scanned (l.foldl remarkupval g) (.upval u) := by
  induction l generalizing g with
  | nil => exact ⟨Marks.refl g, fun u hu => absurd hu List.not_mem_nil⟩
  | cons u l ih =>
      obtain ⟨hm, hdone⟩ := remarkupval_marks hwhole u
      obtain ⟨hm', hdone'⟩ := ih (hm.whole hwhole)
      refine ⟨hm.trans hm', fun w hw hgray => ?_⟩
      obtain rfl | hw := List.mem_cons.mp hw
      · exact hm'.scanned (hdone hgray)
      · refine hdone' w hw ?_
        rw [isgray, decide_eq_true_eq] at hgray ⊢
        rw [hm.keep _ (Or.inl hgray), hgray]

/-- Userdata that are to be finalized. -/
def tobefinalized (us : List ℕ) (o : GCObject) : Prop := ∃ u ∈ us, o = .userdata u

/-- The objects that were put aside before the atomic step. -/
def aside (again : List GCObject) (weak us : List ℕ) (o : GCObject) : Prop :=
  o ∈ again ∨ (∃ t ∈ weak, o = .table t) ∨ tobefinalized us o

/-- **`remarkupvals`.** -/
theorem remarkupvals_spec (hstate : g.gcstate = .propagate) (hg : Sound NoRef g) :
    Tracing (aside g.grayagain g.weak g.tmudata) (remarkupvals g) ∧ Marks g (remarkupvals g) := by
  have hcol := marking_of_sound hstate hg
  have htidy := tidy_of_tricolour hg hcol.toTricolour
  have hm : Marks g (remarkupvals g) := (remarkupvals_marks (l := g.uvhead) htidy.whole).1
  have hscan : ∀ u ∈ g.uvhead, isgray g (.upval u) = true → scanned (remarkupvals g) (.upval u) :=
    (remarkupvals_marks htidy.whole).2
  have hsound := sound_of_marks hm hstate hg
  have hfields : (remarkupvals g).registry = g.registry ∧ (remarkupvals g).mainthread = g.mainthread := by
    rw [hm.eq]
    exact ⟨rfl, rfl⟩
  have hnodead : ∀ o, (remarkupvals g).color o ≠ some (.white (!(remarkupvals g).currentwhite)) :=
    (tricolour_of_marks hm htidy hcol.toTricolour).nodead
  refine ⟨⟨hsound.shape, tidy_of_marks hm htidy, hnodead, ?_, ?_, fun c hc => (hsound.mt c hc).1,
    fun u hu => (hsound.tmudata u hu).1, fun x hx => ?_⟩, hm⟩
  · rw [hfields.2]
    exact hm.nonwhite hcol.main
  · rw [hfields.1]
    exact fun c hc => hm.nonwhite (hcol.registry c hc)
  · obtain heq | ⟨-, -, hin | ⟨i, rfl⟩ | ⟨u, rfl, -, hs⟩⟩ | ⟨-, -, hs, -⟩ := marks_color_cases hm x
    · rw [nonwhite, heq] at hx
      obtain hgray | hblack := hx
      · obtain (hin | hin | hin) | ⟨i, rfl⟩ | ⟨u, rfl, hopen⟩ := hcol.gray x hgray
        · exact Or.inl (hm.gray_mem x hin)
        · exact Or.inr (Or.inl (Or.inl hin))
        · exact Or.inr (Or.inl (Or.inr (Or.inl hin)))
        · exact Or.inr (Or.inr fun c hc => absurd hc List.not_mem_nil)
        · obtain ⟨th, l, hl⟩ := isopen_iff.mp hopen
          have huv := (hg.shape.opened u th l (by simp [hgray]) hl).2.1
          exact Or.inr (Or.inr (done_of_scanned (hscan u huv (by simp [isgray, hgray]))))
      · obtain hin | hrefs := hcol.black x hblack
        · exact Or.inr (Or.inl (Or.inr (Or.inr hin)))
        · exact Or.inr (Or.inr (done_of_scanned
            (hm.scanned fun c hc => (hrefs c hc).resolve_right id)))
    · exact Or.inl hin
    · exact Or.inr (Or.inr fun c hc => absurd hc List.not_mem_nil)
    · exact Or.inr (Or.inr (done_of_scanned hs))
    · exact Or.inr (Or.inr (done_of_scanned hs))

/-! ### The lists of what was put aside -/

/-- The weak tables are gray again. -/
theorem Tracing.weakagain {again : List GCObject} {weak us : List ℕ}
    (h : Tracing (aside again weak us) g)
    (hgray : g.gray = []) (hweak : ∀ t ∈ weak, t ∈ g.weak) :
    Tracing (fun o => o ∈ again ∨ tobefinalized us o)
      { g with gray := g.weak.map .table, weak := [] } := by
  refine h.withlists (a := g.grayagain) (fun o ho => ?_) (fun _ ho => ho)
    (fun t ht => absurd ht List.not_mem_nil) fun o ho => ?_
  · obtain ⟨t, ht, rfl⟩ := List.mem_map.mp ho
    exact Or.inr (Or.inr ⟨t, ht, rfl⟩)
  · obtain hin | (hin | ⟨t, ht, rfl⟩ | hu) | hdone := h.traced o ho
    · rw [hgray] at hin
      cases hin
    · exact Or.inr (Or.inl (Or.inl hin))
    · exact Or.inl (List.mem_map.mpr ⟨t, hweak t ht, rfl⟩)
    · exact Or.inr (Or.inl (Or.inr hu))
    · -- a table that was found to be weak comes to the list, and the others are not weak
      by_cases hlisted : ∃ t ∈ g.weak, o = .table t
      · obtain ⟨t, ht, rfl⟩ := hlisted
        exact Or.inl (List.mem_map.mpr ⟨t, ht, rfl⟩)
      · refine Or.inr (Or.inr fun c hc => hdone c ?_)
        have hrefs := strongrefs_subset hc
        cases o with
        | table t =>
            rw [strongrefs, if_neg fun ht => hlisted ⟨t, ht, rfl⟩]
            exact hrefs
        | _ => exact hc

/-- What the barriers have put aside is gray again. -/
theorem Tracing.grayagain {again : List GCObject} {us : List ℕ}
    (h : Tracing (fun o => o ∈ again ∨ tobefinalized us o) g) (hgray : g.gray = [])
    (hagain : ∀ o ∈ again, o ∈ g.grayagain) :
    Tracing (tobefinalized us) { g with gray := g.grayagain, grayagain := [] } := by
  refine h.withlists (w := g.weak) (fun o ho => Or.inr (Or.inl ho))
    (fun o ho => absurd ho List.not_mem_nil) (fun _ ht => ht) fun o ho => ?_
  obtain hin | (hin | hu) | hdone := h.traced o ho
  · rw [hgray] at hin
    cases hin
  · exact Or.inl (hagain o hin)
  · exact Or.inr (Or.inl hu)
  · exact Or.inr (Or.inr fun c hc => hdone c (by cases o <;> exact hc))

/-! ### Userdata that are to be finalized -/

/-- `g'` is `g` after userdata were taken out of `rootgc`. -/
structure Separates (g g' : State) : Prop where
  eq : g' = { g with udata := g'.udata, swept := g'.swept, unswept := g'.unswept,
                     tmudata := g'.tmudata }
  refs : ∀ o, refs g' o = refs g o
  root : ∀ o ∈ rootgc g, o ∈ rootgc g' ∨ ∃ u ∈ g'.tmudata, o = .userdata u
  back : (rootgc g').Sublist (rootgc g)
  tmudata : ∀ u ∈ g.tmudata, u ∈ g'.tmudata
  out : ∀ u ∈ g'.tmudata,
    u ∈ g.tmudata ∨ .userdata u ∈ rootgc g ∧ .userdata u ∉ rootgc g'
  nodup : g'.tmudata.Nodup

theorem Separates.refl (hnodup : g.tmudata.Nodup) : Separates g g :=
  ⟨rfl, fun _ => rfl, fun _ h => Or.inl h, List.Sublist.refl _, fun _ h => h,
    fun _ h => Or.inl h, hnodup⟩

theorem Separates.color (h : Separates g g') : g'.color = g.color := by rw [h.eq]

theorem Separates.trans {g'' : State} (h : Separates g g') (h' : Separates g' g'') :
    Separates g g'' := by
  refine ⟨?_, fun o => (h'.refs o).trans (h.refs o), fun o ho => ?_, h'.back.trans h.back,
    fun u hu => h'.tmudata u (h.tmudata u hu), fun u hu => ?_, h'.nodup⟩
  · rw [h'.eq, h.eq]
  · rcases h.root o ho with ho | ⟨u, hu, rfl⟩
    · exact h'.root o ho
    · exact Or.inr ⟨u, h'.tmudata u hu, rfl⟩
  · rcases h'.out u hu with hu | ⟨hin, hout⟩
    · exact (h.out u hu).imp_right fun ⟨hin, hout⟩ => ⟨hin, fun hin' => hout (h'.back.subset hin')⟩
    · exact Or.inr ⟨h.back.subset hin, hout⟩

/-- What is left in `rootgc` is in no other list. -/
theorem Separates.rooted (h : Separates g g') (ho : o ∈ rootgc g') (hrooted : Rooted g o) :
    Rooted g' o := by
  cases o with
  | userdata u =>
      intro hu
      rcases h.out u hu with hu | ⟨-, hout⟩
      · exact hrooted hu
      · exact hout ho
  | upval u =>
      have hupval : g'.upval = g.upval := by rw [h.eq]
      rwa [Rooted, isopen, hupval]
  | _ => exact hrooted

theorem rootgc_erase (hnodup : (rootgc g).Nodup) (o : GCObject) :
    o ∉ g.swept.erase o ++ g.unswept.erase o := by
  obtain ⟨hswept, hunswept, -⟩ := List.nodup_append.mp hnodup
  rw [List.mem_append, not_or]
  exact ⟨hswept.not_mem_erase, hunswept.not_mem_erase⟩

/-- One round of `luaC_separateudata`, for an object of `rootgc`. -/
theorem separate_separates (hroot : (rootgc g).Nodup) (htmudata : g.tmudata.Nodup)
    (ho : o ∈ rootgc g) (hrooted : Rooted g o) : Separates g (separate g o) := by
  cases o with
  | userdata u =>
      have hrefs : ∀ x, refs { g with
          udata := Function.update g.udata u { g.udata u with finalized := true } } x = refs g x := by
        intro x
        cases x with
        | userdata i =>
            by_cases hi : i = u
            · subst hi
              simp only [refs, Function.update_self]
            · simp only [refs, Function.update_of_ne hi]
        | _ => rfl
      rw [separate]
      split
      · exact Separates.refl htmudata
      · dsimp only
        split
        · exact ⟨rfl, hrefs, fun _ h => Or.inl h, List.Sublist.refl _, fun _ h => h,
            fun _ h => Or.inl h, htmudata⟩
        · refine ⟨rfl, fun x => (hrefs x ▸ by cases x <;> rfl), fun x hx => ?_,
            List.erase_sublist.append List.erase_sublist,
            fun w hw => List.mem_append_left _ hw, fun w hw => ?_, ?_⟩
          · by_cases hxu : x = .userdata u
            · exact Or.inr ⟨u, List.mem_append_right _ (List.mem_singleton.mpr rfl), hxu⟩
            · refine Or.inl ?_
              rw [rootgc, List.mem_append] at hx ⊢
              exact hx.imp (List.mem_erase_of_ne hxu).mpr (List.mem_erase_of_ne hxu).mpr
          · rcases List.mem_append.mp hw with hw' | hw'
            · exact Or.inl hw'
            · obtain rfl := List.mem_singleton.mp hw'
              exact Or.inr ⟨ho, rootgc_erase hroot _⟩
          · exact htmudata.append (List.nodup_singleton u) (List.disjoint_singleton.mpr hrooted)
  | _ => exact Separates.refl htmudata

/-- The other objects stay in `rootgc`. -/
theorem mem_rootgc_separate {x : GCObject} (hx : x ∈ rootgc g) (hne : x ≠ o) :
    x ∈ rootgc (separate g o) := by
  cases o with
  | userdata u =>
      rw [separate]
      split
      · exact hx
      · dsimp only
        split
        · exact hx
        · rw [rootgc, List.mem_append] at hx ⊢
          exact hx.imp (List.mem_erase_of_ne hne).mpr (List.mem_erase_of_ne hne).mpr
  | _ => exact hx

theorem separateall_separates {os : List GCObject} (hos : os.Nodup) (hin : ∀ o ∈ os, o ∈ rootgc g)
    (hroot : (rootgc g).Nodup) (htmudata : g.tmudata.Nodup)
    (hrooted : ∀ o ∈ rootgc g, Rooted g o) : Separates g (os.foldl separate g) := by
  induction os generalizing g with
  | nil => exact Separates.refl htmudata
  | cons o os ih =>
      obtain ⟨hnotin, hos⟩ := List.nodup_cons.mp hos
      have ho := hin o List.mem_cons_self
      have hs := separate_separates hroot htmudata ho (hrooted o ho)
      refine hs.trans (ih hos (fun x hx => ?_) (hs.back.nodup hroot) hs.nodup fun x hx => ?_)
      · refine mem_rootgc_separate (hin x (List.mem_cons_of_mem o hx)) ?_
        rintro rfl
        exact hnotin hx
      · exact hs.rooted hx (hrooted x (hs.back.subset hx))

theorem luaC_separateudata_separates (h : Shape g) : Separates g (luaC_separateudata g) := by
  have hsub : (behind (.thread g.mainthread) (rootgc g)).Sublist (rootgc g) :=
    (List.tail_sublist _).trans (List.dropWhile_sublist _)
  exact separateall_separates (hsub.nodup h.rootnodup) (fun o ho => hsub.subset ho) h.rootnodup
    h.tmudata fun o ho => (h.root o ho).2

theorem Tracing.separate (h : Tracing P g) (hs : Separates g g') : Tracing P g' := by
  have hfields : g'.strt = g.strt ∧ g'.mainthread = g.mainthread ∧ g'.uvhead = g.uvhead ∧
      g'.running = g.running ∧ g'.resumers = g.resumers ∧ g'.thread = g.thread ∧
      g'.upval = g.upval := by
    rw [hs.eq]
    exact ⟨rfl, rfl, rfl, rfl, rfl, rfl, rfl⟩
  obtain ⟨hstrt, hmain, huvhead, hrunning, hresumers, hthread, hupval⟩ := hfields
  have hfields : g'.gray = g.gray ∧ g'.grayagain = g.grayagain ∧ g'.weak = g.weak ∧
      g'.currentwhite = g.currentwhite ∧ g'.registry = g.registry ∧ g'.mt = g.mt ∧
      g'.weakbits = g.weakbits ∧ g'.table = g.table ∧ g'.fixed = g.fixed := by
    rw [hs.eq]
    exact ⟨rfl, rfl, rfl, rfl, rfl, rfl, rfl, rfl, rfl⟩
  obtain ⟨hgray, hagain, hweak, hwhite, hregistry, hmt, hweakbits, htable, hfixed⟩ := hfields
  have hcolor := hs.color
  have hshape := h.shape
  -- what is no userdata stays in `rootgc`
  have hroot : ∀ o, o ∈ rootgc g → (∀ u, o ≠ .userdata u) → o ∈ rootgc g' := fun o ho hkind =>
    (hs.root o ho).resolve_right fun ⟨u, _, hu⟩ => hkind u hu
  have hnw : ∀ o, nonwhite g o → nonwhite g' o := fun o ho => by rwa [nonwhite, hcolor]
  have hstrong : ∀ o, strongrefs g' o = strongrefs g o := by
    intro o
    cases o with
    | table t => rw [strongrefs, strongrefs, hweak, hweakbits, htable]
    | _ => rw [strongrefs_of_ne (by simp), strongrefs_of_ne (by simp), hs.refs]
  constructor
  case shape =>
    constructor
    case placed =>
      intro x hx
      rw [hcolor] at hx
      have hplaced := hshape.placed x hx
      cases x with
      | string i => rwa [Placed, hstrt]
      | userdata u =>
          obtain hin | hin := hplaced
          · refine (hs.root _ hin).imp_right ?_
            rintro ⟨w, hw, heq⟩
            exact GCObject.userdata.inj heq ▸ hw
          · exact Or.inr (hs.tmudata u hin)
      | upval u =>
          rw [Placed, isopen, hupval]
          exact hplaced.imp_right fun hin => hroot _ hin (by simp)
      | _ => exact hroot _ hplaced (by simp)
    case root =>
      intro x hx
      obtain ⟨hne, hrooted⟩ := hshape.root x (hs.back.subset hx)
      exact ⟨hcolor ▸ hne, hs.rooted hx hrooted⟩
    case rootnodup => exact hs.back.nodup hshape.rootnodup
    case tmudata => exact hs.nodup
    case fixed => rw [hfixed, hmain]; exact hshape.fixed
    case strt => rw [hstrt]; exact hshape.strt
    case strings => rw [hstrt, hcolor]; exact hshape.strings
    case main => rw [hmain]; exact hroot _ hshape.main (by simp)
    case openupval => rw [hcolor, hthread, hupval]; exact hshape.openupval
    case nodup => rw [hcolor, hthread]; exact hshape.nodup
    case opened => rw [hcolor, hthread, hupval, huvhead]; exact hshape.opened
    case chained =>
      rw [hrunning, hresumers]
      exact chained_mono (fun th _ v hv => hthread ▸ hv) hshape.chained
    case last => rw [hrunning, hresumers, hmain]; exact hshape.last
    case distinct => rw [hrunning, hresumers]; exact hshape.distinct
  case tidy =>
    refine ⟨whole_of_refs h.tidy.whole hcolor hs.refs, fun x hx => ?_, ?_, ?_, ?_⟩
    · rw [Listed, hgray, hagain, hweak] at hx
      rw [hcolor]
      exact h.tidy.listed x hx
    · rw [hcolor]; exact h.tidy.udata
    · rw [hcolor]; exact h.tidy.thread
    · intro u hu
      rw [isopen, hupval] at hu
      rw [hcolor]
      exact h.tidy.upval u hu
  case nodead => rw [hcolor, hwhite]; exact h.nodead
  case main => rw [hmain]; exact hnw _ h.main
  case registry => rw [hregistry]; exact fun c hc => hnw c (h.registry c hc)
  case mt => rw [hmt, hcolor]; exact h.mt
  case tmudata =>
    intro u hu
    rw [hcolor]
    exact (hs.out u hu).elim (h.tmudata u) fun hin => (hshape.root _ hin.1).1
  case traced =>
    intro x hx
    rw [nonwhite, hcolor] at hx
    rw [hgray]
    refine (h.traced x hx).imp_right (Or.imp_right fun hdone c hc => ?_)
    rw [hstrong] at hc
    exact hnw c (hdone c hc)

/-- One round of `marktmu`. -/
def marktm (g : State) (u : ℕ) : State :=
  reallymarkobject (makewhite g (.userdata u)) (.userdata u)

/-- The userdata is black, then what it refers to is marked. -/
theorem marktm_marks {u : ℕ} (hwhole : Whole g) (hne : g.color (.userdata u) ≠ none) :
    Marks (setcolor g (.userdata u) .black) (marktm g u) ∧ scanned (marktm g u) (.userdata u) := by
  have hwhole' : Whole (makewhite g (.userdata u)) := whole_setcolor hwhole _ _
  have hne' : (makewhite g (.userdata u)).color (.userdata u) ≠ none := by
    rw [makewhite, ne_eq, setcolor_none]
    exact hne
  have hset : setcolor (makewhite g (.userdata u)) (.userdata u) .black =
      setcolor g (.userdata u) .black := by
    simp [makewhite, setcolor, Function.comp_def]
  have h := reallymarkvalue_userdata hwhole' hne'
  rw [hset] at h
  exact h

/-- **One round of `marktmu`.** -/
theorem Tracing.marktm (h : Tracing P g) {u : ℕ} (hu : u ∈ g.tmudata) :
    Tracing (fun o => P o ∧ o ≠ .userdata u) (marktm g u) ∧ Traces g (marktm g u) ∧
      nonwhite (marktm g u) (.userdata u) := by
  have hne := h.tmudata u hu
  obtain ⟨hm, hscan⟩ := marktm_marks h.tidy.whole hne
  set b := setcolor g (.userdata u) .black with hb
  have hself : b.color (.userdata u) = some .black := setcolor_color_of_ne_none hne _
  have hother : ∀ x, x ≠ .userdata u → b.color x = g.color x := fun x hx => setcolor_color_of_ne hx _
  have hnw : ∀ x, nonwhite g x → nonwhite b x := fun x hx => nonwhite_setcolor (Or.inr rfl) hx
  have hnone : ∀ x, b.color x = none ↔ g.color x = none := fun x => setcolor_none x _
  have hwhite : ∀ x, iswhite b x = true → b.color x = g.color x := by
    intro x hx
    refine hother x ?_
    rintro rfl
    rw [iswhite, hself] at hx
    cases hx
  have htb : Traces g b :=
    ⟨rfl, hnw, hnone, hwhite, fun _ h => h, fun _ h => h⟩
  have htidy : Tidy b := by
    refine ⟨whole_setcolor h.tidy.whole _ _, fun x hx => ?_, fun w hw => ?_, fun i hi => ?_,
      fun w hopen hw => ?_⟩
    · exact (h.tidy.listed x hx).imp_right fun hne hnone' => hne ((hnone x).mp hnone')
    · by_cases hwu : GCObject.userdata w = .userdata u
      · rw [hwu, hself] at hw
        cases hw
      · exact h.tidy.udata w (hother _ hwu ▸ hw)
    · exact h.tidy.thread i (hother (.thread i) (by simp) ▸ hi)
    · exact h.tidy.upval w hopen (hother (.upval w) (by simp) ▸ hw)
  have hmarked : Tracing (fun o => P o ∨ o = .userdata u) b := by
    refine h.of_traces htb htidy fun x hx => ?_
    by_cases hxu : x = .userdata u
    · exact Or.inr (Or.inl (Or.inr hxu))
    · rw [nonwhite, hother x hxu] at hx
      obtain hin | hPx | hdone := h.traced x hx
      · exact Or.inl hin
      · exact Or.inr (Or.inl (Or.inl hPx))
      · exact Or.inr (Or.inr fun c hc => hnw c (hdone c (by cases x <;> exact hc)))
  refine ⟨(hmarked.of_marks hm).mono fun x hx => ?_, htb.trans (traces_of_marks hm),
    hm.nonwhite (Or.inr hself)⟩
  by_cases hxu : x = .userdata u
  · exact Or.inr (Or.inr (hxu ▸ done_of_scanned hscan))
  · obtain hin | hPx | hdone := (hmarked.of_marks hm).traced x hx
    · exact Or.inl hin
    · exact Or.inr (Or.inl ⟨hPx.resolve_right hxu, hxu⟩)
    · exact Or.inr (Or.inr hdone)

theorem Tracing.marktms {l : List ℕ} (h : Tracing P g) (hus : ∀ u ∈ l, u ∈ g.tmudata) :
    Tracing (fun o => P o ∧ ¬tobefinalized l o) (l.foldl Collector.marktm g) ∧
      Traces g (l.foldl Collector.marktm g) ∧
      ∀ u ∈ l, nonwhite (l.foldl Collector.marktm g) (.userdata u) := by
  induction l generalizing P g with
  | nil =>
      refine ⟨h.mono fun x hx => ?_, Traces.refl g, fun u hu => absurd hu List.not_mem_nil⟩
      refine (h.traced x hx).imp_right (Or.imp_left fun hPx => ⟨hPx, ?_⟩)
      rintro ⟨u, hu, -⟩
      cases hu
  | cons u l ih =>
      obtain ⟨h', ht, hdone⟩ := h.marktm (hus u List.mem_cons_self)
      have htmudata : (Collector.marktm g u).tmudata = g.tmudata := by rw [ht.eq]
      obtain ⟨h'', ht', hdone'⟩ := ih h' fun w hw => htmudata ▸ hus w (List.mem_cons_of_mem _ hw)
      refine ⟨h''.mono fun x hx => ?_, ht.trans ht', fun w hw => ?_⟩
      · refine (h''.traced x hx).imp_right (Or.imp_left ?_)
        rintro ⟨⟨hPx, hxu⟩, hnot⟩
        refine ⟨hPx, ?_⟩
        rintro ⟨w, hw, rfl⟩
        obtain rfl | hw := List.mem_cons.mp hw
        · exact hxu rfl
        · exact hnot ⟨w, hw, rfl⟩
      · obtain rfl | hw := List.mem_cons.mp hw
        · exact ht'.nonwhite _ hdone
        · exact hdone' w hw

/-- **`marktmu`.** -/
theorem marktmu_spec (h : Tracing P g) (hP : ∀ o, P o → tobefinalized g.tmudata o) :
    Tracing (fun _ => False) (marktmu g) ∧ Traces g (marktmu g) ∧
      ∀ u ∈ g.tmudata, nonwhite (marktmu g) (.userdata u) := by
  obtain ⟨h', ht, hdone⟩ := h.marktms (l := g.tmudata) fun _ hu => hu
  refine ⟨h'.mono fun x hx => ?_, ht, hdone⟩
  exact (h'.traced x hx).imp_right (Or.imp_left fun hPx => hPx.2 (hP x hPx.1))

/-! ### Weak tables are cleared -/

/-- `g'` is `g` after strings were marked. -/
structure MarksStrings (g g' : State) : Prop where
  eq : g' = { g with color := g'.color }
  nonwhite : ∀ o, nonwhite g o → nonwhite g' o
  color : ∀ o, (∀ i, o ≠ .string i) → g'.color o = g.color o
  none_iff : ∀ o, g'.color o = none ↔ g.color o = none
  white : ∀ o, iswhite g' o = true → g'.color o = g.color o

namespace MarksStrings

theorem refl (g : State) : MarksStrings g g :=
  ⟨rfl, fun _ h => h, fun _ _ => rfl, fun _ => Iff.rfl, fun _ _ => rfl⟩

theorem trans {g'' : State} (h : MarksStrings g g') (h' : MarksStrings g' g'') :
    MarksStrings g g'' := by
  refine ⟨?_, fun o ho => h'.nonwhite o (h.nonwhite o ho),
    fun o ho => (h'.color o ho).trans (h.color o ho),
    fun o => (h'.none_iff o).trans (h.none_iff o), fun o ho => ?_⟩
  · rw [h'.eq, h.eq]
  · have heq := h'.white o ho
    rw [iswhite, heq] at ho
    exact heq.trans (h.white o ho)

end MarksStrings

/-- What is not cleared is marked. -/
theorem iscleared_spec {v : TValue} (iskey : Bool) (hv : ∀ c ∈ v.refs, g.color c ≠ none) :
    MarksStrings g (iscleared g v iskey).1 ∧
      ((iscleared g v iskey).2 = false → ∀ c ∈ v.refs, nonwhite (iscleared g v iskey).1 c) := by
  have hother : ∀ o, v.gcvalue = some o → iswhite g o = false → ∀ c ∈ v.refs, nonwhite g c := by
    intro o ho hw c hc
    have hco : c = o := by
      rw [TValue.refs, ho] at hc
      exact List.mem_singleton.mp hc
    exact hco ▸ (nonwhite_or (hco ▸ hv c hc)).resolve_left (by simp [hw])
  cases v with
  | nil => exact ⟨MarksStrings.refl g, fun _ c hc => absurd hc List.not_mem_nil⟩
  | plain => exact ⟨MarksStrings.refl g, fun _ c hc => absurd hc List.not_mem_nil⟩
  | string i =>
      have hne : g.color (.string i) ≠ none := hv _ (List.mem_singleton.mpr rfl)
      simp only [iscleared]
      split
      · refine ⟨⟨rfl, fun o ho => nonwhite_setcolor (Or.inl rfl) ho,
          fun o ho => setcolor_color_of_ne (ho i) _, fun o => setcolor_none o _, fun o ho => ?_⟩,
          fun _ c hc => ?_⟩
        · refine setcolor_color_of_ne ?_ _
          rintro rfl
          rw [iswhite, setcolor_color_of_ne_none hne] at ho
          cases ho
        · obtain rfl := List.mem_singleton.mp hc
          exact Or.inl (setcolor_color_of_ne_none hne _)
      · next hw =>
          exact ⟨MarksStrings.refl g, fun _ => hother _ rfl (Bool.eq_false_of_not_eq_true hw)⟩
  | userdata i =>
      refine ⟨MarksStrings.refl g, fun hcleared => hother (.userdata i) rfl ?_⟩
      exact (Bool.or_eq_false_iff.mp hcleared).1
  | function i => exact ⟨MarksStrings.refl g, hother (.function i) rfl⟩
  | table i => exact ⟨MarksStrings.refl g, hother (.table i) rfl⟩
  | thread i => exact ⟨MarksStrings.refl g, hother (.thread i) rfl⟩
  | proto i => exact ⟨MarksStrings.refl g, hother (.proto i) rfl⟩

theorem cleararray_spec {os : List TValue} (hos : ∀ v ∈ os, ∀ c ∈ v.refs, g.color c ≠ none) :
    MarksStrings g (cleararray g os).1 ∧
      ∀ v ∈ (cleararray g os).2, ∀ c ∈ v.refs, nonwhite (cleararray g os).1 c := by
  induction os with
  | nil => exact ⟨MarksStrings.refl g, fun v hv => absurd hv List.not_mem_nil⟩
  | cons o os ih =>
      obtain ⟨hm, hdone⟩ := ih fun v hv => hos v (List.mem_cons_of_mem _ hv)
      obtain ⟨hm', hdone'⟩ := iscleared_spec (g := (cleararray g os).1) (v := o) false
        fun c hc hnone => hos o List.mem_cons_self c hc ((hm.none_iff c).mp hnone)
      rw [cleararray]
      refine ⟨hm.trans hm', fun v hv c hc => ?_⟩
      obtain rfl | hv := List.mem_cons.mp hv
      · split at hc
        · cases hc
        · next hkeep => exact hdone' (Bool.eq_false_of_not_eq_true hkeep) c hc
      · exact hm'.nonwhite c (hdone v hv c hc)

theorem clearnodes_spec {l : List Node} (hns : ∀ n ∈ l, ∀ c ∈ n.refs, g.color c ≠ none) :
    MarksStrings g (clearnodes g l).1 ∧
      ∀ n ∈ (clearnodes g l).2, ∀ c ∈ n.refs, nonwhite (clearnodes g l).1 c := by
  induction l with
  | nil => exact ⟨MarksStrings.refl g, fun n hn => absurd hn List.not_mem_nil⟩
  | cons n l ih =>
      obtain ⟨hm, hdone⟩ := ih fun m hm => hns m (List.mem_cons_of_mem _ hm)
      rw [clearnodes]
      dsimp only
      split
      · next hval =>
          refine ⟨hm, fun m hmem c hc => ?_⟩
          obtain rfl | hmem := List.mem_cons.mp hmem
          · rw [Node.refs, if_pos hval] at hc
            cases hc
          · exact hdone m hmem c hc
      next hval =>
      have hrefs : ∀ c, c ∈ n.key.refs ∨ c ∈ n.val.refs → g.color c ≠ none := by
        intro c hc
        refine hns n List.mem_cons_self c ?_
        rw [Node.refs, if_neg hval]
        exact List.mem_append.mpr hc
      obtain ⟨hk, hkdone⟩ := iscleared_spec (g := (clearnodes g l).1) (v := n.key) true
        fun c hc hnone => hrefs c (Or.inl hc) ((hm.none_iff c).mp hnone)
      set k := iscleared (clearnodes g l).1 n.key true with hkdef
      split
      · refine ⟨hm.trans hk, fun m hmem c hc => ?_⟩
        obtain rfl | hmem := List.mem_cons.mp hmem
        · cases hc
        · exact hk.nonwhite c (hdone m hmem c hc)
      · next hkey =>
          obtain ⟨hv, hvdone⟩ := iscleared_spec (g := k.1) (v := n.val) false
            fun c hc hnone => hrefs c (Or.inr hc)
              ((hm.none_iff c).mp ((hk.none_iff c).mp hnone))
          refine ⟨(hm.trans hk).trans hv, fun m hmem c hc => ?_⟩
          obtain rfl | hmem := List.mem_cons.mp hmem
          · split at hc
            · cases hc
            · next hkeep =>
                rw [Node.refs, if_neg hval] at hc
                obtain hc | hc := List.mem_append.mp hc
                · exact hv.nonwhite c (hkdone (Bool.eq_false_of_not_eq_true hkey) c hc)
                · exact hvdone (Bool.eq_false_of_not_eq_true hkeep) c hc
          · exact hv.nonwhite c (hk.nonwhite c (hdone m hmem c hc))

/-- `g'` is `g` after weak tables were cleared. -/
structure Clears (g g' : State) : Prop where
  eq : g' = { g with color := g'.color, table := g'.table }
  nonwhite : ∀ o, nonwhite g o → nonwhite g' o
  color : ∀ o, (∀ i, o ≠ .string i) → g'.color o = g.color o
  none_iff : ∀ o, g'.color o = none ↔ g.color o = none
  white : ∀ o, iswhite g' o = true → g'.color o = g.color o

theorem Clears.refl (g : State) : Clears g g :=
  ⟨rfl, fun _ h => h, fun _ _ => rfl, fun _ => Iff.rfl, fun _ _ => rfl⟩

theorem Clears.trans {g'' : State} (h : Clears g g') (h' : Clears g' g'') : Clears g g'' := by
  refine ⟨?_, fun o ho => h'.nonwhite o (h.nonwhite o ho),
    fun o ho => (h'.color o ho).trans (h.color o ho),
    fun o => (h'.none_iff o).trans (h.none_iff o), fun o ho => ?_⟩
  · rw [h'.eq, h.eq]
  · have heq := h'.white o ho
    rw [iswhite, heq] at ho
    exact heq.trans (h.white o ho)

/-- A weak table without what is cleared. -/
theorem clearone_spec {t : ℕ} (hwhole : Whole g) (hne : g.color (.table t) ≠ none) :
    Clears g (clearone g t) ∧ (∀ i, i ≠ t → (clearone g t).table i = g.table i) ∧
      ((clearone g t).table t).metatable = (g.table t).metatable ∧
      ((g.weakbits t).2 = false → ((clearone g t).table t).array = (g.table t).array) ∧
      ∀ c ∈ ((clearone g t).table t).refs, nonwhite (clearone g t) c ∨
        c ∈ (g.table t).metatable.toList.map .table ∨
        (g.weakbits t).2 = false ∧ c ∈ (g.table t).array.flatMap TValue.refs := by
  have harray : ∀ v ∈ (g.table t).array, ∀ c ∈ v.refs, g.color c ≠ none := fun v hv c hc =>
    hwhole _ hne c (List.mem_append_left _ (List.mem_append_right _
      (List.mem_flatMap.mpr ⟨v, hv, hc⟩)))
  have hnode : ∀ n ∈ (g.table t).node, ∀ c ∈ n.refs, g.color c ≠ none := fun n hn c hc =>
    hwhole _ hne c (List.mem_append_right _ (List.mem_flatMap.mpr ⟨n, hn, hc⟩))
  set a := if (g.weakbits t).2 then cleararray g (g.table t).array else (g, (g.table t).array)
    with ha
  have hafirst : MarksStrings g a.1 ∧ ((g.weakbits t).2 = false → a.2 = (g.table t).array) ∧
      ((g.weakbits t).2 = true → ∀ v ∈ a.2, ∀ c ∈ v.refs, nonwhite a.1 c) := by
    rw [ha]
    cases hbit : (g.weakbits t).2 with
    | true =>
        obtain ⟨hm, hdone⟩ := cleararray_spec harray
        exact ⟨hm, (absurd · (by simp)), fun _ => hdone⟩
    | false => exact ⟨MarksStrings.refl g, fun _ => rfl, (absurd · (by simp))⟩
  obtain ⟨hm, hsame, hadone⟩ := hafirst
  obtain ⟨hm', hndone⟩ := clearnodes_spec (g := a.1) (l := (g.table t).node)
    fun n hn c hc hnone => hnode n hn c hc ((hm.none_iff c).mp hnone)
  have hms := hm.trans hm'
  set n := clearnodes a.1 (g.table t).node with hn
  have heq : clearone g t = { n.1 with
      table := Function.update n.1.table t { n.1.table t with array := a.2, node := n.2 } } := rfl
  have htable : n.1.table = g.table := by rw [hms.eq]
  have hself : (clearone g t).table t = { g.table t with array := a.2, node := n.2 } := by
    rw [heq, htable]
    exact Function.update_self ..
  refine ⟨⟨?_, hms.nonwhite, hms.color, hms.none_iff, hms.white⟩, fun i hi => ?_, ?_, ?_, ?_⟩
  · rw [heq, hms.eq]
  · rw [heq, htable]
    exact Function.update_of_ne hi ..
  · rw [hself]
  · rw [hself]
    exact hsame
  · rw [hself]
    intro c hc
    obtain hc | hc := List.mem_append.mp hc
    · obtain hc | hc := List.mem_append.mp hc
      · exact Or.inr (Or.inl hc)
      · cases hbit : (g.weakbits t).2 with
        | true =>
            obtain ⟨v, hv, hc⟩ := List.mem_flatMap.mp hc
            exact Or.inl (hm'.nonwhite c (hadone hbit v hv c hc))
        | false =>
            rw [hsame hbit] at hc
            exact Or.inr (Or.inr ⟨rfl, hc⟩)
    · obtain ⟨m, hmem, hc⟩ := List.mem_flatMap.mp hc
      exact Or.inl (hndone m hmem c hc)

/-- What holds while weak tables are cleared, `rest` being those that are left. -/
structure Clearing (rest : List ℕ) (g : State) : Prop where
  whole : Whole g
  scanned : ∀ o, nonwhite g o → scanned g o ∨ ∃ t ∈ rest, o = .table t
  there : ∀ t ∈ rest, g.color (.table t) ≠ none
  strong : ∀ t ∈ rest, nonwhite g (.table t) →
    (∀ c ∈ (g.table t).metatable.toList.map GCObject.table, nonwhite g c) ∧
      ((g.weakbits t).2 = false → ∀ c ∈ (g.table t).array.flatMap TValue.refs, nonwhite g c)

theorem Clears.refs (h : Clears g g') {x : GCObject} (hx : ∀ i, x = .table i → g'.table i = g.table i) :
    refs g' x = Collector.refs g x := by
  cases x with
  | table i => rw [Collector.refs, Collector.refs, hx i rfl]
  | _ =>
      rw [h.eq]
      rfl

theorem Clearing.clearone {t : ℕ} {rest : List ℕ} (h : Clearing (t :: rest) g) :
    Clearing rest (clearone g t) ∧ Clears g (Collector.clearone g t) := by
  have hne := h.there t List.mem_cons_self
  obtain ⟨hcl, hother, hmeta, harray, hself⟩ := clearone_spec h.whole hne
  have hbits : (Collector.clearone g t).weakbits = g.weakbits := by rw [hcl.eq]
  have hrefs : ∀ x, x ≠ .table t → refs (Collector.clearone g t) x = refs g x := fun x hx =>
    hcl.refs fun i hi => hother i fun hit => hx (hi.trans (congrArg GCObject.table hit))
  have hnwtable : ∀ i, nonwhite (Collector.clearone g t) (.table i) → nonwhite g (.table i) :=
    fun i hi => by rwa [nonwhite, hcl.color _ (by simp)] at hi
  refine ⟨⟨fun x hx c hc => ?_, fun x hx => ?_, fun i hi => ?_, fun i hi hnw => ?_⟩, hcl⟩
  · rw [ne_eq, hcl.none_iff] at hx ⊢
    by_cases hxt : x = .table t
    · subst hxt
      obtain hc | hc | ⟨-, hc⟩ := hself c hc
      · exact fun hnone => hc.ne_none ((hcl.none_iff c).mpr hnone)
      · exact h.whole _ hne c (List.mem_append_left _ (List.mem_append_left _ hc))
      · exact h.whole _ hne c (List.mem_append_left _ (List.mem_append_right _ hc))
    · rw [hrefs x hxt] at hc
      exact h.whole x hx c hc
  · by_cases hxt : x = .table t
    · subst hxt
      obtain ⟨hm, ha⟩ := h.strong t List.mem_cons_self (hnwtable t hx)
      refine Or.inl fun c hc => ?_
      obtain hc | hc | ⟨hbit, hc⟩ := hself c hc
      · exact hc
      · exact hcl.nonwhite c (hm c hc)
      · exact hcl.nonwhite c (ha hbit c hc)
    · by_cases hs : ∃ i, x = .string i
      · obtain ⟨i, rfl⟩ := hs
        exact Or.inl fun c hc => absurd hc List.not_mem_nil
      · have hx' : nonwhite g x := by
          rwa [nonwhite, hcl.color x fun i hi => hs ⟨i, hi⟩] at hx
        obtain hsc | ⟨i, hi, rfl⟩ := h.scanned x hx'
        · refine Or.inl fun c hc => ?_
          rw [hrefs x hxt] at hc
          exact hcl.nonwhite c (hsc c hc)
        · obtain rfl | hi := List.mem_cons.mp hi
          · exact absurd rfl hxt
          · exact Or.inr ⟨i, hi, rfl⟩
  · rw [ne_eq, hcl.none_iff]
    exact h.there i (List.mem_cons_of_mem _ hi)
  · obtain ⟨hm, ha⟩ := h.strong i (List.mem_cons_of_mem _ hi) (hnwtable i hnw)
    rw [hbits]
    by_cases hit : i = t
    · subst hit
      rw [hmeta]
      refine ⟨fun c hc => hcl.nonwhite c (hm c hc), fun hbit c hc => hcl.nonwhite c (ha hbit c ?_)⟩
      rwa [harray hbit] at hc
    · rw [hother i hit]
      exact ⟨fun c hc => hcl.nonwhite c (hm c hc),
        fun hbit c hc => hcl.nonwhite c (ha hbit c hc)⟩

theorem Clearing.cleartable {l : List ℕ} (h : Clearing l g) :
    Clearing [] (cleartable g l) ∧ Clears g (Collector.cleartable g l) := by
  rw [Collector.cleartable]
  induction l generalizing g with
  | nil => exact ⟨h, Clears.refl g⟩
  | cons t l ih =>
      obtain ⟨h', hcl⟩ := h.clearone
      obtain ⟨h'', hcl'⟩ := ih h'
      exact ⟨h'', hcl.trans hcl'⟩

/-- **`cleartable`.** What is marked has marked references only. -/
theorem cleartable_spec (h : Tracing (fun _ => False) g) (hgray : g.gray = []) :
    (∀ o, nonwhite (cleartable g g.weak) o → scanned (cleartable g g.weak) o) ∧
      Clears g (cleartable g g.weak) := by
  have hdone : ∀ o, nonwhite g o → done g o := by
    intro o ho
    refine ((h.traced o ho).resolve_left fun hin => ?_).resolve_left id
    rw [hgray] at hin
    cases hin
  have hstart : Clearing g.weak g := by
    refine ⟨h.tidy.whole, fun o ho => ?_, fun t ht => ?_, fun t ht hnw => ?_⟩
    · by_cases hweak : ∃ t ∈ g.weak, o = .table t
      · exact Or.inr hweak
      · refine Or.inl fun c hc => hdone o ho c ?_
        cases o with
        | table t => rwa [strongrefs, if_neg fun ht => hweak ⟨t, ht, rfl⟩]
        | _ => exact hc
    · exact (h.tidy.listed (.table t) (Or.inr (Or.inr ⟨t, ht, rfl⟩))).2
    · have hd := hdone _ hnw
      rw [done, strongrefs, if_pos ht] at hd
      refine ⟨fun c hc => hd c (List.mem_append_left _ hc), fun hbit c hc => hd c ?_⟩
      obtain ⟨v, hv, hc⟩ := List.mem_flatMap.mp hc
      refine List.mem_append_right _ (List.mem_flatMap.mpr ⟨v, ?_, hc⟩)
      rw [strongvalues, hbit]
      simp [hv]
  obtain ⟨hend, hcl⟩ := hstart.cleartable
  refine ⟨fun o ho => (hend.scanned o ho).resolve_right ?_, hcl⟩
  rintro ⟨t, ht, -⟩
  cases ht

/-! ### The end of the step -/

theorem shape_of_clears (h : Clears g g') (hg : Shape g) : Shape g' := by
  have heq := h.eq
  refine shape_congr hg h.none_iff ?_ ?_ ?_ ?_ ?_ ?_ ?_ ?_ ?_ ?_
  all_goals rw [heq]
  rfl

theorem Tidy.clears (h : Clears g g') (hg : Tidy g) :
    (∀ u, g'.color (.userdata u) ≠ some .gray) ∧ (∀ i, g'.color (.thread i) ≠ some .black) ∧
      ∀ u, isopen g' u = true → g'.color (.upval u) ≠ some .black := by
  refine ⟨fun u => ?_, fun i => ?_, fun u hu => ?_⟩
  · rw [h.color _ (by simp)]
    exact hg.udata u
  · rw [h.color _ (by simp)]
    exact hg.thread i
  · rw [h.color _ (by simp)]
    refine hg.upval u ?_
    rwa [isopen, h.eq] at hu

/-- The other white is the current one: what is white is dead. -/
theorem sound_flip (hshape : Shape g) (hscanned : ∀ o, nonwhite g o → scanned g o)
    (hnodead : ∀ o, g.color o ≠ some (.white (!g.currentwhite)))
    (hudata : ∀ u, g.color (.userdata u) ≠ some .gray)
    (hthread : ∀ i, g.color (.thread i) ≠ some .black)
    (hupval : ∀ u, isopen g u = true → g.color (.upval u) ≠ some .black)
    (hmain : nonwhite g (.thread g.mainthread)) (hregistry : ∀ c ∈ g.registry.refs, nonwhite g c)
    (hmt : ∀ c ∈ g.mt.flatMap (fun mt => mt.toList.map GCObject.table), nonwhite g c)
    (htmudata : ∀ u ∈ g.tmudata, nonwhite g (.userdata u)) :
    Sound NoRef { g with currentwhite := !g.currentwhite, sweepstrgc := 0, gcstate := .sweepstring,
                         swept := [], unswept := rootgc g } := by
  set g' : State := { g with
    currentwhite := !g.currentwhite, sweepstrgc := 0, gcstate := .sweepstring, swept := [],
    unswept := rootgc g } with hg'
  have hrefs : ∀ o, refs g' o = refs g o := fun o => by cases o <;> rfl
  have hlive : ∀ o, live g' o ↔ nonwhite g o := by
    intro o
    change (g.color o ≠ none ∧ g.color o ≠ some (.white (!!g.currentwhite))) ↔ _
    rw [Bool.not_not]
    constructor
    · rintro ⟨hne, hcur⟩
      refine (nonwhite_or hne).resolve_left fun hw => ?_
      obtain ⟨w, hw⟩ := iswhite_iff.mp hw
      have hdead := hnodead o
      rw [hw] at hcur hdead
      cases w <;> cases hcw : g.currentwhite <;> simp_all
    · intro hn
      obtain h | h := hn <;> exact ⟨by simp [h], by simp [h]⟩
  constructor
  case shape =>
    exact shape_congr hshape (fun _ => Iff.rfl) (List.nil_append _) rfl rfl rfl rfl rfl rfl rfl rfl
      rfl
  case closed =>
    intro o ho c hc
    rw [hrefs] at hc
    exact (hlive c).mpr (hscanned o ((hlive o).mp ho) c hc)
  case main => exact (hlive _).mpr hmain
  case registry => exact fun c hc => (hlive c).mpr (hregistry c hc)
  case mt => exact fun c hc => (hlive c).mpr (hmt c hc)
  case tmudata => exact fun u hu => (hlive _).mpr (htmudata u hu)
  case udata => exact hudata
  case thread => exact hthread
  case upval => exact hupval
  case coloured => exact ⟨rfl, fun k hk => absurd hk (Nat.not_lt_zero k)⟩

theorem tmudata_of_traces (h : Traces g g') : g'.tmudata = g.tmudata := by rw [h.eq]

theorem mt_of_traces (h : Traces g g') : g'.mt = g.mt := by rw [h.eq]

theorem running_of_traces (h : Traces g g') : g'.running = g.running := by rw [h.eq]

/-- The atomic step in its parts. -/
theorem atomic_eq (g : State) : ∃ g₂ g₃ g₄ g₅ g₆ g₇ g₈ g₉ : State,
    g₂ = propagateall (remarkupvals g) ∧
    g₃ = { g₂ with gray := g₂.weak.map .table, weak := [] } ∧
    g₄ = markmt (markobject g₃ (.thread g₃.running)) ∧
    g₅ = propagateall g₄ ∧
    g₆ = { g₅ with gray := g₅.grayagain, grayagain := [] } ∧
    g₇ = propagateall g₆ ∧
    g₈ = propagateall (marktmu (luaC_separateudata g₇)) ∧
    g₉ = cleartable g₈ g₈.weak ∧
    atomic g = { g₉ with currentwhite := !g₉.currentwhite, sweepstrgc := 0,
                         gcstate := .sweepstring, swept := [], unswept := rootgc g₉ } :=
  ⟨_, _, _, _, _, _, _, _, rfl, rfl, rfl, rfl, rfl, rfl, rfl, rfl, rfl⟩

/-- **The atomic step.** -/
theorem sound_atomic (hstate : g.gcstate = .propagate) (hg : Sound NoRef g) :
    Sound NoRef (atomic g) := by
  obtain ⟨g₂, g₃, g₄, g₅, g₆, g₇, g₈, g₉, h₂, h₃, h₄, h₅, h₆, h₇, h₈, h₉, heq⟩ := atomic_eq g
  -- open upvalues
  obtain ⟨ht₁, hm₁⟩ := remarkupvals_spec hstate hg
  obtain ⟨ht₂, htr₂, hgray₂⟩ := ht₁.propagateall
  rw [← h₂] at ht₂ htr₂ hgray₂
  have hlists : (remarkupvals g).grayagain = g.grayagain ∧ (remarkupvals g).weak = g.weak := by
    rw [hm₁.eq]
    exact ⟨rfl, rfl⟩
  -- weak tables, the thread that runs and the metatables of types
  have ht₃ := ht₂.weakagain hgray₂ fun t ht => htr₂.weak t (hlists.2 ▸ ht)
  rw [← h₃] at ht₃
  have hrunning : g₃.color (.thread g₃.running) ≠ none := by
    have hfields : g₃.color = g₂.color ∧ g₃.running = g₂.running := by
      rw [h₃]
      exact ⟨rfl, rfl⟩
    rw [hfields.1, hfields.2, running_of_traces htr₂, running_of_traces (traces_of_marks hm₁),
      ne_eq, htr₂.none_iff, hm₁.none_iff]
    exact hg.running_live.1
  have hmarked := markobject_marks ht₃.tidy.whole (.thread g₃.running)
  have hmt₃ : (markobject g₃ (.thread g₃.running)).mt = g₃.mt := by rw [hmarked.eq]
  obtain ⟨hmarked', hmtdone⟩ := markmt_marks (hmarked.whole ht₃.tidy.whole) fun mt hmt c hc =>
    hmarked.ne_none (ht₃.mt c (List.mem_flatMap.mpr ⟨mt, hmt₃ ▸ hmt, hc⟩))
  have hm₄ := hmarked.trans hmarked'
  rw [← h₄] at hmarked' hmtdone hm₄
  have hmt₄ : ∀ c ∈ g₄.mt.flatMap (fun mt => mt.toList.map GCObject.table), nonwhite g₄ c := by
    intro c hc
    obtain ⟨mt, hmt, hc⟩ := List.mem_flatMap.mp hc
    exact hmtdone mt (by rw [hmarked'.eq] at hmt; exact hmt) c hc
  have hrun₄ : nonwhite g₄ (.thread g₄.running) := by
    rw [running_of_traces (traces_of_marks hm₄)]
    exact hmarked'.nonwhite (markobject_nonwhite ht₃.tidy.whole hrunning)
  obtain ⟨ht₅, htr₅, hgray₅⟩ := (ht₃.of_marks hm₄).propagateall
  rw [← h₅] at ht₅ htr₅ hgray₅
  -- what the barriers have put aside
  have hagain : ∀ o ∈ g.grayagain, o ∈ g₅.grayagain := by
    intro o ho
    refine htr₅.grayagain o ((traces_of_marks hm₄).grayagain o ?_)
    rw [h₃]
    exact htr₂.grayagain o (hlists.1 ▸ ho)
  have ht₆ := ht₅.grayagain hgray₅ hagain
  rw [← h₆] at ht₆
  obtain ⟨ht₇, htr₇, -⟩ := ht₆.propagateall
  rw [← h₇] at ht₇ htr₇
  -- userdata that are to be finalized
  have hsep := luaC_separateudata_separates ht₇.shape
  have htmudata : ∀ u ∈ g.tmudata, u ∈ (luaC_separateudata g₇).tmudata := by
    intro u hu
    have h₃₂ : g₃.tmudata = g₂.tmudata := by rw [h₃]
    have h₆₅ : g₆.tmudata = g₅.tmudata := by rw [h₆]
    refine hsep.tmudata u ?_
    rw [tmudata_of_traces htr₇, h₆₅, tmudata_of_traces htr₅,
      tmudata_of_traces (traces_of_marks hm₄), h₃₂, tmudata_of_traces htr₂,
      tmudata_of_traces (traces_of_marks hm₁)]
    exact hu
  obtain ⟨htm, htrm, hudone⟩ := marktmu_spec (ht₇.separate hsep) fun o ho => by
    obtain ⟨u, hu, rfl⟩ := ho
    exact ⟨u, htmudata u hu, rfl⟩
  obtain ⟨ht₈, htr₈, hgray₈⟩ := htm.propagateall
  rw [← h₈] at ht₈ htr₈ hgray₈
  -- weak tables are cleared, and what is white is dead
  obtain ⟨hscanned, hcl⟩ := cleartable_spec ht₈ hgray₈
  rw [← h₉] at hscanned hcl
  have hnw : ∀ o, nonwhite g₄ o → nonwhite g₉ o := by
    intro o ho
    have h₇' : nonwhite g₇ o := by
      refine htr₇.nonwhite o ?_
      rw [h₆]
      exact htr₅.nonwhite o ho
    refine hcl.nonwhite o (htr₈.nonwhite o (htrm.nonwhite o ?_))
    rwa [nonwhite, hsep.color]
  have hnodead : ∀ o, g₉.color o ≠ some (.white (!g₉.currentwhite)) := by
    intro o ho
    have hwhite : g₉.currentwhite = g₈.currentwhite := by rw [hcl.eq]
    rw [hwhite] at ho
    exact ht₈.nodead o ((hcl.white o (iswhite_iff.mpr ⟨_, ho⟩)).symm.trans ho)
  have hfields : g₉.mainthread = g₈.mainthread ∧ g₉.registry = g₈.registry ∧ g₉.mt = g₈.mt ∧
      g₉.tmudata = g₈.tmudata := by
    rw [hcl.eq]
    exact ⟨rfl, rfl, rfl, rfl⟩
  obtain ⟨hmain, hregistry, hmt, htmudata'⟩ := hfields
  have hmt₈ : g₈.mt = g₄.mt := by
    have hs₇ : (luaC_separateudata g₇).mt = g₇.mt := by rw [hsep.eq]
    have h₆₅ : g₆.mt = g₅.mt := by rw [h₆]
    rw [mt_of_traces htr₈, mt_of_traces htrm, hs₇, mt_of_traces htr₇, h₆₅, mt_of_traces htr₅]
  obtain ⟨hudata, hthread, hupval⟩ := ht₈.tidy.clears hcl
  rw [heq]
  refine sound_flip (shape_of_clears hcl ht₈.shape) hscanned hnodead hudata hthread hupval ?_ ?_ ?_ ?_
  · rw [hmain]
    exact hcl.nonwhite _ ht₈.main
  · rw [hregistry]
    exact fun c hc => hcl.nonwhite c (ht₈.registry c hc)
  · rw [hmt, hmt₈]
    exact fun c hc => hnw c (hmt₄ c hc)
  · rw [htmudata', tmudata_of_traces htr₈, tmudata_of_traces htrm]
    exact fun u hu => hcl.nonwhite _ (htr₈.nonwhite _ (hudone u hu))

end UnityLua.Collector
