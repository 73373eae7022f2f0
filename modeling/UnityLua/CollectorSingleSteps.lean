import UnityLua.CollectorSweeping

/-!
# The steps of the collector

The sweep has come to the end of the strings and of `rootgc` when finalizers are called, and nothing
is dead then. A userdata whose finalizer is called comes back to `rootgc`. A new collection starts
with the main thread, the registry and the metatables of types.

## Main results

* `sound_sweepstep`, `sound_GCTM`, `sound_markroot`: from one state of a collection to the next.
* `sound_singlestep`: each step of the collector keeps the invariant.
-/

namespace UnityLua.Collector

open Library

variable {g : State}

/-! ### From one state of a collection to the next -/

/-- The state of the collection is another one. -/
theorem sound_withstate {s : GCState} (hg : Sound NoRef g)
    (hcol : Coloured NoRef { g with gcstate := s }) : Sound NoRef { g with gcstate := s } := by
  refine ⟨shape_congr hg.shape (fun _ => Iff.rfl) rfl rfl rfl rfl rfl rfl rfl rfl rfl rfl, ?_,
    hg.main, hg.registry, hg.mt, hg.tmudata, hg.udata, hg.thread, hg.upval, hcol⟩
  exact fun x hx c hc => hg.closed x hx c (by cases x <;> exact hc)

/-- All objects are swept. -/
theorem clean_of_unswept (hstate : g.gcstate = .sweep) (hg : Sound NoRef g)
    (hunswept : g.unswept = []) : ∀ o, clean g o ∨ ∃ u ∈ g.tmudata, o = .userdata u := by
  have hcol := hg.coloured
  rw [Coloured, hstate] at hcol
  obtain ⟨hstrings, hswept⟩ := hcol
  have hroot : ∀ {x}, x ∈ rootgc g → x ∈ g.swept := by
    intro x hx
    rwa [rootgc, hunswept, List.append_nil] at hx
  intro o
  by_cases hne : g.color o = none
  · exact Or.inl (Or.inl hne)
  have hplaced := hg.shape.placed o hne
  cases o with
  | string i => exact Or.inl (hstrings i)
  | userdata u =>
      rcases hplaced with hin | hin
      · exact Or.inl (hswept _ (hroot hin)).1
      · exact Or.inr ⟨u, hin, rfl⟩
  | upval u =>
      rcases hplaced with hopen | hin
      · -- the thread is swept, and its open upvalues with it
        obtain ⟨th, l, hl⟩ := isopen_iff.mp hopen
        obtain ⟨hu, -, hth⟩ := hg.shape.opened u th l hne hl
        have hin : GCObject.thread th ∈ rootgc g := hg.shape.placed _ hth
        exact Or.inl ((hswept _ (hroot hin)).2 hth _ (List.mem_map_of_mem hu))
      · exact Or.inl (hswept _ (hroot hin)).1
  | _ => exact Or.inl (hswept _ (hroot hplaced)).1

theorem sound_checkSizes (hg : Sound NoRef g) : Sound NoRef (checkSizes g) ∧
    (checkSizes g).gcstate = g.gcstate ∧ (checkSizes g).unswept = g.unswept := by
  rw [checkSizes]
  split
  · next hsize =>
      refine ⟨sound_resize hg ?_, ?_⟩
      · rw [MINSTRTABSIZE] at hsize
        omega
      · rw [luaS_resize]
        split <;> exact ⟨rfl, rfl⟩
  · exact ⟨hg, rfl, rfl⟩

/-- **The step that ends a sweep** or does another part of it. -/
theorem sound_sweepstep (hstate : g.gcstate = .sweep) (hg : Sound NoRef g) :
    Sound NoRef (let g := sweeplist GCSWEEPMAX g
      if g.unswept = [] then { checkSizes g with gcstate := .finalize } else g) := by
  obtain ⟨hsound, hstate'⟩ := sound_sweeplist GCSWEEPMAX hstate hg
  dsimp only
  split
  · next hunswept =>
      obtain ⟨hsizes, hsame, hsame'⟩ := sound_checkSizes hsound
      have hall := clean_of_unswept (hsame.trans hstate') hsizes (hsame'.trans hunswept)
      exact sound_withstate hsizes hall
  · exact hsound

/-! ### Finalizers -/

theorem clean_of_done (hstate : g.gcstate = .finalize ∨ g.gcstate = .pause)
    (hg : Sound NoRef g) : ∀ o, clean g o ∨ ∃ u ∈ g.tmudata, o = .userdata u := by
  have hcol := hg.coloured
  rcases hstate with hstate | hstate
  all_goals
    rw [Coloured, hstate] at hcol
    exact hcol

theorem refs_of_gfasttm {mt : Option ℕ} {name : ℕ} {c : GCObject}
    (hc : c ∈ (gfasttm g mt name).refs) : ∃ t, mt = some t ∧ c ∈ refs g (.table t) := by
  cases mt with
  | none => cases hc
  | some t =>
      refine ⟨t, rfl, ?_⟩
      rw [gfasttm, luaH_getstr] at hc
      cases hfind : (g.table t).node.find? fun n => n.key = .string name with
      | none =>
          rw [hfind] at hc
          cases hc
      | some n =>
          rw [hfind] at hc
          have hval : n.val ≠ .nil := by
            intro hnil
            rw [Option.map_some, Option.getD_some, hnil] at hc
            cases hc
          refine List.mem_append_right _ (List.mem_flatMap.mpr
            ⟨n, List.mem_of_find?_eq_some hfind, ?_⟩)
          rw [Node.refs, if_neg hval]
          exact List.mem_append_right _ hc

/-- A userdata whose finalizer is called comes back to `rootgc`, and is white. -/
def backtoroot (g : State) (u : ℕ) (tmudata : List ℕ) : State :=
  makewhite (linkudata { g with tmudata := tmudata } u) (.userdata u)

theorem backtoroot_eq (g : State) (u : ℕ) (tmudata : List ℕ) : backtoroot g u tmudata =
    { makewhite g (.userdata u) with
      tmudata := tmudata
      swept := (linkudata { g with tmudata := tmudata } u).swept
      unswept := (linkudata { g with tmudata := tmudata } u).unswept } := by
  rw [backtoroot, linkudata_eq]
  rfl

theorem sound_backtoroot {u : ℕ} {tmudata : List ℕ} (hstate : g.gcstate = .finalize)
    (hg : Sound NoRef g) (htmudata : g.tmudata = u :: tmudata) :
    Sound NoRef (backtoroot g u tmudata) ∧ live (backtoroot g u tmudata) (.userdata u) := by
  have hulive : live g (.userdata u) := hg.tmudata u (by rw [htmudata]; exact List.mem_cons_self)
  have hwhite : Sound NoRef (makewhite g (.userdata u)) :=
    sound_makewhite (by rw [hstate]; simp) hg hulive.1 (hg.closed _ hulive)
  have hnodup := hg.shape.tmudata
  rw [htmudata, List.nodup_cons] at hnodup
  have hperm : (rootgc (backtoroot g u tmudata)).Perm (.userdata u :: rootgc g) :=
    perm_linkudata (g := { g with tmudata := tmudata }) hg.shape.main hg.shape.rootnodup
  have hself : (makewhite g (.userdata u)).color (.userdata u) = some (.white g.currentwhite) :=
    setcolor_color_of_ne_none hulive.1 _
  have hmem : ∀ {x}, x ∈ rootgc g → x ∈ rootgc (backtoroot g u tmudata) :=
    fun hx => hperm.mem_iff.mpr (List.mem_cons_of_mem _ hx)
  have hfields : ∀ x, refs (backtoroot g u tmudata) x = refs (makewhite g (.userdata u)) x := by
    intro x
    rw [backtoroot_eq]
    cases x <;> rfl
  have hsh := hwhite.shape
  -- those that wait are fewer
  have hfewer : ∀ {w}, w ∈ tmudata → w ∈ g.tmudata := by
    intro w hw
    rw [htmudata]
    exact List.mem_cons_of_mem _ hw
  refine ⟨?_, ?_⟩
  · rw [backtoroot_eq] at hperm hmem hfields ⊢
    constructor
    case shape =>
      constructor
      case placed =>
        intro x hx
        have hplaced := hsh.placed x hx
        cases x with
        | string i => exact hplaced
        | userdata w =>
            rcases hplaced with hin | hin
            · exact Or.inl (hmem hin)
            · have hin' : w ∈ g.tmudata := hin
              rw [htmudata] at hin'
              rcases List.mem_cons.mp hin' with rfl | hin'
              · exact Or.inl (hperm.mem_iff.mpr List.mem_cons_self)
              · exact Or.inr hin'
        | upval w => exact hplaced.imp_right hmem
        | _ => exact hmem hplaced
      case root =>
        intro x hx
        rcases List.mem_cons.mp (hperm.mem_iff.mp hx) with rfl | hx
        · exact ⟨by rw [hself]; simp, hnodup.1⟩
        · obtain ⟨hne, hrooted⟩ := hsh.root x hx
          refine ⟨hne, ?_⟩
          cases x with
          | userdata w => exact fun hin => hrooted (hfewer hin)
          | _ => exact hrooted
      case rootnodup =>
        refine hperm.nodup_iff.mpr (List.nodup_cons.mpr ⟨fun hin => ?_, hg.shape.rootnodup⟩)
        refine (hg.shape.root _ hin).2 ?_
        rw [htmudata]
        exact List.mem_cons_self
      case tmudata => exact hnodup.2
      case fixed => exact hsh.fixed
      case strt => exact hsh.strt
      case strings => exact hsh.strings
      case main => exact hmem hsh.main
      case openupval => exact hsh.openupval
      case nodup => exact hsh.nodup
      case opened => exact hsh.opened
      case chained => exact chained_mono (g := makewhite g _) (fun _ _ _ hv => hv) hsh.chained
      case last => exact hsh.last
      case distinct => exact hsh.distinct
    case closed =>
      intro x hx c hc
      rw [hfields] at hc
      exact hwhite.closed x hx c hc
    case main => exact hwhite.main
    case registry => exact hwhite.registry
    case mt => exact hwhite.mt
    case tmudata => exact fun w hw => hwhite.tmudata w (hfewer hw)
    case udata => exact hwhite.udata
    case thread => exact hwhite.thread
    case upval => exact hwhite.upval
    case coloured =>
      have hall := clean_of_done (g := makewhite g (.userdata u)) (Or.inl hstate) hwhite
      have hall' : ∀ o, clean (makewhite g (.userdata u)) o ∨ ∃ w ∈ tmudata, o = .userdata w := by
        intro o
        rcases hall o with ho | ⟨w, hw, rfl⟩
        · exact Or.inl ho
        · have hw' : w ∈ g.tmudata := hw
          rw [htmudata] at hw'
          rcases List.mem_cons.mp hw' with rfl | hw'
          · exact Or.inl (Or.inr hself)
          · exact Or.inr ⟨w, hw', rfl⟩
      rw [Coloured]
      split
      · next h => exact absurd (hstate.symm.trans h) (by simp)
      · next h => exact absurd (hstate.symm.trans h) (by simp)
      · next h => exact absurd (hstate.symm.trans h) (by simp)
      · exact hall'
      · exact hall'
  · rw [backtoroot_eq]
    exact live_makewhite hulive.1 _ (Or.inl hulive)

/-- **The finalizer of a userdata is called.** -/
theorem sound_GCTM (hstate : g.gcstate = .finalize) (hg : Sound NoRef g) :
    Sound NoRef (GCTM g) := by
  rw [GCTM]
  split
  · exact hg
  next u tmudata htmudata =>
  obtain ⟨hsound, hlive⟩ := sound_backtoroot hstate hg htmudata
  rw [backtoroot] at hsound hlive
  dsimp only
  split
  · exact hsound
  · refine Sound.push (hsound.push fun c hc => ?_) fun c hc => ?_
    · obtain ⟨t, ht, hc⟩ := refs_of_gfasttm hc
      have htlive := hsound.closed _ hlive (.table t) (List.mem_append_left _ (by
        rw [ht]
        exact List.mem_singleton.mpr rfl))
      exact hsound.closed _ htlive c hc
    · obtain rfl := List.mem_singleton.mp hc
      exact hlive

/-! ### A new collection -/

/-- **`markroot`.** -/
theorem sound_markroot (hstate : g.gcstate = .finalize ∨ g.gcstate = .pause)
    (hg : Sound NoRef g) : Sound NoRef (markroot g) := by
  have hclean := clean_of_done hstate hg
  have hnodead : ∀ o, g.color o ≠ some (.white (!g.currentwhite)) := by
    intro o ho
    rcases hclean o with (hnone | hcurrent) | ⟨u, hu, rfl⟩
    · rw [ho] at hnone
      cases hnone
    · rw [ho] at hcurrent
      cases hw : g.currentwhite <;> simp [hw] at hcurrent
    · exact (hg.tmudata u hu).2 ho
  set g₀ : State := { g with gray := [], grayagain := [], weak := [] } with hg₀
  have hrefs : ∀ x, refs g₀ x = refs g x := fun x => by cases x <;> rfl
  have hnone : ∀ o, ¬Listed g₀ o := by
    rintro o (h | h | ⟨t, h, -⟩) <;> cases h
  have hwhole : Whole g₀ := whole_of_refs (hg.whole hnodead) rfl hrefs
  have htidy : Tidy g₀ := ⟨hwhole, fun o ho => absurd ho (hnone o), hg.udata, hg.thread, hg.upval⟩
  have hcol : Tricolour NoRef g₀ := by
    refine ⟨hnodead, fun o ho => absurd ho (hnone o), fun o ho => Or.inl ?_, fun o ho => ?_⟩
    all_goals
      rcases hclean o with (hcl | hcl) | hu
      · exact absurd (ho.symm.trans hcl) (by simp)
      · exact absurd (ho.symm.trans hcl) (by simp)
    · exact hu
    · obtain ⟨u, -, rfl⟩ := hu
      exact absurd ho (hg.udata u)
  -- the main thread, its globals, the registry and the metatables of types
  set g₁ := markobject g₀ (.thread g₀.mainthread) with hg₁
  set g₂ := markvalue g₁ (g₁.thread g₁.mainthread).gt with hg₂
  set g₃ := markvalue g₂ g₂.registry with hg₃
  have hm₁ : Marks g₀ g₁ := markobject_marks hwhole _
  have hm₂ : Marks g₁ g₂ := markvalue_marks (hm₁.whole hwhole) _
  have hm₁₂ := hm₁.trans hm₂
  have hm₃ : Marks g₂ g₃ := markvalue_marks (hm₁₂.whole hwhole) _
  have hm₁₃ := hm₁₂.trans hm₃
  have hfields : g₂.registry = g.registry ∧ g₃.mt = g.mt := by
    rw [hm₁₂.eq, hm₁₃.eq]
    exact ⟨rfl, rfl⟩
  obtain ⟨hm₄, -⟩ := markmt_marks (g := g₃) (hm₁₃.whole hwhole) fun mt hmt c hc => by
    rw [hfields.2] at hmt
    exact hm₁₃.ne_none (hg.mt c (List.mem_flatMap.mpr ⟨mt, hmt, hc⟩)).1
  have hm := hm₁₃.trans hm₄
  have hmain : nonwhite (markmt g₃) (.thread g.mainthread) :=
    hm₄.nonwhite (hm₃.nonwhite (hm₂.nonwhite (markobject_nonwhite hwhole hg.main.1)))
  have hregistry : ∀ c ∈ g.registry.refs, nonwhite (markmt g₃) c := by
    intro c hc
    refine hm₄.nonwhite (markvalue_nonwhite (hm₁₂.whole hwhole) (fun c hc => ?_) c ?_)
    · rw [hfields.1] at hc
      exact hm₁₂.ne_none (hg.registry c hc).1
    · rw [hfields.1]
      exact hc
  have hcol' := tricolour_of_marks hm htidy hcol
  have htidy' := tidy_of_marks hm htidy
  have hfields' : (markmt g₃).mainthread = g.mainthread ∧ (markmt g₃).registry = g.registry ∧
      (markmt g₃).mt = g.mt ∧ (markmt g₃).tmudata = g.tmudata := by
    rw [hm.eq]
    exact ⟨rfl, rfl, rfl, rfl⟩
  obtain ⟨hmain', hregistry', hmt', htmudata'⟩ := hfields'
  have hlive : ∀ {x}, g.color x ≠ none → live (markmt g₃) x := fun hx =>
    live_of_ne_none hcol'.nodead (hm.ne_none hx)
  have hshape : Shape (markmt g₃) := shape_of_traces (traces_of_marks hm)
    (shape_congr hg.shape (fun _ => Iff.rfl) rfl rfl rfl rfl rfl rfl rfl rfl rfl rfl)
  change Sound NoRef { markmt g₃ with gcstate := .propagate }
  constructor
  case shape =>
    exact shape_congr hshape (fun _ => Iff.rfl) rfl rfl rfl rfl rfl rfl rfl rfl rfl rfl
  case closed =>
    intro x hx c hc
    exact live_of_ne_none hcol'.nodead (htidy'.whole x hx.1 c (by cases x <;> exact hc))
  case main =>
    change live (markmt g₃) (.thread (markmt g₃).mainthread)
    rw [hmain']
    exact hlive hg.main.1
  case registry =>
    intro c hc
    change c ∈ (markmt g₃).registry.refs at hc
    rw [hregistry'] at hc
    exact hlive (hg.registry c hc).1
  case mt =>
    intro c hc
    change c ∈ (markmt g₃).mt.flatMap _ at hc
    rw [hmt'] at hc
    exact hlive (hg.mt c hc).1
  case tmudata =>
    intro u hu
    change u ∈ (markmt g₃).tmudata at hu
    rw [htmudata'] at hu
    exact hlive (hg.tmudata u hu).1
  case udata => exact htidy'.udata
  case thread => exact htidy'.thread
  case upval => exact htidy'.upval
  case coloured =>
    refine ⟨⟨hcol'.nodead, hcol'.listed, fun o ho => ?_, hcol'.gray⟩, ?_, ?_⟩
    · refine (hcol'.black o ho).imp_right fun h c hc => h c (by cases o <;> exact hc)
    · change nonwhite (markmt g₃) (.thread (markmt g₃).mainthread)
      rw [hmain']
      exact hmain
    · intro c hc
      change c ∈ (markmt g₃).registry.refs at hc
      rw [hregistry'] at hc
      exact hregistry c hc

/-- **A full collection starts with a sweep** that frees nothing. -/
theorem sound_resetmarks (hg : Sound NoRef g) : Sound NoRef (resetmarks g) := by
  refine ⟨shape_congr hg.shape (fun _ => Iff.rfl) (List.nil_append _) rfl rfl rfl rfl rfl rfl rfl rfl
      rfl, ?_, hg.main, hg.registry, hg.mt, hg.tmudata, hg.udata, hg.thread, hg.upval, rfl,
    fun k hk => absurd hk (Nat.not_lt_zero k)⟩
  exact fun x hx c hc => hg.closed x hx c (by cases x <;> exact hc)

/-- **One step of the collector.** -/
theorem sound_singlestep (hg : Sound NoRef g) : Sound NoRef (singlestep g) := by
  rw [singlestep]
  split
  · next hstate => exact sound_markroot (Or.inr hstate) hg
  · next hstate =>
      split
      · exact sound_atomic hstate hg
      · next hgray => exact sound_propagatemark hstate hgray hg
  · next hstate => exact sound_sweepstrings hstate hg
  · next hstate => exact sound_sweepstep hstate hg
  · next hstate =>
      split
      · have hall := clean_of_done (Or.inl hstate) hg
        exact sound_withstate hg hall
      · exact sound_GCTM hstate hg

end UnityLua.Collector
