import UnityLua.CollectorObjects

/-!
# Closing upvalues

An upvalue that is closed leaves the list of its thread, keeps its value and comes to `rootgc`. A
gray one becomes black while objects are marked, with a barrier for its value, and white else; a
dead one is freed.

## Main results

* `sound_closeupval`, `sound_close`.
-/

namespace UnityLua.Collector

open Library

variable {E : GCObject → GCObject → Prop} {g g' : State} {o : GCObject} {th u : ℕ}

/-! ### The lists -/

theorem unlinkupval_thread_self : (unlinkupval g th u).thread th =
    { g.thread th with openupval := (g.thread th).openupval.erase u } := Function.update_self ..

theorem unlinkupval_thread_of_ne {i : ℕ} (h : i ≠ th) :
    (unlinkupval g th u).thread i = g.thread i := Function.update_of_ne h ..

theorem unlinkupval_stack (i : ℕ) :
    ((unlinkupval g th u).thread i).stack = (g.thread i).stack ∧
      ((unlinkupval g th u).thread i).gt = (g.thread i).gt := by
  by_cases h : i = th
  · rw [h, unlinkupval_thread_self]
    exact ⟨rfl, rfl⟩
  · rw [unlinkupval_thread_of_ne h]
    exact ⟨rfl, rfl⟩

theorem mem_unlinkupval {i w : ℕ} (h : w ∈ ((unlinkupval g th u).thread i).openupval) :
    w ∈ (g.thread i).openupval := by
  by_cases hi : i = th
  · rw [hi, unlinkupval_thread_self] at h
    exact hi ▸ List.mem_of_mem_erase h
  · rwa [unlinkupval_thread_of_ne hi] at h

/-- `g'` is `g` without the open upvalue `u` of `th`. -/
structure Unlinks (th u : ℕ) (g g' : State) : Prop where
  eq : g' = { g with color := g'.color, upval := g'.upval, thread := (unlinkupval g th u).thread,
                     uvhead := g.uvhead.erase u, swept := g'.swept, unswept := g'.unswept }
  color : ∀ x, x ≠ .upval u → g'.color x = g.color x
  upval : ∀ w, w ≠ u → g'.upval w = g.upval w
  root : g'.color (.upval u) = none ∧ (rootgc g').Perm (rootgc g) ∨
    isopen g' u = false ∧ g'.color (.upval u) ≠ none ∧ (rootgc g').Perm (.upval u :: rootgc g)
  swept : ∀ x ∈ g'.swept, x ∈ g.swept ∨ x = .upval u
  nil : g.swept = [] → g'.swept = []

namespace Unlinks

variable (h : Unlinks th u g g')

include h

theorem thread : g'.thread = (unlinkupval g th u).thread := by rw [h.eq]

theorem uvalue_of_ne {w : ℕ} (hw : w ≠ u) : uvalue g' w = uvalue g w := by
  rw [uvalue, uvalue, h.upval w hw]
  cases g.upval w with
  | closed v => rfl
  | opened i l => simp only [h.thread, unlinkupval_stack]

theorem refs_of_ne {x : GCObject} (hx : x ≠ .upval u) : refs g' x = refs g x := by
  cases x with
  | upval w => rw [refs, refs, h.uvalue_of_ne fun hw => hx (hw ▸ rfl)]
  | thread i => simp only [refs, h.thread, unlinkupval_stack]
  | _ =>
      rw [h.eq]
      rfl

theorem mem_openupvals {x c : GCObject} (hc : c ∈ openupvals g' x) : c ∈ openupvals g x := by
  cases x with
  | thread i =>
      obtain ⟨w, hw, rfl⟩ := List.mem_map.mp hc
      rw [h.thread] at hw
      exact List.mem_map.mpr ⟨w, mem_unlinkupval hw, rfl⟩
  | _ => cases hc

theorem shape (hg : Shape g) (hth : g.color (.thread th) ≠ none)
    (hin : u ∈ (g.thread th).openupval) : Shape g' := by
  have hfields : g'.strt = g.strt ∧ g'.mainthread = g.mainthread ∧
      g'.uvhead = g.uvhead.erase u ∧ g'.running = g.running ∧ g'.resumers = g.resumers ∧
      g'.tmudata = g.tmudata ∧ g'.fixed = g.fixed := by
    rw [h.eq]
    exact ⟨rfl, rfl, rfl, rfl, rfl, rfl, rfl⟩
  obtain ⟨hstrt, hmain, huvhead, hrunning, hresumers, htmudata, hfixed⟩ := hfields
  have hthreads := h.thread
  obtain ⟨-, l₀, hl₀⟩ := hg.openupval th u hth hin
  have hnotroot : GCObject.upval u ∉ rootgc g := by
    intro hroot
    have hclosed : isopen g u = false := (hg.root _ hroot).2
    rw [isopen, hl₀] at hclosed
    cases hclosed
  have hroot : ∀ x ∈ rootgc g, x ∈ rootgc g' := by
    intro x hx
    obtain ⟨-, hperm⟩ | ⟨-, -, hperm⟩ := h.root
    · exact hperm.mem_iff.mpr hx
    · exact hperm.mem_iff.mpr (List.mem_cons_of_mem _ hx)
  -- the other upvalues of the lists are not `u`
  have hother : ∀ i w, g.color (.thread i) ≠ none → w ∈ (g'.thread i).openupval →
      w ∈ (g.thread i).openupval ∧ w ≠ u := by
    intro i w hi hw
    rw [hthreads] at hw
    by_cases hith : i = th
    · subst hith
      rw [unlinkupval_thread_self] at hw
      obtain ⟨hne, hw⟩ := (hg.nodup i hi).mem_erase_iff.mp hw
      exact ⟨hw, hne⟩
    · rw [unlinkupval_thread_of_ne hith] at hw
      refine ⟨hw, ?_⟩
      rintro rfl
      obtain ⟨-, l, hl⟩ := hg.openupval i w hi hw
      rw [hl₀] at hl
      exact hith (UpVal.opened.inj hl).1.symm
  have hthcol : ∀ i, g'.color (.thread i) = g.color (.thread i) := fun i => h.color _ (by simp)
  constructor
  case placed =>
    intro x hx
    by_cases hxu : x = .upval u
    · subst hxu
      obtain ⟨hnone, -⟩ | ⟨-, -, hperm⟩ := h.root
      · exact absurd hnone hx
      · exact Or.inr (hperm.mem_iff.mpr List.mem_cons_self)
    · rw [h.color x hxu] at hx
      have hplaced := hg.placed x hx
      cases x with
      | string i => rwa [Placed, hstrt]
      | userdata i =>
          rw [Placed, htmudata]
          exact hplaced.imp_left (hroot _)
      | upval w =>
          rw [Placed, isopen, h.upval w fun hw => hxu (hw ▸ rfl)]
          exact hplaced.imp_right (hroot _)
      | _ => exact hroot _ hplaced
  case root =>
    intro x hx
    have hold : x ∈ rootgc g → g'.color x ≠ none ∧ Rooted g' x := by
      intro hx
      have hxu : x ≠ .upval u := fun heq => hnotroot (heq ▸ hx)
      obtain ⟨hne, hrooted⟩ := hg.root x hx
      rw [h.color x hxu]
      refine ⟨hne, ?_⟩
      cases x with
      | userdata i => rwa [Rooted, htmudata]
      | upval w => rwa [Rooted, isopen, h.upval w fun hw => hxu (hw ▸ rfl)]
      | _ => exact hrooted
    obtain ⟨-, hperm⟩ | ⟨hclosed, hthere, hperm⟩ := h.root
    · exact hold (hperm.mem_iff.mp hx)
    · obtain rfl | hx := List.mem_cons.mp (hperm.mem_iff.mp hx)
      · exact ⟨hthere, hclosed⟩
      · exact hold hx
  case rootnodup =>
    obtain ⟨-, hperm⟩ | ⟨-, -, hperm⟩ := h.root
    · exact hperm.nodup_iff.mpr hg.rootnodup
    · exact hperm.nodup_iff.mpr (List.nodup_cons.mpr ⟨hnotroot, hg.rootnodup⟩)
  case tmudata => rw [htmudata]; exact hg.tmudata
  case fixed => rw [hfixed, hmain]; exact hg.fixed
  case strt => rw [hstrt]; exact hg.strt
  case strings =>
    rw [hstrt]
    refine hg.strings.imp_right fun hs i hi => ?_
    rw [h.color _ (by simp)]
    exact hs i hi
  case main => rw [hmain]; exact hroot _ hg.main
  case openupval =>
    intro i w hi hw
    rw [hthcol] at hi
    obtain ⟨hw, hne⟩ := hother i w hi hw
    rw [h.color _ (by simp [hne]), h.upval w hne]
    exact hg.openupval i w hi hw
  case nodup =>
    intro i hi
    rw [hthcol] at hi
    rw [hthreads]
    by_cases hith : i = th
    · subst hith
      rw [unlinkupval_thread_self]
      exact (hg.nodup i hi).erase u
    · rw [unlinkupval_thread_of_ne hith]
      exact hg.nodup i hi
  case opened =>
    intro w i l hne hl
    have hwu : w ≠ u := by
      rintro rfl
      obtain ⟨hnone, -⟩ | ⟨hclosed, -⟩ := h.root
      · exact hne hnone
      · rw [isopen, hl] at hclosed
        cases hclosed
    rw [h.color _ (by simp [hwu])] at hne
    rw [h.upval w hwu] at hl
    obtain ⟨hw, huv, hi⟩ := hg.opened w i l hne hl
    rw [hthcol, huvhead, hthreads]
    refine ⟨?_, (List.mem_erase_of_ne hwu).mpr huv, hi⟩
    by_cases hith : i = th
    · subst hith
      rw [unlinkupval_thread_self]
      exact (List.mem_erase_of_ne hwu).mpr hw
    · rwa [unlinkupval_thread_of_ne hith]
  case chained =>
    rw [hrunning, hresumers]
    exact chained_mono (fun i _ v hv => by rw [hthreads, (unlinkupval_stack i).1]; exact hv)
      hg.chained
  case last => rw [hrunning, hresumers, hmain]; exact hg.last
  case distinct => rw [hrunning, hresumers]; exact hg.distinct

end Unlinks

/-! ### The colours -/

theorem Unlinks.marking (h : Unlinks th u g g') (hg : Marking NoRef g)
    (hstate : g.gcstate = .propagate) (hrefs : ∀ x, refs g' x = refs g x)
    (hcol : ∀ {x c}, g'.color x = some c → x = .upval u ∧ (c = .white g.currentwhite ∨
      g.gcstate = .propagate ∧ c = .black) ∨ x ≠ .upval u ∧ g.color x = some c)
    (hcolor : g'.color (.upval u) = some (.white g.currentwhite) ∧
        (g.gcstate = .propagate → iswhite g (.upval u) = true) ∨
      g.gcstate = .propagate ∧ g'.color (.upval u) = some .black) :
    Marking (fun x c => x = .upval u ∧ c ∈ (uvalue g u).refs) g' := by
  have hfields : g'.gray = g.gray ∧ g'.grayagain = g.grayagain ∧ g'.weak = g.weak ∧
      g'.tmudata = g.tmudata ∧ g'.registry = g.registry ∧ g'.mainthread = g.mainthread ∧
      g'.currentwhite = g.currentwhite := by
    rw [h.eq]
    exact ⟨rfl, rfl, rfl, rfl, rfl, rfl, rfl⟩
  obtain ⟨hgray, hagain, hweak, htmudata, hregistry, hmain, hwhite⟩ := hfields
  have hlisted : ∀ x, Listed g' x ↔ Listed g x := fun x => by
    rw [Listed, Listed, hgray, hagain, hweak]
  have hnw : ∀ x, nonwhite g x → nonwhite g' x := by
    intro x hx
    by_cases hxu : x = .upval u
    · subst hxu
      obtain ⟨-, hw⟩ | ⟨-, hb⟩ := hcolor
      · exact absurd hx (not_nonwhite_of_iswhite (hw hstate))
      · exact Or.inr hb
    · rwa [nonwhite, h.color x hxu]
  refine ⟨⟨fun x hx => ?_, fun x hx => ?_, fun x hx => ?_, fun x hx => ?_⟩, ?_, ?_⟩
  · rw [hwhite] at hx
    obtain ⟨-, heq | ⟨-, heq⟩⟩ | ⟨-, hx⟩ := hcol hx
    · simp at heq
    · cases heq
    · exact hg.nodead x hx
  · obtain ⟨ht, hne⟩ := hg.listed x ((hlisted x).mp hx)
    rw [h.color x (by rintro rfl; exact ht)]
    exact ⟨ht, hne⟩
  · rw [htmudata]
    obtain ⟨rfl, -⟩ | ⟨-, hx⟩ := hcol hx
    · refine Or.inr fun c hc => Or.inr ⟨rfl, ?_⟩
      rwa [hrefs] at hc
    · refine (hg.black x hx).imp_right fun hblack c hc => Or.inl ?_
      rw [hrefs] at hc
      exact hnw c ((hblack c hc).resolve_right id)
  · obtain ⟨-, heq | ⟨-, heq⟩⟩ | ⟨hxu, hx⟩ := hcol hx
    · cases heq
    · cases heq
    · refine (hg.gray x hx).imp (hlisted x).mpr (Or.imp_right ?_)
      rintro ⟨w, rfl, hw⟩
      refine ⟨w, rfl, ?_⟩
      rwa [isopen, h.upval w fun hwu => hxu (hwu ▸ rfl)]
  · rw [hmain]
    exact hnw _ hg.main
  · rw [hregistry]
    exact fun c hc => hnw c (hg.registry c hc)

/-- A dead upvalue is freed. -/
theorem sound_free_upval (hg : Sound E g) (hth : g.color (.thread th) ≠ none)
    (hin : u ∈ (g.thread th).openupval) (hdead : isdead g (.upval u) = true) :
    Sound E (freeobj (unlinkupval g th u) (.upval u)) := by
  have hstate := not_propagate_of_dead hg hdead
  rw [isdead, decide_eq_true_eq] at hdead
  set g' := freeobj (unlinkupval g th u) (.upval u) with hg'
  have h : Unlinks th u g g' :=
    ⟨rfl, fun x hx => Function.update_of_ne hx .., fun _ _ => rfl,
      Or.inl ⟨Function.update_self .., List.Perm.refl _⟩, fun _ hx => Or.inl hx, id⟩
  have hself : g'.color (.upval u) = none := Function.update_self ..
  have hlive : ∀ x, live g x ↔ live g' x := by
    intro x
    by_cases hx : x = .upval u
    · subst hx
      exact iff_of_false (fun hl => hl.2 hdead) (fun hl => hl.1 hself)
    · rw [live, live, h.color x hx]
      rfl
  have hcol : ∀ {x c}, g'.color x = some c → g.color x = some c := by
    intro x c hx
    by_cases hxu : x = .upval u
    · rw [hxu, hself] at hx
      cases hx
    · rwa [h.color x hxu] at hx
  constructor
  case shape => exact h.shape hg.shape hth hin
  case closed =>
    intro x hx c hc
    rw [← hlive] at hx ⊢
    rw [h.refs_of_ne (by rintro rfl; exact hx.2 hdead)] at hc
    exact hg.closed x hx c hc
  case main => exact (hlive _).mp hg.main
  case registry => exact fun c hc => (hlive c).mp (hg.registry c hc)
  case mt => exact fun c hc => (hlive c).mp (hg.mt c hc)
  case tmudata => exact fun w hw => (hlive _).mp (hg.tmudata w hw)
  case udata => exact fun w hw => hg.udata w (hcol hw)
  case thread => exact fun i hi => hg.thread i (hcol hi)
  case upval => exact fun w hopen hw => hg.upval w hopen (hcol hw)
  case coloured =>
    have hclean : ∀ x, clean g x → clean g' x := by
      intro x hx
      by_cases hxu : x = .upval u
      · exact Or.inl (hxu ▸ hself)
      · rw [clean, h.color x hxu]
        exact hx
    refine coloured_of_clean hg.coloured rfl (fun h => absurd h hstate) hclean rfl rfl rfl rfl ?_
    intro x _ hne c hc
    refine Or.inl ⟨fun hnone => hne ?_, h.mem_openupvals hc⟩
    by_cases hxu : x = .upval u
    · exact hxu ▸ hself
    · rw [h.color x hxu, hnone]

/-- An upvalue is closed, and white or, while objects are marked, black. -/
theorem sound_of_unlinks (h : Unlinks th u g g') (hg : Sound NoRef g)
    (hth : g.color (.thread th) ≠ none) (hin : u ∈ (g.thread th).openupval)
    (hclosed : g'.upval u = .closed (uvalue g u)) (hlive : live g (.upval u))
    (hcolor : g'.color (.upval u) = some (.white g.currentwhite) ∧
        (g.gcstate = .propagate → iswhite g (.upval u) = true) ∨
      g.gcstate = .propagate ∧ g'.color (.upval u) = some .black) :
    Sound (fun x c => x = .upval u ∧ c ∈ (uvalue g u).refs) g' := by
  have hfields : g'.currentwhite = g.currentwhite ∧ g'.registry = g.registry ∧
      g'.mainthread = g.mainthread ∧ g'.mt = g.mt ∧ g'.tmudata = g.tmudata ∧
      g'.gcstate = g.gcstate ∧ g'.strt = g.strt ∧ g'.sweepstrgc = g.sweepstrgc := by
    rw [h.eq]
    exact ⟨rfl, rfl, rfl, rfl, rfl, rfl, rfl, rfl⟩
  obtain ⟨hwhite, hregistry, hmain, hmt, htmudata, hstate, hstrt, hsweepstrgc⟩ := hfields
  have hclosed' : isopen g' u = false := by rw [isopen, hclosed]
  have hrefs : ∀ x, refs g' x = refs g x := by
    intro x
    by_cases hx : x = .upval u
    · subst hx
      rw [refs, refs, uvalue_closed hclosed]
    · exact h.refs_of_ne hx
  have hselflive : live g' (.upval u) := by
    rw [live, hwhite]
    obtain ⟨hc, -⟩ | ⟨-, hc⟩ := hcolor <;> rw [hc] <;> simp
  have hlive' : ∀ x, live g' x ↔ live g x := by
    intro x
    by_cases hx : x = .upval u
    · subst hx
      exact iff_of_true hselflive hlive
    · rw [live, live, h.color x hx, hwhite]
  -- the upvalue is not gray, and nothing else has changed
  have hcol : ∀ {x c}, g'.color x = some c → x = .upval u ∧ (c = .white g.currentwhite ∨
      g.gcstate = .propagate ∧ c = .black) ∨ x ≠ .upval u ∧ g.color x = some c := by
    intro x c hx
    by_cases hxu : x = .upval u
    · refine Or.inl ⟨hxu, ?_⟩
      rw [hxu] at hx
      refine hcolor.imp (fun hc => ?_) (And.imp_right fun hc => ?_)
      · exact Option.some.inj (hx.symm.trans hc.1)
      · exact Option.some.inj (hx.symm.trans hc)
    · exact Or.inr ⟨hxu, h.color x hxu ▸ hx⟩
  constructor
  case shape => exact h.shape hg.shape hth hin
  case closed =>
    intro x hx c hc
    rw [hlive'] at hx ⊢
    rw [hrefs] at hc
    exact hg.closed x hx c hc
  case main => rw [hmain, hlive']; exact hg.main
  case registry => rw [hregistry]; exact fun c hc => (hlive' c).mpr (hg.registry c hc)
  case mt => rw [hmt]; exact fun c hc => (hlive' c).mpr (hg.mt c hc)
  case tmudata => rw [htmudata]; exact fun w hw => (hlive' _).mpr (hg.tmudata w hw)
  case udata =>
    intro w hw
    obtain ⟨heq, -⟩ | ⟨-, hw⟩ := hcol hw
    · cases heq
    · exact hg.udata w hw
  case thread =>
    intro i hi
    obtain ⟨heq, -⟩ | ⟨-, hi⟩ := hcol hi
    · cases heq
    · exact hg.thread i hi
  case upval =>
    intro w hopen hw
    obtain ⟨heq, -⟩ | ⟨hne, hw⟩ := hcol hw
    · obtain rfl := GCObject.upval.inj heq
      rw [hclosed'] at hopen
      cases hopen
    · rw [isopen, h.upval w fun hwu => hne (hwu ▸ rfl)] at hopen
      exact hg.upval w hopen hw
  case coloured =>
    have hclean : g.gcstate ≠ .propagate → ∀ x, clean g x ∨ x = .upval u → clean g' x := by
      intro hprop x hx
      by_cases hxu : x = .upval u
      · subst hxu
        exact Or.inr (hwhite ▸ (hcolor.resolve_right fun hc => hprop hc.1).1)
      · rw [clean, h.color x hxu, hwhite]
        exact hx.resolve_right hxu
    have hold := hg.coloured
    rw [Coloured] at hold ⊢
    rw [hstate]
    split at hold
    · next hprop => exact h.marking hold hprop hrefs hcol hcolor
    · next hprop =>
        rw [hstrt, hsweepstrgc]
        exact ⟨h.nil hold.1, fun k hk i hi => hclean (by simp [hprop]) _ (Or.inl (hold.2 k hk i hi))⟩
    · next hprop =>
        have hclean := hclean (by simp [hprop])
        refine ⟨fun i => hclean _ (Or.inl (hold.1 i)), fun x hx => ?_⟩
        obtain hx | rfl := h.swept x hx
        · refine ⟨hclean x (Or.inl (hold.2 x hx).1), fun hne c hc => ?_⟩
          refine hclean c (Or.inl ((hold.2 x hx).2 (fun hnone => ?_) c (h.mem_openupvals hc)))
          cases x with
          | thread i => exact hne ((h.color _ (by simp)).trans hnone)
          | _ => cases hc
        · exact ⟨hclean _ (Or.inr rfl), fun _ c hc => by cases hc⟩
    all_goals
      next hprop =>
        rw [htmudata]
        exact fun x => (hold x).imp_left fun hx => hclean (by simp [hprop]) x (Or.inl hx)

/-! ### `luaF_close` -/

/-- The upvalue has its value, and is in `rootgc`. -/
def closedup (g : State) (th u : ℕ) : State :=
  linkroot { unlinkupval g th u with
    upval := Function.update g.upval u (.closed (uvalue g u)) } (.upval u)

theorem closedup_eq (g : State) (th u : ℕ) : closedup g th u =
    { g with upval := Function.update g.upval u (.closed (uvalue g u))
             thread := (unlinkupval g th u).thread, uvhead := g.uvhead.erase u
             swept := (closedup g th u).swept, unswept := (closedup g th u).unswept } :=
  linkroot_eq _ _

theorem closedup_upval : (closedup g th u).upval u = .closed (uvalue g u) := by
  rw [closedup_eq]
  exact Function.update_self ..

theorem closedup_color (g : State) (th u : ℕ) : (closedup g th u).color = g.color := by
  rw [closedup_eq]

theorem unlinks_closedup (hne : g.color (.upval u) ≠ none) : Unlinks th u g (closedup g th u) := by
  constructor
  case eq =>
    rw [closedup_eq]
  case color => exact fun x _ => by rw [closedup_color]
  case upval =>
    intro w hw
    rw [closedup_eq]
    exact Function.update_of_ne hw ..
  case root =>
    refine Or.inr ⟨by rw [isopen, closedup_upval], by rwa [closedup_color], ?_⟩
    rw [closedup, rootgc_linkroot]
    exact List.Perm.refl _
  case swept =>
    exact fun x hx => linkroot_swept (g := { unlinkupval g th u with
      upval := Function.update g.upval u (.closed (uvalue g u)) }) hx
  case nil =>
    intro h
    have h' : ({ unlinkupval g th u with
      upval := Function.update g.upval u (.closed (uvalue g u)) } : State).swept = [] := h
    rw [closedup, linkroot, if_pos h', h']

/-- Then it may get another colour. -/
theorem unlinks_setcolor (hne : g.color (.upval u) ≠ none) (c : Colour) :
    Unlinks th u g (setcolor (closedup g th u) (.upval u) c) := by
  have h : Unlinks th u g (closedup g th u) := unlinks_closedup hne
  constructor
  case eq =>
    rw [setcolor, h.eq]
  case color => exact fun x hx => (setcolor_color_of_ne hx c).trans (h.color x hx)
  case upval => exact h.upval
  case root =>
    refine h.root.imp (fun h => absurd ?_ hne) fun h => ?_
    · rw [← closedup_color g th u]
      exact h.1
    · refine ⟨h.1, ?_, h.2.2⟩
      rw [ne_eq, setcolor_none]
      exact h.2.1
  case swept => exact h.swept
  case nil => exact h.nil

theorem luaC_linkupval_closedup (g : State) (th u : ℕ) :
    luaC_linkupval { unlinkupval g th u with
      upval := Function.update g.upval u (.closed (uvalue g u)) } u =
    if isgray g (.upval u) then
      if g.gcstate = .propagate then
        luaC_barrier (setcolor (closedup g th u) (.upval u) .black) (.upval u) (uvalue g u)
      else makewhite (closedup g th u) (.upval u)
    else closedup g th u := by
  have hgray : isgray (closedup g th u) (.upval u) = isgray g (.upval u) := by
    rw [isgray, isgray, closedup_color]
  have hstate : (closedup g th u).gcstate = g.gcstate := by rw [closedup_eq]
  rw [luaC_linkupval, ← closedup, hgray, hstate, uvalue_closed closedup_upval]

theorem closeupval_eq (g : State) (th u : ℕ) : closeupval g th u =
    if isdead g (.upval u) then freeobj (unlinkupval g th u) (.upval u)
    else if isgray g (.upval u) then
      if g.gcstate = .propagate then
        luaC_barrier (setcolor (closedup g th u) (.upval u) .black) (.upval u) (uvalue g u)
      else makewhite (closedup g th u) (.upval u)
    else closedup g th u := by
  rw [closeupval]
  split
  · rfl
  · exact luaC_linkupval_closedup g th u

/-- What a round of `luaF_close` leaves as it is. -/
structure Closes (th u : ℕ) (g g' : State) : Prop where
  thread : g'.thread = (unlinkupval g th u).thread
  none : ∀ x, x ≠ .upval u → (g'.color x = none ↔ g.color x = none)

theorem Unlinks.closes (h : Unlinks th u g g') : Closes th u g g' :=
  ⟨h.thread, fun x hx => by rw [h.color x hx]⟩

/-- **One round of `luaF_close`.** -/
theorem sound_closeupval (hg : Sound NoRef g) (hth : g.color (.thread th) ≠ none)
    (hin : u ∈ (g.thread th).openupval) :
    Sound NoRef (closeupval g th u) ∧ Closes th u g (closeupval g th u) := by
  obtain ⟨hne, l, hl⟩ := hg.shape.openupval th u hth hin
  have hopen : isopen g u = true := isopen_iff.mpr ⟨th, l, hl⟩
  rw [closeupval_eq]
  split
  · next hdead =>
      exact ⟨sound_free_upval hg hth hin hdead, rfl, fun x hx => by
        rw [freeobj]
        exact Eq.congr_left (Function.update_of_ne hx ..)⟩
  next hdead =>
  rw [isdead, decide_eq_true_eq] at hdead
  have hlive : live g (.upval u) := ⟨hne, hdead⟩
  have hcurrent : (closedup g th u).currentwhite = g.currentwhite := by rw [closedup_eq]
  split
  · next hgray =>
      rw [isgray, decide_eq_true_eq] at hgray
      have hself : ∀ c, (setcolor (closedup g th u) (.upval u) c).color (.upval u) = some c :=
        fun c => setcolor_color_of_ne_none (by rw [closedup_color, hgray]; simp) c
      split
      · next hstate =>
          -- it becomes black, and its value is marked
          have hun : Unlinks th u g (setcolor (closedup g th u) (.upval u) .black) :=
            unlinks_setcolor hne .black
          have hsound := sound_of_unlinks hun hg hth hin closedup_upval hlive
            (Or.inr ⟨hstate, hself _⟩)
          have hv : ∀ c ∈ (uvalue g u).refs,
              live (setcolor (closedup g th u) (.upval u) .black) c := by
            refine fun c hc => hsound.closed (.upval u) (nonwhite.live (Or.inr (hself _))) c ?_
            rw [refs, uvalue_closed (g := setcolor (closedup g th u) (.upval u) .black)
              closedup_upval]
            exact hc
          refine ⟨sound_barrier (nonwhite.live (Or.inr (hself _))) hv hsound, ?_⟩
          obtain ⟨hthread, hnone⟩ := hun.closes
          have hm : Marks (setcolor (closedup g th u) (.upval u) .black) (luaC_barrier
              (setcolor (closedup g th u) (.upval u) .black) (.upval u) (uvalue g u)) := by
            have hstate' : (setcolor (closedup g th u) (.upval u) .black).gcstate = .propagate := by
              rw [hun.eq, hstate]
            have hwhole := hsound.whole (marking_of_sound hstate' hsound).nodead
            rw [luaC_barrier]
            split
            · rw [luaC_objbarrier]
              split
              · next hbarrier =>
                  rw [luaC_barrierf, if_pos hstate']
                  exact (reallymarkobject_marks hwhole (Bool.and_eq_true _ _ ▸ hbarrier).1).1
              · exact Marks.refl _
            · exact Marks.refl _
          refine ⟨?_, fun x hx => hm.none_iff.trans (hnone x hx)⟩
          rw [hm.eq]
          exact hthread
      · next hstate =>
          have hun : Unlinks th u g (setcolor (closedup g th u) (.upval u)
              (.white (closedup g th u).currentwhite)) := unlinks_setcolor hne _
          refine ⟨?_, hun.closes⟩
          refine (sound_of_unlinks hun hg hth hin closedup_upval hlive (Or.inl ⟨?_, ?_⟩)).mono
            ?_
          · rw [hself, hcurrent]
          · exact fun h => absurd h hstate
          · rintro x c ⟨rfl, -⟩ hb
            rw [hself] at hb
            cases hb
  · next hgray =>
      rw [isgray, decide_eq_true_eq] at hgray
      -- it is neither gray nor black nor dead, so it has the current white
      have hwhite : g.color (.upval u) = some (.white g.currentwhite) := by
        have hblack := hg.upval u hopen
        cases hcol : g.color (.upval u) with
        | none => exact absurd hcol hne
        | some c =>
            cases c with
            | gray => exact absurd hcol hgray
            | black => exact absurd hcol hblack
            | white w =>
                rw [hcol] at hdead
                cases w <;> cases hw : g.currentwhite <;> simp_all
      have hun : Unlinks th u g (closedup g th u) := unlinks_closedup hne
      refine ⟨?_, hun.closes⟩
      refine (sound_of_unlinks hun hg hth hin closedup_upval hlive (Or.inl ⟨?_, ?_⟩)).mono ?_
      · rw [closedup_color, hwhite]
      · exact fun _ => iswhite_iff.mpr ⟨_, hwhite⟩
      · rintro x c ⟨rfl, -⟩ hb
        rw [closedup_color, hwhite] at hb
        cases hb

/-- While nothing is marked, only the upvalue changes. -/
theorem unlinks_closeupval (hstate : g.gcstate ≠ .propagate) (hne : g.color (.upval u) ≠ none) :
    Unlinks th u g (closeupval g th u) := by
  rw [closeupval_eq, if_neg hstate]
  split
  · exact ⟨rfl, fun x hx => Function.update_of_ne hx .., fun _ _ => rfl,
      Or.inl ⟨Function.update_self .., List.Perm.refl _⟩, fun _ hx => Or.inl hx, id⟩
  · split
    · exact unlinks_setcolor hne _
    · exact unlinks_closedup hne

theorem closes_mem (h : Closes th u g g') {w : ℕ} (hw : w ∈ (g.thread th).openupval)
    (hne : w ≠ u) : w ∈ (g'.thread th).openupval := by
  rw [h.thread, unlinkupval_thread_self]
  exact (List.mem_erase_of_ne hne).mpr hw

theorem sound_closeupvals {us : List ℕ} (hg : Sound NoRef g) (hth : g.color (.thread th) ≠ none)
    (hin : ∀ u ∈ us, u ∈ (g.thread th).openupval) (hnodup : us.Nodup) :
    Sound NoRef (us.foldl (fun g u => closeupval g th u) g) := by
  induction us generalizing g with
  | nil => exact hg
  | cons u us ih =>
      obtain ⟨hnotmem, hnodup⟩ := List.nodup_cons.mp hnodup
      obtain ⟨hsound, hcloses⟩ := sound_closeupval hg hth (hin u List.mem_cons_self)
      refine ih hsound (fun hnone => hth ((hcloses.none _ (by simp)).mp hnone)) (fun w hw => ?_)
        hnodup
      refine closes_mem hcloses (hin w (List.mem_cons_of_mem _ hw)) ?_
      rintro rfl
      exact hnotmem hw

/-- **`luaF_close`.** -/
theorem sound_close (hg : Sound NoRef g) (hth : g.color (.thread th) ≠ none) (level : ℕ) :
    Sound NoRef (luaF_close g th level) :=
  sound_closeupvals hg hth (fun _ hu => (List.takeWhile_sublist _).subset hu)
    ((List.takeWhile_sublist _).nodup (hg.shape.nodup th hth))

end UnityLua.Collector
