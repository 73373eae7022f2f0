import UnityLua.CollectorAtomic
import UnityLua.CollectorSteps

/-!
# Sweeping

A sweep frees what is dead, and what it keeps gets the current white. What is live is kept, and
what is freed is in no list any more. A thread that is freed closes its upvalues first.

## Main results

* `Sweeps.sound`: what was live stays live.
* `sound_sweepstrings`, `sound_sweepone`: sweeping keeps the invariant.
-/

namespace UnityLua.Collector

open Library

variable {g g' : State} {o : GCObject}

/-! ### Objects are swept -/

/-- The colour of an object after it is swept. -/
def sweptcolor (g : State) (o : GCObject) : Option Colour :=
  if keeps g o then (g.color o).map fun _ => .white g.currentwhite else none

theorem sweptcolor_of_live (h : live g o) : sweptcolor g o = some (.white g.currentwhite) := by
  have hdead : isdead g o = false := decide_eq_false h.2
  obtain ⟨c, hc⟩ := Option.ne_none_iff_exists'.mp h.1
  rw [sweptcolor, if_pos (by simp [keeps, hdead]), hc, Option.map_some]

theorem sweptcolor_cases (g : State) (o : GCObject) :
    sweptcolor g o = none ∨ sweptcolor g o = some (.white g.currentwhite) := by
  rw [sweptcolor]
  split
  · cases g.color o with
    | none => exact Or.inl rfl
    | some c => exact Or.inr rfl
  · exact Or.inl rfl

/-- Of the dead objects only those that are fixed are kept. -/
theorem live_or_fixed (h : sweptcolor g o ≠ none) : live g o ∨ g.fixed o = true := by
  rw [sweptcolor] at h
  split at h
  · next hkeeps =>
      rw [keeps, Bool.or_eq_true, Bool.not_eq_true', isdead, decide_eq_false_iff_not] at hkeeps
      exact hkeeps.imp_left fun hdead => ⟨fun hnone => h (by rw [hnone]; rfl), hdead⟩
  · exact absurd rfl h

/-- An object that is swept twice. -/
theorem sweptcolor_again {c : GCObject → Option Colour} (h : c o = sweptcolor g o) :
    sweptcolor { g with color := c } o = sweptcolor g o := by
  rcases sweptcolor_cases g o with hs | hs
  · rw [hs] at h ⊢
    rw [sweptcolor]
    split
    · change (c o).map _ = none
      rw [h]
      rfl
    · rfl
  · rw [hs] at h ⊢
    refine sweptcolor_of_live (g := { g with color := c }) ⟨?_, ?_⟩
    · change c o ≠ none
      simp [h]
    · change c o ≠ _
      simp [h]

theorem sweptcolor_congr {c : GCObject → Option Colour} (h : c o = g.color o) :
    sweptcolor { g with color := c } o = sweptcolor g o := by
  have hkeeps : keeps { g with color := c } o = keeps g o := by
    rw [Bool.eq_iff_iff]
    simp only [keeps, isdead, Bool.or_eq_true, Bool.not_eq_true', decide_eq_false_iff_not, h]
  rw [sweptcolor, sweptcolor, hkeeps]
  change (if _ then (c o).map _ else _) = _
  rw [h]

theorem sweepobjects_eq (g : State) (os : List GCObject) : sweepobjects g os =
    { g with color := fun x => if x ∈ os then sweptcolor g x else g.color x } := by
  induction os generalizing g with
  | nil => rfl
  | cons o os ih =>
      have hstep : (if keeps g o then makewhite g o else freeobj g o) =
          { g with color := Function.update g.color o (sweptcolor g o) } := by
        rw [sweptcolor]
        split <;> rfl
      rw [sweepobjects, List.foldl_cons, ← sweepobjects, hstep, ih]
      refine congrArg (fun c => ({ g with color := c } : State)) (funext fun x => ?_)
      by_cases hx : x = o
      · subst hx
        have hself : Function.update g.color x (sweptcolor g x) x = sweptcolor g x :=
          Function.update_self ..
        rw [if_pos List.mem_cons_self, sweptcolor_again hself]
        exact ite_eq_left_iff.mpr fun _ => hself
      · have hother : Function.update g.color o (sweptcolor g o) x = g.color x :=
          Function.update_of_ne hx ..
        rw [sweptcolor_congr hother]
        simp only [List.mem_cons, hx, false_or, hother]

/-- `g'` is `g` after objects were swept. -/
structure Sweeps (g g' : State) : Prop where
  eq : g' = { g with color := g'.color, thread := g'.thread, strt := g'.strt, gcstate := g'.gcstate
                     sweepstrgc := g'.sweepstrgc, swept := g'.swept, unswept := g'.unswept
                     uvhead := g'.uvhead }
  color : ∀ x, g'.color x = g.color x ∨ g'.color x = sweptcolor g x
  thread : ∀ i, (g'.thread i).gt = (g.thread i).gt ∧ (g'.thread i).stack = (g.thread i).stack

namespace Sweeps

variable (h : Sweeps g g')

include h

theorem currentwhite : g'.currentwhite = g.currentwhite := by rw [h.eq]

theorem upval : g'.upval = g.upval := by rw [h.eq]

theorem refs (x : GCObject) : refs g' x = refs g x := by
  cases x with
  | upval u =>
      have huv : uvalue g' u = uvalue g u := by
        rw [uvalue, uvalue, h.upval]
        cases g.upval u with
        | closed v => rfl
        | opened th l => simp only [(h.thread th).2]
      rw [Collector.refs, Collector.refs, huv]
  | thread i => rw [Collector.refs, Collector.refs, (h.thread i).1, (h.thread i).2]
  | _ =>
      rw [h.eq]
      rfl

theorem live {x : GCObject} (hx : live g x) : Collector.live g' x := by
  rw [Collector.live, h.currentwhite]
  rcases h.color x with hc | hc
  · rw [hc]
    exact hx
  · rw [hc, sweptcolor_of_live hx]
    exact ⟨by simp, by simp⟩

/-- What is there afterwards was there. -/
theorem ne_none {x : GCObject} (hx : g'.color x ≠ none) : g.color x ≠ none := by
  intro hnone
  rcases h.color x with hc | hc
  · exact hx (hc.trans hnone)
  · refine hx (hc.trans ?_)
    rw [sweptcolor, hnone]
    split <;> rfl

theorem clean {x : GCObject} (hx : clean g x) : Collector.clean g' x := by
  rw [Collector.clean, h.currentwhite]
  rcases h.color x with hc | hc
  · rw [hc]
    exact hx
  · rw [hc]
    exact sweptcolor_cases g x

theorem clean_of_swept {x : GCObject} (hx : g'.color x = sweptcolor g x) : Collector.clean g' x := by
  rw [Collector.clean, h.currentwhite, hx]
  exact sweptcolor_cases g x

/-- Nothing becomes gray or black. -/
theorem color_of_notwhite {x : GCObject} {c : Colour} (hx : g'.color x = some c)
    (hc : ∀ w, c ≠ .white w) : g.color x = some c := by
  rcases h.color x with hcol | hcol
  · exact hcol ▸ hx
  · rcases sweptcolor_cases g x with hs | hs
    · rw [hcol, hs] at hx
      cases hx
    · rw [hcol, hs] at hx
      exact absurd (Option.some.inj hx).symm (hc _)

/-- The lists after a sweep: what is freed is in none of them. -/
theorem shape (hg : Shape g) (hplaced : ∀ o, g'.color o ≠ none → Placed g o → Placed g' o)
    (hroot : (rootgc g').Sublist (rootgc g)) (hkept : ∀ o ∈ rootgc g', g'.color o ≠ none)
    (hstrt : 0 < g'.strt.length)
    (hstrings : g'.strt.flatten.Nodup ∧ ∀ i ∈ g'.strt.flatten, g'.color (.string i) ≠ none)
    (hmain : .thread g.mainthread ∈ rootgc g')
    (hups : ∀ th, (g'.thread th).openupval.Sublist (g.thread th).openupval)
    (hupkept : ∀ th u, g'.color (.thread th) ≠ none → u ∈ (g'.thread th).openupval →
      g'.color (.upval u) ≠ none)
    (hopened : ∀ th u, g'.color (.upval u) ≠ none → u ∈ (g.thread th).openupval → u ∈ g.uvhead →
      g.color (.thread th) ≠ none →
      u ∈ (g'.thread th).openupval ∧ u ∈ g'.uvhead ∧ g'.color (.thread th) ≠ none) :
    Shape g' := by
  have hfields : g'.tmudata = g.tmudata ∧ g'.mainthread = g.mainthread ∧
      g'.running = g.running ∧ g'.resumers = g.resumers ∧ g'.fixed = g.fixed := by
    rw [h.eq]
    exact ⟨rfl, rfl, rfl, rfl, rfl⟩
  obtain ⟨htmudata, hmainthread, hrunning, hresumers, hfixed⟩ := hfields
  constructor
  case placed => exact fun o ho => hplaced o ho (hg.placed o (h.ne_none ho))
  case root =>
    intro o ho
    have hrooted := (hg.root o (hroot.subset ho)).2
    refine ⟨hkept o ho, ?_⟩
    cases o with
    | userdata u => rwa [Rooted, htmudata]
    | upval u => rwa [Rooted, isopen, h.upval]
    | _ => exact hrooted
  case rootnodup => exact hroot.nodup hg.rootnodup
  case tmudata => rw [htmudata]; exact hg.tmudata
  case fixed => rw [hfixed, hmainthread]; exact hg.fixed
  case strt => exact hstrt
  case strings => exact hstrings
  case main => rw [hmainthread]; exact hmain
  case openupval =>
    intro th u hth hu
    rw [h.upval]
    exact ⟨hupkept th u hth hu, (hg.openupval th u (h.ne_none hth) ((hups th).subset hu)).2⟩
  case nodup => exact fun th hth => (hups th).nodup (hg.nodup th (h.ne_none hth))
  case opened =>
    intro u th l hu hl
    rw [h.upval] at hl
    obtain ⟨hin, huvhead, hth⟩ := hg.opened u th l (h.ne_none hu) hl
    exact hopened th u hu hin huvhead hth
  case chained =>
    rw [hrunning, hresumers]
    exact chained_mono (fun i _ v hv => (h.thread i).2 ▸ hv) hg.chained
  case last => rw [hrunning, hresumers, hmainthread]; exact hg.last
  case distinct => rw [hrunning, hresumers]; exact hg.distinct

/-- **Sweeping keeps the invariant**, but for the lists. -/
theorem sound (hg : Sound NoRef g) (hshape : Shape g') (hcol : Coloured NoRef g') :
    Sound NoRef g' := by
  have hfields : g'.mainthread = g.mainthread ∧ g'.registry = g.registry ∧ g'.mt = g.mt ∧
      g'.tmudata = g.tmudata := by
    rw [h.eq]
    exact ⟨rfl, rfl, rfl, rfl⟩
  obtain ⟨hmain, hregistry, hmt, htmudata⟩ := hfields
  constructor
  case shape => exact hshape
  case closed =>
    intro x hx c hc
    rw [h.refs] at hc
    suffices hl : Collector.live g x ∨ Collector.refs g x = [] by
      rcases hl with hl | hnil
      · exact h.live (hg.closed x hl c hc)
      · rw [hnil] at hc
        cases hc
    rcases h.color x with hcolor | hcolor
    · rw [Collector.live, hcolor, h.currentwhite] at hx
      exact Or.inl hx
    · rcases live_or_fixed (hcolor ▸ hx.1) with hl | hfixed
      · exact Or.inl hl
      · -- a dead object that is kept is a string
        rcases hg.shape.fixed x hfixed with ⟨i, rfl⟩ | rfl
        · exact Or.inr rfl
        · exact Or.inl hg.main
  case main => rw [hmain]; exact h.live hg.main
  case registry => rw [hregistry]; exact fun c hc => h.live (hg.registry c hc)
  case mt => rw [hmt]; exact fun c hc => h.live (hg.mt c hc)
  case tmudata => rw [htmudata]; exact fun u hu => h.live (hg.tmudata u hu)
  case udata => exact fun u hu => hg.udata u (h.color_of_notwhite hu (by simp))
  case thread => exact fun i hi => hg.thread i (h.color_of_notwhite hi (by simp))
  case upval =>
    intro u hopen hu
    rw [isopen, h.upval] at hopen
    exact hg.upval u hopen (h.color_of_notwhite hu (by simp))
  case coloured => exact hcol

end Sweeps

/-! ### Strings -/

theorem mem_flatten_set {l : List (List ℕ)} {k i : ℕ} {s : List ℕ} (hl : l.flatten.Nodup)
    (hs : ∀ i ∈ s, i ∈ l.getD k []) :
    i ∈ (l.set k s).flatten ↔ i ∈ s ∨ i ∈ l.flatten ∧ i ∉ l.getD k [] := by
  induction l generalizing k with
  | nil =>
      have hnil : s = [] := List.eq_nil_iff_forall_not_mem.mpr fun i hi => by simpa using hs i hi
      simp [hnil]
  | cons b l ih =>
      rw [List.flatten_cons, List.nodup_append] at hl
      obtain ⟨-, hl, hdisj⟩ := hl
      cases k with
      | zero =>
          simp only [List.set_cons_zero, List.flatten_cons, List.mem_append, List.getD_cons_zero]
          refine or_congr_right ⟨fun hi => ⟨Or.inr hi, fun hb => hdisj i hb i hi rfl⟩, ?_⟩
          exact fun ⟨hi, hb⟩ => hi.resolve_left hb
      | succ k =>
          simp only [List.getD_cons_succ] at hs ⊢
          simp only [List.set_cons_succ, List.flatten_cons, List.mem_append, ih hl hs]
          have hb : i ∈ b → i ∉ l.getD k [] := by
            intro hb hi
            refine hdisj i hb i ?_ rfl
            rw [List.getD_eq_getElem?_getD] at hi
            cases hk : l[k]? with
            | none => rw [hk] at hi; cases hi
            | some x =>
                rw [hk] at hi
                exact List.mem_flatten.mpr ⟨x, List.mem_of_getElem? hk, hi⟩
          tauto

theorem sublist_flatten_set {l : List (List ℕ)} {k : ℕ} {s : List ℕ}
    (hs : s.Sublist (l.getD k [])) : (l.set k s).flatten.Sublist l.flatten := by
  induction l generalizing k with
  | nil => exact List.Sublist.refl _
  | cons b l ih =>
      cases k with
      | zero => exact hs.append (List.Sublist.refl _)
      | succ k => exact (List.Sublist.refl b).append (ih hs)

/-- The strings of one list that are kept. -/
def keptstrings (g : State) : List ℕ :=
  (g.strt.getD g.sweepstrgc []).filter fun i => keeps g (.string i)

theorem sweepstrings_eq (g : State) : sweepstrings g =
    { g with
      color := fun x =>
        if x ∈ (g.strt.getD g.sweepstrgc []).map .string then sweptcolor g x else g.color x
      strt := g.strt.set g.sweepstrgc (keptstrings g)
      sweepstrgc := g.sweepstrgc + 1
      gcstate := if g.sweepstrgc + 1 ≥ g.strt.length then .sweep else g.gcstate } := by
  simp only [sweepstrings, sweepobjects_eq, keptstrings, List.length_set]
  split <;> rfl

theorem mem_keptstrings {i : ℕ} : i ∈ keptstrings g ↔
    i ∈ g.strt.getD g.sweepstrgc [] ∧ keeps g (.string i) = true := List.mem_filter

theorem sweeps_sweepstrings (g : State) : Sweeps g (sweepstrings g) := by
  rw [sweepstrings_eq]
  refine ⟨rfl, fun x => ?_, fun i => ⟨rfl, rfl⟩⟩
  by_cases hx : x ∈ (g.strt.getD g.sweepstrgc []).map .string
  · exact Or.inr (if_pos hx)
  · exact Or.inl (if_neg hx)

theorem sweepstrings_color_string {i : ℕ} (hi : i ∈ g.strt.getD g.sweepstrgc []) :
    (sweepstrings g).color (.string i) = sweptcolor g (.string i) := by
  rw [sweepstrings_eq]
  exact if_pos (List.mem_map_of_mem hi)

theorem sweepstrings_color {x : GCObject} (hx : ∀ i ∈ g.strt.getD g.sweepstrgc [], x ≠ .string i) :
    (sweepstrings g).color x = g.color x := by
  rw [sweepstrings_eq]
  refine if_neg fun hin => ?_
  obtain ⟨i, hi, rfl⟩ := List.mem_map.mp hin
  exact hx i hi rfl

theorem shape_sweepstrings (hg : Shape g) : Shape (sweepstrings g) := by
  have hs := sweeps_sweepstrings g
  have hmem : ∀ i, i ∈ (sweepstrings g).strt.flatten ↔
      i ∈ keptstrings g ∨ i ∈ g.strt.flatten ∧ i ∉ g.strt.getD g.sweepstrgc [] := by
    intro i
    rw [sweepstrings_eq]
    exact mem_flatten_set hg.strings.1 fun i hi => (mem_keptstrings.mp hi).1
  have hfields : rootgc (sweepstrings g) = rootgc g ∧ (sweepstrings g).tmudata = g.tmudata ∧
      (sweepstrings g).thread = g.thread ∧ (sweepstrings g).uvhead = g.uvhead := by
    rw [sweepstrings_eq]
    exact ⟨rfl, rfl, rfl, rfl⟩
  obtain ⟨hroot, htmudata, hthread, huvhead⟩ := hfields
  have hcolor : ∀ x, (∀ i, x ≠ .string i) → (sweepstrings g).color x = g.color x :=
    fun x hx => sweepstrings_color fun i _ => hx i
  apply hs.shape hg
  case hplaced =>
    intro x hx hplaced
    cases x with
    | string i =>
        refine (hmem i).mpr ?_
        by_cases hi : i ∈ g.strt.getD g.sweepstrgc []
        · refine Or.inl (mem_keptstrings.mpr ⟨hi, ?_⟩)
          rw [sweepstrings_color_string hi, sweptcolor] at hx
          exact Classical.byContradiction fun hkeeps => hx (if_neg hkeeps)
        · exact Or.inr ⟨hplaced, hi⟩
    | userdata u => rwa [Placed, hroot, htmudata]
    | upval u => rwa [Placed, hroot, isopen, hs.upval]
    | _ => simpa only [Placed, hroot] using hplaced
  case hroot => rw [hroot]
  case hkept =>
    intro x hx
    rw [hroot] at hx
    obtain ⟨hne, hrooted⟩ := hg.root x hx
    rw [hcolor x (by
      rintro i rfl
      exact hrooted)]
    exact hne
  case hstrt =>
    rw [sweepstrings_eq]
    exact lt_of_lt_of_eq hg.strt List.length_set.symm
  case hstrings =>
    have hsub : (sweepstrings g).strt.flatten.Sublist g.strt.flatten := by
      rw [sweepstrings_eq]
      exact sublist_flatten_set List.filter_sublist
    refine ⟨hsub.nodup hg.strings.1, fun i hin => ?_⟩
    have hne := hg.strings.2 i (hsub.subset hin)
    rcases (hmem i).mp hin with hkept | ⟨-, hnot⟩
    · obtain ⟨hi, hkeeps⟩ := mem_keptstrings.mp hkept
      rw [sweepstrings_color_string hi, sweptcolor, if_pos hkeeps, ne_eq, Option.map_eq_none_iff]
      exact hne
    · rw [sweepstrings_color fun j hj => by
        rintro ⟨⟩
        exact hnot hj]
      exact hne
  case hmain => rw [hroot]; exact hg.main
  case hups => exact fun th => by rw [hthread]
  case hupkept =>
    intro th u hth hu
    rw [hthread] at hu
    rw [hcolor _ (by simp)]
    exact (hg.openupval th u (hs.ne_none hth) hu).1
  case hopened =>
    intro th u _ hin huv hth
    rw [hcolor _ (by simp), hthread, huvhead]
    exact ⟨hin, huv, hth⟩

/-- **One list of strings is swept.** -/
theorem sound_sweepstrings (hstate : g.gcstate = .sweepstring) (hg : Sound NoRef g) :
    Sound NoRef (sweepstrings g) := by
  have hs := sweeps_sweepstrings g
  have hshape := shape_sweepstrings hg.shape
  obtain ⟨hswept, hbefore⟩ : g.swept = [] ∧
      ∀ k < g.sweepstrgc, ∀ i ∈ g.strt.getD k [], clean g (.string i) := by
    have hcol := hg.coloured
    rwa [Coloured, hstate] at hcol
  have hlists : ∀ k < g.sweepstrgc + 1, ∀ i ∈ (sweepstrings g).strt.getD k [],
      clean (sweepstrings g) (.string i) := by
    intro k hk i hi
    by_cases hkey : k = g.sweepstrgc
    · subst hkey
      by_cases hin : i ∈ g.strt.getD g.sweepstrgc []
      · exact hs.clean_of_swept (sweepstrings_color_string hin)
      · rw [sweepstrings_eq] at hi
        simp only [List.getD_eq_getElem?_getD, List.getElem?_set_self'] at hi hin
        cases hget : g.strt[g.sweepstrgc]? with
        | none => simp [hget] at hi
        | some os =>
            simp only [hget, Option.map_some, Option.getD_some, Option.map_eq_map,
              Function.const_apply] at hi hin
            have hkept := (mem_keptstrings.mp hi).1
            rw [List.getD_eq_getElem?_getD, hget] at hkept
            exact absurd hkept hin
    · refine hs.clean (hbefore k (by omega) i ?_)
      rw [sweepstrings_eq] at hi
      simp only [List.getD_eq_getElem?_getD, List.getElem?_set_ne (Ne.symm hkey)] at hi ⊢
      exact hi
  refine hs.sound hg hshape ?_
  have hfields : (sweepstrings g).swept = [] ∧ (sweepstrings g).sweepstrgc = g.sweepstrgc + 1 ∧
      (sweepstrings g).strt.length = g.strt.length ∧ (sweepstrings g).gcstate =
        if g.sweepstrgc + 1 ≥ g.strt.length then .sweep else .sweepstring := by
    rw [sweepstrings_eq]
    exact ⟨hswept, rfl, List.length_set, by rw [hstate]⟩
  obtain ⟨hswept', hsweepstrgc, hlength, hstate'⟩ := hfields
  rw [Coloured, hstate']
  split
  · next hif =>
      split at hif
      all_goals cases hif
  · rw [hsweepstrgc]
    exact ⟨hswept', hlists⟩
  · next hif =>
      have hall : g.sweepstrgc + 1 ≥ g.strt.length := by
        by_contra hlt
        rw [if_neg hlt] at hif
        cases hif
      refine ⟨fun i => ?_, fun o ho => by rw [hswept'] at ho; cases ho⟩
      by_cases hnone : (sweepstrings g).color (.string i) = none
      · exact Or.inl hnone
      · have hin : i ∈ (sweepstrings g).strt.flatten := hshape.placed _ hnone
        obtain ⟨os, hos, hi⟩ := List.mem_flatten.mp hin
        obtain ⟨k, hk, hget⟩ := List.mem_iff_getElem.mp hos
        refine hlists k (by omega) i ?_
        rw [List.getD_eq_getElem _ _ hk, hget]
        exact hi
  all_goals
    next hif =>
      split at hif
      all_goals cases hif

/-! ### Open upvalues -/

section SweepUpvals

variable {th : ℕ}

/-- The open upvalues of a thread that are kept. -/
def keptupvals (g : State) (th : ℕ) : List ℕ :=
  (g.thread th).openupval.filter fun u => keeps g (.upval u)

theorem sweepupvals_eq (g : State) (th : ℕ) : sweepupvals g th =
    { g with
      color := fun x =>
        if x ∈ (g.thread th).openupval.map .upval then sweptcolor g x else g.color x
      thread := Function.update g.thread th { g.thread th with openupval := keptupvals g th }
      uvhead := g.uvhead.filter fun u =>
        !(g.thread th).openupval.contains u || (keptupvals g th).contains u } := by
  simp only [sweepupvals, sweepobjects_eq, keptupvals]

theorem mem_keptupvals {u : ℕ} : u ∈ keptupvals g th ↔
    u ∈ (g.thread th).openupval ∧ keeps g (.upval u) = true := List.mem_filter

theorem sweepupvals_thread_self : (sweepupvals g th).thread th =
    { g.thread th with openupval := keptupvals g th } := by
  rw [sweepupvals_eq]
  exact Function.update_self ..

theorem sweepupvals_thread_of_ne {i : ℕ} (h : i ≠ th) :
    (sweepupvals g th).thread i = g.thread i := by
  rw [sweepupvals_eq]
  exact Function.update_of_ne h ..

theorem sweepupvals_color_upval {u : ℕ} (hu : u ∈ (g.thread th).openupval) :
    (sweepupvals g th).color (.upval u) = sweptcolor g (.upval u) := by
  rw [sweepupvals_eq]
  exact if_pos (List.mem_map_of_mem hu)

theorem sweepupvals_color {x : GCObject} (hx : ∀ u ∈ (g.thread th).openupval, x ≠ .upval u) :
    (sweepupvals g th).color x = g.color x := by
  rw [sweepupvals_eq]
  refine if_neg fun hin => ?_
  obtain ⟨u, hu, rfl⟩ := List.mem_map.mp hin
  exact hx u hu rfl

theorem sweeps_sweepupvals (g : State) (th : ℕ) : Sweeps g (sweepupvals g th) := by
  refine ⟨by rw [sweepupvals_eq], fun x => ?_, fun i => ?_⟩
  · by_cases hx : ∃ u ∈ (g.thread th).openupval, x = .upval u
    · obtain ⟨u, hu, rfl⟩ := hx
      exact Or.inr (sweepupvals_color_upval hu)
    · exact Or.inl (sweepupvals_color fun u hu hxu => hx ⟨u, hu, hxu⟩)
  · by_cases hi : i = th
    · subst hi
      rw [sweepupvals_thread_self]
      exact ⟨rfl, rfl⟩
    · rw [sweepupvals_thread_of_ne hi]
      exact ⟨rfl, rfl⟩

theorem sweepupvals_sublist (i : ℕ) :
    ((sweepupvals g th).thread i).openupval.Sublist (g.thread i).openupval := by
  by_cases hi : i = th
  · subst hi
    rw [sweepupvals_thread_self]
    exact List.filter_sublist
  · rw [sweepupvals_thread_of_ne hi]

theorem shape_sweepupvals (hg : Shape g) (hth : g.color (.thread th) ≠ none) :
    Shape (sweepupvals g th) := by
  have hs := sweeps_sweepupvals g th
  have hfields : rootgc (sweepupvals g th) = rootgc g ∧ (sweepupvals g th).tmudata = g.tmudata ∧
      (sweepupvals g th).strt = g.strt := by
    rw [sweepupvals_eq]
    exact ⟨rfl, rfl, rfl⟩
  obtain ⟨hroot, htmudata, hstrt⟩ := hfields
  have hcolor : ∀ x, (∀ u, x ≠ .upval u) → (sweepupvals g th).color x = g.color x :=
    fun x hx => sweepupvals_color fun u _ => hx u
  -- an upvalue is open in one thread only
  have honly : ∀ i u, g.color (.thread i) ≠ none → u ∈ (g.thread i).openupval →
      u ∈ (g.thread th).openupval → i = th := by
    intro i u hi hu hin
    obtain ⟨-, l, hl⟩ := hg.openupval i u hi hu
    obtain ⟨-, l', hl'⟩ := hg.openupval th u hth hin
    rw [hl] at hl'
    exact (UpVal.opened.inj hl').1
  apply hs.shape hg
  case hplaced =>
    intro x _ hplaced
    cases x with
    | string i => rwa [Placed, hstrt]
    | userdata u => rwa [Placed, hroot, htmudata]
    | upval u => rwa [Placed, hroot, isopen, hs.upval]
    | _ => simpa only [Placed, hroot] using hplaced
  case hroot => rw [hroot]
  case hkept =>
    intro x hx
    rw [hroot] at hx
    obtain ⟨hne, hrooted⟩ := hg.root x hx
    -- what is in `rootgc` is closed
    have hnot : ∀ w ∈ (g.thread th).openupval, x ≠ .upval w := by
      rintro w hw rfl
      obtain ⟨-, l, hl⟩ := hg.openupval th w hth hw
      rw [Rooted, isopen, hl] at hrooted
      cases hrooted
    rw [sweepupvals_color hnot]
    exact hne
  case hstrt => rw [hstrt]; exact hg.strt
  case hstrings =>
    rw [hstrt]
    exact hg.strings.imp_right fun h i hi => by rw [hcolor _ (by simp)]; exact h i hi
  case hmain => rw [hroot]; exact hg.main
  case hups => exact sweepupvals_sublist
  case hupkept =>
    intro i u hi hu
    have hin := (sweepupvals_sublist i).subset hu
    have hne := (hg.openupval i u (hs.ne_none hi) hin).1
    by_cases hth' : u ∈ (g.thread th).openupval
    · obtain rfl := honly i u (hs.ne_none hi) hin hth'
      rw [sweepupvals_thread_self] at hu
      rw [sweepupvals_color_upval hth', sweptcolor, if_pos (mem_keptupvals.mp hu).2, ne_eq,
        Option.map_eq_none_iff]
      exact hne
    · rw [sweepupvals_color]
      · exact hne
      · rintro w hw ⟨⟩
        exact hth' hw
  case hopened =>
    intro i u hu hin huvhead hi
    -- it is kept
    have hkept : u ∈ (g.thread th).openupval → u ∈ keptupvals g th := by
      intro hth'
      rw [sweepupvals_color_upval hth', sweptcolor] at hu
      exact mem_keptupvals.mpr ⟨hth', Classical.byContradiction fun hk => hu (if_neg hk)⟩
    rw [hcolor (.thread i) (by simp)]
    refine ⟨?_, ?_, hi⟩
    · by_cases hith : i = th
      · subst hith
        rw [sweepupvals_thread_self]
        exact hkept hin
      · rwa [sweepupvals_thread_of_ne hith]
    · rw [sweepupvals_eq]
      refine List.mem_filter.mpr ⟨huvhead, ?_⟩
      rw [Bool.or_eq_true, Bool.not_eq_true', List.contains_iff_mem]
      by_cases hth' : u ∈ (g.thread th).openupval
      · exact Or.inr (hkept hth')
      · exact Or.inl (by simpa using hth')

/-- **The open upvalues of a thread are swept.** -/
theorem sound_sweepupvals (hstate : g.gcstate = .sweep) (hg : Sound NoRef g)
    (hth : g.color (.thread th) ≠ none) :
    Sound NoRef (sweepupvals g th) ∧ ∀ c ∈ openupvals (sweepupvals g th) (.thread th),
      clean (sweepupvals g th) c := by
  have hs := sweeps_sweepupvals g th
  refine ⟨hs.sound hg (shape_sweepupvals hg.shape hth) ?_, fun c hc => ?_⟩
  · have hcol := hg.coloured
    have hfields : (sweepupvals g th).gcstate = .sweep ∧ (sweepupvals g th).swept = g.swept := by
      rw [sweepupvals_eq]
      exact ⟨hstate, rfl⟩
    rw [Coloured, hstate] at hcol
    rw [Coloured, hfields.1, hfields.2]
    refine ⟨fun i => hs.clean (hcol.1 i), fun o ho => ?_⟩
    obtain ⟨hclean, hups⟩ := hcol.2 o ho
    refine ⟨hs.clean hclean, fun hne c hc => hs.clean (hups (hs.ne_none hne) c ?_)⟩
    cases o with
    | thread i =>
        obtain ⟨u, hu, rfl⟩ := List.mem_map.mp hc
        exact List.mem_map_of_mem ((sweepupvals_sublist i).subset hu)
    | _ => cases hc
  · obtain ⟨u, hu, rfl⟩ := List.mem_map.mp hc
    exact hs.clean_of_swept (sweepupvals_color_upval ((sweepupvals_sublist th).subset hu))

end SweepUpvals

/-! ### Objects of `rootgc` -/

/-- The object is not in the list. -/
def without (g : State) (o : GCObject) : State := { g with unswept := g.unswept.erase o }

theorem mem_without (hg : Shape g) (ho : o ∈ g.unswept) {x : GCObject} :
    x ∈ rootgc (without g o) ↔ x ∈ rootgc g ∧ x ≠ o := by
  obtain ⟨-, hunswept, hdisj⟩ := List.nodup_append.mp hg.rootnodup
  rw [rootgc, rootgc, List.mem_append, List.mem_append, without, hunswept.mem_erase_iff]
  constructor
  · rintro (hx | ⟨hne, hx⟩)
    · exact ⟨Or.inl hx, hdisj x hx o ho⟩
    · exact ⟨Or.inr hx, hne⟩
  · rintro ⟨hx | hx, hne⟩
    · exact Or.inl hx
    · exact Or.inr ⟨hne, hx⟩

/-- **A dead object is freed.** -/
theorem sound_freeroot (hstate : g.gcstate = .sweep) (hg : Sound NoRef g) (ho : o ∈ g.unswept)
    (hkeeps : keeps g o = false) (hup : openupvals g o = []) :
    Sound NoRef (freeobj (without g o) o) := by
  set g' := freeobj (without g o) o with hg'
  have hself : g'.color o = none := Function.update_self ..
  have hcolor : ∀ x, x ≠ o → g'.color x = g.color x := fun x hx => Function.update_of_ne hx ..
  have hs : Sweeps g g' := by
    refine ⟨rfl, fun x => ?_, fun i => ⟨rfl, rfl⟩⟩
    by_cases hx : x = o
    · subst hx
      refine Or.inr (hself.trans ?_)
      rw [sweptcolor, hkeeps]
      rfl
    · exact Or.inl (hcolor x hx)
  have hsh := hg.shape
  have hdead : ¬live g o := by
    intro hl
    rw [keeps, Bool.or_eq_false_iff, Bool.not_eq_false', isdead, decide_eq_true_eq] at hkeeps
    exact hl.2 hkeeps.1
  have hmem : ∀ {x}, x ∈ rootgc g' ↔ x ∈ rootgc g ∧ x ≠ o := mem_without hsh ho
  have hne : ∀ {x}, g'.color x ≠ none → x ≠ o := by
    rintro x hx rfl
    exact hx hself
  have hrooted := (hsh.root o (List.mem_append_right _ ho)).2
  -- it has no open upvalues
  have hthread : ∀ {i u}, u ∈ (g.thread i).openupval → GCObject.thread i ≠ o := by
    rintro i u hu rfl
    rw [openupvals, List.map_eq_nil_iff] at hup
    rw [hup] at hu
    cases hu
  have hupval : ∀ {u}, isopen g u = true → GCObject.upval u ≠ o := by
    rintro u hu rfl
    have hclosed : isopen g u = false := hrooted
    rw [hu] at hclosed
    cases hclosed
  refine hs.sound hg ?_ ?_
  · apply hs.shape hsh
    case hplaced =>
      intro x hx hplaced
      cases x with
      | string i => exact hplaced
      | userdata u => exact hplaced.imp_left fun hin => hmem.mpr ⟨hin, hne hx⟩
      | upval u => exact hplaced.imp_right fun hin => hmem.mpr ⟨hin, hne hx⟩
      | _ => exact hmem.mpr ⟨hplaced, hne hx⟩
    case hroot => exact (List.Sublist.refl _).append List.erase_sublist
    case hkept =>
      intro x hx
      obtain ⟨hin, hxo⟩ := hmem.mp hx
      rw [hcolor x hxo]
      exact (hsh.root x hin).1
    case hstrt => exact hsh.strt
    case hstrings =>
      refine hsh.strings.imp_right fun h i hi => ?_
      rw [hcolor]
      · exact h i hi
      · rintro rfl
        exact hrooted
    case hmain => exact hmem.mpr ⟨hsh.main, fun heq => hdead (heq ▸ hg.main)⟩
    case hups => exact fun _ => List.Sublist.refl _
    case hupkept =>
      intro i u hi hu
      obtain ⟨hu', l, hl⟩ := hsh.openupval i u (hs.ne_none hi) hu
      rw [hcolor _ (hupval (isopen_iff.mpr ⟨i, l, hl⟩))]
      exact hu'
    case hopened =>
      intro i u _ hin huvhead hi
      rw [hcolor _ (hthread hin)]
      exact ⟨hin, huvhead, hi⟩
  · refine coloured_of_clean hg.coloured rfl (fun h => ?_) (fun x => hs.clean) rfl rfl rfl rfl ?_
    · rw [hstate] at h
      cases h
    · exact fun x _ hx c hc => Or.inl ⟨hs.ne_none hx, by cases x <;> exact hc⟩

/-! ### A thread that is freed closes its upvalues -/

section FreeThread

variable {th u : ℕ}

theorem linkroot_without {x : GCObject} (h : o ≠ x) :
    linkroot (without g o) x = without (linkroot g x) o := by
  rw [linkroot, linkroot]
  change (if g.swept = [] then _ else _) = _
  split
  · have herase : (x :: g.unswept).erase o = x :: g.unswept.erase o :=
      List.erase_cons_tail (by simpa using Ne.symm h)
    rw [without, without, herase]
  · rfl

/-- An object that is no upvalue may leave `rootgc` before or after. -/
theorem closeupval_without (hstate : g.gcstate ≠ .propagate) (h : o ≠ .upval u) :
    closeupval (without g o) th u = without (closeupval g th u) o := by
  have hclosed : closedup (without g o) th u = without (closedup g th u) o :=
    linkroot_without (g := { unlinkupval g th u with
      upval := Function.update g.upval u (.closed (uvalue g u)) }) h
  rw [closeupval_eq, closeupval_eq, hclosed]
  change (if isdead g (.upval u) = true then _ else if isgray g (.upval u) = true then
    if g.gcstate = .propagate then _ else _ else _) = _
  rw [if_neg hstate, if_neg hstate]
  split_ifs <;> rfl

theorem closeupval_fields (hstate : g.gcstate ≠ .propagate) :
    (closeupval g th u).gcstate = g.gcstate ∧ (closeupval g th u).fixed = g.fixed ∧
      (closeupval g th u).currentwhite = g.currentwhite ∧
      ∀ x ∈ g.unswept, x ∈ (closeupval g th u).unswept := by
  have hclosed : (closedup g th u).gcstate = g.gcstate ∧ (closedup g th u).fixed = g.fixed ∧
      (closedup g th u).currentwhite = g.currentwhite := by
    rw [closedup_eq]
    exact ⟨rfl, rfl, rfl⟩
  have hunswept : ∀ x ∈ g.unswept, x ∈ (closedup g th u).unswept := by
    intro x hx
    rw [closedup, linkroot]
    split
    · exact List.mem_cons_of_mem _ hx
    · exact hx
  rw [closeupval_eq, if_neg hstate]
  split_ifs
  · exact ⟨rfl, rfl, rfl, fun _ hx => hx⟩
  · exact ⟨hclosed.1, hclosed.2.1, hclosed.2.2, hunswept⟩
  · exact ⟨hclosed.1, hclosed.2.1, hclosed.2.2, hunswept⟩

theorem closeupvals_without {us : List ℕ} (hstate : g.gcstate ≠ .propagate)
    (h : ∀ u, o ≠ .upval u) : us.foldl (fun g u => closeupval g th u) (without g o) =
      without (us.foldl (fun g u => closeupval g th u) g) o := by
  induction us generalizing g with
  | nil => rfl
  | cons u us ih =>
      rw [List.foldl_cons, List.foldl_cons, closeupval_without hstate (h u)]
      exact ih (by rwa [(closeupval_fields hstate).1])

/-- What is left of a thread without its open upvalues. -/
structure ClosedUpvals (th : ℕ) (us : List ℕ) (g g' : State) : Prop where
  gcstate : g'.gcstate = g.gcstate
  keeps : ∀ x, (∀ u ∈ us, x ≠ .upval u) → keeps g' x = keeps g x
  openupval : ∀ w ∈ (g'.thread th).openupval, w ∈ (g.thread th).openupval ∧ w ∉ us
  unswept : ∀ x ∈ g.unswept, x ∈ g'.unswept

theorem closeupvals_closed {us : List ℕ} (hstate : g.gcstate ≠ .propagate) (hg : Sound NoRef g)
    (hth : g.color (.thread th) ≠ none) (hin : ∀ u ∈ us, u ∈ (g.thread th).openupval)
    (hnodup : us.Nodup) :
    ClosedUpvals th us g (us.foldl (fun g u => closeupval g th u) g) := by
  induction us generalizing g with
  | nil => exact ⟨rfl, fun _ _ => rfl, fun w hw => ⟨hw, List.not_mem_nil⟩, fun _ hx => hx⟩
  | cons u us ih =>
      obtain ⟨hnotmem, hnodup⟩ := List.nodup_cons.mp hnodup
      have hu := hin u List.mem_cons_self
      obtain ⟨hsound, hcloses⟩ := sound_closeupval hg hth hu
      have hun : Unlinks th u g (closeupval g th u) :=
        unlinks_closeupval hstate (hg.shape.openupval th u hth hu).1
      obtain ⟨hgcstate, hfixed, hwhite, hunswept⟩ := closeupval_fields (u := u) hstate
      have h := ih (by rwa [hgcstate]) hsound
        (fun hnone => hth ((hcloses.none _ (by simp)).mp hnone))
        (fun w hw => closes_mem hcloses (hin w (List.mem_cons_of_mem _ hw)) (by
          rintro rfl
          exact hnotmem hw)) hnodup
      refine ⟨h.gcstate.trans hgcstate, fun x hx => ?_, fun w hw => ?_,
        fun x hx => h.unswept x (hunswept x hx)⟩
      · refine (h.keeps x fun w hw => hx w (List.mem_cons_of_mem _ hw)).trans ?_
        rw [Bool.eq_iff_iff]
        simp only [Collector.keeps, isdead, Bool.or_eq_true, Bool.not_eq_true',
          decide_eq_false_iff_not, hun.color x (hx u List.mem_cons_self), hfixed, hwhite]
      · obtain ⟨hw, hnot⟩ := h.openupval w hw
        rw [hcloses.thread, unlinkupval_thread_self] at hw
        obtain ⟨hne, hw⟩ := ((hg.shape.nodup th hth).mem_erase_iff).mp hw
        exact ⟨hw, List.not_mem_cons_of_ne_of_not_mem hne hnot⟩

/-- **A dead thread is freed.** -/
theorem sound_freethread (hstate : g.gcstate = .sweep) (hg : Sound NoRef g)
    (ho : .thread th ∈ g.unswept) (hkeeps : keeps g (.thread th) = false) :
    Sound NoRef (freeobj (luaF_close (without g (.thread th)) th 0) (.thread th)) ∧
      (luaF_close (without g (.thread th)) th 0).gcstate = .sweep := by
  have hth := (hg.shape.root _ (List.mem_append_right _ ho)).1
  have hnotprop : g.gcstate ≠ .propagate := by rw [hstate]; simp
  -- all its upvalues are at level 0 or above
  have hall : (g.thread th).openupval.takeWhile (openat g 0) = (g.thread th).openupval := by
    refine List.takeWhile_eq_self_iff.mpr fun u hu => ?_
    obtain ⟨-, l, hl⟩ := hg.shape.openupval th u hth hu
    rw [openat, hl]
    exact decide_eq_true (Nat.zero_le l)
  have hclosed := closeupvals_closed hnotprop hg hth (fun _ hu => hu) (hg.shape.nodup th hth)
  have hsound := sound_closeupvals hg hth (fun _ hu => hu) (hg.shape.nodup th hth)
  have heq : luaF_close (without g (.thread th)) th 0 =
      without ((g.thread th).openupval.foldl (fun g u => closeupval g th u) g) (.thread th) := by
    rw [luaF_close]
    change ((g.thread th).openupval.takeWhile (openat g 0)).foldl _ _ = _
    rw [hall]
    exact closeupvals_without hnotprop (by simp)
  rw [heq]
  refine ⟨sound_freeroot (hclosed.gcstate.trans hstate) hsound (hclosed.unswept _ ho) ?_ ?_,
    hclosed.gcstate.trans hstate⟩
  · rw [hclosed.keeps _ (by simp)]
    exact hkeeps
  · rw [openupvals, List.map_eq_nil_iff, List.eq_nil_iff_forall_not_mem]
    exact fun w hw => (hclosed.openupval w hw).2 (hclosed.openupval w hw).1

end FreeThread

/-! ### `sweeplist` -/

theorem coloured_of_sweep (hstate : g.gcstate = .sweep) (h : (∀ i, clean g (.string i)) ∧
    ∀ o ∈ g.swept, clean g o ∧ (g.color o ≠ none → ∀ c ∈ openupvals g o, clean g c)) :
    Coloured NoRef g := by
  rw [Coloured, hstate]
  exact h

/-- Another part of `rootgc` is swept. -/
theorem sound_relist {s u : List GCObject} (hg : Sound NoRef g) (hroot : s ++ u = rootgc g)
    (hcol : Coloured NoRef { g with swept := s, unswept := u }) :
    Sound NoRef { g with swept := s, unswept := u } := by
  refine ⟨shape_congr hg.shape (fun _ => Iff.rfl) hroot rfl rfl rfl rfl rfl rfl rfl rfl rfl, ?_,
    hg.main, hg.registry, hg.mt, hg.tmudata, hg.udata, hg.thread, hg.upval, hcol⟩
  exact fun x hx c hc => hg.closed x hx c (by cases x <;> exact hc)

/-- **An object is kept**, and comes to those that are swept. -/
theorem sound_keeproot {unswept : List GCObject} (hstate : g.gcstate = .sweep)
    (hg : Sound NoRef g) (hunswept : g.unswept = o :: unswept) (hkeeps : keeps g o = true)
    (hup : ∀ c ∈ openupvals g o, clean g c) :
    Sound NoRef { makewhite g o with swept := g.swept ++ [o], unswept := unswept } := by
  have ho : o ∈ rootgc g := List.mem_append_right _ (by rw [hunswept]; exact List.mem_cons_self)
  obtain ⟨hne, hrooted⟩ := hg.shape.root o ho
  have hlive : live g o := by
    rcases live_or_fixed (g := g) (o := o) (by
      rw [sweptcolor, if_pos hkeeps, ne_eq, Option.map_eq_none_iff]
      exact hne) with hl | hfixed
    · exact hl
    · rcases hg.shape.fixed o hfixed with ⟨i, rfl⟩ | rfl
      · exact hrooted.elim
      · exact hg.main
  have hwhite : Sound NoRef (makewhite g o) :=
    sound_makewhite (by rw [hstate]; simp) hg hne (hg.closed o hlive)
  have hclean : ∀ x, clean g x → clean (makewhite g o) x := fun x hx => by
    rw [← recolour_white]
    exact clean_recolour hx
  have hself : clean (makewhite g o) o := Or.inr (setcolor_color_of_ne_none hne _)
  refine sound_relist hwhite ?_ ?_
  · change _ = g.swept ++ g.unswept
    rw [hunswept, List.append_assoc, List.singleton_append]
  · have hcol := hg.coloured
    rw [Coloured, hstate] at hcol
    refine coloured_of_sweep hstate ⟨fun i => hclean _ (hcol.1 i), fun x hx => ?_⟩
    rcases List.mem_append.mp hx with hx | hx
    · obtain ⟨hx, hups⟩ := hcol.2 x hx
      refine ⟨hclean x hx, fun hne' c hc => hclean c (hups (fun hnone => hne' ?_) c ?_)⟩
      · exact (setcolor_none x _).mpr hnone
      · cases x <;> exact hc
    · obtain rfl := List.mem_singleton.mp hx
      exact ⟨hself, fun _ c hc => hclean c (hup c (by cases x <;> exact hc))⟩

/-- **One round of `sweeplist`.** -/
theorem sound_sweepone (hstate : g.gcstate = .sweep) (hg : Sound NoRef g) :
    Sound NoRef (sweepone g) ∧ (sweepone g).gcstate = .sweep := by
  rw [sweepone]
  split
  · exact ⟨hg, hstate⟩
  next o unswept hunswept =>
  by_cases hthread : ∃ th, o = .thread th
  · obtain ⟨th, rfl⟩ := hthread
    have hth : g.color (.thread th) ≠ none := (hg.shape.root _
      (List.mem_append_right _ (by rw [hunswept]; exact List.mem_cons_self))).1
    obtain ⟨hsound, hclean⟩ := sound_sweepupvals hstate hg hth
    have hfields : (sweepupvals g th).gcstate = .sweep ∧
        (sweepupvals g th).unswept = .thread th :: unswept := by
      rw [sweepupvals_eq]
      exact ⟨hstate, hunswept⟩
    dsimp only
    split
    · next hkeeps => exact ⟨sound_keeproot hfields.1 hsound hfields.2 hkeeps hclean, hfields.1⟩
    · next hkeeps =>
        have hin : GCObject.thread th ∈ (sweepupvals g th).unswept := by
          rw [hfields.2]
          exact List.mem_cons_self
        have heq : ({ sweepupvals g th with unswept := unswept } : State) =
            without (sweepupvals g th) (.thread th) := by
          rw [without, hfields.2, List.erase_cons_head]
        rw [heq]
        exact sound_freethread hfields.1 hsound hin (Bool.eq_false_of_not_eq_true hkeeps)
  · -- the other objects have no open upvalues
    have hup : openupvals g o = [] := by
      cases o with
      | thread th => exact absurd ⟨th, rfl⟩ hthread
      | _ => rfl
    have hin : o ∈ g.unswept := by
      rw [hunswept]
      exact List.mem_cons_self
    have heq : ({ g with unswept := unswept } : State) = without g o := by
      rw [without, hunswept, List.erase_cons_head]
    have hround : Sound NoRef (if keeps g o = true then
        { makewhite g o with swept := g.swept ++ [o], unswept := unswept }
        else freeobj { g with unswept := unswept } o) := by
      split
      · next hkeeps =>
          exact sound_keeproot hstate hg hunswept hkeeps fun c hc => by
            rw [hup] at hc
            cases hc
      · next hkeeps =>
          rw [heq]
          exact sound_freeroot hstate hg hin (Bool.eq_false_of_not_eq_true hkeeps) hup
    have hstate' : (if keeps g o = true then
        { makewhite g o with swept := g.swept ++ [o], unswept := unswept }
        else freeobj { g with unswept := unswept } o).gcstate = .sweep := by
      split <;> exact hstate
    cases o with
    | thread th => exact absurd ⟨th, rfl⟩ hthread
    | _ => exact ⟨hround, hstate'⟩

theorem sound_sweeplist (count : ℕ) (hstate : g.gcstate = .sweep) (hg : Sound NoRef g) :
    Sound NoRef (sweeplist count g) ∧ (sweeplist count g).gcstate = .sweep := by
  induction count generalizing g with
  | zero => exact ⟨hg, hstate⟩
  | succ count ih =>
      obtain ⟨hsound, hstate'⟩ := sound_sweepone hstate hg
      exact ih hstate' hsound

end UnityLua.Collector
