import UnityLua.CollectorMarking

/-!
# New objects

A new object has the current white and refers to live objects; it is in one of the lists.

## Main results

* `Allocates.sound`: the invariant after an allocation.
* `sound_link`, `sound_newudata`, `sound_findupval`, `sound_newlstr`: the objects of each kind.
-/

namespace UnityLua.Collector

open Library

variable {E E' D : GCObject → GCObject → Prop} {g g' : State} {o : GCObject}

/-! ### Allocation -/

/-- `g'` is `g` with a new object. -/
structure Allocates (o : GCObject) (g g' : State) : Prop where
  none : g.color o = none
  eq : g' = { g with color := g'.color, fixed := g'.fixed, content := g'.content,
                     upval := g'.upval, thread := g'.thread, uvhead := g'.uvhead,
                     strt := g'.strt, swept := g'.swept, unswept := g'.unswept }
  color : g'.color = Function.update g.color o (some (.white g.currentwhite))
  refs : ∀ x, x ≠ o → g.color x ≠ Option.none → refs g' x = refs g x
  live : ∀ c ∈ Collector.refs g' o, live g c
  isopen : ∀ u, g.color (.upval u) ≠ Option.none → isopen g' u = isopen g u
  swept : ∀ x ∈ g'.swept, x ∈ g.swept ∨ x = o
  unswept : g.swept = [] → g.gcstate = .sweepstring → g'.swept = []
  strt : ∀ k, ∀ i ∈ g'.strt.getD k [], i ∈ g.strt.getD k [] ∨ .string i = o
  openupvals : ∀ x, g'.color x ≠ Option.none → ∀ c ∈ openupvals g' x,
    g.color x ≠ Option.none ∧ c ∈ openupvals g x ∨ c = o

namespace Allocates

variable (h : Allocates o g g')

include h

theorem color_self : g'.color o = some (.white g.currentwhite) := by
  rw [h.color, Function.update_self]

theorem color_of_ne {x : GCObject} (hx : x ≠ o) : g'.color x = g.color x := by
  rw [h.color, Function.update_of_ne hx]

theorem ne_of_ne_none {x : GCObject} (hx : g.color x ≠ Option.none) : x ≠ o := by
  rintro rfl
  exact hx h.none

theorem currentwhite : g'.currentwhite = g.currentwhite := by rw [h.eq]

theorem live_self : Collector.live g' o := by
  rw [Collector.live, h.color_self, h.currentwhite]
  simp

theorem live_of_live {x : GCObject} (hx : Collector.live g x) : Collector.live g' x := by
  rw [Collector.live, h.color_of_ne (h.ne_of_ne_none hx.1), h.currentwhite]
  exact hx

theorem clean {x : GCObject} (hx : clean g x) : Collector.clean g' x := by
  by_cases hxo : x = o
  · subst hxo
    exact Or.inr (h.color_self.trans (by rw [h.currentwhite]))
  · rw [Collector.clean, h.color_of_ne hxo, h.currentwhite]
    exact hx

theorem nonwhite {x : GCObject} (hx : nonwhite g x) : Collector.nonwhite g' x := by
  rw [Collector.nonwhite, h.color_of_ne (h.ne_of_ne_none hx.ne_none)]
  exact hx

/-- The object is not marked. -/
theorem ne_of_color {x : GCObject} {c : Colour} (hx : g'.color x = some c)
    (hc : c ≠ .white g.currentwhite) : x ≠ o ∧ g.color x = some c := by
  have hxo : x ≠ o := by
    rintro rfl
    rw [h.color_self] at hx
    exact hc (Option.some.inj hx).symm
  rw [h.color_of_ne hxo] at hx
  exact ⟨hxo, hx⟩

theorem marking (hg : Marking E g) : Marking E g' := by
  have hlists : g'.gray = g.gray ∧ g'.grayagain = g.grayagain ∧ g'.weak = g.weak ∧
      g'.tmudata = g.tmudata ∧ g'.registry = g.registry ∧ g'.mainthread = g.mainthread := by
    rw [h.eq]
    exact ⟨rfl, rfl, rfl, rfl, rfl, rfl⟩
  obtain ⟨hgray, hagain, hweak, htmudata, hregistry, hmain⟩ := hlists
  have hlisted : ∀ x, Listed g' x ↔ Listed g x := fun x => by
    rw [Listed, Listed, hgray, hagain, hweak]
  refine ⟨⟨fun x hx => ?_, fun x hx => ?_, fun x hx => ?_, fun x hx => ?_⟩, ?_, ?_⟩
  · rw [h.currentwhite] at hx
    exact hg.nodead x (h.ne_of_color hx (by simp)).2
  · obtain ⟨ht, hne⟩ := hg.listed x ((hlisted x).mp hx)
    exact ⟨ht, h.color_of_ne (h.ne_of_ne_none hne) ▸ hne⟩
  · obtain ⟨hxo, hx⟩ := h.ne_of_color hx (by simp)
    rw [htmudata]
    refine (hg.black x hx).imp_right fun hrefs c hc => ?_
    rw [h.refs x hxo (by simp [hx])] at hc
    exact (hrefs c hc).imp_left h.nonwhite
  · obtain ⟨-, hx⟩ := h.ne_of_color hx (by simp)
    refine (hg.gray x hx).imp (hlisted x).mpr (Or.imp_right ?_)
    rintro ⟨u, rfl, hu⟩
    exact ⟨u, rfl, (h.isopen u (by simp [hx])).trans hu⟩
  · rw [hmain]
    exact h.nonwhite hg.main
  · rw [hregistry]
    exact fun c hc => h.nonwhite (hg.registry c hc)

theorem coloured (hg : Coloured E g) : Coloured E g' := by
  have hfields : g'.gcstate = g.gcstate ∧ g'.sweepstrgc = g.sweepstrgc ∧
      g'.tmudata = g.tmudata := by
    rw [h.eq]
    exact ⟨rfl, rfl, rfl⟩
  rw [Coloured] at hg ⊢
  rw [hfields.1]
  split at hg
  · exact h.marking hg
  · next hstate =>
      rw [hfields.2.1]
      refine ⟨h.unswept hg.1 hstate, fun k hk i hi => ?_⟩
      obtain hi | rfl := h.strt k i hi
      · exact h.clean (hg.2 k hk i hi)
      · exact h.clean (Or.inl h.none)
  · refine ⟨fun i => h.clean (hg.1 i), fun x hx => ?_⟩
    obtain hx | rfl := h.swept x hx
    · refine ⟨h.clean (hg.2 x hx).1, fun hne c hc => ?_⟩
      obtain ⟨hne', hc⟩ | rfl := h.openupvals x hne c hc
      · exact h.clean ((hg.2 x hx).2 hne' c hc)
      · exact h.clean (Or.inl h.none)
    · refine ⟨h.clean (Or.inl h.none), fun hne c hc => ?_⟩
      obtain ⟨hne', -⟩ | rfl := h.openupvals x hne c hc
      · exact absurd h.none hne'
      · exact h.clean (Or.inl h.none)
  all_goals
    rw [hfields.2.2]
    exact fun x => (hg x).imp_left h.clean

/-- **The invariant with a new object.** -/
theorem sound (hshape : Shape g') (hg : Sound E g) : Sound E g' := by
  have hfields : g'.registry = g.registry ∧ g'.mainthread = g.mainthread ∧ g'.mt = g.mt ∧
      g'.tmudata = g.tmudata := by
    rw [h.eq]
    exact ⟨rfl, rfl, rfl, rfl⟩
  obtain ⟨hregistry, hmain, hmt, htmudata⟩ := hfields
  constructor
  case shape => exact hshape
  case closed =>
    intro x hx c hc
    by_cases hxo : x = o
    · exact h.live_of_live (h.live c (hxo ▸ hc))
    · have hx' : Collector.live g x := by
        rwa [Collector.live, h.color_of_ne hxo, h.currentwhite] at hx
      rw [h.refs x hxo hx'.1] at hc
      exact h.live_of_live (hg.closed x hx' c hc)
  case main => rw [hmain]; exact h.live_of_live hg.main
  case registry => rw [hregistry]; exact fun c hc => h.live_of_live (hg.registry c hc)
  case mt => rw [hmt]; exact fun c hc => h.live_of_live (hg.mt c hc)
  case tmudata => rw [htmudata]; exact fun u hu => h.live_of_live (hg.tmudata u hu)
  case udata => exact fun u hu => hg.udata u (h.ne_of_color hu (by simp)).2
  case thread => exact fun i hi => hg.thread i (h.ne_of_color hi (by simp)).2
  case upval =>
    intro u hopen hu
    obtain ⟨-, hu⟩ := h.ne_of_color hu (by simp)
    exact hg.upval u ((h.isopen u (by simp [hu])).symm.trans hopen) hu
  case coloured => exact h.coloured hg.coloured

end Allocates

/-! ### Objects in `rootgc` -/

/-- A type of objects that are in `rootgc`. -/
def rooted : GCObject → Prop
  | .string _ | .upval _ => False
  | _ => True

/-- A new object is not fixed. -/
theorem fixed_update {p : GCObject → Prop} (h : ∀ x, g.fixed x = true → p x) :
    ∀ x, Function.update g.fixed o false x = true → p x := by
  intro x hx
  by_cases hxo : x = o
  · rw [hxo, Function.update_self] at hx
    cases hx
  · rw [Function.update_of_ne hxo] at hx
    exact h x hx

/-- The shape with an object more in `rootgc`. -/
theorem shape_of_root (hg : Shape g) (hkind : rooted o) (hnone : g.color o = none)
    (hthread : ∀ th, o = .thread th → (g.thread th).openupval = [])
    (hrooted : Rooted g o)
    (heq : g' = { newmark g o with swept := g'.swept, unswept := g'.unswept })
    (hperm : (rootgc g').Perm (o :: rootgc g)) : Shape g' := by
  have hsub : ∀ x ∈ rootgc g, x ∈ rootgc g' := fun x hx =>
    hperm.mem_iff.mpr (List.mem_cons_of_mem _ hx)
  have ho : o ∈ rootgc g' := hperm.mem_iff.mpr List.mem_cons_self
  have hfields : g'.strt = g.strt ∧ g'.mainthread = g.mainthread ∧ g'.uvhead = g.uvhead ∧
      g'.running = g.running ∧ g'.resumers = g.resumers ∧ g'.thread = g.thread ∧
      g'.upval = g.upval ∧ g'.tmudata = g.tmudata ∧
      g'.fixed = Function.update g.fixed o false ∧
      g'.color = Function.update g.color o (some (.white g.currentwhite)) := by
    rw [heq]
    exact ⟨rfl, rfl, rfl, rfl, rfl, rfl, rfl, rfl, rfl, rfl⟩
  obtain ⟨hstrt, hmain, huvhead, hrunning, hresumers, hthreads, hupval, htmudata, hfixed,
    hcolor⟩ := hfields
  have hcol : ∀ x, x ≠ o → g'.color x = g.color x := fun x hx => by
    rw [hcolor, Function.update_of_ne hx]
  have hne_of : ∀ x, g.color x ≠ none → g'.color x ≠ none := fun x hx => by
    rwa [hcol x (by rintro rfl; exact hx hnone)]
  have hupcol : ∀ u, g'.color (.upval u) = g.color (.upval u) := fun u =>
    hcol _ (by rintro rfl; exact hkind)
  constructor
  case placed =>
    intro x hx
    by_cases hxo : x = o
    · subst hxo
      cases x with
      | string i => exact absurd hkind id
      | upval u => exact absurd hkind id
      | userdata u => exact Or.inl ho
      | _ => exact ho
    · rw [hcol x hxo] at hx
      have hplaced := hg.placed x hx
      cases x with
      | string i =>
          rw [Placed, hstrt]
          exact hplaced
      | userdata u =>
          rw [Placed, htmudata]
          exact hplaced.imp_left (hsub _)
      | upval u =>
          rw [Placed, isopen, hupval]
          exact hplaced.imp_right (hsub _)
      | _ => exact hsub _ hplaced
  case root =>
    intro x hx
    have hkeep : Rooted g x → Rooted g' x := by
      intro hx
      cases x with
      | userdata u => rwa [Rooted, htmudata]
      | upval u => rwa [Rooted, isopen, hupval]
      | _ => exact hx
    obtain rfl | hx := List.mem_cons.mp (hperm.mem_iff.mp hx)
    · exact ⟨by simp [hcolor], hkeep hrooted⟩
    · exact (hg.root x hx).imp (hne_of x) hkeep
  case rootnodup =>
    exact hperm.nodup_iff.mpr
      (List.nodup_cons.mpr ⟨fun hin => (hg.root o hin).1 hnone, hg.rootnodup⟩)
  case tmudata => rw [htmudata]; exact hg.tmudata
  case fixed => rw [hfixed, hmain]; exact fixed_update hg.fixed
  case strt => rw [hstrt]; exact hg.strt
  case strings =>
    rw [hstrt]
    exact hg.strings.imp_right fun h i hi => hne_of _ (h i hi)
  case main => rw [hmain]; exact hsub _ hg.main
  case openupval =>
    intro th u hth hu
    rw [hupcol, hupval]
    rw [hthreads] at hu
    by_cases htho : GCObject.thread th = o
    · rw [hthread th htho.symm] at hu
      cases hu
    · rw [hcol _ htho] at hth
      exact hg.openupval th u hth hu
  case nodup =>
    intro th hth
    rw [hthreads]
    by_cases htho : GCObject.thread th = o
    · rw [hthread th htho.symm]
      exact List.nodup_nil
    · rw [hcol _ htho] at hth
      exact hg.nodup th hth
  case opened =>
    intro u th l hne hl
    rw [hupcol] at hne
    rw [hupval] at hl
    rw [hthreads, huvhead]
    obtain ⟨hu, huv, hth⟩ := hg.opened u th l hne hl
    exact ⟨hu, huv, hne_of _ hth⟩
  case chained =>
    rw [hrunning, hresumers]
    exact chained_mono (fun th _ v hv => hthreads ▸ hv) hg.chained
  case last => rw [hrunning, hresumers, hmain]; exact hg.last
  case distinct => rw [hrunning, hresumers]; exact hg.distinct

theorem rootgc_linkroot (g : State) (o : GCObject) : rootgc (linkroot g o) = o :: rootgc g := by
  rw [linkroot]
  split
  · next h => simp [rootgc, h]
  · simp [rootgc]

theorem allocates_of_root (hkind : rooted o) (hnone : g.color o = none)
    (hthread : ∀ th, o = .thread th → (g.thread th).openupval = [])
    (hrefs : ∀ c ∈ refs g o, live g c)
    (heq : g' = { newmark g o with swept := g'.swept, unswept := g'.unswept })
    (hswept : ∀ x ∈ g'.swept, x ∈ g.swept ∨ x = o)
    (hnil : g.swept = [] → g.gcstate = .sweepstring → g'.swept = []) : Allocates o g g' := by
  have hfields : g'.strt = g.strt ∧ g'.thread = g.thread ∧ g'.upval = g.upval ∧
      g'.color = Function.update g.color o (some (.white g.currentwhite)) := by
    rw [heq]
    exact ⟨rfl, rfl, rfl, rfl⟩
  obtain ⟨hstrt, hthreads, hupval, hcolor⟩ := hfields
  have hrefs' : ∀ x, refs g' x = refs g x := fun x => by
    rw [heq]
    cases x <;> rfl
  constructor
  case none => exact hnone
  case eq =>
    rw [heq]
    rfl
  case color => exact hcolor
  case refs => exact fun x _ _ => hrefs' x
  case live =>
    rw [hrefs']
    exact hrefs
  case isopen => exact fun u _ => by rw [isopen, isopen, hupval]
  case swept => exact hswept
  case unswept => exact hnil
  case strt =>
    rw [hstrt]
    exact fun k i hi => Or.inl hi
  case openupvals =>
    intro x hne c hc
    by_cases hxo : x = o
    · subst hxo
      cases x with
      | thread th =>
          rw [openupvals, hthreads, hthread th rfl] at hc
          cases hc
      | _ => cases hc
    · rw [hcolor, Function.update_of_ne hxo] at hne
      refine Or.inl ⟨hne, ?_⟩
      cases x with
      | thread th =>
          rw [openupvals, hthreads] at hc
          exact hc
      | _ => exact hc

theorem linkroot_swept {x : GCObject} (hx : x ∈ (linkroot g o).swept) : x ∈ g.swept ∨ x = o := by
  rw [linkroot] at hx
  split at hx
  · exact Or.inl hx
  · exact (List.mem_cons.mp hx).symm

theorem linkroot_eq (g : State) (o : GCObject) : linkroot g o =
    { g with swept := (linkroot g o).swept, unswept := (linkroot g o).unswept } := by
  rw [linkroot]
  split <;> rfl

/-- **`luaC_link`.** -/
theorem sound_link (hg : Sound E g) (hkind : rooted o) (hnone : g.color o = none)
    (hthread : ∀ th, o = .thread th → (g.thread th).openupval = [])
    (hrooted : Rooted g o) (hrefs : ∀ c ∈ refs g o, live g c) :
    Sound E (luaC_link g o) ∧ live (luaC_link g o) o := by
  have halloc : Allocates o g (luaC_link g o) := by
    refine allocates_of_root hkind hnone hthread hrefs (linkroot_eq _ o)
      (fun x hx => linkroot_swept (g := newmark g o) hx) fun hnil _ => ?_
    have hnil' : (newmark g o).swept = [] := hnil
    rw [luaC_link, linkroot, if_pos hnil', hnil']
  refine ⟨halloc.sound (shape_of_root hg.shape hkind hnone hthread hrooted (linkroot_eq _ o) ?_) hg,
    halloc.live_self⟩
  rw [luaC_link, rootgc_linkroot]
  exact List.Perm.refl _

/-! ### Userdata -/

theorem insertAfter_of_notMem {m : GCObject} {os : List GCObject} (h : m ∉ os) :
    insertAfter m o os = os := by
  induction os with
  | nil => rfl
  | cons x xs ih =>
      rw [List.mem_cons, not_or] at h
      rw [insertAfter, if_neg (Ne.symm h.1), ih h.2]

theorem perm_insertAfter {m : GCObject} {os : List GCObject} (h : m ∈ os) :
    (insertAfter m o os).Perm (o :: os) := by
  induction os with
  | nil => exact absurd h List.not_mem_nil
  | cons x xs ih =>
      rw [insertAfter]
      split
      · exact List.Perm.swap ..
      · next hx =>
          have hxs : m ∈ xs := (List.mem_cons.mp h).resolve_left (Ne.symm hx)
          exact ((ih hxs).cons x).trans (List.Perm.swap ..)

theorem linkudata_eq (g : State) (u : ℕ) : linkudata g u =
    { g with swept := (linkudata g u).swept, unswept := (linkudata g u).unswept } := by
  rw [linkudata]
  split <;> rfl

theorem linkudata_swept {u : ℕ} {x : GCObject} (hx : x ∈ (linkudata g u).swept) :
    x ∈ g.swept ∨ x = .userdata u := by
  rw [linkudata] at hx
  split at hx
  · exact Or.inl hx
  · by_cases hmain : GCObject.thread g.mainthread ∈ g.swept
    · exact (List.mem_cons.mp ((perm_insertAfter hmain).mem_iff.mp hx)).symm
    · rw [insertAfter_of_notMem hmain] at hx
      exact Or.inl hx

theorem linkudata_nil {u : ℕ} (h : g.swept = []) : (linkudata g u).swept = [] := by
  rw [linkudata]
  split <;> simp [h, insertAfter]

/-- A userdata is linked behind the main thread, wherever that is. -/
theorem perm_linkudata {u : ℕ} (hmain : .thread g.mainthread ∈ rootgc g)
    (hnodup : (rootgc g).Nodup) : (rootgc (linkudata g u)).Perm (.userdata u :: rootgc g) := by
  rw [linkudata]
  split
  · exact List.perm_middle
  · rw [rootgc, List.mem_append] at hmain
    rw [rootgc, List.nodup_append] at hnodup
    obtain hmain | hmain := hmain
    · have hnot : GCObject.thread g.mainthread ∉ g.unswept := fun h => hnodup.2.2 _ hmain _ h rfl
      simp only [rootgc, insertAfter_of_notMem hnot]
      exact (perm_insertAfter hmain).append_right _
    · have hnot : GCObject.thread g.mainthread ∉ g.swept := fun h => hnodup.2.2 _ h _ hmain rfl
      simp only [rootgc, insertAfter_of_notMem hnot]
      exact ((perm_insertAfter hmain).append_left _).trans List.perm_middle

theorem sound_newudata {u : ℕ} (hg : Sound E g) (hnone : g.color (.userdata u) = none)
    (hrefs : ∀ c ∈ refs g (.userdata u), live g c) :
    Sound E (linkudata (newmark g (.userdata u)) u) ∧
      live (linkudata (newmark g (.userdata u)) u) (.userdata u) := by
  have hthread : ∀ th, GCObject.userdata u = .thread th → (g.thread th).openupval = [] :=
    fun th h => by cases h
  have halloc : Allocates (.userdata u) g (linkudata (newmark g (.userdata u)) u) :=
    allocates_of_root trivial hnone hthread hrefs (linkudata_eq _ u)
      (fun x hx => linkudata_swept (g := newmark g (.userdata u)) hx) fun hnil _ =>
        linkudata_nil (g := newmark g (.userdata u)) hnil
  refine ⟨halloc.sound (shape_of_root (o := .userdata u) hg.shape trivial hnone hthread
    (fun hu => (hg.tmudata u hu).1 hnone) (linkudata_eq _ u) ?_) hg, halloc.live_self⟩
  exact perm_linkudata (g := newmark g (.userdata u)) hg.shape.main hg.shape.rootnodup

/-! ### Stacks -/

theorem uvalue_closed {u : ℕ} {v : TValue} (h : g.upval u = .closed v) : uvalue g u = v := by
  rw [uvalue, h]

theorem uvalue_opened {u th l : ℕ} (h : g.upval u = .opened th l) :
    uvalue g u = ((g.thread th).stack[l]?).getD .nil := by
  rw [uvalue, h]

/-- What a new stack of a thread changes. -/
theorem writes_setstack {th : ℕ} {st : List TValue}
    (hchained : chained (setstack g th st) (g.running :: g.resumers) = true) :
    Writes (fun o c => (o = .thread th ∨ ∃ u l, o = .upval u ∧ g.upval u = .opened th l) ∧
      ∃ (i : ℕ) (v : TValue), st[i]? = some v ∧ (g.thread th).stack[i]? ≠ some v ∧ c ∈ v.refs) g
      (setstack g th st) := by
  have hself : (setstack g th st).thread th = { g.thread th with stack := st } :=
    Function.update_self ..
  have hother : ∀ i, i ≠ th → (setstack g th st).thread i = g.thread i :=
    fun i hi => Function.update_of_ne hi ..
  constructor
  case eq => rfl
  case openupval =>
    intro i _
    by_cases hi : i = th
    · rw [hi, hself]
    · rw [hother i hi]
  case upval => exact fun u _ i l => Iff.rfl
  case refs =>
    intro o _ c hc
    cases o with
    | thread i =>
        by_cases hi : i = th
        · subst hi
          rw [refs, hself] at hc
          obtain hc | hc := List.mem_append.mp hc
          · exact Or.inl (List.mem_append_left _ hc)
          · obtain ⟨v, hv, hcv⟩ := List.mem_flatMap.mp hc
            obtain ⟨k, hk⟩ := List.mem_iff_getElem?.mp hv
            by_cases hold : (g.thread i).stack[k]? = some v
            · exact Or.inl (List.mem_append_right _
                (List.mem_flatMap.mpr ⟨v, List.mem_of_getElem? hold, hcv⟩))
            · exact Or.inr ⟨Or.inl rfl, k, v, hk, hold, hcv⟩
        · rw [refs, hother i hi] at hc
          exact Or.inl hc
    | upval u =>
        change c ∈ (uvalue (setstack g th st) u).refs at hc
        cases hu : g.upval u with
        | closed v =>
            rw [uvalue_closed (g := setstack g th st) hu, ← uvalue_closed hu] at hc
            exact Or.inl hc
        | opened i l =>
            rw [uvalue_opened (g := setstack g th st) hu] at hc
            by_cases hi : i = th
            · subst hi
              rw [hself] at hc
              cases hget : st[l]? with
              | none =>
                  simp [hget, TValue.refs, TValue.gcvalue] at hc
              | some v =>
                  have hcv : c ∈ v.refs := by simpa [hget] using hc
                  by_cases hold : (g.thread i).stack[l]? = some v
                  · left
                    rw [refs, uvalue_opened hu, hold]
                    exact hcv
                  · exact Or.inr ⟨Or.inr ⟨u, l, rfl, hu⟩, l, v, hget, hold, hcv⟩
            · rw [hother i hi, ← uvalue_opened hu] at hc
              exact Or.inl hc
    | _ => exact Or.inl hc
  case chained => exact fun _ => hchained

theorem chained_setstack {th : ℕ} {st : List TValue} (hg : Shape g)
    (h : th ∈ g.resumers → ∀ v ∈ (g.thread th).stack, v ∈ st) :
    chained (setstack g th st) (g.running :: g.resumers) = true := by
  refine chained_mono (fun i hi v hv => ?_) hg.chained
  by_cases hith : i = th
  · subst hith
    simp only [setstack, Function.update_self]
    exact h hi v hv
  · simp only [setstack, Function.update_of_ne hith]
    exact hv

/-- **A thread gets another stack**, whose new values are live. -/
theorem sound_setstack {th : ℕ} {st : List TValue} (hg : Sound E g)
    (hchained : chained (setstack g th st) (g.running :: g.resumers) = true)
    (hst : ∀ (i : ℕ) (v : TValue), st[i]? = some v →
      (g.thread th).stack[i]? = some v ∨ ∀ c ∈ v.refs, live g c) :
    Sound E (setstack g th st) := by
  refine sound_of_writes_notblack (writes_setstack hchained) ?_ hg
  rintro o c ⟨ho, i, v, hv, hnew, hc⟩
  refine ⟨(hst i v hv).resolve_left hnew c hc, ?_⟩
  obtain rfl | ⟨u, l, rfl, hu⟩ := ho
  · exact hg.thread th
  · exact hg.upval u (isopen_iff.mpr ⟨th, l, hu⟩)

namespace Sound

variable (h : Sound E g)

include h

theorem running_notmem : g.running ∉ g.resumers := (List.nodup_cons.mp h.shape.distinct).1

/-- What is on the stack of the thread that runs is live. -/
theorem stack_live {v : TValue} (hv : v ∈ stack g) : ∀ c ∈ v.refs, live g c := fun c hc =>
  h.closed _ h.running_live c
    (List.mem_append_right _ (List.mem_flatMap.mpr ⟨v, hv, hc⟩))

theorem setrunning {s : List TValue} (hst : ∀ v ∈ s, ∀ c ∈ v.refs, live g c) :
    Sound E (setstack g g.running s) :=
  sound_setstack h (chained_setstack h.shape fun hin => absurd hin h.running_notmem)
    fun _ v hv => Or.inr (hst v (List.mem_of_getElem? hv))

/-- A live value is pushed. -/
theorem push {v : TValue} (hv : ∀ c ∈ v.refs, live g c) : Sound E (push g v) := by
  refine h.setrunning fun w hw => ?_
  obtain hw | hw := List.mem_append.mp hw
  · exact h.stack_live hw
  · obtain rfl := List.mem_singleton.mp hw
    exact hv

end Sound

/-! ### Open upvalues -/

theorem live_makewhite (hne : g.color o ≠ none) (x : GCObject) (hx : live g x ∨ x = o) :
    live (makewhite g o) x := live_recolour hne (by simp) g.grayagain x hx

theorem not_propagate_of_dead (hg : Sound E g) (hdead : isdead g o = true) :
    g.gcstate ≠ .propagate := by
  intro hstate
  rw [isdead, decide_eq_true_eq] at hdead
  exact (marking_of_sound hstate hg).nodead o hdead

/-- The state with a new open upvalue of the thread that runs. -/
def withupval (g : State) (level new : ℕ) : State :=
  { newmark g (.upval new) with
    upval := Function.update g.upval new (.opened g.running level)
    thread := Function.update g.thread g.running
      { g.thread g.running with openupval :=
          (g.thread g.running).openupval.takeWhile (isabove g level) ++
            new :: (g.thread g.running).openupval.dropWhile (isabove g level) }
    uvhead := new :: g.uvhead }

section NewUpvalue

variable {level new : ℕ}

theorem withupval_thread_self : (withupval g level new).thread g.running =
    { g.thread g.running with openupval :=
        (g.thread g.running).openupval.takeWhile (isabove g level) ++
          new :: (g.thread g.running).openupval.dropWhile (isabove g level) } :=
  Function.update_self ..

theorem withupval_thread_of_ne {th : ℕ} (h : th ≠ g.running) :
    (withupval g level new).thread th = g.thread th := Function.update_of_ne h ..

theorem withupval_stack (th : ℕ) :
    ((withupval g level new).thread th).stack = (g.thread th).stack := by
  by_cases h : th = g.running
  · rw [h, withupval_thread_self]
  · rw [withupval_thread_of_ne h]

theorem withupval_gt (th : ℕ) : ((withupval g level new).thread th).gt = (g.thread th).gt := by
  by_cases h : th = g.running
  · rw [h, withupval_thread_self]
  · rw [withupval_thread_of_ne h]

theorem withupval_upval_self : (withupval g level new).upval new = .opened g.running level :=
  Function.update_self ..

theorem withupval_upval_of_ne {u : ℕ} (h : u ≠ new) :
    (withupval g level new).upval u = g.upval u := Function.update_of_ne h ..

theorem withupval_uvalue_of_ne {u : ℕ} (h : u ≠ new) :
    uvalue (withupval g level new) u = uvalue g u := by
  rw [uvalue, uvalue, withupval_upval_of_ne h]
  cases g.upval u with
  | closed v => rfl
  | opened th l => simp only [withupval_stack]

theorem mem_withupval {u : ℕ} : u ∈ ((withupval g level new).thread g.running).openupval ↔
    u ∈ (g.thread g.running).openupval ∨ u = new := by
  rw [withupval_thread_self]
  conv_rhs => rw [← List.takeWhile_append_dropWhile (p := isabove g level)
    (l := (g.thread g.running).openupval)]
  simp only [List.mem_append, List.mem_cons]
  tauto

theorem withupval_color (x : GCObject) (hx : x ≠ .upval new) :
    (withupval g level new).color x = g.color x := Function.update_of_ne hx ..

theorem withupval_allocates (hg : Sound E g) (hnone : g.color (.upval new) = none) :
    Allocates (.upval new) g (withupval g level new) := by
  have hne_of : ∀ u, g.color (.upval u) ≠ none → u ≠ new := by
    rintro u hu rfl
    exact hu hnone
  constructor
  case none => exact hnone
  case eq => rfl
  case color => rfl
  case refs =>
    intro x hx _
    cases x with
    | upval u =>
        have hu : u ≠ new := fun h => hx (h ▸ rfl)
        rw [refs, refs, withupval_uvalue_of_ne hu]
    | thread th => rw [refs, refs, withupval_stack, withupval_gt]
    | _ => rfl
  case live =>
    intro c hc
    rw [refs, uvalue_opened withupval_upval_self, withupval_stack] at hc
    cases hget : (g.thread g.running).stack[level]? with
    | none => simp [hget, TValue.refs, TValue.gcvalue] at hc
    | some v =>
        rw [hget] at hc
        exact hg.stack_live (List.mem_of_getElem? hget) c hc
  case isopen =>
    intro u hu
    rw [isopen, isopen, withupval_upval_of_ne (hne_of u hu)]
  case swept => exact fun x hx => Or.inl hx
  case unswept => exact fun h _ => h
  case strt => exact fun k i hi => Or.inl hi
  case openupvals =>
    intro x hx c hc
    rw [ne_eq] at hx
    cases x with
    | thread th =>
        rw [withupval_color _ (by simp)] at hx
        obtain ⟨u, hu, rfl⟩ := List.mem_map.mp hc
        by_cases hth : th = g.running
        · subst hth
          obtain hu | rfl := mem_withupval.mp hu
          · exact Or.inl ⟨hx, List.mem_map.mpr ⟨u, hu, rfl⟩⟩
          · exact Or.inr rfl
        · rw [withupval_thread_of_ne hth] at hu
          exact Or.inl ⟨hx, List.mem_map.mpr ⟨u, hu, rfl⟩⟩
    | _ => cases hc

theorem withupval_shape (hg : Sound E g) (hnone : g.color (.upval new) = none) :
    Shape (withupval g level new) := by
  have hs := hg.shape
  have hne_of : ∀ u, g.color (.upval u) ≠ none → u ≠ new := by
    rintro u hu rfl
    exact hu hnone
  have hself : (withupval g level new).color (.upval new) = some (.white g.currentwhite) :=
    Function.update_self ..
  have hthread : ∀ th, (withupval g level new).color (.thread th) = g.color (.thread th) :=
    fun th => withupval_color _ (by simp)
  constructor
  case placed =>
    intro x hx
    by_cases hxn : x = .upval new
    · subst hxn
      exact Or.inl (isopen_iff.mpr ⟨_, _, withupval_upval_self⟩)
    · rw [withupval_color x hxn] at hx
      have hplaced := hs.placed x hx
      cases x with
      | upval u =>
          rw [Placed, isopen, withupval_upval_of_ne (hne_of u hx)]
          exact hplaced
      | _ => exact hplaced
  case root =>
    intro x hx
    obtain ⟨hne, hrooted⟩ := hs.root x hx
    have hxn : x ≠ .upval new := by
      rintro rfl
      exact hne hnone
    rw [withupval_color x hxn]
    refine ⟨hne, ?_⟩
    cases x with
    | upval u => rwa [Rooted, isopen, withupval_upval_of_ne (hne_of u hne)]
    | _ => exact hrooted
  case rootnodup => exact hs.rootnodup
  case tmudata => exact hs.tmudata
  case fixed => exact fixed_update hs.fixed
  case strt => exact hs.strt
  case strings =>
    refine hs.strings.imp_right fun h i hi => ?_
    rw [withupval_color _ (by simp)]
    exact h i hi
  case main => exact hs.main
  case openupval =>
    intro th u hth hu
    rw [hthread] at hth
    have hold : u ∈ (g.thread th).openupval → (withupval g level new).color (.upval u) ≠ none ∧
        ∃ l, (withupval g level new).upval u = .opened th l := by
      intro hu
      obtain ⟨hne, l, hl⟩ := hs.openupval th u hth hu
      have hun := hne_of u hne
      refine ⟨?_, l, (withupval_upval_of_ne hun).trans hl⟩
      rwa [withupval_color (.upval u) (by simp [hun])]
    by_cases hrun : th = g.running
    · subst hrun
      obtain hu | rfl := mem_withupval.mp hu
      · exact hold hu
      · exact ⟨by simp [hself], level, withupval_upval_self⟩
    · rw [withupval_thread_of_ne hrun] at hu
      exact hold hu
  case nodup =>
    intro th hth
    rw [hthread] at hth
    have hnodup := hs.nodup th hth
    by_cases hrun : th = g.running
    · subst hrun
      have hnotmem : new ∉ (g.thread g.running).openupval := fun hin =>
        hne_of new (hs.openupval _ _ hth hin).1 rfl
      rw [withupval_thread_self]
      rw [← List.takeWhile_append_dropWhile (p := isabove g level)
        (l := (g.thread g.running).openupval)] at hnodup hnotmem
      exact (List.perm_middle.nodup_iff).mpr (List.nodup_cons.mpr ⟨hnotmem, hnodup⟩)
    · rw [withupval_thread_of_ne hrun]
      exact hnodup
  case opened =>
    intro u th l hne hl
    by_cases hun : u = new
    · subst hun
      rw [withupval_upval_self] at hl
      obtain ⟨rfl, rfl⟩ := UpVal.opened.inj hl
      exact ⟨mem_withupval.mpr (Or.inr rfl), List.mem_cons_self,
        hthread g.running ▸ hg.running_live.1⟩
    · rw [withupval_color (.upval u) (by simp [hun])] at hne
      rw [withupval_upval_of_ne hun] at hl
      obtain ⟨hu, huv, hth⟩ := hs.opened u th l hne hl
      refine ⟨?_, List.mem_cons_of_mem _ huv, hthread th ▸ hth⟩
      by_cases hrun : th = g.running
      · subst hrun
        exact mem_withupval.mpr (Or.inl hu)
      · rwa [withupval_thread_of_ne hrun]
  case chained =>
    exact chained_mono (g := g) (l := g.running :: g.resumers)
      (fun th _ v hv => withupval_stack (g := g) th ▸ hv) hs.chained
  case last => exact hs.last
  case distinct => exact hs.distinct

/-- **`luaF_findupval`.** -/
theorem sound_findupval {r : State × ℕ} (hg : Sound E g)
    (hr : luaF_findupval g level new = some r) :
    Sound E r.1 ∧ live r.1 (.upval r.2) ∧ ∀ x, live g x → live r.1 x := by
  rw [luaF_findupval] at hr
  split at hr
  · next u hu =>
      have hin : u ∈ (g.thread g.running).openupval := List.mem_of_find?_eq_some hu
      obtain ⟨hne, l, hl⟩ := hg.shape.openupval _ u hg.running_live.1 hin
      have hrefs : ∀ c ∈ refs g (.upval u), live g c := by
        intro c hc
        rw [refs, uvalue_opened hl] at hc
        cases hget : (g.thread g.running).stack[l]? with
        | none => simp [hget, TValue.refs, TValue.gcvalue] at hc
        | some v =>
            rw [hget] at hc
            exact hg.stack_live (List.mem_of_getElem? hget) c hc
      obtain rfl := Option.some.inj hr
      split
      · next hdead =>
          refine ⟨sound_makewhite (not_propagate_of_dead hg hdead) hg hne hrefs,
            live_makewhite hne _ (Or.inr rfl), fun x hx => live_makewhite hne x (Or.inl hx)⟩
      · next hdead =>
          rw [isdead, decide_eq_true_eq] at hdead
          exact ⟨hg, ⟨hne, hdead⟩, fun x hx => hx⟩
  · split at hr
    · next hnew =>
        obtain rfl := Option.some.inj hr
        have halloc : Allocates (.upval new) g (withupval g level new) :=
          withupval_allocates hg hnew.1
        exact ⟨halloc.sound (withupval_shape hg hnew.1) hg, halloc.live_self,
          fun x hx => halloc.live_of_live hx⟩
    · cases hr

/-- The upvalues of a new closure. -/
theorem sound_capture {cs : List Capture} {r : State × List ℕ} (hg : Sound E g)
    (hr : capture g cs = some r) :
    Sound E r.1 ∧ (∀ u ∈ r.2, live r.1 (.upval u)) ∧ ∀ x, live g x → live r.1 x := by
  induction cs generalizing g r with
  | nil =>
      obtain rfl := Option.some.inj hr
      exact ⟨hg, fun u hu => absurd hu List.not_mem_nil, fun x hx => hx⟩
  | cons c cs ih =>
      cases c with
      | inherit u =>
          rw [capture] at hr
          split at hr
          · next hu =>
              obtain ⟨r', hr', rfl⟩ := Option.map_eq_some_iff.mp hr
              obtain ⟨hg', hus, hlive⟩ := ih hg hr'
              refine ⟨hg', fun w hw => ?_, hlive⟩
              obtain rfl | hw := List.mem_cons.mp hw
              · exact hlive _ (hg.readable_live hu)
              · exact hus w hw
          · cases hr
      | level level new =>
          rw [capture] at hr
          obtain ⟨r₁, hr₁, hr⟩ := Option.bind_eq_some_iff.mp hr
          obtain ⟨r₂, hr₂, rfl⟩ := Option.map_eq_some_iff.mp hr
          obtain ⟨hg₁, hu, hlive₁⟩ := sound_findupval hg hr₁
          obtain ⟨hg₂, hus, hlive₂⟩ := ih hg₁ hr₂
          refine ⟨hg₂, fun w hw => ?_, fun x hx => hlive₂ x (hlive₁ x hx)⟩
          obtain rfl | hw := List.mem_cons.mp hw
          · exact hlive₂ _ hu
          · exact hus w hw

end NewUpvalue

/-! ### Strings -/

theorem mem_getD_modify {l : List (List ℕ)} {b k i new : ℕ}
    (h : i ∈ (l.modify b (new :: ·)).getD k []) : i ∈ l.getD k [] ∨ i = new := by
  rw [List.getD_eq_getElem?_getD, List.getElem?_modify] at h
  rw [List.getD_eq_getElem?_getD]
  cases hk : l[k]? with
  | none => simp [hk] at h
  | some is =>
      simp only [hk, Option.getD_some] at h ⊢
      split at h
      · exact (List.mem_cons.mp h).symm
      · exact Or.inl h

theorem perm_flatten_modify {l : List (List ℕ)} {b n : ℕ} (hb : b < l.length) :
    (l.modify b (n :: ·)).flatten.Perm (n :: l.flatten) := by
  induction l generalizing b with
  | nil => exact absurd hb (Nat.not_lt_zero b)
  | cons is l ih =>
      cases b with
      | zero => simp
      | succ b =>
          have hb' : b < l.length := Nat.lt_of_succ_lt_succ hb
          rw [List.modify_succ_cons, List.flatten_cons, List.flatten_cons]
          exact ((ih hb').append_left is).trans List.perm_middle

/-- The strings are distributed again. -/
theorem foldl_modify {f : ℕ → ℕ} {l : List ℕ} {s : List (List ℕ)} (hf : ∀ i, f i < s.length) :
    (l.foldl (fun s i => s.modify (f i) (i :: ·)) s).length = s.length ∧
      (l.foldl (fun s i => s.modify (f i) (i :: ·)) s).flatten.Perm (l ++ s.flatten) := by
  induction l generalizing s with
  | nil => exact ⟨rfl, List.Perm.refl _⟩
  | cons j l ih =>
      have hlen : (s.modify (f j) (j :: ·)).length = s.length := List.length_modify ..
      obtain ⟨hlen', hperm⟩ := ih (s := s.modify (f j) (j :: ·)) fun i => hlen.symm ▸ hf i
      refine ⟨hlen'.trans hlen, hperm.trans ?_⟩
      exact ((perm_flatten_modify (hf j)).append_left l).trans List.perm_middle

theorem bucket_lt {size : ℕ} (h : 0 < size) (str : ByteString) : bucket size str < size :=
  Nat.mod_lt _ h

/-- The strings are in other lists, or more of them are fixed. -/
theorem sound_of_strt {s : List (List ℕ)} (fixed : GCObject → Bool) (hg : Sound E g)
    (hfixed : ∀ o, fixed o = true → (∃ i, o = .string i) ∨ o = .thread g.mainthread)
    (hstate : g.gcstate = .sweepstring → s = g.strt) (hs : 0 < s.length)
    (hperm : s.flatten.Perm g.strt.flatten) : Sound E { g with fixed := fixed, strt := s } := by
  constructor
  case shape =>
    refine ⟨fun o ho => ?_, fun o ho => ?_, hg.shape.rootnodup, hg.shape.tmudata, hfixed, hs, ?_,
      hg.shape.main, hg.shape.openupval, hg.shape.nodup,
      hg.shape.opened, ?_, hg.shape.last, hg.shape.distinct⟩
    · have hplaced := hg.shape.placed o ho
      cases o with
      | string i => exact hperm.mem_iff.mpr hplaced
      | _ => exact hplaced
    · exact (hg.shape.root o ho).imp_right fun h => by cases o <;> exact h
    · exact ⟨hperm.nodup_iff.mpr hg.shape.strings.1,
        fun i hi => hg.shape.strings.2 i (hperm.mem_iff.mp hi)⟩
    · exact chained_mono (g := g) (l := g.running :: g.resumers) (fun _ _ _ hv => hv)
        hg.shape.chained
  case closed => exact hg.closed
  case main => exact hg.main
  case registry => exact hg.registry
  case mt => exact hg.mt
  case tmudata => exact hg.tmudata
  case udata => exact hg.udata
  case thread => exact hg.thread
  case upval => exact hg.upval
  case coloured =>
    have hcol := hg.coloured
    rw [Coloured] at hcol ⊢
    split at hcol
    · next h =>
        simp only [h]
        exact ⟨⟨hcol.nodead, hcol.listed, hcol.black, hcol.gray⟩, hcol.main, hcol.registry⟩
    · next h =>
        simp only [h, hstate h]
        exact hcol
    all_goals
      next h =>
        simp only [h]
        exact hcol

/-- **`luaS_resize`.** -/
theorem sound_resize {newsize : ℕ} (hg : Sound E g) (hsize : 0 < newsize) :
    Sound E (luaS_resize g newsize) := by
  rw [luaS_resize]
  split
  · exact hg
  · next hstate =>
      obtain ⟨hlen, hperm⟩ := foldl_modify (f := fun i => bucket newsize (g.content i))
        (l := g.strt.flatten) (s := List.replicate newsize [])
        (fun i => by rw [List.length_replicate]; exact bucket_lt hsize _)
      refine sound_of_strt g.fixed hg hg.shape.fixed (fun h => absurd h hstate) (by rw [hlen, List.length_replicate]; exact hsize)
        (hperm.trans ?_)
      simp

/-- The state with a new string. -/
def withstring (g : State) (str : ByteString) (new : ℕ) : State :=
  { newmark g (.string new) with
    content := Function.update g.content new str
    strt := g.strt.modify (bucket g.strt.length str) (new :: ·) }

section NewString

variable {str : ByteString} {new : ℕ}

theorem withstring_refs (x : GCObject) : refs (withstring g str new) x = refs g x := by
  cases x <;> rfl

theorem withstring_color (x : GCObject) (hx : x ≠ .string new) :
    (withstring g str new).color x = g.color x := Function.update_of_ne hx ..

theorem withstring_allocates (hnone : g.color (.string new) = none) :
    Allocates (.string new) g (withstring g str new) := by
  constructor
  case none => exact hnone
  case eq => rfl
  case color => rfl
  case refs => exact fun x _ _ => withstring_refs x
  case live => exact fun c hc => absurd hc List.not_mem_nil
  case isopen => exact fun u _ => rfl
  case swept => exact fun x hx => Or.inl hx
  case unswept => exact fun h _ => h
  case strt => exact fun k i hi => (mem_getD_modify hi).imp_right (congrArg GCObject.string)
  case openupvals =>
    intro x hx c hc
    cases x with
    | thread th =>
        rw [ne_eq, withstring_color _ (by simp)] at hx
        exact Or.inl ⟨hx, hc⟩
    | _ => cases hc

theorem withstring_shape (hg : Shape g) (hnone : g.color (.string new) = none) :
    Shape (withstring g str new) := by
  have hperm := perm_flatten_modify (n := new) (bucket_lt hg.strt str)
  constructor
  case placed =>
    intro x hx
    by_cases hxn : x = .string new
    · subst hxn
      exact hperm.mem_iff.mpr List.mem_cons_self
    · rw [withstring_color x hxn] at hx
      have hplaced := hg.placed x hx
      cases x with
      | string i => exact hperm.mem_iff.mpr (List.mem_cons_of_mem _ hplaced)
      | _ => exact hplaced
  case root =>
    intro x hx
    obtain ⟨hne, hrooted⟩ := hg.root x hx
    rw [withstring_color x (by rintro rfl; exact hrooted)]
    exact ⟨hne, by cases x <;> exact hrooted⟩
  case rootnodup => exact hg.rootnodup
  case tmudata => exact hg.tmudata
  case fixed => exact fixed_update hg.fixed
  case strt =>
    change 0 < (g.strt.modify _ _).length
    rw [List.length_modify]
    exact hg.strt
  case strings =>
    have hnotmem : new ∉ g.strt.flatten := fun hin => hg.strings.2 new hin hnone
    refine ⟨hperm.nodup_iff.mpr (List.nodup_cons.mpr ⟨hnotmem, hg.strings.1⟩), fun i hi => ?_⟩
    by_cases hin : i = new
    · subst hin
      have hself : (withstring g str i).color (.string i) = some (.white g.currentwhite) :=
        Function.update_self ..
      simp [hself]
    · rw [withstring_color _ (by simp [hin])]
      exact hg.strings.2 i ((List.mem_cons.mp (hperm.mem_iff.mp hi)).resolve_left hin)
  case main => exact hg.main
  case openupval =>
    intro th u hth hu
    rw [withstring_color _ (by simp)] at hth ⊢
    exact hg.openupval th u hth hu
  case nodup =>
    intro th hth
    rw [withstring_color _ (by simp)] at hth
    exact hg.nodup th hth
  case opened =>
    intro u th l hne hl
    rw [withstring_color _ (by simp)] at hne ⊢
    exact hg.opened u th l hne hl
  case chained =>
    exact chained_mono (g := g) (l := g.running :: g.resumers) (fun _ _ _ hv => hv) hg.chained
  case last => exact hg.last
  case distinct => exact hg.distinct

/-- **`luaS_newlstr`.** A string that is found is live again. -/
theorem sound_newlstr {r : State × ℕ} (hg : Sound E g) (hr : luaS_newlstr g str new = some r) :
    Sound E r.1 ∧ live r.1 (.string r.2) ∧ ∀ x, live g x → live r.1 x := by
  rw [luaS_newlstr] at hr
  split at hr
  · next i hi =>
      obtain rfl := Option.some.inj hr
      have hin : i ∈ g.strt.flatten := by
        have hmem := List.mem_of_find?_eq_some hi
        rw [List.getD_eq_getElem _ _ (bucket_lt hg.shape.strt str)] at hmem
        exact List.mem_flatten.mpr ⟨_, List.getElem_mem _, hmem⟩
      have hne := hg.shape.strings.2 i hin
      split
      · next hdead =>
          exact ⟨sound_makewhite (not_propagate_of_dead hg hdead) hg hne
            fun c hc => absurd hc List.not_mem_nil, live_makewhite hne _ (Or.inr rfl),
            fun x hx => live_makewhite hne x (Or.inl hx)⟩
      · next hdead =>
          rw [isdead, decide_eq_true_eq] at hdead
          exact ⟨hg, ⟨hne, hdead⟩, fun x hx => hx⟩
  · split at hr
    · next hnew =>
        obtain rfl := Option.some.inj hr
        have halloc : Allocates (.string new) g (withstring g str new) :=
          withstring_allocates hnew
        have hsound := halloc.sound (withstring_shape hg.shape hnew) hg
        have heq : newlstr g str new = if (withstring g str new).strt.flatten.length >
            (withstring g str new).strt.length then
              luaS_resize (withstring g str new) ((withstring g str new).strt.length * 2)
            else withstring g str new := rfl
        have hlive : ∀ x, live (withstring g str new) x → live (newlstr g str new) x := by
          intro x hx
          rw [heq, luaS_resize]
          split
          · split
            · exact hx
            · exact hx
          · exact hx
        refine ⟨?_, hlive _ halloc.live_self, fun x hx => hlive x (halloc.live_of_live hx)⟩
        change Sound E (newlstr g str new)
        rw [heq]
        split
        · exact sound_resize hsound (Nat.mul_pos hsound.shape.strt Nat.two_pos)
        · exact hsound
    · cases hr

end NewString

end UnityLua.Collector
