import UnityLua.CollectorInvariant

/-!
# Writes and barriers

A write changes what objects refer to. While objects are marked, the new references of a black
object have to be to marked objects, and the barrier behind the write sees to it: it marks the
object that is referred to, or takes back the colour of the one that was written to.

## Main results

* `sound_of_writes`: a write of live references keeps everything but the colours of these.
* `sound_of_writes_notblack`: a write to objects that are not black needs no barrier.
-/

namespace UnityLua.Collector

open Library

variable {E E' D : GCObject → GCObject → Prop} {g g' : State} {o : GCObject}

/-! ### Writes -/

/-- `g'` is `g` after a write that makes at most the references `D`. -/
structure Writes (D : GCObject → GCObject → Prop) (g g' : State) : Prop where
  eq : g' = { g with udata := g'.udata, upval := g'.upval, closure := g'.closure,
                     table := g'.table, thread := g'.thread, proto := g'.proto }
  openupval : ∀ th, g.color (.thread th) ≠ none →
    (g'.thread th).openupval = (g.thread th).openupval
  upval : ∀ u, g.color (.upval u) ≠ none → ∀ th l, g'.upval u = .opened th l ↔ g.upval u = .opened th l
  refs : ∀ o, g.color o ≠ none → ∀ c ∈ refs g' o, c ∈ refs g o ∨ D o c
  chained : chained g (g.running :: g.resumers) = true →
    chained g' (g.running :: g.resumers) = true

theorem isopen_iff {u : ℕ} : isopen g u = true ↔ ∃ th l, g.upval u = .opened th l := by
  rw [isopen]
  split
  · next th l h => exact iff_of_true rfl ⟨th, l, h⟩
  · next v h => exact iff_of_false Bool.false_ne_true fun ⟨th, l, h'⟩ => by rw [h] at h'; cases h'

theorem chained_mono {l : List ℕ}
    (h : ∀ th ∈ l.tail, ∀ v ∈ (g.thread th).stack, v ∈ (g'.thread th).stack)
    (hg : chained g l = true) : chained g' l = true := by
  induction l with
  | nil => rfl
  | cons th l ih =>
      cases l with
      | nil => rfl
      | cons resumer rest =>
          rw [chained, Bool.and_eq_true, List.contains_iff_mem] at hg ⊢
          exact ⟨h resumer List.mem_cons_self _ hg.1,
            ih (fun x hx => h x (List.mem_cons_of_mem _ hx)) hg.2⟩

/-- The shape depends on the colours only by what there is. -/
theorem shape_congr (hg : Shape g) (hnone : ∀ o, g'.color o = none ↔ g.color o = none)
    (hroot : rootgc g' = rootgc g) (hstrt : g'.strt = g.strt) (htmudata : g'.tmudata = g.tmudata)
    (hthread : g'.thread = g.thread) (hupval : g'.upval = g.upval) (huvhead : g'.uvhead = g.uvhead)
    (hmain : g'.mainthread = g.mainthread) (hrunning : g'.running = g.running)
    (hresumers : g'.resumers = g.resumers) (hfixed : g'.fixed = g.fixed) : Shape g' := by
  have hne : ∀ o, g'.color o ≠ none ↔ g.color o ≠ none := fun o => not_congr (hnone o)
  constructor
  case placed =>
    intro o ho
    have hplaced := hg.placed o ((hne o).mp ho)
    cases o with
    | string i => rwa [Placed, hstrt]
    | userdata u => rwa [Placed, hroot, htmudata]
    | upval u => rwa [Placed, hroot, isopen, hupval]
    | _ => simpa only [Placed, hroot] using hplaced
  case root =>
    intro o ho
    rw [hroot] at ho
    obtain ⟨hne', hrooted⟩ := hg.root o ho
    refine ⟨(hne o).mpr hne', ?_⟩
    cases o with
    | userdata u => rwa [Rooted, htmudata]
    | upval u => rwa [Rooted, isopen, hupval]
    | _ => exact hrooted
  case rootnodup => rw [hroot]; exact hg.rootnodup
  case tmudata => rw [htmudata]; exact hg.tmudata
  case fixed => rw [hfixed, hmain]; exact hg.fixed
  case strt => rw [hstrt]; exact hg.strt
  case strings =>
    rw [hstrt]
    exact hg.strings.imp_right fun h i hi => (hne _).mpr (h i hi)
  case main => rw [hmain, hroot]; exact hg.main
  case openupval =>
    intro th u hth hu
    rw [hne] at hth ⊢
    rw [hthread] at hu
    rw [hupval]
    exact hg.openupval th u hth hu
  case nodup =>
    intro th hth
    rw [hthread]
    exact hg.nodup th ((hne _).mp hth)
  case opened =>
    intro u th l hu hl
    rw [hne] at hu ⊢
    rw [hupval] at hl
    rw [hthread, huvhead]
    exact hg.opened u th l hu hl
  case chained =>
    rw [hrunning, hresumers]
    exact chained_mono (fun th _ v hv => hthread ▸ hv) hg.chained
  case last => rw [hrunning, hresumers, hmain]; exact hg.last
  case distinct => rw [hrunning, hresumers]; exact hg.distinct

namespace Writes

variable (h : Writes D g g')

include h

theorem color : g'.color = g.color := by rw [h.eq]

theorem live_iff : live g' o ↔ live g o := by
  rw [h.eq]
  rfl

theorem clean_iff : clean g' o ↔ clean g o := by
  rw [h.eq]
  rfl

theorem nonwhite_iff : nonwhite g' o ↔ nonwhite g o := by
  rw [h.eq]
  rfl

theorem isopen {u : ℕ} (hu : g.color (.upval u) ≠ none) :
    Collector.isopen g' u = Collector.isopen g u := by
  rw [Bool.eq_iff_iff, isopen_iff, isopen_iff]
  exact exists_congr fun th => exists_congr fun l => h.upval u hu th l

theorem placed (ho : g.color o ≠ none) : Placed g' o ↔ Placed g o := by
  have hroot : rootgc g' = rootgc g := by
    rw [h.eq]
    rfl
  have hlists : g'.strt = g.strt ∧ g'.tmudata = g.tmudata := by
    rw [h.eq]
    exact ⟨rfl, rfl⟩
  cases o with
  | string i => rw [Placed, Placed, hlists.1]
  | userdata u => rw [Placed, Placed, hroot, hlists.2]
  | upval u => rw [Placed, Placed, hroot, h.isopen ho]
  | _ => simp only [Placed, hroot]

theorem shape (hg : Shape g) : Shape g' := by
  have hfields : g'.strt = g.strt ∧ g'.mainthread = g.mainthread ∧ g'.uvhead = g.uvhead ∧
      g'.running = g.running ∧ g'.resumers = g.resumers ∧ g'.tmudata = g.tmudata ∧
      g'.fixed = g.fixed := by
    rw [h.eq]
    exact ⟨rfl, rfl, rfl, rfl, rfl, rfl, rfl⟩
  obtain ⟨hstrt, hmain, huvhead, hrunning, hresumers, htmudata, hfixed⟩ := hfields
  have hroot : rootgc g' = rootgc g := by
    rw [h.eq]
    rfl
  constructor
  case placed =>
    intro o ho
    rw [h.color] at ho
    exact (h.placed ho).mpr (hg.placed o ho)
  case root =>
    intro o ho
    rw [hroot] at ho
    obtain ⟨hne, hrooted⟩ := hg.root o ho
    rw [h.color]
    refine ⟨hne, ?_⟩
    cases o with
    | userdata u => rwa [Rooted, htmudata]
    | upval u => rwa [Rooted, h.isopen hne]
    | _ => exact hrooted
  case rootnodup => rw [hroot]; exact hg.rootnodup
  case tmudata => rw [htmudata]; exact hg.tmudata
  case fixed => rw [hfixed, hmain]; exact hg.fixed
  case strt => rw [hstrt]; exact hg.strt
  case strings => rw [hstrt, h.color]; exact hg.strings
  case main => rw [hmain, hroot]; exact hg.main
  case openupval =>
    intro th u hth hu
    rw [h.color] at hth ⊢
    rw [h.openupval th hth] at hu
    obtain ⟨hne, l, hl⟩ := hg.openupval th u hth hu
    exact ⟨hne, l, (h.upval u hne th l).mpr hl⟩
  case nodup =>
    intro th hth
    rw [h.color] at hth
    rw [h.openupval th hth]
    exact hg.nodup th hth
  case opened =>
    intro u th l hne hl
    rw [h.color] at hne ⊢
    obtain ⟨hu, huv, hth⟩ := hg.opened u th l hne ((h.upval u hne th l).mp hl)
    rw [h.openupval th hth, huvhead]
    exact ⟨hu, huv, hth⟩
  case chained =>
    rw [hrunning, hresumers]
    exact h.chained hg.chained
  case last => rw [hrunning, hresumers, hmain]; exact hg.last
  case distinct => rw [hrunning, hresumers]; exact hg.distinct

theorem openupvals (ho : g.color o ≠ none) : Collector.openupvals g' o = Collector.openupvals g o := by
  cases o with
  | thread i => rw [Collector.openupvals, Collector.openupvals, h.openupval i ho]
  | _ => rfl

end Writes

theorem tricolour_of_writes (h : Writes D g g') (hg : Tricolour E g) :
    Tricolour (fun o c => E o c ∨ D o c) g' := by
  have hcolor := h.color
  have hlists : g'.gray = g.gray ∧ g'.grayagain = g.grayagain ∧ g'.weak = g.weak ∧
      g'.tmudata = g.tmudata ∧ g'.currentwhite = g.currentwhite := by
    rw [h.eq]
    exact ⟨rfl, rfl, rfl, rfl, rfl⟩
  obtain ⟨hgray, hagain, hweak, htmudata, hwhite⟩ := hlists
  have hlisted : ∀ o, Listed g' o ↔ Listed g o := fun o => by
    rw [Listed, Listed, hgray, hagain, hweak]
  constructor
  case nodead => rw [hcolor, hwhite]; exact hg.nodead
  case listed =>
    intro o ho
    rw [hcolor]
    exact hg.listed o ((hlisted o).mp ho)
  case black =>
    intro o ho
    rw [hcolor] at ho
    rw [htmudata]
    refine (hg.black o ho).imp_right fun hrefs c hc => ?_
    obtain hc | hD := h.refs o (by simp [ho]) c hc
    · exact (hrefs c hc).imp h.nonwhite_iff.mpr Or.inl
    · exact Or.inr (Or.inr hD)
  case gray =>
    intro o ho
    rw [hcolor] at ho
    refine (hg.gray o ho).imp (hlisted o).mpr (Or.imp_right ?_)
    rintro ⟨u, rfl, hu⟩
    exact ⟨u, rfl, by rw [h.isopen (by simp [ho]), hu]⟩

theorem marking_of_writes (h : Writes D g g') (hg : Marking E g) :
    Marking (fun o c => E o c ∨ D o c) g' := by
  have hfields : g'.registry = g.registry ∧ g'.mainthread = g.mainthread := by
    rw [h.eq]
    exact ⟨rfl, rfl⟩
  refine ⟨tricolour_of_writes h hg.toTricolour, ?_, ?_⟩
  · rw [hfields.2]
    exact h.nonwhite_iff.mpr hg.main
  · rw [hfields.1]
    exact fun c hc => h.nonwhite_iff.mpr (hg.registry c hc)

theorem coloured_of_writes (h : Writes D g g') (hg : Coloured E g) :
    Coloured (fun o c => E o c ∨ D o c) g' := by
  refine coloured_of_clean hg (by rw [h.eq]) (fun hstate => ?_) (fun o => h.clean_iff.mpr)
    (by rw [h.eq]) (by rw [h.eq]) (by rw [h.eq]) (by rw [h.eq]) fun o _ hne c hc => ?_
  · rw [Coloured, hstate] at hg
    exact marking_of_writes h hg
  · rw [h.color] at hne
    rw [h.openupvals hne] at hc
    exact Or.inl ⟨hne, hc⟩

/-- **A write of references to live objects.** -/
theorem sound_of_writes (h : Writes D g g') (hD : ∀ o c, D o c → live g c) (hg : Sound E g) :
    Sound (fun o c => E o c ∨ D o c) g' := by
  have hfields : g'.registry = g.registry ∧ g'.mainthread = g.mainthread ∧ g'.mt = g.mt ∧
      g'.tmudata = g.tmudata := by
    rw [h.eq]
    exact ⟨rfl, rfl, rfl, rfl⟩
  obtain ⟨hregistry, hmain, hmt, htmudata⟩ := hfields
  constructor
  case shape => exact h.shape hg.shape
  case closed =>
    intro o ho c hc
    rw [h.live_iff] at ho ⊢
    obtain hc | hDc := h.refs o ho.1 c hc
    · exact hg.closed o ho c hc
    · exact hD o c hDc
  case main => rw [hmain, h.live_iff]; exact hg.main
  case registry => rw [hregistry]; exact fun c hc => h.live_iff.mpr (hg.registry c hc)
  case mt => rw [hmt]; exact fun c hc => h.live_iff.mpr (hg.mt c hc)
  case tmudata => rw [htmudata]; exact fun u hu => h.live_iff.mpr (hg.tmudata u hu)
  case udata => rw [h.color]; exact hg.udata
  case thread => rw [h.color]; exact hg.thread
  case upval =>
    intro u hu hb
    rw [h.color] at hb
    rw [h.isopen (by simp [hb])] at hu
    exact hg.upval u hu hb
  case coloured => exact coloured_of_writes h hg.coloured

/-- A write that makes no reference of an object that can be black. -/
theorem sound_of_writes_notblack (h : Writes D g g')
    (hD : ∀ o c, D o c → live g c ∧ g.color o ≠ some .black) (hg : Sound E g) : Sound E g' := by
  refine (sound_of_writes h (fun o c hc => (hD o c hc).1) hg).mono fun o c hc hb => ?_
  obtain hE | hDc := hc
  · exact Or.inr hE
  · rw [h.color] at hb
    exact absurd hb (hD o c hDc).2

end UnityLua.Collector
