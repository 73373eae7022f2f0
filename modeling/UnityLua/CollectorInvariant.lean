import UnityLua.CollectorProgram
import UnityLua.CollectorTracing

/-!
# What holds between the steps

An object is live unless it is freed or dead: dead objects are those that a sweep has not come to
yet. Live objects refer to live ones, and what the program starts from is live. While objects are
marked, a black object refers to marked ones only; a gray one is in a list of those that are looked
at again, or it is an open upvalue or a string. A write breaks this until its barrier; `E` are the
references for which that is so.

## Main results

* `Sound.live_of_reachable`: all that can be reached is live.
-/

namespace UnityLua.Collector

open Library

variable {E E' D : GCObject → GCObject → Prop} {g g' : State} {o : GCObject}

/-! ### Live objects -/

/-- The object is neither freed nor dead. -/
def live (g : State) (o : GCObject) : Prop :=
  g.color o ≠ none ∧ g.color o ≠ some (.white (!g.currentwhite))

/-- The object is swept, or not there. -/
def clean (g : State) (o : GCObject) : Prop :=
  g.color o = none ∨ g.color o = some (.white g.currentwhite)

/-- What can be reached from the roots, through weak references too. -/
inductive Reachable (g : State) : GCObject → Prop
  | root {o : GCObject} : o ∈ roots g → Reachable g o
  | ref {o c : GCObject} : Reachable g o → c ∈ refs g o → Reachable g c

/-! ### The invariant -/

/-- The list that an object is in. -/
def Placed (g : State) : GCObject → Prop
  | .string i => i ∈ g.strt.flatten
  | .userdata u => .userdata u ∈ rootgc g ∨ u ∈ g.tmudata
  | .upval u => isopen g u = true ∨ .upval u ∈ rootgc g
  | o => o ∈ rootgc g

/-- The object is in no other list than `rootgc`. -/
def Rooted (g : State) : GCObject → Prop
  | .string _ => False
  | .userdata u => u ∉ g.tmudata
  | .upval u => isopen g u = false
  | _ => True

/-- The lists of objects, the open upvalues and the threads that wait for others. -/
structure Shape (g : State) : Prop where
  placed : ∀ o, g.color o ≠ none → Placed g o
  root : ∀ o ∈ rootgc g, g.color o ≠ none ∧ Rooted g o
  rootnodup : (rootgc g).Nodup
  tmudata : g.tmudata.Nodup
  fixed : ∀ o, g.fixed o = true → (∃ i, o = .string i) ∨ o = .thread g.mainthread
  strt : 0 < g.strt.length
  strings : g.strt.flatten.Nodup ∧ ∀ i ∈ g.strt.flatten, g.color (.string i) ≠ none
  main : .thread g.mainthread ∈ rootgc g
  openupval : ∀ th u, g.color (.thread th) ≠ none → u ∈ (g.thread th).openupval →
    g.color (.upval u) ≠ none ∧ ∃ l, g.upval u = .opened th l
  nodup : ∀ th, g.color (.thread th) ≠ none → (g.thread th).openupval.Nodup
  opened : ∀ u th l, g.color (.upval u) ≠ none → g.upval u = .opened th l →
    u ∈ (g.thread th).openupval ∧ u ∈ g.uvhead ∧ g.color (.thread th) ≠ none
  chained : chained g (g.running :: g.resumers) = true
  last : (g.running :: g.resumers).getLast? = some g.mainthread
  distinct : (g.running :: g.resumers).Nodup

/-- The three colours. -/
structure Tricolour (E : GCObject → GCObject → Prop) (g : State) : Prop where
  nodead : ∀ o, g.color o ≠ some (.white (!g.currentwhite))
  listed : ∀ o, Listed g o → traversable o ∧ g.color o ≠ none
  black : ∀ o, g.color o = some .black → (∃ u ∈ g.tmudata, o = .userdata u) ∨
    ∀ c ∈ refs g o, nonwhite g c ∨ E o c
  gray : ∀ o, g.color o = some .gray →
    Listed g o ∨ (∃ i, o = .string i) ∨ ∃ u, o = .upval u ∧ isopen g u = true

/-- The colours while objects are marked. -/
structure Marking (E : GCObject → GCObject → Prop) (g : State) : Prop extends Tricolour E g where
  main : nonwhite g (.thread g.mainthread)
  registry : ∀ c ∈ g.registry.refs, nonwhite g c

/-- The colours in each of the states of a collection. -/
def Coloured (E : GCObject → GCObject → Prop) (g : State) : Prop :=
  match g.gcstate with
  | .propagate => Marking E g
  | .sweepstring =>
      g.swept = [] ∧ ∀ k < g.sweepstrgc, ∀ i ∈ g.strt.getD k [], clean g (.string i)
  | .sweep => (∀ i, clean g (.string i)) ∧
      ∀ o ∈ g.swept, clean g o ∧ (g.color o ≠ none → ∀ c ∈ openupvals g o, clean g c)
  | .finalize | .pause => ∀ o, clean g o ∨ ∃ u ∈ g.tmudata, o = .userdata u

/-- What holds between the steps. -/
structure Sound (E : GCObject → GCObject → Prop) (g : State) : Prop where
  shape : Shape g
  closed : ∀ o, live g o → ∀ c ∈ refs g o, live g c
  main : live g (.thread g.mainthread)
  registry : ∀ c ∈ g.registry.refs, live g c
  mt : ∀ c ∈ g.mt.flatMap (fun mt => mt.toList.map GCObject.table), live g c
  tmudata : ∀ u ∈ g.tmudata, live g (.userdata u)
  udata : ∀ u, g.color (.userdata u) ≠ some .gray
  thread : ∀ i, g.color (.thread i) ≠ some .black
  upval : ∀ u, isopen g u = true → g.color (.upval u) ≠ some .black
  coloured : Coloured E g

/-- No reference is without its barrier. -/
def NoRef (_ _ : GCObject) : Prop := False

/-- Sweeping goes on where no object is marked. -/
theorem coloured_of_clean (h : Coloured E g) (hstate : g'.gcstate = g.gcstate)
    (hmarking : g.gcstate = .propagate → Marking E' g') (hclean : ∀ o, clean g o → clean g' o)
    (hswept : g'.swept = g.swept) (hstrt : g'.strt = g.strt)
    (hsweepstrgc : g'.sweepstrgc = g.sweepstrgc) (htmudata : g'.tmudata = g.tmudata)
    (hup : ∀ o ∈ g.swept, g'.color o ≠ none → ∀ c ∈ openupvals g' o,
      g.color o ≠ none ∧ c ∈ openupvals g o ∨ clean g' c) : Coloured E' g' := by
  rw [Coloured] at h ⊢
  rw [hstate]
  split at h
  · next hpropagate => exact hmarking hpropagate
  · rw [hswept, hstrt, hsweepstrgc]
    exact h.imp_right fun h k hk i hi => hclean _ (h k hk i hi)
  · rw [hswept]
    refine h.imp (fun h i => hclean _ (h i)) fun h o ho => ?_
    obtain ⟨ho', hops⟩ := h o ho
    refine ⟨hclean o ho', fun hne c hc => ?_⟩
    obtain ⟨hne', hc'⟩ | hc' := hup o ho hne c hc
    · exact hclean c (hops hne' c hc')
    · exact hc'
  all_goals
    rw [htmudata]
    exact fun o => (h o).imp_left (hclean o)

/-! ### All that can be reached is live -/

theorem chained_live (hclosed : ∀ o, live g o → ∀ c ∈ refs g o, live g c) {ths : List ℕ}
    (hchained : chained g ths = true)
    (hlast : ∀ th, ths.getLast? = some th → live g (.thread th)) :
    ∀ th ∈ ths, live g (.thread th) := by
  induction ths with
  | nil => exact fun th hth => absurd hth List.not_mem_nil
  | cons th ths ih =>
      cases ths with
      | nil =>
          intro x hx
          obtain rfl := List.mem_singleton.mp hx
          exact hlast x rfl
      | cons resumer rest =>
          rw [Collector.chained, Bool.and_eq_true, List.contains_iff_mem] at hchained
          have hrest := ih hchained.2 fun x hx => hlast x hx
          intro x hx
          obtain rfl | hx := List.mem_cons.mp hx
          · refine hclosed _ (hrest resumer List.mem_cons_self) _ ?_
            exact List.mem_append_right _ (List.mem_flatMap.mpr
              ⟨_, hchained.1, by simp [TValue.refs, TValue.gcvalue]⟩)
          · exact hrest x hx

namespace Sound

theorem threads_live (h : Sound E g) : ∀ th ∈ g.running :: g.resumers, live g (.thread th) := by
  refine chained_live h.closed h.shape.chained fun th hth => ?_
  rw [h.shape.last] at hth
  exact Option.some.inj hth ▸ h.main

theorem roots_live (h : Sound E g) (ho : o ∈ roots g) : live g o := by
  simp only [roots, List.cons_append, List.mem_cons, List.mem_append, List.mem_map] at ho
  obtain rfl | rfl | (ho | ho) | ⟨th, hth, rfl⟩ := ho
  · exact h.threads_live _ List.mem_cons_self
  · exact h.main
  · exact h.registry o ho
  · exact h.mt o ho
  · exact h.threads_live th (List.mem_cons_of_mem _ hth)

/-- **All that can be reached is live.** -/
theorem live_of_reachable (h : Sound E g) (ho : Reachable g o) : live g o := by
  induction ho with
  | root ho => exact h.roots_live ho
  | ref _ hc ih => exact h.closed _ ih _ hc

theorem running_live (h : Sound E g) : live g (.thread g.running) :=
  h.threads_live _ List.mem_cons_self

end Sound

theorem reachable_of_mem_flatMap {os : List GCObject} (hos : ∀ o ∈ os, Reachable g o) :
    ∀ o ∈ os.flatMap (refs g), Reachable g o := by
  intro c hc
  obtain ⟨o, ho, hc⟩ := List.mem_flatMap.mp hc
  exact .ref (hos o ho) hc

/-- What the program reads can be reached. -/
theorem reachable_of_readable (ho : o ∈ readable g) : Reachable g o := by
  have h₀ : ∀ o ∈ roots g, Reachable g o := fun o ho => .root ho
  have h₁ := reachable_of_mem_flatMap h₀
  have h₂ := reachable_of_mem_flatMap h₁
  have h₃ := reachable_of_mem_flatMap h₂
  have h₄ := reachable_of_mem_flatMap h₃
  simp only [readable, List.mem_append] at ho
  obtain (((ho | ho) | ho) | ho) | ho := ho
  · exact h₀ o ho
  · exact h₁ o ho
  · exact h₂ o ho
  · exact h₃ o ho
  · exact h₄ o ho

namespace Sound

theorem readable_live (h : Sound E g) (ho : (readable g).contains o = true) : live g o :=
  h.live_of_reachable (reachable_of_readable (List.contains_iff_mem.mp ho))

theorem athand_live (h : Sound E g) {v : TValue} (hv : athand g v = true) :
    ∀ c ∈ v.refs, live g c := by
  rw [athand, List.all_eq_true] at hv
  exact fun c hc => h.readable_live (hv c hc)

theorem whole (h : Sound E g) (hnodead : ∀ o, g.color o ≠ some (.white (!g.currentwhite))) :
    Whole g := fun o ho c hc => (h.closed o ⟨ho, hnodead o⟩ c hc).1

/-- The exempted references may be fewer where the barriers have done their work. -/
theorem mono (h : Sound E g)
    (hE : ∀ o c, E o c → g.color o = some .black → nonwhite g c ∨ E' o c) : Sound E' g := by
  refine ⟨h.shape, h.closed, h.main, h.registry, h.mt, h.tmudata, h.udata, h.thread, h.upval, ?_⟩
  have hcol := h.coloured
  rw [Coloured] at hcol ⊢
  split at hcol
  · refine ⟨⟨hcol.nodead, hcol.listed, fun o ho => ?_, hcol.gray⟩, hcol.main, hcol.registry⟩
    refine (hcol.black o ho).imp_right fun hrefs c hc => ?_
    obtain hn | hEc := hrefs c hc
    · exact Or.inl hn
    · exact hE o c hEc ho
  all_goals exact hcol

end Sound

end UnityLua.Collector
