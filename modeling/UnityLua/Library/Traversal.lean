import Mathlib.Data.Fintype.Card
import Mathlib.Logic.Relation

/-!
# Depth-first traversal of a graph with places

The nodes of a finite graph have a list of labelled edges each, in the order in which they are
taken; an edge may lead to no node. A traversal marks each node with the place at which it was
met first, and goes on below it at once; an edge to a node that was met before is not followed.
The place of a node depends on the place of the node before it, on the label, on whether the
edge is the last of its node, and on what was met so far.

What happens is logged, one visit an edge, with what was met when the edge was taken.

## Main results

* `explore_spec`: a traversal ends, and its log is as `Explores` says.
* `Explores.seen_iff`, `Explores.reachable`: what is met is what can be reached, and every node
  that can be reached has the visits of its edges, in their order.
* `Explores.leads_root`: a node is met at the place to which the visits that found nodes lead.
-/

namespace Library

universe u v w

variable {α : Type u} {κ : Type v} {π : Type w}

/-- The elements of a list, each with whether it is the last. -/
def withLast {β : Type v} : List β → List (β × Bool)
  | [] => []
  | b :: bs => (b, bs.isEmpty) :: withLast bs

theorem withLast_fst {β : Type v} (bs : List β) : (withLast bs).map Prod.fst = bs := by
  induction bs with
  | nil => rfl
  | cons b bs ih => rw [withLast, List.map_cons, ih]

/-- Exactly the last is marked. -/
theorem withLast_snd {β : Type v} {bs : List β} (h : bs ≠ []) :
    (withLast bs).map Prod.snd = List.replicate (bs.length - 1) false ++ [true] := by
  induction bs with
  | nil => exact absurd rfl h
  | cons b bs ih =>
      rcases bs with _ | ⟨b', bs⟩
      · rfl
      · rw [withLast, List.map_cons, ih (List.cons_ne_nil b' bs)]
        rfl

/-- An edge that was taken: from a node met at a place, and with the places of the nodes that
were met before. -/
structure Visit (α : Type u) (κ : Type v) (π : Type w) where
  source : α
  label : κ
  target : Option α
  last : Bool
  place : π
  seen : α → Option π

namespace Visit

/-- The node that is met first by this visit. -/
def found (v : Visit α κ π) : Option α :=
  v.target.bind fun b => if (v.seen b).isSome then none else some b

theorem found_eq_some {v : Visit α κ π} {b : α} :
    v.found = some b ↔ v.target = some b ∧ v.seen b = none := by
  unfold found
  rw [Option.bind_eq_some_iff]
  constructor
  · rintro ⟨c, hc, h⟩
    split at h
    · exact absurd h nofun
    · next hnot =>
        obtain rfl := Option.some.inj h
        exact ⟨hc, Option.not_isSome_iff_eq_none.mp hnot⟩
  · rintro ⟨hb, hnone⟩
    exact ⟨b, hb, by rw [hnone, if_neg (by simp)]⟩

end Visit

section Traversal

variable [DecidableEq α] (edges : α → List (κ × Option α))
  (descend : (α → Option π) → π → κ → Bool → π)

/-- The edges of a node, one after the other. -/
def exploreEdges
    (expand : (α → Option π) → π → α → Option ((α → Option π) × List (Visit α κ π)))
    (a : α) (place : π) :
    List (κ × Option α) → (α → Option π) → Option ((α → Option π) × List (Visit α κ π))
  | [], seen => some (seen, [])
  | (label, target) :: es, seen =>
      let here : Visit α κ π := ⟨a, label, target, es.isEmpty, place, seen⟩
      match here.found with
      | some b =>
          (expand seen (descend seen place label es.isEmpty) b).bind fun below =>
            (exploreEdges expand a place es below.1).map fun rest =>
              (rest.1, here :: (below.2 ++ rest.2))
      | none => (exploreEdges expand a place es seen).map fun rest => (rest.1, here :: rest.2)

omit [DecidableEq α] in
theorem exploreEdges_follow
    {expand : (α → Option π) → π → α → Option ((α → Option π) × List (Visit α κ π))}
    {a : α} {place : π} {label : κ} {b : α} (es : List (κ × Option α)) {seen : α → Option π}
    (hb : seen b = none) :
    exploreEdges descend expand a place ((label, some b) :: es) seen =
      (expand seen (descend seen place label es.isEmpty) b).bind fun below =>
        (exploreEdges descend expand a place es below.1).map fun rest =>
          (rest.1, ⟨a, label, some b, es.isEmpty, place, seen⟩ :: (below.2 ++ rest.2)) := by
  have hfound : (⟨a, label, some b, es.isEmpty, place, seen⟩ : Visit α κ π).found = some b :=
    Visit.found_eq_some.mpr ⟨rfl, hb⟩
  rw [exploreEdges]
  simp only [hfound]

omit [DecidableEq α] in
theorem exploreEdges_skip
    {expand : (α → Option π) → π → α → Option ((α → Option π) × List (Visit α κ π))}
    {a : α} {place : π} {label : κ} {target : Option α} (es : List (κ × Option α))
    {seen : α → Option π}
    (hskip : (⟨a, label, target, es.isEmpty, place, seen⟩ : Visit α κ π).found = none) :
    exploreEdges descend expand a place ((label, target) :: es) seen =
      (exploreEdges descend expand a place es seen).map fun rest =>
        (rest.1, ⟨a, label, target, es.isEmpty, place, seen⟩ :: rest.2) := by
  rw [exploreEdges]
  simp only [hskip]

/-- A node that is met at a place, and everything below it. The first argument bounds how deep
the calls are nested. -/
def explore : ℕ → (α → Option π) → π → α →
    Option ((α → Option π) × List (Visit α κ π))
  | 0, _, _, _ => none
  | depth + 1, seen, place, a =>
      exploreEdges descend (explore depth) a place (edges a)
        (Function.update seen a (some place))

/-- What was met stays met, at its place. -/
def Extends (seen seen' : α → Option π) : Prop := ∀ b p, seen b = some p → seen' b = some p

omit [DecidableEq α] in
theorem Extends.refl (seen : α → Option π) : Extends seen seen := fun _ _ h => h

omit [DecidableEq α] in
theorem Extends.trans {s s' s'' : α → Option π} (h : Extends s s') (h' : Extends s' s'') :
    Extends s s'' := fun b p hb => h' b p (h b p hb)

omit [DecidableEq α] in
theorem Extends.ne_none {seen seen' : α → Option π} (h : Extends seen seen') {b : α}
    (hb : seen b ≠ none) : seen' b ≠ none := by
  obtain ⟨p, hp⟩ := Option.ne_none_iff_exists'.mp hb
  rw [h b p hp]
  exact nofun

theorem extends_update {seen : α → Option π} {a : α} (h : seen a = none) (p : π) :
    Extends seen (Function.update seen a (some p)) := by
  intro b q hb
  rw [Function.update_of_ne]
  · exact hb
  · rintro rfl
    exact absurd (h.symm.trans hb) nofun

/-- Met on the way from one state to the next. -/
def New (seen seen' : α → Option π) (b : α) : Prop := seen b = none ∧ seen' b ≠ none

omit [DecidableEq α] in
/-- What is met on the way is met before or after any state in between. -/
theorem new_trans_iff {s s' s'' : α → Option π} (h : Extends s s') (h' : Extends s' s'') (c : α) :
    New s s'' c ↔ New s s' c ∨ New s' s'' c := by
  constructor
  · rintro ⟨hnone, hsome⟩
    by_cases hc : s' c = none
    · exact Or.inr ⟨hc, hsome⟩
    · exact Or.inl ⟨hnone, hc⟩
  · rintro (⟨hnone, hc⟩ | ⟨hc, hsome⟩)
    · exact ⟨hnone, h'.ne_none hc⟩
    · refine ⟨?_, hsome⟩
      by_contra hne
      exact h.ne_none hne hc

/-- After the first node is met. -/
theorem new_update_iff {s s' : α → Option π} {b : α} {p : π} (hb : s b = none)
    (h : Extends (Function.update s b (some p)) s') (c : α) :
    New s s' c ↔ c = b ∨ New (Function.update s b (some p)) s' c := by
  by_cases hcb : c = b
  · subst hcb
    have hmet : s' c = some p := h c p (Function.update_self ..)
    exact iff_of_true ⟨hb, by rw [hmet]; exact nofun⟩ (Or.inl rfl)
  · simp only [New, Function.update_of_ne hcb, hcb, false_or]

/-- The visits of the edges of one node. -/
def visitsOf (log : List (Visit α κ π)) (b : α) : List (Visit α κ π) :=
  log.filter fun v => v.source = b

/-- The visits are those of these edges, in their order, the last one marked. -/
def Rendered (es : List (κ × Option α)) (visits : List (Visit α κ π)) : Prop :=
  visits.map (fun v => ((v.label, v.target), v.last)) = withLast es

/-- A visit of the log found the one node from the other. -/
def Leads (log : List (Visit α κ π)) (a b : α) : Prop :=
  ∃ v ∈ log, v.source = a ∧ v.found = some b

/-- What the traversal of edges of a node does that was met at a place. -/
structure Explores (a : α) (place : π) (es : List (κ × Option α)) (seen seen' : α → Option π)
    (log : List (Visit α κ π)) : Prop where
  grows : Extends seen seen'
  own : Rendered es (visitsOf log a)
  new : ∀ b, New seen seen' b → Rendered (edges b) (visitsOf log b)
  old : ∀ b, b ≠ a → ¬ New seen seen' b → visitsOf log b = []
  closedOwn : ∀ label b, (label, some b) ∈ es → seen' b ≠ none
  closed : ∀ b, New seen seen' b → ∀ label c, (label, some c) ∈ edges b → seen' c ≠ none
  between : ∀ v ∈ log, Extends seen v.seen ∧ Extends v.seen seen'
  places : ∀ v ∈ log, seen' v.source = some v.place
  foundOnce : (log.filterMap Visit.found).Nodup
  found : ∀ b, b ∈ log.filterMap Visit.found ↔ New seen seen' b
  descends : ∀ v ∈ log, ∀ b, v.found = some b →
    seen' b = some (descend v.seen v.place v.label v.last)
  leads : ∀ b, New seen seen' b → Relation.ReflTransGen (Leads log) a b

namespace Explores

variable {edges descend} {a : α} {place : π} {es : List (κ × Option α)}
  {seen seen' : α → Option π} {log : List (Visit α κ π)}

theorem nil : Explores edges descend a place [] seen seen [] where
  grows := Extends.refl seen
  own := rfl
  new _ hb := absurd hb.1 hb.2
  old _ _ _ := rfl
  closedOwn _ _ h := absurd h List.not_mem_nil
  closed _ hb := absurd hb.1 hb.2
  between _ h := absurd h List.not_mem_nil
  places _ h := absurd h List.not_mem_nil
  foundOnce := List.nodup_nil
  found _ := iff_of_false List.not_mem_nil fun hb => hb.2 hb.1
  descends _ h := absurd h List.not_mem_nil
  leads _ hb := absurd hb.1 hb.2

omit [DecidableEq α] in
theorem leads_mono {log log' : List (Visit α κ π)} (h : ∀ v ∈ log, v ∈ log') {b c : α}
    (hbc : Relation.ReflTransGen (Leads log) b c) : Relation.ReflTransGen (Leads log') b c := by
  refine Relation.ReflTransGen.mono ?_ _ _ hbc
  rintro x y ⟨v, hv, hsource, hfound⟩
  exact ⟨v, h v hv, hsource, hfound⟩

theorem visitsOf_cons_self (v : Visit α κ π) (log : List (Visit α κ π)) :
    visitsOf (v :: log) v.source = v :: visitsOf log v.source :=
  List.filter_cons_of_pos (decide_eq_true rfl)

theorem visitsOf_cons_of_ne {v : Visit α κ π} {b : α} (h : b ≠ v.source)
    (log : List (Visit α κ π)) : visitsOf (v :: log) b = visitsOf log b :=
  List.filter_cons_of_neg (by simpa using fun hv => h hv.symm)

theorem visitsOf_append (log log' : List (Visit α κ π)) (b : α) :
    visitsOf (log ++ log') b = visitsOf log b ++ visitsOf log' b :=
  List.filter_append _ _

/-- An edge that is not followed. -/
theorem skip {label : κ} {target : Option α}
    (h : Explores edges descend a place es seen seen' log) (ha : seen a = some place)
    (hskip : (⟨a, label, target, es.isEmpty, place, seen⟩ : Visit α κ π).found = none) :
    Explores edges descend a place ((label, target) :: es) seen seen'
      (⟨a, label, target, es.isEmpty, place, seen⟩ :: log) := by
  have hne {b : α} (hb : New seen seen' b) : b ≠ a := by
    rintro rfl
    exact absurd (ha.symm.trans hb.1) nofun
  refine ⟨h.grows, ?_, ?_, ?_, ?_, h.closed, ?_, ?_, ?_, ?_, ?_, ?_⟩
  · rw [Rendered, visitsOf_cons_self, List.map_cons, h.own, withLast]
  · intro b hb
    rw [visitsOf_cons_of_ne (hne hb)]
    exact h.new b hb
  · intro b hba hb
    rw [visitsOf_cons_of_ne hba]
    exact h.old b hba hb
  · intro label' b hmem
    rcases List.mem_cons.mp hmem with heq | hmem
    · obtain ⟨rfl, rfl⟩ := Prod.mk.inj heq
      refine h.grows.ne_none fun hb => ?_
      rw [Visit.found_eq_some.mpr ⟨rfl, hb⟩] at hskip
      exact absurd hskip nofun
    · exact h.closedOwn label' b hmem
  · intro v hv
    rcases List.mem_cons.mp hv with rfl | hv
    · exact ⟨Extends.refl seen, h.grows⟩
    · exact h.between v hv
  · intro v hv
    rcases List.mem_cons.mp hv with rfl | hv
    · exact h.grows a place ha
    · exact h.places v hv
  · rw [List.filterMap_cons_none hskip]
    exact h.foundOnce
  · rw [List.filterMap_cons_none hskip]
    exact h.found
  · intro v hv b hb
    rcases List.mem_cons.mp hv with rfl | hv
    · exact absurd (hskip.symm.trans hb) nofun
    · exact h.descends v hv b hb
  · intro b hb
    exact leads_mono (fun v hv => List.mem_cons_of_mem _ hv) (h.leads b hb)

/-- An edge that is followed to a node not met before. -/
theorem follow {label : κ} {b : α} {seen₁ : α → Option π} {below : List (Visit α κ π)}
    (hb : seen b = none) (ha : seen a = some place)
    (hbelow : Explores edges descend b (descend seen place label es.isEmpty) (edges b)
      (Function.update seen b (some (descend seen place label es.isEmpty))) seen₁ below)
    (h : Explores edges descend a place es seen₁ seen' log) :
    Explores edges descend a place ((label, some b) :: es) seen seen'
      (⟨a, label, some b, es.isEmpty, place, seen⟩ :: (below ++ log)) := by
  set p := descend seen place label es.isEmpty with hp
  set here : Visit α κ π := ⟨a, label, some b, es.isEmpty, place, seen⟩ with hhere
  have hfound : here.found = some b := Visit.found_eq_some.mpr ⟨rfl, hb⟩
  have hstart : Extends seen (Function.update seen b (some p)) := extends_update hb p
  have hgrows₁ : Extends seen seen₁ := hstart.trans hbelow.grows
  have hb₁ : seen₁ b = some p := hbelow.grows b p (Function.update_self ..)
  have hab : a ≠ b := by
    rintro rfl
    exact absurd (ha.symm.trans hb) nofun
  -- a node is new if it is `b`, or met below `b`, or met after that
  have hnew : ∀ c, New seen seen' c ↔
      c = b ∨ New (Function.update seen b (some p)) seen₁ c ∨ New seen₁ seen' c := fun c => by
    rw [new_trans_iff hgrows₁ h.grows, new_update_iff hb hbelow.grows, or_assoc]
  have hold : ∀ c, c ≠ b → seen₁ c = none → visitsOf below c = [] := fun c hcb hc =>
    hbelow.old c hcb fun hnew => hnew.2 hc
  have hnew_ne : ∀ c, New seen seen' c → c ≠ a := by
    rintro c ⟨hc, -⟩ rfl
    exact absurd (ha.symm.trans hc) nofun
  have hbelow_mem : ∀ v ∈ below, v ∈ here :: (below ++ log) := fun v hv =>
    List.mem_cons_of_mem _ (List.mem_append_left _ hv)
  have hlog_mem : ∀ v ∈ log, v ∈ here :: (below ++ log) := fun v hv =>
    List.mem_cons_of_mem _ (List.mem_append_right _ hv)
  have hleads_b : Relation.ReflTransGen (Leads (here :: (below ++ log))) a b :=
    Relation.ReflTransGen.single ⟨here, List.mem_cons_self, rfl, hfound⟩
  refine ⟨hgrows₁.trans h.grows, ?_, ?_, ?_, ?_, ?_, ?_, ?_, ?_, ?_, ?_, ?_⟩
  · have hnot : ¬ New (Function.update seen b (some p)) seen₁ a := by
      rintro ⟨hnone, -⟩
      rw [Function.update_of_ne hab, ha] at hnone
      exact absurd hnone nofun
    have hown : visitsOf (here :: (below ++ log)) a = here :: visitsOf log a := by
      rw [show a = here.source from rfl, visitsOf_cons_self, visitsOf_append, hbelow.old a hab hnot,
        List.nil_append]
    rw [Rendered, hown, List.map_cons, h.own, withLast]
  · intro c hc
    rw [visitsOf_cons_of_ne (hnew_ne c hc), visitsOf_append]
    rcases (hnew c).mp hc with rfl | hc₁ | hc₂
    · rw [h.old c hab.symm fun hc₂ => absurd (hb₁.symm.trans hc₂.1) nofun, List.append_nil]
      exact hbelow.own
    · rw [h.old c (hnew_ne c hc) fun hc₂ => hc₁.2 hc₂.1, List.append_nil]
      exact hbelow.new c hc₁
    · have hcb : c ≠ b := by
        rintro rfl
        exact absurd (hb₁.symm.trans hc₂.1) nofun
      rw [hold c hcb hc₂.1, List.nil_append]
      exact h.new c hc₂
  · intro c hca hnot
    have hcb : c ≠ b := fun hcb => hnot ((hnew c).mpr (Or.inl hcb))
    rw [visitsOf_cons_of_ne hca, visitsOf_append,
      hbelow.old c hcb fun hc₁ => hnot ((hnew c).mpr (Or.inr (Or.inl hc₁))),
      h.old c hca fun hc₂ => hnot ((hnew c).mpr (Or.inr (Or.inr hc₂))), List.nil_append]
  · intro label' c hmem
    rcases List.mem_cons.mp hmem with heq | hmem
    · obtain ⟨-, heq⟩ := Prod.mk.inj heq
      obtain rfl := Option.some.inj heq
      exact h.grows.ne_none (by rw [hb₁]; exact nofun)
    · exact h.closedOwn label' c hmem
  · intro c hc label' d hmem
    rcases (hnew c).mp hc with rfl | hc₁ | hc₂
    · exact h.grows.ne_none (hbelow.closedOwn label' d hmem)
    · exact h.grows.ne_none (hbelow.closed c hc₁ label' d hmem)
    · exact h.closed c hc₂ label' d hmem
  · intro v hv
    rcases List.mem_cons.mp hv with rfl | hv
    · exact ⟨Extends.refl seen, hgrows₁.trans h.grows⟩
    rcases List.mem_append.mp hv with hv | hv
    · obtain ⟨hfrom, hto⟩ := hbelow.between v hv
      exact ⟨hstart.trans hfrom, hto.trans h.grows⟩
    · obtain ⟨hfrom, hto⟩ := h.between v hv
      exact ⟨hgrows₁.trans hfrom, hto⟩
  · intro v hv
    rcases List.mem_cons.mp hv with rfl | hv
    · exact h.grows a place (hgrows₁ a place ha)
    rcases List.mem_append.mp hv with hv | hv
    · exact h.grows _ _ (hbelow.places v hv)
    · exact h.places v hv
  · rw [List.filterMap_cons_some hfound, List.filterMap_append, List.nodup_cons, List.mem_append,
      hbelow.found, h.found, List.nodup_append']
    refine ⟨?_, hbelow.foundOnce, h.foundOnce, fun c hc hc' => ?_⟩
    · rintro (⟨hnone, -⟩ | ⟨hnone, -⟩)
      · rw [Function.update_self] at hnone
        exact absurd hnone nofun
      · exact absurd (hb₁.symm.trans hnone) nofun
    · exact ((hbelow.found c).mp hc).2 ((h.found c).mp hc').1
  · intro c
    rw [List.filterMap_cons_some hfound, List.filterMap_append, List.mem_cons, List.mem_append,
      hbelow.found, h.found, hnew]
  · intro v hv c hc
    rcases List.mem_cons.mp hv with rfl | hv
    · obtain rfl := Option.some.inj (hfound.symm.trans hc)
      exact h.grows b p hb₁
    rcases List.mem_append.mp hv with hv | hv
    · exact h.grows _ _ (hbelow.descends v hv c hc)
    · exact h.descends v hv c hc
  · intro c hc
    rcases (hnew c).mp hc with rfl | hc₁ | hc₂
    · exact hleads_b
    · exact hleads_b.trans (leads_mono hbelow_mem (hbelow.leads c hc₁))
    · exact leads_mono hlog_mem (h.leads c hc₂)

end Explores

/-! ### Traversals end -/

section Finite

variable [Fintype α]

/-- How many nodes were not met. -/
def unmet (seen : α → Option π) : ℕ := (Finset.univ.filter fun b => seen b = none).card

omit [DecidableEq α] in
theorem unmet_le {seen seen' : α → Option π} (h : Extends seen seen') :
    unmet seen' ≤ unmet seen := by
  refine Finset.card_le_card fun b hb => ?_
  rw [Finset.mem_filter] at hb ⊢
  refine ⟨hb.1, ?_⟩
  by_contra hmet
  exact h.ne_none hmet hb.2

theorem unmet_update_lt {seen : α → Option π} {a : α} (h : seen a = none) (p : π) :
    unmet (Function.update seen a (some p)) < unmet seen := by
  refine Finset.card_lt_card ((Finset.ssubset_iff_of_subset fun b hb => ?_).mpr ⟨a, ?_, ?_⟩)
  · rw [Finset.mem_filter] at hb ⊢
    refine ⟨hb.1, ?_⟩
    by_contra hmet
    exact (extends_update h p).ne_none hmet hb.2
  · exact Finset.mem_filter.mpr ⟨Finset.mem_univ a, h⟩
  · rw [Finset.mem_filter, Function.update_self]
    exact fun hb => absurd hb.2 nofun

variable {edges descend}

/-- The edges of a node, when what is below the nodes they lead to can be explored. -/
theorem exploreEdges_spec
    {expand : (α → Option π) → π → α → Option ((α → Option π) × List (Visit α κ π))} {n : ℕ}
    (hexpand : ∀ seen place b, seen b = none → unmet seen ≤ n →
      ∃ seen' log, expand seen place b = some (seen', log) ∧
        Explores edges descend b place (edges b) (Function.update seen b (some place)) seen' log)
    {a : α} {place : π} (es : List (κ × Option α)) {seen : α → Option π}
    (ha : seen a = some place) (hn : unmet seen ≤ n) :
    ∃ seen' log, exploreEdges descend expand a place es seen = some (seen', log) ∧
      Explores edges descend a place es seen seen' log := by
  induction es generalizing seen with
  | nil => exact ⟨seen, [], rfl, Explores.nil⟩
  | cons e es ih =>
      obtain ⟨label, target⟩ := e
      cases hfound : (⟨a, label, target, es.isEmpty, place, seen⟩ : Visit α κ π).found with
      | none =>
          obtain ⟨seen', log, hrun, h⟩ := ih ha hn
          exact ⟨seen', _, by rw [exploreEdges_skip descend es hfound, hrun, Option.map_some],
            h.skip ha hfound⟩
      | some b =>
          obtain ⟨htarget, hb⟩ := Visit.found_eq_some.mp hfound
          obtain rfl : target = some b := htarget
          obtain ⟨seen₁, below, hrun, hbelow⟩ :=
            hexpand seen (descend seen place label es.isEmpty) b hb hn
          have hgrows : Extends seen seen₁ := (extends_update hb _).trans hbelow.grows
          obtain ⟨seen', log, hrun', h⟩ :=
            ih (hgrows a place ha) (Nat.le_trans (unmet_le hgrows) hn)
          refine ⟨seen', _, ?_, Explores.follow hb ha hbelow h⟩
          rw [exploreEdges_follow descend es hb, hrun, Option.bind_some, hrun', Option.map_some]

/-- Below a node that was not met, a traversal ends within as many nested calls as there are nodes
that were not met. -/
theorem explore_ends {depth : ℕ} {seen : α → Option π} {place : π} {a : α} (ha : seen a = none)
    (hdepth : unmet seen ≤ depth) :
    ∃ seen' log, explore edges descend depth seen place a = some (seen', log) ∧
      Explores edges descend a place (edges a) (Function.update seen a (some place)) seen' log := by
  induction depth generalizing seen place a with
  | zero =>
      have hlt := unmet_update_lt ha place
      omega
  | succ depth ih =>
      have hlt := unmet_update_lt ha place
      exact exploreEdges_spec (fun _ _ _ hb hn => ih hb hn) (edges a) (Function.update_self ..)
        (by omega)

/-- **A traversal from one node.** -/
theorem explore_spec (place : π) (root : α) :
    ∃ seen' log,
      explore edges descend (Fintype.card α) (fun _ => none) place root = some (seen', log) ∧
      Explores edges descend root place (edges root)
        (Function.update (fun _ => none) root (some place)) seen' log :=
  explore_ends rfl (Finset.card_le_univ _)

end Finite

/-! ### What a whole traversal has met -/

/-- A node can be reached along edges. -/
def Reachable (a b : α) : Prop :=
  Relation.ReflTransGen (fun x y => ∃ label, (label, some y) ∈ edges x) a b

namespace Explores

variable {edges descend} {root : α} {place : π} {seen' : α → Option π}
  {log : List (Visit α κ π)}

/-- The visits of a node are those of its edges. -/
theorem rendered (h : Explores edges descend root place (edges root)
    (Function.update (fun _ => none) root (some place)) seen' log) {b : α} (hb : seen' b ≠ none) :
    Rendered (edges b) (visitsOf log b) := by
  by_cases hroot : b = root
  · exact hroot ▸ h.own
  · exact h.new b ⟨Function.update_of_ne hroot .., hb⟩

/-- A visit is one of an edge. -/
theorem mem_edges (h : Explores edges descend root place (edges root)
    (Function.update (fun _ => none) root (some place)) seen' log) {v : Visit α κ π}
    (hv : v ∈ log) : (v.label, v.target) ∈ edges v.source := by
  have hmet : seen' v.source ≠ none := by
    rw [h.places v hv]
    exact nofun
  have hedges := congrArg (List.map Prod.fst) (h.rendered hmet)
  rw [withLast_fst, List.map_map] at hedges
  rw [← hedges]
  exact List.mem_map_of_mem (List.mem_filter.mpr ⟨hv, decide_eq_true rfl⟩)

theorem leads_root (h : Explores edges descend root place (edges root)
    (Function.update (fun _ => none) root (some place)) seen' log) {b : α} (hb : seen' b ≠ none) :
    Relation.ReflTransGen (Leads log) root b := by
  by_cases hroot : b = root
  · exact hroot ▸ Relation.ReflTransGen.refl
  · exact h.leads b ⟨Function.update_of_ne hroot .., hb⟩

/-- **What is met is what can be reached.** -/
theorem seen_iff (h : Explores edges descend root place (edges root)
    (Function.update (fun _ => none) root (some place)) seen' log) (b : α) :
    seen' b ≠ none ↔ Reachable edges root b := by
  constructor
  · intro hb
    refine Relation.ReflTransGen.mono ?_ _ _ (h.leads_root hb)
    rintro x y ⟨v, hv, rfl, hfound⟩
    exact ⟨v.label, (Visit.found_eq_some.mp hfound).1 ▸ h.mem_edges hv⟩
  · intro hreach
    induction hreach with
    | refl => exact h.grows.ne_none (by rw [Function.update_self]; exact nofun)
    | @tail c d _ hcd ih =>
        obtain ⟨label, hmem⟩ := hcd
        by_cases hroot : c = root
        · exact h.closedOwn label d (hroot ▸ hmem)
        · exact h.closed c ⟨Function.update_of_ne hroot .., ih⟩ label d hmem

/-- A node that cannot be reached has no visits. -/
theorem visitsOf_eq_nil (h : Explores edges descend root place (edges root)
    (Function.update (fun _ => none) root (some place)) seen' log) {b : α}
    (hb : ¬ Reachable edges root b) : visitsOf log b = [] := by
  refine h.old b ?_ fun hnew => hb ((h.seen_iff b).mp hnew.2)
  rintro rfl
  exact hb Relation.ReflTransGen.refl

/-- The root and the nodes that were found are the nodes that can be reached, each once. -/
theorem found_once (h : Explores edges descend root place (edges root)
    (Function.update (fun _ => none) root (some place)) seen' log) :
    (root :: log.filterMap Visit.found).Nodup ∧
      ∀ b, b ∈ root :: log.filterMap Visit.found ↔ Reachable edges root b := by
  constructor
  · rw [List.nodup_cons, h.found]
    refine ⟨fun hnew => ?_, h.foundOnce⟩
    have hnone := hnew.1
    rw [Function.update_self] at hnone
    exact absurd hnone nofun
  · intro b
    rw [List.mem_cons, h.found, ← h.seen_iff]
    constructor
    · rintro (rfl | hnew)
      · exact h.grows.ne_none (by rw [Function.update_self]; exact nofun)
      · exact hnew.2
    · intro hb
      by_cases hroot : b = root
      · exact Or.inl hroot
      · exact Or.inr ⟨Function.update_of_ne hroot .., hb⟩

end Explores

end Traversal

end Library
