import UnityLua.CollectorUpvalues

/-!
# The steps of the program

Each step of the program keeps the invariant: what it writes it has at hand, so it is live, and
the barrier behind a write does for the colours what the write asks for. The one exception is
`lua_setupvalue` on a Lua function, whose barrier looks at the function where it should look at
the upvalue.

## Main results

* `sound_write`: a write to the fields of one object.
* `sound_program`: the steps of the program.
-/

namespace UnityLua.Collector

open Library

variable {E : GCObject → GCObject → Prop} {g g' : State} {o : GCObject}

theorem when_eq_some {p : Prop} [Decidable p] : when p g = some g' ↔ p ∧ g = g' := by
  rw [when]
  split
  · next h => simp [h]
  · next h => simp [h]

theorem eq_of_mem_refs {v : TValue} (hv : v.gcvalue = some o) : ∀ c ∈ v.refs, c = o := by
  intro c hc
  rw [TValue.refs, hv] at hc
  exact List.mem_singleton.mp hc

/-! ### New objects -/

/-- The fields of an object that is not there. -/
theorem sound_fresh (hg : Sound E g) (hnone : g.color o = none)
    (heq : g' = { g with udata := g'.udata, closure := g'.closure, table := g'.table,
                         thread := g'.thread, proto := g'.proto })
    (hthread : ∀ th, GCObject.thread th ≠ o → g'.thread th = g.thread th)
    (hrefs : ∀ x, x ≠ o → (∀ u, x ≠ .upval u) → refs g' x = refs g x) : Sound E g' := by
  have hne : ∀ x, g.color x ≠ none → x ≠ o := by
    rintro x hx rfl
    exact hx hnone
  have hupval : g'.upval = g.upval := by rw [heq]
  have hw : Writes NoRef g g' := by
    constructor
    case eq => rw [heq]
    case openupval => exact fun th hth => by rw [hthread th (hne _ hth)]
    case upval => exact fun u _ th l => by rw [hupval]
    case refs =>
      intro x hx c hc
      left
      cases x with
      | upval u =>
          suffices huv : uvalue g' u = uvalue g u by
            rwa [refs, huv] at hc
          rw [uvalue, uvalue, hupval]
          cases hu : g.upval u with
          | closed v => rfl
          | opened th l =>
              simp only [hthread th (hne _ (hg.shape.opened u th l hx hu).2.2)]
      | _ => rwa [hrefs _ (hne _ hx) (by simp)] at hc
    case chained =>
      refine chained_mono fun th hth v hv => ?_
      rwa [hthread th (hne _ (hg.threads_live th (List.mem_cons_of_mem _ hth)).1)]
  refine (sound_of_writes hw (fun _ _ h => absurd h id) hg).mono fun x c hc _ => ?_
  exact Or.inr (hc.resolve_right id)

theorem sound_pushnew {v : TValue} (hg : Sound E g) (hkind : rooted o)
    (hthread : ∀ th, o = .thread th → (g.thread th).openupval = []) (hrooted : Rooted g o)
    (hrefs : ∀ c ∈ refs g o, live g c) (hv : v.gcvalue = some o)
    (h : pushnew g o v = some g') : Sound E g' := by
  rw [pushnew, when_eq_some] at h
  obtain ⟨hnone, rfl⟩ := h
  obtain ⟨hsound, hlive⟩ := sound_link hg hkind hnone hthread hrooted hrefs
  refine hsound.push fun c hc => ?_
  rw [eq_of_mem_refs hv c hc]
  exact hlive

/-! ### Writes to one object -/

/-- **A write to the fields of one object.** -/
theorem sound_write {s : State} {N : GCObject → Prop} (hg : Sound NoRef g)
    (heq : s = { g with udata := s.udata, upval := s.upval, closure := s.closure,
                         table := s.table, thread := s.thread, proto := s.proto })
    (hthread : ∀ th, (s.thread th).openupval = (g.thread th).openupval ∧
      (s.thread th).stack = (g.thread th).stack)
    (hupval : ∀ u th l, s.upval u = .opened th l ↔ g.upval u = .opened th l)
    (hrefs : ∀ x, x ≠ o → refs s x = refs g x)
    (hnew : ∀ c ∈ refs s o, c ∈ refs g o ∨ N c) (hN : ∀ c, N c → live g c) :
    Sound (fun x c => x = o ∧ N c) s ∧ s.color = g.color ∧ s.currentwhite = g.currentwhite := by
  have hw : Writes (fun x c => x = o ∧ N c) g s := by
    constructor
    case eq => exact heq
    case openupval => exact fun th _ => (hthread th).1
    case upval => exact fun u _ th l => hupval u th l
    case refs =>
      intro x _ c hc
      by_cases hx : x = o
      · subst hx
        exact (hnew c hc).imp_right fun h => ⟨rfl, h⟩
      · rw [hrefs x hx] at hc
        exact Or.inl hc
    case chained => exact chained_mono fun th _ v hv => (hthread th).2 ▸ hv
  refine ⟨(sound_of_writes hw (fun x c h => hN c h.2) hg).mono fun x c hc _ => ?_, hw.color, ?_⟩
  · exact Or.inr (hc.resolve_left id)
  · rw [heq]

theorem live_congr (hcolor : g'.color = g.color) (hwhite : g'.currentwhite = g.currentwhite) :
    live g' o ↔ live g o := by
  rw [live, live, hcolor, hwhite]

theorem live_barriert {t : ℕ} {v : TValue} (h : live g o) : live (luaC_barriert g t v) o := by
  rw [luaC_barriert]
  split
  · split
    · next hbarrier =>
        rw [Bool.and_eq_true, isblack, decide_eq_true_eq] at hbarrier
        exact live_recolour (by simp [hbarrier.2]) (by simp) _ o (Or.inl h)
    · exact h
  · exact h

/-- A write and its barrier. -/
theorem sound_write_objbarrier {c : GCObject} (ho : live g o)
    (hc : live g c)
    (hw : Sound (fun x d => x = o ∧ d = c) g' ∧ g'.color = g.color ∧
      g'.currentwhite = g.currentwhite) : Sound NoRef (luaC_objbarrier g' o c) :=
  sound_objbarrier ((live_congr hw.2.1 hw.2.2).mpr ho) ((live_congr hw.2.1 hw.2.2).mpr hc) hw.1

theorem sound_write_barrier {v : TValue} (ho : live g o) (hv : ∀ c ∈ v.refs, live g c)
    (hw : Sound (fun x d => x = o ∧ d ∈ v.refs) g' ∧ g'.color = g.color ∧
      g'.currentwhite = g.currentwhite) : Sound NoRef (luaC_barrier g' o v) :=
  sound_barrier ((live_congr hw.2.1 hw.2.2).mpr ho)
    (fun c hc => (live_congr hw.2.1 hw.2.2).mpr (hv c hc)) hw.1

/-! ### Steps without a barrier -/

theorem sound_newtable {new : ℕ} (hg : Sound NoRef g) (h : step g (.newtable new) = some g') :
    Sound NoRef g' := by
  have hnone : g.color (.table new) = none := by
    rw [step, pushnew, when_eq_some] at h
    exact h.1
  have hfresh : Sound NoRef { g with table := Function.update g.table new ⟨none, [], []⟩ } := by
    refine sound_fresh (o := .table new) hg hnone rfl (fun _ _ => rfl) fun x hx hu => ?_
    cases x with
    | table i => simp only [refs, Function.update_of_ne fun hi => hx (congrArg GCObject.table hi)]
    | upval u => exact absurd rfl (hu u)
    | _ => rfl
  refine sound_pushnew (o := .table new) (v := .table new) hfresh trivial
    (fun th h => by cases h) trivial (fun c hc => ?_) rfl h
  simp only [refs, Function.update_self] at hc
  cases hc

theorem sound_newproto {new : ℕ} (hg : Sound NoRef g) (h : step g (.newproto new) = some g') :
    Sound NoRef g' := by
  have hnone : g.color (.proto new) = none := by
    rw [step, pushnew, when_eq_some] at h
    exact h.1
  have hfresh : Sound NoRef { g with proto := Function.update g.proto new [] } := by
    refine sound_fresh (o := .proto new) hg hnone rfl (fun _ _ => rfl) fun x hx hu => ?_
    cases x with
    | proto i => simp only [refs, Function.update_of_ne fun hi => hx (congrArg GCObject.proto hi)]
    | upval u => exact absurd rfl (hu u)
    | _ => rfl
  refine sound_pushnew (o := .proto new) (v := .proto new) hfresh trivial
    (fun th h => by cases h) trivial (fun c hc => ?_) rfl h
  simp only [refs, Function.update_self] at hc
  cases hc

/-- A new thread has the globals of the one that runs. -/
theorem sound_newthread {new : ℕ} (hg : Sound NoRef g) (h : step g (.newthread new) = some g') :
    Sound NoRef g' := by
  have hnone : g.color (.thread new) = none := by
    rw [step, pushnew, when_eq_some] at h
    exact h.1
  have hfresh : Sound NoRef { g with
      thread := Function.update g.thread new ⟨(g.thread g.running).gt, [], []⟩ } := by
    refine sound_fresh (o := .thread new) hg hnone rfl (fun th hth => ?_) fun x hx hu => ?_
    · exact Function.update_of_ne (fun hi => hth (congrArg GCObject.thread hi)) ..
    · cases x with
      | thread i =>
          simp only [refs, Function.update_of_ne fun hi => hx (congrArg GCObject.thread hi)]
      | upval u => exact absurd rfl (hu u)
      | _ => rfl
  refine sound_pushnew (o := .thread new) (v := .thread new) hfresh trivial (fun th h => ?_)
    trivial (fun c hc => ?_) rfl h
  · obtain rfl := GCObject.thread.inj h
    simp only [Function.update_self]
  · simp only [refs, Function.update_self] at hc
    obtain hc | hc := List.mem_append.mp hc
    · exact hg.closed _ hg.running_live c (List.mem_append_left _ hc)
    · cases hc

theorem sound_newuserdata {new env : ℕ} (hg : Sound NoRef g)
    (h : step g (.newuserdata new env) = some g') : Sound NoRef g' := by
  rw [step, when_eq_some] at h
  obtain ⟨⟨hnone, henv⟩, rfl⟩ := h
  have hfresh : Sound NoRef { g with udata := Function.update g.udata new ⟨none, env, false⟩ } := by
    refine sound_fresh (o := .userdata new) hg hnone rfl (fun _ _ => rfl) fun x hx hu => ?_
    cases x with
    | userdata i => simp only [refs, Function.update_of_ne fun hi => hx (congrArg GCObject.userdata hi)]
    | upval u => exact absurd rfl (hu u)
    | _ => rfl
  obtain ⟨hsound, hlive⟩ := sound_newudata hfresh hnone fun c hc => by
    simp only [refs, Function.update_self] at hc
    exact hg.athand_live henv c hc
  refine hsound.push fun c hc => ?_
  obtain rfl := List.mem_singleton.mp hc
  exact hlive

/-- A closure of C takes its upvalues from the stack. -/
theorem sound_newcclosure {new env n : ℕ} (hg : Sound NoRef g)
    (h : step g (.newcclosure new env n) = some g') : Sound NoRef g' := by
  rw [step, when_eq_some] at h
  obtain ⟨⟨henv, hnone, -⟩, rfl⟩ := h
  have hsound := hg.setrunning (s := (stack g).take ((stack g).length - n)) fun v hv =>
    hg.stack_live (List.mem_of_mem_take hv)
  set g₁ := setstack g g.running ((stack g).take ((stack g).length - n)) with hg₁
  set cl : Closure := .c env ((stack g).drop ((stack g).length - n)) with hcl
  have hfresh : Sound NoRef { g₁ with closure := Function.update g.closure new cl } := by
    refine sound_fresh (o := .function new) hsound hnone rfl (fun _ _ => rfl) fun x hx hu => ?_
    cases x with
    | function i =>
        change (Function.update g.closure new cl i).refs = (g.closure i).refs
        rw [Function.update_of_ne fun hi => hx (congrArg GCObject.function hi)]
    | upval u => exact absurd rfl (hu u)
    | _ => rfl
  obtain ⟨hlink, hlive⟩ := sound_link (o := .function new) hfresh trivial hnone
    (fun th h => by cases h) trivial fun c hc => by
      change c ∈ (Function.update g.closure new cl new).refs at hc
      rw [Function.update_self, hcl, Closure.refs] at hc
      change live g c
      obtain rfl | hc := List.mem_cons.mp hc
      · exact hg.athand_live henv _ (List.mem_singleton.mpr rfl)
      · obtain ⟨v, hv, hc⟩ := List.mem_flatMap.mp hc
        exact hg.stack_live (List.mem_of_mem_drop hv) c hc
  refine hlink.push fun c hc => ?_
  obtain rfl := List.mem_singleton.mp hc
  exact hlive

/-- A closure of Lua has its upvalues from the function that makes it, or they are open. -/
theorem sound_newlclosure {new env p : ℕ} {upvals : List Capture} (hg : Sound NoRef g)
    (h : step g (.newlclosure new env p upvals) = some g') : Sound NoRef g' := by
  rw [step] at h
  obtain ⟨⟨g₁, us⟩, hcapture, h⟩ := Option.bind_eq_some_iff.mp h
  rw [when_eq_some] at h
  obtain ⟨⟨henv, hp, hnone⟩, rfl⟩ := h
  obtain ⟨hsound, hus, hlive₁⟩ := sound_capture hg hcapture
  set cl : Closure := .lua env p us with hcl
  have hfresh : Sound NoRef { g₁ with closure := Function.update g₁.closure new cl } := by
    refine sound_fresh (o := .function new) hsound hnone rfl (fun _ _ => rfl) fun x hx hu => ?_
    cases x with
    | function i => simp only [refs, Function.update_of_ne fun hi => hx (congrArg GCObject.function hi)]
    | upval u => exact absurd rfl (hu u)
    | _ => rfl
  obtain ⟨hlink, hlive⟩ := sound_link (o := .function new) hfresh trivial hnone
    (fun th h => by cases h) trivial fun c hc => by
      simp only [refs, Function.update_self, hcl, Closure.refs] at hc
      change live g₁ c
      obtain rfl | hc := List.mem_cons.mp hc
      · exact hlive₁ _ (hg.athand_live henv _ (List.mem_singleton.mpr rfl))
      · obtain rfl | hc := List.mem_cons.mp hc
        · exact hlive₁ _ (hg.athand_live hp _ (List.mem_singleton.mpr rfl))
        · obtain ⟨u, hu, rfl⟩ := List.mem_map.mp hc
          exact hus u hu
  refine hlink.push fun c hc => ?_
  obtain rfl := List.mem_singleton.mp hc
  exact hlive

theorem sound_newstring {str : ByteString} {new : ℕ} (hg : Sound NoRef g)
    (h : step g (.newstring str new) = some g') : Sound NoRef g' := by
  rw [step] at h
  obtain ⟨r, hr, rfl⟩ := Option.map_eq_some_iff.mp h
  obtain ⟨hsound, hlive, -⟩ := sound_newlstr hg hr
  refine hsound.push fun c hc => ?_
  obtain rfl := List.mem_singleton.mp hc
  exact hlive

theorem sound_fix {i : ℕ} (hg : Sound NoRef g) (h : step g (.fix i) = some g') :
    Sound NoRef g' := by
  rw [step, when_eq_some] at h
  obtain ⟨-, rfl⟩ := h
  refine sound_of_strt _ hg (fun o ho => ?_) (fun _ => rfl) hg.shape.strt (List.Perm.refl _)
  by_cases hi : o = .string i
  · exact Or.inl ⟨i, hi⟩
  · rw [Function.update_of_ne hi] at ho
    exact hg.shape.fixed o ho

/-! ### Stacks -/

theorem sound_settop {n : ℕ} (hg : Sound NoRef g) (h : step g (.settop n) = some g') :
    Sound NoRef g' := by
  rw [step, when_eq_some] at h
  obtain ⟨-, rfl⟩ := h
  refine hg.setrunning fun v hv => ?_
  obtain hv | hv := List.mem_append.mp hv
  · exact hg.stack_live (List.mem_of_mem_take hv)
  · rw [List.eq_of_mem_replicate hv]
    exact fun c hc => absurd hc List.not_mem_nil

theorem sound_replace {i : ℕ} {v : TValue} (hg : Sound NoRef g)
    (h : step g (.replace i v) = some g') : Sound NoRef g' := by
  rw [step, when_eq_some] at h
  obtain ⟨hv, rfl⟩ := h
  refine hg.setrunning fun w hw => ?_
  obtain hw | rfl := List.mem_or_eq_of_mem_set hw
  · exact hg.stack_live hw
  · exact hg.athand_live hv

theorem sound_xmove {th : ℕ} {v : TValue} (hg : Sound NoRef g)
    (h : step g (.xmove th v) = some g') : Sound NoRef g' := by
  rw [step, when_eq_some] at h
  obtain ⟨⟨hth, hv⟩, rfl⟩ := h
  have hlive : live g (.thread th) := hg.athand_live hth _ (List.mem_singleton.mpr rfl)
  refine sound_setstack hg
    (chained_setstack hg.shape fun _ w hw => List.mem_append_left _ hw) fun i w hw => Or.inr ?_
  obtain hw | hw := List.mem_append.mp (List.mem_of_getElem? hw)
  · exact fun c hc => hg.closed _ hlive c
      (List.mem_append_right _ (List.mem_flatMap.mpr ⟨w, hw, hc⟩))
  · obtain rfl := List.mem_singleton.mp hw
    exact hg.athand_live hv

/-! ### Other threads -/

/-- The thread that runs is another one, or types have other metatables. -/
theorem sound_switch (hg : Sound E g) {running : ℕ} {resumers : List ℕ} {mt : List (Option ℕ)}
    (hchained : chained g (running :: resumers) = true)
    (hlast : (running :: resumers).getLast? = some g.mainthread)
    (hnodup : (running :: resumers).Nodup)
    (hmt : ∀ c ∈ mt.flatMap (fun mt => mt.toList.map GCObject.table), live g c) :
    Sound E { g with running := running, resumers := resumers, mt := mt } := by
  constructor
  case shape =>
    exact ⟨fun o ho => by have := hg.shape.placed o ho; cases o <;> exact this,
      fun o ho => (hg.shape.root o ho).imp_right fun h => by cases o <;> exact h,
      hg.shape.rootnodup, hg.shape.tmudata, hg.shape.fixed, hg.shape.strt,
      hg.shape.strings, hg.shape.main, hg.shape.openupval, hg.shape.nodup, hg.shape.opened,
      chained_mono (g := g) (fun _ _ _ hv => hv) hchained, hlast, hnodup⟩
  case closed => exact hg.closed
  case main => exact hg.main
  case registry => exact hg.registry
  case mt => exact hmt
  case tmudata => exact hg.tmudata
  case udata => exact hg.udata
  case thread => exact hg.thread
  case upval => exact hg.upval
  case coloured =>
    refine coloured_of_clean hg.coloured rfl (fun hstate => ?_) (fun _ h => h) rfl rfl rfl rfl
      fun o _ hne c hc => Or.inl ⟨hne, by cases o <;> exact hc⟩
    have hcol := marking_of_sound hstate hg
    exact ⟨⟨hcol.nodead, hcol.listed, hcol.black, hcol.gray⟩, hcol.main, hcol.registry⟩

theorem sound_resume {th : ℕ} (hg : Sound NoRef g) (h : step g (.resume th) = some g') :
    Sound NoRef g' := by
  rw [step, when_eq_some] at h
  obtain ⟨⟨hin, hnew⟩, rfl⟩ := h
  refine sound_switch hg ?_ ?_ (List.nodup_cons.mpr ⟨hnew, hg.shape.distinct⟩) hg.mt
  · rw [chained, Bool.and_eq_true, List.contains_iff_mem]
    exact ⟨hin, hg.shape.chained⟩
  · rw [List.getLast?_cons_cons]
    exact hg.shape.last

theorem sound_yield (hg : Sound NoRef g) (h : step g .yield = some g') : Sound NoRef g' := by
  rw [step] at h
  split at h
  · next th resumers hresumers =>
      obtain rfl := Option.some.inj h
      have hchained := hg.shape.chained
      have hlast := hg.shape.last
      have hnodup := hg.shape.distinct
      rw [hresumers] at hchained hlast hnodup
      rw [chained, Bool.and_eq_true] at hchained
      rw [List.getLast?_cons_cons] at hlast
      exact sound_switch hg hchained.2 hlast (List.nodup_cons.mp hnodup).2 hg.mt
  · cases h

/-- Types get metatables without a barrier: they are marked again in the atomic step. -/
theorem sound_settypemetatable {type : ℕ} {mt : Option ℕ} (hg : Sound NoRef g)
    (h : step g (.settypemetatable type mt) = some g') : Sound NoRef g' := by
  rw [step, when_eq_some] at h
  obtain ⟨hmt, rfl⟩ := h
  refine sound_switch hg hg.shape.chained hg.shape.last hg.shape.distinct fun c hc => ?_
  obtain ⟨m, hm, hcm⟩ := List.mem_flatMap.mp hc
  obtain hm | hm := List.mem_or_eq_of_mem_set hm
  · exact hg.mt c (List.mem_flatMap.mpr ⟨m, hm, hcm⟩)
  · obtain ⟨t, ht, rfl⟩ := List.mem_map.mp hcm
    exact hg.athand_live (hmt t (hm ▸ Option.mem_toList.mp ht)) _ (List.mem_singleton.mpr rfl)

/-! ### Writes with a barrier -/

theorem refs_table (t : ℕ) : (TValue.table t).refs = [.table t] := rfl

/-- The entries of a table are new: `luaH_set` and what the array and the nodes are then. -/
theorem sound_settable {t : ℕ} {key v : TValue} {isnew : Bool} {array : List TValue}
    {node : List Node} (hg : Sound NoRef g)
    (h : step g (.settable t key v isnew array node) = some g') : Sound NoRef g' := by
  rw [step, when_eq_some] at h
  obtain ⟨⟨ht, hkey, hv, hrefs⟩, rfl⟩ := h
  have hkeylive := hg.athand_live hkey
  have hvlive := hg.athand_live hv
  set g₁ : State := { g with
    table := Function.update g.table t ⟨(g.table t).metatable, array, node⟩ } with hg₁
  have hw := sound_write (s := g₁) (o := .table t)
    (N := fun c => c ∈ v.refs ∨ isnew = true ∧ c ∈ key.refs) hg rfl (fun _ => ⟨rfl, rfl⟩)
    (fun _ _ _ => Iff.rfl) (fun x hx => ?_) (fun c hc => ?_) (fun c hc => ?_)
  · obtain ⟨hsound, hcolor, hwhite⟩ := hw
    have hlive : ∀ c, live g c → live g₁ c := fun c hc => (live_congr hcolor hwhite).mpr hc
    cases isnew with
    | false =>
        refine (sound_barriert (E := NoRef) (fun c hc => hlive c (hvlive c hc))
          (hsound.mono ?_)).mono fun x c hc _ => absurd hc.2 id
        rintro x c ⟨rfl, hc | ⟨hc, -⟩⟩ -
        · exact Or.inr ⟨rfl, Or.inl hc⟩
        · cases hc
    | true =>
        have hfirst : Sound (fun x c => x = .table t ∧ c ∈ v.refs) (luaC_barriert g₁ t key) := by
          refine sound_barriert (E := fun _ c => c ∈ v.refs) (fun c hc => hlive c (hkeylive c hc))
            (hsound.mono ?_)
          rintro x c ⟨rfl, hc⟩ -
          exact Or.inr ⟨rfl, hc.symm.imp_left And.right⟩
        refine (sound_barriert (E := NoRef) (fun c hc => ?_) (hfirst.mono ?_)).mono
          fun x c hc _ => absurd hc.2 id
        · exact live_barriert (hlive c (hvlive c hc))
        · rintro x c ⟨rfl, hc⟩ -
          exact Or.inr ⟨rfl, Or.inl hc⟩
  · cases x with
    | table i => simp only [hg₁, refs, Function.update_of_ne fun hi => hx (congrArg GCObject.table hi)]
    | _ => rfl
  · simp only [hg₁, refs, Function.update_self] at hc
    have hin := List.all_eq_true.mp hrefs c hc
    rw [List.contains_iff_mem, List.mem_append, List.mem_append] at hin
    obtain (hin | hin) | hin := hin
    · exact Or.inl hin
    · exact Or.inr (Or.inl hin)
    · split at hin
      · next hnew => exact Or.inr (Or.inr ⟨hnew, hin⟩)
      · cases hin
  · obtain hc | ⟨-, hc⟩ := hc
    · exact hvlive c hc
    · exact hkeylive c hc

/-- The references to a metatable. -/
theorem sound_metatable {m : Option ℕ} (hm : ∀ t ∈ m, athand g (.table t)) (hg : Sound NoRef g) :
    ∀ c ∈ m.toList.map GCObject.table, live g c := by
  intro c hc
  obtain ⟨t, ht, rfl⟩ := List.mem_map.mp hc
  exact hg.athand_live (hm t (Option.mem_toList.mp ht)) _ (List.mem_singleton.mpr rfl)

theorem sound_setmetatable {t : ℕ} {mt : Option ℕ} (hg : Sound NoRef g)
    (h : step g (.setmetatable t mt) = some g') : Sound NoRef g' := by
  rw [step, when_eq_some] at h
  obtain ⟨⟨ht, hmt⟩, rfl⟩ := h
  have hlive := sound_metatable hmt hg
  set g₁ : State := { g with
    table := Function.update g.table t { g.table t with metatable := mt } } with hg₁
  have hw := sound_write (s := g₁) (o := .table t)
    (N := fun c => c ∈ mt.toList.map GCObject.table) hg rfl (fun _ => ⟨rfl, rfl⟩)
    (fun _ _ _ => Iff.rfl) (fun x hx => ?_) (fun c hc => ?_) hlive
  · obtain ⟨hsound, hcolor, hwhite⟩ := hw
    cases mt with
    | none => exact hsound.mono fun x c hc _ => absurd hc.2 List.not_mem_nil
    | some m =>
        refine (sound_barriert (E := NoRef) (v := .table m)
          (fun c hc => (live_congr hcolor hwhite).mpr (hlive c hc)) (hsound.mono ?_)).mono
            fun x c hc _ => absurd hc.2 id
        rintro x c ⟨rfl, hc⟩ -
        exact Or.inr ⟨rfl, Or.inl hc⟩
  · cases x with
    | table i => simp only [hg₁, refs, Function.update_of_ne fun hi => hx (congrArg GCObject.table hi)]
    | _ => rfl
  · simp only [hg₁, refs, Function.update_self, Table.refs, List.mem_append] at hc ⊢
    tauto

theorem sound_setumetatable {u : ℕ} {mt : Option ℕ} (hg : Sound NoRef g)
    (h : step g (.setumetatable u mt) = some g') : Sound NoRef g' := by
  rw [step, when_eq_some] at h
  obtain ⟨⟨hu, hmt⟩, rfl⟩ := h
  have hlive := sound_metatable hmt hg
  have hulive : live g (.userdata u) := hg.athand_live hu _ (List.mem_singleton.mpr rfl)
  set g₁ : State := { g with
    udata := Function.update g.udata u { g.udata u with metatable := mt } } with hg₁
  have hw := sound_write (s := g₁) (o := .userdata u)
    (N := fun c => c ∈ mt.toList.map GCObject.table) hg rfl (fun _ => ⟨rfl, rfl⟩)
    (fun _ _ _ => Iff.rfl) (fun x hx => ?_) (fun c hc => ?_) hlive
  · cases mt with
    | none => exact hw.1.mono fun x c hc _ => absurd hc.2 List.not_mem_nil
    | some m =>
        refine sound_write_objbarrier hulive (hlive _ (List.mem_singleton.mpr rfl)) ⟨?_, hw.2⟩
        refine hw.1.mono ?_
        rintro x c ⟨rfl, hc⟩ -
        exact Or.inr ⟨rfl, List.mem_singleton.mp hc⟩
  · cases x with
    | userdata i =>
        simp only [hg₁, refs, Function.update_of_ne fun hi => hx (congrArg GCObject.userdata hi)]
    | _ => rfl
  · simp only [hg₁, refs, Function.update_self, List.mem_append] at hc ⊢
    tauto

theorem sound_setuenv {u env : ℕ} (hg : Sound NoRef g) (h : step g (.setuenv u env) = some g') :
    Sound NoRef g' := by
  rw [step, when_eq_some] at h
  obtain ⟨⟨hu, henv⟩, rfl⟩ := h
  have hulive : live g (.userdata u) := hg.athand_live hu _ (List.mem_singleton.mpr rfl)
  have henvlive : live g (.table env) := hg.athand_live henv _ (List.mem_singleton.mpr rfl)
  refine sound_write_objbarrier hulive henvlive (sound_write (N := fun d => d = .table env) hg rfl
    (fun _ => ⟨rfl, rfl⟩) (fun _ _ _ => Iff.rfl) (fun x hx => ?_) (fun c hc => ?_) ?_)
  · cases x with
    | userdata i =>
        simp only [refs, Function.update_of_ne fun hi => hx (congrArg GCObject.userdata hi)]
    | _ => rfl
  · simp only [refs, Function.update_self, List.mem_append, List.mem_singleton] at hc ⊢
    tauto
  · rintro c rfl
    exact henvlive

theorem sound_setfenv {f env : ℕ} (hg : Sound NoRef g) (h : step g (.setfenv f env) = some g') :
    Sound NoRef g' := by
  rw [step, when_eq_some] at h
  obtain ⟨⟨hf, henv⟩, rfl⟩ := h
  have hflive : live g (.function f) := hg.athand_live hf _ (List.mem_singleton.mpr rfl)
  have henvlive : live g (.table env) := hg.athand_live henv _ (List.mem_singleton.mpr rfl)
  refine sound_write_objbarrier hflive henvlive (sound_write (N := fun d => d = .table env) hg rfl
    (fun _ => ⟨rfl, rfl⟩) (fun _ _ _ => Iff.rfl) (fun x hx => ?_) (fun c hc => ?_) ?_)
  · cases x with
    | function i =>
        simp only [refs, Function.update_of_ne fun hi => hx (congrArg GCObject.function hi)]
    | _ => rfl
  · simp only [refs, Function.update_self] at hc ⊢
    cases hcl : g.closure f with
    | c env' upvalue =>
        rw [hcl] at hc
        exact (List.mem_cons.mp hc).symm.imp_left (List.mem_cons_of_mem _)
    | lua env' p upvals =>
        rw [hcl] at hc
        exact (List.mem_cons.mp hc).symm.imp_left (List.mem_cons_of_mem _)
  · rintro c rfl
    exact henvlive

theorem sound_setgt {th env : ℕ} (hg : Sound NoRef g) (h : step g (.setgt th env) = some g') :
    Sound NoRef g' := by
  rw [step, when_eq_some] at h
  obtain ⟨⟨hth, henv⟩, rfl⟩ := h
  have hthlive : live g (.thread th) := hg.athand_live hth _ (List.mem_singleton.mpr rfl)
  have henvlive : live g (.table env) := hg.athand_live henv _ (List.mem_singleton.mpr rfl)
  have hthread : ∀ i, ((Function.update g.thread th { g.thread th with gt := .table env }) i).openupval =
      (g.thread i).openupval ∧
      ((Function.update g.thread th { g.thread th with gt := .table env }) i).stack =
        (g.thread i).stack := by
    intro i
    by_cases hi : i = th
    · subst hi
      rw [Function.update_self]
      exact ⟨rfl, rfl⟩
    · rw [Function.update_of_ne hi]
      exact ⟨rfl, rfl⟩
  refine sound_write_objbarrier hthlive henvlive (sound_write (N := fun d => d = .table env) hg rfl
    hthread (fun _ _ _ => Iff.rfl) (fun x hx => ?_) (fun c hc => ?_) ?_)
  · cases x with
    | thread i =>
        simp only [refs, Function.update_of_ne fun hi => hx (congrArg GCObject.thread hi)]
    | upval u =>
        simp only [refs, uvalue]
        cases g.upval u with
        | closed v => rfl
        | opened i l => simp only [(hthread i).2]
    | _ => rfl
  · simp only [refs, Function.update_self, refs_table] at hc
    obtain hc | hc := List.mem_append.mp hc
    · exact Or.inr (List.mem_singleton.mp hc)
    · exact Or.inl (List.mem_append_right _ hc)
  · rintro c rfl
    exact henvlive

theorem sound_setcupvalue {f n : ℕ} {v : TValue} (hg : Sound NoRef g)
    (h : step g (.setcupvalue f n v) = some g') : Sound NoRef g' := by
  rw [step] at h
  split at h
  · next env upvalue hcl =>
      rw [when_eq_some] at h
      obtain ⟨⟨hf, hv⟩, rfl⟩ := h
      have hflive : live g (.function f) := hg.athand_live hf _ (List.mem_singleton.mpr rfl)
      refine sound_write_barrier hflive (hg.athand_live hv) (sound_write (N := (· ∈ v.refs)) hg rfl
        (fun _ => ⟨rfl, rfl⟩) (fun _ _ _ => Iff.rfl) (fun x hx => ?_) (fun c hc => ?_)
        (hg.athand_live hv))
      · cases x with
        | function i =>
            simp only [refs, Function.update_of_ne fun hi => hx (congrArg GCObject.function hi)]
        | _ => rfl
      · simp only [refs, Function.update_self, Closure.refs, hcl] at hc ⊢
        obtain rfl | hc := List.mem_cons.mp hc
        · exact Or.inl List.mem_cons_self
        · obtain ⟨w, hw, hcw⟩ := List.mem_flatMap.mp hc
          obtain hw | rfl := List.mem_or_eq_of_mem_set hw
          · exact Or.inl (List.mem_cons_of_mem _ (List.mem_flatMap.mpr ⟨w, hw, hcw⟩))
          · exact Or.inr hcw
  · cases h

theorem sound_addk {p : ℕ} {v : TValue} (hg : Sound NoRef g) (h : step g (.addk p v) = some g') :
    Sound NoRef g' := by
  rw [step, when_eq_some] at h
  obtain ⟨⟨hp, hv⟩, rfl⟩ := h
  have hplive : live g (.proto p) := hg.athand_live hp _ (List.mem_singleton.mpr rfl)
  refine sound_write_barrier hplive (hg.athand_live hv) (sound_write (N := (· ∈ v.refs)) hg rfl
    (fun _ => ⟨rfl, rfl⟩) (fun _ _ _ => Iff.rfl) (fun x hx => ?_) (fun c hc => ?_)
    (hg.athand_live hv))
  · cases x with
    | proto i =>
        simp only [refs, Function.update_of_ne fun hi => hx (congrArg GCObject.proto hi)]
    | _ => rfl
  · simp only [refs, Function.update_self] at hc ⊢
    obtain ⟨w, hw, hcw⟩ := List.mem_flatMap.mp hc
    obtain hw | hw := List.mem_append.mp hw
    · exact Or.inl (List.mem_flatMap.mpr ⟨w, hw, hcw⟩)
    · obtain rfl := List.mem_singleton.mp hw
      exact Or.inr hcw

/-! ### Upvalues -/

/-- A write to an upvalue, still without a barrier. -/
theorem sound_setuvalue {u : ℕ} {v : TValue} (hg : Sound NoRef g) (hv : ∀ c ∈ v.refs, live g c)
    (hu : live g (.upval u))
    (hchained : chained (setuvalue g u v) (g.running :: g.resumers) = true) :
    Sound (fun x c => x = .upval u ∧ c ∈ v.refs) (setuvalue g u v) ∧
      (setuvalue g u v).color = g.color ∧ (setuvalue g u v).currentwhite = g.currentwhite := by
  rw [setuvalue] at hchained ⊢
  split
  · next w hw =>
      refine sound_write hg rfl (fun _ => ⟨rfl, rfl⟩) (fun i th l => ?_) (fun x hx => ?_)
        (fun c hc => ?_) hv
      · by_cases hi : i = u
        · subst hi
          simp only [Function.update_self, hw]
          exact iff_of_false (fun h => by cases h) fun h => by cases h
        · simp only [Function.update_of_ne hi]
      · cases x with
        | upval i =>
            simp only [refs, uvalue, Function.update_of_ne fun hi => hx (congrArg GCObject.upval hi)]
        | _ => rfl
      · simp only [refs, uvalue, Function.update_self] at hc
        exact Or.inr hc
  · next th l hl =>
      simp only [hl] at hchained
      refine ⟨(sound_setstack hg hchained fun i w hw => ?_).mono fun x c hc _ => absurd hc id,
        rfl, rfl⟩
      rw [List.getElem?_set] at hw
      split at hw
      · split at hw
        · exact Or.inr (Option.some.inj hw ▸ hv)
        · cases hw
      · exact Or.inl hw

theorem sound_setupval {u : ℕ} {v : TValue} (hg : Sound NoRef g)
    (h : step g (.setupval u v) = some g') : Sound NoRef g' := by
  rw [step, when_eq_some] at h
  obtain ⟨⟨hu, hv, hchained⟩, rfl⟩ := h
  have hulive := hg.readable_live hu
  exact sound_write_barrier hulive (hg.athand_live hv)
    (sound_setuvalue hg (hg.athand_live hv) hulive hchained)

/-- The condition on `lua_setupvalue`, whose barrier is that of the function: a black upvalue gets
a white value only from a black function. -/
def Guarded (g : State) : Op → Prop
  | .setupvalue f n v => ∀ env p upvals u, g.closure f = .lua env p upvals → upvals[n]? = some u →
      g.gcstate = .propagate → isblack g (.upval u) = true → isblack g (.function f) = false →
        ∀ c ∈ v.refs, iswhite g c = false
  | _ => True

/-- Where nothing is marked, references need no barrier. -/
theorem Sound.of_not_propagate {E' : GCObject → GCObject → Prop} (hg : Sound E g)
    (hstate : g.gcstate ≠ .propagate) : Sound E' g := by
  refine ⟨hg.shape, hg.closed, hg.main, hg.registry, hg.mt, hg.tmudata, hg.udata, hg.thread,
    hg.upval, ?_⟩
  exact coloured_of_clean hg.coloured rfl (fun h => absurd h hstate) (fun _ h => h) rfl rfl rfl rfl
    fun _ _ hne c hc => Or.inl ⟨hne, hc⟩

/-- The barrier of another object: it is enough where it marks the value or need not. -/
theorem sound_barrier_other {p : GCObject} {v : TValue} (hp : live g p)
    (hv : ∀ c ∈ v.refs, live g c) (hg : Sound (fun x c => x = o ∧ c ∈ v.refs) g)
    (hguard : g.gcstate = .propagate → isblack g o = true → isblack g p = false →
      ∀ c ∈ v.refs, iswhite g c = false) : Sound NoRef (luaC_barrier g p v) := by
  by_cases hstate : g.gcstate = .propagate
  · by_cases hblack : isblack g p = true
    · -- the value is marked if it is white
      rw [luaC_barrier]
      cases hgc : v.gcvalue with
      | none =>
          refine hg.mono fun x c hc _ => ?_
          rw [TValue.refs, hgc] at hc
          exact absurd hc.2 List.not_mem_nil
      | some d =>
          have hd : ∀ c ∈ v.refs, c = d := eq_of_mem_refs hgc
          have hdlive := hv d (by rw [TValue.refs, hgc]; exact List.mem_singleton.mpr rfl)
          change Sound NoRef (luaC_objbarrier g p d)
          rw [luaC_objbarrier, hblack, Bool.and_true]
          split
          · next hw =>
              rw [luaC_barrierf, if_pos hstate]
              obtain ⟨hm, hdone⟩ :=
                reallymarkobject_marks (hg.whole (marking_of_sound hstate hg).nodead) hw
              exact (sound_of_marks hm hstate hg).mono fun x c hc _ => Or.inl (hd c hc.2 ▸ hdone)
          · next hw =>
              exact hg.mono fun x c hc _ => Or.inl (hd c hc.2 ▸
                hdlive.nonwhite_of_notwhite (Bool.eq_false_of_not_eq_true hw))
    · refine sound_barrier hp hv (hg.mono fun x c hc hb => Or.inl ?_)
      have hob : isblack g o = true := by rw [isblack, ← hc.1, hb]; rfl
      exact (hv c hc.2).nonwhite_of_notwhite
        (hguard hstate hob (Bool.eq_false_of_not_eq_true hblack) c hc.2)
  · exact sound_barrier hp hv (hg.of_not_propagate hstate)

theorem sound_setupvalue {f n : ℕ} {v : TValue} (hg : Sound NoRef g)
    (hguard : Guarded g (.setupvalue f n v)) (h : step g (.setupvalue f n v) = some g') :
    Sound NoRef g' := by
  rw [step] at h
  split at h
  · cases h
  · next env p upvals hcl =>
      obtain ⟨u, hn, h⟩ := Option.bind_eq_some_iff.mp h
      rw [when_eq_some] at h
      obtain ⟨⟨hf, hv, hchained⟩, rfl⟩ := h
      have hflive : live g (.function f) := hg.athand_live hf _ (List.mem_singleton.mpr rfl)
      have hulive : live g (.upval u) := by
        refine hg.closed _ hflive _ ?_
        rw [refs, hcl]
        exact List.mem_cons_of_mem _ (List.mem_cons_of_mem _
          (List.mem_map.mpr ⟨u, List.mem_of_getElem? hn, rfl⟩))
      obtain ⟨hsound, hcolor, hwhite⟩ :=
        sound_setuvalue hg (hg.athand_live hv) hulive hchained
      have hstate : (setuvalue g u v).gcstate = g.gcstate := by
        rw [setuvalue]
        split <;> rfl
      refine sound_barrier_other ((live_congr hcolor hwhite).mpr hflive)
        (fun c hc => (live_congr hcolor hwhite).mpr (hg.athand_live hv c hc)) hsound ?_
      rw [hstate]
      simp only [isblack, iswhite, hcolor]
      exact hguard env p upvals u hcl hn

/-! ### All of them -/

/-- What is left to the collector. -/
def Op.collects : Op → Bool
  | .singlestep | .fullgc | .restart => true
  | _ => false

/-- **The steps of the program keep the invariant.** -/
theorem sound_program {op : Op} (hg : Sound NoRef g) (hguard : Guarded g op)
    (hop : op.collects = false) (h : step g op = some g') : Sound NoRef g' := by
  cases op with
  | push v =>
      rw [step, when_eq_some] at h
      obtain ⟨hv, rfl⟩ := h
      exact hg.push (hg.athand_live hv)
  | settop n => exact sound_settop hg h
  | replace i v => exact sound_replace hg h
  | newtable new => exact sound_newtable hg h
  | newuserdata new env => exact sound_newuserdata hg h
  | newcclosure new env n => exact sound_newcclosure hg h
  | newlclosure new env p upvals => exact sound_newlclosure hg h
  | newthread new => exact sound_newthread hg h
  | newproto new => exact sound_newproto hg h
  | newstring str new => exact sound_newstring hg h
  | fix i => exact sound_fix hg h
  | settable t key v isnew array node => exact sound_settable hg h
  | setmetatable t mt => exact sound_setmetatable hg h
  | setumetatable u mt => exact sound_setumetatable hg h
  | settypemetatable type mt => exact sound_settypemetatable hg h
  | setfenv f env => exact sound_setfenv hg h
  | setuenv u env => exact sound_setuenv hg h
  | setgt th env => exact sound_setgt hg h
  | setupval u v => exact sound_setupval hg h
  | setcupvalue f n v => exact sound_setcupvalue hg h
  | setupvalue f n v => exact sound_setupvalue hg hguard h
  | addk p v => exact sound_addk hg h
  | close level =>
      rw [step_close, Option.some.injEq] at h
      exact h ▸ sound_close hg hg.running_live.1 level
  | resume th => exact sound_resume hg h
  | yield => exact sound_yield hg h
  | xmove th v => exact sound_xmove hg h
  | singlestep => cases hop
  | fullgc => cases hop
  | restart => cases hop

end UnityLua.Collector
