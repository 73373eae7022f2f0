import UnityLua.CollectorSingleSteps
import UnityLua.Library.Run

/-!
# What can be reached is never freed

The program and the collector take their steps in any order, from the state that `lua_newstate`
makes. Whatever the program can reach is there, and it is not one of the objects that the sweep
has yet to free. The one step that has a condition is `lua_setupvalue`: its barrier looks at the
closure, and where another closure with the same upvalue is black already, the new value is lost.

## Main results

* `live_of_reachable_run`: in every run, what can be reached is live.
* `gcstate_of_black_run`: what `luaC_barrierf` and `luaC_barrierback` assert.
* `lua_setupvalue_frees`: the condition is needed.
-/

namespace UnityLua.Collector

open Library

variable {g g' : State} {o : GCObject}

/-! ### The first state -/

/-- The main thread, its globals and the registry. -/
def firstobjects : List GCObject := [.table 1, .table 0, .thread 0]

/-- The state of `lua_newstate` before `luaT_init`. -/
def newstate : State where
  color := fun o => if o ∈ firstobjects then some (.white false) else none
  fixed := fun o => o = .thread 0
  content := fun _ => []
  udata := fun _ => ⟨none, 0, false⟩
  upval := fun _ => .closed .nil
  closure := fun _ => .c 0 []
  table := fun _ => ⟨none, [], []⟩
  weakbits := fun _ => (false, false)
  thread := fun _ => ⟨.table 0, [], []⟩
  proto := fun _ => []
  strt := List.replicate MINSTRTABSIZE []
  currentwhite := false
  gcstate := .pause
  sweepstrgc := 0
  swept := []
  unswept := firstobjects
  gray := []
  grayagain := []
  weak := []
  tmudata := []
  uvhead := []
  mainthread := 0
  registry := .table 1
  mt := List.replicate 9 none
  tmgc := 2
  tmmode := 3
  running := 0
  resumers := []

/-- `luaS_new` and `luaS_fix`. -/
def luaS_fixnew (g : State) (str : ByteString) (new : ℕ) : State :=
  match luaS_newlstr g str new with
  | some r => { r.1 with fixed := Function.update r.1.fixed (.string r.2) true }
  | none => g

/-- `luaT_eventname`. -/
def luaT_eventname : List String :=
  ["__index", "__newindex", "__gc", "__mode", "__eq", "__add", "__sub", "__mul", "__div", "__mod",
    "__pow", "__unm", "__len", "__lt", "__le", "__concat", "__call"]

/-- The reserved words of `luaX_tokens`. -/
def reserved : List String :=
  ["and", "break", "do", "else", "elseif", "end", "false", "for", "function", "if", "in", "local",
    "nil", "not", "or", "repeat", "return", "then", "true", "until", "while"]

def MEMERRMSG : String := "not enough memory"

/-- `lua_newstate`. -/
def lua_newstate : State :=
  (luaT_eventname ++ reserved ++ [MEMERRMSG]).zipIdx.foldl
    (fun g name => luaS_fixnew g (bytes name.1) name.2) newstate

theorem refs_newstate {c : GCObject} (hc : c ∈ refs newstate o) : c = .table 0 := by
  cases o with
  | userdata i => exact List.mem_singleton.mp hc
  | function i => exact List.mem_singleton.mp hc
  | thread i => exact List.mem_singleton.mp hc
  | _ => cases hc

theorem sound_newstate : Sound NoRef newstate := by
  have hcolor : ∀ o ∈ firstobjects, newstate.color o = some (.white false) := fun o ho => if_pos ho
  have hlive : ∀ o ∈ firstobjects, live newstate o := by
    intro o ho
    rw [live, hcolor o ho]
    exact ⟨by simp, by simp [newstate]⟩
  have hthere : ∀ o, newstate.color o ≠ none → o ∈ firstobjects := fun o ho =>
    Classical.byContradiction fun hnot => ho (if_neg hnot)
  have hwhite : ∀ {o : GCObject} {c : Colour}, newstate.color o = some c → c = .white false := by
    intro o c ho
    rw [hcolor o (hthere o (by rw [ho]; simp))] at ho
    exact (Option.some.inj ho).symm
  have hstrt : newstate.strt.flatten = [] := by decide
  have hopenupval : ∀ i, (newstate.thread i).openupval = [] := fun _ => rfl
  constructor
  case shape =>
    constructor
    case placed =>
      intro o ho
      have hin := hthere o ho
      simp only [firstobjects, List.mem_cons, List.not_mem_nil, or_false] at hin
      rcases hin with rfl | rfl | rfl <;> simp [Placed, rootgc, newstate, firstobjects]
    case root =>
      intro o ho
      have hin : o ∈ firstobjects := ho
      refine ⟨(hlive o hin).1, ?_⟩
      simp only [firstobjects, List.mem_cons, List.not_mem_nil, or_false] at hin
      rcases hin with rfl | rfl | rfl <;> trivial
    case rootnodup => simp [rootgc, newstate, firstobjects]
    case tmudata => exact List.nodup_nil
    case fixed => exact fun o ho => Or.inr (of_decide_eq_true ho)
    case strt => exact Nat.succ_pos 31
    case strings =>
      rw [hstrt]
      exact ⟨List.nodup_nil, fun i hi => absurd hi List.not_mem_nil⟩
    case main => simp [rootgc, newstate, firstobjects]
    case openupval =>
      intro th u _ hu
      rw [hopenupval] at hu
      cases hu
    case nodup => exact fun _ _ => List.nodup_nil
    case opened => exact fun u th l _ hl => by cases hl
    case chained => rfl
    case last => rfl
    case distinct => exact List.nodup_singleton 0
  case closed =>
    intro o _ c hc
    rw [refs_newstate hc]
    exact hlive _ (by simp [firstobjects])
  case main => exact hlive _ (by simp [firstobjects, newstate])
  case registry =>
    intro c hc
    obtain rfl := List.mem_singleton.mp hc
    exact hlive _ (by simp [firstobjects])
  case mt => exact fun c hc => absurd hc (by simp [newstate])
  case tmudata => exact fun u hu => absurd hu List.not_mem_nil
  case udata => exact fun u hu => by cases hwhite hu
  case thread => exact fun i hi => by cases hwhite hi
  case upval => exact fun u _ hu => by cases hwhite hu
  case coloured =>
    intro o
    refine Or.inl ?_
    by_cases ho : o ∈ firstobjects
    · exact Or.inr (hcolor o ho)
    · exact Or.inl (if_neg ho)

theorem sound_luaS_fixnew (hg : Sound NoRef g) (str : ByteString) (new : ℕ) :
    Sound NoRef (luaS_fixnew g str new) := by
  rw [luaS_fixnew]
  split
  · next r hr =>
      obtain ⟨hsound, -⟩ := sound_newlstr hg hr
      refine sound_of_strt _ hsound (fun o ho => ?_) (fun _ => rfl) hsound.shape.strt
        (List.Perm.refl _)
      by_cases hi : o = .string r.2
      · exact Or.inl ⟨r.2, hi⟩
      · rw [Function.update_of_ne hi] at ho
        exact hsound.shape.fixed o ho
  · exact hg

/-- The invariant holds in the first state. -/
theorem sound_lua_newstate : Sound NoRef lua_newstate := by
  rw [lua_newstate]
  generalize (luaT_eventname ++ reserved ++ [MEMERRMSG]).zipIdx = names
  suffices h : ∀ g, Sound NoRef g → Sound NoRef (names.foldl
      (fun g name => luaS_fixnew g (bytes name.1) name.2) g) from h newstate sound_newstate
  induction names with
  | nil => exact fun g hg => hg
  | cons name names ih => exact fun g hg => ih _ (sound_luaS_fixnew hg _ _)

/-! ### Every run -/

/-- **Every step keeps the invariant.** -/
theorem sound_step {op : Op} (hg : Sound NoRef g) (hguard : Guarded g op)
    (h : step g op = some g') : Sound NoRef g' := by
  cases op with
  | singlestep =>
      rw [step_singlestep, Option.some.injEq] at h
      exact h ▸ sound_singlestep hg
  | fullgc =>
      rw [step, when_eq_some] at h
      exact h.2 ▸ sound_resetmarks hg
  | restart =>
      rw [step, when_eq_some] at h
      exact h.2 ▸ sound_markroot (Or.inl h.1) hg
  | _ => exact sound_program hg hguard rfl h

theorem sound_run {ops : List Op} (hok : AllSteps step Guarded g ops)
    (hrun : run step g ops = some g') (hg : Sound NoRef g) : Sound NoRef g' :=
  run_invariant_of Guarded (fun _ _ _ hg hguard h => sound_step hg hguard h) hok hrun hg

/-- **What can be reached is neither freed nor dead**, whatever the program and the collector have
done. -/
theorem live_of_reachable_run {ops : List Op} (hok : AllSteps step Guarded lua_newstate ops)
    (hrun : run step lua_newstate ops = some g) (ho : Reachable g o) :
    g.color o ≠ none ∧ isdead g o = false := by
  obtain ⟨hne, hdead⟩ := (sound_run hok hrun sound_lua_newstate).live_of_reachable ho
  exact ⟨hne, decide_eq_false hdead⟩

/-- Two closures have an upvalue in common, and one of them is black when the program goes on. -/
def closures : List Op :=
  [.newproto 0, .push .plain, .newlclosure 0 0 0 [.level 1 0], .newlclosure 1 0 0 [.inherit 0],
    .close 1] ++ List.replicate 5 .singlestep

theorem guarded_closures (g : State) (n : ℕ) :
    AllSteps step Guarded g (closures ++ List.replicate n .singlestep) := by
  refine allSteps_of_forall (fun op hop s => ?_) g
  rcases List.mem_append.mp hop with hop | hop
  · simp only [closures, List.mem_append, List.mem_cons, List.not_mem_nil, or_false] at hop
    rcases hop with (rfl | rfl | rfl | rfl | rfl) | hop
    all_goals try trivial
    rw [List.eq_of_mem_replicate hop]
    trivial
  · rw [List.eq_of_mem_replicate hop]
    trivial

theorem exists_of_elim {x : Option State} {p : State → Bool} (h : x.elim false p = true) :
    ∃ g, x = some g ∧ p g = true := by
  cases x with
  | none => cases h
  | some g => exact ⟨g, rfl, h⟩

/-- The program and a write of a new table through the other closure, then a collection. -/
def setupvalue : List Op :=
  closures ++ .newtable 2 :: .setupvalue 0 0 (.table 2) :: .settop 4 :: List.replicate 70 .singlestep

/-- The upvalue is black while objects are marked. A collection leaves it and a name of a
metamethod, and frees the new table, which can be reached. -/
theorem run_closures :
    (run step lua_newstate (closures ++ List.replicate 0 .singlestep)).elim false
        (fun g => isblack g (.upval 0)) = true ∧
      (run step lua_newstate (closures ++ List.replicate 70 .singlestep)).elim false
        (fun g => (readable g).contains (.upval 0) && (g.color (.string 2)).isSome) = true ∧
      (run step lua_newstate setupvalue).elim false
        (fun g => (readable g).contains (.table 2) && (g.color (.table 2)).isNone) = true := by
  decide +kernel

theorem run_closures_collected :
    ∃ g, run step lua_newstate (closures ++ List.replicate 70 .singlestep) = some g ∧
      GCObject.upval 0 ∈ readable g ∧ g.color (.string 2) ≠ none := by
  obtain ⟨g, hrun, h⟩ := exists_of_elim run_closures.2.1
  rw [Bool.and_eq_true] at h
  exact ⟨g, hrun, List.contains_iff_mem.mp h.1, Option.isSome_iff_ne_none.mp h.2⟩

/-- The upvalue after a whole collection. -/
theorem live_of_reachable_run_closures :
    ∃ g, run step lua_newstate (closures ++ List.replicate 70 .singlestep) = some g ∧
      Reachable g (.upval 0) ∧ g.color (.upval 0) ≠ none ∧ isdead g (.upval 0) = false := by
  obtain ⟨g, hrun, hread, -⟩ := run_closures_collected
  have hreach := reachable_of_readable hread
  exact ⟨g, hrun, hreach, live_of_reachable_run (guarded_closures _ 70) hrun hreach⟩

/-- The other closure gets a new table as the value of the upvalue, and the table is nowhere else:
it is freed, and the upvalue still has it. -/
theorem lua_setupvalue_frees :
    ∃ ops g, run step lua_newstate ops = some g ∧ Reachable g (.table 2) ∧
      g.color (.table 2) = none := by
  obtain ⟨g, hrun, h⟩ := exists_of_elim run_closures.2.2
  rw [Bool.and_eq_true] at h
  exact ⟨_, g, hrun, reachable_of_readable (List.contains_iff_mem.mp h.1),
    Option.isNone_iff_eq_none.mp h.2⟩

/-- **The assertion of the barriers**: outside of a collection nothing is black but userdata that
wait for their finalizers. -/
theorem gcstate_of_black_run {ops : List Op} (hok : AllSteps step Guarded lua_newstate ops)
    (hrun : run step lua_newstate ops = some g) (ho : isblack g o = true)
    (hkind : ∀ u, o ≠ .userdata u) : g.gcstate ≠ .finalize ∧ g.gcstate ≠ .pause := by
  have hg := sound_run hok hrun sound_lua_newstate
  rw [isblack, decide_eq_true_eq] at ho
  rw [← not_or]
  intro hstate
  rcases clean_of_done hstate hg o with (hnone | hwhite) | ⟨u, -, rfl⟩
  · exact absurd (ho.symm.trans hnone) (by simp)
  · exact absurd (ho.symm.trans hwhite) (by simp)
  · exact hkind u rfl

/-- The upvalue while objects are marked. -/
theorem gcstate_of_black_run_closures :
    ∃ g, run step lua_newstate (closures ++ List.replicate 0 .singlestep) = some g ∧
      isblack g (.upval 0) = true ∧ g.gcstate ≠ .finalize ∧ g.gcstate ≠ .pause := by
  obtain ⟨g, hrun, hblack⟩ := exists_of_elim run_closures.1
  exact ⟨g, hrun, hblack, gcstate_of_black_run (guarded_closures _ 0) hrun hblack (by simp)⟩

end UnityLua.Collector
