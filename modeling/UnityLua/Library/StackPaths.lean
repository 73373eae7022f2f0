import UnityLua.Library.StackCode

/-!
# Paths through stack code

The paths that a run may take through stack code, by position, whatever the tests give: which
positions they come to, and with how many values on the stack. The single pass of `check` sees
all of them when every label stands behind the branches to it.

## Main results

* `ReachesCode.straight`: a path through straight code.
* `verifiable_of_check`: code that passes the check is verifiable.
-/

namespace Library

variable {ι : Type}

/-- How many values an operation takes. -/
def Op.needs (effect : ι → ℕ × ℕ) : Op ι → ℕ
  | .plain i => (effect i).1
  | .brtrue _ => 1
  | _ => 0

/-- A path comes to a position of the code with so many values on the stack. -/
inductive Reaches (effect : ι → ℕ × ℕ) (code : List (Op ι)) : ℕ → ℕ → Prop
  | start : Reaches effect code 0 0
  | plain {p d : ℕ} {i : ι} (h : Reaches effect code p d) (hop : code[p]? = some (.plain i))
      (hd : (effect i).1 ≤ d) : Reaches effect code (p + 1) (d - (effect i).1 + (effect i).2)
  | mark {p d l : ℕ} (h : Reaches effect code p d) (hop : code[p]? = some (.mark l)) :
      Reaches effect code (p + 1) d
  | fall {p d l : ℕ} (h : Reaches effect code p d) (hop : code[p]? = some (.brtrue l))
      (hd : 1 ≤ d) : Reaches effect code (p + 1) (d - 1)
  | jump {p q d l : ℕ} (h : Reaches effect code p d) (hop : code[p]? = some (.brtrue l))
      (hd : 1 ≤ d) (hq : code[q]? = some (.mark l)) : Reaches effect code q (d - 1)
  | br {p q d l : ℕ} (h : Reaches effect code p d) (hop : code[p]? = some (.br l))
      (hq : code[q]? = some (.mark l)) : Reaches effect code q d

/-- What holds along every path: no operation takes more values than there are, the depth at a
label does not depend on where a path comes from, `ret` finds `out` values, a branch has a label
to go to, and no path runs out of the code. -/
structure Verifiable (effect : ι → ℕ × ℕ) (out : ℕ) (code : List (Op ι)) : Prop where
  enough : ∀ {p d op}, Reaches effect code p d → code[p]? = some op → op.needs effect ≤ d
  agrees : ∀ {p l d d'}, code[p]? = some (.mark l) → Reaches effect code p d →
    Reaches effect code p d' → d = d'
  returns : ∀ {p d}, Reaches effect code p d → code[p]? = some .ret → d = out
  labelled : ∀ {p d l}, Reaches effect code p d →
    code[p]? = some (.brtrue l) ∨ code[p]? = some (.br l) → ∃ q : ℕ, code[q]? = some (.mark l)
  inside : ∀ {p d}, Reaches effect code p d → p < code.length

/-! ### Paths by the code that is left -/

section Rest

variable {effect : ι → ℕ × ℕ} {code c : List (Op ι)} {is : List ι} {d d' out : ℕ}

/-- A path comes to where the code `c` is left. -/
def ReachesCode (effect : ι → ℕ × ℕ) (code c : List (Op ι)) (d : ℕ) : Prop :=
  ∃ p, code.drop p = c ∧ Reaches effect code p d

theorem reachesCode_start : ReachesCode effect code code 0 := ⟨0, rfl, .start⟩

theorem getElem?_of_drop {op : Op ι} {p : ℕ} (h : code.drop p = op :: c) :
    code[p]? = some op ∧ code.drop (p + 1) = c := by
  refine ⟨?_, ?_⟩
  · rw [← Nat.add_zero p, ← List.getElem?_drop, h]
    rfl
  · rw [← List.drop_drop, h]
    rfl

theorem ReachesCode.plain {i : ι} (h : ReachesCode effect code (.plain i :: c) d)
    (hd : (effect i).1 ≤ d) : ReachesCode effect code c (d - (effect i).1 + (effect i).2) := by
  obtain ⟨p, hp, hreach⟩ := h
  obtain ⟨hop, hc⟩ := getElem?_of_drop hp
  exact ⟨p + 1, hc, hreach.plain hop hd⟩

theorem ReachesCode.fall {l : ℕ} (h : ReachesCode effect code (.brtrue l :: c) d) (hd : 1 ≤ d) :
    ReachesCode effect code c (d - 1) := by
  obtain ⟨p, hp, hreach⟩ := h
  obtain ⟨hop, hc⟩ := getElem?_of_drop hp
  exact ⟨p + 1, hc, hreach.fall hop hd⟩

/-- A path goes through straight code. -/
theorem ReachesCode.straight (h : ReachesCode effect code (is.map .plain ++ c) d)
    (hd : depthAfter effect is d = some d') : ReachesCode effect code c d' := by
  induction is generalizing d with
  | nil =>
      obtain rfl := Option.some.inj hd
      exact h
  | cons i is ih =>
      rw [depthAfter] at hd
      split at hd
      · rename_i hi
        exact ih (h.plain hi) hd
      · cases hd

theorem Verifiable.needs_le {op : Op ι} (hv : Verifiable effect out code)
    (h : ReachesCode effect code (op :: c) d) : op.needs effect ≤ d := by
  obtain ⟨p, hp, hreach⟩ := h
  exact hv.enough hreach (getElem?_of_drop hp).1

end Rest

/-! ### The pass over the code -/

section Pass

variable (effect : ι → ℕ × ℕ) (out : ℕ)

/-- The depth and the depths at labels, behind an operation. -/
def passOp : Op ι → Option ℕ × (ℕ → Option ℕ) → Option ℕ × (ℕ → Option ℕ)
  | .mark _, (some d, labels) => (some d, labels)
  | .mark l, (none, labels) => (labels l, labels)
  | .plain i, (some d, labels) => (some (d - (effect i).1 + (effect i).2), labels)
  | .brtrue l, (some d, labels) => (some (d - 1), Function.update labels l (some (d - 1)))
  | .br l, (some d, labels) => (none, Function.update labels l (some d))
  | .ret, (_, labels) => (none, labels)
  | _, (none, labels) => (none, labels)

/-- What the check asks of an operation. -/
def passes : Op ι → Option ℕ × (ℕ → Option ℕ) → Prop
  | .mark l, (some d, labels) => joins labels l d = true
  | .plain i, (some d, _) => (effect i).1 ≤ d
  | .brtrue l, (some d, labels) => 1 ≤ d ∧ joins labels l (d - 1) = true
  | .br l, (some d, labels) => joins labels l d = true
  | .ret, (some d, _) => d = out
  | _, (none, _) => True

/-- The depth and the depths at labels, at a position. -/
def passAt (code : List (Op ι)) (s : Option ℕ × (ℕ → Option ℕ)) (p : ℕ) :
    Option ℕ × (ℕ → Option ℕ) :=
  (code.take p).foldl (fun s op => passOp effect op s) s

/-- No label stands in front of a branch to it; `seen` are the labels so far. -/
def forward : List (Op ι) → List ℕ → Prop
  | [], _ => True
  | .mark l :: c, seen => forward c (l :: seen)
  | .brtrue l :: c, seen => l ∉ seen ∧ forward c seen
  | .br l :: c, seen => l ∉ seen ∧ forward c seen
  | .plain _ :: c, seen => forward c seen
  | .ret :: c, seen => forward c seen

variable {effect out} {code : List (Op ι)} {s : Option ℕ × (ℕ → Option ℕ)} {seen : List ℕ}
  {p q l : ℕ} {op : Op ι}

theorem passAt_succ (hop : code[p]? = some op) :
    passAt effect code s (p + 1) = passOp effect op (passAt effect code s p) := by
  rw [passAt, passAt, List.take_add_one, hop, Option.toList_some, List.foldl_append]
  rfl

theorem forward_straight {is : List ι} {c : List (Op ι)} :
    forward (is.map .plain ++ c) seen ↔ forward c seen := by
  induction is with
  | nil => rfl
  | cons i is ih => exact ih

theorem check_cons {c : List (Op ι)} : check effect out (op :: c) s.1 s.2 = true ↔
    passes effect out op s ∧
      check effect out c (passOp effect op s).1 (passOp effect op s).2 = true := by
  obtain ⟨d, labels⟩ := s
  cases d with
  | none => cases op <;> simp [check, passes, passOp]
  | some d => cases op <;> simp [check, passes, passOp, and_assoc]

/-- The check, as what it asks of each operation. -/
theorem passes_of_check (h : check effect out code s.1 s.2 = true) (hop : code[p]? = some op) :
    passes effect out op (passAt effect code s p) := by
  induction code generalizing s p with
  | nil => cases hop
  | cons op' c ih =>
      obtain ⟨hfirst, hrest⟩ := check_cons.mp h
      cases p with
      | zero =>
          obtain rfl := Option.some.inj hop
          exact hfirst
      | succ p => exact ih hrest hop

/-- Behind the code no path is left. -/
theorem passAt_length (h : check effect out code s.1 s.2 = true) :
    (passAt effect code s code.length).1 = none := by
  induction code generalizing s with
  | nil => exact Option.isNone_iff_eq_none.mp h
  | cons op c ih => exact ih (check_cons.mp h).2

/-- Behind an operation the labels seen are still seen. -/
theorem exists_forward_tail {c : List (Op ι)} (h : forward (op :: c) seen) :
    ∃ seen', forward c seen' ∧ seen ⊆ seen' ∧ ∀ l, op = .mark l → l ∈ seen' := by
  cases op with
  | mark l =>
      refine ⟨l :: seen, h, List.subset_cons_self _ _, ?_⟩
      intro l' hl
      obtain rfl := Op.mark.inj hl
      exact List.mem_cons_self
  | brtrue l => exact ⟨seen, h.2, List.Subset.refl _, fun l' hl => by cases hl⟩
  | br l => exact ⟨seen, h.2, List.Subset.refl _, fun l' hl => by cases hl⟩
  | plain i => exact ⟨seen, h, List.Subset.refl _, fun l' hl => by cases hl⟩
  | ret => exact ⟨seen, h, List.Subset.refl _, fun l' hl => by cases hl⟩

theorem not_mem_seen (h : forward code seen)
    (hp : code[p]? = some (.brtrue l) ∨ code[p]? = some (.br l)) : l ∉ seen := by
  induction code generalizing seen p with
  | nil => rcases hp with hp | hp <;> cases hp
  | cons op c ih =>
      cases p with
      | zero => rcases hp with hp | hp <;> (obtain rfl := Option.some.inj hp; exact h.1)
      | succ p =>
          obtain ⟨seen', hc, hsub, -⟩ := exists_forward_tail h
          exact fun hl => ih hc hp (hsub hl)

/-- A branch stands in front of its label. -/
theorem lt_of_forward (h : forward code seen)
    (hp : code[p]? = some (.brtrue l) ∨ code[p]? = some (.br l))
    (hq : code[q]? = some (.mark l)) : p < q := by
  induction code generalizing seen p q with
  | nil => cases hq
  | cons op c ih =>
      obtain ⟨seen', hc, -, hmark⟩ := exists_forward_tail h
      cases q with
      | zero =>
          obtain rfl := Option.some.inj hq
          cases p with
          | zero => rcases hp with hp | hp <;> cases Option.some.inj hp
          | succ p => exact absurd (hmark l rfl) (not_mem_seen hc hp)
      | succ q =>
          cases p with
          | zero => exact Nat.succ_pos q
          | succ p => exact Nat.succ_lt_succ (ih hc hp hq)

/-- The depth at a label stays known. -/
theorem label_passOp {d : ℕ} (h : passes effect out op s) (hl : s.2 l = some d) :
    (passOp effect op s).2 l = some d := by
  obtain ⟨e, labels⟩ := s
  cases e with
  | none => cases op <;> exact hl
  | some e =>
      cases op with
      | brtrue l' => exact update_of_joins h.2 hl
      | br l' => exact update_of_joins h hl
      | _ => exact hl

theorem label_passAt {d : ℕ} (h : check effect out code s.1 s.2 = true) (hpq : p ≤ q)
    (hq : q ≤ code.length) (hl : (passAt effect code s p).2 l = some d) :
    (passAt effect code s q).2 l = some d := by
  induction q with
  | zero =>
      obtain rfl := Nat.le_zero.mp hpq
      exact hl
  | succ q ih =>
      rcases Nat.lt_or_ge q p with hlt | hle
      · obtain rfl : p = q + 1 := by omega
        exact hl
      · have hop : code[q]? = some code[q] := List.getElem?_eq_getElem (by omega)
        rw [passAt_succ hop]
        exact label_passOp (passes_of_check h hop) (ih hle (by omega))

end Pass

/-! ### Soundness of the pass -/

section Sound

variable {effect : ι → ℕ × ℕ} {out : ℕ} {code : List (Op ι)} {p d l : ℕ} {op : Op ι}

/-- The pass knows of a path that comes to a position: as the depth there, or as the depth of
the label there. -/
def Seen (effect : ι → ℕ × ℕ) (code : List (Op ι)) (p d : ℕ) : Prop :=
  (passAt effect code (some 0, fun _ => none) p).1 = some d ∨
    ∃ l, code[p]? = some (.mark l) ∧ (passAt effect code (some 0, fun _ => none) p).2 l = some d

/-- Anywhere but at a label the pass has the depth of the path. -/
theorem Seen.depth (h : Seen effect code p d) (hop : code[p]? = some op)
    (hmark : ∀ l, op ≠ .mark l) :
    ∃ labels, passAt effect code (some 0, fun _ => none) p = (some d, labels) := by
  rcases h with hd | ⟨l, hl, -⟩
  · exact ⟨_, Prod.ext hd rfl⟩
  · exact absurd (Option.some.inj (hop.symm.trans hl)) (hmark l)

/-- At a label the pass goes on with the depth of the path. -/
theorem Seen.mark (hcheck : check effect out code (some 0) (fun _ => none) = true)
    (h : Seen effect code p d) (hop : code[p]? = some (.mark l)) :
    (passAt effect code (some 0, fun _ => none) (p + 1)).1 = some d := by
  have hpass := passes_of_check (s := (some 0, fun _ => none)) hcheck hop
  rw [passAt_succ hop]
  obtain ⟨e, labels, hs⟩ : ∃ e labels,
      passAt effect code (some 0, fun _ => none) p = (e, labels) := ⟨_, _, rfl⟩
  rw [hs] at hpass ⊢
  rcases h with hd | ⟨l', hl', hlabel⟩
  · obtain rfl : e = some d := by rw [hs] at hd; exact hd
    rfl
  · obtain rfl := Op.mark.inj (Option.some.inj (hop.symm.trans hl'))
    rw [hs] at hlabel
    cases e with
    | none => exact hlabel
    | some e => exact congrArg some (eq_of_joins hpass hlabel)

/-- What a branch has noted at its label is found there. -/
theorem seen_target {q : ℕ} (hcheck : check effect out code (some 0) (fun _ => none) = true)
    (hforward : forward code [])
    (hop : code[p]? = some (.brtrue l) ∨ code[p]? = some (.br l))
    (hq : code[q]? = some (.mark l))
    (hnoted : (passAt effect code (some 0, fun _ => none) (p + 1)).2 l = some d) :
    Seen effect code q d := by
  have hlt : p < q := lt_of_forward hforward hop hq
  have hlen : q < code.length := (List.getElem?_eq_some_iff.mp hq).1
  exact .inr ⟨l, hq, label_passAt (s := (some 0, fun _ => none)) hcheck hlt (Nat.le_of_lt hlen) hnoted⟩

/-- The pass sees every path. -/
theorem reaches_seen (hcheck : check effect out code (some 0) (fun _ => none) = true)
    (hforward : forward code []) (h : Reaches effect code p d) : Seen effect code p d := by
  induction h with
  | start => exact .inl rfl
  | plain h hop hd ih =>
      obtain ⟨labels, hs⟩ := ih.depth hop (by intro l hl; cases hl)
      exact .inl (by rw [passAt_succ hop, hs]; rfl)
  | mark h hop ih => exact .inl (ih.mark hcheck hop)
  | fall h hop hd ih =>
      obtain ⟨labels, hs⟩ := ih.depth hop (by intro l hl; cases hl)
      exact .inl (by rw [passAt_succ hop, hs]; rfl)
  | jump h hop hd hq ih =>
      obtain ⟨labels, hs⟩ := ih.depth hop (by intro l hl; cases hl)
      refine seen_target hcheck hforward (.inl hop) hq ?_
      rw [passAt_succ hop, hs]
      exact Function.update_self ..
  | br h hop hq ih =>
      obtain ⟨labels, hs⟩ := ih.depth hop (by intro l hl; cases hl)
      refine seen_target hcheck hforward (.inr hop) hq ?_
      rw [passAt_succ hop, hs]
      exact Function.update_self ..

theorem exists_mark_of_closed (h : closed code)
    (hop : code[p]? = some (.brtrue l) ∨ code[p]? = some (.br l)) : .mark l ∈ code := by
  induction code generalizing p with
  | nil => rcases hop with hop | hop <;> cases hop
  | cons op c ih =>
      cases p with
      | zero =>
          rcases hop with hop | hop <;>
            (obtain rfl := Option.some.inj hop; exact List.mem_cons_of_mem _ h.1)
      | succ p => exact List.mem_cons_of_mem _ (ih (closed_of_cons h) hop)

/-- **Code that passes the check is verifiable.** -/
theorem verifiable_of_check (hcheck : check effect out code (some 0) (fun _ => none) = true)
    (hforward : forward code []) (hclosed : closed code) : Verifiable effect out code where
  enough {p d op} h hop := by
    have hseen := reaches_seen hcheck hforward h
    have hpass := passes_of_check (s := (some 0, fun _ => none)) hcheck hop
    cases op with
    | plain i =>
        obtain ⟨labels, hs⟩ := hseen.depth hop (by intro l hl; cases hl)
        rw [hs] at hpass
        exact hpass
    | brtrue l =>
        obtain ⟨labels, hs⟩ := hseen.depth hop (by intro l hl; cases hl)
        rw [hs] at hpass
        exact hpass.1
    | _ => exact Nat.zero_le d
  agrees {p l d d'} hop h h' := by
    have hd := (reaches_seen hcheck hforward h).mark hcheck hop
    have hd' := (reaches_seen hcheck hforward h').mark hcheck hop
    exact Option.some.inj (hd.symm.trans hd')
  returns {p d} h hop := by
    obtain ⟨labels, hs⟩ :=
      (reaches_seen hcheck hforward h).depth hop (by intro l hl; cases hl)
    have hpass := passes_of_check (s := (some 0, fun _ => none)) hcheck hop
    rw [hs] at hpass
    exact hpass
  labelled {p d l} _ hop := List.mem_iff_getElem?.mp (exists_mark_of_closed hclosed hop)
  inside {p d} h := by
    have hle : p ≤ code.length := by
      cases h with
      | start => exact Nat.zero_le _
      | plain _ hop | mark _ hop | fall _ hop => exact (List.getElem?_eq_some_iff.mp hop).1
      | jump _ _ _ hq | br _ _ hq => exact Nat.le_of_lt (List.getElem?_eq_some_iff.mp hq).1
    rcases Nat.lt_or_eq_of_le hle with hlt | rfl
    · exact hlt
    · rcases reaches_seen hcheck hforward h with hd | ⟨l, hl, -⟩
      · rw [passAt_length (s := (some 0, fun _ => none)) hcheck] at hd
        cases hd
      · exact absurd (List.getElem?_eq_some_iff.mp hl).1 (Nat.lt_irrefl _)

end Sound

end Library
