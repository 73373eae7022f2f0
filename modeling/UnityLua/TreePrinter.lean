import UnityLua.Library.ByteStrings
import UnityLua.Library.Traversal

/-!
# The tree printer

`tree.lua` prints a table with everything below it. `Show` remembers for each table the path at
which it was expanded; a table that comes up again is printed as a reference to this path. The
path of the table that is being expanded is kept in the data of the run and put back after each
branch.

The tables are not changed while they are printed, so that `pairs` goes through a table in the
same order each time.

## Main results

* `show_eq_explore`: `Show` is a depth-first traversal, with the text of one visit a line.
* `show_spec`: what is printed of a heap of tables.
-/

namespace UnityLua

open Library

/-- A Lua value, not `nil`. What is no string, number, boolean or table is known by a number. -/
inductive TreeValue (Id N : Type)
  | string (s : ByteString)
  | number (n : N)
  | boolean (b : Bool)
  | table (t : Id)
  | other (o : ℕ)

variable {Id N : Type}

/-- The table that a value is. -/
def TreeValue.table? : TreeValue Id N → Option Id
  | .table t => some t
  | _ => none

/-- Tables with their entries in the order of `pairs`. -/
structure TreeHeap (Id N : Type) where
  pairs : Id → List (TreeValue Id N × TreeValue Id N)
  keys_nodup : ∀ t, ((pairs t).map Prod.fst).Nodup

/-- `tostring`, of what is no string or boolean. -/
structure Tostring (Id N : Type) where
  number : N → ByteString
  table : Id → ByteString
  other : ℕ → ByteString

/-- The class `%c` of a pattern. -/
def iscntrl (c : UInt8) : Bool := c < 32 || c == 127

/-- `treeData`, with the lines that were put out. -/
structure TreeData (Id : Type) where
  tableVisit : Id → Option ByteString
  thisPath : ByteString
  lines : List ByteString

namespace TreeData

def start : TreeData Id := ⟨fun _ => none, bytes "*", []⟩

def Output (d : TreeData Id) (textLine : ByteString) : TreeData Id :=
  { d with lines := d.lines ++ [textLine] }

end TreeData

section Source

variable (ts : Tostring Id N)

/-- `VarText` before the substitutions. -/
def rawText (tableVisit : Id → Option ByteString) : TreeValue Id N → ByteString
  | .string s => bytes "@" ++ s
  | .number n => bytes "#" ++ ts.number n
  | .boolean b => bytes "!" ++ if b then bytes "true" else bytes "false"
  | .table t =>
      match tableVisit t with
      | some path => bytes "$(" ++ path ++ bytes ")"
      | none => bytes "$(" ++ ts.table t ++ bytes ")"
  | .other o => bytes "?" ++ ts.other o

def VarText (tableVisit : Id → Option ByteString) (var : TreeValue Id N) : ByteString :=
  let text := rawText ts tableVisit var
  let text := gsub (· == 13) (bytes "\\r") text
  let text := gsub (· == 10) (bytes "\\n") text
  gsub iscntrl (bytes "\\^") text

/-- The second loop of `Show`, from the entry with the number `nCount` on. -/
def showPairs
    (show' : TreeData Id → TreeValue Id N → Option ByteString → Option ℤ → Option (TreeData Id))
    (szBase : ByteString) (depth : Option ℤ) (nSize : ℕ) :
    ℕ → List (TreeValue Id N × TreeValue Id N) → TreeData Id → Option (TreeData Id)
  | _, [], d => some d
  | nCount, (k, v) :: rest, d =>
      let visitPath := v.table?.bind d.tableVisit
      let szNode :=
        if v.table?.isSome && visitPath.isNone then VarText ts d.tableVisit k
        else VarText ts d.tableVisit k ++ bytes ": " ++ VarText ts d.tableVisit v
      let d := d.Output (szBase ++ bytes (if nCount < nSize then "├─" else "└─") ++ szNode)
      if v.table?.isSome && visitPath.isNone then
        let myPath := d.thisPath
        let d := { d with thisPath := d.thisPath ++ bytes "/" ++ VarText ts d.tableVisit k }
        (show' d v (some (szBase ++ bytes (if nCount < nSize then "│  " else "   ")))
          (depth.map (· - 1))).bind fun d =>
            showPairs show' szBase depth nSize (nCount + 1) rest { d with thisPath := myPath }
      else showPairs show' szBase depth nSize (nCount + 1) rest d

variable [DecidableEq Id] (h : TreeHeap Id N)

/-- `Show`. The first argument bounds how deep the calls are nested. -/
def Show : ℕ → TreeData Id → TreeValue Id N → Option ByteString → Option ℤ →
    Option (TreeData Id)
  | 0, _, _, _, _ => none
  | calls + 1, d, var, szBase, depth =>
      if depth.any (· ≤ 0) then some d
      else
        match var with
        | .table t =>
            let d := { d with tableVisit := Function.update d.tableVisit t (some d.thisPath) }
            showPairs ts (Show calls) (szBase.getD []) depth (h.pairs t).length 1 (h.pairs t) d
        | var => some (d.Output (VarText ts d.tableVisit var))

/-- The lines that a function of `CreatePrintTree` prints. -/
def CreatePrintTree (calls : ℕ) (var : TreeValue Id N) (depth : Option ℤ) :
    Option (List ByteString) :=
  (Show ts h calls TreeData.start var none depth).map fun d => bytes "*" :: d.lines

def StringTree (calls : ℕ) (var : TreeValue Id N) (depth : Option ℤ) : Option ByteString :=
  (Show ts h calls TreeData.start var none depth).map fun d =>
    d.lines.foldl (fun str textLine => str ++ bytes "\n" ++ textLine) (bytes "*")

/-- Both functions make the same lines. -/
theorem stringTree_eq (calls : ℕ) (var : TreeValue Id N) (depth : Option ℤ) :
    StringTree ts h calls var depth =
      (CreatePrintTree ts h calls var depth).map (List.intercalate (bytes "\n")) := by
  have hjoin : ∀ (lines : List ByteString) (str : ByteString),
      lines.foldl (fun str textLine => str ++ bytes "\n" ++ textLine) str =
        List.intercalate (bytes "\n") (str :: lines) := by
    intro lines
    induction lines with
    | nil => intro str; simp
    | cons line lines ih =>
        intro str
        rw [List.foldl_cons, ih, List.intercalate_cons_cons]
        rcases lines with _ | ⟨line', lines⟩
        · simp
        · simp [List.intercalate_cons_cons, List.append_assoc]
  rw [StringTree, CreatePrintTree, Option.map_map]
  exact congrArg (fun f => Option.map f _) (funext fun d => hjoin d.lines (bytes "*"))

end Source

/-! ### `Show` as a traversal -/

/-- Where a table is expanded: its path, and what its lines begin with. -/
abbrev TreePlace := ByteString × ByteString

/-- A visit of an entry. -/
abbrev TreeVisit (Id N : Type) := Visit Id (TreeValue Id N × TreeValue Id N) TreePlace

/-- The tables with the paths at which they were expanded. -/
def visitPaths (seen : Id → Option TreePlace) : Id → Option ByteString :=
  fun t => (seen t).map Prod.fst

/-- The entries of a table lead to the tables that are their values. -/
def TreeHeap.edges (h : TreeHeap Id N) (t : Id) :
    List ((TreeValue Id N × TreeValue Id N) × Option Id) :=
  (h.pairs t).map fun e => (e, e.2.table?)

/-- Where a table below an entry is expanded. -/
def descendPlace (ts : Tostring Id N) (seen : Id → Option TreePlace) (place : TreePlace)
    (e : TreeValue Id N × TreeValue Id N) (last : Bool) : TreePlace :=
  (place.1 ++ bytes "/" ++ VarText ts (visitPaths seen) e.1,
    place.2 ++ bytes (if last then "   " else "│  "))

/-- The text of a key, when its entry was visited. -/
def keyText (ts : Tostring Id N) (v : TreeVisit Id N) : ByteString :=
  VarText ts (visitPaths v.seen) v.label.1

/-- The line of an entry. -/
def lineText (ts : Tostring Id N) (v : TreeVisit Id N) : ByteString :=
  v.place.2 ++ bytes (if v.last then "└─" else "├─") ++
    if v.found.isSome then keyText ts v
    else keyText ts v ++ bytes ": " ++ VarText ts (visitPaths v.seen) v.label.2

section Refinement

variable [DecidableEq Id] (ts : Tostring Id N) (h : TreeHeap Id N)

theorem visitPaths_update (seen : Id → Option TreePlace) (t : Id) (place : TreePlace) :
    visitPaths (Function.update seen t (some place)) =
      Function.update (visitPaths seen) t (some place.1) := by
  funext u
  by_cases hu : u = t
  · subst hu
    simp [visitPaths]
  · simp [visitPaths, Function.update_of_ne hu]

/-- The data after a traversal. -/
def afterExplore (d : TreeData Id)
    (r : (Id → Option TreePlace) × List (TreeVisit Id N)) : TreeData Id :=
  ⟨visitPaths r.1, d.thisPath, d.lines ++ r.2.map (lineText ts)⟩

omit [DecidableEq Id] in
/-- The data when the line of an entry was put out, with its visit. -/
theorem output_lineText (d : TreeData Id) (line : TreeVisit Id N) (below : List (TreeVisit Id N)) :
    (d.Output (lineText ts line)).lines ++ below.map (lineText ts) =
      d.lines ++ (line :: below).map (lineText ts) := by
  rw [TreeData.Output, List.map_cons, List.append_assoc, List.singleton_append]

/-- An entry whose value is no table, or one that was visited. -/
theorem showPairs_skip {calls nSize nCount : ℕ} {base : ByteString} {k v : TreeValue Id N}
    {es : List (TreeValue Id N × TreeValue Id N)} {d : TreeData Id} {seen : Id → Option TreePlace}
    (t : Id) (hd : d.tableVisit = visitPaths seen) (hlast : nCount < nSize ↔ es.isEmpty = false)
    (hskip : (⟨t, (k, v), v.table?, es.isEmpty, (d.thisPath, base), seen⟩ :
      TreeVisit Id N).found = none) :
    showPairs ts (Show ts h calls) base none nSize nCount ((k, v) :: es) d =
      showPairs ts (Show ts h calls) base none nSize (nCount + 1) es
        (d.Output (lineText ts
          ⟨t, (k, v), v.table?, es.isEmpty, (d.thisPath, base), seen⟩)) := by
  have hold : (v.table?.isSome && (v.table?.bind d.tableVisit).isNone) = false := by
    rw [hd]
    cases v with
    | table u =>
        have hu : seen u ≠ none := fun hu => by
          rw [Visit.found_eq_some.mpr ⟨rfl, hu⟩] at hskip
          exact absurd hskip nofun
        obtain ⟨place, hplace⟩ := Option.ne_none_iff_exists'.mp hu
        simp [TreeValue.table?, visitPaths, hplace]
    | _ => rfl
  have hmark : bytes (if nCount < nSize then "├─" else "└─") =
      bytes (if es.isEmpty then "└─" else "├─") := by
    cases hes : es.isEmpty <;> simp [hlast, hes]
  rw [showPairs]
  simp only [hold, Bool.false_eq_true, if_false, hmark]
  simp only [lineText, hskip, Option.isSome_none, Bool.false_eq_true, if_false, keyText, hd]

/-- An entry whose value is a table that was not visited. -/
theorem showPairs_follow {calls nSize nCount : ℕ} {base : ByteString} {k : TreeValue Id N} {u : Id}
    {es : List (TreeValue Id N × TreeValue Id N)} {d : TreeData Id} {seen : Id → Option TreePlace}
    (t : Id) (hd : d.tableVisit = visitPaths seen) (hlast : nCount < nSize ↔ es.isEmpty = false)
    (hu : seen u = none) :
    showPairs ts (Show ts h calls) base none nSize nCount ((k, .table u) :: es) d =
      (Show ts h calls
        ⟨d.tableVisit, (descendPlace ts seen (d.thisPath, base) (k, .table u) es.isEmpty).1,
          (d.Output (lineText ts
            ⟨t, (k, .table u), some u, es.isEmpty, (d.thisPath, base), seen⟩)).lines⟩
        (.table u)
        (some (descendPlace ts seen (d.thisPath, base) (k, .table u) es.isEmpty).2) none).bind
          fun d' => showPairs ts (Show ts h calls) base none nSize (nCount + 1) es
            { d' with thisPath := d.thisPath } := by
  have hnew : ((some u : Option Id).isSome && ((some u).bind d.tableVisit).isNone) = true := by
    simp [hd, visitPaths, hu]
  have hmark : bytes (if nCount < nSize then "├─" else "└─") =
      bytes (if es.isEmpty then "└─" else "├─") := by
    cases hes : es.isEmpty <;> simp [hlast, hes]
  have hbase : bytes (if nCount < nSize then "│  " else "   ") =
      bytes (if es.isEmpty then "   " else "│  ") := by
    cases hes : es.isEmpty <;> simp [hlast, hes]
  have hfound : (⟨t, (k, .table u), some u, es.isEmpty, (d.thisPath, base), seen⟩ :
      TreeVisit Id N).found = some u := Visit.found_eq_some.mpr ⟨rfl, hu⟩
  rw [showPairs]
  simp only [TreeValue.table?, hnew, if_true, hmark, hbase, Option.map_none]
  simp only [lineText, hfound, Option.isSome_some, if_true, keyText, descendPlace, TreeData.Output,
    ← hd]

/-- The loop over the entries of a table follows its edges. -/
theorem showPairs_eq {calls : ℕ}
    (ih : ∀ (d : TreeData Id) (seen : Id → Option TreePlace) (base : ByteString) (u : Id),
      d.tableVisit = visitPaths seen →
      Show ts h calls d (.table u) (some base) none =
        (explore h.edges (descendPlace ts) calls seen (d.thisPath, base) u).map
          (afterExplore ts d))
    (t : Id) (base : ByteString) {nSize nCount : ℕ}
    (es : List (TreeValue Id N × TreeValue Id N)) (hcount : nCount + es.length = nSize + 1)
    (d : TreeData Id) (seen : Id → Option TreePlace) (hd : d.tableVisit = visitPaths seen) :
    showPairs ts (Show ts h calls) base none nSize nCount es d =
      (exploreEdges (descendPlace ts) (explore h.edges (descendPlace ts) calls) t
        (d.thisPath, base) (es.map fun e => (e, e.2.table?)) seen).map (afterExplore ts d) := by
  induction es generalizing nCount d seen with
  | nil =>
      simp [showPairs, exploreEdges, afterExplore, ← hd]
  | cons e es ihes =>
      obtain ⟨k, v⟩ := e
      rw [List.length_cons] at hcount
      have hlast : nCount < nSize ↔ es.isEmpty = false := by
        rw [List.isEmpty_eq_false_iff, Ne, ← List.length_eq_zero_iff]
        omega
      have hempty : (es.map fun e => (e, e.2.table?)).isEmpty = es.isEmpty := List.isEmpty_map
      rw [List.map_cons]
      cases hfound : (⟨t, (k, v), v.table?, es.isEmpty, (d.thisPath, base), seen⟩ :
          TreeVisit Id N).found with
      | none =>
          rw [showPairs_skip ts h t hd hlast hfound,
            ihes (by omega) (d.Output _) seen hd, exploreEdges_skip _ _ (hempty ▸ hfound),
            Option.map_map]
          refine congrArg (fun f => Option.map f _) (funext fun rest => ?_)
          rw [hempty]
          exact congrArg (TreeData.mk _ _) (output_lineText ts d _ _)
      | some u =>
          obtain ⟨hv, hu⟩ := Visit.found_eq_some.mp hfound
          obtain rfl : v = .table u := by
            cases v with
            | table u' => exact congrArg TreeValue.table (Option.some.inj hv)
            | _ => simp [TreeValue.table?] at hv
          set place := descendPlace ts seen (d.thisPath, base) (k, .table u) es.isEmpty with hplace
          set line : TreeVisit Id N :=
            ⟨t, (k, .table u), some u, es.isEmpty, (d.thisPath, base), seen⟩ with hline
          set d₁ : TreeData Id :=
            ⟨d.tableVisit, place.1, (d.Output (lineText ts line)).lines⟩ with hd₁
          have hshow : Show ts h calls d₁ (.table u) (some place.2) none =
              (explore h.edges (descendPlace ts) calls seen place u).map (afterExplore ts d₁) :=
            ih d₁ seen place.2 u hd
          rw [showPairs_follow ts h t hd hlast hu, hshow,
            show (TreeValue.table u : TreeValue Id N).table? = some u from rfl,
            exploreEdges_follow _ _ hu, hempty]
          cases explore h.edges (descendPlace ts) calls seen place u with
          | none => rfl
          | some below =>
              have hrest := ihes (by omega : nCount + 1 + es.length = nSize + 1)
                { afterExplore ts d₁ below with thisPath := d.thisPath } below.1 rfl
              rw [Option.map_some, Option.bind_some, hrest, Option.bind_some, Option.map_map]
              refine congrArg (fun f => Option.map f _) (funext fun rest => ?_)
              refine congrArg (TreeData.mk _ _) ?_
              change (d.Output (lineText ts line)).lines ++ below.2.map (lineText ts) ++
                rest.2.map (lineText ts) = _
              rw [output_lineText, List.append_assoc, ← List.map_append, List.cons_append]

/-- `szBase` is empty if it is not given. -/
theorem show_base_none (calls : ℕ) (d : TreeData Id) (var : TreeValue Id N) (depth : Option ℤ) :
    Show ts h calls d var none depth = Show ts h calls d var (some []) depth := by
  cases calls <;> rfl

/-- **`Show` is a traversal.** -/
theorem show_eq_explore (calls : ℕ) (d : TreeData Id) (seen : Id → Option TreePlace)
    (base : ByteString) (t : Id) (hd : d.tableVisit = visitPaths seen) :
    Show ts h calls d (.table t) (some base) none =
      (explore h.edges (descendPlace ts) calls seen (d.thisPath, base) t).map
        (afterExplore ts d) := by
  induction calls generalizing d seen base t with
  | zero => rfl
  | succ calls ih =>
      have hmark : Function.update d.tableVisit t (some d.thisPath) =
          visitPaths (Function.update seen t (some (d.thisPath, base))) := by
        rw [visitPaths_update, hd]
      have hloop := showPairs_eq ts h (fun d seen base u hd => ih d seen base u hd) t base
        (h.pairs t) (Nat.add_comm 1 _)
        { d with tableVisit := Function.update d.tableVisit t (some d.thisPath) } _ hmark
      rw [Show, explore]
      exact hloop

end Refinement

/-! ### Texts -/

/-- Without control characters, so that it is one line. -/
def Printable (s : ByteString) : Prop := ∀ c ∈ s, iscntrl c = false

instance (s : ByteString) : Decidable (Printable s) :=
  List.decidableBAll (fun c => iscntrl c = false) s

theorem Printable.append {s t : ByteString} (hs : Printable s) (ht : Printable t) :
    Printable (s ++ t) := by
  intro c hc
  rcases List.mem_append.mp hc with hc | hc
  · exact hs c hc
  · exact ht c hc

theorem printable_ite {p : Prop} [Decidable p] {s t : String} (hs : Printable (bytes s))
    (ht : Printable (bytes t)) : Printable (bytes (if p then s else t)) := by
  split
  · exact hs
  · exact ht

/-- The last substitution leaves no control character. -/
theorem printable_varText (ts : Tostring Id N) (tableVisit : Id → Option ByteString)
    (var : TreeValue Id N) : Printable (VarText ts tableVisit var) := by
  have hrepl : Printable (bytes "\\^") := by decide
  exact forall_mem_gsub hrepl fun _ _ hc => hc

theorem gsub_printable {p : UInt8 → Bool} {repl s : ByteString} (hs : Printable s)
    (hp : ∀ c, p c = true → iscntrl c = true) : gsub p repl s = s := by
  refine gsub_eq_self fun c hc => ?_
  by_contra hpc
  exact absurd ((hs c hc).symm.trans (hp c (Bool.not_eq_false _ ▸ hpc))) Bool.false_ne_true

/-- A reference to a visited table is its path between `$(` and `)`. -/
theorem varText_visited {ts : Tostring Id N} {tableVisit : Id → Option ByteString} {t : Id}
    {path : ByteString} (h : tableVisit t = some path) (hpath : Printable path) :
    VarText ts tableVisit (.table t) = bytes "$(" ++ path ++ bytes ")" := by
  have hopen : Printable (bytes "$(") := by decide
  have hclose : Printable (bytes ")") := by decide
  have htext : Printable (bytes "$(" ++ path ++ bytes ")") := (hopen.append hpath).append hclose
  have hraw : rawText ts tableVisit (.table t) = bytes "$(" ++ path ++ bytes ")" := by
    rw [rawText, h]
  rw [VarText, hraw, gsub_printable htext fun c hc => by rw [beq_iff_eq.mp hc]; rfl,
    gsub_printable htext fun c hc => by rw [beq_iff_eq.mp hc]; rfl,
    gsub_printable htext fun _ hc => hc]

/-! ### What is printed -/

/-- The keys lead from the one table to the other. -/
def TreeHeap.Follows (h : TreeHeap Id N) : Id → List (TreeValue Id N) → Id → Prop
  | t, [], u => t = u
  | t, k :: ks, u => ∃ w, (k, .table w) ∈ h.pairs t ∧ h.Follows w ks u

/-- From the one table on, these visits expanded one table after the other, the last of them the
other table. -/
def ExpandedAlong (trace : List (TreeVisit Id N)) : Id → List (TreeVisit Id N) → Id → Prop
  | t, [], u => t = u
  | t, v :: vs, u => v ∈ trace ∧ v.source = t ∧ ∃ w, v.found = some w ∧ ExpandedAlong trace w vs u

theorem ExpandedAlong.concat {trace : List (TreeVisit Id N)} {t u w : Id}
    {vs : List (TreeVisit Id N)} {v : TreeVisit Id N} (h : ExpandedAlong trace t vs u)
    (hv : v ∈ trace) (hsource : v.source = u) (hfound : v.found = some w) :
    ExpandedAlong trace t (vs ++ [v]) w := by
  induction vs generalizing t with
  | nil =>
      obtain rfl : t = u := h
      exact ⟨hv, hsource, w, hfound, rfl⟩
  | cons v' vs ih =>
      obtain ⟨hv', hsource', w', hfound', h⟩ := h
      exact ⟨hv', hsource', w', hfound', ih h⟩

/-- `*` and the texts of the keys, each behind a `/`. -/
def expandedPath (ts : Tostring Id N) (vs : List (TreeVisit Id N)) : ByteString :=
  bytes "*" ++ vs.flatMap fun v => bytes "/" ++ keyText ts v

theorem expandedPath_concat (ts : Tostring Id N) (vs : List (TreeVisit Id N))
    (v : TreeVisit Id N) :
    expandedPath ts (vs ++ [v]) = expandedPath ts vs ++ bytes "/" ++ keyText ts v := by
  simp [expandedPath, List.flatMap_append, List.append_assoc]

theorem printable_expandedPath (ts : Tostring Id N) (vs : List (TreeVisit Id N)) :
    Printable (expandedPath ts vs) := by
  have hstar : Printable (bytes "*") := by decide
  have hslash : Printable (bytes "/") := by decide
  refine hstar.append fun c hc => ?_
  obtain ⟨v, -, hc⟩ := List.mem_flatMap.mp hc
  exact hslash.append (printable_varText ts _ _) c hc

/-- The lines that are printed of a table, with the visits that they are the lines of. -/
structure PrintsTree [DecidableEq Id] (ts : Tostring Id N) (h : TreeHeap Id N) (root : Id)
    (lines : List ByteString) (trace : List (TreeVisit Id N)) : Prop where
  lines_eq : lines = trace.map (lineText ts)
  /-- A table that can be reached has one line a key. -/
  reachable : ∀ t, Reachable h.edges root t → (visitsOf trace t).map (·.label) = h.pairs t
  unreachable : ∀ t, ¬ Reachable h.edges root t → visitsOf trace t = []
  /-- Exactly the last of them has the closing mark. -/
  marks : ∀ t, Reachable h.edges root t → h.pairs t ≠ [] →
    (visitsOf trace t).map (·.last) = List.replicate ((h.pairs t).length - 1) false ++ [true]
  expandedOnce : (root :: trace.filterMap Visit.found).Nodup
  expanded : ∀ t, t ∈ root :: trace.filterMap Visit.found ↔ Reachable h.edges root t
  /-- A table that is not expanded where it is a value is printed as a reference. -/
  reference : ∀ v ∈ trace, ∀ t, v.label.2 = .table t → v.found = none →
    ∃ vs, lineText ts v = v.place.2 ++ bytes (if v.last then "└─" else "├─") ++
        (keyText ts v ++ bytes ": " ++ (bytes "$(" ++ expandedPath ts vs ++ bytes ")")) ∧
      ExpandedAlong trace root vs t ∧ h.Follows root (vs.map (·.label.1)) t
  oneLine : ∀ line ∈ lines, Printable line

/-- The entry of a visit is one of its table. -/
theorem mem_pairs {h : TreeHeap Id N} {v : TreeVisit Id N}
    (hv : (v.label, v.target) ∈ h.edges v.source) :
    v.label ∈ h.pairs v.source ∧ v.target = v.label.2.table? := by
  obtain ⟨e, he, heq⟩ := List.mem_map.mp hv
  obtain ⟨rfl, htarget⟩ := Prod.mk.inj heq
  exact ⟨he, htarget.symm⟩

theorem table?_eq_some {v : TreeValue Id N} {t : Id} (h : v.table? = some t) : v = .table t := by
  cases v with
  | table u => exact congrArg TreeValue.table (Option.some.inj h)
  | _ => exact absurd h nofun

section Printing

variable [DecidableEq Id] {ts : Tostring Id N} {h : TreeHeap Id N} {root : Id}
  {seen' : Id → Option TreePlace} {trace : List (TreeVisit Id N)}

omit [DecidableEq Id] in
theorem follows_of_expandedAlong
    (hedges : ∀ v ∈ trace, (v.label, v.target) ∈ h.edges v.source) {t u : Id}
    {vs : List (TreeVisit Id N)} (hvs : ExpandedAlong trace t vs u) :
    h.Follows t (vs.map (·.label.1)) u := by
  induction vs generalizing t with
  | nil => exact hvs
  | cons v vs ih =>
      obtain ⟨hv, rfl, w, hfound, hvs⟩ := hvs
      obtain ⟨hmem, htarget⟩ := mem_pairs (hedges v hv)
      have hvalue : v.label.2 = .table w :=
        table?_eq_some (htarget.symm.trans (Visit.found_eq_some.mp hfound).1)
      exact ⟨w, hvalue ▸ hmem, ih hvs⟩

/-- A table is expanded at the path of the keys along which it was expanded. -/
theorem place_of_met
    (hexp : Explores h.edges (descendPlace ts) root (bytes "*", []) (h.edges root)
      (Function.update (fun _ => none) root (some (bytes "*", []))) seen' trace)
    {t : Id} (ht : seen' t ≠ none) :
    ∃ vs base, ExpandedAlong trace root vs t ∧ seen' t = some (expandedPath ts vs, base) ∧
      Printable base := by
  have hleads := hexp.leads_root ht
  clear ht
  induction hleads with
  | refl =>
      refine ⟨[], [], rfl, hexp.grows root _ ?_, nofun⟩
      rw [Function.update_self]
      rfl
  | tail _ hstep ih =>
      obtain ⟨vs, base, hvs, hplace, hbase⟩ := ih
      obtain ⟨v, hv, rfl, hfound⟩ := hstep
      have hat : v.place = (expandedPath ts vs, base) :=
        Option.some.inj ((hexp.places v hv).symm.trans hplace)
      refine ⟨vs ++ [v], base ++ bytes (if v.last then "   " else "│  "),
        hvs.concat hv rfl hfound, ?_, ?_⟩
      · rw [hexp.descends v hv _ hfound, descendPlace, hat, expandedPath_concat]
        rfl
      · exact hbase.append (printable_ite (by decide) (by decide))

/-- What was printed, by the visits of the traversal. -/
theorem printsTree_of_explores
    (hexp : Explores h.edges (descendPlace ts) root (bytes "*", []) (h.edges root)
      (Function.update (fun _ => none) root (some (bytes "*", []))) seen' trace) :
    PrintsTree ts h root (trace.map (lineText ts)) trace where
  lines_eq := rfl
  reachable t ht := by
    have hedges := congrArg (List.map Prod.fst) (hexp.rendered ((hexp.seen_iff t).mpr ht))
    have hlabels := congrArg (List.map Prod.fst) hedges
    rw [withLast_fst, TreeHeap.edges, List.map_map, List.map_map, List.map_map] at hlabels
    simpa [Function.comp_def] using hlabels
  unreachable t ht := hexp.visitsOf_eq_nil ht
  marks t ht hne := by
    have hedges := congrArg (List.map Prod.snd) (hexp.rendered ((hexp.seen_iff t).mpr ht))
    rw [withLast_snd (by simpa [TreeHeap.edges] using hne), List.map_map] at hedges
    simpa [TreeHeap.edges, Function.comp_def] using hedges
  expandedOnce := hexp.found_once.1
  expanded := hexp.found_once.2
  reference v hv t ht hnone := by
    have htarget : v.target = some t := by
      rw [(mem_pairs (hexp.mem_edges hv)).2, ht]
      rfl
    have hmet : v.seen t ≠ none := fun hseen => by
      rw [Visit.found_eq_some.mpr ⟨htarget, hseen⟩] at hnone
      exact absurd hnone nofun
    obtain ⟨place, hplace⟩ := Option.ne_none_iff_exists'.mp hmet
    have hplace' : seen' t = some place := (hexp.between v hv).2 t place hplace
    obtain ⟨vs, base, hvs, hat, -⟩ := place_of_met hexp (by rw [hplace']; exact nofun)
    obtain rfl := Option.some.inj (hplace'.symm.trans hat)
    refine ⟨vs, ?_, hvs, follows_of_expandedAlong (fun v hv => hexp.mem_edges hv) hvs⟩
    have hvisit : visitPaths v.seen t = some (expandedPath ts vs) := by
      rw [visitPaths, hplace]
      rfl
    have hnot : ¬ (none : Option Id).isSome = true := Bool.false_ne_true
    rw [lineText, hnone, if_neg hnot, ht,
      varText_visited hvisit (printable_expandedPath ts vs)]
  oneLine line hline := by
    obtain ⟨v, hv, rfl⟩ := List.mem_map.mp hline
    obtain ⟨vs, base, -, hat, hbase⟩ := place_of_met hexp (by rw [hexp.places v hv]; exact nofun)
    have hplace : v.place.2 = base :=
      congrArg Prod.snd (Option.some.inj ((hexp.places v hv).symm.trans hat))
    have hkey : Printable (keyText ts v) := printable_varText ts _ _
    have hcolon : Printable (bytes ": ") := by decide
    refine Printable.append ?_ ?_
    · rw [hplace]
      exact hbase.append (printable_ite (by decide) (by decide))
    · split
      · exact hkey
      · exact (hkey.append hcolon).append (printable_varText ts _ _)

end Printing

/-- **The tree printer.** Without a depth limit `Show` comes to an end for every table of a finite
heap, with no more calls inside one another than there are tables, and prints the tables that can
be reached: one line a key, each table expanded once, every other occurrence as a reference to the
path at which it was expanded. -/
theorem show_spec [Fintype Id] [DecidableEq Id] (ts : Tostring Id N) (h : TreeHeap Id N)
    (root : Id) :
    ∃ d trace, Show ts h (Fintype.card Id) TreeData.start (.table root) none none = some d ∧
      PrintsTree ts h root d.lines trace := by
  obtain ⟨seen', trace, hrun, hexp⟩ : ∃ seen' trace,
      explore h.edges (descendPlace ts) (Fintype.card Id) (fun _ => none) (bytes "*", []) root =
          some (seen', trace) ∧
        Explores h.edges (descendPlace ts) root (bytes "*", []) (h.edges root)
          (Function.update (fun _ => none) root (some (bytes "*", []))) seen' trace :=
    explore_spec _ root
  have hshow := show_eq_explore ts h (Fintype.card Id) TreeData.start (fun _ => none) [] root rfl
  rw [show (TreeData.start : TreeData Id).thisPath = bytes "*" from rfl, hrun] at hshow
  refine ⟨⟨visitPaths seen', bytes "*", trace.map (lineText ts)⟩, trace, ?_,
    printsTree_of_explores hexp⟩
  rw [show_base_none, hshow]
  rfl

end UnityLua
