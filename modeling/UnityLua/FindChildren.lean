import Mathlib.Data.List.Perm.Basic

/-!
# Searching a tree of game objects

`Example.FindChildrenObject` looks for a name among the transforms below an object, which are
those of the object itself and of all its descendants. Where the name is not among them, it
calls itself on each of these, the first of which has the same question to answer again.

## Main results

* `not_returns`: a search for a name that does not occur never returns.
* `findChildrenObject_iff`: exactly when a search ends with the right answer.
-/

namespace UnityLua

/-- A game object with the objects below it. -/
inductive GameObject
  | mk (id : ℕ) (name : String) (children : List GameObject)

namespace GameObject

def name : GameObject → String
  | mk _ name _ => name

mutual

/-- An object and all its descendants. -/
def subtree : GameObject → List GameObject
  | mk id name children => mk id name children :: subtrees children

def subtrees : List GameObject → List GameObject
  | [] => []
  | child :: children => child.subtree ++ subtrees children

end

theorem mem_subtree_self (go : GameObject) : go ∈ go.subtree := by
  obtain ⟨id, name, children⟩ := go
  rw [subtree]
  exact List.mem_cons_self

mutual

/-- What is below a descendant is below the object. -/
theorem subtree_subset : ∀ go : GameObject, ∀ item ∈ go.subtree, item.subtree ⊆ go.subtree
  | mk id name children, item, hitem => by
      rw [subtree] at hitem ⊢
      rcases List.mem_cons.mp hitem with rfl | hitem
      · rw [subtree]
        exact List.Subset.refl _
      · exact List.subset_cons_of_subset _ (subtrees_subset children item hitem)

theorem subtrees_subset : ∀ children : List GameObject, ∀ item ∈ subtrees children,
    item.subtree ⊆ subtrees children
  | [], _, hitem => by
      rw [subtrees] at hitem
      exact absurd hitem List.not_mem_nil
  | child :: children, item, hitem => by
      rw [subtrees] at hitem ⊢
      rcases List.mem_append.mp hitem with hitem | hitem
      · exact List.subset_append_of_subset_left _ (subtree_subset child item hitem)
      · exact List.subset_append_of_subset_right _ (subtrees_subset children item hitem)

end

end GameObject

/-- `GetComponentsInChildren(typeof(Transform))`, by the objects of the transforms. -/
structure ComponentQuery where
  GetComponentsInChildren : GameObject → List GameObject
  perm : ∀ go, (GetComponentsInChildren go).Perm go.subtree

namespace ComponentQuery

variable (q : ComponentQuery)

/-- The second loop: the first result that is not `null`, unless a call does not return. -/
def firstFound (find : GameObject → Option (Option GameObject)) :
    List GameObject → Option (Option GameObject)
  | [] => some none
  | item :: items =>
      match find item with
      | none => none
      | some (some ret) => some (some ret)
      | some none => firstFound find items

/-- `FindChildrenObject`, in which no more than `depth` calls are active at a time; `none` is a
search that has not returned. -/
def FindChildrenObject : ℕ → GameObject → String → Option (Option GameObject)
  | 0, _, _ => none
  | depth + 1, go, name =>
      let items := q.GetComponentsInChildren go
      match items.find? fun item => item.name = name with
      | some item => some (some item)
      | none => firstFound (fun item => FindChildrenObject depth item name) items

/-- The answer that a search should give: an object with the name if there is one. -/
structure Answers (go : GameObject) (name : String) (ret : Option GameObject) : Prop where
  found : ∀ o, ret = some o → o ∈ go.subtree ∧ o.name = name
  missing : ret = none → ∀ o ∈ go.subtree, o.name ≠ name

theorem find?_isSome_iff (go : GameObject) (name : String) :
    ((q.GetComponentsInChildren go).find? fun item => item.name = name).isSome ↔
      ∃ o ∈ go.subtree, o.name = name := by
  rw [List.find?_isSome]
  constructor
  · rintro ⟨o, ho, hname⟩
    exact ⟨o, (q.perm go).mem_iff.mp ho, of_decide_eq_true hname⟩
  · rintro ⟨o, ho, hname⟩
    exact ⟨o, (q.perm go).mem_iff.mpr ho, decide_eq_true hname⟩

/-- The first loop finds what there is to find. -/
theorem answers_of_mem {go : GameObject} {name : String} (h : ∃ o ∈ go.subtree, o.name = name)
    (depth : ℕ) :
    ∃ ret, q.FindChildrenObject (depth + 1) go name = some ret ∧ Answers go name ret := by
  obtain ⟨item, hitem⟩ := Option.isSome_iff_exists.mp ((q.find?_isSome_iff go name).mpr h)
  refine ⟨some item, ?_, ?_, nofun⟩
  · rw [FindChildrenObject, hitem]
  · rintro o ⟨⟩
    have hname := List.find?_some hitem
    simp only [decide_eq_true_eq] at hname
    exact ⟨(q.perm go).mem_iff.mp (List.mem_of_find?_eq_some hitem), hname⟩

/-- **A name that does not occur.** However many calls are made, the first item of the second
loop asks for another one. -/
theorem not_returns {go : GameObject} {name : String} (h : ∀ o ∈ go.subtree, o.name ≠ name)
    (depth : ℕ) : q.FindChildrenObject depth go name = none := by
  induction depth generalizing go with
  | zero => rfl
  | succ depth ih =>
      have hnone : (q.GetComponentsInChildren go).find? (fun item => item.name = name) = none := by
        rw [← Option.not_isSome_iff_eq_none, q.find?_isSome_iff]
        rintro ⟨o, ho, hname⟩
        exact h o ho hname
      rw [FindChildrenObject, hnone]
      cases hitems : q.GetComponentsInChildren go with
      | nil =>
          have hself := (q.perm go).mem_iff.mpr go.mem_subtree_self
          rw [hitems] at hself
          exact absurd hself List.not_mem_nil
      | cons item items =>
          have hitem : item ∈ go.subtree :=
            (q.perm go).mem_iff.mp (hitems ▸ List.mem_cons_self)
          have hdeeper := ih fun o ho => h o (go.subtree_subset item hitem ho)
          simp only [firstFound, hdeeper]

/-- **When a search ends with the right answer.** -/
theorem findChildrenObject_iff (go : GameObject) (name : String) :
    (∃ depth ret, q.FindChildrenObject depth go name = some ret ∧ Answers go name ret) ↔
      ∃ o ∈ go.subtree, o.name = name := by
  constructor
  · rintro ⟨depth, ret, hret, -⟩
    by_contra hmissing
    have hnone := q.not_returns (fun o ho hname => hmissing ⟨o, ho, hname⟩) depth
    rw [hnone] at hret
    exact absurd hret nofun
  · intro h
    obtain ⟨ret, hret⟩ := q.answers_of_mem h 0
    exact ⟨1, ret, hret⟩

/-- The components in the order of the tree. -/
def preorder : ComponentQuery := ⟨GameObject.subtree, fun _ => List.Perm.refl _⟩

/-- An object without children does not end the search for another name. -/
theorem findChildrenObject_fails :
    ¬ ∃ depth ret, preorder.FindChildrenObject depth (.mk 0 "Player" []) "Sword" = some ret ∧
      Answers (.mk 0 "Player" []) "Sword" ret := by
  rintro ⟨depth, ret, hret, -⟩
  have hmissing : ∀ o ∈ (GameObject.mk 0 "Player" []).subtree, o.name ≠ "Sword" := by
    intro o ho
    rw [GameObject.subtree, GameObject.subtrees, List.mem_singleton] at ho
    rw [ho]
    decide
  rw [preorder.not_returns hmissing depth] at hret
  exact absurd hret nofun

end ComponentQuery

end UnityLua
