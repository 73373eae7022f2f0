import UnityLua.Library.StackPaths
import UnityLua.OverrideCode

/-!
# Which emitted methods are verifiable

The paths through the two methods that `GenerateMethod` emits: the override, and the method that
calls the base method for the field `base` of the table.

## Main results

* `verifiable_baseCall`: the method for the field `base` is verifiable.
* `verifiable_override_iff`: the override is, unless it calls a base method that returns no value.
-/

namespace UnityLua

open Library

variable {method : MethodInfo}

/-- The values that the method returns. -/
def MethodInfo.results (method : MethodInfo) : ℕ := if method.isVoid then 0 else 1

/-- The code of an override has its labels behind the branches to them. -/
theorem forward_override (methodIndex : ℕ) : forward (method.override methodIndex) [] := by
  have hbranch (c : List (Op Instr)) (seen : List ℕ) :
      forward (method.withoutFunction ++ c) seen ↔ forward c seen := by
    cases habstract : method.isAbstract with
    | true => rw [withoutFunction_of_abstract habstract, emit, forward_straight]
    | false =>
        rw [withoutFunction_of_not_abstract habstract, List.append_assoc, List.append_assoc, emit,
          forward_straight, List.singleton_append, forward, emit, forward_straight]
  have hend (seen : List ℕ) : forward (emit (MethodInfo.withFunction methodIndex) ++ ([.mark 2] ++
      (emit method.finish ++ [.ret]))) seen := by
    rw [emit, forward_straight, List.singleton_append, forward, emit, forward_straight]
    trivial
  rw [MethodInfo.override, emit, forward_straight, List.singleton_append, forward]
  refine ⟨List.not_mem_nil, ?_⟩
  rw [emit, forward_straight, hbranch, List.singleton_append, forward]
  exact ⟨List.not_mem_nil, hend _⟩

/-- A path comes to the `Pop` behind the call of a base method without a result, and there is
nothing to pop. -/
theorem not_verifiable_override (methodIndex : ℕ) (habstract : method.isAbstract = false)
    (hvoid : method.isVoid = true) :
    ¬ Verifiable Instr.effect method.results (method.override methodIndex) := by
  intro h
  obtain ⟨code, hcode⟩ : ∃ code, method.override methodIndex = code := ⟨_, rfl⟩
  have hstart : ReachesCode Instr.effect code (method.override methodIndex) 0 := by
    rw [hcode]
    exact reachesCode_start
  rw [hcode] at h
  rw [MethodInfo.override, emit] at hstart
  have htest := (hstart.straight depthAfter_begin).fall (by decide)
  have hpop : depthAfter Instr.effect [.Pop] 1 = some 0 := rfl
  have hpopped : ReachesCode Instr.effect code (method.withoutFunction ++ _) 0 :=
    htest.straight hpop
  rw [withoutFunction_of_not_abstract habstract, MethodInfo.callBase, hvoid, if_pos rfl, emit,
    List.map_append, List.append_assoc, List.append_assoc] at hpopped
  have hcalled := hpopped.straight depthAfter_callMethod
  rw [hvoid, if_pos rfl] at hcalled
  have hneeds : 1 ≤ 0 := h.needs_le hcalled
  omega

/-- The paths through the method for the field `base`. -/
theorem verifiable_baseCall : Verifiable Instr.effect method.results method.baseCall := by
  refine verifiable_of_check ?_ ?_ ?_
  · rw [MethodInfo.baseCall, emit, check_straight depthAfter_callMethod, check,
      MethodInfo.results, beq_self_eq_true]
    rfl
  · rw [MethodInfo.baseCall, emit, forward_straight]
    trivial
  · rw [MethodInfo.baseCall, emit, closed_straight]
    trivial

/-- **The emitted methods are verifiable** unless the override calls a base method that returns
no value. -/
theorem verifiable_override_iff (method : MethodInfo) (methodIndex : ℕ) :
    Verifiable Instr.effect method.results (method.override methodIndex) ∧
        Verifiable Instr.effect method.results method.baseCall ↔
      method.isAbstract = true ∨ method.isVoid = false := by
  constructor
  · rintro ⟨h, -⟩
    cases habstract : method.isAbstract with
    | true => exact .inl rfl
    | false =>
        cases hvoid : method.isVoid with
        | true => exact absurd h (not_verifiable_override methodIndex habstract hvoid)
        | false => exact .inr rfl
  · intro h
    refine ⟨verifiable_of_check ?_ (forward_override methodIndex) (closed_override methodIndex),
      verifiable_baseCall⟩
    rw [MethodInfo.results, check_override]
    rcases h with h | h <;> simp [h]

/-- A method of a class, `void update()`. -/
def update : MethodInfo where
  token := 0
  name := "update"
  isPrivate := false
  isFinal := false
  isVirtual := true
  isAbstract := false
  returnType := .void
  parameters := []

/-- The override of a method without a result calls the base method and pops. -/
theorem verifiable_override_fails : ¬ ∀ (method : MethodInfo) (methodIndex : ℕ),
    Verifiable Instr.effect method.results (method.override methodIndex) ∧
      Verifiable Instr.effect method.results method.baseCall := by
  intro h
  exact @not_verifiable_override update 0 rfl rfl (h update 0).1

end UnityLua
