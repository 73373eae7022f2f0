import Mathlib.Algebra.Order.Field.Rat
import Mathlib.Tactic.Linarith
import UnityLua.Library.HalfLines

/-!
# Clipping a line at a box

`LiangBarskyAlgorithm` of `lib.lua` cuts the parameters of a segment by the four sides of a box,
one after the other, and returns the points at the parameters that are left at the ends.

## Main results

* `loop_eq_cutAll`: the loop cuts `[0, 1]` by four inequalities, without a division by zero.
* `liangBarsky_spec`: what is returned are the extreme points of the segment that lie in the box.
-/

namespace UnityLua

open Library

/-- What is returned: `nil`, or the coordinates of one point or of two. -/
inductive Clipped
  | nil
  | point (p : ℚ × ℚ)
  | points (p p' : ℚ × ℚ)
  deriving DecidableEq

/-- What ends the loop before its end. -/
inductive LoopExit
  | divisionByZero
  | returnNil
  deriving DecidableEq

/-- `q / p`. -/
def luaDiv (q p : ℚ) : Except LoopExit ℚ := if p = 0 then .error .divisionByZero else .ok (q / p)

/-- The values of `p` and `q` for a side. -/
def sideOf (l t w h x1 y1 dx dy : ℚ) (side : ℕ) : ℚ × ℚ :=
  if side = 1 then (-dx, x1 - l)
  else if side = 2 then (dx, l + w - x1)
  else if side = 3 then (-dy, y1 - t)
  else (dy, t + h - y1)

/-- The rest of the loop's body. -/
def clipSide (p q : ℚ) (s : ℚ × ℚ) : Except LoopExit (ℚ × ℚ) :=
  let t0 := s.1
  let t1 := s.2
  if p = 0 then
    if q < 0 then .error .returnNil else .ok (t0, t1)
  else do
    let r ← luaDiv q p
    if p < 0 then
      if r > t1 then .error .returnNil
      else if r > t0 then .ok (r, t1)
      else .ok (t0, t1)
    else
      if r < t0 then .error .returnNil
      else if r < t1 then .ok (t0, r)
      else .ok (t0, t1)

/-- The loop over the sides. -/
def clipSides (l t w h x1 y1 dx dy : ℚ) : List ℕ → ℚ × ℚ → Except LoopExit (ℚ × ℚ)
  | [], s => .ok s
  | side :: sides, s => do
      let s ← clipSide (sideOf l t w h x1 y1 dx dy side).1 (sideOf l t w h x1 y1 dx dy side).2 s
      clipSides l t w h x1 y1 dx dy sides s

/-- `Lib.LiangBarskyAlgorithm`, where `none` is a division by zero. -/
def LiangBarskyAlgorithm (l t w h x1 y1 x2 y2 : ℚ) : Option Clipped :=
  let dx := x2 - x1
  let dy := y2 - y1
  match clipSides l t w h x1 y1 dx dy [1, 2, 3, 4] (0, 1) with
  | .error .divisionByZero => none
  | .error .returnNil => some .nil
  | .ok (t0, t1) =>
      let ix1 := x1 + t0 * dx
      let iy1 := y1 + t0 * dy
      let ix2 := x1 + t1 * dx
      let iy2 := y1 + t1 * dy
      if ix1 = ix2 ∧ iy1 = iy2 then some (.point (ix1, iy1))
      else some (.points (ix1, iy1) (ix2, iy2))

/-! ### The loop -/

/-- How the rest of an interval is kept in the loop. -/
def loopState : Option (Library.Interval ℚ) → Except LoopExit (ℚ × ℚ)
  | none => .error .returnNil
  | some I => .ok (I.lo, I.hi)

/-- **One side** cuts the interval; the division is guarded. -/
theorem clipSide_eq_cut (p q : ℚ) (I : Library.Interval ℚ) :
    clipSide p q (I.lo, I.hi) = loopState (cut p q I) := by
  unfold clipSide cut
  by_cases hp : p = 0
  · rw [if_pos hp, if_pos hp]
    split <;> rfl
  · rw [if_neg hp, if_neg hp, luaDiv, if_neg hp]
    change (if p < 0 then _ else _) = _
    split <;> (split <;> [rfl; (split <;> rfl)])

/-- **The loop** cuts by one side after the other. -/
theorem loop_eq_cutAll (l t w h x1 y1 dx dy : ℚ) (sides : List ℕ) (I : Library.Interval ℚ) :
    clipSides l t w h x1 y1 dx dy sides (I.lo, I.hi) =
      loopState (cutAll (sides.map (sideOf l t w h x1 y1 dx dy)) I) := by
  induction sides generalizing I with
  | nil => rfl
  | cons side sides ih =>
      rw [clipSides, clipSide_eq_cut, List.map_cons, cutAll]
      cases cut (sideOf l t w h x1 y1 dx dy side).1 (sideOf l t w h x1 y1 dx dy side).2 I with
      | none => rfl
      | some J => exact ih J

/-! ### The box -/

/-- The point of the segment at a parameter. -/
def pointAt (x1 y1 x2 y2 s : ℚ) : ℚ × ℚ := (x1 + s * (x2 - x1), y1 + s * (y2 - y1))

/-- The box, which is empty if `w` or `h` is negative. -/
def InBox (l t w h : ℚ) (p : ℚ × ℚ) : Prop :=
  (l ≤ p.1 ∧ p.1 ≤ l + w) ∧ (t ≤ p.2 ∧ p.2 ≤ t + h)

/-- The parameters at which the segment is in the box. -/
def inside (l t w h x1 y1 x2 y2 : ℚ) : Set ℚ :=
  {s | (0 ≤ s ∧ s ≤ 1) ∧ InBox l t w h (pointAt x1 y1 x2 y2 s)}

/-- The four inequalities are those of the box. -/
theorem sides_iff (l t w h x1 y1 x2 y2 s : ℚ) :
    (∀ c ∈ [1, 2, 3, 4].map (sideOf l t w h x1 y1 (x2 - x1) (y2 - y1)), c.1 * s ≤ c.2) ↔
      InBox l t w h (pointAt x1 y1 x2 y2 s) := by
  have hleft : -(x2 - x1) * s ≤ x1 - l ↔ l ≤ x1 + s * (x2 - x1) := by
    constructor <;> intro hle <;> linarith
  have hright : (x2 - x1) * s ≤ l + w - x1 ↔ x1 + s * (x2 - x1) ≤ l + w := by
    constructor <;> intro hle <;> linarith
  have hlow : -(y2 - y1) * s ≤ y1 - t ↔ t ≤ y1 + s * (y2 - y1) := by
    constructor <;> intro hle <;> linarith
  have hhigh : (y2 - y1) * s ≤ t + h - y1 ↔ y1 + s * (y2 - y1) ≤ t + h := by
    constructor <;> intro hle <;> linarith
  rw [InBox, pointAt, ← hleft, ← hright, ← hlow, ← hhigh, and_assoc]
  simp only [List.map_cons, List.map_nil, List.forall_mem_cons]
  exact and_congr_right fun _ => and_congr_right fun _ => and_congr_right fun _ =>
    and_iff_left fun _ hmem => absurd hmem List.not_mem_nil

/-- What the loop leaves are the parameters at which the segment is in the box. -/
theorem points_sides (l t w h x1 y1 x2 y2 : ℚ) :
    Library.Interval.points (cutAll ([1, 2, 3, 4].map (sideOf l t w h x1 y1 (x2 - x1) (y2 - y1)))
        ⟨0, 1, zero_le_one⟩) = inside l t w h x1 y1 x2 y2 := by
  rw [points_cutAll]
  ext s
  exact and_congr Iff.rfl (sides_iff l t w h x1 y1 x2 y2 s)

/-- What is returned for the parameters that are left. -/
def clippedAt (x1 y1 x2 y2 t0 t1 : ℚ) : Clipped :=
  if pointAt x1 y1 x2 y2 t0 = pointAt x1 y1 x2 y2 t1 then .point (pointAt x1 y1 x2 y2 t0)
  else .points (pointAt x1 y1 x2 y2 t0) (pointAt x1 y1 x2 y2 t1)

/-- What is returned for what is left of `[0, 1]`. -/
def clipped (x1 y1 x2 y2 : ℚ) : Option (Library.Interval ℚ) → Clipped
  | none => .nil
  | some I => clippedAt x1 y1 x2 y2 I.lo I.hi

theorem liangBarsky_eq (l t w h x1 y1 x2 y2 : ℚ) :
    LiangBarskyAlgorithm l t w h x1 y1 x2 y2 =
      some (clipped x1 y1 x2 y2
        (cutAll ([1, 2, 3, 4].map (sideOf l t w h x1 y1 (x2 - x1) (y2 - y1)))
          ⟨0, 1, zero_le_one⟩)) := by
  have hloop := loop_eq_cutAll l t w h x1 y1 (x2 - x1) (y2 - y1) [1, 2, 3, 4]
    ⟨0, 1, zero_le_one⟩
  simp only [LiangBarskyAlgorithm, hloop]
  cases cutAll ([1, 2, 3, 4].map (sideOf l t w h x1 y1 (x2 - x1) (y2 - y1)))
      ⟨0, 1, zero_le_one⟩ with
  | none => rfl
  | some I =>
      simp only [loopState, clipped, clippedAt, pointAt, Prod.mk.injEq]
      split <;> rfl

/-- **Clipping is exact.** For every box and every segment, the division is never one by zero;
`nil` is returned exactly if no point of the segment is in the box, and otherwise the points at the
least and the greatest parameter that are, or the one point that both are. -/
theorem liangBarsky_spec (l t w h x1 y1 x2 y2 : ℚ) :
    ∃ r, LiangBarskyAlgorithm l t w h x1 y1 x2 y2 = some r ∧
      (r = .nil ↔ ∀ s, 0 ≤ s → s ≤ 1 → ¬ InBox l t w h (pointAt x1 y1 x2 y2 s)) ∧
      (r ≠ .nil → ∃ t0 t1, IsLeast (inside l t w h x1 y1 x2 y2) t0 ∧
        IsGreatest (inside l t w h x1 y1 x2 y2) t1 ∧ r = clippedAt x1 y1 x2 y2 t0 t1) := by
  have hpoints := points_sides l t w h x1 y1 x2 y2
  have hempty : inside l t w h x1 y1 x2 y2 = ∅ ↔
      ∀ s, 0 ≤ s → s ≤ 1 → ¬ InBox l t w h (pointAt x1 y1 x2 y2 s) := by
    rw [Set.eq_empty_iff_forall_notMem]
    exact forall_congr' fun s => ⟨fun hs h0 h1 hin => hs ⟨⟨h0, h1⟩, hin⟩,
      fun hs hin => hs hin.1.1 hin.1.2 hin.2⟩
  refine ⟨_, liangBarsky_eq l t w h x1 y1 x2 y2, ?_⟩
  rw [← hempty, ← hpoints]
  cases cutAll ([1, 2, 3, 4].map (sideOf l t w h x1 y1 (x2 - x1) (y2 - y1)))
      ⟨0, 1, zero_le_one⟩ with
  | none => exact ⟨iff_of_true rfl rfl, fun hne => absurd rfl hne⟩
  | some I =>
      have hne : clipped x1 y1 x2 y2 (some I) ≠ .nil := by
        rw [clipped, clippedAt]
        split <;> exact nofun
      refine ⟨iff_of_false hne I.isLeast.nonempty.ne_empty, fun _ => ?_⟩
      exact ⟨I.lo, I.hi, I.isLeast, I.isGreatest, rfl⟩

end UnityLua
