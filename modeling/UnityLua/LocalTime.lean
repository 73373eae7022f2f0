import Mathlib.Data.Int.ConditionallyCompleteOrder
import Mathlib.Data.Rat.Floor

/-!
# Local days

`lib.lua` splits local times, in seconds, into days and times of day, by `math.floor` and by
`math.fmod`, and groups days into weeks. `Lib.GetLocalWeek` calls `GetLocalDay` by a global name;
but `lib.lua` makes fields of a local table of its functions, and there is no such global.
`GetGMTSec` is a global.

The numbers that divisions give are rational, not rounded.

## Main results

* `getLocalDayTime_fits_iff`: exactly for which times the day and the time of day are those of
  one clock.
* `getLocalWeek_error`: there is no week of any time.
* `not_localTimeFits`: the three functions do not fit together for any time.
-/

namespace UnityLua

/-- The error of a call of a global that is `nil`. -/
inductive TimeError
  | callNil (global : String)

/-- What the operating system knows: `os.time`, and `os.time` of the table that
`os.date("!*t")` gives for it. -/
structure SystemTime where
  nTime : ℤ
  nUtcTime : ℤ

/-- `GetGMTSec`, with the global `_nGMTSec` as it is before and is left. -/
def getGMTSec (os : SystemTime) (nGMTSec : Option ℤ) : ℤ × Option ℤ :=
  match nGMTSec with
  | none => (os.nTime - os.nUtcTime, some (os.nTime - os.nUtcTime))
  | some n => (n, some n)

/-- Once called, `GetGMTSec` returns the same whatever the time is. -/
theorem getGMTSec_again (os os' : SystemTime) (nGMTSec : Option ℤ) :
    getGMTSec os' (getGMTSec os nGMTSec).2 = getGMTSec os nGMTSec := by
  rcases nGMTSec with - | n <;> rfl

section Source

variable (os : SystemTime) (nGMTSec : Option ℤ)

/-- The local time, in seconds. -/
def localSec (nUtcSec : Option ℤ) : ℤ := nUtcSec.getD os.nTime + (getGMTSec os nGMTSec).1

/-- `Lib.GetLocalDayTime`. -/
def getLocalDayTime (nUtcSec : Option ℤ) : ℤ := (localSec os nGMTSec nUtcSec).tmod (3600 * 24)

/-- `Lib.GetLocalDay`. -/
def getLocalDay (nUtcSec : Option ℤ) : ℤ := ⌊(localSec os nGMTSec nUtcSec : ℚ) / (3600 * 24)⌋

/-- The global that `Lib.GetLocalWeek` calls. -/
structure TimeGlobals where
  GetLocalDay : Option (Option ℤ → ℤ)

/-- Where `lib.lua` is loaded there is no global of this name. -/
def TimeGlobals.loaded : TimeGlobals := ⟨none⟩

/-- `Lib.GetLocalWeek`. -/
def getLocalWeek (g : TimeGlobals) (nUtcSec : Option ℤ) : Except TimeError ℤ :=
  match g.GetLocalDay with
  | none => .error (.callNil "GetLocalDay")
  | some f =>
      let nLocalDay := f nUtcSec
      .ok ⌊((nLocalDay : ℚ) + 3) / 7⌋

end Source

variable (os : SystemTime) (nGMTSec : Option ℤ)

theorem localSec_some (nUtcSec : ℤ) :
    localSec os nGMTSec (some nUtcSec) = nUtcSec + (getGMTSec os nGMTSec).1 := rfl

/-- The day, by integer division. -/
theorem getLocalDay_eq (nUtcSec : Option ℤ) :
    getLocalDay os nGMTSec nUtcSec = localSec os nGMTSec nUtcSec / 86400 := by
  have h := Rat.floor_intCast_div_natCast (localSec os nGMTSec nUtcSec) 86400
  rw [getLocalDay, show (3600 * 24 : ℚ) = ((86400 : ℕ) : ℚ) by norm_num, h]
  rfl

/-- The days follow the times. -/
theorem getLocalDay_mono {n m : ℤ} (h : n ≤ m) :
    getLocalDay os nGMTSec (some n) ≤ getLocalDay os nGMTSec (some m) := by
  rw [getLocalDay_eq, getLocalDay_eq, localSec_some, localSec_some]
  omega

/-- The time of day, which `math.fmod` makes negative before the epoch, midnight apart. -/
theorem getLocalDayTime_eq (nUtcSec : Option ℤ) :
    getLocalDayTime os nGMTSec nUtcSec =
      if 0 ≤ localSec os nGMTSec nUtcSec ∨ 86400 ∣ localSec os nGMTSec nUtcSec then
        localSec os nGMTSec nUtcSec % 86400
      else localSec os nGMTSec nUtcSec % 86400 - 86400 := by
  have h : getLocalDayTime os nGMTSec nUtcSec = (localSec os nGMTSec nUtcSec).tmod 86400 := rfl
  rw [h, Int.tmod_eq_emod]
  by_cases hpos : 0 ≤ localSec os nGMTSec nUtcSec ∨ 86400 ∣ localSec os nGMTSec nUtcSec
  · rw [if_pos hpos, if_pos hpos]
    exact sub_zero _
  · rw [if_neg hpos, if_neg hpos]
    rfl

/-- The day and the time of day split a local time. -/
def DaySplits (nUtcSec : ℤ) : Prop :=
  86400 * getLocalDay os nGMTSec (some nUtcSec) + getLocalDayTime os nGMTSec (some nUtcSec) =
      nUtcSec + (getGMTSec os nGMTSec).1 ∧
    0 ≤ getLocalDayTime os nGMTSec (some nUtcSec) ∧
    getLocalDayTime os nGMTSec (some nUtcSec) < 86400

/-- They do so exactly from the epoch on and at midnight. -/
theorem daySplits_iff (nUtcSec : ℤ) :
    DaySplits os nGMTSec nUtcSec ↔
      0 ≤ nUtcSec + (getGMTSec os nGMTSec).1 ∨ 86400 ∣ nUtcSec + (getGMTSec os nGMTSec).1 := by
  rw [DaySplits, getLocalDay_eq, getLocalDayTime_eq, localSec_some]
  split <;> omega

/-- The call of the global fails. -/
theorem getLocalWeek_error (nUtcSec : Option ℤ) :
    getLocalWeek .loaded nUtcSec = .error (.callNil "GetLocalDay") := rfl

/-- Were `GetLocalDay` a global, the week would be the one that starts on Monday. -/
theorem getLocalWeek_of_global (nUtcSec : Option ℤ) :
    getLocalWeek ⟨some (getLocalDay os nGMTSec)⟩ nUtcSec =
      .ok ((getLocalDay os nGMTSec nUtcSec + 3) / 7) := by
  have h := Rat.floor_intCast_div_natCast (getLocalDay os nGMTSec nUtcSec + 3) 7
  rw [Int.cast_add] at h
  exact congrArg Except.ok h

/-- The day, the time of day and the week fit together. -/
def LocalTimeFits (nUtcSec : ℤ) : Prop :=
  DaySplits os nGMTSec nUtcSec ∧
    ∃ week, getLocalWeek .loaded (some nUtcSec) = .ok week ∧
      week = ⌊((getLocalDay os nGMTSec (some nUtcSec) : ℚ) + 3) / 7⌋

/-- They fit together for no time; the split alone is right from the epoch on and at midnight, and
the day always follows the time. -/
theorem not_localTimeFits (os : SystemTime) (nGMTSec : Option ℤ) :
    (∀ nUtcSec, ¬ LocalTimeFits os nGMTSec nUtcSec) ∧
      (∀ nUtcSec, DaySplits os nGMTSec nUtcSec ↔
        0 ≤ nUtcSec + (getGMTSec os nGMTSec).1 ∨ 86400 ∣ nUtcSec + (getGMTSec os nGMTSec).1) ∧
      Monotone fun nUtcSec : ℤ => getLocalDay os nGMTSec (some nUtcSec) := by
  refine ⟨fun nUtcSec h => ?_, daySplits_iff os nGMTSec, fun _ _ h => getLocalDay_mono os nGMTSec h⟩
  obtain ⟨-, week, hweek, -⟩ := h
  rw [getLocalWeek_error] at hweek
  exact absurd hweek (by simp)

/-- Five hours west of Greenwich, at the epoch: neither a time of day nor a week. -/
theorem localTime_western_epoch :
    ¬ LocalTimeFits ⟨0, 18000⟩ none 0 ∧ ¬ DaySplits ⟨0, 18000⟩ none 0 := by
  constructor
  · rintro ⟨-, week, hweek, -⟩
    exact absurd hweek (by simp [getLocalWeek, TimeGlobals.loaded])
  · rw [daySplits_iff]
    decide

end UnityLua
