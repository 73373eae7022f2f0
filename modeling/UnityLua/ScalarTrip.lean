import Mathlib.Data.List.TakeWhile
import UnityLua.Library.WholeDoubles
import UnityLua.LuaDelegate

/-!
# Scalars there and back

A scalar of C# is pushed by `ObjectTranslator.push` and read from the top of the stack by
`getAsType` for its own type. The numbers go through a double, and what a cast of a double out
of the range of its type gives is left to the runtime, so the results are about every cast that
drops what is behind the point where that is in range. The strings are handed over as C
strings, in UTF-8.

## Main results

* `utf8_cString`: cutting a string at the first NUL is cutting its bytes at the first zero.
* `survives_iff_representable`: which scalars come back as themselves.
* `survives_fails`: a `long` that does not, and a string.
-/

namespace UnityLua

open Library LuaLib

/-! ### Scalars -/

def IntegralType.MinValue : IntegralType → ℤ
  | .sbyte => -2 ^ 7
  | .short => -2 ^ 15
  | .int => -2 ^ 31
  | .long => -2 ^ 63
  | .byte | .ushort | .uint | .ulong | .char => 0

def IntegralType.MaxValue : IntegralType → ℤ
  | .sbyte => 2 ^ 7 - 1
  | .byte => 2 ^ 8 - 1
  | .short => 2 ^ 15 - 1
  | .ushort | .char => 2 ^ 16 - 1
  | .int => 2 ^ 31 - 1
  | .uint => 2 ^ 32 - 1
  | .long => 2 ^ 63 - 1
  | .ulong => 2 ^ 64 - 1

def IntegralType.InRange (t : IntegralType) (n : ℤ) : Prop := t.MinValue ≤ n ∧ n ≤ t.MaxValue

/-- A value of a scalar type. -/
inductive Scalar
  | bool (b : Bool)
  | integral (t : IntegralType) (n : ℤ) (h : t.InRange n)
  | string (s : String)

namespace Scalar

def type : Scalar → ClrType
  | .bool _ => .bool
  | .integral t _ _ => .integral t
  | .string _ => .string

variable {Obj : Type}

def value : Scalar → ClrValue Float.Model Obj
  | .bool b => .bool b
  | .integral t n _ => .integral t n
  | .string s => .string s

/-- Every number up to 32 bits is a double. Of the longer ones those are that have 53 bits and
zeros behind them. -/
def Representable : Scalar → Prop
  | .integral .long n _ | .integral .ulong n _ => Exact n
  | _ => True

def NoNul : Scalar → Prop
  | .string s => '\x00' ∉ s.toList
  | _ => True

end Scalar

/-! ### The trip -/

/-- The casts of a double. -/
abbrev Casts := IntegralType → Float.Model → ℤ

/-- A cast drops what is behind the point, where the type has room for the rest. -/
def Truncates (cast : Casts) : Prop :=
  ∀ t x, x.isFinite = true → t.InRange (truncate x) → cast t x = truncate x

variable {Obj W : Type}

/-- A Lua state whose numbers are doubles, which the runtime casts in this way. -/
def Vm.withCasts (vm : Vm Float.Model Obj W) (cast : Casts) : Vm Float.Model Obj W :=
  { vm with
    ofInt := Float.Model.ofInt
    env := fun w => { vm.env w with toIntegral := cast } }

/-- Pushes a value and reads the top of the stack as this type. -/
def trip (vm : Vm Float.Model Obj W) (v : Option (ClrValue Float.Model Obj)) (type : ClrType) :
    LuaM Float.Model Obj W (Option (ClrValue Float.Model Obj)) := do
  LuaState.push vm v
  let top ← LuaGetTop
  LuaState.getAsType vm top type

/-- The scalar comes back as itself. -/
def Survives (vm : Vm Float.Model Obj W) (m : Machine Float.Model W) (v : Scalar) : Prop :=
  (trip vm (some v.value) v.type m).1 = .ok (some v.value)

/-! ### C strings -/

/-- Only NUL has a zero among its bytes. -/
theorem ne_zero_of_mem_utf8EncodeChar {c : Char} (hc : c ≠ '\x00') {b : UInt8}
    (hb : b ∈ String.utf8EncodeChar c) : b ≠ 0 := by
  have hval : c.val.toNat ≠ 0 := fun h => hc (Char.ext (UInt32.toNat_inj.mp h))
  rintro rfl
  simp only [String.utf8EncodeChar] at hb
  split_ifs at hb <;>
    simp only [List.mem_cons, List.not_mem_nil, or_false, ← UInt8.toNat_inj, UInt8.toNat_ofNat',
      UInt8.toNat_zero] at hb <;>
    omega

/-- What C reads of a string are its bytes up to the first zero. -/
theorem utf8_cString (s : String) :
    (cString s).toList.flatMap String.utf8EncodeChar =
      (s.toList.flatMap String.utf8EncodeChar).takeWhile (· ≠ 0) := by
  rw [cString, String.toList_ofList]
  induction s.toList with
  | nil => rfl
  | cons c cs ih =>
      by_cases hc : c = '\x00'
      · subst hc
        rfl
      · rw [List.takeWhile_cons_of_pos (by simpa using hc), List.flatMap_cons, List.flatMap_cons,
          List.takeWhile_append_of_pos, ih]
        intro b hb
        simpa using ne_zero_of_mem_utf8EncodeChar hc hb

theorem cString_eq_iff (s : String) : cString s = s ↔ '\x00' ∉ s.toList := by
  rw [← String.toList_inj, cString, String.toList_ofList, List.takeWhile_eq_self_iff]
  constructor
  · intro h hmem
    simpa using h _ hmem
  · intro h c hc
    rw [decide_eq_true_eq]
    rintro rfl
    exact h hc

/-! ### The conversions -/

section Conversions

variable (vm : Vm Float.Model Obj W) (env : LuaEnv Float.Model Obj)

theorem getAsType_bool (b : Bool) :
    (getAsType env (.boolean b) .bool).1 = .ok (some (.bool b)) := rfl

theorem getAsType_integral (t : IntegralType) (x : Float.Model) :
    (getAsType env (.number x) (.integral t)).1 = .ok (some (.integral t (env.toIntegral t x))) := by
  have hcheck : CheckLuaType env (.number x) (.integral t) = .ok (some (.getAsIntegral t)) := rfl
  rw [getAsType, hcheck]
  change (nullUnlessNumber env (.number x) _ _).1 = _
  rw [nullUnlessNumber, if_neg (fun h => Bool.noConfusion h.2)]
  rfl

/-- A string is read in the same way whether or not it looks like a number. -/
theorem getAsType_string (s : String) :
    (getAsType env (.string s) .string).1 = .ok (some (.string s)) := by
  have hcheck : CheckLuaType env (.string s) .string = .ok (some .getAsString) := by
    change (if env.isNumber (.string s) then _ else checkOtherType env (.string s) .string) = _
    split <;> rfl
  rw [getAsType, hcheck]
  rfl

/-- The trip of a value that is pushed without looking anything up. -/
theorem trip_eq {v : Option (ClrValue Float.Model Obj)} {x : LuaValue Float.Model}
    (hpush : LuaState.push vm v = LuaLib.push x) (type : ClrType)
    (m : Machine Float.Model W) :
    (trip vm v type m).1 = (getAsType (vm.env m.world) x type).1.mapError .clr := by
  have happly := getAsType_apply vm [] m.stack m.callee x m.world type
  rw [trip, hpush]
  change (LuaState.getAsType vm (m.stack.length + 1) type ⟨m.callee, x :: m.stack, m.world⟩).1 = _
  rw [List.nil_append] at happly
  rw [happly]
  obtain ⟨e | c, slot⟩ := getAsType (vm.env m.world) x type <;> rfl

end Conversions

/-! ### What comes back -/

section Survival

variable (vm : Vm Float.Model Obj W) (m : Machine Float.Model W)

theorem survives_bool (b : Bool) : Survives vm m (.bool b) := by
  rw [Survives, trip_eq vm (x := .boolean b) rfl, Scalar.type, getAsType_bool]
  rfl

theorem survives_string_iff (s : String) : Survives vm m (.string s) ↔ '\x00' ∉ s.toList := by
  rw [Survives, trip_eq vm (x := .string (cString s)) rfl, Scalar.type, getAsType_string,
    ← cString_eq_iff]
  constructor
  · intro h
    injection h with h
    injection h with h
    injection h
  · intro h
    rw [h]
    rfl

theorem survives_integral_iff (cast : Casts) {t : IntegralType} {n : ℤ} (h : t.InRange n) :
    Survives (vm.withCasts cast) m (.integral t n h) ↔ cast t (Float.Model.ofInt n) = n := by
  rw [Survives, trip_eq _ (x := .number (Float.Model.ofInt n)) rfl, Scalar.type,
    getAsType_integral]
  constructor
  · intro h
    injection h with h
    injection h with h
    injection h
  · intro h
    exact congrArg (fun k => Except.ok (some (ClrValue.integral t k))) h

instance (t : IntegralType) (n : ℤ) : Decidable (t.InRange n) :=
  inferInstanceAs (Decidable (_ ∧ _))

theorem IntegralType.InRange.log2_lt {t : IntegralType} {n : ℤ} (h : t.InRange n) :
    n.natAbs.log2 < 1023 := by
  have hlt : n.natAbs < 2 ^ 64 := by
    obtain ⟨hmin, hmax⟩ := h
    cases t <;> simp only [IntegralType.MinValue, IntegralType.MaxValue] at hmin hmax <;> omega
  obtain hzero | hne := eq_or_ne n.natAbs 0
  · rw [hzero]
    decide
  · have := (Nat.log2_lt hne).mpr hlt
    omega

/-- Whatever the runtime makes of a double out of range: a number comes back exactly if it is
one. -/
theorem forall_cast_iff_exact {t : IntegralType} {n : ℤ} (h : t.InRange n) :
    (∀ cast, Truncates cast → cast t (Float.Model.ofInt n) = n) ↔ Exact n := by
  rw [← truncate_ofInt_eq_iff h.log2_lt]
  constructor
  · intro hall
    by_contra hne
    -- a cast that misses `n` wherever it may
    let cast : Casts := fun t x => if t.InRange (truncate x) then truncate x else n + 1
    have hcast := hall cast fun t x _ hx => if_pos hx
    simp only [cast] at hcast
    split at hcast
    · exact hne hcast
    · omega
  · intro heq cast hcast
    rw [hcast t _ (truncate_ofInt h.log2_lt).1 (heq.symm ▸ h), heq]

/-- The shorter types have no number that is not a double. -/
theorem representable_integral_iff {t : IntegralType} {n : ℤ} (h : t.InRange n) :
    (Scalar.integral t n h).Representable ↔ Exact n := by
  have hexact : t ≠ .long → t ≠ .ulong → Exact n := by
    intro hlong hulong
    apply exact_of_natAbs_le
    obtain ⟨hmin, hmax⟩ := h
    cases t <;> simp only [IntegralType.MinValue, IntegralType.MaxValue] at hmin hmax <;>
      first | omega | contradiction
  cases t with
  | long => exact Iff.rfl
  | ulong => exact Iff.rfl
  | _ => exact iff_of_true trivial (hexact nofun nofun)

/-- **What survives the trip.** A scalar without a NUL comes back as itself, from every state of
Lua and whatever the runtime makes of casts out of range, exactly if it is representable: all
that is not a `long` or a `ulong`, and of these the numbers with 53 bits and zeros behind
them. -/
theorem survives_iff_representable {v : Scalar} (hv : v.NoNul) :
    (∀ cast, Truncates cast → Survives (vm.withCasts cast) m v) ↔ v.Representable := by
  cases v with
  | bool b => exact iff_of_true (fun _ _ => survives_bool _ m b) trivial
  | integral t n h =>
      rw [representable_integral_iff, ← forall_cast_iff_exact h]
      exact forall₂_congr fun cast _ => survives_integral_iff vm m cast h
  | string s => exact iff_of_true (fun _ _ => (survives_string_iff _ m s).mpr hv) trivial

end Survival

/-! ### A number that is not a double -/

theorem survives_iff_representable_abc :
    Survives ((default : Vm Float.Model ℕ Unit).withCasts fun _ => truncate) default
      (.string "abc") :=
  (survives_iff_representable default default (v := .string "abc")
    (by simp [Scalar.NoNul])).mpr trivial _ fun _ _ _ _ => rfl

/-- The `long` `2 ^ 53 + 1` comes back as `2 ^ 53`. -/
theorem survives_fails :
    ¬ ∀ (cast : Casts) (v : Scalar), Truncates cast →
      Survives ((default : Vm Float.Model ℕ Unit).withCasts cast) default v := by
  intro h
  have hrange : IntegralType.long.InRange (2 ^ 53 + 1) := by decide
  have hback := (survives_integral_iff default default _ hrange).mp
    (h (fun _ x => truncate x) (.integral .long _ hrange) fun _ _ _ _ => rfl)
  exact absurd hback (by decide +kernel)

end UnityLua
