import Mathlib

/-!
# Whole numbers as doubles

A whole number becomes the nearest double, with ties to the even significand, and a double
becomes a whole number by dropping what is behind the point. `nearest` is the composition of
the two on the natural numbers: the upper 53 bits, rounded, in their place again.

## Main results

* `truncate_ofInt`: a whole number that becomes a finite double comes back as the nearest one.
* `truncate_ofInt_eq_iff`: it comes back as itself exactly if it is a significand of 53 bits
  times a power of two.
* `exact_of_natAbs_le`: which every number up to `2 ^ 53` is.
-/

namespace Library

open Float.Model Float.Model.UnpackedFloat

/-! ### Dropping bits -/

namespace WholeDoubles

theorem shiftRight_succ (em : ExtendedMantissa) (k : ℕ) :
    em >>> (k + 1) = (em >>> k).shiftRightOne := rfl

theorem shiftRight_mantissa (em : ExtendedMantissa) (k : ℕ) :
    (em >>> k).mantissa = em.mantissa / 2 ^ k := by
  induction k with
  | zero => exact (Nat.div_one _).symm
  | succ k ih =>
      rw [shiftRight_succ]
      change (em >>> k).mantissa / 2 = _
      rw [ih, Nat.div_div_eq_div_mul, pow_succ]

/-- Zeros leave nothing behind when they are dropped. -/
theorem shiftRight_mul (q k : ℕ) :
    (⟨q * 2 ^ k, false, false⟩ : ExtendedMantissa) >>> k = ⟨q, false, false⟩ := by
  induction k generalizing q with
  | zero => rw [pow_zero, mul_one]; rfl
  | succ k ih =>
      have hq : q * 2 ^ (k + 1) = q * 2 * 2 ^ k := by ring
      have hodd : (q * 2) % 2 = 0 := by omega
      have hhalf : q * 2 / 2 = q := by omega
      rw [hq, shiftRight_succ, ih, ExtendedMantissa.shiftRightOne]
      simp [hodd, hhalf]

theorem roundedMantissa_bounds (em : ExtendedMantissa) :
    em.mantissa ≤ em.roundedMantissa ∧ em.roundedMantissa ≤ em.mantissa + 1 := by
  obtain ⟨m, round, sticky⟩ := em
  cases round <;> cases sticky <;>
    simp only [ExtendedMantissa.roundedMantissa, ExtendedMantissa.accuracy,
      Accuracy.roundToNearestEven] <;>
    omega

/-- `a` without its lower `k` bits, rounded to the nearest, ties to even. -/
def dropBits (a k : ℕ) : ℕ :=
  ((⟨a, false, false⟩ : ExtendedMantissa) >>> k).roundedMantissa

theorem dropBits_bounds (a k : ℕ) :
    a / 2 ^ k ≤ dropBits a k ∧ dropBits a k ≤ a / 2 ^ k + 1 := by
  have h := roundedMantissa_bounds ((⟨a, false, false⟩ : ExtendedMantissa) >>> k)
  rwa [shiftRight_mantissa] at h

theorem dropBits_mul (q k : ℕ) : dropBits (q * 2 ^ k) k = q := by
  rw [dropBits, shiftRight_mul]
  rfl

theorem dropBits_mul_eq_iff (a k : ℕ) : dropBits a k * 2 ^ k = a ↔ 2 ^ k ∣ a := by
  constructor
  · intro h
    exact ⟨dropBits a k, by rw [mul_comm, h]⟩
  · rintro ⟨q, rfl⟩
    rw [mul_comm (2 ^ k) q, dropBits_mul]

end WholeDoubles

open WholeDoubles

/-! ### The nearest double -/

/-- The double nearest to `a`, as a whole number. -/
def nearest (a : ℕ) : ℕ := dropBits a (a.log2 - 52) * 2 ^ (a.log2 - 52)

/-- A significand of 53 bits times a power of two. -/
def Exact (n : ℤ) : Prop := ∃ m e : ℕ, m < 2 ^ 53 ∧ n.natAbs = m * 2 ^ e

/-- The bits that do not fit are zero. -/
theorem exact_iff_dvd (n : ℤ) : Exact n ↔ 2 ^ (n.natAbs.log2 - 52) ∣ n.natAbs := by
  constructor
  · rintro ⟨m, e, hm, ha⟩
    rw [ha]
    obtain rfl | hpos := Nat.eq_zero_or_pos m
    · simp
    · have hlog : (m * 2 ^ e).log2 < 53 + e := by
        rw [Nat.log2_lt (Nat.mul_pos hpos (Nat.two_pow_pos e)).ne', pow_add]
        exact Nat.mul_lt_mul_of_pos_right hm (Nat.two_pow_pos e)
      exact Dvd.dvd.mul_left (pow_dvd_pow 2 (by omega)) m
  · rintro ⟨m, hm⟩
    refine ⟨m, n.natAbs.log2 - 52, ?_, by rw [mul_comm, ← hm]⟩
    by_contra hlt
    have hlow : 2 ^ (n.natAbs.log2 - 52) * 2 ^ 53 ≤ n.natAbs :=
      (Nat.mul_le_mul_left _ (Nat.le_of_not_lt hlt)).trans_eq hm.symm
    have hhigh : n.natAbs < 2 ^ (n.natAbs.log2 + 1) := Nat.lt_log2_self
    rw [← pow_add] at hlow
    have := (Nat.pow_lt_pow_iff_right (by decide)).mp (lt_of_le_of_lt hlow hhigh)
    omega

theorem nearest_eq_iff (n : ℤ) : nearest n.natAbs = n.natAbs ↔ Exact n := by
  rw [nearest, dropBits_mul_eq_iff, exact_iff_dvd]

theorem exact_of_natAbs_le {n : ℤ} (h : n.natAbs ≤ 2 ^ 53) : Exact n := by
  obtain hlt | heq := Nat.lt_or_eq_of_le h
  · exact ⟨n.natAbs, 0, hlt, by rw [pow_zero, mul_one]⟩
  · exact ⟨1, 53, by decide, by rw [heq, one_mul]⟩

/-! ### There and back -/

/-- What a cast of a double to a whole number drops is behind the point. It says nothing about
a number that is not finite. -/
def truncate (x : Float.Model) : ℤ := x.unpack.toInt 0 0

namespace WholeDoubles

/-- A normal significand at an exponent in range. -/
structure Normal (m : ℕ) (e : ℤ) : Prop where
  le : 2 ^ 52 ≤ m
  lt : m < 2 ^ 53
  min_le : -1074 ≤ e
  le_max : e ≤ 971

theorem Normal.log2 {m : ℕ} {e : ℤ} (h : Normal m e) : m.log2 = 52 :=
  (Nat.log2_eq_iff (by have := h.le; omega)).mpr ⟨h.le, h.lt⟩

theorem Normal.pos {m : ℕ} {e : ℤ} (h : Normal m e) : 0 < m := by
  have := h.le
  omega

theorem unpackSign_packComponents (s : Sign) (e : BitVec 11) (m : BitVec 52) :
    unpackSign (packComponents Format.binary64 s e m) = s.toBitVec := by
  change BitVec.extractLsb' 63 1 (s.toBitVec ++ e ++ m) = s.toBitVec
  rw [BitVec.extractLsb'_append_eq_of_le (by decide),
    BitVec.extractLsb'_append_eq_of_le (by decide)]
  exact BitVec.extractLsb'_eq_self

theorem ofBitVec_toBitVec (s : Sign) : Sign.ofBitVec s.toBitVec = s := by
  cases s <;> rfl

/-- The exponent field of a normal number is neither that of the infinities nor zero. -/
theorem exponentField {b : ℕ} (hpos : 0 < b) (hlt : b < 2047) :
    (BitVec.ofNat 11 b).toNat = b ∧ BitVec.ofNat 11 b ≠ -1#11 ∧ BitVec.ofNat 11 b ≠ 0#11 := by
  have hb : (BitVec.ofNat 11 b).toNat = b := by
    rw [BitVec.toNat_ofNat, Nat.mod_eq_of_lt (by omega)]
  refine ⟨hb, ?_, ?_⟩ <;> intro heq <;> rw [heq] at hb
  · exact absurd hb (by rw [show (-1#11).toNat = 2047 by decide]; omega)
  · exact hpos.ne hb

/-- The implicit bit is put in front of the significand again. -/
theorem implicitBit {m : ℕ} (hle : 2 ^ 52 ≤ m) (hlt : m < 2 ^ 53) :
    (1#1 ++ BitVec.ofNat 52 m).toNat = m := by
  have hfield : (BitVec.ofNat 52 m).toNat = m - 2 ^ 52 := by
    rw [BitVec.toNat_ofNat]
    omega
  have hfit : (BitVec.ofNat 52 m).toNat < 2 ^ 52 := BitVec.isLt _
  rw [BitVec.toNat_append, ← Nat.shiftLeft_add_eq_or_of_lt hfit, hfield, Nat.shiftLeft_eq]
  change 1 * 2 ^ 52 + (m - 2 ^ 52) = m
  omega

/-- A normal number is unpacked as it was packed. -/
theorem unpack_pack {m : ℕ} {e : ℤ} (s : Sign) (h : Normal m e) :
    (Float.Model.pack (.finite s m e h.pos)).unpack = .finite s m e h.pos := by
  have hmin := h.min_le
  have hmax := h.le_max
  have hbias : (e + Format.binary64.exponentBias
      + Format.binary64.mantissaBitsWithoutImplicit).toNat = (e + 1075).toNat := by
    change (e + 1023 + 52).toNat = _
    omega
  obtain ⟨hfield, hinf, hzero⟩ := exponentField (b := (e + 1075).toNat) (by omega) (by omega)
  have hpack : UnpackedFloat.pack Format.binary64 (.finite s m e h.pos) =
      packComponents Format.binary64 s (BitVec.ofNat 11 (e + 1075).toNat) (BitVec.ofNat 52 m) := by
    rw [UnpackedFloat.pack]
    dsimp only
    rw [hbias, h.log2, if_neg (by omega), if_pos (by decide)]
  change UnpackedFloat.unpack Format.binary64 (UnpackedFloat.pack Format.binary64 _) = _
  rw [hpack, UnpackedFloat.unpack]
  simp only [unpackMantissa_packComponents, unpackExponent_packComponents,
    unpackSign_packComponents, ofBitVec_toBitVec, if_neg hinf, if_neg hzero]
  congr 1
  · exact implicitBit h.le h.lt
  · rw [hfield]
    change ((e + 1075).toNat : ℤ) - (1023 + 52) = e
    omega

/-! The exponent that a significand is rounded to. -/

theorem targetExponent_eq (m : ℕ) (e : ℤ) :
    Format.binary64.targetExponent (totalExponent m e) = max (m.log2 + e - 52) (-1074) := by
  change max ((m.log2 : ℤ) + 1 + e - (1 + 52)) (3 - 1024 - (1 + 52)) = _
  omega

theorem shiftToTargetExponent_eq {m : ℕ} {e : ℤ} (he : -1074 ≤ e) :
    shiftToTargetExponent Format.binary64 m e .exact =
      ((⟨m, false, false⟩ : ExtendedMantissa) >>> (m.log2 - 52), e + (m.log2 - 52 : ℕ)) := by
  have hshift : (Format.binary64.targetExponent (totalExponent m e) - e).toNat = m.log2 - 52 := by
    rw [targetExponent_eq]
    omega
  rw [shiftToTargetExponent, shiftToExponent, hshift]
  rfl

/-- After rounding there are 53 bits, or one more and then they are a power of two. -/
theorem dropBits_range {m : ℕ} (hm : 52 ≤ m.log2) :
    2 ^ 52 ≤ dropBits m (m.log2 - 52) ∧ dropBits m (m.log2 - 52) ≤ 2 ^ 53 := by
  obtain ⟨hlow, hhigh⟩ := dropBits_bounds m (m.log2 - 52)
  have hne : m ≠ 0 := by
    rintro rfl
    exact absurd hm (by decide)
  have hle : 2 ^ 52 ≤ m / 2 ^ (m.log2 - 52) := by
    rw [Nat.le_div_iff_mul_le (Nat.two_pow_pos _), ← pow_add,
      show 52 + (m.log2 - 52) = m.log2 by omega]
    exact Nat.log2_self_le hne
  have hlt : m / 2 ^ (m.log2 - 52) < 2 ^ 53 := by
    rw [Nat.div_lt_iff_lt_mul (Nat.two_pow_pos _), ← pow_add,
      show 53 + (m.log2 - 52) = m.log2 + 1 by omega]
    exact Nat.lt_log2_self
  omega

/-- A power of two that is one bit too long is halved once more. -/
theorem exists_significand {r : ℕ} (hlow : 2 ^ 52 ≤ r) (hhigh : r ≤ 2 ^ 53) :
    ∃ q j : ℕ, 2 ^ 52 ≤ q ∧ q < 2 ^ 53 ∧ j ≤ 1 ∧ r.log2 - 52 = j ∧ r = q * 2 ^ j := by
  obtain hlt | rfl := Nat.lt_or_eq_of_le hhigh
  · have hlog : r.log2 = 52 := (Nat.log2_eq_iff (by omega)).mpr ⟨hlow, hlt⟩
    exact ⟨r, 0, hlow, hlt, by decide, by rw [hlog], by rw [pow_zero, mul_one]⟩
  · exact ⟨2 ^ 52, 1, le_rfl, by decide, le_rfl, by rw [Nat.log2_two_pow], by decide⟩

/-- The end of rounding. -/
def ofShifted (s : Sign) (p : ExtendedMantissa × ℤ) : UnpackedFloat :=
  if h : p.1.mantissa = 0 then .zero s
  else .finite s p.1.mantissa p.2 (Nat.pos_of_ne_zero h)

theorem roundWithAccuracy_def (s : Sign) (m : ℕ) (e : ℤ) (accuracy : Accuracy) :
    roundWithAccuracy Format.binary64 s m e accuracy =
      ofShifted s (shiftToTargetExponent Format.binary64
        (shiftToTargetExponent Format.binary64 m e accuracy).1.roundedMantissa
        (shiftToTargetExponent Format.binary64 m e accuracy).2 .exact) := rfl

theorem roundWithAccuracy_eq {m : ℕ} {e : ℤ} (s : Sign) (hm : 52 ≤ m.log2) (he : -1074 ≤ e) :
    ∃ q j : ℕ, 2 ^ 52 ≤ q ∧ q < 2 ^ 53 ∧ j ≤ 1 ∧ dropBits m (m.log2 - 52) = q * 2 ^ j ∧
      ∃ hq, roundWithAccuracy Format.binary64 s m e .exact =
        .finite s q (e + (m.log2 - 52 : ℕ) + j) hq := by
  obtain ⟨hlow, hhigh⟩ := dropBits_range hm
  obtain ⟨q, j, hle, hlt, hj, hlog, hr⟩ := exists_significand hlow hhigh
  have hq : 0 < q := by omega
  refine ⟨q, j, hle, hlt, hj, hr, hq, ?_⟩
  rw [roundWithAccuracy_def, shiftToTargetExponent_eq he]
  change ofShifted s (shiftToTargetExponent Format.binary64 (dropBits m (m.log2 - 52)) _ _) = _
  rw [shiftToTargetExponent_eq (by omega), hlog, hr, shiftRight_mul, ofShifted, dif_neg hq.ne']

theorem log2_mul_two_pow {a : ℕ} (k : ℕ) (ha : 0 < a) : (a * 2 ^ k).log2 = a.log2 + k := by
  have hpos := Nat.mul_pos ha (Nat.two_pow_pos k)
  refine (Nat.log2_eq_iff hpos.ne').mpr ⟨?_, ?_⟩
  · rw [pow_add]
    exact Nat.mul_le_mul_right _ (Nat.log2_self_le ha.ne')
  · rw [show a.log2 + k + 1 = a.log2 + 1 + k by omega, pow_add]
    exact Nat.mul_lt_mul_of_pos_right Nat.lt_log2_self (Nat.two_pow_pos k)

/-- A positive number is shifted up to 53 bits, if it has less, and rounded. -/
theorem round_def {a : ℕ} (s : Sign) :
    UnpackedFloat.round Format.binary64 s a 0 =
      roundWithAccuracy Format.binary64 s (a * 2 ^ (52 - a.log2)) (0 - (52 - a.log2 : ℕ))
        .exact := by
  have hshift : (0 - Format.binary64.targetExponent (totalExponent a 0)).toNat = 52 - a.log2 := by
    rw [targetExponent_eq]
    omega
  rw [UnpackedFloat.round, decreaseExponent, hshift, Nat.shiftLeft_eq]

theorem nearest_of_small {a : ℕ} (h : a.log2 ≤ 52) : nearest a = a := by
  rw [nearest, Nat.sub_eq_zero_of_le h, dropBits_mul_eq_iff, pow_zero]
  exact one_dvd a

theorem round_eq {a : ℕ} (s : Sign) (ha : 0 < a) :
    ∃ q : ℕ, ∃ e : ℤ, 2 ^ 52 ≤ q ∧ q < 2 ^ 53 ∧ -52 ≤ e ∧ e ≤ a.log2 - 51 ∧
      q * 2 ^ e.toNat / 2 ^ (-e).toNat = nearest a ∧
      ∃ hq, UnpackedFloat.round Format.binary64 s a 0 = .finite s q e hq := by
  have hlog := log2_mul_two_pow (52 - a.log2) ha
  obtain ⟨q, j, hle, hlt, hj, hr, hq, hround⟩ :=
    roundWithAccuracy_eq (m := a * 2 ^ (52 - a.log2)) (e := 0 - (52 - a.log2 : ℕ)) s
      (by omega) (by omega)
  rw [← round_def, hlog] at hround
  rw [hlog] at hr
  refine ⟨q, _, hle, hlt, by omega, by omega, ?_, hq, hround⟩
  obtain hsmall | hlarge := le_or_gt a.log2 52
  · -- Nothing was dropped, so nothing was rounded up.
    have hzero : a.log2 + (52 - a.log2) - 52 = 0 := by omega
    have hm : a * 2 ^ (52 - a.log2) = q * 2 ^ j := by
      have h := dropBits_mul (a * 2 ^ (52 - a.log2)) 0
      rw [pow_zero, mul_one] at h
      rw [← hr, hzero, h]
    have hj0 : j = 0 := by
      obtain rfl | rfl := Nat.le_one_iff_eq_zero_or_eq_one.mp hj
      · rfl
      have hbound := Nat.lt_log2_self (n := a * 2 ^ (52 - a.log2))
      rw [hlog, hm, show a.log2 + (52 - a.log2) + 1 = 53 by omega] at hbound
      omega
    subst hj0
    rw [pow_zero, mul_one] at hm
    rw [hzero, nearest_of_small hsmall, ← hm]
    have hup : (0 - ((52 - a.log2 : ℕ) : ℤ) + (0 : ℕ) + (0 : ℕ)).toNat = 0 := by omega
    have hdown : (-(0 - ((52 - a.log2 : ℕ) : ℤ) + (0 : ℕ) + (0 : ℕ))).toNat = 52 - a.log2 := by
      omega
    rw [hup, hdown, pow_zero, mul_one, Nat.mul_div_cancel _ (Nat.two_pow_pos _)]
  · have hnone : 52 - a.log2 = 0 := by omega
    rw [hnone, pow_zero, mul_one, add_zero] at hr
    rw [hnone, add_zero, nearest, hr, mul_assoc, ← pow_add]
    have hup : (0 - ((0 : ℕ) : ℤ) + (a.log2 - 52 : ℕ) + j).toNat = j + (a.log2 - 52) := by omega
    have hdown : (-(0 - ((0 : ℕ) : ℤ) + (a.log2 - 52 : ℕ) + j)).toNat = 0 := by omega
    rw [hup, hdown, pow_zero, Nat.div_one]

/-- Dropping what is behind the point. -/
theorem roundToInt_eq (s : Sign) (m : ℕ) (e : ℤ) :
    roundToInt s m e = s.apply (m * 2 ^ e.toNat / 2 ^ (-e).toNat : ℕ) := by
  have hshift : (0 - (e - e.toNat)).toNat = (-e).toNat := by omega
  change s.apply ((⟨m <<< (e - 0).toNat, false, false⟩ : ExtendedMantissa) >>>
    (0 - (e - (e - 0).toNat)).toNat).mantissa = _
  rw [sub_zero, hshift, shiftRight_mantissa, Nat.shiftLeft_eq]

/-- A positive number with a sign, there and back. -/
theorem unpack_pack_round {a : ℕ} (s : Sign) (ha : 0 < a) (hlog : a.log2 < 1023) :
    (Float.Model.pack (UnpackedFloat.round Format.binary64 s a 0)).isFinite = true ∧
      truncate (Float.Model.pack (UnpackedFloat.round Format.binary64 s a 0)) =
        s.apply (nearest a) := by
  obtain ⟨q, e, hle, hq, hlow, hhigh, hvalue, hpos, hround⟩ := round_eq s ha
  have hunpack := unpack_pack s (Normal.mk hle hq (by omega) (by omega) : Normal q e)
  rw [hround, truncate, Float.Model.isFinite, hunpack]
  refine ⟨rfl, ?_⟩
  change roundToInt s q e = _
  rw [roundToInt_eq, hvalue]

end WholeDoubles

/-- A whole number that is not too large becomes a finite double, and comes back as the nearest
one. -/
theorem truncate_ofInt {n : ℤ} (h : n.natAbs.log2 < 1023) :
    (Float.Model.ofInt n).isFinite = true ∧
      truncate (Float.Model.ofInt n) = n.sign * nearest n.natAbs := by
  rw [Float.Model.ofInt, UnpackedFloat.ofInt, UnpackedFloat.normalize]
  obtain hneg | rfl | hpos := lt_trichotomy n 0
  · rw [Int.compare_eq_lt.mpr hneg, Int.sign_eq_neg_one_of_neg hneg,
      show (-n).toNat = n.natAbs by omega, neg_one_mul]
    exact unpack_pack_round .negative (by omega) h
  · exact ⟨rfl, rfl⟩
  · rw [Int.compare_eq_gt.mpr hpos, Int.sign_eq_one_of_pos hpos,
      show n.toNat = n.natAbs by omega, one_mul]
    exact unpack_pack_round .positive (by omega) h

theorem truncate_ofInt_eq_iff {n : ℤ} (h : n.natAbs.log2 < 1023) :
    truncate (Float.Model.ofInt n) = n ↔ Exact n := by
  rw [(truncate_ofInt h).2, ← nearest_eq_iff]
  constructor
  · intro heq
    obtain rfl | hne := eq_or_ne n 0
    · rfl
    have habs := congrArg Int.natAbs heq
    rwa [Int.natAbs_mul, Int.natAbs_sign_of_ne_zero hne, one_mul, Int.natAbs_natCast] at habs
  · intro heq
    rw [heq]
    exact Int.sign_mul_natAbs n

/-- Only a number that is not one differs from itself. -/
theorem beq_self (x : Float.Model) : (x == x) = !x.isNaN := by
  change UnpackedFloat.beq x.unpack x.unpack = !x.unpack.isNaN
  rcases x.unpack with s | _ | s | ⟨s, m, e, hm⟩
  · cases s <;> rfl
  · rfl
  · rfl
  · cases s <;> simp [UnpackedFloat.beq, UnpackedFloat.compare, UnpackedFloat.isNaN]

end Library
