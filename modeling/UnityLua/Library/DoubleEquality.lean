import UnityLua.Library.WholeDoubles

/-!
# Equality of doubles

Doubles that are equal as numbers are the same double, but for the two zeros.

## Main results

* `unpack_injective`: what is unpacked determines a double.
* `beq_iff`: when two doubles are equal.
-/

namespace Library

open Float.Model Float.Model.UnpackedFloat

namespace DoubleEquality

/-- The three fields are all that there is. -/
theorem packComponents_fields (b : BitVec Format.binary64.numBits) :
    packComponents Format.binary64 (Sign.ofBitVec (unpackSign b)) (unpackExponent b)
      (unpackMantissa b) = b := by
  have hsign : ∀ s : BitVec 1, (Sign.ofBitVec s).toBitVec = s := by decide
  rw [packComponents, hsign]
  simp only [unpackSign, unpackExponent, unpackMantissa, BitVec.extractLsb]
  ext i hi
  grind

theorem toNat_implicitBit (m : BitVec 52) : (1#1 ++ m).toNat = 2 ^ 52 + m.toNat := by
  rw [BitVec.toNat_append, ← Nat.shiftLeft_add_eq_or_of_lt m.isLt, Nat.shiftLeft_eq]
  rfl

/-- What the three fields stand for. -/
def ofFields (s : Sign) (e : BitVec 11) (m : BitVec 52) : UnpackedFloat :=
  if e = -1#11 then if m = 0#52 then .infinity s else .notANumber
  else if e = 0#11 then
    if h : m = 0#52 then .zero s
    else .finite s m.toNat ((e.toNat : ℤ) - (1023 + 52) + 1)
      (by simpa [BitVec.toNat_pos, BitVec.pos_iff_ne_zero])
  else .finite s (1#1 ++ m).toNat ((e.toNat : ℤ) - (1023 + 52))
    (by rw [toNat_implicitBit]; omega)

theorem unpack_eq_ofFields (b : BitVec Format.binary64.numBits) :
    UnpackedFloat.unpack Format.binary64 b =
      ofFields (Sign.ofBitVec (unpackSign b)) (unpackExponent b) (unpackMantissa b) := rfl

theorem ofFields_cases (s : Sign) (e : BitVec 11) (m : BitVec 52) :
    (e = -1#11 ∧ m ≠ 0#52 ∧ ofFields s e m = .notANumber) ∨
      (e = -1#11 ∧ m = 0#52 ∧ ofFields s e m = .infinity s) ∨
      (e = 0#11 ∧ m = 0#52 ∧ ofFields s e m = .zero s) ∨
      (e = 0#11 ∧ ∃ h, ofFields s e m = .finite s m.toNat (-1074) h) ∨
      ∃ h, ofFields s e m = .finite s (2 ^ 52 + m.toNat) ((e.toNat : ℤ) - 1075) h := by
  rw [ofFields]
  split
  · next he =>
      split
      · next hm => exact Or.inr (Or.inl ⟨he, hm, rfl⟩)
      · next hm => exact Or.inl ⟨he, hm, rfl⟩
  · split
    · next he =>
        split
        · next hm => exact Or.inr (Or.inr (Or.inl ⟨he, hm, rfl⟩))
        · next hm =>
            have hpos : 0 < m.toNat := by simpa [BitVec.toNat_pos, BitVec.pos_iff_ne_zero] using hm
            subst he
            exact Or.inr (Or.inr (Or.inr (Or.inl ⟨rfl, hpos, rfl⟩)))
    · simp only [toNat_implicitBit]
      exact Or.inr (Or.inr (Or.inr (Or.inr ⟨by omega, by congr 1⟩)))

/-- The fields of a number are determined by it: a significand without the implicit bit is
smaller than one with it. -/
theorem ofFields_injective {s s' : Sign} {e e' : BitVec 11} {m m' : BitVec 52}
    (hnan : ofFields s e m ≠ .notANumber) (h : ofFields s e m = ofFields s' e' m') :
    s = s' ∧ e = e' ∧ m = m' := by
  have hm := m.isLt
  have hm' := m'.isLt
  have hinj : ∀ {n : ℕ} {a b : BitVec n}, a.toNat = b.toNat → a = b := BitVec.eq_of_toNat_eq
  obtain ⟨-, -, hv⟩ | ⟨he, hmz, hv⟩ | ⟨he, hmz, hv⟩ | ⟨he, _, hv⟩ | ⟨_, hv⟩ :=
    ofFields_cases s e m
  · exact absurd hv hnan
  all_goals
    obtain ⟨-, -, hv'⟩ | ⟨he', hmz', hv'⟩ | ⟨he', hmz', hv'⟩ | ⟨he', _, hv'⟩ | ⟨_, hv'⟩ :=
      ofFields_cases s' e' m'
    all_goals rw [hv, hv'] at h
  -- what is left are the pairs of the same kind, and those of a small and a normal number
  any_goals cases h
  case inr.inl.inr.inl => exact ⟨rfl, he.trans he'.symm, hmz.trans hmz'.symm⟩
  case inr.inr.inl.inr.inr.inl => exact ⟨rfl, he.trans he'.symm, hmz.trans hmz'.symm⟩
  all_goals
    obtain ⟨hs, hsig, hexp⟩ := finite.inj h
  · exact ⟨hs, he.trans he'.symm, hinj hsig⟩
  · omega
  · omega
  · exact ⟨hs, hinj (by omega), hinj (by omega)⟩

/-- There is one double that is not a number. -/
theorem eq_packedNaN {b : BitVec Format.binary64.numBits} (hb : Format.binary64.Valid b)
    (h : UnpackedFloat.unpack Format.binary64 b = .notANumber) :
    b = packedNaN Format.binary64 := by
  rw [unpack_eq_ofFields] at h
  obtain ⟨he, hm, -⟩ | ⟨-, -, hv⟩ | ⟨-, -, hv⟩ | ⟨-, _, hv⟩ | ⟨_, hv⟩ :=
    ofFields_cases (Sign.ofBitVec (unpackSign b)) (unpackExponent b) (unpackMantissa b)
  · exact hb.eq_packedNaN he hm
  all_goals
    rw [hv] at h
    cases h

theorem compare_eq_eq {u v : UnpackedFloat} :
    u.compare v = some .eq ↔
      u = v ∧ u ≠ .notANumber ∨ (∃ s, u = .zero s) ∧ ∃ s, v = .zero s := by
  have hinf : ∀ s s' : Sign, compare s s' = .eq ↔ s = s' := by
    intro s s'
    cases s <;> cases s' <;> simp [compare]
  cases u with
  | notANumber => cases v <;> simp [UnpackedFloat.compare]
  | infinity s => cases s <;> cases v <;> simp [UnpackedFloat.compare, hinf]
  | zero s =>
      cases v with
      | finite s' m e hm => cases s' <;> simp [UnpackedFloat.compare]
      | infinity s' => cases s' <;> simp [UnpackedFloat.compare]
      | _ => simp [UnpackedFloat.compare]
  | finite s m e hm =>
      cases v with
      | finite s' m' e' hm' =>
          cases s <;> cases s' <;>
            simp [UnpackedFloat.compare, Ordering.then_eq_eq, and_comm]
      | infinity s' => cases s <;> cases s' <;> simp [UnpackedFloat.compare]
      | _ => cases s <;> simp [UnpackedFloat.compare]

end DoubleEquality

open DoubleEquality

/-- What is unpacked determines a double. -/
theorem unpack_injective {x y : Float.Model} (h : x.unpack = y.unpack) : x = y := by
  have hbits : x.toBits.toBitVec = y.toBits.toBitVec := by
    by_cases hnan : x.unpack = .notANumber
    · have hnan' : y.unpack = .notANumber := h ▸ hnan
      exact (eq_packedNaN x.valid hnan).trans (eq_packedNaN y.valid hnan').symm
    · obtain ⟨hs, he, hm⟩ := ofFields_injective hnan h
      have hx := packComponents_fields x.toBits.toBitVec
      rw [hs, he, hm] at hx
      exact hx.symm.trans (packComponents_fields y.toBits.toBitVec)
  obtain ⟨b, hb⟩ := x
  obtain ⟨b', hb'⟩ := y
  obtain rfl : b = b' := UInt64.toBitVec_inj.mp hbits
  rfl

theorem beq_iff_compare {x y : Float.Model} :
    (x == y) = true ↔ x.unpack.compare y.unpack = some .eq :=
  (beq_iff_eq : (x.unpack.compare y.unpack == some .eq) = true ↔ _)

theorem beq_zero_iff {x : Float.Model} : (x == .ofInt 0) = true ↔ ∃ s, x.unpack = .zero s := by
  rw [beq_iff_compare, compare_eq_eq]
  have hunpack : (Float.Model.ofInt 0).unpack = .zero .positive := rfl
  rw [hunpack]
  constructor
  · rintro (⟨h, -⟩ | ⟨h, -⟩)
    · exact ⟨_, h⟩
    · exact h
  · exact fun h => Or.inr ⟨h, _, rfl⟩

/-- Two doubles are equal when they are the same number or both zero. -/
theorem beq_iff {x y : Float.Model} :
    (x == y) = true ↔
      x = y ∧ x.isNaN = false ∨ (x == .ofInt 0) = true ∧ (y == .ofInt 0) = true := by
  rw [beq_zero_iff, beq_zero_iff, beq_iff_compare, compare_eq_eq]
  refine or_congr ?_ Iff.rfl
  have hnan : x.isNaN = false ↔ x.unpack ≠ .notANumber := by
    rw [Float.Model.isNaN]
    cases x.unpack <;> simp [UnpackedFloat.isNaN]
  rw [hnan]
  exact and_congr_left fun _ => ⟨unpack_injective, congrArg _⟩

instance partialEquivBEq : PartialEquivBEq Float.Model where
  symm {x y} h := by
    rw [beq_iff] at h ⊢
    obtain ⟨rfl, h⟩ | ⟨hx, hy⟩ := h
    · exact Or.inl ⟨rfl, h⟩
    · exact Or.inr ⟨hy, hx⟩
  trans {x y z} h h' := by
    obtain ⟨rfl, -⟩ | ⟨hx, hy⟩ := beq_iff.mp h
    · exact h'
    · obtain ⟨rfl, -⟩ | ⟨-, hz⟩ := beq_iff.mp h'
      · exact h
      · exact beq_iff.mpr (Or.inr ⟨hx, hz⟩)

/-- Equal doubles are the same whole number. -/
theorem truncate_congr {x y : Float.Model} (h : (x == y) = true) : truncate x = truncate y := by
  obtain ⟨rfl, -⟩ | ⟨hx, hy⟩ := beq_iff.mp h
  · rfl
  · obtain ⟨s, hs⟩ := beq_zero_iff.mp hx
    obtain ⟨s', hs'⟩ := beq_zero_iff.mp hy
    rw [truncate, truncate, hs, hs']
    rfl

/-- A whole number that is not too large is a double that is equal to itself. -/
theorem ofInt_beq_self {n : ℤ} (h : n.natAbs.log2 < 1023) :
    ((Float.Model.ofInt n) == .ofInt n) = true := by
  have hfinite := (truncate_ofInt h).1
  rw [beq_self, Bool.not_eq_true', Float.Model.isNaN]
  rw [Float.Model.isFinite] at hfinite
  cases hu : (Float.Model.ofInt n).unpack with
  | notANumber =>
      rw [hu] at hfinite
      cases hfinite
  | _ => rfl

end Library
