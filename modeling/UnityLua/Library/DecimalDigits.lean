import Mathlib.Data.Nat.Digits.Defs
import UnityLua.Library.ByteStrings

/-!
# Decimal digits

Numbers written in decimal digits, and read again.
-/

namespace Library

/-- The bytes `0` to `9`. -/
def isDigit (c : UInt8) : Bool := 48 ≤ c && c ≤ 57

theorem ne_of_isDigit {c d : UInt8} (hc : isDigit c = true) (hd : isDigit d = false) : c ≠ d := by
  rintro rfl
  simp [hc] at hd

/-- The digits of a number, without leading zeros. -/
def decimal (n : ℕ) : ByteString :=
  if n = 0 then [48] else (Nat.digits 10 n).reverse.map fun d => UInt8.ofNat (48 + d)

/-- The number that digits are. -/
def readDecimal (s : ByteString) : ℕ := s.foldl (fun n c => 10 * n + (c.toNat - 48)) 0

theorem toNat_digit {d : ℕ} (h : d < 10) : (UInt8.ofNat (48 + d)).toNat = 48 + d :=
  UInt8.toNat_ofNat_of_lt' (by unfold UInt8.size; omega)

theorem decimal_ne_nil (n : ℕ) : decimal n ≠ [] := by
  unfold decimal
  split
  · exact List.cons_ne_nil _ _
  · next hn => simpa [Nat.digits_ne_nil_iff_ne_zero] using hn

theorem isDigit_decimal (n : ℕ) : ∀ c ∈ decimal n, isDigit c = true := by
  intro c hc
  unfold decimal at hc
  split at hc
  · obtain rfl := List.mem_singleton.mp hc
    rfl
  · obtain ⟨d, hd, rfl⟩ := List.mem_map.mp hc
    have hlt : d < 10 := Nat.digits_lt_base (by omega) (List.mem_reverse.mp hd)
    simp only [isDigit, Bool.and_eq_true, decide_eq_true_eq, UInt8.le_iff_toNat_le,
      toNat_digit hlt]
    exact ⟨Nat.le_add_right _ _, by simp; omega⟩

theorem exists_cons_decimal (n : ℕ) : ∃ c w, decimal n = c :: w ∧ isDigit c = true := by
  obtain ⟨c, w, hw⟩ := List.exists_cons_of_ne_nil (decimal_ne_nil n)
  exact ⟨c, w, hw, isDigit_decimal n c (by rw [hw]; exact List.mem_cons_self)⟩

/-- What is written is what is read. -/
theorem readDecimal_decimal (n : ℕ) : readDecimal (decimal n) = n := by
  unfold decimal
  split
  · next hn => exact hn.symm
  · have hfold : ∀ l : List ℕ, (∀ d ∈ l, d < 10) →
        (l.foldr (fun d n => 10 * n + ((UInt8.ofNat (48 + d)).toNat - 48)) 0) =
          Nat.ofDigits 10 l := by
      intro l hl
      induction l with
      | nil => rfl
      | cons d l ih =>
          obtain ⟨hd, hl⟩ := List.forall_mem_cons.mp hl
          rw [List.foldr_cons, ih hl, toNat_digit hd, Nat.ofDigits_cons]
          simp
          omega
    rw [readDecimal, List.foldl_map, List.foldl_reverse,
      hfold _ fun d hd => Nat.digits_lt_base (by omega) hd, Nat.ofDigits_digits]

end Library
