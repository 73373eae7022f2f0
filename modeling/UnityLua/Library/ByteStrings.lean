import Mathlib.Data.List.Basic

/-!
# Strings of bytes

Strings whose elements are bytes, and the substitution of single bytes by strings: what a global
substitution does whose pattern is one byte or one class of bytes.
-/

namespace Library

/-- A string of any bytes. -/
abbrev ByteString := List UInt8

/-- The bytes of a text. -/
def bytes (s : String) : ByteString := s.toUTF8.data.toList

/-- Puts `repl` for every byte of the class `p`. -/
def gsub (p : UInt8 → Bool) (repl : ByteString) (s : ByteString) : ByteString :=
  s.flatMap fun c => if p c then repl else [c]

@[simp] theorem gsub_nil (p : UInt8 → Bool) (repl : ByteString) : gsub p repl [] = [] := rfl

theorem gsub_cons (p : UInt8 → Bool) (repl : ByteString) (c : UInt8) (s : ByteString) :
    gsub p repl (c :: s) = (if p c then repl else [c]) ++ gsub p repl s := rfl

@[simp] theorem gsub_append (p : UInt8 → Bool) (repl s t : ByteString) :
    gsub p repl (s ++ t) = gsub p repl s ++ gsub p repl t := List.flatMap_append

/-- Without a byte of the class nothing changes. -/
theorem gsub_eq_self {p : UInt8 → Bool} {repl s : ByteString} (h : ∀ c ∈ s, p c = false) :
    gsub p repl s = s := by
  induction s with
  | nil => rfl
  | cons c s ih =>
      obtain ⟨hc, hs⟩ := List.forall_mem_cons.mp h
      rw [gsub_cons, hc, if_neg Bool.false_ne_true, ih hs, List.singleton_append]

/-- What holds of the replacement and of all bytes outside the class holds afterwards. -/
theorem forall_mem_gsub {p : UInt8 → Bool} {repl s : ByteString} {P : UInt8 → Prop}
    (hrepl : ∀ c ∈ repl, P c) (hs : ∀ c ∈ s, p c = false → P c) : ∀ c ∈ gsub p repl s, P c := by
  intro c hc
  obtain ⟨d, hd, hcd⟩ := List.mem_flatMap.mp hc
  split at hcd
  · exact hrepl c hcd
  · next hnot =>
      obtain rfl := List.mem_singleton.mp hcd
      exact hs c hd (Bool.not_eq_true _ ▸ hnot)

end Library
