import Mathlib.Data.String.Basic

/-!
# Splitting a string at a character

`String.splitOn` with a separator of one character, in terms of the characters of the string.

## Main results

* `splitOn_singleton`: it splits the list of characters.
* `splitOn_singleton_of_length`: a string that is not cut is its only part.
-/

namespace Library

/-- The loop of `String.splitOn` is the one that looks for the character. -/
theorem splitOnAux_singleton (c : Char) (s : String) (b i : String.Pos.Raw) (r : List String) :
    s.splitOnAux (String.singleton c) b i 0 r = s.splitAux (· == c) b i r := by
  have hget : String.Pos.Raw.get (String.singleton c) 0 = c := by
    simpa using String.get_of_valid [] [c]
  have hnext : String.Pos.Raw.next (String.singleton c) 0 = ⟨c.utf8Size⟩ := by
    simpa using String.next_of_valid [] c []
  have hend' : String.Pos.Raw.atEnd (String.singleton c) ⟨c.utf8Size⟩ = true := by
    simp [String.Pos.Raw.atEnd]
  fun_induction String.splitAux s (· == c) b i r with
  | case1 b i r hend => rw [String.splitOnAux, if_pos hend]
  | case2 b i r hend _ hchar j ih =>
      have hi : (String.Pos.Raw.next s i).unoffsetBy ⟨c.utf8Size⟩ = i := by
        have hc : String.Pos.Raw.get s i = c := by simpa using hchar
        rw [String.Pos.Raw.next, hc]
        ext
        simp
      rw [String.splitOnAux, if_neg hend, hget, if_pos hchar, hnext]
      dsimp only
      rw [if_pos hend', hi]
      exact ih
  | case3 b i r hend _ hchar ih =>
      have hi : i.unoffsetBy 0 = i := by
        ext
        simp
      rw [String.splitOnAux, if_neg hend, hget, if_neg hchar, hi]
      exact ih

theorem splitOn_singleton (c : Char) (s : String) :
    s.splitOn (String.singleton c) = (s.toList.splitOn c).map String.ofList := by
  have hne : (String.singleton c == "") = false := by simp
  rw [List.splitOn_eq_splitOnP, ← String.splitToList_of_valid, String.splitToList,
    String.splitOn, hne]
  exact splitOnAux_singleton c s 0 0 []

theorem splitOn_singleton_ne_nil (c : Char) (s : String) :
    s.splitOn (String.singleton c) ≠ [] := by
  rw [splitOn_singleton, ne_eq, List.map_eq_nil_iff]
  exact List.splitOn_ne_nil c s.toList

/-- A string without the separator is not cut. -/
theorem splitOn_singleton_of_length {c : Char} {s : String}
    (h : (s.splitOn (String.singleton c)).length = 1) :
    s.splitOn (String.singleton c) = [s] := by
  rw [splitOn_singleton] at h ⊢
  rw [List.length_map, List.length_eq_one_iff] at h
  obtain ⟨l, hl⟩ := h
  have hjoined : [c].intercalate (s.toList.splitOn c) = s.toList := List.intercalate_splitOn c
  rw [hl] at hjoined ⊢
  have hl' : l = s.toList := by simpa using hjoined
  rw [hl', List.map_singleton, String.ofList_toList]

end Library
