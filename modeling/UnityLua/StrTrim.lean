import UnityLua.Library.Trimming
import UnityLua.LuaPatterns

/-!
# Trimming strings

`Lib.StrTrim` pastes a character into the text of a pattern with three captures, the second of
which is what it leaves. Most characters stand for themselves there; `%`, `(`, `)`, `[`, `.` and
the zero byte do not.

## Main results

* `doMatch_trimCore`: what the middle of the pattern matches, whatever the character.
* `TrimItem.strTrim_trims`: what `StrTrim` leaves for a character that stands for itself.
* `strTrim_iff`: exactly for which strings and characters it trims.
-/

namespace UnityLua

open Library LuaText

section Source

/-- The pattern of `Lib.StrTrim`. -/
def trimPattern (szTrimChar : ByteString) : ByteString :=
  bytes "(" ++ szTrimChar ++ bytes "*)([^" ++ szTrimChar ++ bytes "]*.*[^" ++ szTrimChar ++
    bytes "])(" ++ szTrimChar ++ bytes "*)"

/-- `Lib.StrTrim`. -/
def strTrim (szDes : ByteString) (szTrimChar : Option ByteString) :
    Fueled PatternError ByteString :=
  let szTrimChar := szTrimChar.getD (bytes " ")
  if szTrimChar.length ≠ 1 then fun _ => some (.ok szDes)
  else
    (strGsub szDes (trimPattern szTrimChar) (bytes "%2") none).andThen fun r =>
      .ok (if r.2 = 0 then [] else r.1)

end Source

variable {src : ByteString} {ms : Captures} {s L : ℕ} {c : UInt8} {p : ByteString}

/-! ### The parts of the pattern -/

/-- The middle of the pattern, `[^c]*.*[^c]`. -/
abbrev trimCore (c : UInt8) (p : ByteString) : ByteString :=
  notSet c (star :: dot :: star :: notSet c p)

/-- The end of the pattern, `(c*)`. -/
abbrev trimTail (c : UInt8) : ByteString := [openParen, c, star, closeParen]

/-- A group may begin with a set. -/
theorem bracket_ne_closeParen : openBracket ≠ closeParen := by decide

theorem trimPattern_singleton (c : UInt8) :
    trimPattern [c] =
      openParen :: c :: star :: closeParen :: openParen ::
        trimCore c (closeParen :: trimTail c) := rfl

/-- A repetition that must not go beyond `L`, but may go on from there and from before. -/
theorem maxExpand_upTo {k : ℕ → MatchResult} {n : ℕ} (hs : s ≤ L)
    (hbeyond : ∀ j, L < j → k j = .ok none) (hk : k (s + min n (L - s)) ≠ .ok none) :
    maxExpand k s n = k (s + min n (L - s)) :=
  maxExpand_eq (min_le_left _ _) hk fun j hj hjn => hbeyond _ (by omega)

theorem singleton_lt_maxCaptures (cap : Capture) : [cap].length < maxCaptures := by
  rw [List.length_singleton]
  decide

/-- `[^c]` matches any other byte. -/
theorem doMatch_notSet (hc : c ≠ percent) (hp : NoSuffix p) :
    doMatch src ms s (notSet c p) =
      if src[s]?.any (fun x => decide (c ≠ x)) then doMatch src ms (s + 1) p else .ok none := by
  rw [doMatch_single beginsWithItem_set (classEnd_notSet hc) hp]
  simp only [singleMatch_notSet hc]

theorem doMatch_notSet_none (hc : c ≠ percent) (hp : NoSuffix p) (honly : OnlyFrom c src s) :
    doMatch src ms s (notSet c p) = .ok none := by
  have hany : src[s]?.any (fun x => decide (c ≠ x)) = false := by
    rw [Option.any_eq_false]
    intro x hx
    simp [honly s x (le_refl s) hx]
  rw [doMatch_notSet hc hp, hany, if_neg Bool.false_ne_true]

theorem doMatch_notSet_last (hc : c ≠ percent) (hp : NoSuffix p) (hL : LastOther c src L) :
    doMatch src ms L (notSet c p) = doMatch src ms (L + 1) p := by
  obtain ⟨x, hx, hne⟩ := hL.other
  rw [doMatch_notSet hc hp, hx, Option.any_some, if_pos (decide_eq_true hne.symm)]

/-- `.` may be repeated. -/
theorem doMatch_dotStar :
    doMatch src ms s (dot :: star :: p) =
      maxExpand (fun s => doMatch src ms s p) s (src.length - s) := by
  have hitem : BeginsWithItem dot (star :: p) :=
    ⟨by decide, by decide, fun h => absurd h (by decide), fun h => absurd h (by decide)⟩
  have hall : maxRepetitions src s (dot :: star :: p) (star :: p) = src.length - s := by
    have hsingle : ∀ x, singleMatch x (dot :: star :: p) (star :: p) = true := fun x => if_pos rfl
    rw [maxRepetitions, List.takeWhile_eq_self_iff.mpr fun x _ => hsingle x, List.length_drop]
  rw [doMatch_star hitem (classEnd_plain (by decide) (by decide)), hall]

/-- `.*[^c]` goes to the last other byte. -/
theorem doMatch_dotStar_notSet (hc : c ≠ percent) (hp : NoSuffix p) (hL : LastOther c src L)
    (hs : s ≤ L) (hend : doMatch src ms (L + 1) p ≠ .ok none) :
    doMatch src ms s (dot :: star :: notSet c p) = doMatch src ms (L + 1) p := by
  have hlt := hL.lt
  have hmin : s + min (src.length - s) (L - s) = L := by omega
  have hlast : doMatch src ms L (notSet c p) = _ := doMatch_notSet_last hc hp hL
  rw [doMatch_dotStar, maxExpand_upTo hs, hmin, hlast]
  · exact fun j hj => doMatch_notSet_none hc hp (hL.after.mono hj)
  · rw [hmin, hlast]
    exact hend

theorem doMatch_dotStar_notSet_none (hc : c ≠ percent) (hp : NoSuffix p)
    (honly : OnlyFrom c src s) :
    doMatch src ms s (dot :: star :: notSet c p) = .ok none := by
  rw [doMatch_dotStar]
  exact maxExpand_none fun j _ => doMatch_notSet_none hc hp (honly.mono (Nat.le_add_right s j))

/-- The middle of the pattern goes to the last other byte. -/
theorem doMatch_trimCore (hc : c ≠ percent) (hp : NoSuffix p) (hL : LastOther c src L)
    (hs : s ≤ L) (hend : doMatch src ms (L + 1) p ≠ .ok none) :
    doMatch src ms s (trimCore c p) = doMatch src ms (L + 1) p := by
  have hcont : ∀ j ≤ L, doMatch src ms j (dot :: star :: notSet c p) =
      doMatch src ms (L + 1) p := fun j hj => doMatch_dotStar_notSet hc hp hL hj hend
  rw [doMatch_star beginsWithItem_set (classEnd_notSet hc), maxExpand_upTo hs, hcont _ (by omega)]
  · exact fun j hj => doMatch_dotStar_notSet_none hc hp (hL.after.mono hj)
  · rw [hcont _ (by omega)]
    exact hend

/-- Without another byte the middle of the pattern matches nothing. -/
theorem doMatch_trimCore_none (hc : c ≠ percent) (hp : NoSuffix p) (honly : OnlyFrom c src s) :
    doMatch src ms s (trimCore c p) = .ok none := by
  rw [doMatch_star beginsWithItem_set (classEnd_notSet hc)]
  exact maxExpand_none fun j _ =>
    doMatch_dotStar_notSet_none hc hp (honly.mono (Nat.le_add_right s j))

/-! ### Characters that may stand before a `*` -/

/-- The character is an item by itself. -/
structure TrimItem (c : UInt8) : Prop where
  ne_zero : c ≠ 0
  ne_percent : c ≠ percent
  ne_openParen : c ≠ openParen
  ne_closeParen : c ≠ closeParen
  ne_openBracket : c ≠ openBracket

theorem TrimItem.beginsWithItem (h : TrimItem c) {x : UInt8} : BeginsWithItem c (x :: p) where
  ne_openParen := h.ne_openParen
  ne_closeParen := h.ne_closeParen
  not_escape hc := absurd hc h.ne_percent
  not_end _ := List.cons_ne_nil _ _

/-- How often the character matches from a position on. -/
def itemRepetitions (src : ByteString) (s : ℕ) (c : UInt8) : ℕ :=
  if c = dot then src.length - s else leading c (src.drop s)

theorem TrimItem.maxRepetitions_eq (h : TrimItem c) :
    maxRepetitions src s (c :: star :: p) (star :: p) = itemRepetitions src s c := by
  by_cases hdot : c = dot
  · have hsingle : ∀ x, singleMatch x (c :: star :: p) (star :: p) = true := by
      intro x
      rw [singleMatch, List.head?_cons, hdot, if_pos rfl]
    rw [maxRepetitions, List.takeWhile_eq_self_iff.mpr fun x _ => hsingle x, List.length_drop,
      itemRepetitions, if_pos hdot]
  · rw [maxRepetitions, itemRepetitions, if_neg hdot, leading]
    simp only [singleMatch_plain hdot h.ne_percent h.ne_openBracket, eq_comm]

/-- A capture of the repeated character. -/
theorem TrimItem.doMatch_group (h : TrimItem c) (hms : ms.length < maxCaptures) :
    doMatch src ms s (openParen :: c :: star :: closeParen :: p) =
      maxExpand (fun e => doMatch src (ms ++ [⟨s, .length (e - s)⟩]) e p) s
        (itemRepetitions src s c) := by
  have hitem : classEnd (c :: star :: closeParen :: p) = .ok (star :: closeParen :: p) :=
    classEnd_plain h.ne_percent h.ne_openBracket
  rw [doMatch_openParen_cons hms h.ne_closeParen, doMatch_star h.beginsWithItem hitem,
    h.maxRepetitions_eq]
  simp only [doMatch_closeParen_append]

/-- The end of the pattern matches all repetitions. -/
theorem TrimItem.doMatch_tail (h : TrimItem c) (hms : ms.length < maxCaptures) :
    doMatch src ms s (trimTail c) =
      .ok (some (s + itemRepetitions src s c,
        ms ++ [⟨s, .length (s + itemRepetitions src s c - s)⟩])) := by
  rw [h.doMatch_group hms, maxExpand_eq (le_refl _)]
  · exact doMatch_nil
  · rw [doMatch_nil]
    simp
  · exact fun j hj hjn => absurd hj (by omega)

theorem noSuffix_closeParen : NoSuffix (closeParen :: p) := by
  have hhead : (closeParen :: p).head? = some closeParen := rfl
  rw [NoSuffix, hhead]
  decide

/-- After the first capture the pattern matches, up to the last other byte and all repetitions
after it. -/
theorem TrimItem.doMatch_rest (h : TrimItem c) (hms : ms.length + 1 < maxCaptures)
    (hL : LastOther c src L) (hs : s ≤ L) :
    doMatch src ms s (openParen :: trimCore c (closeParen :: trimTail c)) =
      .ok (some (L + 1 + itemRepetitions src (L + 1) c,
        ms ++ [⟨s, .length (L + 1 - s)⟩] ++
          [⟨L + 1, .length (L + 1 + itemRepetitions src (L + 1) c - (L + 1))⟩])) := by
  have hend : doMatch src (ms ++ [⟨s, .unfinished⟩]) (L + 1) (closeParen :: trimTail c) =
      .ok (some (L + 1 + itemRepetitions src (L + 1) c,
        ms ++ [⟨s, .length (L + 1 - s)⟩] ++
          [⟨L + 1, .length (L + 1 + itemRepetitions src (L + 1) c - (L + 1))⟩])) := by
    rw [doMatch_closeParen_append, h.doMatch_tail]
    rw [List.length_append]
    exact hms
  rw [doMatch_openParen_cons (by omega) bracket_ne_closeParen,
    doMatch_trimCore h.ne_percent noSuffix_closeParen hL hs, hend]
  rw [hend]
  simp

theorem TrimItem.doMatch_rest_none (h : TrimItem c) (hms : ms.length < maxCaptures)
    (honly : OnlyFrom c src s) :
    doMatch src ms s (openParen :: trimCore c (closeParen :: trimTail c)) = .ok none := by
  rw [doMatch_openParen_cons hms bracket_ne_closeParen]
  exact doMatch_trimCore_none h.ne_percent noSuffix_closeParen honly

/-- Where the second capture begins, if the pattern is matched from `s` on. -/
def captureStart (src : ByteString) (c : UInt8) (s L : ℕ) : ℕ :=
  s + min (itemRepetitions src s c) (L - s)

/-- What the whole pattern matches. -/
theorem TrimItem.doMatch_pattern (h : TrimItem c) (hL : LastOther c src L) (hs : s ≤ L) :
    ∃ ms, doMatch src [] s (trimPattern [c]) =
        .ok (some (L + 1 + itemRepetitions src (L + 1) c, ms)) ∧
      ms[1]? = some ⟨captureStart src c s L, .length (L + 1 - captureStart src c s L)⟩ := by
  have hle : captureStart src c s L ≤ L := by
    unfold captureStart
    omega
  have hrest : doMatch src [⟨s, .length (captureStart src c s L - s)⟩] (captureStart src c s L)
      (openParen :: trimCore c (closeParen :: trimTail c)) = _ :=
    h.doMatch_rest (by rw [List.length_singleton]; decide) hL hle
  have hmatch : doMatch src [] s (trimPattern [c]) =
      doMatch src [⟨s, .length (captureStart src c s L - s)⟩] (captureStart src c s L)
        (openParen :: trimCore c (closeParen :: trimTail c)) := by
    rw [trimPattern_singleton, h.doMatch_group (by decide), maxExpand_upTo hs]
    · rfl
    · exact fun j hj => h.doMatch_rest_none (singleton_lt_maxCaptures _) (hL.after.mono hj)
    · exact fun hnone => absurd (hrest.symm.trans hnone) (by simp)
  exact ⟨_, hmatch.trans hrest, rfl⟩

/-- Without another byte it matches nothing. -/
theorem TrimItem.doMatch_pattern_none (h : TrimItem c) (honly : OnlyFrom c src s) :
    doMatch src [] s (trimPattern [c]) = .ok none := by
  rw [trimPattern_singleton, h.doMatch_group (by decide)]
  exact maxExpand_none fun j _ =>
    h.doMatch_rest_none (singleton_lt_maxCaptures _) (honly.mono (Nat.le_add_right s j))

/-! ### Substitution -/

/-- A pattern without zero bytes and without an anchor. -/
theorem trimPattern_text (hc : c ≠ 0) :
    bufferText (trimPattern [c]) = trimPattern [c] ∧
      (trimPattern [c]).head? ≠ some caret := by
  rw [trimPattern_singleton]
  constructor
  · simp +decide [bufferText, hc]
  · rw [List.head?_cons]
    decide

/-- The loop that `StrTrim` runs. -/
abbrev trimLoop (src : ByteString) (c : UInt8) : Fueled PatternError GsubState :=
  loop (gsubStep src (trimPattern [c]) (bytes "%2") false (src.length + 1)) ⟨0, 0, []⟩

theorem strGsub_trimPattern (hc : c ≠ 0) :
    strGsub src (trimPattern [c]) (bytes "%2") none =
      (trimLoop src c).andThen fun st => .ok (st.b ++ src.drop st.src, st.n) := by
  obtain ⟨htext, hhead⟩ := trimPattern_text hc
  have hanchor : decide ((trimPattern [c]).head? = some caret) = false := decide_eq_false hhead
  simp only [strGsub, htext, hanchor, if_neg Bool.false_ne_true, Option.getD_none]

theorem strTrim_singleton :
    strTrim src (some [c]) =
      (strGsub src (trimPattern [c]) (bytes "%2") none).andThen fun r =>
        .ok (if r.2 = 0 then [] else r.1) := rfl

/-- What `StrTrim` returns, by the end of the loop. -/
theorem strTrim_returns (hc : c ≠ 0) {st : GsubState} (h : Returns (trimLoop src c) (.ok st)) :
    Returns (strTrim src (some [c]))
      (.ok (if st.n = 0 then [] else st.b ++ src.drop st.src)) := by
  rw [strTrim_singleton, strGsub_trimPattern hc]
  exact (h.andThen _).andThen _

theorem strTrim_error (hc : c ≠ 0) {e : PatternError} (h : Returns (trimLoop src c) (.error e)) :
    Returns (strTrim src (some [c])) (.error e) := by
  rw [strTrim_singleton, strGsub_trimPattern hc]
  exact (h.andThen _).andThen _

/-- Where nothing matches, nothing is left. -/
theorem strTrim_unmatched (hc : c ≠ 0)
    (hnone : ∀ k ≤ src.length, doMatch src [] k (trimPattern [c]) = .ok none) :
    Returns (strTrim src (some [c])) (.ok []) :=
  strTrim_returns hc (gsubLoop_unmatched hnone)

/-- The replacement is the second capture. -/
theorem addS_second {e i len : ℕ} (hms : ms[1]? = some ⟨i, .length len⟩) :
    addS src ms s e (bytes "%2") = .ok ((src.drop i).take len) := by
  have hbytes : bytes "%2" = [percent, 50] := rfl
  have hvalue : pushOneCapture src ms ((50 : UInt8).toNat - 49) s e =
      .ok (.text ((src.drop i).take len)) := by
    have hone : (50 : UInt8).toNat - 49 = 1 := rfl
    rw [hone, pushOneCapture, hms]
    rfl
  rw [hbytes, addS, if_neg (by decide), if_neg (by decide), if_neg (by decide), hvalue]
  change Except.ok (_ ++ _) = _
  rw [List.append_nil]
  rfl

/-- After the last other byte the character goes on to the end. -/
theorem itemRepetitions_after (hL : LastOther c src L) :
    itemRepetitions src (L + 1) c = src.length - (L + 1) := by
  unfold itemRepetitions
  split
  · rfl
  · have hall : ∀ x ∈ src.drop (L + 1), decide (x = c) = true := by
      intro x hx
      obtain ⟨j, hj⟩ := List.getElem?_of_mem hx
      rw [List.getElem?_drop] at hj
      exact decide_eq_true (hL.after _ x (Nat.le_add_right _ j) hj)
    rw [leading, List.takeWhile_eq_self_iff.mpr hall, List.length_drop]

/-- What `StrTrim` leaves for a character that may stand before a `*`. -/
theorem TrimItem.strTrim_eq (h : TrimItem c) (hL : LastOther c src L) :
    Returns (strTrim src (some [c]))
      (.ok ((src.drop (captureStart src c 0 L)).take (L + 1 - captureStart src c 0 L))) := by
  have hlt := hL.lt
  obtain ⟨ms, hmatch, hms⟩ := h.doMatch_pattern hL (Nat.zero_le L)
  have hend : L + 1 + itemRepetitions src (L + 1) c = src.length := by
    rw [itemRepetitions_after hL]
    omega
  rw [hend] at hmatch
  have hnone : doMatch src [] src.length (trimPattern [c]) = .ok none :=
    h.doMatch_pattern_none (hL.after.mono hlt)
  have hloop : Returns (trimLoop src c) (.ok ⟨src.length, 1,
      (src.drop (captureStart src c 0 L)).take (L + 1 - captureStart src c 0 L)⟩) := by
    refine Returns.next (gsubStep_of_match ?_ hmatch (addS_second hms) ?_) ?_
    · simp only
      omega
    · simp only
      omega
    · refine Returns.last (gsubStep_of_end ?_ hnone ?_)
      · simp only
        omega
      · simp
  have hreturns := strTrim_returns h.ne_zero hloop
  rwa [if_neg Nat.one_ne_zero, List.drop_length, List.append_nil] at hreturns

/-- If the character stands for itself before the `*`, that is the string trimmed. -/
theorem TrimItem.strTrim_trims (h : TrimItem c) (hdot : c ≠ dot) :
    Returns (strTrim src (some [c])) (.ok (trim c src)) := by
  rcases onlyFrom_zero_or_lastOther c src with honly | ⟨L, hL⟩
  · rw [trim_eq_nil_iff.mpr (onlyFrom_zero_iff.mp honly)]
    exact strTrim_unmatched h.ne_zero fun k _ =>
      h.doMatch_pattern_none (honly.mono (Nat.zero_le k))
  · have hstart : captureStart src c 0 L = leading c src := by
      have hle := hL.leading_le
      rw [captureStart, itemRepetitions, if_neg hdot, List.drop_zero]
      omega
    have hreturns := h.strTrim_eq hL
    rw [hstart, ← trim_eq_take_drop hL] at hreturns
    exact hreturns

/-! ### The full stop -/

theorem trimItem_dot : TrimItem dot where
  ne_zero := by decide
  ne_percent := by decide
  ne_openParen := by decide
  ne_closeParen := by decide
  ne_openBracket := by decide

/-- The first group matches as much as it can, and leaves one byte. -/
theorem strTrim_dot (hL : LastOther dot src L) :
    Returns (strTrim src (some [dot])) (.ok ((src.drop L).take 1)) := by
  have hlt := hL.lt
  have hstart : captureStart src dot 0 L = L := by
    rw [captureStart, itemRepetitions, if_pos rfl]
    omega
  have hreturns := trimItem_dot.strTrim_eq hL
  rwa [hstart, Nat.add_sub_cancel_left] at hreturns

/-- That is the string trimmed exactly if the byte is the only other one. -/
theorem take_one_eq_trim_iff (hL : LastOther c src L) :
    (src.drop L).take 1 = trim c src ↔ src.countP (· ≠ c) ≤ 1 := by
  have hlt := hL.lt
  have hle := hL.leading_le
  rw [← hL.leading_eq_iff, trim_eq_take_drop hL]
  constructor
  · intro h
    have hlen := congrArg List.length h
    simp only [List.length_take, List.length_drop] at hlen
    omega
  · intro h
    rw [h, Nat.add_sub_cancel_left]

/-! ### Characters with a meaning of their own -/

/-- The pattern with `[`, where the first group begins with a set and the last is malformed. -/
theorem doMatch_openBracket_group :
    doMatch src [] s (trimPattern [openBracket]) =
      maxExpand (fun e => doMatch src [⟨s, .unfinished⟩] e
          (dot :: star :: notSet openBracket (closeParen :: trimTail openBracket))) s
        (maxRepetitions src s (openBracket :: star :: closeParen :: openParen ::
            trimCore openBracket (closeParen :: trimTail openBracket))
          (star :: dot :: star :: notSet openBracket (closeParen :: trimTail openBracket))) := by
  have hset : ∀ q, classEnd (openBracket :: star :: closeParen :: openParen ::
      notSet openBracket (star :: q)) = .ok (star :: q) := fun _ => rfl
  rw [trimPattern_singleton, doMatch_openParen_cons (by decide) bracket_ne_closeParen,
    doMatch_star beginsWithItem_set (hset _)]
  rfl

/-- With another byte to come the last group is reached. -/
theorem doMatch_openBracket (hL : LastOther openBracket src L) (hs : s ≤ L) :
    doMatch src [] s (trimPattern [openBracket]) = .error .missingBracket := by
  have hmalformed : classEnd [openBracket, star, closeParen] = .error .missingBracket := rfl
  have hend : doMatch src [⟨s, .unfinished⟩] (L + 1) (closeParen :: trimTail openBracket) =
      .error .missingBracket := by
    rw [doMatch_closeParen_singleton,
      doMatch_openParen_cons (singleton_lt_maxCaptures _) bracket_ne_closeParen]
    exact doMatch_error beginsWithItem_set hmalformed
  have hcont : ∀ j ≤ L, doMatch src [⟨s, .unfinished⟩] j
      (dot :: star :: notSet openBracket (closeParen :: trimTail openBracket)) =
        .error .missingBracket := by
    intro j hj
    rw [doMatch_dotStar_notSet (by decide) noSuffix_closeParen hL hj, hend]
    rw [hend]
    simp
  rw [doMatch_openBracket_group, maxExpand_upTo hs, hcont _ (by omega)]
  · exact fun j hj =>
      doMatch_dotStar_notSet_none (by decide) noSuffix_closeParen (hL.after.mono hj)
  · rw [hcont _ (by omega)]
    simp

theorem doMatch_openBracket_none (honly : OnlyFrom openBracket src s) :
    doMatch src [] s (trimPattern [openBracket]) = .ok none := by
  rw [doMatch_openBracket_group]
  exact maxExpand_none fun j _ => doMatch_dotStar_notSet_none (by decide) noSuffix_closeParen
    (honly.mono (Nat.le_add_right s j))

/-- An item for a star alone. -/
theorem beginsWithItem_star : BeginsWithItem star p :=
  ⟨by decide, by decide, fun h => absurd h (by decide), fun h => absurd h (by decide)⟩

/-- With `%` the first group is an escaped star, and the set after it has no end. -/
theorem doMatch_percent :
    doMatch src [] s (trimPattern [percent]) =
      if src[s]? = some star then .error .missingBracket else .ok none := by
  have hmalformed : classEnd (trimCore percent (closeParen :: trimTail percent)) =
      .error .missingBracket := rfl
  have hrest : doMatch src [⟨s, .unfinished⟩] (s + 1) (closeParen :: openParen ::
      trimCore percent (closeParen :: trimTail percent)) = .error .missingBracket := by
    rw [doMatch_closeParen_singleton,
      doMatch_openParen_cons (singleton_lt_maxCaptures _) bracket_ne_closeParen]
    exact doMatch_error beginsWithItem_set hmalformed
  rw [trimPattern_singleton, doMatch_openParen_cons (by decide) (by decide),
    doMatch_escaped rfl noSuffix_closeParen, List.nil_append, hrest]

/-- A star by itself, where it is not the suffix of an item. -/
theorem doMatch_literalStar (hp : NoSuffix p) :
    doMatch src ms s (star :: p) =
      if src[s]? = some star then doMatch src ms (s + 1) p else .ok none :=
  doMatch_literal beginsWithItem_star (by decide) (by decide) (by decide) hp

/-- With `)` the first group is the capture of a position, and nothing is left to close. -/
theorem doMatch_closeParen_pattern :
    doMatch src [] s (trimPattern [closeParen]) =
      if src[s]? = some star then .error .invalidPatternCapture else .ok none := by
  have hposition : ∀ q, doMatch src [] s (openParen :: closeParen :: q) =
      doMatch src [⟨s, .position⟩] s q := by
    intro q
    rw [doMatch, if_pos rfl, if_neg (by decide), List.head?_cons, if_pos rfl]
    rfl
  have hnone : captureToClose [⟨s, .position⟩] = .error .invalidPatternCapture := rfl
  rw [trimPattern_singleton, hposition, doMatch_literalStar noSuffix_closeParen,
    doMatch_closeParen_error hnone]

/-! ### The opening parenthesis -/

/-- A match of the pattern with `(`, if there is one: it begins and ends with a star, and its second
capture is the first of them. -/
def StarsAtEnds (src : ByteString) (s : ℕ) (r : MatchResult) : Prop :=
  r = .ok none ∨ ∃ e ms, r = .ok (some (e, ms)) ∧ src[s]? = some star ∧ s + 1 < e ∧
    src[e - 1]? = some star ∧ ms[1]? = some ⟨s, .length 1⟩

/-- The captures when the set is reached. -/
abbrev parenCaptures (s : ℕ) : Captures :=
  [⟨s, .unfinished⟩, ⟨s, .length 1⟩, ⟨s + 1, .unfinished⟩]

/-- The first group with `(` is a star in a group of its own. -/
theorem doMatch_openParen_group :
    doMatch src [] s (trimPattern [openParen]) =
      if src[s]? = some star then
        doMatch src (parenCaptures s) (s + 1)
          (trimCore openParen (closeParen :: trimTail openParen))
      else .ok none := by
  have hclose := @doMatch_closeParen_append src [⟨s, .unfinished⟩] (s + 1)
    (openParen :: trimCore openParen (closeParen :: trimTail openParen)) s
  rw [Nat.add_sub_cancel_left] at hclose
  rw [trimPattern_singleton, doMatch_openParen_cons (by decide) (by decide), List.nil_append,
    doMatch_openParen_cons (singleton_lt_maxCaptures _) (by decide),
    doMatch_literalStar noSuffix_closeParen, hclose,
    doMatch_openParen_cons (by simp [maxCaptures]) bracket_ne_closeParen]
  rfl

/-- The last group with `(` is one more star. -/
theorem doMatch_openParen_tail (hms : ms.length + 1 < maxCaptures) :
    doMatch src ms s (trimTail openParen) =
      if src[s]? = some star then
        .ok (some (s + 1, ms ++ [⟨s, .unfinished⟩] ++ [⟨s, .length 1⟩]))
      else .ok none := by
  have hlen : (ms ++ [(⟨s, .unfinished⟩ : Capture)]).length < maxCaptures := by
    rw [List.length_append]
    exact hms
  rw [doMatch_openParen_cons (by omega) (by decide), doMatch_openParen_cons hlen (by decide),
    doMatch_literalStar noSuffix_closeParen, doMatch_closeParen_append, doMatch_nil,
    Nat.add_sub_cancel_left]

theorem starsAtEnds_openParen : StarsAtEnds src s (doMatch src [] s (trimPattern [openParen])) := by
  rw [doMatch_openParen_group]
  by_cases hstar : src[s]? = some star
  · rw [if_pos hstar, doMatch_star beginsWithItem_set (classEnd_notSet (by decide))]
    refine maxExpand_of_forall fun i _ => ?_
    rw [doMatch_dotStar]
    refine maxExpand_of_forall fun j _ => ?_
    rw [doMatch_notSet (by decide) noSuffix_closeParen]
    split
    · have hclose := @doMatch_closeParen_append src [⟨s, .unfinished⟩, ⟨s, .length 1⟩]
        (s + 1 + i + j + 1) (trimTail openParen) (s + 1)
      simp only [List.cons_append, List.nil_append] at hclose
      rw [hclose, doMatch_openParen_tail (by simp [maxCaptures])]
      split
      · exact Or.inr ⟨_, _, rfl, hstar, by omega, ‹_›, rfl⟩
      · exact Or.inl rfl
    · exact Or.inl rfl
  · rw [if_neg hstar]
    exact Or.inl rfl

/-- What the loop keeps with `(`: every replacement takes a star away. -/
structure FewerStars (src : ByteString) (st : GsubState) : Prop where
  le : st.src ≤ src.length
  count : st.b.count LuaText.star + st.n ≤ (src.take st.src).count LuaText.star

/-- A text with a star at both ends has two more than what is before it. -/
theorem count_star_match {e : ℕ} (hs : src[s]? = some star) (hlt : s + 1 < e)
    (he : src[e - 1]? = some star) :
    (src.take s).count LuaText.star + 2 ≤ (src.take e).count LuaText.star := by
  have hnext : ∀ k, src[k]? = some LuaText.star →
      (src.take (k + 1)).count LuaText.star = (src.take k).count LuaText.star + 1 := by
    intro k hk
    rw [List.take_add_one, hk, List.count_append]
    rfl
  have hmono : (src.take (s + 1)).count LuaText.star ≤ (src.take (e - 1)).count LuaText.star :=
    (List.take_sublist_take_left (by omega)).count_le LuaText.star
  have hlast := hnext (e - 1) he
  rw [Nat.sub_add_cancel (by omega)] at hlast
  rw [hnext s hs] at hmono
  omega

/-- A step of the loop with `(`. -/
theorem FewerStars.gsubStep {st : GsubState} (h : FewerStars src st) :
    (∃ st', gsubStep src (trimPattern [openParen]) (bytes "%2") false (src.length + 1) st =
        .ok (.inl st') ∧ FewerStars src st' ∧ src.length - st'.src < src.length - st.src) ∨
      ∃ st', gsubStep src (trimPattern [openParen]) (bytes "%2") false (src.length + 1) st =
        .ok (.inr st') ∧ FewerStars src st' := by
  have hn : (st.n : ℤ) < src.length + 1 := by
    have hcount := h.count
    have hle : (src.take st.src).count LuaText.star ≤ src.length :=
      List.count_le_length.trans (List.length_take_le' _ _)
    omega
  rcases starsAtEnds_openParen with hnone | ⟨e, ms, hmatch, hs, hlt, he, hms⟩
  · rcases hx : src[st.src]? with - | x
    · exact Or.inr ⟨st, gsubStep_of_end hn hnone hx, h⟩
    · have hpos := (List.getElem?_eq_some_iff.mp hx).1
      refine Or.inl ⟨_, gsubStep_of_none hn hnone hx, ⟨hpos, ?_⟩, ?_⟩
      · have hcount := h.count
        simp only [List.take_add_one, hx, List.count_append, Option.toList_some]
        omega
      · simp only
        omega
  · have hend := (List.getElem?_eq_some_iff.mp he).1
    have hvalue : addS src ms st.src e (bytes "%2") = _ := addS_second hms
    refine Or.inl ⟨_, gsubStep_of_match hn hmatch hvalue (by omega), ⟨?_, ?_⟩, ?_⟩
    · simp only
      omega
    · have hcount := h.count
      have hmore := count_star_match hs hlt he
      have hone : ((src.drop st.src).take 1).count LuaText.star ≤ 1 :=
        List.count_le_length.trans (List.length_take_le 1 _)
      simp only [List.count_append]
      omega
    · simp only
      omega

/-- With `(` nothing is left, or stars are lost. -/
theorem strTrim_openParen (src : ByteString) :
    ∃ r, Returns (strTrim src (some [openParen])) (.ok r) ∧
      (r = [] ∨ r.count LuaText.star < src.count LuaText.star) := by
  obtain ⟨st, hloop, hst⟩ := Returns.of_measure (FewerStars src) (fun st => src.length - st.src)
    (fun st h => h.gsubStep) (⟨Nat.zero_le _, le_refl _⟩ : FewerStars src ⟨0, 0, []⟩)
  refine ⟨_, strTrim_returns (by decide) hloop, ?_⟩
  by_cases hn : st.n = 0
  · exact Or.inl (if_pos hn)
  · right
    have hcount := hst.count
    have hall : src.count LuaText.star = (src.take st.src).count LuaText.star +
        (src.drop st.src).count LuaText.star := by
      rw [← List.count_append, List.take_append_drop]
    rw [if_neg hn, List.count_append]
    omega

/-! ### The zero byte -/

/-- The pattern ends at the zero byte, and has one capture. -/
theorem strTrim_zero (src : ByteString) :
    Returns (strTrim src (some [0])) (.error .invalidCaptureIndex) := by
  have htext : bufferText (trimPattern [0]) = [openParen] := rfl
  have hhead : decide ([openParen].head? = some caret) = false := rfl
  have hmatch : doMatch src [] 0 [openParen] = .ok (some (0, [⟨0, .unfinished⟩])) := by
    rw [doMatch_openParen (by decide) (by decide), doMatch_nil, List.nil_append]
  have hvalue : addS src [⟨0, .unfinished⟩] 0 0 (bytes "%2") = .error .invalidCaptureIndex := rfl
  have hstep : gsubStep src [openParen] (bytes "%2") false (src.length + 1) ⟨0, 0, []⟩ =
      .error .invalidCaptureIndex := by
    rw [gsubStep, if_pos (by simp only; omega), hmatch]
    simp only [hvalue]
  have hgsub : Returns (strGsub src (trimPattern [0]) (bytes "%2") none)
      (.error .invalidCaptureIndex) := by
    simp only [strGsub, htext, hhead, if_neg Bool.false_ne_true, Option.getD_none]
    exact (Returns.fail hstep).andThen _
  rw [strTrim_singleton]
  exact hgsub.andThen _

/-! ### When it trims -/

/-- The pattern fails with an error at the first star. -/
theorem strTrim_star {e : PatternError} (hc : c ≠ 0)
    (hmatch : ∀ s, doMatch src [] s (trimPattern [c]) =
      if src[s]? = some LuaText.star then .error e else .ok none) :
    Returns (strTrim src (some [c])) (if LuaText.star ∈ src then .error e else .ok []) := by
  by_cases hstar : LuaText.star ∈ src
  · rw [if_pos hstar]
    have hex : ∃ k, src[k]? = some LuaText.star := List.getElem?_of_mem hstar
    refine strTrim_error hc (gsubLoop_error (k := Nat.find hex) ?_ ?_ ?_)
    · exact (List.getElem?_eq_some_iff.mp (Nat.find_spec hex)).1.le
    · exact fun j hj => (hmatch j).trans (if_neg (Nat.find_min hex hj))
    · exact (hmatch _).trans (if_pos (Nat.find_spec hex))
  · rw [if_neg hstar]
    refine strTrim_unmatched hc fun k _ => (hmatch k).trans (if_neg fun hk => hstar ?_)
    exact List.mem_of_getElem? hk

/-- A string with another byte is trimmed to what is not empty. -/
theorem returns_nil_iff (h : Returns (strTrim src (some [c])) (.ok [])) :
    Returns (strTrim src (some [c])) (.ok (trim c src)) ↔ ∀ x ∈ src, x = c := by
  rw [h.iff_eq, Except.ok.injEq, trim_eq_nil_iff]

theorem star_error_iff {e : PatternError} (hc : c ≠ 0) (hne : c ≠ LuaText.star)
    (hmatch : ∀ s, doMatch src [] s (trimPattern [c]) =
      if src[s]? = some LuaText.star then .error e else .ok none) :
    Returns (strTrim src (some [c])) (.ok (trim c src)) ↔ ∀ x ∈ src, x = c := by
  have hreturns := strTrim_star hc hmatch
  by_cases hstar : LuaText.star ∈ src
  · rw [if_pos hstar] at hreturns
    rw [hreturns.iff_eq]
    exact ⟨fun h => absurd h (by simp), fun h => absurd (h _ hstar).symm hne⟩
  · rw [if_neg hstar] at hreturns
    exact returns_nil_iff hreturns

theorem strTrim_openParen_iff :
    Returns (strTrim src (some [openParen])) (.ok (trim openParen src)) ↔
      ∀ x ∈ src, x = openParen := by
  obtain ⟨r, hreturns, rfl | hlt⟩ := strTrim_openParen src
  · exact returns_nil_iff hreturns
  · rw [hreturns.iff_eq, Except.ok.injEq]
    constructor
    · rintro rfl
      have hcount : (trim openParen src).count LuaText.star = src.count LuaText.star :=
        countP_trim (by decide) src
      omega
    · intro hall
      have hmem : LuaText.star ∈ src := List.count_pos_iff.mp (by omega)
      exact absurd (hall _ hmem) (by decide)

theorem strTrim_openBracket_iff :
    Returns (strTrim src (some [openBracket])) (.ok (trim openBracket src)) ↔
      ∀ x ∈ src, x = openBracket := by
  have hzero : openBracket ≠ 0 := by decide
  rcases onlyFrom_zero_or_lastOther openBracket src with honly | ⟨L, hL⟩
  · exact returns_nil_iff (strTrim_unmatched hzero fun k _ =>
      doMatch_openBracket_none (honly.mono (Nat.zero_le k)))
  · have herror : Returns (strTrim src (some [openBracket])) (.error .missingBracket) :=
      strTrim_error hzero (gsubLoop_error (Nat.zero_le _) (fun j hj => absurd hj (by omega))
        (doMatch_openBracket hL (Nat.zero_le L)))
    obtain ⟨x, hx, hne⟩ := hL.other
    rw [herror.iff_eq]
    exact ⟨fun h => absurd h (by simp), fun h => absurd (h x (List.mem_of_getElem? hx)) hne⟩

theorem strTrim_dot_iff :
    Returns (strTrim src (some [dot])) (.ok (trim dot src)) ↔ src.countP (· ≠ dot) ≤ 1 := by
  rcases onlyFrom_zero_or_lastOther dot src with honly | ⟨L, hL⟩
  · have hall := onlyFrom_zero_iff.mp honly
    have hcount : src.countP (· ≠ dot) = 0 := List.countP_eq_zero.mpr fun x hx => by
      simp [hall x hx]
    have hnil : Returns (strTrim src (some [dot])) (.ok []) :=
      strTrim_unmatched trimItem_dot.ne_zero fun k _ =>
        trimItem_dot.doMatch_pattern_none (honly.mono (Nat.zero_le k))
    rw [returns_nil_iff hnil, hcount]
    exact ⟨fun _ => Nat.zero_le 1, fun _ => hall⟩
  · rw [(strTrim_dot hL).iff_eq, Except.ok.injEq, eq_comm, take_one_eq_trim_iff hL]

/-- The characters that begin something else in a pattern. -/
def specialTrimChars : ByteString := [percent, openParen, closeParen, openBracket]

/-- Which strings are trimmed by one call. -/
theorem strTrim_returns_trim_iff (c : UInt8) (src : ByteString) :
    Returns (strTrim src (some [c])) (.ok (trim c src)) ↔
      c ≠ 0 ∧ (c ∈ specialTrimChars → ∀ x ∈ src, x = c) ∧
        (c = dot → src.countP (· ≠ dot) ≤ 1) := by
  by_cases hzero : c = 0
  · subst hzero
    rw [(strTrim_zero src).iff_eq]
    simp
  by_cases hspecial : c ∈ specialTrimChars
  · have hiff : Returns (strTrim src (some [c])) (.ok (trim c src)) ↔ ∀ x ∈ src, x = c := by
      simp only [specialTrimChars, List.mem_cons, List.not_mem_nil, or_false] at hspecial
      rcases hspecial with rfl | rfl | rfl | rfl
      · exact star_error_iff hzero (by decide) fun s => doMatch_percent
      · exact strTrim_openParen_iff
      · exact star_error_iff hzero (by decide) fun s => doMatch_closeParen_pattern
      · exact strTrim_openBracket_iff
    have hdot : c ≠ dot := by
      rintro rfl
      exact absurd hspecial (by decide)
    rw [hiff]
    exact ⟨fun h => ⟨hzero, fun _ => h, fun h' => absurd h' hdot⟩, fun h => h.2.1 hspecial⟩
  by_cases hdot : c = dot
  · subst hdot
    rw [strTrim_dot_iff]
    exact ⟨fun h => ⟨hzero, fun h' => absurd h' hspecial, fun _ => h⟩, fun h => h.2.2 rfl⟩
  · have hitem : TrimItem c := by
      simp only [specialTrimChars, List.mem_cons, List.not_mem_nil, or_false, not_or] at hspecial
      exact ⟨hzero, hspecial.1, hspecial.2.1, hspecial.2.2.1, hspecial.2.2.2⟩
    exact ⟨fun _ => ⟨hzero, fun h => absurd h hspecial, fun h => absurd h hdot⟩,
      fun _ => hitem.strTrim_trims hdot⟩

/-- `StrTrim` takes away exactly the runs at both ends, and a second time nothing. -/
def TrimsBorders (c : UInt8) (szDes : ByteString) : Prop :=
  Returns (strTrim szDes (some [c])) (.ok (trim c szDes)) ∧
    ∀ szRet, Returns (strTrim szDes (some [c])) (.ok szRet) →
      Returns (strTrim szRet (some [c])) (.ok szRet)

/-- The special characters do only where there is nothing else, the full stop only where it
leaves one byte. -/
theorem strTrim_iff (c : UInt8) (szDes : ByteString) :
    TrimsBorders c szDes ↔
      c ≠ 0 ∧ (c ∈ specialTrimChars → ∀ x ∈ szDes, x = c) ∧
        (c = dot → szDes.countP (· ≠ dot) ≤ 1) := by
  rw [← strTrim_returns_trim_iff]
  refine ⟨And.left, fun htrim => ⟨htrim, fun szRet hret => ?_⟩⟩
  obtain rfl := Except.ok.inj (hret.unique htrim)
  obtain ⟨hzero, hspecial, hdot⟩ := (strTrim_returns_trim_iff c szDes).mp htrim
  have hagain : Returns (strTrim (trim c szDes) (some [c])) (.ok (trim c (trim c szDes))) := by
    rw [strTrim_returns_trim_iff]
    refine ⟨hzero, fun h => ?_, ?_⟩
    · rw [trim_eq_nil_iff.mpr (hspecial h)]
      exact fun x hx => absurd hx List.not_mem_nil
    · rintro rfl
      rw [countP_trim (by simp)]
      exact hdot rfl
  rwa [trim_trim] at hagain

/-- Only the last byte is left of a number with two full stops. -/
theorem not_trimsBorders_dot : ¬ TrimsBorders dot (bytes "3.14.") := by
  have hL : LastOther dot (bytes "3.14.") 3 := by
    refine ⟨⟨52, rfl, by decide⟩, fun j x hj hx => ?_⟩
    have hlt := (List.getElem?_eq_some_iff.mp hx).1
    obtain rfl : j = 4 := by
      have hlen : (bytes "3.14.").length = 5 := rfl
      omega
    exact (Option.some.inj hx).symm
  intro h
  have hlast := (strTrim_dot hL).iff_eq.mp h.1
  exact absurd hlast (by decide)

end UnityLua
