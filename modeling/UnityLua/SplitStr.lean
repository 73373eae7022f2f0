import UnityLua.LuaPatterns

/-!
# Splitting strings

`Lib.SplitStr` cuts a string wherever `string.find` finds a pattern, the separator, and goes on
after as many bytes as the pattern is long. For `%.` it knows that one byte is matched; every other
escaped byte makes the pattern longer than what it matches.

## Main results

* `strFind_separator`: what `string.find` finds is the literal text of the separator.
* `splitStr_cuts`: `SplitStr` terminates, with the string cut by the length of the pattern.
* `splitStr_iff`: exactly for which strings and separators joining undoes splitting.
-/

namespace UnityLua

open Library LuaText

/-- `Lib.SplitStr` between two rounds. -/
structure SplitState where
  nStart : ℤ
  nAt : Option ℕ
  tbStrElem : List ByteString

section Source

variable (szStrConcat szSep : ByteString)

/-- The length of a separator, by `tbSpeSep` or by its text. -/
def nSepLen : ℕ := if szSep = bytes "%." then 1 else szSep.length

/-- The first result of `string.find(szStrConcat, szSep, init)`. -/
def findStart (init : ℤ) : Except PatternError (Option ℕ) :=
  (strFind szStrConcat szSep init false).map fun r => r.map Prod.fst

/-- The loop of `Lib.SplitStr`. -/
def splitStep (st : SplitState) : Except PatternError (SplitState ⊕ SplitState) :=
  match st.nAt with
  | none => .ok (.inr st)
  | some nAt => do
      let tbStrElem := st.tbStrElem ++ [strSub szStrConcat st.nStart (nAt - 1)]
      let nStart : ℤ := nAt + nSepLen szSep
      let nAt ← findStart szStrConcat szSep nStart
      .ok (.inl ⟨nStart, nAt, tbStrElem⟩)

end Source

/-- `Lib.SplitStr`. -/
def splitStr (szStrConcat : ByteString) (szSep : Option ByteString) :
    Fueled PatternError (List ByteString) :=
  let szSep := szSep.getD (bytes ",")
  match findStart szStrConcat szSep 1 with
  | .error e => fun _ => some (.error e)
  | .ok nAt =>
      (loop (splitStep szStrConcat szSep) ⟨1, nAt, []⟩).andThen fun st =>
        .ok (st.tbStrElem ++ [strSub szStrConcat st.nStart (-1)])

/-! ### Separators -/

/-- A byte of a separator: one that stands for itself, or punctuation that is escaped. -/
inductive SepItem
  | ordinary (c : UInt8) (h : isOrdinary c = true)
  | escaped (c : UInt8) (h : ispunct c = true)

/-- The byte that is meant. -/
def SepItem.literal : SepItem → UInt8
  | ordinary c _ => c
  | escaped c _ => c

/-- How it is written. -/
def SepItem.spelling : SepItem → ByteString
  | ordinary c _ => [c]
  | escaped c _ => [percent, c]

def SepItem.isEscaped : SepItem → Bool
  | ordinary _ _ => false
  | escaped _ _ => true

/-- A separator that spells a text. -/
structure Separator where
  items : List SepItem
  ne_nil : items ≠ []

/-- The text that is spelled. -/
def literalText (items : List SepItem) : ByteString := items.map SepItem.literal

/-- The pattern that spells it. -/
def spelling (items : List SepItem) : ByteString := items.flatMap SepItem.spelling

theorem spelling_cons (i : SepItem) (items : List SepItem) :
    spelling (i :: items) = i.spelling ++ spelling items := rfl

/-- Every escaped byte makes the pattern longer. -/
theorem length_spelling (items : List SepItem) :
    (spelling items).length = (literalText items).length + items.countP SepItem.isEscaped := by
  induction items with
  | nil => rfl
  | cons i items ih =>
      rw [spelling_cons, List.length_append, ih, List.countP_cons]
      rcases i with ⟨c, h⟩ | ⟨c, h⟩
      · simp only [SepItem.spelling, literalText, SepItem.isEscaped, List.map_cons,
          List.length_cons, List.length_nil, Bool.false_eq_true, if_false]
        omega
      · simp only [SepItem.spelling, literalText, SepItem.isEscaped, List.map_cons,
          List.length_cons, List.length_nil, if_true]
        omega

/-- Without escaped bytes the pattern is the text. -/
theorem spelling_of_ordinary {items : List SepItem} (h : items.countP SepItem.isEscaped = 0) :
    spelling items = literalText items := by
  induction items with
  | nil => rfl
  | cons i items ih =>
      rcases i with ⟨c, hc⟩ | ⟨c, hc⟩
      · rw [List.countP_cons_of_neg (by simp [SepItem.isEscaped])] at h
        rw [spelling_cons, ih h]
        rfl
      · rw [List.countP_cons_of_pos rfl] at h
        exact absurd h (Nat.succ_ne_zero _)

theorem ne_zero_of_ispunct {c : UInt8} (hc : ispunct c = true) : c ≠ 0 := by
  rintro rfl
  exact absurd hc (by decide)

/-- A pattern that spells a text has no zero bytes. -/
theorem bufferText_spelling (items : List SepItem) :
    bufferText (spelling items) = spelling items := by
  refine List.takeWhile_eq_self_iff.mpr fun c hc => ?_
  obtain ⟨i, -, hi⟩ := List.mem_flatMap.mp hc
  rcases i with ⟨d, hd⟩ | ⟨d, hd⟩
  · obtain rfl := List.mem_singleton.mp hi
    exact decide_eq_true (ne_zero_of_isOrdinary hd)
  · rcases List.mem_cons.mp hi with rfl | hi
    · exact decide_eq_true (by decide)
    · obtain rfl := List.mem_singleton.mp hi
      exact decide_eq_true (ne_zero_of_ispunct hd)

/-- After an item comes no suffix. -/
theorem noSuffix_spelling (items : List SepItem) : NoSuffix (spelling items) := by
  rcases items with - | ⟨⟨c, hc⟩ | ⟨c, hc⟩, items⟩
  · simp [NoSuffix, spelling]
  · have hne : ∀ m ∈ magic, (spelling (.ordinary c hc :: items)).head? ≠ some m := by
      intro m hm h
      exact ne_of_isOrdinary hc hm (Option.some.inj h)
    exact ⟨hne _ (by decide), hne _ (by decide), hne _ (by decide), hne _ (by decide)⟩
  · have hhead : (spelling (.escaped c hc :: items)).head? = some percent := rfl
    rw [NoSuffix, hhead]
    decide

/-- The matcher at one item of a separator. -/
theorem doMatch_sepItem {src : ByteString} {ms : Captures} {s : ℕ} (i : SepItem)
    (items : List SepItem) :
    doMatch src ms s (spelling (i :: items)) =
      if src[s]? = some i.literal then doMatch src ms (s + 1) (spelling items)
      else .ok none := by
  have hp := noSuffix_spelling items
  rcases i with ⟨c, hc⟩ | ⟨c, hc⟩
  · exact doMatch_literal (beginsWithItem_plain hc) (ne_of_isOrdinary hc (by decide))
      (ne_of_isOrdinary hc (by decide)) (ne_of_isOrdinary hc (by decide)) hp
  · exact doMatch_escaped hc hp

/-- The matcher matches the text that the pattern spells, and nothing else. -/
theorem doMatch_spelling {src : ByteString} {ms : Captures} {s : ℕ} (items : List SepItem) :
    doMatch src ms s (spelling items) =
      .ok (if literalText items <+: src.drop s then some (s + items.length, ms) else none) := by
  induction items generalizing s with
  | nil =>
      have hnil : literalText [] <+: src.drop s := List.nil_prefix
      rw [if_pos hnil]
      exact doMatch_nil
  | cons i items ih =>
      rw [doMatch_sepItem]
      rcases hx : src[s]? with - | x
      · rw [if_neg (by simp), List.drop_eq_nil_of_le (List.getElem?_eq_none_iff.mp hx),
          if_neg (by simp [literalText])]
      · obtain ⟨hs, hget⟩ := List.getElem?_eq_some_iff.mp hx
        rw [List.drop_eq_getElem_cons hs, hget]
        have hpre : literalText (i :: items) <+: x :: src.drop (s + 1) ↔
            x = i.literal ∧ literalText items <+: src.drop (s + 1) := by
          rw [literalText, List.map_cons, List.cons_prefix_cons, eq_comm]
          rfl
        by_cases hxi : x = i.literal
        · have hiff := hpre.trans (and_iff_right hxi)
          rw [if_pos (congrArg some hxi), ih]
          simp only [hiff, List.length_cons]
          rw [Nat.add_assoc, Nat.add_comm 1]
        · rw [if_neg fun h => hxi (Option.some.inj h), if_neg fun h => hxi (hpre.mp h).1]

theorem length_literalText (items : List SepItem) :
    (literalText items).length = items.length := List.length_map _

theorem literalText_ne_nil (sep : Separator) : literalText sep.items ≠ [] := fun h =>
  sep.ne_nil (List.map_eq_nil_iff.mp h)

/-- The search goes on to where the text first is. -/
theorem searchFrom_spelling (src : ByteString) (items : List SepItem) {n s1 : ℕ}
    (hn : s1 + n = src.length) :
    searchFrom src (spelling items) false n s1 =
      .ok ((firstOccurrence (literalText items) (src.drop s1)).map fun k =>
        (s1 + k, s1 + k + items.length, [])) := by
  induction n generalizing s1 with
  | zero =>
      have hdrop : src.drop s1 = [] := List.drop_eq_nil_of_le (by omega)
      rw [searchFrom, doMatch_spelling, hdrop, firstOccurrence]
      simp only [List.prefix_nil]
      by_cases hnil : literalText items = []
      · simp only [if_pos hnil]
        rfl
      · simp only [if_neg hnil]
        rfl
  | succ n ih =>
      have hs : s1 < src.length := by omega
      have hrest := ih (by omega : s1 + 1 + n = src.length)
      rw [searchFrom, doMatch_spelling, List.drop_eq_getElem_cons hs, firstOccurrence]
      by_cases hpre : literalText items <+: src[s1] :: src.drop (s1 + 1)
      · simp only [if_pos hpre]
        rfl
      · simp only [if_neg hpre]
        rw [if_neg Bool.false_ne_true, hrest, Option.map_map]
        refine congrArg Except.ok (congrArg (Option.map · _) (funext fun k => ?_))
        simp only [Function.comp_apply, Prod.mk.injEq, and_true]
        omega

/-- `string.find` takes a separator as it is exactly if no byte of it is escaped. -/
theorem all_not_special_spelling (items : List SepItem) :
    (spelling items).all (fun c => c ∉ specials) = true ↔ items.countP SepItem.isEscaped = 0 := by
  rw [List.all_eq_true, List.countP_eq_zero]
  constructor
  · rintro h (⟨c, hc⟩ | ⟨c, hc⟩) hi
    · exact Bool.false_ne_true
    · have hmem : percent ∈ spelling items :=
        List.mem_flatMap.mpr ⟨_, hi, List.mem_cons_self⟩
      exact absurd (h percent hmem) (by decide)
  · intro h c hc
    obtain ⟨i, hi, hci⟩ := List.mem_flatMap.mp hc
    rcases i with ⟨d, hd⟩ | ⟨d, hd⟩
    · obtain rfl := List.mem_singleton.mp hci
      have hsub : specials.all (fun m => m ∈ magic) = true := rfl
      refine decide_eq_true fun hm => ne_of_isOrdinary hd ?_ rfl
      exact of_decide_eq_true (List.all_eq_true.mp hsub _ hm)
    · exact absurd rfl (h _ hi)

/-- A separator is not anchored. -/
theorem head_spelling_ne_caret (items : List SepItem) : (spelling items).head? ≠ some caret := by
  rcases items with - | ⟨⟨c, hc⟩ | ⟨c, hc⟩, items⟩
  · simp [spelling]
  · exact fun h => ne_of_isOrdinary hc (by decide) (Option.some.inj h)
  · have hhead : (spelling (.escaped c hc :: items)).head? = some percent := rfl
    rw [hhead]
    decide

theorem drop_min_length (src : ByteString) (a : ℕ) : src.drop (min a src.length) = src.drop a := by
  rcases le_total a src.length with h | h
  · rw [min_eq_left h]
  · rw [min_eq_right h, List.drop_length, List.drop_eq_nil_of_le h]

/-- What `string.find` finds of a separator is the text that it spells. -/
theorem strFind_separator (src : ByteString) (sep : Separator) (a : ℕ) :
    strFind src (spelling sep.items) (a + 1) false =
      .ok ((firstOccurrence (literalText sep.items) (src.drop a)).map fun k =>
        (min a src.length + k + 1, min a src.length + k + sep.items.length, [])) := by
  have hinit : (posrelat ((a : ℤ) + 1) src.length - 1).toNat = a := by
    have h := posrelat_natCast (a + 1) src.length
    rw [Nat.cast_add, Nat.cast_one] at h
    rw [h, add_sub_cancel_right, Int.toNat_natCast]
  simp only [strFind, bufferText_spelling, hinit, drop_min_length]
  by_cases hplain : sep.items.countP SepItem.isEscaped = 0
  · rw [if_pos (Or.inr ((all_not_special_spelling _).mpr hplain)), lmemfind,
      spelling_of_ordinary hplain, length_literalText]
  · rw [if_neg (by
      rw [all_not_special_spelling]
      exact fun h => h.elim Bool.false_ne_true hplain)]
    have hanchor : decide ((spelling sep.items).head? = some caret) = false :=
      decide_eq_false (head_spelling_ne_caret _)
    have hsearch := searchFrom_spelling src sep.items
      (by omega : min a src.length + (src.length - min a src.length) = src.length)
    simp only [hanchor, if_neg Bool.false_ne_true, hsearch, drop_min_length]
    rcases firstOccurrence (literalText sep.items) (src.drop a) with - | k
    · rfl
    · rfl

/-- The first result alone. -/
theorem findStart_separator (src : ByteString) (sep : Separator) (a : ℕ) :
    findStart src (spelling sep.items) (a + 1) =
      .ok ((firstOccurrence (literalText sep.items) (src.drop a)).map fun k =>
        min a src.length + k + 1) := by
  rw [findStart, strFind_separator, Except.map, Option.map_map]
  rfl

/-! ### The loop -/

/-- The state of the loop where `a` bytes have been passed. -/
def splitStateAt (src : ByteString) (sep : Separator) (a : ℕ) (tbStrElem : List ByteString) :
    SplitState :=
  ⟨a + 1, (firstOccurrence (literalText sep.items) (src.drop a)).map fun k =>
    min a src.length + k + 1, tbStrElem⟩

/-- The loop cuts what is left. -/
theorem splitLoop_cuts {src : ByteString} {sep : Separator} {u : ByteString}
    {ps : List ByteString}
    (h : Cuts (literalText sep.items) (nSepLen (spelling sep.items)) u ps) {a : ℕ}
    (hu : src.drop a = u) (tbStrElem : List ByteString) :
    ∃ st, Returns (loop (splitStep src (spelling sep.items)) (splitStateAt src sep a tbStrElem))
      (.ok st) ∧ st.tbStrElem ++ [strSub src st.nStart (-1)] = tbStrElem ++ ps := by
  induction h generalizing a tbStrElem with
  | last hnone =>
      refine ⟨splitStateAt src sep a tbStrElem, Returns.last ?_, ?_⟩
      · rw [splitStep, splitStateAt, hu, hnone]
        rfl
      · rw [splitStateAt, strSub_toEnd, hu]
  | @cut u k ps hk hps ih =>
      have hlen := congrArg List.length (take_append_drop_of_firstOccurrence hk)
      have hpos := List.length_pos_iff.mpr (literalText_ne_nil sep)
      have ha : min a src.length = a := by
        rw [← hu] at hlen
        simp only [List.length_append, List.length_drop, List.length_take] at hlen
        omega
      have hpiece : strSub src (a + 1) ((a + k + 1 : ℕ) - 1) = u.take k := by
        have h := strSub_natCast src (a + 1) (a + k)
        rw [Nat.add_sub_cancel, List.drop_take, Nat.add_sub_cancel_left, hu] at h
        rw [← h]
        congr 1
        omega
      have hnext : src.drop (a + k + nSepLen (spelling sep.items)) =
          u.drop (k + nSepLen (spelling sep.items)) := by
        rw [← hu, List.drop_drop, Nat.add_assoc]
      have hpos' : ((a + k + 1 : ℕ) : ℤ) + nSepLen (spelling sep.items) =
          (a + k + nSepLen (spelling sep.items) : ℕ) + 1 := by omega
      obtain ⟨st, hst, hend⟩ := ih hnext (tbStrElem ++ [u.take k])
      refine ⟨st, hst.next ?_, ?_⟩
      · rw [splitStep, splitStateAt, hu, hk, Option.map_some, ha]
        simp only [hpiece, hpos', findStart_separator]
        rfl
      · rw [hend, List.append_assoc, List.singleton_append]

/-- `SplitStr` terminates, and cuts the string by the length of the pattern. -/
theorem splitStr_cuts (s : ByteString) (sep : Separator) :
    ∃ ps, Returns (splitStr s (some (spelling sep.items))) (.ok ps) ∧
      Cuts (literalText sep.items) (nSepLen (spelling sep.items)) s ps := by
  have hne := literalText_ne_nil sep
  have hpos : 0 < nSepLen (spelling sep.items) := by
    unfold nSepLen
    split
    · exact Nat.one_pos
    · rw [length_spelling]
      have := List.length_pos_iff.mpr hne
      omega
  obtain ⟨ps, hps⟩ := Cuts.exists_cuts hne hpos s
  obtain ⟨st, hst, hend⟩ := splitLoop_cuts hps (a := 0) (List.drop_zero) []
  refine ⟨ps, ?_, hps⟩
  have h := hst.andThen fun st => .ok (st.tbStrElem ++ [strSub s st.nStart (-1)])
  rw [Except.bind, hend, List.nil_append] at h
  rw [splitStr, Option.getD_some]
  have hfind : findStart s (spelling sep.items) 1 = _ := findStart_separator s sep 0
  rw [hfind]
  exact h

/-! ### Joining -/

/-- Splitting gives pieces without the text of the separator that joining puts together again. -/
def JoinUndoes (s : ByteString) (sep : Separator) : Prop :=
  ∃ ps, Returns (splitStr s (some (spelling sep.items))) (.ok ps) ∧
    (∀ p ∈ ps, ¬ literalText sep.items <:+: p) ∧ (literalText sep.items).intercalate ps = s

/-- By how much the loop goes on, if no byte is escaped or the one of `%.` is. -/
theorem nSepLen_eq {sep : Separator}
    (h : sep.items.countP SepItem.isEscaped = 0 ∨ spelling sep.items = bytes "%.") :
    nSepLen (spelling sep.items) = (literalText sep.items).length := by
  have hlen := length_spelling sep.items
  by_cases hdot : spelling sep.items = bytes "%."
  · have hescaped : sep.items.countP SepItem.isEscaped ≠ 0 := by
      rw [ne_eq, ← all_not_special_spelling, hdot]
      decide
    have hpos := List.length_pos_iff.mpr (literalText_ne_nil sep)
    have htwo : (spelling sep.items).length = 2 := congrArg List.length hdot
    rw [nSepLen, if_pos hdot]
    omega
  · rw [nSepLen, if_neg hdot, hlen, h.resolve_right hdot, Nat.add_zero]

/-- Otherwise it goes too far. -/
theorem length_lt_nSepLen {sep : Separator}
    (h : ¬(sep.items.countP SepItem.isEscaped = 0 ∨ spelling sep.items = bytes "%.")) :
    (literalText sep.items).length < nSepLen (spelling sep.items) := by
  have hlen := length_spelling sep.items
  rw [nSepLen, if_neg fun hdot => h (Or.inr hdot)]
  omega

/-- Whether joining undoes splitting is whether the cuts are joined again. -/
theorem joinUndoes_iff_intercalate {s : ByteString} {sep : Separator} {ps : List ByteString}
    (hps : Returns (splitStr s (some (spelling sep.items))) (.ok ps))
    (hcuts : Cuts (literalText sep.items) (nSepLen (spelling sep.items)) s ps) :
    JoinUndoes s sep ↔ (literalText sep.items).intercalate ps = s := by
  constructor
  · rintro ⟨qs, hqs, -, hjoin⟩
    obtain rfl := Except.ok.inj (hqs.unique hps)
    exact hjoin
  · exact fun hjoin => ⟨ps, hps, hcuts.not_infix (literalText_ne_nil sep), hjoin⟩

/-- With an escaped byte, that of `%.` apart, joining undoes splitting only if nothing follows the
text of the separator. -/
theorem joinUndoes_iff_of_escaped {s : ByteString} {sep : Separator}
    (h : ¬(sep.items.countP SepItem.isEscaped = 0 ∨ spelling sep.items = bytes "%.")) :
    JoinUndoes s sep ↔ ∀ a b, s = a ++ literalText sep.items ++ b → b = [] := by
  obtain ⟨ps, hps, hcuts⟩ := splitStr_cuts s sep
  rw [joinUndoes_iff_intercalate hps hcuts]
  exact hcuts.intercalate_eq_iff (literalText_ne_nil sep) (length_lt_nSepLen h)

/-- Joining undoes splitting exactly if no byte of the separator is escaped, or it is `%.`, or
nothing follows its text wherever the string has it. `SplitStr` always returns. -/
theorem splitStr_iff (s : ByteString) (sep : Separator) :
    (∃ ps, Returns (splitStr s (some (spelling sep.items))) (.ok ps)) ∧
      (JoinUndoes s sep ↔
        (∀ i ∈ sep.items, i.isEscaped = false) ∨ spelling sep.items = bytes "%." ∨
          ∀ a b, s = a ++ literalText sep.items ++ b → b = []) := by
  obtain ⟨ps, hps, hcuts⟩ := splitStr_cuts s sep
  refine ⟨⟨ps, hps⟩, ?_⟩
  have hcount : (∀ i ∈ sep.items, i.isEscaped = false) ↔
      sep.items.countP SepItem.isEscaped = 0 := by
    simp only [List.countP_eq_zero, Bool.not_eq_true]
  rw [hcount, ← or_assoc]
  by_cases h : sep.items.countP SepItem.isEscaped = 0 ∨ spelling sep.items = bytes "%."
  · refine iff_of_true ((joinUndoes_iff_intercalate hps hcuts).mpr ?_) (Or.inl h)
    rw [nSepLen_eq h] at hcuts
    exact hcuts.intercalate_eq
  · rw [joinUndoes_iff_of_escaped h, or_iff_right h]

/-- The separator `%%`. -/
def percentSeparator : Separator := ⟨[.escaped percent (by decide)], List.cons_ne_nil _ _⟩

/-- Split at `%%`, the text `a%b` loses its last byte. -/
theorem not_joinUndoes_percent : ¬ JoinUndoes (bytes "a%b") percentSeparator := by
  rw [joinUndoes_iff_of_escaped (by decide)]
  intro h
  exact absurd (h (bytes "a") (bytes "b") rfl) (by decide)

end UnityLua
