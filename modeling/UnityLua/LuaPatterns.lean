import UnityLua.Library.Cutting
import UnityLua.Library.DecimalDigits
import UnityLua.Library.Loops
import UnityLua.LuaLexer
import UnityLua.LuaStrings

/-!
# Lua patterns

The pattern matching of `lstrlib.c` of Lua 5.1.5, with `string.find` and, for replacements that
are strings, `string.gsub`. Positions in the source are numbers from zero, a position in the
pattern is the rest of the pattern, whose end is the zero byte of the C string.

The match state is changed on the way and changed back where a match fails; here it is passed on,
and what fails has no state. `isalpha` and its like are those of the C locale.

## Main results

* `doMatch`: the matcher, which terminates because what it has still to match gets shorter.
* `maxExpand_eq`, `maxExpand_none`: what the longest repetition gives that goes on to a match, and
  when there is none.
* `doMatch_item` and the lemmas after it: a pattern by the item that it begins with.
* `gsubLoop_unmatched`, `gsubLoop_error`: substitution where nothing matches, or the first thing
  that does not just fail is an error.
-/

namespace UnityLua

open Library

namespace LuaText

abbrev dollar : UInt8 := 36
abbrev percent : UInt8 := 37
abbrev openParen : UInt8 := 40
abbrev closeParen : UInt8 := 41
abbrev star : UInt8 := 42
abbrev plus : UInt8 := 43
abbrev question : UInt8 := 63
abbrev caret : UInt8 := 94

def islower (c : UInt8) : Bool := 97 ≤ c && c ≤ 122

def isupper (c : UInt8) : Bool := 65 ≤ c && c ≤ 90

def isalnum (c : UInt8) : Bool := isalpha c || isDigit c

def ispunct (c : UInt8) : Bool := 33 ≤ c && c ≤ 126 && !isalnum c

def isxdigit (c : UInt8) : Bool := isDigit c || (65 ≤ c && c ≤ 70) || (97 ≤ c && c ≤ 102)

def iscontrol (c : UInt8) : Bool := c < 32 || c = 127

def tolower (c : UInt8) : UInt8 := if isupper c then c + 32 else c

/-- The errors of patterns. -/
inductive PatternError
  | invalidCaptureIndex
  | invalidPatternCapture
  | endsWithPercent
  | missingBracket
  | unbalanced
  | missingFrontier
  | tooManyCaptures
  | unfinishedCapture
  deriving DecidableEq

def PatternError.message : PatternError → String
  | invalidCaptureIndex => "invalid capture index"
  | invalidPatternCapture => "invalid pattern capture"
  | endsWithPercent => "malformed pattern (ends with '%')"
  | missingBracket => "malformed pattern (missing ']')"
  | unbalanced => "unbalanced pattern"
  | missingFrontier => "missing '[' after '%f' in pattern"
  | tooManyCaptures => "too many captures"
  | unfinishedCapture => "unfinished capture"

/-- The length of a capture, or why it has none. -/
inductive CaptureLength
  | unfinished
  | position
  | length (n : ℕ)
  deriving DecidableEq

structure Capture where
  init : ℕ
  len : CaptureLength
  deriving DecidableEq

/-- `MatchState`, without the source. -/
abbrev Captures := List Capture

/-- What a match gives: nothing, or where it ends and the captures. -/
abbrev MatchResult := Except PatternError (Option (ℕ × Captures))

/-- The first of two results that is a match, if the first is no error. -/
def orMatch : MatchResult → MatchResult → MatchResult
  | .error e, _ => .error e
  | .ok (some r), _ => .ok (some r)
  | .ok none, y => y

/-! ### Items -/

/-- The loop of `classend` that looks for the bracket that closes a set, after its first byte. -/
def setEnd : ByteString → Except PatternError ByteString
  | [] => .error .missingBracket
  | [_] => .error .missingBracket
  | x :: y :: p =>
      if x = percent then if p.head? = some closeBracket then .ok p.tail else setEnd p
      else if y = closeBracket then .ok p
      else setEnd (y :: p)

/-- `classend`. -/
def classEnd : ByteString → Except PatternError ByteString
  | [] => .ok []
  | x :: p =>
      if x = percent then
        if p = [] then .error .endsWithPercent else .ok p.tail
      else if x = openBracket then
        setEnd (if p.head? = some caret then p.tail else p)
      else .ok p

/-- `match_class`. -/
def matchClass (c cl : UInt8) : Bool :=
  let res : Option Bool :=
    if tolower cl = 97 then some (isalpha c)
    else if tolower cl = 99 then some (iscontrol c)
    else if tolower cl = 100 then some (isDigit c)
    else if tolower cl = 108 then some (islower c)
    else if tolower cl = 112 then some (ispunct c)
    else if tolower cl = 115 then some (isspace c)
    else if tolower cl = 117 then some (isupper c)
    else if tolower cl = 119 then some (isalnum c)
    else if tolower cl = 120 then some (isxdigit c)
    else if tolower cl = 122 then some (c = 0)
    else none
  match res with
  | none => cl = c
  | some res => if islower cl then res else !res

/-- The loop of `matchbracketclass`, over what is between the brackets. -/
def bracketLoop (c : UInt8) (sig : Bool) : ByteString → Bool
  | [] => !sig
  | [x] =>
      -- an escape there would be followed by the closing bracket
      if x = percent then if matchClass c closeBracket then sig else !sig
      else if x = c then sig else !sig
  | [x, y] =>
      if x = percent then if matchClass c y then sig else !sig
      else if x = c then sig else bracketLoop c sig [y]
  | x :: y :: z :: p =>
      if x = percent then if matchClass c y then sig else bracketLoop c sig (z :: p)
      else if y = minus then if x ≤ c ∧ c ≤ z then sig else bracketLoop c sig p
      else if x = c then sig else bracketLoop c sig (y :: z :: p)

/-- `matchbracketclass`, for what is between the brackets. -/
def matchBracketClass (c : UInt8) (set : ByteString) : Bool :=
  if set.head? = some caret then bracketLoop c false set.tail else bracketLoop c true set

/-- What the pattern has before its rest `ep`. -/
def itemText (p ep : ByteString) : ByteString := p.take (p.length - ep.length)

/-- What is between the brackets of a set that ends before `ep`. -/
def setText (p ep : ByteString) : ByteString := (itemText p ep).tail.dropLast

/-- `singlematch`. -/
def singleMatch (c : UInt8) (p ep : ByteString) : Bool :=
  if p.head? = some dot then true
  else if p.head? = some percent then matchClass c (p.tail.headD 0)
  else if p.head? = some openBracket then matchBracketClass c (setText p ep)
  else p.headD 0 = c

/-! ### Captures -/

/-- `check_capture`. -/
def checkCapture (ms : Captures) (l : UInt8) : Except PatternError Capture :=
  match ms[l.toNat - 49]? with
  | none => .error .invalidCaptureIndex
  | some cap =>
      if l < 49 ∨ cap.len = .unfinished then .error .invalidCaptureIndex else .ok cap

/-- `capture_to_close`: the last capture that is unfinished. -/
def captureToClose (ms : Captures) : Except PatternError ℕ :=
  match (ms.reverse.findIdx? fun cap => cap.len = .unfinished) with
  | none => .error .invalidPatternCapture
  | some k => .ok (ms.length - 1 - k)

/-- `LUA_MAXCAPTURES`. -/
def maxCaptures : ℕ := 32

/-- The captures with the `l`th of them closed at `s`. -/
def closeCapture (ms : Captures) (l s : ℕ) : Captures :=
  ms.modify l fun cap => { cap with len := .length (s - cap.init) }

section Source

variable (src : ByteString)

/-- The text from one position to another. -/
def textBetween (s e : ℕ) : ByteString := (src.drop s).take (e - s)

/-- The text of a finished capture. -/
def captureText (cap : Capture) (len : ℕ) : ByteString := (src.drop cap.init).take len

/-- `match_capture`: where the match goes on, if the source has the capture there. -/
def matchCapture (ms : Captures) (s : ℕ) (l : UInt8) : Except PatternError (Option ℕ) := do
  let cap ← checkCapture ms l
  match cap.len with
  | .unfinished => .error .invalidCaptureIndex
  | .position => .ok none
  | .length len =>
      .ok (if len ≤ src.length - s ∧ captureText src cap len = (src.drop s).take len then
        some (s + len) else none)

/-- The loop of `matchbalance`, over the source after the opening byte. -/
def balanceLoop (b e : UInt8) : ℕ → ByteString → ℕ → Option ℕ
  | _, [], _ => none
  | cont, c :: rest, s =>
      if c = e then if cont - 1 = 0 then some (s + 1) else balanceLoop b e (cont - 1) rest (s + 1)
      else if c = b then balanceLoop b e (cont + 1) rest (s + 1)
      else balanceLoop b e cont rest (s + 1)

/-- `matchbalance`, with the pattern after `%b`. -/
def matchBalance (s : ℕ) (p : ByteString) : Except PatternError (Option ℕ) :=
  match p with
  | b :: e :: _ =>
      .ok (if src[s]? = some b then balanceLoop b e 1 (src.drop (s + 1)) (s + 1) else none)
  | _ => .error .unbalanced

/-- The byte before a position, and at it; both are zero outside the source. -/
def frontierBytes (s : ℕ) : UInt8 × UInt8 :=
  (if s = 0 then 0 else src.getD (s - 1) 0, src.getD s 0)

/-- How often an item matches from `s` on. -/
def maxRepetitions (s : ℕ) (p ep : ByteString) : ℕ :=
  ((src.drop s).takeWhile fun c => singleMatch c p ep).length

/-- The second loop of `max_expand`, where `k` matches what follows the item. -/
def maxExpand (k : ℕ → MatchResult) (s : ℕ) : ℕ → MatchResult
  | 0 => k s
  | i + 1 => orMatch (k (s + (i + 1))) (maxExpand k s i)

/-- `min_expand`, over the rest of the source. -/
def minExpand (single : UInt8 → Bool) (k : ℕ → MatchResult) : ByteString → ℕ → MatchResult
  | [], s => k s
  | c :: rest, s =>
      orMatch (k s) (if single c then minExpand single k rest (s + 1) else .ok none)

theorem setEnd_length {p ep : ByteString} (h : setEnd p = .ok ep) : ep.length < p.length := by
  fun_induction setEnd p with
  | case1 => exact absurd h (by simp)
  | case2 => exact absurd h (by simp)
  | case3 y p _ =>
      obtain rfl := Except.ok.inj h
      simp only [List.length_cons, List.length_tail]
      omega
  | case4 y p _ ih =>
      have := ih h
      simp only [List.length_cons]
      omega
  | case5 x p _ =>
      obtain rfl := Except.ok.inj h
      simp only [List.length_cons]
      omega
  | case6 x y p _ _ ih =>
      have := ih h
      simp only [List.length_cons] at this ⊢
      omega

/-- An item is not empty. -/
theorem classEnd_length {p ep : ByteString} (h : classEnd p = .ok ep) :
    ep.length ≤ p.length - 1 := by
  rcases p with - | ⟨x, p⟩
  · obtain rfl := Except.ok.inj h
    exact Nat.zero_le _
  rw [List.length_cons, Nat.add_sub_cancel]
  rw [classEnd] at h
  split at h
  · split at h
    · exact absurd h (by simp)
    · obtain rfl := Except.ok.inj h
      rw [List.length_tail]
      omega
  split at h
  · have hset := setEnd_length h
    split at hset
    · rw [List.length_tail] at hset
      omega
    · omega
  · obtain rfl := Except.ok.inj h
    exact le_refl _

/-- `match`: where the pattern ends that is matched from `s` on, and with which captures. -/
def doMatch (ms : Captures) (s : ℕ) : ByteString → MatchResult
  | [] => .ok (some (s, ms))
  | c :: p =>
      if c = openParen then
        if ms.length ≥ maxCaptures then .error .tooManyCaptures
        else if p.head? = some closeParen then doMatch (ms ++ [⟨s, .position⟩]) s p.tail
        else doMatch (ms ++ [⟨s, .unfinished⟩]) s p
      else if c = closeParen then
        match captureToClose ms with
        | .error e => .error e
        | .ok l => doMatch (closeCapture ms l s) s p
      else if c = percent ∧ p.head? = some 98 then
        match matchBalance src s p.tail with
        | .error e => .error e
        | .ok none => .ok none
        | .ok (some s) => doMatch ms s (p.drop 3)
      else if c = percent ∧ p.head? = some 102 then
        if p.tail.head? = some openBracket then
          match _hset : classEnd p.tail with
          | .error e => .error e
          | .ok ep =>
              let set := setText p.tail ep
              if matchBracketClass (frontierBytes src s).1 set ∨
                  ¬ matchBracketClass (frontierBytes src s).2 set then .ok none
              else doMatch ms s ep
        else .error .missingFrontier
      else if c = percent ∧ isDigit (p.headD 0) then
        match matchCapture src ms s (p.headD 0) with
        | .error e => .error e
        | .ok none => .ok none
        | .ok (some s) => doMatch ms s p.tail
      else if c = dollar ∧ p = [] then .ok (if s = src.length then some (s, ms) else none)
      else
        match hitem : classEnd (c :: p) with
        | .error e => .error e
        | .ok ep =>
            let m := (src[s]?.map fun x => singleMatch x (c :: p) ep) = some true
            if ep.head? = some question then
              orMatch (if m then doMatch ms (s + 1) ep.tail else .ok none) (doMatch ms s ep.tail)
            else if ep.head? = some star then
              maxExpand (fun s => doMatch ms s ep.tail) s (maxRepetitions src s (c :: p) ep)
            else if ep.head? = some plus then
              if m then
                maxExpand (fun s => doMatch ms s ep.tail) (s + 1)
                  (maxRepetitions src (s + 1) (c :: p) ep)
              else .ok none
            else if ep.head? = some minus then
              minExpand (fun x => singleMatch x (c :: p) ep) (fun s => doMatch ms s ep.tail)
                (src.drop s) s
            else if m then doMatch ms (s + 1) ep
            else .ok none
  termination_by p => p.length
  decreasing_by
    all_goals
      try have hep := classEnd_length ‹classEnd _ = .ok _›
      simp only [List.length_cons, List.length_tail, List.length_drop] at *
      omega

/-- A capture as a value of Lua. -/
inductive CaptureValue
  | text (s : ByteString)
  | position (n : ℕ)

/-- `push_onecapture`, of a match from `s` to `e`. -/
def pushOneCapture (ms : Captures) (i s e : ℕ) : Except PatternError CaptureValue :=
  match ms[i]? with
  | none => if i = 0 then .ok (.text (textBetween src s e)) else .error .invalidCaptureIndex
  | some cap =>
      match cap.len with
      | .unfinished => .error .unfinishedCapture
      | .position => .ok (.position (cap.init + 1))
      | .length len => .ok (.text (captureText src cap len))

/-- `push_captures` without a match, which pushes the captures there are. -/
def pushCaptures (ms : Captures) : Except PatternError (List CaptureValue) :=
  (List.range ms.length).mapM fun i => pushOneCapture src ms i 0 0

/-! ### `string.find` -/

/-- `lmemfind`: where the first string has the second. -/
def lmemfind (s1 s2 : ByteString) : Option ℕ := firstOccurrence s2 s1

/-- `SPECIALS`. -/
def specials : ByteString := bytes "^$*+?.([%-"

/-- The loop of `str_find_aux` from `s1` on, with so many positions after it. -/
def searchFrom (p : ByteString) (anchor : Bool) :
    ℕ → ℕ → Except PatternError (Option (ℕ × ℕ × Captures))
  | 0, s1 =>
      match doMatch src [] s1 p with
      | .error e => .error e
      | .ok none => .ok none
      | .ok (some (e, ms)) => .ok (some (s1, e, ms))
  | n + 1, s1 =>
      match doMatch src [] s1 p with
      | .error e => .error e
      | .ok none => if anchor then .ok none else searchFrom p anchor n (s1 + 1)
      | .ok (some (e, ms)) => .ok (some (s1, e, ms))

/-- `str_find`: start, end and captures of the first match. -/
def strFind (p : ByteString) (init : ℤ) (plain : Bool) :
    Except PatternError (Option (ℕ × ℕ × List CaptureValue)) :=
  let init := min (posrelat init src.length - 1).toNat src.length
  let text := bufferText p
  if plain ∨ text.all (fun c => c ∉ specials) then
    .ok ((lmemfind (src.drop init) p).map fun k => (init + k + 1, init + k + p.length, []))
  else
    let anchor : Bool := text.head? = some caret
    let text := if anchor then text.tail else text
    match searchFrom src text anchor (src.length - init) init with
    | .error e => .error e
    | .ok none => .ok none
    | .ok (some (s1, e, ms)) =>
        match pushCaptures src ms with
        | .error e => .error e
        | .ok values => .ok (some (s1 + 1, e, values))

/-! ### `string.gsub` -/

/-- The text of a value that `luaL_addvalue` adds. -/
def CaptureValue.toText : CaptureValue → ByteString
  | text s => s
  | position n => decimal n

/-- `add_s`: the replacement for a match from `s` to `e`. -/
def addS (ms : Captures) (s e : ℕ) : ByteString → Except PatternError ByteString
  | [] => .ok []
  | [x] => .ok (if x = percent then [0] else [x])
  | x :: y :: news =>
      if x ≠ percent then do
        let rest ← addS ms s e (y :: news)
        .ok (x :: rest)
      else if ¬ isDigit y then do
        let rest ← addS ms s e news
        .ok (y :: rest)
      else if y = 48 then do
        let rest ← addS ms s e news
        .ok (textBetween src s e ++ rest)
      else do
        let value ← pushOneCapture src ms (y.toNat - 49) s e
        let rest ← addS ms s e news
        .ok (value.toText ++ rest)

structure GsubState where
  src : ℕ
  n : ℕ
  b : ByteString

/-- Where the loop of `str_gsub` goes on after it has looked for a match. -/
def gsubAdvance (anchor : Bool) (e : Option ℕ) (st : GsubState) : GsubState ⊕ GsubState :=
  if e.any (fun e => e > st.src) then
    let st : GsubState := { st with src := e.getD 0 }
    if anchor then .inr st else .inl st
  else
    match src[st.src]? with
    | none => .inr st
    | some c =>
        let st : GsubState := ⟨st.src + 1, st.n, st.b ++ [c]⟩
        if anchor then .inr st else .inl st

/-- The loop of `str_gsub`. -/
def gsubStep (p news : ByteString) (anchor : Bool) (maxS : ℤ) (st : GsubState) :
    Except PatternError (GsubState ⊕ GsubState) :=
  if st.n < maxS then
    match doMatch src [] st.src p with
    | .error e => .error e
    | .ok none => .ok (gsubAdvance src anchor none st)
    | .ok (some (e, ms)) =>
        match addS src ms st.src e news with
        | .error e => .error e
        | .ok value =>
            .ok (gsubAdvance src anchor (some e) ⟨st.src, st.n + 1, st.b ++ value⟩)
  else .ok (.inr st)

/-- `str_gsub`, with a string for a replacement: the result and the number of matches. -/
def strGsub (p news : ByteString) (maxS : Option ℤ) : Fueled PatternError (ByteString × ℕ) :=
  let text := bufferText p
  let anchor : Bool := text.head? = some caret
  let text := if anchor then text.tail else text
  let maxS := maxS.getD (src.length + 1)
  (loop (gsubStep src text news anchor maxS) ⟨0, 0, []⟩).andThen fun st =>
    .ok (st.b ++ src.drop st.src, st.n)

end Source

variable {src : ByteString} {ms : Captures} {s : ℕ} {c : UInt8} {p ep : ByteString}

/-! ### Repetitions -/

theorem orMatch_none (y : MatchResult) : orMatch (.ok none) y = y := rfl

theorem orMatch_of_ne {x : MatchResult} (hx : x ≠ .ok none) (y : MatchResult) :
    orMatch x y = x := by
  rcases x with e | - | r
  · rfl
  · exact absurd rfl hx
  · rfl

/-- The longest repetition decides that goes on to a match or to an error. -/
theorem maxExpand_eq {k : ℕ → MatchResult} {n i : ℕ} (hi : i ≤ n) (hk : k (s + i) ≠ .ok none)
    (habove : ∀ j, i < j → j ≤ n → k (s + j) = .ok none) : maxExpand k s n = k (s + i) := by
  induction n with
  | zero =>
      obtain rfl : i = 0 := by omega
      rfl
  | succ n ih =>
      rw [maxExpand]
      rcases Nat.lt_or_eq_of_le hi with hlt | rfl
      · rw [habove (n + 1) hlt (le_refl _), orMatch_none]
        exact ih (by omega) fun j hj hjn => habove j hj (by omega)
      · exact orMatch_of_ne hk _

/-- There is no match if no repetition goes on to one. -/
theorem maxExpand_none {k : ℕ → MatchResult} {n : ℕ} (h : ∀ j ≤ n, k (s + j) = .ok none) :
    maxExpand k s n = .ok none := by
  induction n with
  | zero => exact h 0 (le_refl _)
  | succ n ih =>
      rw [maxExpand, h (n + 1) (le_refl _), orMatch_none]
      exact ih fun j hj => h j (by omega)

/-- What all repetitions go on to, the longest does that goes on to a match. -/
theorem maxExpand_of_forall {k : ℕ → MatchResult} {n : ℕ} {Q : MatchResult → Prop}
    (h : ∀ j ≤ n, Q (k (s + j))) : Q (maxExpand k s n) := by
  induction n with
  | zero => exact h 0 (le_refl _)
  | succ n ih =>
      rw [maxExpand]
      by_cases hk : k (s + (n + 1)) = .ok none
      · rw [hk, orMatch_none]
        exact ih fun j hj => h j (by omega)
      · rw [orMatch_of_ne hk]
        exact h (n + 1) (le_refl _)

/-! ### The matcher, by what the pattern begins with -/

/-- The pattern begins with an item that matches single bytes. -/
structure BeginsWithItem (c : UInt8) (p : ByteString) : Prop where
  ne_openParen : c ≠ openParen
  ne_closeParen : c ≠ closeParen
  not_escape : c = percent → p.head? ≠ some 98 ∧ p.head? ≠ some 102 ∧ isDigit (p.headD 0) = false
  not_end : c = dollar → p ≠ []

theorem doMatch_nil : doMatch src ms s [] = .ok (some (s, ms)) := by
  rw [doMatch]

theorem doMatch_openParen (hms : ms.length < maxCaptures) (hp : p.head? ≠ some closeParen) :
    doMatch src ms s (openParen :: p) = doMatch src (ms ++ [⟨s, .unfinished⟩]) s p := by
  rw [doMatch, if_pos rfl, if_neg (by omega), if_neg hp]

theorem doMatch_openParen_cons (hms : ms.length < maxCaptures) (hc : c ≠ closeParen) :
    doMatch src ms s (openParen :: c :: p) = doMatch src (ms ++ [⟨s, .unfinished⟩]) s (c :: p) :=
  doMatch_openParen hms fun h => hc (Option.some.inj h)

theorem doMatch_closeParen {l : ℕ} (hl : captureToClose ms = .ok l) :
    doMatch src ms s (closeParen :: p) = doMatch src (closeCapture ms l s) s p := by
  have hne : closeParen ≠ openParen := by decide
  rw [doMatch, if_neg hne, if_pos rfl, hl]

/-- The matcher at an item. -/
theorem doMatch_item (h : BeginsWithItem c p) :
    doMatch src ms s (c :: p) =
      match classEnd (c :: p) with
      | .error e => .error e
      | .ok ep =>
          let m := (src[s]?.map fun x => singleMatch x (c :: p) ep) = some true
          if ep.head? = some question then
            orMatch (if m then doMatch src ms (s + 1) ep.tail else .ok none)
              (doMatch src ms s ep.tail)
          else if ep.head? = some star then
            maxExpand (fun s => doMatch src ms s ep.tail) s (maxRepetitions src s (c :: p) ep)
          else if ep.head? = some plus then
            if m then
              maxExpand (fun s => doMatch src ms s ep.tail) (s + 1)
                (maxRepetitions src (s + 1) (c :: p) ep)
            else .ok none
          else if ep.head? = some minus then
            minExpand (fun x => singleMatch x (c :: p) ep) (fun s => doMatch src ms s ep.tail)
              (src.drop s) s
          else if m then doMatch src ms (s + 1) ep
          else .ok none := by
  rw [doMatch, if_neg h.ne_openParen, if_neg h.ne_closeParen,
    if_neg fun hb => (h.not_escape hb.1).1 hb.2, if_neg fun hf => (h.not_escape hf.1).2.1 hf.2,
    if_neg fun hd => Bool.eq_false_iff.mp (h.not_escape hd.1).2.2 hd.2,
    if_neg fun hd => h.not_end hd.1 hd.2]
  split <;> next heq => rw [heq]

/-- The matcher at an item that may be repeated. -/
theorem doMatch_star (h : BeginsWithItem c p) (hep : classEnd (c :: p) = .ok (star :: ep)) :
    doMatch src ms s (c :: p) =
      maxExpand (fun s => doMatch src ms s ep) s
        (maxRepetitions src s (c :: p) (star :: ep)) := by
  have hq : (star :: ep).head? ≠ some question := by
    rw [List.head?_cons]
    decide
  rw [doMatch_item h, hep]
  simp only [if_neg hq]
  rfl

/-- What may come after an item without being its suffix. -/
def NoSuffix (ep : ByteString) : Prop :=
  ep.head? ≠ some question ∧ ep.head? ≠ some star ∧ ep.head? ≠ some plus ∧ ep.head? ≠ some minus

/-- The matcher at an item for one byte. -/
theorem doMatch_single (h : BeginsWithItem c p) (hep : classEnd (c :: p) = .ok ep)
    (hsuffix : NoSuffix ep) :
    doMatch src ms s (c :: p) =
      if src[s]?.any (fun x => singleMatch x (c :: p) ep) then doMatch src ms (s + 1) ep
      else .ok none := by
  obtain ⟨hq, hs, hp, hm⟩ := hsuffix
  rw [doMatch_item h, hep]
  simp only [if_neg hq, if_neg hs, if_neg hp, if_neg hm]
  rcases src[s]? with - | x
  · rfl
  · simp

/-- The matcher at an item that is malformed. -/
theorem doMatch_error (h : BeginsWithItem c p) {e : PatternError}
    (he : classEnd (c :: p) = .error e) : doMatch src ms s (c :: p) = .error e := by
  rw [doMatch_item h, he]

/-! ### Items for one byte -/

/-- The bytes that have a meaning of their own in a pattern, outside sets. -/
def magic : ByteString := bytes "^$()%.[]*+-?"

/-- Bytes that stand for themselves in a pattern, which has no zero bytes. -/
def isOrdinary (c : UInt8) : Bool := c ≠ 0 && c ∉ magic

theorem ne_of_isOrdinary (hc : isOrdinary c = true) {m : UInt8} (hm : m ∈ magic) : c ≠ m := by
  rintro rfl
  simp [isOrdinary, hm] at hc

theorem ne_zero_of_isOrdinary (hc : isOrdinary c = true) : c ≠ 0 := by
  rintro rfl
  simp [isOrdinary] at hc

theorem classEnd_plain (hpercent : c ≠ percent) (hbracket : c ≠ openBracket) :
    classEnd (c :: p) = .ok p := by
  rw [classEnd, if_neg hpercent, if_neg hbracket]

theorem classEnd_escape : classEnd (percent :: c :: p) = .ok p := by
  rw [classEnd, if_pos rfl, if_neg (List.cons_ne_nil _ _), List.tail_cons]

theorem singleMatch_plain (hdot : c ≠ dot) (hpercent : c ≠ percent) (hbracket : c ≠ openBracket)
    (x : UInt8) : singleMatch x (c :: p) ep = decide (c = x) := by
  rw [singleMatch, List.head?_cons, if_neg (fun h => hdot (Option.some.inj h)),
    if_neg (fun h => hpercent (Option.some.inj h)),
    if_neg (fun h => hbracket (Option.some.inj h)), List.headD_cons]

/-- The bounds of punctuation keep it apart from the letters of the classes. -/
theorem ispunct_bounds (hc : ispunct c = true) :
    33 ≤ c.toNat ∧ c.toNat ≤ 126 ∧ ¬(48 ≤ c.toNat ∧ c.toNat ≤ 57) ∧
      ¬(65 ≤ c.toNat ∧ c.toNat ≤ 90) ∧ ¬(97 ≤ c.toNat ∧ c.toNat ≤ 122) := by
  simp only [ispunct, isalnum, isalpha, isDigit, Bool.and_eq_true, Bool.not_eq_true',
    Bool.or_eq_false_iff, Bool.and_eq_false_iff, decide_eq_true_eq, decide_eq_false_iff_not,
    UInt8.le_iff_toNat_le, UInt8.reduceToNat] at hc
  omega

theorem matchClass_punct (hc : ispunct c = true) (x : UInt8) :
    matchClass x c = decide (c = x) := by
  have hb := ispunct_bounds hc
  have hlower : tolower c = c := by
    have hup : isupper c = false := by
      simp only [isupper, Bool.and_eq_false_iff, decide_eq_false_iff_not, UInt8.le_iff_toNat_le,
        UInt8.reduceToNat]
      omega
    simp [tolower, hup]
  have hne : ∀ l : UInt8, 97 ≤ l.toNat ∧ l.toNat ≤ 122 → c ≠ l := by
    rintro l hl rfl
    exact hb.2.2.2.2 hl
  simp only [matchClass, hlower]
  rw [if_neg (hne 97 (by decide)), if_neg (hne 99 (by decide)), if_neg (hne 100 (by decide)),
    if_neg (hne 108 (by decide)), if_neg (hne 112 (by decide)), if_neg (hne 115 (by decide)),
    if_neg (hne 117 (by decide)), if_neg (hne 119 (by decide)), if_neg (hne 120 (by decide)),
    if_neg (hne 122 (by decide))]

theorem singleMatch_escape (hc : ispunct c = true) (x : UInt8) :
    singleMatch x (percent :: c :: p) ep = decide (c = x) := by
  have hdot : percent ≠ dot := by decide
  simp only [singleMatch, List.head?_cons, Option.some.injEq, if_neg hdot, if_pos,
    List.tail_cons, List.headD_cons, matchClass_punct hc]

theorem beginsWithItem_plain (hc : isOrdinary c = true) : BeginsWithItem c p where
  ne_openParen := ne_of_isOrdinary hc (by decide)
  ne_closeParen := ne_of_isOrdinary hc (by decide)
  not_escape h := absurd h (ne_of_isOrdinary hc (by decide))
  not_end h := absurd h (ne_of_isOrdinary hc (by decide))

theorem beginsWithItem_escape (hc : ispunct c = true) : BeginsWithItem percent (c :: p) where
  ne_openParen := by decide
  ne_closeParen := by decide
  not_escape _ := by
    have hb := ispunct_bounds hc
    refine ⟨?_, ?_, ?_⟩
    · rintro ⟨⟩
      exact hb.2.2.2.2 (by decide)
    · rintro ⟨⟩
      exact hb.2.2.2.2 (by decide)
    · rw [List.headD_cons, isDigit, Bool.and_eq_false_iff]
      simp only [decide_eq_false_iff_not, UInt8.le_iff_toNat_le, UInt8.reduceToNat]
      omega
  not_end _ := List.cons_ne_nil _ _

/-! ### Literal bytes -/

theorem any_eq_iff (c : UInt8) :
    src[s]?.any (fun x => decide (c = x)) = true ↔ src[s]? = some c := by
  rcases src[s]? with - | x
  · simp
  · simp [eq_comm]

/-- A byte that stands for itself. -/
theorem doMatch_literal (h : BeginsWithItem c p) (hdot : c ≠ dot) (hpercent : c ≠ percent)
    (hbracket : c ≠ openBracket) (hp : NoSuffix p) :
    doMatch src ms s (c :: p) =
      if src[s]? = some c then doMatch src ms (s + 1) p else .ok none := by
  rw [doMatch_single h (classEnd_plain hpercent hbracket) hp]
  simp only [singleMatch_plain hdot hpercent hbracket, any_eq_iff]

/-- Punctuation that is escaped. -/
theorem doMatch_escaped (hc : ispunct c = true) (hp : NoSuffix p) :
    doMatch src ms s (percent :: c :: p) =
      if src[s]? = some c then doMatch src ms (s + 1) p else .ok none := by
  rw [doMatch_single (beginsWithItem_escape hc) classEnd_escape hp]
  simp only [singleMatch_escape hc, any_eq_iff]

/-! ### Sets of all bytes but one -/

/-- The set of all bytes but `c`, before the rest of a pattern. -/
abbrev notSet (c : UInt8) (p : ByteString) : ByteString :=
  openBracket :: caret :: c :: closeBracket :: p

theorem beginsWithItem_set : BeginsWithItem openBracket p where
  ne_openParen := by decide
  ne_closeParen := by decide
  not_escape h := absurd h (by decide)
  not_end h := absurd h (by decide)

theorem classEnd_notSet (hc : c ≠ percent) : classEnd (notSet c p) = .ok p := by
  have hbracket : openBracket ≠ percent := by decide
  rw [classEnd, if_neg hbracket, if_pos rfl, List.head?_cons, if_pos rfl, List.tail_cons, setEnd,
    if_neg hc, if_pos rfl]

theorem singleMatch_notSet (hc : c ≠ percent) (x : UInt8) :
    singleMatch x (notSet c p) p = decide (c ≠ x) := by
  have hset : setText (notSet c p) p = [caret, c] := by
    have hlen : (notSet c p).length - p.length = 4 := by
      simp only [List.length_cons]
      omega
    rw [setText, itemText, hlen]
    rfl
  have hdot : openBracket ≠ dot := by decide
  have hpercent : openBracket ≠ percent := by decide
  rw [singleMatch, List.head?_cons, if_neg (fun h => hdot (Option.some.inj h)),
    if_neg (fun h => hpercent (Option.some.inj h)), if_pos rfl, hset, matchBracketClass,
    List.head?_cons, if_pos rfl, List.tail_cons, bracketLoop, if_neg hc]
  by_cases hx : c = x
  · simp [hx]
  · simp [hx]

/-! ### Captures -/

theorem captureToClose_append (ms : Captures) (s : ℕ) :
    captureToClose (ms ++ [⟨s, .unfinished⟩]) = .ok ms.length := by
  rw [captureToClose, List.reverse_append]
  simp [List.findIdx?_cons]

theorem closeCapture_append (ms : Captures) (i s : ℕ) :
    closeCapture (ms ++ [⟨i, .unfinished⟩]) ms.length s = ms ++ [⟨i, .length (s - i)⟩] := by
  induction ms with
  | nil => rfl
  | cons cap ms ih =>
      rw [closeCapture] at ih
      rw [closeCapture, List.cons_append, List.length_cons, List.modify_succ_cons, ih,
        List.cons_append]

/-- The end of the capture that was begun last. -/
theorem doMatch_closeParen_append (i : ℕ) :
    doMatch src (ms ++ [⟨i, .unfinished⟩]) s (closeParen :: p) =
      doMatch src (ms ++ [⟨i, .length (s - i)⟩]) s p := by
  rw [doMatch_closeParen (captureToClose_append ms i), closeCapture_append]

theorem doMatch_closeParen_singleton (i : ℕ) :
    doMatch src [⟨i, .unfinished⟩] s (closeParen :: p) =
      doMatch src [⟨i, .length (s - i)⟩] s p := by
  have happend := @doMatch_closeParen_append src [] s p i
  rwa [List.nil_append, List.nil_append] at happend

/-- Where no capture is unfinished there is none to end. -/
theorem doMatch_closeParen_error {e : PatternError} (he : captureToClose ms = .error e) :
    doMatch src ms s (closeParen :: p) = .error e := by
  have hne : closeParen ≠ openParen := by decide
  rw [doMatch, if_neg hne, if_pos rfl, he]

/-! ### Substitutions -/

section Gsub

variable {news : ByteString} {maxS : ℤ} {st : GsubState} {k : ℕ}

/-- A position without a match is passed. -/
theorem gsubStep_of_none {x : UInt8} (hn : st.n < maxS)
    (hmatch : doMatch src [] st.src p = .ok none) (hx : src[st.src]? = some x) :
    gsubStep src p news false maxS st = .ok (.inl ⟨st.src + 1, st.n, st.b ++ [x]⟩) := by
  rw [gsubStep, if_pos hn, hmatch]
  simp only [gsubAdvance, Option.any_none, if_neg Bool.false_ne_true, hx]

/-- The end of the source without a match ends the loop. -/
theorem gsubStep_of_end (hn : st.n < maxS) (hmatch : doMatch src [] st.src p = .ok none)
    (hx : src[st.src]? = none) : gsubStep src p news false maxS st = .ok (.inr st) := by
  rw [gsubStep, if_pos hn, hmatch]
  simp only [gsubAdvance, Option.any_none, if_neg Bool.false_ne_true, hx]

/-- A match that is not empty is replaced. -/
theorem gsubStep_of_match {e : ℕ} {v : ByteString} (hn : st.n < maxS)
    (hmatch : doMatch src [] st.src p = .ok (some (e, ms)))
    (hv : addS src ms st.src e news = .ok v) (he : st.src < e) :
    gsubStep src p news false maxS st = .ok (.inl ⟨e, st.n + 1, st.b ++ v⟩) := by
  rw [gsubStep, if_pos hn, hmatch]
  simp only [hv, gsubAdvance, Option.any_some, decide_eq_true he, if_true, Option.getD_some,
    if_neg Bool.false_ne_true]

theorem gsubStep_of_error {e : PatternError} (hn : st.n < maxS)
    (hmatch : doMatch src [] st.src p = .error e) :
    gsubStep src p news false maxS st = .error e := by
  rw [gsubStep, if_pos hn, hmatch]

/-- The states of the loop where nothing has matched yet. -/
def unmatchedAt (src : ByteString) (k : ℕ) : GsubState := ⟨k, 0, src.take k⟩

theorem gsubStep_unmatchedAt (hk : k < src.length) (hmatch : doMatch src [] k p = .ok none) :
    gsubStep src p news false (src.length + 1) (unmatchedAt src k) =
      .ok (.inl (unmatchedAt src (k + 1))) := by
  have hn : ((unmatchedAt src k).n : ℤ) < src.length + 1 := by
    simp only [unmatchedAt]
    omega
  rw [gsubStep_of_none hn hmatch (List.getElem?_eq_getElem hk)]
  simp only [unmatchedAt, List.take_succ_eq_append_getElem hk]

/-- A source without a match stays as it is. -/
theorem gsubLoop_unmatched (hnone : ∀ k ≤ src.length, doMatch src [] k p = .ok none) :
    Returns (loop (gsubStep src p news false (src.length + 1)) ⟨0, 0, []⟩)
      (.ok (unmatchedAt src src.length)) := by
  have hcounts : Counts (gsubStep src p news false (src.length + 1)) (unmatchedAt src)
      src.length (unmatchedAt src src.length) := by
    refine ⟨fun k hk => gsubStep_unmatchedAt hk (hnone k hk.le), gsubStep_of_end ?_ ?_ ?_⟩
    · simp only [unmatchedAt]
      omega
    · exact hnone _ (le_refl _)
    · simp [unmatchedAt]
  exact hcounts.returns

/-- The first position at which the matcher does not just fail decides about an error. -/
theorem gsubLoop_error {e : PatternError} (hk : k ≤ src.length)
    (hnone : ∀ j < k, doMatch src [] j p = .ok none) (herror : doMatch src [] k p = .error e) :
    Returns (loop (gsubStep src p news false (src.length + 1)) ⟨0, 0, []⟩) (.error e) := by
  have hfrom : ∀ m j, j + m = k →
      Returns (loop (gsubStep src p news false (src.length + 1)) (unmatchedAt src j))
        (.error e) := by
    intro m
    induction m with
    | zero =>
        intro j hj
        obtain rfl : j = k := hj
        refine Returns.fail (gsubStep_of_error ?_ herror)
        simp only [unmatchedAt]
        omega
    | succ m ih =>
        intro j hj
        exact (ih (j + 1) (by omega)).next
          (gsubStep_unmatchedAt (by omega) (hnone j (by omega)))
  exact hfrom k 0 (Nat.zero_add k)

end Gsub

end LuaText

end UnityLua
