import Mathlib.Data.List.TakeWhile
import UnityLua.Library.DecimalDigits

/-!
# The Lua lexer

The tokens of a chunk, as `llex.c` of Lua 5.1.5 reads them, with white space, comments, names and
reserved words, strings in quotes and in long brackets, numerals and all operators.

A numeral is a token only if it consists of decimal digits and is less than `10 ^ 14`. At others,
as at lexical errors, the model has no tokens.

## Main results

* `Lexes`: what the tokens of a chunk are, with rules by which a chunk of constants and table
  constructors is read from its end, one for each kind of token.
* `Quotes.lexes`: a string is read as it was if every byte is.
-/

namespace UnityLua

open Library

/-- The integers of which `tostring`, with its fourteen digits, prints every digit. -/
@[ext] structure ExactInteger where
  val : ℤ
  small : val.natAbs < 10 ^ 14
  deriving DecidableEq

def ExactInteger.neg (n : ExactInteger) : ExactInteger := ⟨-n.val, by simpa using n.small⟩

def ExactInteger.abs (n : ExactInteger) : ExactInteger := ⟨n.val.natAbs, n.small⟩

namespace LuaText

/-! ### Bytes -/

abbrev newline : UInt8 := 10
abbrev carriageReturn : UInt8 := 13
abbrev quote : UInt8 := 34
abbrev apostrophe : UInt8 := 39
abbrev comma : UInt8 := 44
abbrev minus : UInt8 := 45
abbrev dot : UInt8 := 46
abbrev semicolon : UInt8 := 59
abbrev less : UInt8 := 60
abbrev equals : UInt8 := 61
abbrev greater : UInt8 := 62
abbrev openBracket : UInt8 := 91
abbrev backslash : UInt8 := 92
abbrev closeBracket : UInt8 := 93
abbrev underscore : UInt8 := 95
abbrev openBrace : UInt8 := 123
abbrev closeBrace : UInt8 := 125
abbrev tilde : UInt8 := 126

def isspace (c : UInt8) : Bool := (9 ≤ c && c ≤ 13) || c = 32

def isalpha (c : UInt8) : Bool := (65 ≤ c && c ≤ 90) || (97 ≤ c && c ≤ 122)

/-- What a name goes on with. -/
def isNameByte (c : UInt8) : Bool := isalpha c || isDigit c || c = underscore

def currIsNewline (c : UInt8) : Bool := c = newline || c = carriageReturn

/-! ### Tokens -/

inductive Token
  | char (c : UInt8)
  | reserved (word : ByteString)
  | name (s : ByteString)
  | string (s : ByteString)
  | number (r : ExactInteger)
  | eq | le | ge | ne | concat | dots
  deriving DecidableEq

/-- The reserved words of `luaX_tokens`. -/
def reservedWords : List ByteString :=
  ["and", "break", "do", "else", "elseif", "end", "false", "for", "function", "if", "in", "local",
    "nil", "not", "or", "repeat", "return", "then", "true", "until", "while"].map bytes

/-- A second byte of a line end, after `old`, is skipped with it. -/
def inclinenumber (old : UInt8) (z : ByteString) : ByteString :=
  match z with
  | [] => []
  | c :: z' => if currIsNewline c ∧ c ≠ old then z' else c :: z'

/-- `strchr(set, c)`, which also finds the zero byte at the end of the set. -/
def inSet (c : UInt8) (set : ByteString) : Bool := c ∈ set || c = 0

/-- `check_next`: the byte that is saved if it is in the set. -/
def checkNext (set z : ByteString) : ByteString × ByteString :=
  match z with
  | [] => ([], [])
  | c :: z' => if inSet c set then ([c], z') else ([], c :: z')

/-- A buffer as a C string. -/
def bufferText (buff : ByteString) : ByteString := buff.takeWhile (· ≠ 0)

/-- `luaO_str2d`, for numerals of decimal digits. -/
def str2d (text : ByteString) : Option ExactInteger :=
  let s := bufferText text
  if h : s ≠ [] ∧ s.all isDigit ∧ readDecimal s < 10 ^ 14 then
    some ⟨readDecimal s, by simpa using h.2.2⟩
  else none

/-- What a numeral has before its exponent. -/
def isNumeralByte (c : UInt8) : Bool := isDigit c || c = dot

/-- `read_numeral`, with what is in the buffer already. -/
def readNumeral (buff z : ByteString) : Option (Option Token × ByteString) := do
  let digits := z.takeWhile isNumeralByte
  let z := z.dropWhile isNumeralByte
  let e := checkNext (bytes "Ee") z
  let sign := if e.1 = [] then ([], e.2) else checkNext (bytes "+-") e.2
  let text := buff ++ digits ++ e.1 ++ sign.1 ++ sign.2.takeWhile isNameByte
  let r ← str2d text
  some (some (.number r), sign.2.dropWhile isNameByte)

/-- `skip_sep`, at what follows the bracket `s`. -/
def skipSep (s : UInt8) (z : ByteString) : ℤ :=
  let count := (z.takeWhile (· = equals)).length
  if (z.dropWhile (· = equals)).head? = some s then count else -count - 1

/-- The loop of `read_long_string`: the string and what follows its closing bracket. The equals
signs that `skip_sep` passes in vain belong to the string and are not passed here. -/
def readLongString (sep : ℕ) : ℕ → ByteString → Option (ByteString × ByteString)
  | 0, _ => none
  | _, [] => none
  | fuel + 1, c :: z =>
      if c = openBracket ∧ skipSep c z = sep ∧ sep = 0 then none
      else if c = closeBracket ∧ skipSep c z = sep then some ([], z.drop (sep + 1))
      else if currIsNewline c then do
        let s ← readLongString sep fuel (inclinenumber c z)
        some (newline :: s.1, s.2)
      else do
        let s ← readLongString sep fuel z
        some (c :: s.1, s.2)

/-- `read_long_string` at the second bracket, which is followed by `z`. -/
def longString (sep : ℕ) (z : ByteString) : Option (ByteString × ByteString) :=
  let z := match z with
    | [] => []
    | c :: z' => if currIsNewline c then inclinenumber c z' else c :: z'
  readLongString sep (z.length + 1) z

/-- What a byte after a backslash stands for; most stand for themselves. -/
def escaped (c : UInt8) : UInt8 :=
  if c = 97 then 7 else if c = 98 then 8 else if c = 102 then 12 else if c = 110 then newline
  else if c = 114 then carriageReturn else if c = 116 then 9 else if c = 118 then 11 else c

/-- One round of the loop of `read_string`: the byte that is saved. -/
def stringItem (z : ByteString) : Option (UInt8 × ByteString) :=
  match z with
  | [] => none
  | c :: z =>
      if currIsNewline c then none
      else if c = backslash then
        match z with
        | [] => none
        | e :: z =>
            if currIsNewline e then some (newline, inclinenumber e z)
            else if isDigit e then
              let digits := ((e :: z).takeWhile isDigit).take 3
              if readDecimal digits ≤ 255 then
                some (UInt8.ofNat (readDecimal digits), (e :: z).drop digits.length)
              else none
            else some (escaped e, z)
      else some (c, z)

/-- The loop of `read_string`: the string and what follows the delimiter. -/
def readString (del : UInt8) : ℕ → ByteString → Option (ByteString × ByteString)
  | 0, _ => none
  | fuel + 1, z =>
      if z.head? = some del then some ([], z.tail)
      else do
        let item ← stringItem z
        let s ← readString del fuel item.2
        some (item.1 :: s.1, s.2)

/-- What follows a comment whose second hyphen is followed by `z`. -/
def comment (z : ByteString) : Option ByteString :=
  let short := z.dropWhile fun c => !currIsNewline c
  if z.head? = some openBracket then
    let sep := skipSep openBracket z.tail
    if 0 ≤ sep then (longString sep.toNat (z.tail.drop (sep.toNat + 1))).map Prod.snd
    else some short
  else some short

/-- A token of one byte, or of two if it is followed by an equals sign. -/
def orEquals (c : UInt8) (t : Token) (z : ByteString) : Option (Option Token × ByteString) :=
  if z.head? = some equals then some (some t, z.tail) else some (some (.char c), z)

/-- One round of the loop of `llex`, at the byte `c`; there is no token where it goes on. -/
def llex (c : UInt8) (z : ByteString) : Option (Option Token × ByteString) :=
  if currIsNewline c then some (none, inclinenumber c z)
  else if c = minus then
    if z.head? = some minus then do
      let z ← comment z.tail
      some (none, z)
    else some (some (.char c), z)
  else if c = openBracket then
    let sep := skipSep c z
    if 0 ≤ sep then do
      let s ← longString sep.toNat (z.drop (sep.toNat + 1))
      some (some (.string s.1), s.2)
    else if sep = -1 then some (some (.char c), z)
    else none
  else if c = equals then orEquals c .eq z
  else if c = less then orEquals c .le z
  else if c = greater then orEquals c .ge z
  else if c = tilde then orEquals c .ne z
  else if c = quote ∨ c = apostrophe then do
    let s ← readString c (z.length + 1) z
    some (some (.string s.1), s.2)
  else if c = dot then
    let second := checkNext (bytes ".") z
    let third := checkNext (bytes ".") second.2
    if second.1 ≠ [] then
      if third.1 ≠ [] then some (some .dots, third.2) else some (some .concat, second.2)
    else if z.head?.any isDigit then readNumeral [dot] z
    else some (some (.char c), z)
  else if isspace c then some (none, z)
  else if isDigit c then readNumeral [] (c :: z)
  else if isalpha c ∨ c = underscore then
    let ts := (c :: z).takeWhile isNameByte
    let token := if ts ∈ reservedWords then Token.reserved ts else Token.name ts
    some (some token, (c :: z).dropWhile isNameByte)
  else some (some (.char c), z)

/-- The tokens up to the end of the chunk. -/
def tokens : ℕ → ByteString → Option (List Token)
  | _, [] => some []
  | 0, _ :: _ => none
  | fuel + 1, c :: z => do
      let step ← llex c z
      let ts ← tokens fuel step.2
      some (step.1.toList ++ ts)

/-! ### Reading a chunk from its end -/

/-- The tokens of a chunk, whatever the fuel beyond its length. -/
def Lexes (z : ByteString) (ts : List Token) : Prop :=
  ∀ fuel, z.length ≤ fuel → tokens fuel z = some ts

theorem lexes_nil : Lexes [] [] := by
  intro fuel _
  rw [tokens]

/-- A round of the loop, and what comes after it. -/
theorem lexes_cons {c : UInt8} {z z' : ByteString} {t : Option Token} {ts : List Token}
    (hstep : llex c z = some (t, z')) (hle : z'.length ≤ z.length) (h : Lexes z' ts) :
    Lexes (c :: z) (t.toList ++ ts) := by
  intro fuel hfuel
  rw [List.length_cons] at hfuel
  obtain ⟨n, rfl⟩ := Nat.exists_eq_succ_of_ne_zero (by omega : fuel ≠ 0)
  have hrest : tokens n z' = some ts := h n (by omega)
  simp [tokens, hstep, hrest]

/-- Spaces, tabs and single line ends are passed. -/
theorem lexes_space {c : UInt8} {z : ByteString} {ts : List Token} (hc : c = 32 ∨ c = 9)
    (h : Lexes z ts) : Lexes (c :: z) ts := by
  have hstep : llex c z = some (none, z) := by
    rcases hc with rfl | rfl <;> rfl
  exact lexes_cons hstep le_rfl h

theorem lexes_spaces {w z : ByteString} {ts : List Token} (hw : ∀ c ∈ w, c = 32)
    (h : Lexes z ts) : Lexes (w ++ z) ts := by
  induction w with
  | nil => exact h
  | cons c w ih =>
      obtain ⟨hc, hw⟩ := List.forall_mem_cons.mp hw
      exact lexes_space (Or.inl hc) (ih hw)

/-- A line end is passed, unless it is followed by a second byte of it. -/
theorem lexes_newline {z : ByteString} {ts : List Token}
    (hz : ∀ c ∈ z.head?, currIsNewline c = false) (h : Lexes z ts) :
    Lexes (newline :: z) ts := by
  have hskip : inclinenumber newline z = z := by
    rcases z with _ | ⟨c, z⟩
    · rfl
    · simp [inclinenumber, hz c rfl]
  have hstep : llex newline z = some (none, inclinenumber newline z) := rfl
  exact lexes_cons hstep (by rw [hskip]) (by rwa [hskip])

/-- Commas, braces and closing brackets are tokens by themselves. -/
theorem lexes_punctuation {c : UInt8} {z : ByteString} {ts : List Token}
    (hc : c ∈ [comma, semicolon, openBrace, closeBrace, closeBracket]) (h : Lexes z ts) :
    Lexes (c :: z) (.char c :: ts) := by
  have hstep : llex c z = some (some (.char c), z) := by
    simp only [List.mem_cons, List.not_mem_nil, or_false] at hc
    rcases hc with rfl | rfl | rfl | rfl | rfl <;> rfl
  exact lexes_cons hstep le_rfl h

theorem lexes_equals {z : ByteString} {ts : List Token} (hz : z.head? ≠ some equals)
    (h : Lexes z ts) : Lexes (equals :: z) (.char equals :: ts) := by
  have hstep : llex equals z = orEquals equals .eq z := rfl
  rw [orEquals, if_neg hz] at hstep
  exact lexes_cons hstep le_rfl h

/-- A hyphen that does not begin a comment. -/
theorem lexes_minus {z : ByteString} {ts : List Token} (hz : z.head? ≠ some minus)
    (h : Lexes z ts) : Lexes (minus :: z) (.char minus :: ts) := by
  have hstep : llex minus z = some (some (.char minus), z) := by
    have hcurr : currIsNewline minus = false := rfl
    simp [llex, hcurr, hz]
  exact lexes_cons hstep le_rfl h

/-- A bracket that does not begin a long one. -/
theorem lexes_openBracket {z : ByteString} {ts : List Token} (hopen : z.head? ≠ some openBracket)
    (hequals : z.head? ≠ some equals) (h : Lexes z ts) :
    Lexes (openBracket :: z) (.char openBracket :: ts) := by
  have hsep : skipSep openBracket z = -1 := by
    rcases z with _ | ⟨c, z⟩
    · rfl
    · have hc : c ≠ equals := fun h => hequals (h ▸ rfl)
      have hc' : c ≠ openBracket := fun h => hopen (h ▸ rfl)
      simp [skipSep, hc, hc']
  have hstep : llex openBracket z = some (some (.char openBracket), z) := by
    have hcurr : currIsNewline openBracket = false := rfl
    have hminus : openBracket ≠ minus := by decide
    simp [llex, hcurr, hminus, hsep]
  exact lexes_cons hstep le_rfl h

/-! ### Strings -/

/-- A way to write bytes between delimiters that `read_string` undoes. -/
structure Quotes (del : UInt8) (text : UInt8 → ByteString) : Prop where
  item : ∀ c z, stringItem (text c ++ z) = some (c, z)
  head : ∀ c z, (text c ++ z).head? ≠ some del

theorem Quotes.ne_nil {del : UInt8} {text : UInt8 → ByteString} (h : Quotes del text)
    (c : UInt8) : text c ≠ [] := by
  intro hnil
  have hitem := h.item c []
  rw [hnil] at hitem
  simp [stringItem] at hitem

theorem Quotes.length_le {del : UInt8} {text : UInt8 → ByteString} (h : Quotes del text)
    (s : ByteString) : s.length ≤ (s.flatMap text).length := by
  induction s with
  | nil => exact le_rfl
  | cons c s ih =>
      have hpos : 0 < (text c).length := List.length_pos_of_ne_nil (h.ne_nil c)
      rw [List.flatMap_cons, List.length_append, List.length_cons]
      omega

theorem Quotes.readString_eq {del : UInt8} {text : UInt8 → ByteString} (h : Quotes del text)
    (z s : ByteString) {fuel : ℕ} (hfuel : s.length < fuel) :
    readString del fuel (s.flatMap text ++ del :: z) = some (s, z) := by
  induction s generalizing fuel with
  | nil =>
      obtain ⟨n, rfl⟩ := Nat.exists_eq_succ_of_ne_zero (by omega : fuel ≠ 0)
      simp [readString]
  | cons c s ih =>
      rw [List.length_cons] at hfuel
      obtain ⟨n, rfl⟩ := Nat.exists_eq_succ_of_ne_zero (by omega : fuel ≠ 0)
      have hrest := ih (by omega : s.length < n)
      rw [List.flatMap_cons, List.append_assoc, readString, if_neg (h.head c _), h.item]
      simp [hrest]

/-- A string in quotes. -/
theorem Quotes.lexes {text : UInt8 → ByteString} (h : Quotes quote text) (s : ByteString)
    {z : ByteString} {ts : List Token} (hz : Lexes z ts) :
    Lexes (quote :: s.flatMap text ++ quote :: z) (.string s :: ts) := by
  have hlen := h.length_le s
  have hfuel : s.length < (s.flatMap text ++ quote :: z).length + 1 := by
    rw [List.length_append]
    omega
  have hread := h.readString_eq z s hfuel
  have hstep : llex quote (s.flatMap text ++ quote :: z) = some (some (.string s), z) := by
    have hcurr : currIsNewline quote = false := rfl
    simp only [llex, hcurr, hread]
    rfl
  have hle : z.length ≤ (s.flatMap text ++ quote :: z).length := by
    rw [List.length_append, List.length_cons]
    omega
  exact lexes_cons hstep hle hz

/-! ### Names and numerals -/

/-- No name and no numeral goes on here. -/
def EndsWord (z : ByteString) : Prop :=
  ∀ c ∈ z.head?, isNameByte c = false ∧ c ≠ dot ∧ c ≠ 0

theorem takeWhile_append_of_all {p : UInt8 → Bool} {w z : ByteString}
    (hw : ∀ c ∈ w, p c = true) (hz : ∀ c ∈ z.head?, p c = false) :
    (w ++ z).takeWhile p = w ∧ (w ++ z).dropWhile p = z := by
  rw [List.takeWhile_append_of_pos hw, List.dropWhile_append_of_pos hw]
  rcases z with _ | ⟨c, z⟩
  · simp
  · simp [hz c rfl]

theorem isNameByte_bounds {c : UInt8} (hc : isNameByte c = true) :
    48 ≤ c.toNat ∧ c.toNat ≤ 57 ∨ 65 ≤ c.toNat ∧ c.toNat ≤ 90 ∨ c.toNat = 95 ∨
      97 ≤ c.toNat ∧ c.toNat ≤ 122 := by
  simp only [isNameByte, isalpha, isDigit, UInt8.le_iff_toNat_le, ← UInt8.toNat_inj,
    Bool.or_eq_true, Bool.and_eq_true, decide_eq_true_eq] at hc
  have hunderscore : underscore.toNat = 95 := rfl
  simp [hunderscore] at hc
  omega

/-- At a letter, a digit or an underscore, `llex` reads a numeral or a word. -/
theorem llex_nameByte {c : UInt8} (hc : isNameByte c = true) (z : ByteString) :
    llex c z =
      if isDigit c then readNumeral [] (c :: z)
      else
        some (some (if (c :: z).takeWhile isNameByte ∈ reservedWords then
          .reserved ((c :: z).takeWhile isNameByte) else .name ((c :: z).takeWhile isNameByte)),
          (c :: z).dropWhile isNameByte) := by
  have hne : ∀ d : UInt8, isNameByte d = false → c ≠ d := by
    rintro d hd rfl
    simp [hc] at hd
  have hcurr : currIsNewline c = false := by simp [currIsNewline, hne 10 rfl, hne 13 rfl]
  have hspace : isspace c = false := by
    have hbounds := isNameByte_bounds hc
    simp only [isspace, UInt8.le_iff_toNat_le, ← UInt8.toNat_inj]
    simp
    omega
  by_cases hdigit : isDigit c = true
  · simp [llex, hcurr, hspace, hdigit, hne minus rfl, hne openBracket rfl, hne equals rfl,
      hne less rfl, hne greater rfl, hne tilde rfl, hne quote rfl, hne apostrophe rfl, hne dot rfl]
  · have hword : isalpha c = true ∨ c = underscore := by
      simpa [isNameByte, hdigit] using hc
    simp [llex, hcurr, hspace, hdigit, hword, hne minus rfl, hne openBracket rfl, hne equals rfl,
      hne less rfl, hne greater rfl, hne tilde rfl, hne quote rfl, hne apostrophe rfl, hne dot rfl]

/-- The reserved words are names. -/
theorem reservedWords_names :
    reservedWords.all (fun w => w.head?.any (!isDigit ·) && w.all isNameByte) = true := rfl

theorem lexes_reserved {w z : ByteString} {ts : List Token} (hw : w ∈ reservedWords)
    (hz : EndsWord z) (h : Lexes z ts) : Lexes (w ++ z) (.reserved w :: ts) := by
  obtain ⟨hfirst, hnames⟩ := Bool.and_eq_true_iff.mp (List.all_eq_true.mp reservedWords_names w hw)
  obtain ⟨htake, hdrop⟩ := takeWhile_append_of_all (List.all_eq_true.mp hnames)
    fun c hc => (hz c hc).1
  rcases w with _ | ⟨c, w⟩
  · exact absurd hfirst (by simp)
  · have hdigit : ¬isDigit c = true := by simpa using hfirst
    have hstep := llex_nameByte (List.all_eq_true.mp hnames c List.mem_cons_self) (w ++ z)
    rw [if_neg hdigit, ← List.cons_append, htake, hdrop, if_pos hw] at hstep
    exact lexes_cons hstep (by simp) h

theorem str2d_decimal {n : ℕ} (hn : n < 10 ^ 14) :
    str2d (decimal n) = some ⟨n, by simpa using hn⟩ := by
  have htext : bufferText (decimal n) = decimal n := by
    refine List.takeWhile_eq_self_iff.mpr fun c hc => ?_
    have hdigit := isDigit_decimal n c hc
    by_contra h0
    obtain rfl : c = 0 := by simpa using h0
    simp [isDigit] at hdigit
  have hall : (decimal n).all isDigit = true := List.all_eq_true.mpr (isDigit_decimal n)
  have hlt : n < 100000000000000 := by omega
  simp [str2d, htext, hall, decimal_ne_nil, readDecimal_decimal, hlt]

theorem readNumeral_decimal {n : ℕ} (hn : n < 10 ^ 14) {z : ByteString} (hz : EndsWord z) :
    readNumeral [] (decimal n ++ z) = some (some (.number ⟨n, by simpa using hn⟩), z) := by
  have hbytes : ∀ c ∈ decimal n, isNumeralByte c = true := fun c hc => by
    simp [isNumeralByte, isDigit_decimal n c hc]
  have hend : ∀ c ∈ z.head?, isNumeralByte c = false := by
    intro c hc
    obtain ⟨hname, hdot, -⟩ := hz c hc
    simp only [isNameByte, Bool.or_eq_false_iff] at hname
    simp [isNumeralByte, hname.1.2, hdot]
  obtain ⟨htake, hdrop⟩ := takeWhile_append_of_all hbytes hend
  have hexponent : checkNext (bytes "Ee") z = ([], z) := by
    rcases z with _ | ⟨c, z⟩
    · rfl
    · obtain ⟨hname, -, hzero⟩ := hz c rfl
      have hne : c ∉ bytes "Ee" := by
        intro hc
        have hboth : (bytes "Ee").all isNameByte = true := rfl
        simp [List.all_eq_true.mp hboth c hc] at hname
      simp [checkNext, inSet, hne, hzero]
  obtain ⟨hnone, hall⟩ := takeWhile_append_of_all (w := []) (p := isNameByte) (by simp)
    fun c hc => (hz c hc).1
  rw [List.nil_append] at hnone hall
  simp [readNumeral, htake, hdrop, hexponent, hnone, hall, str2d_decimal hn]

theorem lexes_number {n : ℕ} (hn : n < 10 ^ 14) {z : ByteString} {ts : List Token}
    (hz : EndsWord z) (h : Lexes z ts) :
    Lexes (decimal n ++ z) (.number ⟨n, by simpa using hn⟩ :: ts) := by
  obtain ⟨c, w, hw, hdigit⟩ := exists_cons_decimal n
  have hname : isNameByte c = true := by simp [isNameByte, hdigit]
  have hstep := llex_nameByte hname (w ++ z)
  rw [if_pos hdigit, ← List.cons_append, ← hw, readNumeral_decimal hn hz] at hstep
  rw [hw, List.cons_append]
  exact lexes_cons hstep (by simp) h

end LuaText

end UnityLua
