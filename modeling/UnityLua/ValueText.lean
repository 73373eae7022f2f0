import UnityLua.LuaParser

/-!
# Values as text

`Lib.Val2Str` and `Lib.Str2Val` of `lib.lua`, on `nil`, booleans, integers, strings of any bytes and
tables of these at any depth. `Val2Str` writes an expression, which `Str2Val` has Lua evaluate.

## Main results

* `escape_quotes`: after the four substitutions the lexer reads every byte of a string as it was.
* `lexes_dataText`: the tokens of what is written, at any indentation.
* `expr_dataTokens`, `eval_dataExp`: what the parser makes of them, and its value.
* `str2Val_val2Str`: what is written is read again.
-/

namespace UnityLua

open Library LuaText

/-! ### The two functions -/

/-- `StrVal2Str`. -/
def StrVal2Str (szVal : ByteString) : ByteString :=
  let szVal := gsub (· = backslash) (bytes "\\\\") szVal
  let szVal := gsub (· = quote) (bytes "\\\"") szVal
  let szVal := gsub (· = newline) (bytes "\\n") szVal
  let szVal := gsub (· = carriageReturn) (bytes "\\r") szVal
  bytes "\"" ++ szVal ++ bytes "\""

/-- `tostring`, of a number that it prints in full. -/
def tostring (n : ExactInteger) : ByteString :=
  if n.val < 0 then minus :: decimal n.val.natAbs else decimal n.val.natAbs

/-- `Lib.Val2Str` of what is no table. -/
def scalarText : LuaScalar → ByteString
  | .boolean b => if b then bytes "true" else bytes "false"
  | .number n => tostring n
  | .string s => StrVal2Str s

/-- The line of an entry, by the text of its value. -/
def szPair (szTbBlank : ByteString) (k : LuaScalar) (value : ByteString) : ByteString :=
  szTbBlank ++ bytes "[" ++ scalarText k ++ bytes "]\t= " ++ value ++ bytes ",\n"

/-- `Lib.Val2Str` of a value that is not `nil`. -/
def dataText : LuaData → Option ByteString → ByteString
  | .scalar s, _ => scalarText s
  | .table keys _ value, szBlank =>
      let szBlank := szBlank.getD []
      let szTbBlank := szBlank ++ bytes "  "
      let szCode := keys.attach.flatMap fun k =>
        szPair szTbBlank k.1 (dataText (value k) (some szTbBlank))
      if szCode = [] then bytes "\x7b\x7d"
      else bytes "\n" ++ szBlank ++ bytes "\x7b\n" ++ szCode ++ szBlank ++ bytes "\x7d"

/-- `Lib.Val2Str`. -/
def Val2Str (var : Option LuaData) (szBlank : Option ByteString) : ByteString :=
  match var with
  | none => bytes "nil"
  | some v => dataText v szBlank

/-- `Lib.Str2Val`. -/
def Str2Val (szVal : ByteString) : Option (Option LuaData) := loadstring (bytes "return " ++ szVal)

/-! ### Strings -/

/-- What the four substitutions make of a byte. -/
def escape (c : UInt8) : ByteString :=
  if c = backslash then [backslash, backslash]
  else if c = quote then [backslash, quote]
  else if c = newline then [backslash, 110]
  else if c = carriageReturn then [backslash, 114]
  else [c]

theorem escape_cases (c : UInt8) :
    c = backslash ∨ c = quote ∨ c = newline ∨ c = carriageReturn ∨
      (c ≠ backslash ∧ c ≠ quote ∧ c ≠ newline ∧ c ≠ carriageReturn) := by
  tauto

/-- No substitution touches what an earlier one has put. -/
theorem strVal2Str_eq (s : ByteString) :
    StrVal2Str s = quote :: s.flatMap escape ++ [quote] := by
  have hpasses : gsub (· = carriageReturn) [backslash, 114] (gsub (· = newline) [backslash, 110]
      (gsub (· = quote) [backslash, quote] (gsub (· = backslash) [backslash, backslash] s))) =
        s.flatMap escape := by
    induction s with
    | nil => rfl
    | cons c s ih =>
        rw [gsub_cons, gsub_append, gsub_append, gsub_append, ih, List.flatMap_cons]
        congr 1
        rcases escape_cases c with rfl | rfl | rfl | rfl | ⟨hb, hq, hn, hr⟩
        · rfl
        · rfl
        · rfl
        · rfl
        · simp [gsub, escape, hb, hq, hn, hr]
  exact congrArg (fun text => quote :: text ++ [quote]) hpasses

/-- The lexer reads every byte as it was. -/
theorem escape_quotes : Quotes quote escape where
  item := by
    intro c z
    rcases escape_cases c with rfl | rfl | rfl | rfl | ⟨hb, hq, hn, hr⟩
    · rfl
    · rfl
    · rfl
    · rfl
    · simp [escape, hb, hq, hn, hr, stringItem, currIsNewline]
  head := by
    intro c z
    have hne : backslash ≠ quote := by decide
    rcases escape_cases c with rfl | rfl | rfl | rfl | ⟨hb, hq, hn, hr⟩
    · exact fun h => hne (Option.some.inj h)
    · exact fun h => hne (Option.some.inj h)
    · exact fun h => hne (Option.some.inj h)
    · exact fun h => hne (Option.some.inj h)
    · simp [escape, hb, hq, hn, hr]

theorem lexes_strVal2Str (s : ByteString) {z : ByteString} {ts : List Token} (h : Lexes z ts) :
    Lexes (StrVal2Str s ++ z) (.string s :: ts) := by
  have hquoted := escape_quotes.lexes s h
  rwa [strVal2Str_eq, List.append_assoc, List.singleton_append]

/-! ### The tokens of a text -/

/-- The tokens of a scalar. -/
def scalarTokens : LuaScalar → List Token
  | .boolean b => [.reserved (if b then bytes "true" else bytes "false")]
  | .number n => if n.val < 0 then [.char minus, .number n.abs] else [.number n.abs]
  | .string s => [.string s]

/-- The tokens of an entry, by those of its value. -/
def pairTokens (k : LuaScalar) (value : List Token) : List Token :=
  .char openBracket :: scalarTokens k ++ .char closeBracket :: .char equals :: value ++
    [.char comma]

/-- The tokens of a value. -/
def dataTokens : LuaData → List Token
  | .scalar s => scalarTokens s
  | .table keys _ value =>
      .char openBrace :: keys.attach.flatMap (fun k => pairTokens k.1 (dataTokens (value k))) ++
        [.char closeBrace]

/-- A scalar begins with a byte that makes no long bracket of the one before it. -/
theorem scalarText_head (s : LuaScalar) :
    ∃ c w, scalarText s = c :: w ∧ c ≠ openBracket ∧ c ≠ equals := by
  rcases s with b | n | s
  · rcases b
    · exact ⟨102, _, rfl, by decide, by decide⟩
    · exact ⟨116, _, rfl, by decide, by decide⟩
  · obtain ⟨c, w, hw, hdigit⟩ := exists_cons_decimal n.val.natAbs
    rw [scalarText, tostring, hw]
    split
    · exact ⟨minus, _, rfl, by decide, by decide⟩
    · exact ⟨c, w, rfl, ne_of_isDigit hdigit rfl, ne_of_isDigit hdigit rfl⟩
  · exact ⟨quote, _, strVal2Str_eq s, by decide, by decide⟩

theorem lexes_scalarText (s : LuaScalar) {z : ByteString} {ts : List Token} (hz : EndsWord z)
    (h : Lexes z ts) : Lexes (scalarText s ++ z) (scalarTokens s ++ ts) := by
  rcases s with b | n | s
  · rcases b
    · exact lexes_reserved (by decide) hz h
    · exact lexes_reserved (by decide) hz h
  · have hnumber := lexes_number n.small hz h
    rw [scalarText, tostring, scalarTokens]
    split
    · refine lexes_minus ?_ hnumber
      obtain ⟨c, w, hw, hdigit⟩ := exists_cons_decimal n.val.natAbs
      rw [hw]
      exact fun hc => ne_of_isDigit hdigit rfl (Option.some.inj hc)
    · exact hnumber
  · exact lexes_strVal2Str s h

theorem endsWord_cons {c : UInt8} (hc : isNameByte c = false ∧ c ≠ dot ∧ c ≠ 0) (z : ByteString) :
    EndsWord (c :: z) := by
  intro d hd
  obtain rfl : c = d := Option.some.inj hd
  exact hc

theorem szPair_append (w : ByteString) (k : LuaScalar) (text z : ByteString) :
    szPair w k text ++ z = w ++ openBracket :: (scalarText k ++
      closeBracket :: 9 :: equals :: 32 :: (text ++ comma :: newline :: z)) := by
  have hopens : bytes "[" = [openBracket] := rfl
  have hmiddle : bytes "]\t= " = [closeBracket, 9, equals, 32] := rfl
  have hends : bytes ",\n" = [comma, newline] := rfl
  simp [szPair, hopens, hmiddle, hends]

theorem szPair_ne_nil {w : ByteString} {k : LuaScalar} {text : ByteString} :
    szPair w k text ≠ [] := by
  rw [← List.append_nil (szPair w k text), szPair_append]
  simp

/-- The line of an entry, if its value is read as it is written. -/
theorem lexes_szPair {w : ByteString} (hw : ∀ c ∈ w, c = 32) (k : LuaScalar) {text : ByteString}
    {value : List Token}
    (hvalue : ∀ z ts, EndsWord z → Lexes z ts → Lexes (text ++ z) (value ++ ts))
    {z : ByteString} {ts : List Token} (hz : ∀ c ∈ z.head?, currIsNewline c = false)
    (h : Lexes z ts) : Lexes (szPair w k text ++ z) (pairTokens k value ++ ts) := by
  have hcomma : Lexes (comma :: newline :: z) (.char comma :: ts) :=
    lexes_punctuation (by simp) (lexes_newline hz h)
  have hright := hvalue _ _ (endsWord_cons (by decide) _) hcomma
  have hspace : (32 : UInt8) ≠ equals := by decide
  have hequals : Lexes (equals :: 32 :: (text ++ comma :: newline :: z))
      (.char equals :: (value ++ .char comma :: ts)) :=
    lexes_equals (fun h => hspace (Option.some.inj h)) (lexes_space (Or.inl rfl) hright)
  have hclose : Lexes (closeBracket :: 9 :: equals :: 32 :: (text ++ comma :: newline :: z))
      (.char closeBracket :: .char equals :: (value ++ .char comma :: ts)) :=
    lexes_punctuation (by simp) (lexes_space (Or.inr rfl) hequals)
  have hkey := lexes_scalarText k (endsWord_cons (by decide) _) hclose
  obtain ⟨c, v, hc, hopen, hne⟩ := scalarText_head k
  have hbracket := lexes_openBracket
    (by rw [hc]; exact fun h => hopen (Option.some.inj h))
    (by rw [hc]; exact fun h => hne (Option.some.inj h)) hkey
  have hline := lexes_spaces hw hbracket
  have htokens : pairTokens k value ++ ts = .char openBracket :: (scalarTokens k ++
      .char closeBracket :: .char equals :: (value ++ .char comma :: ts)) := by
    simp [pairTokens]
  rw [szPair_append, htokens]
  exact hline

theorem head_spaces {w : ByteString} (hw : ∀ c ∈ w, c = 32) {c : UInt8}
    (hc : currIsNewline c = false) (z : ByteString) :
    ∀ d ∈ (w ++ c :: z).head?, currIsNewline d = false := by
  intro d hd
  rcases w with _ | ⟨e, w⟩
  · obtain rfl : c = d := Option.some.inj hd
    exact hc
  · obtain rfl : e = d := Option.some.inj hd
    rw [hw e List.mem_cons_self]
    rfl

/-- The lines of entries, one after another. -/
theorem lexes_szPairs {w : ByteString} (hw : ∀ c ∈ w, c = 32) {K : Type} (key : K → LuaScalar)
    (text : K → ByteString) (value : K → List Token)
    (hvalue : ∀ k z ts, EndsWord z → Lexes z ts → Lexes (text k ++ z) (value k ++ ts))
    {z : ByteString} {ts : List Token} (hz : ∀ c ∈ z.head?, currIsNewline c = false)
    (h : Lexes z ts) (l : List K) :
    (∀ c ∈ (l.flatMap (fun k => szPair w (key k) (text k)) ++ z).head?,
      currIsNewline c = false) ∧
    Lexes (l.flatMap (fun k => szPair w (key k) (text k)) ++ z)
      (l.flatMap (fun k => pairTokens (key k) (value k)) ++ ts) := by
  induction l with
  | nil => exact ⟨hz, h⟩
  | cons k l ih =>
      obtain ⟨hhead, hlexes⟩ := ih
      simp only [List.flatMap_cons, List.append_assoc]
      refine ⟨?_, lexes_szPair hw (key k) (hvalue k) hhead hlexes⟩
      rw [szPair_append]
      exact head_spaces hw rfl _

/-- What `Val2Str` writes of a value is read as the tokens of the value, before anything that ends
a word. -/
theorem lexes_dataText (v : LuaData) (szBlank : Option ByteString)
    (hblank : ∀ c ∈ szBlank.getD [], c = 32) (z : ByteString) (ts : List Token)
    (hz : EndsWord z) (h : Lexes z ts) :
    Lexes (dataText v szBlank ++ z) (dataTokens v ++ ts) := by
  induction v generalizing szBlank z ts with
  | scalar s => exact lexes_scalarText s hz h
  | table keys nodup value ih =>
      have hclose : Lexes (closeBrace :: z) (.char closeBrace :: ts) :=
        lexes_punctuation (by simp) h
      set w := szBlank.getD [] with hw
      have hblanks : ∀ c ∈ w ++ bytes "  ", c = 32 := by
        intro c hc
        rcases List.mem_append.mp hc with hc | hc
        · exact hblank c hc
        · have hspaces : bytes "  " = [32, 32] := rfl
          simpa [hspaces] using hc
      have hlines := lexes_szPairs hblanks (fun k : {k // k ∈ keys} => k.1)
        (fun k => dataText (value k) (some (w ++ bytes "  "))) (fun k => dataTokens (value k))
        (fun k z ts => ih k (some (w ++ bytes "  ")) hblanks z ts)
        (head_spaces hblank rfl z) (lexes_spaces hblank hclose) keys.attach
      have htokens : dataTokens (.table keys nodup value) ++ ts = .char openBrace ::
          (keys.attach.flatMap (fun k => pairTokens k.1 (dataTokens (value k))) ++
            .char closeBrace :: ts) := by
        simp [dataTokens]
      rw [htokens, dataText]
      split
      · next hcode =>
        -- only a table without keys is written as `{}`
        have hnil : keys.attach = [] := by
          refine List.eq_nil_iff_forall_not_mem.mpr fun k hk => ?_
          exact szPair_ne_nil (List.flatMap_eq_nil_iff.mp hcode k hk)
        rw [hnil]
        exact lexes_punctuation (by simp) hclose
      · have hopen := lexes_punctuation (c := openBrace) (by simp)
          (lexes_newline hlines.1 hlines.2)
        have hfirst := lexes_newline (head_spaces hblank rfl _) (lexes_spaces hblank hopen)
        have hnewline : bytes "\n" = [newline] := rfl
        have hbrace : bytes "\x7b\n" = [openBrace, newline] := rfl
        have hend : bytes "\x7d" = [closeBrace] := rfl
        simpa [hnewline, hbrace, hend] using hfirst

/-! ### The expression -/

def scalarExp : LuaScalar → Exp
  | .boolean b => .boolean b
  | .number n => if n.val < 0 then .minus (.number n.abs) else .number n.abs
  | .string s => .string s

/-- The expression of a value: its entries are stored into a new table. -/
def dataExp : LuaData → Exp
  | .scalar s => scalarExp s
  | .table keys _ value =>
      keys.attach.foldl (fun t k => .settable t (scalarExp k.1) (dataExp (value k))) .newtable

theorem expr_scalarTokens (s : LuaScalar) (rest : List Token) {fuel : ℕ}
    (hfuel : (scalarTokens s).length ≤ fuel) :
    expr fuel (scalarTokens s ++ rest) = some (scalarExp s, rest) := by
  rcases s with b | n | s
  · obtain ⟨m, rfl⟩ := Nat.exists_eq_add_of_le' hfuel
    rcases b <;> rfl
  · by_cases hn : n.val < 0
    · rw [scalarTokens, if_pos hn] at hfuel ⊢
      obtain ⟨m, rfl⟩ := Nat.exists_eq_add_of_le' hfuel
      simp [expr, scalarExp, hn]
    · rw [scalarTokens, if_neg hn] at hfuel ⊢
      obtain ⟨m, rfl⟩ := Nat.exists_eq_add_of_le' hfuel
      simp [expr, scalarExp, hn]
  · obtain ⟨m, rfl⟩ := Nat.exists_eq_add_of_le' hfuel
    rfl

/-- A field is read, and a comma after it. -/
theorem recfield_pairTokens {e : List Token → Option (Exp × List Token)} {k : LuaScalar}
    {value : List Token} {val : Exp}
    (hkey : ∀ rest, e (scalarTokens k ++ rest) = some (scalarExp k, rest))
    (hvalue : ∀ rest, e (value ++ rest) = some (val, rest)) (t : Exp) (rest : List Token) :
    recfield e t (pairTokens k value ++ rest) =
      some (.settable t (scalarExp k) val, .char comma :: rest) := by
  have htokens : pairTokens k value ++ rest = .char openBracket :: (scalarTokens k ++
      .char closeBracket :: .char equals :: (value ++ .char comma :: rest)) := by
    simp [pairTokens]
  simp [htokens, recfield, hkey, hvalue, checknext]

/-- The fields of a constructor are stored one after another. -/
theorem constructorFields_pairs {K : Type} (key : K → LuaScalar) (value : K → List Token)
    (val : K → Exp)
    (hvalue : ∀ k rest fuel, (value k).length ≤ fuel →
      expr fuel (value k ++ rest) = some (val k, rest))
    (l : List K) (t : Exp) (rest : List Token) {fuel : ℕ}
    (hfuel : (l.flatMap fun k => pairTokens (key k) (value k)).length < fuel) :
    constructorFields fuel t
        (l.flatMap (fun k => pairTokens (key k) (value k)) ++ .char closeBrace :: rest) =
      some (l.foldl (fun t k => .settable t (scalarExp (key k)) (val k)) t, rest) := by
  induction l generalizing t fuel with
  | nil =>
      obtain ⟨m, rfl⟩ := Nat.exists_eq_succ_of_ne_zero (by omega : fuel ≠ 0)
      simp [constructorFields]
  | cons k l ih =>
      obtain ⟨m, rfl⟩ := Nat.exists_eq_succ_of_ne_zero (by omega : fuel ≠ 0)
      have hpair : (pairTokens (key k) (value k)).length =
          (scalarTokens (key k)).length + (value k).length + 4 := by
        simp [pairTokens]
        omega
      rw [List.flatMap_cons, List.length_append, hpair] at hfuel
      have hfield := recfield_pairTokens (e := expr m)
        (fun rest => expr_scalarTokens (key k) rest (by omega))
        (fun rest => hvalue k rest m (by omega)) t
        (l.flatMap (fun k => pairTokens (key k) (value k)) ++ .char closeBrace :: rest)
      have hrest := ih (.settable t (scalarExp (key k)) (val k)) (by omega : _ < m)
      have hhead : (pairTokens (key k) (value k) ++ (l.flatMap (fun k =>
          pairTokens (key k) (value k)) ++ .char closeBrace :: rest)).head? ≠
            some (.char closeBrace) := by
        have hne : openBracket ≠ closeBrace := by decide
        simp [pairTokens, hne]
      rw [List.flatMap_cons, List.append_assoc, constructorFields, if_neg hhead, hfield]
      simp [hrest]

/-- The tokens of a value are read as its expression, whatever follows them. -/
theorem expr_dataTokens (v : LuaData) (rest : List Token) {fuel : ℕ}
    (hfuel : (dataTokens v).length ≤ fuel) :
    expr fuel (dataTokens v ++ rest) = some (dataExp v, rest) := by
  induction v generalizing rest fuel with
  | scalar s => exact expr_scalarTokens s rest hfuel
  | table keys nodup value ih =>
      have htokens : dataTokens (.table keys nodup value) ++ rest = .char openBrace ::
          (keys.attach.flatMap (fun k => pairTokens k.1 (dataTokens (value k))) ++
            .char closeBrace :: rest) := by
        simp [dataTokens]
      rw [dataTokens, List.length_append, List.length_cons, List.length_singleton] at hfuel
      obtain ⟨m, rfl⟩ := Nat.exists_eq_succ_of_ne_zero (by omega : fuel ≠ 0)
      have hfields := constructorFields_pairs (fun k : {k // k ∈ keys} => k.1)
        (fun k => dataTokens (value k)) (fun k => dataExp (value k))
        (fun k rest fuel h => ih k rest h) keys.attach .newtable rest (by omega : _ < m)
      have hne : openBrace ≠ minus := by decide
      rw [htokens]
      simp [expr, dataExp, hfields, hne]

/-! ### Its value -/

theorem eval_scalarExp (s : LuaScalar) : eval (scalarExp s) = some (some (.scalar s)) := by
  rcases s with b | n | s
  · rfl
  · by_cases hn : n.val < 0
    · have hneg : n.abs.neg = n := ExactInteger.ext (by
        change -(n.val.natAbs : ℤ) = n.val
        omega)
      simp [scalarExp, hn, eval, hneg]
    · have habs : n.abs = n := ExactInteger.ext (by
        change (n.val.natAbs : ℤ) = n.val
        omega)
      simp [scalarExp, hn, eval, habs]
  · rfl

/-- A store changes one cell. -/
theorem settable_cells {t : LuaData} (ht : t.IsTable) (k : LuaScalar) (v : LuaData) :
    ∃ t', settable (some t) (some (.scalar k)) (some v) = some t' ∧ t'.IsTable ∧
      t'.cells = Function.update t.cells k (some v) := by
  obtain ⟨keys, nodup, value, rfl⟩ := ht
  refine ⟨_, rfl, ⟨_, _, _, rfl⟩, LuaData.cells_ofCells fun k' hk' => ?_⟩
  by_cases hk : k' = k
  · exact hk ▸ List.mem_cons_self
  · rw [Function.update_of_ne hk] at hk'
    by_contra hnot
    simp [LuaData.cells, List.not_mem_of_not_mem_cons hnot] at hk'

/-- Stores of values at keys that are all different leave each value where it was stored. -/
theorem eval_stores {K : Type} (key : K → LuaScalar) (val : K → Exp) (v : K → LuaData)
    (hval : ∀ k, ∃ w, eval (val k) = some (some w) ∧ (v k).Same w) (l : List K)
    (hnodup : (l.map key).Nodup) {t : Exp} {d : LuaData} (ht : eval t = some (some d))
    (hd : d.IsTable) :
    ∃ d', eval (l.foldl (fun t k => .settable t (scalarExp (key k)) (val k)) t) =
        some (some d') ∧ d'.IsTable ∧
      (∀ k, k ∉ l.map key → d'.cells k = d.cells k) ∧
      ∀ k ∈ l, ∃ w, d'.cells (key k) = some w ∧ (v k).Same w := by
  induction l generalizing t d with
  | nil => exact ⟨d, ht, hd, fun k _ => rfl, fun k hk => absurd hk List.not_mem_nil⟩
  | cons k l ih =>
      rw [List.map_cons, List.nodup_cons] at hnodup
      obtain ⟨hk, hnodup⟩ := hnodup
      obtain ⟨w, hw, hsame⟩ := hval k
      obtain ⟨d₁, hset, hd₁, hcells⟩ := settable_cells hd (key k) w
      have hstore : eval (.settable t (scalarExp (key k)) (val k)) = some (some d₁) := by
        simp [eval, ht, eval_scalarExp, hw, hset]
      obtain ⟨d', heval, hd', hout, hin⟩ := ih hnodup hstore hd₁
      refine ⟨d', heval, hd', fun k' hk' => ?_, fun k' hk' => ?_⟩
      · rw [List.map_cons, List.mem_cons, not_or] at hk'
        rw [hout k' hk'.2, hcells, Function.update_of_ne hk'.1]
      · rcases List.mem_cons.mp hk' with rfl | hmem
        · refine ⟨w, ?_, hsame⟩
          rw [hout _ hk, hcells, Function.update_self]
        · exact hin k' hmem

/-- The expression of a value has a value of the same structure. -/
theorem eval_dataExp (v : LuaData) : ∃ w, eval (dataExp v) = some (some w) ∧ v.Same w := by
  induction v with
  | scalar s => exact ⟨.scalar s, eval_scalarExp s, rfl⟩
  | table keys nodup value ih =>
      have hkeys : (keys.attach.map fun k => k.1).Nodup := by
        rwa [List.attach_map_subtype_val]
      obtain ⟨d, heval, hd, hout, hin⟩ := eval_stores (fun k : {k // k ∈ keys} => k.1)
        (fun k => dataExp (value k)) value ih keys.attach hkeys (rfl : eval .newtable = _)
        ⟨_, _, _, rfl⟩
      refine ⟨d, heval, LuaData.same_of_cells hd (fun k hk => ?_) fun k => ?_⟩
      · rw [hout k (by rwa [List.attach_map_subtype_val])]
        rfl
      · exact hin k (List.mem_attach keys k)

/-! ### The round trip -/

/-- A chunk that returns an expression has the value of the expression. -/
theorem loadstring_return {z : ByteString} {ts : List Token} {e : Exp} {v : Option LuaData}
    (hlexes : Lexes z ts) (hexpr : expr (ts.length + 1) ts = some (e, []))
    (heval : eval e = some v) : loadstring (bytes "return " ++ z) = some v := by
  have hword : bytes "return " = bytes "return" ++ [32] := by rfl
  have hreturn : Lexes (bytes "return" ++ 32 :: z) (.reserved (bytes "return") :: ts) :=
    lexes_reserved (by decide) (endsWord_cons (by decide) z) (lexes_space (Or.inl rfl) hlexes)
  have hchunk : chunk (.reserved (bytes "return") :: ts) = some e := by
    simp [chunk, hexpr]
  rw [hword, List.append_assoc, List.singleton_append, loadstring, hreturn _ le_rfl]
  simp [hchunk, heval]

theorem endsWord_nil : EndsWord [] := by
  intro c hc
  exact absurd hc (by simp)

/-- What `Val2Str` writes, `Str2Val` reads as a value of the same structure, for every value and
whatever the order in which `pairs` goes through its tables. -/
theorem str2Val_val2Str (var : Option LuaData) :
    ∃ var', Str2Val (Val2Str var none) = some var' ∧ Option.Rel LuaData.Same var var' := by
  rcases var with _ | v
  · have hlexes : Lexes (bytes "nil") [.reserved (bytes "nil")] := by
      have hnil := lexes_reserved (w := bytes "nil") (by decide) endsWord_nil lexes_nil
      rwa [List.append_nil] at hnil
    exact ⟨none, loadstring_return hlexes rfl rfl, .none⟩
  · obtain ⟨w, heval, hsame⟩ := eval_dataExp v
    have hlexes := lexes_dataText v none (fun c hc => absurd hc List.not_mem_nil) [] []
      endsWord_nil lexes_nil
    have hexpr := expr_dataTokens v [] (Nat.le_succ (dataTokens v).length)
    rw [List.append_nil, List.append_nil] at hlexes
    rw [List.append_nil] at hexpr
    exact ⟨some w, loadstring_return hlexes hexpr heval, .some hsame⟩

/-- The text of a table with a quote and a line end in its only value. -/
example :
    Val2Str (some (.table [.number ⟨-5, by decide⟩] (by decide)
      fun _ => .scalar (.string (bytes "a\"b\n")))) none =
      bytes "\n\x7b\n  [-5]\t= \"a\\\"b\\n\",\n\x7d" := by
  decide

end UnityLua
