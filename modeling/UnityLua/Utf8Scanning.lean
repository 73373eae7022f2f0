import UnityLua.Library.ByteStrings
import UnityLua.Library.Loops
import UnityLua.LuaStrings

/-!
# Scanning UTF-8

The functions of `lib.lua` that go through a string character by character. How many bytes a
character has they take from its first byte, by the table of `Utf8CharBytes`.

They name two globals, `chars` and `Utf8Len`, which are `nil` where `lib.lua` is loaded: it makes
fields of a local table of its functions.

## Main results

* `utf8CharBytes_encode`: the table agrees with the encoding of every scalar value.
* `utf8Len_encode`, `utf8Replace_encode`: the scans see the characters, and end at the end.
* `utf8Sub_iff`: exactly when `Utf8Sub` is `string.sub` on characters.
-/

namespace UnityLua

open Library

/-- What the functions fail with. -/
inductive ScanError
  | compareNil
  | arithmeticNil
  | callNil (global : String)
  deriving DecidableEq

/-- The globals that the functions name. -/
structure ScanGlobals where
  chars : Option ℤ
  Utf8Len : Option (ByteString → Fueled ScanError ℤ)

/-- Where `lib.lua` is loaded there is no global of either name. -/
def ScanGlobals.loaded : ScanGlobals := ⟨none, none⟩

section Source

/-- The bytes of a character by its first byte, as far as `Utf8CharBytes` has a branch for it. -/
def leadBytes (c : UInt8) : Option ℤ :=
  if 0 < c ∧ c ≤ 127 then some 1
  else if 194 ≤ c ∧ c ≤ 223 then some 2
  else if 224 ≤ c ∧ c ≤ 239 then some 3
  else if 240 ≤ c ∧ c ≤ 244 then some 4
  else none

/-- `Utf8CharBytes`. The bytes after the first are read, and not looked at. -/
def utf8CharBytes (s : ByteString) (i : Option ℤ) : Except ScanError (Option ℤ) :=
  match strByte s (i.getD 1) with
  | none => .error .compareNil
  | some c => .ok (leadBytes c)

/-- An operand of an arithmetic operation. -/
def operand : Option ℤ → Except ScanError ℤ
  | none => .error .arithmeticNil
  | some n => .ok n

variable (g : ScanGlobals) (s : ByteString)

structure LenState where
  pos : ℤ
  len : ℤ

/-- The loop of `Lib.Utf8Len`. -/
def utf8LenStep (st : LenState) : Except ScanError (LenState ⊕ LenState) :=
  if st.pos ≤ s.length ∧ some st.len ≠ g.chars then do
    let charbytes ← operand (← utf8CharBytes s (some st.pos))
    .ok (.inl ⟨st.pos + charbytes, st.len + 1⟩)
  else .ok (.inr st)

/-- `Lib.Utf8Len`. -/
def utf8Len : Fueled ScanError ℤ :=
  (loop (utf8LenStep g s) ⟨1, 0⟩).andThen fun st =>
    .ok (if g.chars ≠ none then st.pos - 1 else st.len)

structure SubState where
  pos : ℤ
  len : ℤ
  startByte : ℤ
  endByte : ℤ

/-- The loop of `Lib.Utf8Sub`. -/
def utf8SubStep (startChar endChar : ℤ) (st : SubState) :
    Except ScanError (SubState ⊕ SubState) :=
  if st.pos ≤ s.length then do
    let len := st.len + 1
    let startByte := if len = startChar then st.pos else st.startByte
    let charbytes ← operand (← utf8CharBytes s (some st.pos))
    let pos := st.pos + charbytes
    if len = endChar then .ok (.inr ⟨pos, len, startByte, pos - 1⟩)
    else .ok (.inl ⟨pos, len, startByte, st.endByte⟩)
  else .ok (.inr st)

/-- A call of the global `Utf8Len`. -/
def callUtf8Len : Fueled ScanError ℤ :=
  match g.Utf8Len with
  | none => fun _ => some (.error (.callNil "Utf8Len"))
  | some f => f s

/-- `Lib.Utf8Sub` where both numbers are there and not negative, or made so. -/
def utf8SubBetween (startChar endChar : ℤ) : Fueled ScanError ByteString :=
  if startChar > endChar then fun _ => some (.ok [])
  else (loop (utf8SubStep s startChar endChar) ⟨1, 0, 1, s.length⟩).andThen fun st =>
    .ok (strSub s st.startByte st.endByte)

/-- `Lib.Utf8Sub`. Its `l` is a number only if `i` or `j` is negative. -/
def utf8Sub (i j : Option ℤ) : Fueled ScanError ByteString :=
  let j := j.getD (-1)
  match i with
  | none => fun _ => some (.ok [])
  | some i =>
      if i ≥ 0 ∧ j ≥ 0 then utf8SubBetween s i j
      else fun fuel =>
        match callUtf8Len g s fuel with
        | none => none
        | some (.error e) => some (.error e)
        | some (.ok l) =>
            let startChar := if i ≥ 0 then i else l + i + 1
            let endChar := if j ≥ 0 then j else l + j + 1
            utf8SubBetween s startChar endChar fuel

structure ReplaceState where
  pos : ℤ
  newstr : ByteString

/-- The loop of `Lib.Utf8Replace`. -/
def utf8ReplaceStep (mapping : ByteString → Option ByteString) (st : ReplaceState) :
    Except ScanError (ReplaceState ⊕ ReplaceState) :=
  if st.pos ≤ s.length then do
    let charbytes ← operand (← utf8CharBytes s (some st.pos))
    let c := strSub s st.pos (st.pos + charbytes - 1)
    .ok (.inl ⟨st.pos + charbytes, st.newstr ++ (mapping c).getD c⟩)
  else .ok (.inr st)

/-- `Lib.Utf8Replace`. -/
def utf8Replace (mapping : ByteString → Option ByteString) : Fueled ScanError ByteString :=
  (loop (utf8ReplaceStep s mapping) ⟨1, []⟩).andThen fun st => .ok st.newstr

end Source

/-! ### One character -/

/-- A Unicode scalar value other than U+0000. -/
def TextChar := { c : Char // c.toNat ≠ 0 }

/-- The bytes of a character. -/
def TextChar.encode (c : TextChar) : ByteString := String.utf8EncodeChar c.1

/-- The bytes of a text. -/
def encode (cs : List TextChar) : ByteString := cs.flatMap TextChar.encode

@[simp] theorem encode_nil : encode [] = [] := rfl

theorem encode_cons (c : TextChar) (cs : List TextChar) :
    encode (c :: cs) = c.encode ++ encode cs := rfl

@[simp] theorem encode_append (cs ds : List TextChar) :
    encode (cs ++ ds) = encode cs ++ encode ds := List.flatMap_append

/-- The table, by the number that a byte is. -/
theorem leadBytes_ofNat {n : ℕ} (hn : n < 256) :
    leadBytes (UInt8.ofNat n) =
      if 0 < n ∧ n ≤ 127 then some 1
      else if 194 ≤ n ∧ n ≤ 223 then some 2
      else if 224 ≤ n ∧ n ≤ 239 then some 3
      else if 240 ≤ n ∧ n ≤ 244 then some 4
      else none := by
  have hval : (UInt8.ofNat n).toNat = n := UInt8.toNat_ofNat_of_lt' (by unfold UInt8.size; omega)
  simp only [leadBytes, UInt8.lt_iff_toNat_lt, UInt8.le_iff_toNat_le, hval]
  rfl

/-- The table is right about the first byte of every encoding. -/
theorem exists_lead (c : TextChar) :
    ∃ b t, c.encode = b :: t ∧ leadBytes b = some ((t.length : ℤ) + 1) := by
  obtain ⟨c, hc⟩ := c
  have hlt : c.val.toNat < 0x110000 := by
    have hvalid := c.valid
    simp only [UInt32.isValidChar, Nat.isValidChar] at hvalid
    omega
  have hpos : c.val.toNat ≠ 0 := hc
  simp only [TextChar.encode, String.utf8EncodeChar]
  split
  · refine ⟨_, _, rfl, ?_⟩
    rw [leadBytes_ofNat (by omega), if_pos (by omega)]
    rfl
  split
  · refine ⟨_, _, rfl, ?_⟩
    rw [leadBytes_ofNat (by omega), if_neg (by omega), if_pos (by omega)]
    rfl
  split
  · refine ⟨_, _, rfl, ?_⟩
    rw [leadBytes_ofNat (by omega), if_neg (by omega), if_neg (by omega), if_pos (by omega)]
    rfl
  · refine ⟨_, _, rfl, ?_⟩
    rw [leadBytes_ofNat (by omega), if_neg (by omega), if_neg (by omega), if_neg (by omega),
      if_pos (by omega)]
    rfl

/-- At the start of a character the table gives its length. -/
theorem utf8CharBytes_encode (done : ByteString) (c : TextChar) (rest : ByteString) :
    utf8CharBytes (done ++ (c.encode ++ rest)) (some (done.length + 1)) =
      .ok (some c.encode.length) := by
  obtain ⟨b, t, hbt, hlead⟩ := exists_lead c
  rw [hbt, List.cons_append, utf8CharBytes, Option.getD_some, strByte_append_cons]
  simp only [hlead, List.length_cons, Int.natCast_add, Int.natCast_one]

theorem encode_pos (c : TextChar) : 0 < c.encode.length := by
  obtain ⟨b, t, hbt, -⟩ := exists_lead c
  rw [hbt]
  exact Nat.succ_pos _

theorem encode_eq_nil {cs : List TextChar} : encode cs = [] ↔ cs = [] := by
  refine ⟨fun h => ?_, fun h => h ▸ rfl⟩
  rcases cs with - | ⟨c, cs⟩
  · rfl
  · have hpos := encode_pos c
    rw [encode_cons, List.append_eq_nil_iff] at h
    rw [h.1] at hpos
    exact absurd hpos (Nat.lt_irrefl 0)

/-! ### The bytes before a character -/

/-- The bytes of the first characters. -/
def bytesBefore (cs : List TextChar) (k : ℕ) : ℕ := (encode (cs.take k)).length

theorem take_bytesBefore (cs : List TextChar) (k : ℕ) :
    (encode cs).take (bytesBefore cs k) = encode (cs.take k) := by
  conv_lhs => rw [← List.take_append_drop k cs, encode_append]
  rw [List.take_append_drop]
  exact List.take_left

theorem drop_bytesBefore (cs : List TextChar) (k : ℕ) :
    (encode cs).drop (bytesBefore cs k) = encode (cs.drop k) := by
  conv_lhs => rw [← List.take_append_drop k cs, encode_append]
  rw [List.take_append_drop]
  exact List.drop_left

theorem bytesBefore_of_le {cs : List TextChar} {k : ℕ} (h : cs.length ≤ k) :
    bytesBefore cs k = (encode cs).length := by
  rw [bytesBefore, List.take_of_length_le h]

theorem bytesBefore_le (cs : List TextChar) (k : ℕ) : bytesBefore cs k ≤ (encode cs).length := by
  conv_rhs => rw [← List.take_append_drop k cs, encode_append, List.length_append]
  exact Nat.le_add_right _ _

theorem bytesBefore_succ {cs : List TextChar} {k : ℕ} (hk : k < cs.length) :
    bytesBefore cs (k + 1) = bytesBefore cs k + cs[k].encode.length := by
  rw [bytesBefore, bytesBefore, List.take_succ_eq_append_getElem hk, encode_append,
    List.length_append, encode_cons, encode_nil, List.append_nil]

/-- A text around one of its characters. -/
theorem encode_around {cs : List TextChar} {k : ℕ} (hk : k < cs.length) :
    encode cs = encode (cs.take k) ++ (cs[k].encode ++ encode (cs.drop (k + 1))) := by
  rw [← encode_cons, ← encode_append, ← List.drop_eq_getElem_cons hk, List.take_append_drop]

/-- The table gives the next character of a text its length. -/
theorem utf8CharBytes_bytesBefore {cs : List TextChar} {k : ℕ} (hk : k < cs.length) :
    utf8CharBytes (encode cs) (some (bytesBefore cs k + 1)) =
      .ok (some cs[k].encode.length) := by
  conv_lhs => rw [encode_around hk]
  exact utf8CharBytes_encode _ _ _

/-! ### Lengths and replacements -/

/-- The state of the loop of `Utf8Len` after the first characters. -/
def lenStateAt (cs : List TextChar) (k : ℕ) : LenState := ⟨bytesBefore cs k + 1, k⟩

theorem utf8Len_counts (cs : List TextChar) :
    Counts (utf8LenStep .loaded (encode cs)) (lenStateAt cs) cs.length
      (lenStateAt cs cs.length) where
  next k hk := by
    have hpos := encode_pos cs[k]
    have hnext := bytesBefore_succ hk
    have hle := bytesBefore_le cs (k + 1)
    rw [utf8LenStep, if_pos ⟨by simp only [lenStateAt]; omega, Option.some_ne_none _⟩]
    simp only [lenStateAt, utf8CharBytes_bytesBefore hk]
    change Except.ok _ = _
    rw [hnext, Int.natCast_add, Int.natCast_add, add_right_comm]
    rfl
  last := by
    have hall := bytesBefore_of_le (le_refl cs.length)
    rw [utf8LenStep, if_neg]
    simp only [lenStateAt, hall]
    omega

/-- What `Utf8Replace` puts for a character. -/
def replaceChar (mapping : ByteString → Option ByteString) (c : TextChar) : ByteString :=
  (mapping c.encode).getD c.encode

/-- The state of the loop of `Utf8Replace` after the first characters. -/
def replaceStateAt (mapping : ByteString → Option ByteString) (cs : List TextChar) (k : ℕ) :
    ReplaceState :=
  ⟨bytesBefore cs k + 1, (cs.take k).flatMap (replaceChar mapping)⟩

/-- The substring that is looked up is the character. -/
theorem strSub_bytesBefore {cs : List TextChar} {k : ℕ} (hk : k < cs.length) :
    strSub (encode cs) (bytesBefore cs k + 1) (bytesBefore cs k + cs[k].encode.length) =
      cs[k].encode := by
  conv_lhs => rw [encode_around hk, ← List.append_assoc]
  exact strSub_append _ _ _

theorem utf8Replace_counts (mapping : ByteString → Option ByteString) (cs : List TextChar) :
    Counts (utf8ReplaceStep (encode cs) mapping) (replaceStateAt mapping cs) cs.length
      (replaceStateAt mapping cs cs.length) where
  next k hk := by
    have hpos := encode_pos cs[k]
    have hnext := bytesBefore_succ hk
    have hle := bytesBefore_le cs (k + 1)
    have hend : (bytesBefore cs k : ℤ) + 1 + cs[k].encode.length - 1 =
        bytesBefore cs k + cs[k].encode.length := by omega
    rw [utf8ReplaceStep, if_pos (by simp only [replaceStateAt]; omega)]
    simp only [replaceStateAt, utf8CharBytes_bytesBefore hk]
    change Except.ok _ = _
    rw [hend, strSub_bytesBefore hk, hnext, List.take_succ_eq_append_getElem hk,
      List.flatMap_append, List.flatMap_singleton, Int.natCast_add, add_right_comm]
    rfl
  last := by
    have hall := bytesBefore_of_le (le_refl cs.length)
    rw [utf8ReplaceStep, if_neg]
    simp only [replaceStateAt, hall]
    omega

theorem utf8Len_encode (cs : List TextChar) :
    Returns (utf8Len .loaded (encode cs)) (.ok cs.length) :=
  (utf8Len_counts cs).returns.andThen _

theorem utf8Replace_encode (mapping : ByteString → Option ByteString) (cs : List TextChar) :
    Returns (utf8Replace (encode cs) mapping) (.ok (cs.flatMap (replaceChar mapping))) := by
  have h := (utf8Replace_counts mapping cs).returns.andThen fun st => .ok st.newstr
  simp only [replaceStateAt, List.take_length] at h
  exact h

/-- Both scans are at the start of a character or at the end, and nowhere else. -/
theorem utf8_scan_boundaries (mapping : ByteString → Option ByteString) (cs : List TextChar) :
    (Returns (utf8Len .loaded (encode cs)) (.ok cs.length) ∧
      Returns (utf8Replace (encode cs) mapping)
        (.ok (cs.flatMap fun c => (mapping c.encode).getD c.encode))) ∧
    (∃ st, Returns (loop (utf8LenStep .loaded (encode cs)) ⟨1, 0⟩) (.ok st) ∧
      st.pos = (encode cs).length + 1) ∧
    (∃ st, Returns (loop (utf8ReplaceStep (encode cs) mapping) ⟨1, []⟩) (.ok st) ∧
      st.pos = (encode cs).length + 1) ∧
    (∀ st, Visits (utf8LenStep .loaded (encode cs)) ⟨1, 0⟩ st →
      ∃ k ≤ cs.length, st.pos = (encode (cs.take k)).length + 1) ∧
    (∀ st, Visits (utf8ReplaceStep (encode cs) mapping) ⟨1, []⟩ st →
      ∃ k ≤ cs.length, st.pos = (encode (cs.take k)).length + 1) := by
  have hall := bytesBefore_of_le (le_refl cs.length)
  have hlen := utf8Len_counts cs
  have hreplace := utf8Replace_counts mapping cs
  refine ⟨⟨utf8Len_encode cs, utf8Replace_encode mapping cs⟩,
    ⟨_, hlen.returns, by rw [lenStateAt, hall]⟩,
    ⟨_, hreplace.returns, by rw [replaceStateAt, hall]⟩, fun st hst => ?_, fun st hst => ?_⟩
  · obtain ⟨k, hk, rfl⟩ := hlen.visits hst
    exact ⟨k, hk, rfl⟩
  · obtain ⟨k, hk, rfl⟩ := hreplace.visits hst
    exact ⟨k, hk, rfl⟩

/-! ### Substrings -/

/-- Where the loop has `startByte` after the first characters. -/
def startByteAt (cs : List TextChar) (i k : ℕ) : ℕ :=
  if 1 ≤ i ∧ i ≤ k then bytesBefore cs (i - 1) + 1 else 1

theorem startByteAt_succ (cs : List TextChar) (i k : ℕ) :
    startByteAt cs i (k + 1) = if k + 1 = i then bytesBefore cs k + 1 else startByteAt cs i k := by
  unfold startByteAt
  by_cases hi : k + 1 = i
  · rw [if_pos hi, if_pos (by omega), ← hi, Nat.add_sub_cancel]
  · have hiff : 1 ≤ i ∧ i ≤ k + 1 ↔ 1 ≤ i ∧ i ≤ k := by omega
    rw [if_neg hi]
    simp only [hiff]

/-- Where the loop leaves `endByte`. -/
def endByteOf (cs : List TextChar) (j : ℕ) : ℕ :=
  if 1 ≤ j ∧ j ≤ cs.length then bytesBefore cs j else (encode cs).length

/-- The state of the loop of `Utf8Sub` after the first characters. -/
def subStateAt (cs : List TextChar) (i k : ℕ) : SubState :=
  ⟨bytesBefore cs k + 1, k, startByteAt cs i k, (encode cs).length⟩

theorem utf8SubStep_eq {s : ByteString} {startChar endChar n : ℤ} {st : SubState}
    (hpos : st.pos ≤ s.length) (hn : utf8CharBytes s (some st.pos) = .ok (some n)) :
    utf8SubStep s startChar endChar st =
      let startByte := if st.len + 1 = startChar then st.pos else st.startByte
      .ok (if st.len + 1 = endChar then
          .inr ⟨st.pos + n, st.len + 1, startByte, st.pos + n - 1⟩
        else .inl ⟨st.pos + n, st.len + 1, startByte, st.endByte⟩) := by
  rw [utf8SubStep, if_pos hpos, hn]
  by_cases hend : st.len + 1 = endChar
  · simp only [if_pos hend]
    rfl
  · simp only [if_neg hend]
    rfl

/-- One character further, where the loop may end. -/
theorem utf8SubStep_subStateAt (cs : List TextChar) (i j : ℕ) {k : ℕ} (hk : k < cs.length) :
    utf8SubStep (encode cs) i j (subStateAt cs i k) =
      .ok (if k + 1 = j then
          .inr ⟨bytesBefore cs (k + 1) + 1, (k + 1 : ℕ), startByteAt cs i (k + 1),
            bytesBefore cs (k + 1)⟩
        else .inl (subStateAt cs i (k + 1))) := by
  have hpos := encode_pos cs[k]
  have hnext := bytesBefore_succ hk
  have hle := bytesBefore_le cs (k + 1)
  have hstart : (if (subStateAt cs i k).len + 1 = i then (subStateAt cs i k).pos
      else (subStateAt cs i k).startByte) = startByteAt cs i (k + 1) := by
    rw [startByteAt_succ]
    by_cases hi : k + 1 = i
    · rw [if_pos (by simp only [subStateAt]; omega), if_pos hi]
      rfl
    · rw [if_neg (by simp only [subStateAt]; omega), if_neg hi]
      rfl
  have hsum : (bytesBefore cs k : ℤ) + 1 + cs[k].encode.length = bytesBefore cs (k + 1) + 1 := by
    omega
  have hin : (subStateAt cs i k).pos ≤ (encode cs).length := by
    simp only [subStateAt]
    omega
  have hcount : (k : ℤ) + 1 = j ↔ k + 1 = j := by omega
  rw [utf8SubStep_eq hin (utf8CharBytes_bytesBefore hk), hstart]
  simp only [subStateAt, hsum, hcount, add_sub_cancel_right, Int.natCast_add, Int.natCast_one]

/-- How many characters the loop of `Utf8Sub` passes before its last step. -/
def subRounds (cs : List TextChar) (j : ℕ) : ℕ :=
  if 1 ≤ j ∧ j ≤ cs.length then j - 1 else cs.length

/-- The loop of `Utf8Sub` goes from character to character until one of them ends it. -/
theorem utf8Sub_counts (cs : List TextChar) {i j : ℕ} (hij : i ≤ j) :
    ∃ st, Counts (utf8SubStep (encode cs) i j) (subStateAt cs i) (subRounds cs j) st ∧
      st.startByte = startByteAt cs i cs.length ∧ st.endByte = endByteOf cs j := by
  by_cases hj : 1 ≤ j ∧ j ≤ cs.length
  · have hrounds : subRounds cs j = j - 1 := if_pos hj
    rw [hrounds]
    have hlast := utf8SubStep_subStateAt cs i j (k := j - 1) (by omega)
    rw [if_pos (by omega), Nat.sub_add_cancel hj.1] at hlast
    refine ⟨_, ⟨fun k hk => ?_, hlast⟩, ?_, ?_⟩
    · have hstep := utf8SubStep_subStateAt cs i j (k := k) (by omega)
      rwa [if_neg (by omega)] at hstep
    · have hiff : 1 ≤ i ∧ i ≤ j ↔ 1 ≤ i ∧ i ≤ cs.length := by omega
      simp only [startByteAt, hiff]
    · rw [endByteOf, if_pos hj]
  · have hrounds : subRounds cs j = cs.length := if_neg hj
    rw [hrounds]
    refine ⟨subStateAt cs i cs.length, ⟨fun k hk => ?_, ?_⟩, rfl, ?_⟩
    · have hstep := utf8SubStep_subStateAt cs i j hk
      rwa [if_neg (by omega)] at hstep
    · have hall := bytesBefore_of_le (le_refl cs.length)
      rw [utf8SubStep, if_neg]
      simp only [subStateAt, hall]
      omega
    · rw [endByteOf, if_neg hj]
      rfl

/-- What `Utf8Sub` returns for two numbers that are not negative. -/
theorem utf8SubBetween_encode (cs : List TextChar) (i j : ℕ) :
    Returns (utf8SubBetween (encode cs) i j)
      (.ok (if i ≤ j then
          ((encode cs).take (endByteOf cs j)).drop (startByteAt cs i cs.length - 1)
        else [])) := by
  by_cases hij : i ≤ j
  · obtain ⟨st, hcounts, hstart, hend⟩ := utf8Sub_counts cs hij
    have hzero : subStateAt cs i 0 = ⟨1, 0, 1, (encode cs).length⟩ := by
      rw [subStateAt, startByteAt, if_neg (by omega)]
      rfl
    have hreturns := hcounts.returns
    rw [hzero] at hreturns
    have h := hreturns.andThen fun st => .ok (strSub (encode cs) st.startByte st.endByte)
    rw [Except.bind, hstart, hend, strSub_natCast] at h
    rw [utf8SubBetween, if_neg (by omega), if_pos hij]
    exact h
  · rw [utf8SubBetween, if_pos (by omega), if_neg hij]
    exact Returns.const _

/-- For which numbers that is `string.sub` on characters. -/
theorem subBetween_eq_iff (cs : List TextChar) (i j : ℕ) :
    (if i ≤ j then ((encode cs).take (endByteOf cs j)).drop (startByteAt cs i cs.length - 1)
      else []) = encode (strSub cs i j) ↔
      j < i ∨ cs = [] ∨ (1 ≤ j ∧ i ≤ cs.length) := by
  rw [strSub_natCast]
  by_cases hij : i ≤ j
  · rw [if_pos hij]
    by_cases hin : 1 ≤ j ∧ i ≤ cs.length
    · refine iff_of_true ?_ (Or.inr (Or.inr hin))
      have hstart : startByteAt cs i cs.length - 1 = bytesBefore (cs.take j) (i - 1) := by
        rw [startByteAt]
        split
        · rw [bytesBefore, bytesBefore, List.take_take, min_eq_left (by omega)]
          exact Nat.add_sub_cancel _ _
        · obtain rfl : i = 0 := by omega
          rfl
      have hend : (encode cs).take (endByteOf cs j) = encode (cs.take j) := by
        rw [endByteOf]
        split
        · exact take_bytesBefore cs j
        · rw [List.take_of_length_le (le_refl _), List.take_of_length_le (by omega)]
      rw [hend, hstart, drop_bytesBefore]
    · have hall : startByteAt cs i cs.length = 1 ∧ endByteOf cs j = (encode cs).length := by
        constructor
        · exact if_neg (by omega)
        · exact if_neg (by omega)
      have hnone : (cs.take j).drop (i - 1) = [] := by
        rw [List.drop_eq_nil_iff, List.length_take]
        omega
      rw [hall.1, hall.2, hnone, List.take_length, Nat.sub_self, List.drop_zero, encode_nil,
        encode_eq_nil]
      refine ⟨fun h => Or.inr (Or.inl h), ?_⟩
      rintro (h | h | h)
      · omega
      · exact h
      · exact absurd h hin
  · rw [if_neg hij]
    refine iff_of_true ?_ (Or.inl (by omega))
    rw [List.drop_eq_nil_of_le (by rw [List.length_take]; omega), encode_nil]

/-- For a negative number `Utf8Sub` calls `nil`. -/
theorem utf8Sub_negative (cs : List TextChar) {i : ℤ} {j : Option ℤ}
    (h : ¬(0 ≤ i ∧ 0 ≤ j.getD (-1))) :
    Returns (utf8Sub .loaded (encode cs) (some i) j) (.error (.callNil "Utf8Len")) := by
  simp only [utf8Sub]
  rw [if_neg h]
  exact Returns.const _

/-- `Utf8Sub` is `string.sub` on characters exactly where `j` is given, neither number is
negative, and the loop meets both ends or nothing is selected. -/
theorem utf8Sub_iff (cs : List TextChar) (i : ℤ) (j : Option ℤ) :
    Returns (utf8Sub .loaded (encode cs) (some i) j)
        (.ok (encode (strSub cs i (j.getD (-1))))) ↔
      0 ≤ i ∧ 0 ≤ j.getD (-1) ∧
        (j.getD (-1) < i ∨ cs = [] ∨ (1 ≤ j.getD (-1) ∧ i ≤ cs.length)) := by
  generalize hj : j.getD (-1) = j'
  by_cases hneg : 0 ≤ i ∧ 0 ≤ j'
  · obtain ⟨⟨a, rfl⟩, ⟨b, rfl⟩⟩ :=
      And.intro (Int.eq_ofNat_of_zero_le hneg.1) (Int.eq_ofNat_of_zero_le hneg.2)
    have hcode := utf8SubBetween_encode cs a b
    have hsub : utf8Sub .loaded (encode cs) (some a) j = utf8SubBetween (encode cs) a b := by
      simp only [utf8Sub, hj]
      exact if_pos hneg
    have hspec : _ ↔ ((b : ℤ) < a ∨ cs = [] ∨ (1 ≤ (b : ℤ) ∧ (a : ℤ) ≤ cs.length)) :=
      (subBetween_eq_iff cs a b).trans (by norm_cast)
    rw [hsub]
    constructor
    · intro h
      exact ⟨hneg.1, hneg.2, hspec.mp (Except.ok.inj (hcode.unique h))⟩
    · rintro ⟨-, -, h⟩
      rw [← hspec.mpr h]
      exact hcode
  · refine iff_of_false (fun h => ?_) (fun h => hneg ⟨h.1, h.2.1⟩)
    have herr := utf8Sub_negative cs (hj ▸ hneg)
    exact absurd (herr.unique h) (by simp)

/-- The text of one letter, of which `Utf8Sub` cannot give what is after its first character
without an error, and gives all where nothing is asked for. -/
def letterA : TextChar := ⟨'a', by decide⟩

theorem utf8Sub_letterA :
    ¬ Returns (utf8Sub .loaded (encode [letterA]) (some 1) none)
        (.ok (encode (strSub [letterA] 1 (-1)))) ∧
      ¬ Returns (utf8Sub .loaded (encode [letterA]) (some 2) (some 2))
        (.ok (encode (strSub [letterA] 2 2))) := by
  constructor
  · intro h
    have herr := utf8Sub_negative [letterA] (i := 1) (j := none) (by decide)
    exact absurd (herr.unique h) (by simp)
  · rintro ⟨n, hn⟩
    have hcode : utf8Sub .loaded (encode [letterA]) (some 2) (some 2) (n + 2) =
        some (.ok [97]) := rfl
    have hspec : encode (strSub [letterA] 2 2) = [] := rfl
    rw [hn (n + 2) (by omega), hspec] at hcode
    exact absurd hcode (by simp)

end UnityLua
