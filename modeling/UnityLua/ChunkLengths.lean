import UnityLua.StackNeutrality

/-!
# The length of a chunk

`luaL_loadbuffer` gets the text of a chunk as P/Invoke marshals it, in UTF-8, and the number of
bytes to compile. Chunks that are given as strings are measured in units of UTF-16. Chunks from
files are measured by the bytes of the file, in which a byte order mark may stand before the text.

The calls of `luaL_loadbuffer` are written down by an interpreter that keeps a list of them.

## Main results

* `loads_eq`: the one call that each way of loading a chunk makes.
* `size_eq_iff`: when that call is given the length of the marshalled text.
* `compilesAll_iff`: when the whole chunk is compiled, on all ways of loading it.
-/

namespace UnityLua

open Library LuaLib

variable {N Obj W : Type}

/-! ### Calls of `luaL_loadbuffer` -/

/-- A call of `luaL_loadbuffer`. -/
structure Load where
  chunk : String
  size : ℕ
  name : String
  deriving DecidableEq

/-- A string as P/Invoke hands it to a native function. -/
def marshal (s : String) : List UInt8 := s.toList.flatMap String.utf8EncodeChar

/-- What Lua compiles, when `memory` is what comes behind the marshalled text. -/
def Load.compiled (l : Load) (memory : List UInt8) : List UInt8 :=
  (marshal l.chunk ++ memory).take l.size

/-- Lua is told the length of the text, and compiles the text. -/
def Load.Exact (l : Load) : Prop :=
  l.size = (marshal l.chunk).length ∧ ∀ memory, l.compiled memory = marshal l.chunk

theorem Load.exact_iff {l : Load} : l.Exact ↔ l.size = (marshal l.chunk).length := by
  refine and_iff_left_of_imp fun h memory => ?_
  rw [compiled, h, List.take_left]

/-- The interpreter keeps a list of the calls. -/
def Vm.recording (vm : Vm N Obj W) : Vm N Obj (W × List Load) where
  env w := vm.env w.1
  ofNat := vm.ofNat
  ofInt := vm.ofInt
  registry := vm.registry
  globals := vm.globals
  cFunction := vm.cFunction
  tag := vm.tag
  gettable w t k := (vm.gettable w.1 t k).map fun r => (r.1, r.2, w.2)
  settable w t k v := (vm.settable w.1 t k v).map fun w' => (w', w.2)
  rawget w t k := vm.rawget w.1 t k
  rawset w t k v := (vm.rawset w.1 t k v, w.2)
  createtable w := ((vm.createtable w.1).1, (vm.createtable w.1).2, w.2)
  newudata w i := ((vm.newudata w.1 i).1, (vm.newudata w.1 i).2, w.2)
  setmetatable w t m := (vm.setmetatable w.1 t m, w.2)
  setfenv w f e := (vm.setfenv w.1 f e, w.2)
  ref w v := (vm.ref w.1 v, w.2)
  entries w t := vm.entries w.1 t
  checkstack := vm.checkstack
  loadbuffer w chunk size name :=
    let (r, w') := vm.loadbuffer w.1 chunk size name
    (r, w', w.2 ++ [⟨chunk, size, name⟩])
  pcall w f args handler :=
    let (r, w') := vm.pcall w.1 f args handler
    (r, w', w.2)
  resources := vm.resources
  isScriptException := vm.isScriptException
  toString := vm.toString
  kind := vm.kind
  assemblyQualifiedName := vm.assemblyQualifiedName
  tryGetValue w o := vm.tryGetValue w.1 o
  addObject w o := ((vm.addObject w.1 o).1, (vm.addObject w.1 o).2, w.2)
  collectObject w o i := (vm.collectObject w.1 o i, w.2)

/-! ### Files -/

/-- A text file, which may begin with a byte order mark. -/
structure ScriptFile where
  byteOrderMark : Bool
  text : String
  deriving DecidableEq

/-- The byte order mark in UTF-8. -/
def markBytes : List UInt8 := [0xEF, 0xBB, 0xBF]

def ScriptFile.bytes (file : ScriptFile) : List UInt8 :=
  (if file.byteOrderMark then markBytes else []) ++ marshal file.text

/-- What `Resources.Load` makes of the file: the text is without the mark. -/
def ScriptFile.asset (file : ScriptFile) : TextAsset := ⟨file.text, file.bytes.length⟩

/-- The interpreter with these files among its resources. -/
def Vm.withFiles (vm : Vm N Obj W) (files : String → Option ScriptFile) : Vm N Obj W :=
  { vm with resources := fun fileName => (files fileName).map ScriptFile.asset }

/-! ### `LuaStatic` -/

namespace LuaLib

/-- `lua_tostring`, which makes a string of a number in its slot. -/
def LuaToString (vm : Vm N Obj W) (i : ℕ) : LuaM N Obj W (Option String) := fun m =>
  let (s, slot) := (vm.env m.world).toLString (m.value vm (.rel i))
  (.ok s, { m with stack := m.stack.set (m.offset i) slot })

/-- `lua_call` for all results. An error goes on to the function that called this one. -/
def LuaCall (vm : Vm N Obj W) (nargs : ℕ) : LuaM N Obj W Unit := do
  if (← LuaPCall vm nargs 0) ≠ 0 then Prog.throw .lua

end LuaLib

namespace LuaStatic

/-- `fileName.Replace('.', '/')`. -/
def replaceDots (fileName : String) : String :=
  String.ofList (fileName.toList.map fun c => if c = '.' then '/' else c)

/-- `loader`, with the number of its results. -/
def loader (vm : Vm N Obj W) : LuaM N Obj W ℕ := do
  match ← LuaToString vm 1 with
  | none => Prog.throw (.clr .nullReference)
  | some fileName =>
      let fileName := replaceDots fileName ++ ".lua"
      match vm.resources fileName with
      | none => pure 0
      | some file =>
          let _ ← LuaL_LoadBuffer vm file.text file.bytes fileName
          pure 1

/-- `dofile`. The name with its dots replaced is thrown away. -/
def dofile (vm : Vm N Obj W) : LuaM N Obj W ℕ := do
  match ← LuaToString vm 1 with
  | none => Prog.throw (.clr .nullReference)
  | some fileName =>
      let fileName := fileName ++ ".lua"
      let n ← LuaGetTop
      match vm.resources fileName with
      | none =>
          let top ← LuaGetTop
          pure (top - n)
      | some file =>
          if (← LuaL_LoadBuffer vm file.text file.bytes fileName) = 0 then LuaCall vm 0
          let top ← LuaGetTop
          pure (top - n)

/-- `loadfile`. -/
def loadfile (vm : Vm N Obj W) : LuaM N Obj W ℕ := loader vm

end LuaStatic

/-! ### The ways of loading a chunk -/

/-- A way of loading a chunk. -/
inductive Route (N : Type)
  | LoadString (chunk name : String) (env : Option (LuaValue N))
  | LoadFile (fileName : String)
  | DoString (chunk chunkName : String) (env : Option (LuaValue N))
  | DoFile (fileName : String) (env : Option (LuaValue N))
  | loader
  | dofile
  | loadfile

/-- Runs it, and forgets the results. -/
def Route.run (vm : Vm N Obj W) : Route N → LuaM N Obj W Unit
  | .LoadString chunk name env => (fun _ => ()) <$> LuaState.LoadString vm chunk name env
  | .LoadFile fileName => (fun _ => ()) <$> LuaState.LoadFile vm fileName
  | .DoString chunk chunkName env => (fun _ => ()) <$> LuaState.DoString vm chunk chunkName env
  | .DoFile fileName env => (fun _ => ()) <$> LuaState.DoFile vm fileName env
  | .loader => (fun _ => ()) <$> LuaStatic.loader vm
  | .dofile => (fun _ => ()) <$> LuaStatic.dofile vm
  | .loadfile => (fun _ => ()) <$> LuaStatic.loadfile vm

/-- The calls of `luaL_loadbuffer` that it makes. -/
def Route.loads (vm : Vm N Obj W) (route : Route N) (m : Machine N W) : List Load :=
  (route.run vm.recording ⟨m.callee, m.stack, m.world, []⟩).2.world.2

/-! ### Where calls are made -/

variable {α β : Type} {x : LuaM N Obj (W × List Load) α}
  {f : α → LuaM N Obj (W × List Load) β} {l : List Load}

/-- The program adds these calls to the list. -/
def Makes (x : LuaM N Obj (W × List Load) α) (l : List Load) : Prop :=
  ∀ m, (x m).2.world.2 = m.world.2 ++ l

/-- The program makes no call, and returns. -/
def Silent (x : LuaM N Obj (W × List Load) α) : Prop :=
  ∀ m, ∃ a m', x m = (.ok a, m') ∧ m'.world.2 = m.world.2

theorem Makes.pure (a : α) : Makes (Pure.pure a : LuaM N Obj (W × List Load) α) [] :=
  fun _ => (List.append_nil _).symm

theorem Makes.throw (e : LuaFault Obj) :
    Makes (Prog.throw e : LuaM N Obj (W × List Load) α) [] := fun _ => (List.append_nil _).symm

theorem Silent.gets (g : Machine N (W × List Load) → α) :
    Silent (Prog.gets g : LuaM N Obj (W × List Load) α) := fun m => ⟨g m, m, rfl, rfl⟩

theorem Silent.modify {g : Machine N (W × List Load) → Machine N (W × List Load)}
    (h : ∀ m, (g m).world.2 = m.world.2) :
    Silent (Prog.modify g : LuaM N Obj (W × List Load) Unit) := fun m => ⟨(), g m, rfl, h m⟩

/-- What comes behind the call makes no other one. -/
theorem Makes.bind (hx : Makes x l) (hf : ∀ a, Makes (f a) []) : Makes (x >>= f) l := by
  intro m
  have hfirst := hx m
  cases hrun : x m with
  | mk r m' =>
      rw [hrun] at hfirst
      cases r with
      | ok a => rw [Prog.bind_ok hrun, hf a m', List.append_nil, hfirst]
      | error e => rw [Prog.bind_error hrun, hfirst]

/-- What comes before the call makes none. -/
theorem Silent.bind (hx : Silent x) (hf : ∀ a, Makes (f a) l) : Makes (x >>= f) l := by
  intro m
  obtain ⟨a, m', hrun, hworld⟩ := hx m
  rw [Prog.bind_ok hrun, hf a m', hworld]

theorem Silent.makes (hx : Silent x) : Makes x [] := by
  intro m
  obtain ⟨a, m', hrun, hworld⟩ := hx m
  rw [hrun, hworld, List.append_nil]

theorem Makes.map (g : α → β) (hx : Makes x l) : Makes (g <$> x) l := by
  intro m
  rw [Prog.map_apply]
  exact hx m

section Recording

variable (vm : Vm N Obj W)

theorem recording_resources : vm.recording.resources = vm.resources := rfl

theorem silent_push (v : LuaValue N) :
    Silent (LuaLib.push v : LuaM N Obj (W × List Load) Unit) := .modify fun _ => rfl

theorem silent_setTop (i : ℤ) : Silent (LuaSetTop i : LuaM N Obj (W × List Load) Unit) := by
  refine .modify fun m => ?_
  cases i <;> rfl

theorem silent_setFEnv (i : ℤ) : Silent (LuaSetFEnv vm.recording i) := .modify fun _ => rfl

theorem silent_pushValue (i : ℤ) : Silent (LuaPushValue vm.recording i) := .modify fun _ => rfl

theorem silent_ref : Silent (LuaLRef vm.recording) := .modify fun _ => rfl

theorem makes_setEnv (env : Option (LuaValue N)) : Makes (LuaState.setEnv vm.recording env) [] := by
  cases env with
  | none => exact .pure ()
  | some env => exact (silent_push env).bind fun _ => (silent_setFEnv vm _).makes

theorem makes_loadBuffer (chunk : String) (size : ℕ) (name : String) :
    Makes (LuaL_LoadBuffer vm.recording chunk size name) [⟨chunk, size, name⟩] := by
  intro m
  cases h : vm.loadbuffer m.world.1 chunk size name with
  | mk r w => cases r <;> simp only [LuaL_LoadBuffer, Vm.recording, h] <;> rfl

theorem recording_pcall (w : W × List Load) (f : LuaValue N) (args : List (LuaValue N))
    (handler : Option (LuaValue N)) : (vm.recording.pcall w f args handler).2.2 = w.2 := rfl

theorem makes_pCall (nargs : ℕ) (errfunc : ℤ) : Makes (LuaPCall vm.recording nargs errfunc) [] := by
  intro m
  have hlog := recording_pcall vm m.world (m.value vm.recording (.rel (.negSucc nargs)))
    (m.stack.take nargs).reverse
    (if errfunc = 0 then none else some (m.value vm.recording (.rel errfunc)))
  unfold LuaPCall
  dsimp only
  generalize vm.recording.pcall _ _ _ _ = out at hlog ⊢
  rw [List.append_nil]
  obtain ⟨e | results, w⟩ := out
  · exact hlog
  · exact hlog

theorem makes_call (nargs : ℕ) : Makes (LuaCall vm.recording nargs) [] := by
  refine (makes_pCall vm nargs 0).bind fun error => ?_
  split
  · exact .throw _
  · exact .pure ()

theorem makes_getReference (wrap : LuaValue N → ClrValue N Obj) (i : ℤ) :
    Makes (LuaState.getReference vm.recording wrap i) [] :=
  (Silent.gets _).bind fun _ => (silent_pushValue vm i).bind fun _ => (silent_ref vm).bind fun _ =>
    .pure _

theorem makes_getObject (i : ℤ) : Makes (LuaState.getObject vm.recording i) [] := by
  refine (Silent.gets _).bind fun v => ?_
  cases v with
  | table => exact (makes_getReference vm _ i).map _
  | function => exact (makes_getReference vm _ i).map _
  | userdata =>
      refine (Silent.gets _).bind fun o => ?_
      cases o with
      | none => exact (makes_getReference vm _ i).map _
      | some o => exact .pure _
  | _ => exact .pure _

theorem makes_getObjects (i n : ℕ) : Makes (LuaState.getObjects vm.recording i n) [] := by
  induction n generalizing i with
  | zero => exact .pure _
  | succ n ih => exact (makes_getObject vm i).bind fun _ => (ih (i + 1)).bind fun _ => .pure _

theorem makes_popValues (oldTop : ℕ) : Makes (LuaState.popValues vm.recording oldTop) [] := by
  refine (Silent.gets _).bind fun newTop => ?_
  split
  · exact .pure _
  · exact (makes_getObjects vm _ _).bind fun _ => (silent_setTop _).bind fun _ => .pure _

theorem makes_throw (oldTop : ℕ) :
    Makes (LuaState.ThrowExceptionFromError vm.recording oldTop :
      LuaM N Obj (W × List Load) α) [] := by
  refine (makes_getObject vm _).bind fun err => (silent_setTop _).bind fun _ => ?_
  match err with
  | none => exact .throw _
  | some (.object o) =>
      dsimp only
      split <;> exact .throw _
  | some (.integral ..) | some (.double _) | some (.float _) | some (.decimal _) => exact .throw _
  | some (.bool _) | some (.string _) | some (.luaTable _) | some (.luaFunction _) =>
      exact .throw _
  | some (.luaUserData _) | some (.delegate ..) | some (.generated ..) | some (.array ..) =>
      exact .throw _

/-! ### The call of each way -/

/-- A chunk that is given as a string. -/
theorem makes_LoadString (chunk name : String) (env : Option (LuaValue N)) :
    Makes (LuaState.LoadString vm.recording chunk name env)
      [⟨chunk, LuaState.length chunk, name⟩] := by
  refine (Silent.gets _).bind fun oldTop => (makes_loadBuffer vm _ _ _).bind fun code => ?_
  split
  · exact makes_throw vm oldTop
  · exact (makes_setEnv vm env).bind fun _ => (makes_getReference vm _ _).bind fun _ =>
      (makes_popValues vm oldTop).bind fun _ => .pure _

theorem makes_DoString (chunk chunkName : String) (env : Option (LuaValue N)) :
    Makes (LuaState.DoString vm.recording chunk chunkName env)
      [⟨chunk, LuaState.length chunk, chunkName⟩] := by
  refine (Silent.gets _).bind fun oldTop => (makes_loadBuffer vm _ _ _).bind fun code => ?_
  split
  · refine (makes_setEnv vm env).bind fun _ => (makes_pCall vm _ _).bind fun error => ?_
    split
    · exact makes_popValues vm oldTop
    · exact makes_throw vm oldTop
  · exact makes_throw vm oldTop

/-- The call for a file, if there is one. -/
def fileLoad (resources : String → Option TextAsset) (fileName : String) : List Load :=
  ((resources fileName).map fun file => ⟨file.text, file.bytes, fileName⟩).toList

theorem makes_LoadFile (fileName : String) :
    Makes (LuaState.LoadFile vm.recording fileName) (fileLoad vm.resources fileName) := by
  refine (Silent.gets _).bind fun oldTop => ?_
  rw [recording_resources, fileLoad]
  cases vm.resources fileName with
  | none => exact makes_throw vm oldTop
  | some file =>
      refine (makes_loadBuffer vm _ _ _).bind fun code => ?_
      split
      · exact makes_throw vm oldTop
      · exact (makes_getReference vm _ _).bind fun _ => (makes_popValues vm oldTop).bind fun _ =>
          .pure _

theorem makes_DoFile (fileName : String) (env : Option (LuaValue N)) :
    Makes (LuaState.DoFile vm.recording fileName env) (fileLoad vm.resources fileName) := by
  refine (silent_push _).bind fun _ => (Silent.gets _).bind fun oldTop => ?_
  rw [recording_resources, fileLoad]
  cases vm.resources fileName with
  | none => exact makes_throw vm oldTop
  | some file =>
      refine (makes_loadBuffer vm _ _ _).bind fun code => ?_
      split
      · refine (makes_setEnv vm env).bind fun _ => (makes_pCall vm _ _).bind fun error => ?_
        split
        · exact (makes_popValues vm oldTop).bind fun _ => (silent_setTop _).bind fun _ => .pure _
        · exact makes_throw vm oldTop
      · exact makes_throw vm oldTop

/-- The name that a script passes to `loader` or `dofile`. -/
def scriptName (m : Machine N W) : Option String :=
  ((vm.env m.world).toLString (m.value vm (.rel 1))).1

theorem LuaToString_apply (m : Machine N (W × List Load)) :
    ∃ slot, LuaToString vm.recording 1 m = (.ok (scriptName vm.recording m),
      { m with stack := m.stack.set (m.offset 1) slot }) := ⟨_, rfl⟩

/-- The call for the file of a script. -/
def scriptLoad (fileName : Option String) : List Load :=
  match fileName with
  | none => []
  | some fileName => fileLoad vm.resources fileName

/-- The script is loaded from the file, whatever is done with it then. -/
theorem loader_world (m : Machine N (W × List Load)) :
    (LuaStatic.loader vm.recording m).2.world.2 = m.world.2 ++
      scriptLoad vm ((scriptName vm.recording m).map (LuaStatic.replaceDots · ++ ".lua")) := by
  obtain ⟨slot, hname⟩ := LuaToString_apply vm m
  rw [LuaStatic.loader, Prog.bind_ok hname]
  cases scriptName vm.recording m with
  | none => exact Makes.throw _ _
  | some fileName =>
      dsimp only [Option.map, scriptLoad]
      rw [recording_resources, fileLoad]
      cases vm.resources (LuaStatic.replaceDots fileName ++ ".lua") with
      | none => exact Makes.pure 0 _
      | some file => exact (makes_loadBuffer vm _ _ _).bind (fun _ => .pure 1) _

theorem dofile_world (m : Machine N (W × List Load)) :
    (LuaStatic.dofile vm.recording m).2.world.2 = m.world.2 ++
      scriptLoad vm ((scriptName vm.recording m).map (· ++ ".lua")) := by
  obtain ⟨slot, hname⟩ := LuaToString_apply vm m
  rw [LuaStatic.dofile, Prog.bind_ok hname]
  cases scriptName vm.recording m with
  | none => exact Makes.throw _ _
  | some fileName =>
      refine (Silent.gets _).bind (fun n => ?_) _
      dsimp only [Option.map, scriptLoad]
      rw [recording_resources, fileLoad]
      cases vm.resources (fileName ++ ".lua") with
      | none => exact (Silent.gets _).bind fun _ => .pure _
      | some file =>
          refine (makes_loadBuffer vm _ _ _).bind fun code => ?_
          split
          · exact (makes_call vm 0).bind fun _ => (Silent.gets _).bind fun _ => .pure _
          · exact (Silent.gets _).bind fun _ => .pure _

end Recording

/-- Where the text of a chunk comes from. -/
inductive Source
  | text (chunk name : String)
  | file (fileName : String)
  | nowhere

/-- A script without a name has no text. -/
def Source.ofScript (fileName : Option String) : Source :=
  match fileName with
  | none => .nowhere
  | some fileName => .file fileName

def Route.source (vm : Vm N Obj W) (m : Machine N W) : Route N → Source
  | .LoadString chunk name _ | .DoString chunk name _ => .text chunk name
  | .LoadFile fileName | .DoFile fileName _ => .file fileName
  | .loader | .loadfile => .ofScript ((scriptName vm m).map (LuaStatic.replaceDots · ++ ".lua"))
  | .dofile => .ofScript ((scriptName vm m).map (· ++ ".lua"))

/-- The call that is made for a text. -/
def Source.loads (resources : String → Option TextAsset) : Source → List Load
  | .text chunk name => [⟨chunk, LuaState.length chunk, name⟩]
  | .file fileName => fileLoad resources fileName
  | .nowhere => []

theorem loads_ofScript (vm : Vm N Obj W) (fileName : Option String) :
    (Source.ofScript fileName).loads vm.resources = scriptLoad vm fileName := by
  cases fileName <;> rfl

/-- **The call of each way of loading a chunk.** -/
theorem loads_eq (vm : Vm N Obj W) (route : Route N) (m : Machine N W) :
    route.loads vm m = (route.source vm m).loads vm.resources := by
  rw [Route.loads]
  cases route with
  | LoadString chunk name env => exact ((makes_LoadString vm chunk name env).map _) _
  | DoString chunk name env => exact ((makes_DoString vm chunk name env).map _) _
  | LoadFile fileName => exact ((makes_LoadFile vm fileName).map _) _
  | DoFile fileName env => exact ((makes_DoFile vm fileName env).map _) _
  | loader =>
      rw [Route.run, Prog.map_apply, Route.source, loads_ofScript]
      exact loader_world vm _
  | loadfile =>
      rw [Route.run, Prog.map_apply, Route.source, loads_ofScript]
      exact loader_world vm _
  | dofile =>
      rw [Route.run, Prog.map_apply, Route.source, loads_ofScript]
      exact dofile_world vm _

/-! ### Lengths -/

/-- No character has fewer bytes than units of UTF-16, and only ASCII has as many. -/
theorem units_spec (c : Char) :
    (if c.toNat < 0x10000 then 1 else 2) ≤ c.utf8Size ∧
      ((if c.toNat < 0x10000 then 1 else 2) = c.utf8Size ↔ c.toNat < 0x80) := by
  have hpos := c.utf8Size_pos
  have hone : c.utf8Size = 1 ↔ c.toNat < 0x80 := by
    rw [Char.utf8Size_eq_one_iff, UInt32.le_iff_toNat_le]
    exact Nat.lt_succ_iff.symm
  have hfour : c.utf8Size = 4 ↔ ¬ c.toNat < 0x10000 := by
    rw [Char.utf8Size_eq_four_iff, UInt32.lt_iff_toNat_lt, Nat.not_lt]
    exact Nat.succ_le_iff.symm
  split <;> omega

/-- Of the lengths of a string only that of ASCII is the number of its bytes. -/
theorem length_le_marshal (s : String) :
    LuaState.length s ≤ (marshal s).length ∧
      (LuaState.length s = (marshal s).length ↔ ∀ c ∈ s.toList, c.toNat < 0x80) := by
  rw [LuaState.length, marshal, List.length_flatMap]
  simp only [String.length_utf8EncodeChar]
  induction s.toList with
  | nil => simp
  | cons c cs ih =>
      obtain ⟨hle, heq⟩ := units_spec c
      obtain ⟨ihle, iheq⟩ := ih
      simp only [List.map_cons, List.sum_cons, List.forall_mem_cons, ← heq, ← iheq]
      omega

/-- A file is longer than its text by the byte order mark. -/
theorem ScriptFile.length_bytes (file : ScriptFile) :
    file.bytes.length = (if file.byteOrderMark then 3 else 0) + (marshal file.text).length := by
  rw [bytes, List.length_append]
  cases file.byteOrderMark <;> rfl

/-! ### The whole chunk -/

/-- The texts that should be compiled. -/
def Source.texts (files : String → Option ScriptFile) : Source → List String
  | .text chunk _ => [chunk]
  | .file fileName => ((files fileName).map ScriptFile.text).toList
  | .nowhere => []

/-- A string in ASCII, and a file without a byte order mark. -/
def Source.Plain (files : String → Option ScriptFile) : Source → Prop
  | .text chunk _ => ∀ c ∈ chunk.toList, c.toNat < 0x80
  | .file fileName => ∀ file, files fileName = some file → file.byteOrderMark = false
  | .nowhere => True

/-- The text is loaded, and each load is told its length and compiles it. -/
def CompilesAll (vm : Vm N Obj W) (files : String → Option ScriptFile) (route : Route N)
    (m : Machine N W) : Prop :=
  (route.loads (vm.withFiles files) m).map Load.chunk =
      (route.source (vm.withFiles files) m).texts files ∧
    ∀ l ∈ route.loads (vm.withFiles files) m, l.Exact

/-- The size is right for a string in ASCII and for a file without a byte order mark. -/
theorem size_eq_iff (vm : Vm N Obj W) (files : String → Option ScriptFile) (source : Source) :
    (∀ l ∈ source.loads (vm.withFiles files).resources, l.size = (marshal l.chunk).length) ↔
      source.Plain files := by
  cases source with
  | text chunk name =>
      rw [Source.loads, List.forall_mem_singleton]
      exact (length_le_marshal chunk).2
  | nowhere => exact iff_of_true (fun l hl => nomatch hl) trivial
  | file fileName =>
      simp only [Source.loads, fileLoad, Vm.withFiles, Source.Plain, Option.map_map]
      cases files fileName with
      | none => simp
      | some file =>
          have hsize := file.length_bytes
          cases hmark : file.byteOrderMark <;> simp [ScriptFile.asset, hmark] at hsize ⊢ <;> omega

/-- **When the whole chunk is compiled**: a chunk given as a string, if it is in ASCII; a chunk
from a file, if the file has no byte order mark. -/
theorem compilesAll_iff (vm : Vm N Obj W) (files : String → Option ScriptFile) (route : Route N)
    (m : Machine N W) :
    CompilesAll vm files route m ↔ (route.source (vm.withFiles files) m).Plain files := by
  rw [CompilesAll, loads_eq, ← size_eq_iff vm]
  simp only [Load.exact_iff]
  refine and_iff_right ?_
  cases route.source (vm.withFiles files) m with
  | text chunk name => rfl
  | nowhere => rfl
  | file fileName =>
      simp only [Source.loads, fileLoad, Vm.withFiles, Source.texts, Option.map_map]
      cases files fileName <;> rfl

/-- The last byte of a text with an accent is cut off. -/
theorem compilesAll_fails :
    ¬ ∀ (files : String → Option ScriptFile) (route : Route ℤ) (m : Machine ℤ Unit),
      CompilesAll LuaState.plainVm files route m := by
  intro h
  have hall := (h (fun _ => none) (.DoString "return 'é'" "chunk" none) ⟨.nil, [], ()⟩).2
  rw [loads_eq] at hall
  have hsize := (Load.exact_iff.mp (hall _ (List.mem_singleton_self _)))
  exact absurd hsize (by decide)

end UnityLua
