import UnityLua.Library.Program

/-!
# Operations that fail cleanly

An operation has operands that must be converted first. It fails cleanly if a failed conversion
is reported and nothing is changed. A program that goes on with what the conversion has left in
place of a value, such as a null, fails cleanly only as far as the operation itself refuses that.

## Main results

* `cleanly_performs_iff`: when a program that goes on with whatever it got fails cleanly.
-/

namespace Library

variable {σ ε φ ι α : Type} {IsReport : φ → Prop}

/-- The program is left with a report, and nothing has changed. -/
def FailsCleanly (IsReport : φ → Prop) (s : σ) (out : Except φ α × σ) : Prop :=
  ∃ e, IsReport e ∧ out = (.error e, s)

/-- The program comes to what the operation comes to, with a report for an exception. -/
structure Mirrors (IsReport : φ → Prop) (run : Except ε α × σ) (out : Except φ α × σ) : Prop where
  ok : ∀ a s, run = (.ok a, s) → out = (.ok a, s)
  error : ∀ e s, run = (.error e, s) → FailsCleanly IsReport s out

/-- The operation raises an exception and changes nothing. -/
def Refuses (x : Prog σ ε α) (s : σ) : Prop := ∃ e, x s = (.error e, s)

/-- With operands that convert the operation is done, and else nothing but a report is. -/
structure Cleanly (IsReport : φ → Prop) (conv : ι → Prop) (operation : ι → Prog σ ε α) (s : σ)
    (out : Except φ α × σ) : Prop where
  converted : ∀ c, conv c → Mirrors IsReport (operation c s) out
  failed : (∀ c, ¬conv c) → FailsCleanly IsReport s out

/-- Goes on with what the conversion of the operands gave. `guarded` says that the exceptions of
the conversion are reported like those of the operation. -/
def performs (report escape : ε → φ) (guarded : Bool) (got : Except ε ι)
    (operation : ι → Prog σ ε α) : Prog σ φ α := fun s =>
  match got with
  | .error e => (.error (if guarded then report e else escape e), s)
  | .ok c => ((operation c s).1.mapError report, (operation c s).2)

/-- Nothing happens with what the conversion gave. -/
structure Tolerates (guarded : Bool) (got : Except ε ι) (operation : ι → Prog σ ε α) (s : σ) :
    Prop where
  error : ∀ e, got = .error e → guarded = true
  ok : ∀ c, got = .ok c → Refuses (operation c) s

variable {report escape : ε → φ} {guarded : Bool} {got : Except ε ι} {conv : ι → Prop}
  {operation : ι → Prog σ ε α} {s : σ} {out : Except φ α × σ}

theorem performs_error (e : ε) :
    performs report escape guarded (.error e) operation s =
      (.error (if guarded then report e else escape e), s) := rfl

theorem performs_ok (c : ι) :
    performs report escape guarded (.ok c) operation s =
      ((operation c s).1.mapError report, (operation c s).2) := rfl

theorem mirrors_mapError (hreport : ∀ e, IsReport (report e)) (run : Except ε α × σ) :
    Mirrors IsReport run (run.1.mapError report, run.2) where
  ok a s hrun := by
    rw [hrun]
    rfl
  error e s hrun := by
    rw [hrun]
    exact ⟨report e, hreport e, rfl⟩

theorem failsCleanly_mapError (hreport : ∀ e, IsReport (report e)) {x : Prog σ ε α} :
    FailsCleanly IsReport s ((x s).1.mapError report, (x s).2) ↔ Refuses x s := by
  rw [Refuses]
  constructor
  · rintro ⟨e, -, hout⟩
    rcases hrun : x s with ⟨e' | a, s'⟩
    · rw [hrun] at hout
      obtain rfl : s' = s := (Prod.mk.inj hout).2
      exact ⟨e', rfl⟩
    · rw [hrun] at hout
      cases (Prod.mk.inj hout).1
  · rintro ⟨e, hrun⟩
    rw [hrun]
    exact ⟨report e, hreport e, rfl⟩

/-- The operands may be given in another way. -/
theorem cleanly_reindex {ι' : Type} {conv' : ι' → Prop} {f : ι' → ι}
    (h : ∀ c, conv c ↔ ∃ c', conv' c' ∧ f c' = c) :
    Cleanly IsReport conv operation s out ↔
      Cleanly IsReport conv' (fun c' => operation (f c')) s out := by
  constructor
  · intro hclean
    refine ⟨fun c' hc' => hclean.converted _ ((h _).mpr ⟨c', hc', rfl⟩), fun hnone => ?_⟩
    refine hclean.failed fun c hc => ?_
    obtain ⟨c', hc', -⟩ := (h c).mp hc
    exact hnone c' hc'
  · intro hclean
    refine ⟨fun c hc => ?_, fun hnone => hclean.failed fun c' hc' =>
      hnone (f c') ((h _).mpr ⟨c', hc', rfl⟩)⟩
    obtain ⟨c', hc', rfl⟩ := (h c).mp hc
    exact hclean.converted c' hc'

/-- **When a program fails cleanly that goes on with whatever it got.** -/
theorem cleanly_performs_iff (hreport : ∀ e, IsReport (report e))
    (hescape : ∀ e, ¬IsReport (escape e)) (hgot : ∀ c, conv c → got = .ok c) :
    Cleanly IsReport conv operation s (performs report escape guarded got operation s) ↔
      (∃ c, conv c) ∨ Tolerates guarded got operation s := by
  by_cases hconv : ∃ c, conv c
  · obtain ⟨c, hc⟩ := hconv
    refine iff_of_true ⟨fun c' hc' => ?_, fun hnone => absurd hc (hnone c)⟩ (.inl ⟨c, hc⟩)
    rw [hgot c' hc', performs_ok]
    exact mirrors_mapError hreport _
  · have hnone : ∀ c, ¬conv c := fun c hc => hconv ⟨c, hc⟩
    rw [or_iff_right hconv]
    cases got with
    | error e =>
        cases guarded with
        | true =>
            exact iff_of_true ⟨fun c hc => absurd hc (hnone c), fun _ => ⟨_, hreport e, rfl⟩⟩
              ⟨fun _ _ => rfl, fun c hc => by cases hc⟩
        | false =>
            refine iff_of_false (fun h => ?_) fun h => by cases h.error e rfl
            obtain ⟨e', he', hout⟩ := h.failed hnone
            obtain rfl : escape e = e' := Except.error.inj (Prod.mk.inj hout).1
            exact hescape e he'
    | ok c =>
        constructor
        · intro h
          refine ⟨fun e he => ?_, fun c' hc' => ?_⟩
          · cases he
          · obtain rfl := Except.ok.inj hc'
            exact (failsCleanly_mapError hreport).mp (h.failed hnone)
        · intro h
          exact ⟨fun c' hc' => absurd hc' (hnone c'),
            fun _ => (failsCleanly_mapError hreport).mpr (h.ok c rfl)⟩

/-- A program that reports whatever its operands are. -/
theorem cleanly_report_iff {e : φ} (he : IsReport e) :
    Cleanly IsReport conv operation s (.error e, s) ↔ ∀ c, conv c → Refuses (operation c) s := by
  constructor
  · intro h c hc
    rcases hrun : operation c s with ⟨e' | a, s'⟩
    · obtain ⟨e'', -, hout⟩ := (h.converted c hc).error e' s' hrun
      exact ⟨e', by rw [hrun, (Prod.mk.inj hout).2]⟩
    · cases (h.converted c hc).ok a s' hrun
  · intro h
    refine ⟨fun c hc => ?_, fun _ => ⟨e, he, rfl⟩⟩
    obtain ⟨e', hrun⟩ := h c hc
    rw [hrun]
    refine ⟨fun a s' hok => ?_, fun e'' s' herror => ?_⟩
    · cases hok
    · obtain rfl := (Prod.mk.inj herror).2
      exact ⟨e, he, rfl⟩

/-- A program that lets an exception escape never fails cleanly. -/
theorem not_cleanly_escape {e : φ} (he : ¬IsReport e) {s' : σ} :
    ¬Cleanly IsReport conv operation s (.error e, s') := by
  intro h
  by_cases hconv : ∃ c, conv c
  · obtain ⟨c, hc⟩ := hconv
    rcases hrun : operation c s with ⟨e' | a, s''⟩
    · obtain ⟨e'', he'', hout⟩ := (h.converted c hc).error e' s'' hrun
      exact he (Except.error.inj (Prod.mk.inj hout).1 ▸ he'')
    · cases (h.converted c hc).ok a s'' hrun
  · obtain ⟨e'', he'', hout⟩ := h.failed fun c hc => hconv ⟨c, hc⟩
    exact he (Except.error.inj (Prod.mk.inj hout).1 ▸ he'')

end Library
