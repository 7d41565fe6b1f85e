import Mathlib.Data.List.Basic
import Mathlib.Tactic.Common
import Passgen.Generate.Language
import Passgen.Parser.Repeats

/-!
# Generate/Repeats — counts within their bounds

    draw 0 1 … max - min
         │ │       │         one count for each draw, as long as min ≤ max
       min …      max

`passgen_generate_repeat` subtracts the bounds without comparing them.  It respects them exactly
when they are in order and do not span all of `size_t`, and the parser sees to neither.
-/

namespace Passgen

/-- The bounds are in order, and there are fewer than `2 ^ 64` counts between them. -/
def Repeat.InOrder (rep : Repeat) : Prop :=
  rep.min ≤ rep.max ∧ rep.max - rep.min + 1 < 2 ^ 64

instance : DecidablePred Repeat.InOrder := fun _ => inferInstanceAs (Decidable (_ ∧ _))

/-- The accepted draw `choice` gives the count `n`. -/
def Repeat.Counts (rep : Repeat) (choice n : ℕ) : Prop :=
  ∀ {σ δ : Type} (host : Host σ δ) (s : GenState σ δ) (random : σ),
    host.source.u64Max s.random (rep.max - rep.min + 1) = some (choice, random) →
      ∃ t, Effect.Returns (generateRepeat host rep) s n t

/-- The bounds are in order, and generating keeps to them: whatever the source, a count is returned
and it is within the bounds, and each count comes from exactly one accepted draw. -/
structure Repeat.Respected (rep : Repeat) : Prop where
  le : rep.min ≤ rep.max
  within : ∀ {σ δ : Type} (host : Host σ δ) (s t : GenState σ δ) (n : ℕ),
    Effect.Returns (generateRepeat host rep) s n t → rep.min ≤ n ∧ n ≤ rep.max
  exits : ∀ {σ δ : Type} (host : Host σ δ) (s : GenState σ δ), host.source.Exits →
    ∃ n t, Effect.Returns (generateRepeat host rep) s n t
  existsUnique_draw : ∀ n, rep.min ≤ n → n ≤ rep.max →
    ∃! choice, choice < rep.max - rep.min + 1 ∧ rep.Counts choice n

section Respected

variable {rep : Repeat}

/-- What a draw gives. -/
theorem returns_generateRepeat_draw (horder : rep.InOrder) (hsize : rep.Sized) {σ δ : Type}
    (host : Host σ δ) (s : GenState σ δ) {choice : ℕ} {random : σ}
    (hdraw : host.source.u64Max s.random (rep.max - rep.min + 1) = some (choice, random)) :
    ∃ t, Effect.Returns (generateRepeat host rep) s (rep.min + choice) t := by
  have hlt := host.source.u64Max_lt hdraw
  obtain ⟨hle, hcounts⟩ := horder
  obtain ⟨hmin, hmax⟩ := hsize
  rw [generateRepeat, sizeSub_of_le hmax hle]
  split
  · obtain rfl : choice = 0 := by omega
    exact ⟨s, Effect.returns_pure_iff.mpr ⟨rfl, rfl⟩⟩
  · refine ⟨_, Effect.returns_bind_iff.mpr ⟨choice, _, returns_drawBelow_iff.mpr
      ⟨random, by rw [sizeT_of_lt hcounts, hdraw], rfl⟩, Effect.returns_bind_iff.mpr
      ⟨(), _, Effect.returns_modify_iff.mpr rfl, Effect.returns_pure_iff.mpr ⟨?_, rfl⟩⟩⟩⟩
    rw [sizeT_of_lt (by omega)]

theorem returns_unique {σ δ α : Type} {x : Gen σ δ α} {s t u : GenState σ δ} {a b : α}
    (h : Effect.Returns x s a t) (h' : Effect.Returns x s b u) : a = b := by
  have := Eq.trans (Eq.symm h) h'
  exact (EStateM.Result.ok.inj this).1

/-- A state before the draw `choice`, with nothing else in it. -/
def drawState (choice : ℕ) : GenState (List ℕ) Unit :=
  ⟨[choice], (), 0, none, [], [], []⟩

/-- Different draws give different counts. -/
theorem Repeat.Counts.eq (horder : rep.InOrder) (hsize : rep.Sized) {choice n : ℕ}
    (hlt : choice < rep.max - rep.min + 1) (h : rep.Counts choice n) : n = rep.min + choice := by
  have hdraw : drawSource.u64Max (drawState choice).random (rep.max - rep.min + 1) =
      some (choice, []) := if_pos hlt
  obtain ⟨t, ht⟩ := h ⟨drawSource, fun _ _ => (0, ())⟩ (drawState choice) [] hdraw
  obtain ⟨u, hu⟩ := returns_generateRepeat_draw horder hsize
    ⟨drawSource, fun _ _ => (0, ())⟩ (drawState choice) hdraw
  exact returns_unique ht hu

theorem Repeat.InOrder.respected (h : rep.InOrder) (hsize : rep.Sized) : rep.Respected where
  le := h.1
  within host s t n hn := by
    obtain ⟨hmin, hmax, -⟩ := returns_generateRepeat ⟨h.1, hsize.2, h.2⟩ hn
    exact ⟨hmin, hmax⟩
  exits host s hexits := by
    obtain ⟨⟨choice, random⟩, hdraw⟩ :=
      Option.isSome_iff_exists.mp (hexits s.random (rep.max - rep.min + 1) (Nat.succ_pos _))
    exact ⟨_, returns_generateRepeat_draw h hsize host s hdraw⟩
  existsUnique_draw n hmin hmax := by
    refine ⟨n - rep.min, ⟨by omega, fun host s random hdraw => ?_⟩, ?_⟩
    · have := returns_generateRepeat_draw h hsize host s hdraw
      rwa [Nat.add_sub_cancel' hmin] at this
    · rintro choice ⟨hlt, hcounts⟩
      have := hcounts.eq h hsize hlt
      omega

/-- **When the bounds are respected.** -/
theorem Repeat.respected_iff (hsize : rep.Sized) : rep.Respected ↔ rep.InOrder := by
  refine ⟨fun h => ⟨h.le, ?_⟩, fun h => h.respected hsize⟩
  have hle := h.le
  obtain ⟨hmin, hmax⟩ := hsize
  by_contra hspan
  -- all counts of a `size_t`: one more than the last of them is zero
  have hdiff : rep.max - rep.min = 2 ^ 64 - 1 := by omega
  obtain ⟨n, t, h⟩ := h.exits ⟨zeroSource, fun _ _ => (0, ())⟩
    (⟨(), (), 0, none, [], [], []⟩ : GenState Unit Unit) zeroSource_exits
  rw [generateRepeat, sizeSub_of_le hmax hle, hdiff, if_neg (by decide)] at h
  obtain ⟨choice, u, hdraw, -⟩ := Effect.returns_bind_iff.mp h
  obtain ⟨random, hzero, -⟩ := returns_drawBelow_iff.mp hdraw
  have hbound : sizeT (2 ^ 64 - 1 + 1) = 0 := by decide
  rw [hbound, Source.u64Max_zero] at hzero
  exact absurd hzero (by simp)

end Respected

/-! ## Accepted patterns -/

instance {Q : Repeat → Prop} [DecidablePred Q] (t : ℕ) (state : List ParserState) :
    Decidable (ClosesRep Q t state) := by
  unfold ClosesRep
  split <;> infer_instance

/-- **Repeat counts respect their bounds**: the bounds are in order in every state of the parse
exactly when no `{n,m}` is closed on bounds that are not; then all repeats of the pattern are
respected.  Of any accepted pattern, the generator respects those repeats that are in order. -/
theorem reps_respected_iff {string : List UInt8} {g : Group} (hparse : parse string = .ok g) :
    (RunHolds (RepsRead Repeat.InOrder) (patternTokens string) parserInit.state ↔
      RunSteps (ClosesRep Repeat.InOrder) (patternTokens string) parserInit.state) ∧
    (RunSteps (ClosesRep Repeat.InOrder) (patternTokens string) parserInit.state →
      ∀ k, g.Contains k → Group.Reps Repeat.Respected k) ∧
    ∀ k, g.Contains k → Group.Reps (fun rep => rep.Respected ↔ rep.InOrder) k := by
  have hsized := sized_of_parse hparse
  have hiff : ∀ k, g.Contains k → Group.Reps (fun rep => rep.Respected ↔ rep.InOrder) k :=
    fun k hk s hs item hitem => Repeat.respected_iff (hsized k hk s hs item hitem)
  obtain ⟨state, hrun, -⟩ := parse_run hparse
  have hholds := runHolds_repsRead_iff (Q := Repeat.InOrder) (fun n => ⟨le_rfl, by simp⟩) hrun
  refine ⟨hholds, fun hsteps k hk s hs item hitem => ?_, hiff⟩
  exact (hiff k hk s hs item hitem).mpr
    (reps_of_parse hparse (hholds.mpr hsteps) k hk s hs item hitem)

/-- The pattern `a{2,3}`. -/
def twoOrThree : Group := ⟨[⟨[.mk (.literal ⟨[97], true⟩) ⟨2, 3⟩ false], 1⟩], 1⟩

theorem reps_respected_twoOrThree : Group.Reps Repeat.Respected twoOrThree :=
  (@reps_respected_iff (ascii "a{2,3}") twoOrThree rfl).2.1 (by decide) twoOrThree (.root _)

/-- **Bounds out of order** are accepted: `{5,4}` repeats five times and more. -/
theorem not_reps_respected_reversed :
    ¬∀ (string : List UInt8) (g : Group), parse string = .ok g →
      ∀ k, g.Contains k → Group.Reps Repeat.Respected k := by
  intro h
  have hparse : parse (ascii "a{5,4}") =
      .ok ⟨[⟨[.mk (.literal ⟨[97], true⟩) ⟨5, 4⟩ false], 1⟩], 1⟩ := rfl
  have hrep := h _ _ hparse _ (.root _) _ List.mem_cons_self _ List.mem_cons_self
  exact absurd hrep.le (by decide)

end Passgen
