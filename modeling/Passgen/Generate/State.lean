import Mathlib.Algebra.Field.Rat
import Mathlib.Data.List.Basic
import Mathlib.Tactic.Common
import Passgen.Effect.Rules
import Passgen.Random.Source
import Passgen.Wordlist.Wordlist

/-!
# Generate/State — what generating reads and changes

    random ─ draws ▸ generator ─ codepoints ▸ callback

A generator is a computation on a `GenState` that returns, or stops with the nonzero result `try`
passes up, in a rejection loop that does not exit, or in a fault of the program.  The state logs the
codepoints handed to the callback and the draws made, with the place each was made at; nothing reads
the logs.
-/

namespace Passgen

/-- Why a run ends early. -/
inductive Stop where
  /-- A nonzero result. -/
  | returned (code : ℤ)
  /-- A rejection loop that does not exit. -/
  | looping
  /-- Undefined behaviour, or a failed `assert`. -/
  | fault
  deriving DecidableEq, Repr

/-- A place of the generator that draws, with what is drawn from there. -/
inductive Site where
  | maybe
  | rep (rep : Repeat)
  | set (set : PatternSet)
  | segment (multipliers : List ℕ)
  | word (words : List (List UInt8))
  | markov (leaf : Leaf)

/-- A draw: where, below what bound, and what came out of it. -/
structure Draw where
  site : Site
  bound : ℕ
  taken : Option ℕ

/-- What a `passgen_generate_context` refers to and changes, and the logs.  `*entropy` is a `double`;
here it is an exact rational. -/
structure GenState (σ δ : Type) where
  random : σ
  data : δ
  depth : ℕ
  entropy : Option ℚ
  wordlists : List (List UInt8 × Wordlist)
  emitted : List ℕ
  draws : List Draw

/-- A computation of the generator. -/
abbrev Gen (σ δ α : Type) : Type := EStateM Stop (GenState σ δ) α

/-- The functions a run is given: its randomness, and the callback. -/
structure Host (σ δ : Type) where
  source : Source σ
  func : δ → ℕ → ℤ × δ

variable {σ δ : Type} (host : Host σ δ)

/-- `emit`, under `try`. -/
def emit (codepoint : ℕ) : Gen σ δ Unit := fun s =>
  let (code, data) := host.func s.data codepoint
  let s := { s with data, emitted := s.emitted ++ [codepoint] }
  if code = 0 then .ok () s else .error (.returned code) s

/-- `descend`, under `try`. -/
def descend : Gen σ δ Unit := fun s =>
  if s.depth = 0 then .error (.returned 1) s else .ok () { s with depth := s.depth - 1 }

/-- `ascend`. -/
def ascend : Gen σ δ Unit := modify fun s => { s with depth := s.depth + 1 }

/-- `passgen_random_u64_max`, at a place of the generator. -/
def drawBelow (site : Site) (bound : ℕ) : Gen σ δ ℕ := fun s =>
  match host.source.u64Max s.random bound with
  | some (v, random) => .ok v { s with random, draws := s.draws ++ [⟨site, bound, some v⟩] }
  | none => .error .looping { s with draws := s.draws ++ [⟨site, bound, none⟩] }

/-- `passgen_random_bool`, at the place that decides about a maybe. -/
def drawMaybe : Gen σ δ Bool := fun s =>
  let (b, random) := host.source.bool s.random
  .ok b { s with random, draws := s.draws ++ [⟨.maybe, 2, some b.toNat⟩] }

/-- `*context->entropy *= factor`, where entropy is collected. -/
def multiplyEntropy (factor : ℕ) : Gen σ δ Unit :=
  modify fun s => { s with entropy := s.entropy.map fun e => e * factor }

/-- `*context->entropy /= factor`, where entropy is collected. -/
def divideEntropy (factor : ℕ) : Gen σ δ Unit :=
  modify fun s => { s with entropy := s.entropy.map fun e => e / factor }

/-- All codepoints in order. -/
def emitAll (codepoints : List ℕ) : Gen σ δ Unit :=
  Effect.inOrder (codepoints.map (emit host))

/-! ## What each of them does -/

variable {host} {s t : GenState σ δ}

theorem returns_drawBelow_iff {site : Site} {bound v : ℕ} :
    Effect.Returns (drawBelow host site bound) s v t ↔
      ∃ random, host.source.u64Max s.random bound = some (v, random) ∧
        t = { s with random, draws := s.draws ++ [⟨site, bound, some v⟩] } := by
  rw [Effect.Returns, EStateM.run, drawBelow]
  rcases host.source.u64Max s.random bound with _ | ⟨w, random⟩
  · simp
  · constructor
    · intro h
      obtain ⟨rfl, rfl⟩ : w = v ∧ _ = t := by simpa using h
      exact ⟨random, rfl, rfl⟩
    · rintro ⟨random', h, rfl⟩
      obtain ⟨rfl, rfl⟩ : w = v ∧ random = random' := by simpa using h
      rfl

theorem stops_drawBelow_iff {site : Site} {bound : ℕ} {e : Stop} :
    Effect.Stops (drawBelow host site bound) s e t ↔
      host.source.u64Max s.random bound = none ∧ e = .looping ∧
        t = { s with draws := s.draws ++ [⟨site, bound, none⟩] } := by
  rw [Effect.Stops, EStateM.run, drawBelow]
  rcases host.source.u64Max s.random bound with _ | ⟨w, random⟩
  · simp [eq_comm]
  · simp

/-- A draw is made first. -/
theorem run_drawBelow_bind {α : Type} {site : Site} {bound v : ℕ} {random : σ}
    (hdraw : host.source.u64Max s.random bound = some (v, random)) (f : ℕ → Gen σ δ α) :
    (drawBelow host site bound >>= f).run s
      = (f v).run { s with random, draws := s.draws ++ [⟨site, bound, some v⟩] } :=
  (returns_drawBelow_iff.mpr ⟨random, hdraw, rfl⟩).run_bind f

theorem returns_drawMaybe_iff {b : Bool} :
    Effect.Returns (drawMaybe host) s b t ↔ b = (host.source.bool s.random).1 ∧
      t = { s with
        random := (host.source.bool s.random).2
        draws := s.draws ++ [⟨.maybe, 2, some (host.source.bool s.random).1.toNat⟩] } := by
  rw [Effect.Returns, EStateM.run, drawMaybe, EStateM.Result.ok.injEq, eq_comm, eq_comm (b := t)]

theorem returns_emit_iff {codepoint : ℕ} :
    Effect.Returns (emit host codepoint) s () t ↔ (host.func s.data codepoint).1 = 0 ∧
      t = { s with
        data := (host.func s.data codepoint).2, emitted := s.emitted ++ [codepoint] } := by
  rw [Effect.Returns, EStateM.run, emit]
  by_cases hcode : (host.func s.data codepoint).1 = 0
  · simp [hcode, eq_comm]
  · simp [hcode]

theorem stops_emit_iff {codepoint : ℕ} {e : Stop} :
    Effect.Stops (emit host codepoint) s e t ↔ (host.func s.data codepoint).1 ≠ 0 ∧
      e = .returned (host.func s.data codepoint).1 ∧
      t = { s with
        data := (host.func s.data codepoint).2, emitted := s.emitted ++ [codepoint] } := by
  rw [Effect.Stops, EStateM.run, emit]
  by_cases hcode : (host.func s.data codepoint).1 = 0
  · simp [hcode]
  · simp [hcode, eq_comm]

theorem returns_descend_iff :
    Effect.Returns descend s () t ↔ s.depth ≠ 0 ∧ t = { s with depth := s.depth - 1 } := by
  rw [Effect.Returns, EStateM.run, descend]
  by_cases hdepth : s.depth = 0
  · simp [hdepth]
  · simp [hdepth, eq_comm]

end Passgen
