import Mathlib.Data.List.Basic
import Mathlib.Tactic.Common
import Passgen.Random.Buffer

/-!
# Random/Source — draws below a bound

    raw word & mask ─ below the bound? ─ yes ▸ the draw
                                       └ no  ▸ the next raw word

A `Source` is what generating sees of a `passgen_random`: draws below a bound, and coin flips.
`randomSource` is the one behind `passgen_random_u64_max` and `passgen_random_bool`, over the
buffered reader; `drawSource` plays back a list of draws.
-/

namespace Passgen

/-- A source of draws.  `none` is a rejection loop that does not exit. -/
structure Source (σ : Type) where
  u64Max : σ → ℕ → Option (ℕ × σ)
  bool : σ → Bool × σ
  u64Max_lt : ∀ {r max v r'}, u64Max r max = some (v, r') → v < max

/-- Every rejection loop that has a value to accept exits. -/
def Source.Exits {σ : Type} (source : Source σ) : Prop :=
  ∀ r max, 0 < max → (source.u64Max r max).isSome

/-- No value is below zero. -/
theorem Source.u64Max_zero {σ : Type} (source : Source σ) (r : σ) : source.u64Max r 0 = none := by
  cases h : source.u64Max r 0 with
  | none => rfl
  | some p => exact absurd (source.u64Max_lt h) (Nat.not_lt_zero _)

/-! ## The rejection loop -/

/-- The mask of `passgen_random_u64_max`. -/
def u64Mask (max : ℕ) : ℕ :=
  let mask := max ||| max >>> 32
  let mask := mask ||| mask >>> 16
  let mask := mask ||| mask >>> 8
  let mask := mask ||| mask >>> 4
  let mask := mask ||| mask >>> 2
  mask ||| mask >>> 1

/-- Bytes as a little-endian number. -/
def littleEndian : List UInt8 → ℕ
  | [] => 0
  | byte :: bytes => byte.toNat + 256 * littleEndian bytes

section Reader

variable {σ : Type} (read : RandomReadFunc σ UInt8)

/-- `passgen_random_u64`. -/
def randomU64 (r : Random σ UInt8) : Option (ℕ × Random σ UInt8) :=
  (randomRead read r 8).map fun (data, r) => (littleEndian data, r)

/-- `passgen_random_u64_max`; `none` when no raw word is accepted within `tries`. -/
def randomU64Max : ℕ → Random σ UInt8 → ℕ → Option (ℕ × Random σ UInt8)
  | 0, _, _ => none
  | tries + 1, r, max =>
    (randomU64 read r).bind fun (word, r) =>
      let num := word &&& u64Mask max
      if num ≥ max then randomU64Max tries r max else some (num, r)

/-- `passgen_random_bool`. -/
def randomBool (r : Random σ UInt8) : Bool × Random σ UInt8 :=
  match randomRead read r 1 with
  | some (byte :: _, r) => (byte &&& 128 = 0, r)
  | some ([], r) => (true, r)
  | none => (true, r)

/-- **A draw is below its bound.** -/
theorem randomU64Max_lt {tries : ℕ} {r r' : Random σ UInt8} {max v : ℕ}
    (h : randomU64Max read tries r max = some (v, r')) : v < max := by
  induction tries generalizing r with
  | zero => exact absurd h (by simp [randomU64Max])
  | succ tries ih =>
    obtain ⟨⟨word, mid⟩, -, h⟩ := Option.bind_eq_some_iff.mp h
    simp only at h
    split at h
    · exact ih h
    · rename_i hlt
      obtain ⟨rfl, -⟩ : _ = v ∧ _ := by simpa using h
      exact not_le.mp hlt

/-- A `passgen_random`, with the tries its rejection loops take before they exit. -/
def randomSource (tries : ℕ) : Source (Random σ UInt8) where
  u64Max := randomU64Max read tries
  bool := randomBool read
  u64Max_lt := randomU64Max_lt read

end Reader

/-! ## Playing back draws -/

/-- The next draw of a list, where it is below the bound; past the end of the list every draw is
zero. -/
def nextDraw (draws : List ℕ) (max : ℕ) : Option (ℕ × List ℕ) :=
  if draws.headD 0 < max then some (draws.headD 0, draws.tail) else none

/-- A list of draws played back. -/
def drawSource : Source (List ℕ) where
  u64Max := nextDraw
  bool draws := (draws.headD 0 ≠ 0, draws.tail)
  u64Max_lt {draws max v draws'} h := by
    rw [nextDraw] at h
    split at h
    · rename_i hlt
      exact (Prod.mk.inj (Option.some.inj h)).1 ▸ hlt
    · exact absurd h (by simp)

/-- The source that always draws zero. -/
def zeroSource : Source Unit where
  u64Max _ max := if 0 < max then some (0, ()) else none
  bool _ := (false, ())
  u64Max_lt := by
    intro r max v r' h
    split at h
    · obtain ⟨rfl, -⟩ := Prod.mk.inj (Option.some.inj h)
      assumption
    · exact absurd h (by simp)

theorem zeroSource_exits : zeroSource.Exits := by
  intro r max hmax
  have hdraw : zeroSource.u64Max r max = some (0, ()) := if_pos hmax
  rw [hdraw, Option.isSome_some]

end Passgen
