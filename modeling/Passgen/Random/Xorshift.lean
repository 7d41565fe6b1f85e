import Mathlib.Algebra.BigOperators.Group.List.Basic
import Mathlib.Data.List.Basic
import Mathlib.Tactic.Common
import Passgen.Bits.Shift
import Passgen.Random.Buffer

/-!
# Random/Xorshift — the xorshift source

    seed ─ xorshift64 ▸ state ─ xorshift64 ▸ state ─ …        eight bytes each

A step xors the state with three shifts of itself, and each of them can be undone.  So different
states never meet, zero is reached from zero only, and the states of a seed go round in one cycle
(`xorshift_never_dies`).
-/

namespace Passgen

/-- `xorshift64`. -/
def xorshift64 (state : BitVec 64) : BitVec 64 :=
  let x := state
  let x := x ^^^ x <<< 13
  let x := x ^^^ x >>> 7
  x ^^^ x <<< 17

/-- The bytes of a word, the low one first. -/
def wordBytes (word : BitVec 64) : List UInt8 :=
  (List.range 8).map fun i => .ofNat (word.toNat >>> (8 * i))

/-- `passgen_random_xorshift_read`; `size` is what is left to write, and the context the state. -/
def xorshiftRead (context : BitVec 64) (size : ℕ) : List UInt8 × BitVec 64 :=
  if 8 ≤ size then
    let result := xorshift64 context
    let (rest, context) := xorshiftRead result (size - 8)
    (wordBytes result ++ rest, context)
  else if size ≠ 0 then
    let result := xorshift64 context
    ((wordBytes result).take size, result)
  else ([], context)

/-- Reads of these sizes, one after the other. -/
def xorshiftReads : BitVec 64 → List ℕ → List UInt8 × BitVec 64
  | context, [] => ([], context)
  | context, size :: sizes =>
    let (data, context) := xorshiftRead context size
    let (rest, context) := xorshiftReads context sizes
    (data ++ rest, context)

/-- The steps a read takes: one for each word it starts. -/
def readSteps (size : ℕ) : ℕ := (size + 7) / 8

/-! ## Steps -/

theorem xorshift64_injective : Function.Injective xorshift64 := by
  have hleft : Function.Injective fun x : BitVec 64 => x ^^^ x <<< 13 :=
    Bits.injective_xor_shiftLeft (by decide)
  have hright : Function.Injective fun x : BitVec 64 => x ^^^ x >>> 7 :=
    Bits.injective_xor_ushiftRight (by decide)
  have hleft' : Function.Injective fun x : BitVec 64 => x ^^^ x <<< 17 :=
    Bits.injective_xor_shiftLeft (by decide)
  exact hleft'.comp (hright.comp hleft)

theorem xorshift64_zero : xorshift64 0 = 0 := rfl

theorem xorshift64_eq_zero_iff {x : BitVec 64} : xorshift64 x = 0 ↔ x = 0 :=
  xorshift64_injective.eq_iff' xorshift64_zero

/-- **A state that is not zero** never leads to zero. -/
theorem iterate_xorshift64_ne_zero {seed : BitVec 64} (hseed : seed ≠ 0) (n : ℕ) :
    xorshift64^[n] seed ≠ 0 := by
  induction n with
  | zero => exact hseed
  | succ n ih =>
    rw [Function.iterate_succ_apply', ne_eq, xorshift64_eq_zero_iff]
    exact ih

/-! ## Reads -/

/-- **A read** steps once for each word it starts, and writes as many bytes as it is asked for. -/
theorem xorshiftRead_spec (context : BitVec 64) (size : ℕ) :
    (xorshiftRead context size).1.length = size ∧
      (xorshiftRead context size).2 = xorshift64^[readSteps size] context := by
  induction context, size using xorshiftRead.induct with
  | case1 context size hle result rest context' hread ih =>
    have hsteps : readSteps size = readSteps (size - 8) + 1 := by
      rw [readSteps, readSteps]
      omega
    rw [xorshiftRead, if_pos hle, hsteps, Function.iterate_succ_apply]
    refine ⟨?_, ih.2⟩
    rw [List.length_append, ih.1, wordBytes, List.length_map, List.length_range]
    omega
  | case2 context size hlt hne =>
    have hsteps : readSteps size = 1 := by
      rw [readSteps]
      omega
    rw [xorshiftRead, if_neg hlt, if_pos hne, hsteps]
    refine ⟨?_, rfl⟩
    rw [List.length_take, wordBytes, List.length_map, List.length_range]
    omega
  | case3 context size hlt hzero =>
    obtain rfl : size = 0 := not_not.mp hzero
    rw [xorshiftRead, if_neg hlt, if_neg hzero]
    exact ⟨rfl, rfl⟩

/-- **Reads** step as often as they do one by one. -/
theorem xorshiftReads_state (context : BitVec 64) (sizes : List ℕ) :
    (xorshiftReads context sizes).2 = xorshift64^[(sizes.map readSteps).sum] context := by
  induction sizes generalizing context with
  | nil => rfl
  | cons size sizes ih =>
    rw [xorshiftReads, List.map_cons, List.sum_cons, Nat.add_comm, Function.iterate_add_apply]
    exact (ih _).trans (congrArg _ (xorshiftRead_spec context size).2)

instance finiteBitVec64 : Finite (BitVec 64) :=
  Finite.of_injective BitVec.toFin fun _ _ => BitVec.toFin_inj.mp

/-- **Xorshift never dies.**  The step is injective and maps only zero to zero; from a seed that is
not zero, no step and no read leads to zero, and every state is on a cycle with the seed. -/
theorem xorshift_never_dies :
    Function.Injective xorshift64 ∧ (∀ x, xorshift64 x = 0 ↔ x = 0) ∧
      ∀ seed ≠ 0,
        (∀ sizes, (xorshiftReads seed sizes).2 = xorshift64^[(sizes.map readSteps).sum] seed ∧
          (xorshiftReads seed sizes).2 ≠ 0) ∧
        ∀ n, xorshift64^[n] seed ≠ 0 ∧
          seed ∈ Function.periodicOrbit xorshift64 (xorshift64^[n] seed) := by
  refine ⟨xorshift64_injective, fun x => xorshift64_eq_zero_iff, fun seed hseed => ⟨?_, ?_⟩⟩
  · intro sizes
    have hstate := xorshiftReads_state seed sizes
    exact ⟨hstate, hstate ▸ iterate_xorshift64_ne_zero hseed _⟩
  · exact fun n => ⟨iterate_xorshift64_ne_zero hseed n,
      Bits.mem_periodicOrbit_iterate xorshift64_injective seed n⟩

/-- A buffer, a word and two bytes from the seed of the examples. -/
theorem xorshift_never_dies_seed :
    (xorshiftReads 123 [1024, 8, 2]).2 ≠ 0 ∧
      123 ∈ Function.periodicOrbit xorshift64 (xorshift64^[130] 123) :=
  have h := xorshift_never_dies.2.2 123 (by decide)
  ⟨(h.1 [1024, 8, 2]).2, (h.2 130).2⟩

end Passgen
