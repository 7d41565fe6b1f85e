import Mathlib.Data.List.Prime
import Mathlib.Data.Nat.Prime.Int
import Mathlib.Tactic.NormNum.Prime
import Passgen.Bits.Powers
import Passgen.Random.Xorshift

/-!
# Random/Period — xorshift64 goes through every state

    seed ─▸ ─▸ ─▸ … 2 ^ 64 - 1 steps … ─▸ seed

A step of xorshift respects xor, so its powers are computed as polynomials.  The word `1` comes back
after `2 ^ 64 - 1` steps and not before; that is as many words as there are but zero, so every seed
is on its orbit and has that period.  A run of reads is back at its seed when it has started a
multiple of `2 ^ 64 - 1` words, and only then.
-/

namespace Passgen

/-- A step respects xor. -/
theorem additive_xorshift64 : Bits.Additive xorshift64 :=
  (Bits.additive_xor_shiftLeft 17).comp
    ((Bits.additive_xor_ushiftRight 7).comp (Bits.additive_xor_shiftLeft 13))

/-- The low coefficients of the polynomial of `xorshift64` at `1`: its first coefficient is that of
`X ^ 64`. -/
def xorshiftPoly : ℕ := 0x13ed4a358913201

theorem xorshiftPoly_spec :
    xorshift64^[64] 1#64 = Bits.polyAt xorshift64 64 xorshiftPoly 1#64 := by
  decide +kernel

/-- `n` steps from `1`, by squaring. -/
theorem iterate_xorshift64_one {n : ℕ} (hn : n < 2 ^ 64) :
    xorshift64^[n] 1#64 = Bits.polyAt xorshift64 64 (Bits.powX 64 xorshiftPoly 64 n) 1#64 :=
  (Bits.polyAt_powX additive_xorshift64 xorshiftPoly_spec (by decide) (by decide) hn).symm

/-- The prime divisors of `2 ^ 64 - 1`. -/
def periodPrimes : List ℕ := [3, 5, 17, 257, 641, 65537, 6700417]

theorem mem_periodPrimes {p : ℕ} (hp : p.Prime) (hdvd : p ∣ 2 ^ 64 - 1) : p ∈ periodPrimes := by
  have hprime : ∀ q ∈ periodPrimes, q.Prime := by
    simp only [periodPrimes, List.forall_mem_cons, List.not_mem_nil, false_imp_iff, implies_true]
    norm_num
  have hprod : (2 : ℕ) ^ 64 - 1 = periodPrimes.prod := by decide
  rw [hprod] at hdvd
  obtain ⟨q, hq, hpq⟩ := (Prime.dvd_prod_iff hp.prime).mp hdvd
  rwa [(Nat.prime_dvd_prime_iff_eq hp (hprime q hq)).mp hpq]

/-- The powers that tell the period of `1`. -/
theorem powX_periodPrimes :
    Bits.powX 64 xorshiftPoly 64 (2 ^ 64 - 1) = 1 ∧
      ∀ p ∈ periodPrimes, Bits.polyAt xorshift64 64
        (Bits.powX 64 xorshiftPoly 64 ((2 ^ 64 - 1) / p)) 1#64 ≠ 1#64 := by
  decide +kernel

theorem minimalPeriod_xorshift64_one :
    Function.minimalPeriod xorshift64 1#64 = 2 ^ 64 - 1 := by
  refine Bits.minimalPeriod_eq_of_prime ?_ fun p hp hdvd => ?_
  · rw [iterate_xorshift64_one (by decide), powX_periodPrimes.1]
    exact Bits.polyAt_one 63 1#64
  · rw [iterate_xorshift64_one (lt_of_le_of_lt (Nat.div_le_self _ p) (by decide))]
    exact powX_periodPrimes.2 p (mem_periodPrimes hp hdvd)

/-- Every seed but zero has that period. -/
theorem minimalPeriod_xorshift64 {seed : BitVec 64} (hseed : seed ≠ 0) :
    Function.minimalPeriod xorshift64 seed = 2 ^ 64 - 1 := by
  obtain ⟨n, -, rfl⟩ := Bits.exists_iterate_eq (iterate_xorshift64_ne_zero (by decide))
    minimalPeriod_xorshift64_one hseed
  have hperiodic : (1#64) ∈ Function.periodicPts xorshift64 :=
    xorshift64_injective.mem_periodicPts 1#64
  rw [Function.minimalPeriod_apply_iterate hperiodic, minimalPeriod_xorshift64_one]

/-- **Xorshift goes through every state.**  From a seed that is not zero, each state but zero is
reached by exactly one number of steps below `2 ^ 64 - 1`; and reads leave the seed as the state
exactly when they have started a multiple of `2 ^ 64 - 1` words. -/
theorem xorshift_full_period (seed : BitVec 64) (hseed : seed ≠ 0) :
    (∀ state ≠ 0, ∃! n, n < 2 ^ 64 - 1 ∧ xorshift64^[n] seed = state) ∧
      ∀ sizes, (xorshiftReads seed sizes).2 = seed ↔
        2 ^ 64 - 1 ∣ (sizes.map readSteps).sum := by
  have hperiod := minimalPeriod_xorshift64 hseed
  refine ⟨fun state hstate => ?_, fun sizes => ?_⟩
  · obtain ⟨n, hn, hreached⟩ :=
      Bits.exists_iterate_eq (iterate_xorshift64_ne_zero hseed) hperiod hstate
    refine ⟨n, ⟨hn, hreached⟩, fun m ⟨hm, hreached'⟩ => ?_⟩
    rw [← hperiod] at hm hn
    exact Function.iterate_injOn_Iio_minimalPeriod hm hn (hreached'.trans hreached.symm)
  · rw [xorshiftReads_state, ← hperiod, ← Function.isPeriodicPt_iff_minimalPeriod_dvd]
    exact Iff.rfl

/-- The buffer of a freshly opened source leaves its seed, and does not come back to it. -/
theorem xorshift_full_period_seed :
    (∀ state ≠ 0, ∃! n, n < 2 ^ 64 - 1 ∧ xorshift64^[n] 123 = state) ∧
      ∀ sizes, (xorshiftReads 123 sizes).2 = 123 ↔ 2 ^ 64 - 1 ∣ (sizes.map readSteps).sum :=
  xorshift_full_period 123 (by decide)

end Passgen
