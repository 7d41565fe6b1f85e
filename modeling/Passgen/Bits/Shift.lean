import Mathlib.Data.Nat.Init
import Mathlib.Dynamics.PeriodicPts.Lemmas
import Mathlib.Tactic.Common

/-!
# Bits/Shift — words xored with a shift of themselves

    x           ▣▣▣▣▣▣▣▣▣▣▣▣
    x <<< k     ▣▣▣▣▣▣▣▣0000     the last k bits of x ^^^ x <<< k are those of x

A word is read off `x ^^^ x <<< k` from its low end, and off `x ^^^ x >>> k` from its high end, `k`
bits at a time.  So both maps are injective for `0 < k`, at any width; and an injective map of a
finite type goes round in one cycle from wherever it starts.
-/

namespace Bits

variable {w k : ℕ}

/-- **A left shift is undone** from the low end. -/
theorem injective_xor_shiftLeft (hk : 0 < k) :
    Function.Injective fun x : BitVec w => x ^^^ x <<< k := by
  intro x y hxy
  refine BitVec.eq_of_getLsbD_eq fun i hi => ?_
  induction i using Nat.strong_induction_on with
  | _ i ih =>
    have hbit := congrArg (BitVec.getLsbD · i) hxy
    simp only [BitVec.getLsbD_xor, BitVec.getLsbD_shiftLeft, hi, decide_true, Bool.true_and] at hbit
    by_cases hlow : i < k
    · simpa only [hlow, decide_true, Bool.not_true, Bool.false_and, Bool.xor_false] using hbit
    · rw [ih (i - k) (by omega) (by omega)] at hbit
      exact Bool.xor_right_inj.mp (by rwa [Bool.xor_comm, Bool.xor_comm (y.getLsbD i)] at hbit)

/-- **A right shift is undone** from the high end. -/
theorem injective_xor_ushiftRight (hk : 0 < k) :
    Function.Injective fun x : BitVec w => x ^^^ x >>> k := by
  intro x y hxy
  suffices h : ∀ d i, w ≤ i + d → x.getLsbD i = y.getLsbD i from
    BitVec.eq_of_getLsbD_eq fun i _ => h w i (Nat.le_add_left w i)
  intro d
  induction d with
  | zero => exact fun i hi => (BitVec.getLsbD_of_ge x i hi).trans (BitVec.getLsbD_of_ge y i hi).symm
  | succ d ih =>
    intro i hi
    have hbit := congrArg (BitVec.getLsbD · i) hxy
    simp only [BitVec.getLsbD_xor, BitVec.getLsbD_ushiftRight] at hbit
    rw [ih (k + i) (by omega)] at hbit
    exact Bool.xor_right_inj.mp (by rwa [Bool.xor_comm, Bool.xor_comm (y.getLsbD i)] at hbit)

/-- **Every state of an injective map is on a cycle with the start.** -/
theorem mem_periodicOrbit_iterate {α : Type} [Finite α] {f : α → α} (hf : Function.Injective f)
    (x : α) (n : ℕ) : x ∈ Function.periodicOrbit f (f^[n] x) := by
  have hx := hf.mem_periodicPts x
  rw [Function.periodicOrbit_apply_iterate_eq hx]
  exact Function.self_mem_periodicOrbit hx

end Bits
