import Mathlib.Data.Int.GCD
import Mathlib.Data.Nat.Bitwise
import Mathlib.Data.Nat.Prime.Basic
import Mathlib.Dynamics.PeriodicPts.Lemmas
import Mathlib.Tactic.Common

/-!
# Bits/Powers — powers of an additive map of words

    n ─ powX ▸ X ^ n modulo X ^ k + p ─ polyAt ▸ f^[n] x          as soon as f^[k] x = p(f) x

A map of words that respects xor can be put into polynomials over the field with two elements,
which are the bits of a number.  Where `X ^ k + p` vanishes at the map and a word, powers of the map
are computed on that word modulo it, by squaring: that is how far an orbit can be looked into.
`minimalPeriod_eq_of_prime` reads the period off a few of them, and an orbit that has as many words
as there are words other than zero is all of them (`exists_iterate_eq`).
-/

namespace Bits

variable {w : ℕ}

/-- A map of words that respects xor. -/
structure Additive (f : BitVec w → BitVec w) : Prop where
  map_zero : f 0#w = 0#w
  map_xor : ∀ x y, f (x ^^^ y) = f x ^^^ f y

theorem Additive.comp {f g : BitVec w → BitVec w} (hf : Additive f) (hg : Additive g) :
    Additive (f ∘ g) :=
  ⟨(congrArg f hg.map_zero).trans hf.map_zero,
    fun x y => (congrArg f (hg.map_xor x y)).trans (hf.map_xor _ _)⟩

/-- A word xored with a left shift of itself. -/
theorem additive_xor_shiftLeft (k : ℕ) : Additive fun x : BitVec w => x ^^^ x <<< k := by
  refine ⟨by rw [BitVec.zero_shiftLeft, BitVec.xor_self], fun x y => ?_⟩
  rw [BitVec.shiftLeft_xor_distrib]
  ac_rfl

/-- A word xored with a right shift of itself. -/
theorem additive_xor_ushiftRight (k : ℕ) : Additive fun x : BitVec w => x ^^^ x >>> k := by
  refine ⟨by rw [BitVec.zero_ushiftRight, BitVec.xor_self], fun x y => ?_⟩
  rw [BitVec.ushiftRight_xor_distrib]
  ac_rfl

/-! ## Polynomials -/

/-- The polynomial of the low `k` bits of `r`, at `f`, applied to a word. -/
def polyAt (f : BitVec w → BitVec w) : ℕ → ℕ → BitVec w → BitVec w
  | 0, _, _ => 0#w
  | k + 1, r, x => (if r % 2 = 1 then x else 0#w) ^^^ polyAt f k (r / 2) (f x)

/-- `X * r`, modulo `X ^ k + p`. -/
def mulX (k p r : ℕ) : ℕ := 2 * r % 2 ^ k ^^^ p * (2 * r / 2 ^ k)

/-- The product of `b` and the low `j` bits of `a`, modulo `X ^ k + p`. -/
def mulPoly (k p : ℕ) : ℕ → ℕ → ℕ → ℕ
  | 0, _, _ => 0
  | j + 1, a, b => b * (a % 2) ^^^ mulPoly k p j (a / 2) (mulX k p b)

/-- `X ^ n` for an exponent of `j` bits, modulo `X ^ k + p`. -/
def powX (k p : ℕ) : ℕ → ℕ → ℕ
  | 0, _ => 1
  | j + 1, n =>
    let half := powX k p j (n / 2)
    let square := mulPoly k p k half half
    if n % 2 = 1 then mulX k p square else square

section Sizes

variable {k p : ℕ} (hp : p < 2 ^ k)

/-- Doubling carries at most one bit. -/
theorem two_mul_div_two_pow {r : ℕ} (hr : r < 2 ^ k) :
    2 * r / 2 ^ k = 0 ∨ 2 * r / 2 ^ k = 1 := by
  have hlt : 2 * r / 2 ^ k < 2 := by
    rw [Nat.div_lt_iff_lt_mul (Nat.two_pow_pos k)]
    exact Nat.mul_lt_mul_of_pos_left hr (by decide)
  exact Nat.le_one_iff_eq_zero_or_eq_one.mp (Nat.le_of_lt_succ hlt)

include hp

theorem mulX_lt {r : ℕ} (hr : r < 2 ^ k) : mulX k p r < 2 ^ k := by
  refine Nat.xor_lt_two_pow (Nat.mod_lt _ (Nat.two_pow_pos k)) ?_
  rcases two_mul_div_two_pow hr with hzero | hone
  · rw [hzero, Nat.mul_zero]
    exact Nat.two_pow_pos k
  · rw [hone, Nat.mul_one]
    exact hp

theorem mulPoly_lt (j a : ℕ) {b : ℕ} (hb : b < 2 ^ k) : mulPoly k p j a b < 2 ^ k := by
  induction j generalizing a b with
  | zero => exact Nat.two_pow_pos k
  | succ j ih =>
    refine Nat.xor_lt_two_pow ?_ (ih _ (mulX_lt hp hb))
    rcases Nat.mod_two_eq_zero_or_one a with hzero | hone
    · rw [hzero, Nat.mul_zero]
      exact Nat.two_pow_pos k
    · rw [hone, Nat.mul_one]
      exact hb

theorem powX_lt (hk : 0 < k) (j n : ℕ) : powX k p j n < 2 ^ k := by
  induction j generalizing n with
  | zero => exact Nat.one_lt_two_pow hk.ne'
  | succ j ih =>
    rw [powX]
    split
    · exact mulX_lt hp (mulPoly_lt hp _ _ (ih _))
    · exact mulPoly_lt hp _ _ (ih _)

end Sizes

section PolyAt

variable {f : BitVec w → BitVec w} {k p : ℕ} {x : BitVec w}

theorem polyAt_zero (k : ℕ) (x : BitVec w) : polyAt f k 0 x = 0#w := by
  induction k generalizing x with
  | zero => rfl
  | succ k ih =>
    rw [polyAt, if_neg (by decide), Nat.zero_div, ih, BitVec.xor_zero]

theorem polyAt_one (k : ℕ) (x : BitVec w) : polyAt f (k + 1) 1 x = x := by
  rw [polyAt, if_pos (by decide), Nat.div_eq_of_lt (by decide), polyAt_zero, BitVec.xor_zero]

theorem polyAt_xor (k r s : ℕ) (x : BitVec w) :
    polyAt f k (r ^^^ s) x = polyAt f k r x ^^^ polyAt f k s x := by
  induction k generalizing r s x with
  | zero => rw [polyAt, polyAt, polyAt, BitVec.xor_zero]
  | succ k ih =>
    have hbit : (if (r ^^^ s) % 2 = 1 then x else 0#w)
        = (if r % 2 = 1 then x else 0#w) ^^^ (if s % 2 = 1 then x else 0#w) := by
      simp only [Nat.xor_mod_two_eq_one]
      by_cases hr : r % 2 = 1 <;> by_cases hs : s % 2 = 1 <;> simp [hr, hs]
    rw [polyAt, polyAt, polyAt, Nat.xor_div_two, ih, hbit]
    ac_rfl

/-- The top bit of a polynomial. -/
theorem polyAt_succ_top (k r : ℕ) (x : BitVec w) :
    polyAt f (k + 1) r x = polyAt f k r x ^^^ (if r / 2 ^ k % 2 = 1 then f^[k] x else 0#w) := by
  induction k generalizing r x with
  | zero =>
    rw [polyAt, polyAt, polyAt, BitVec.xor_zero, BitVec.zero_xor, Nat.pow_zero, Nat.div_one]
    rfl
  | succ k ih =>
    rw [polyAt, ih, polyAt, Nat.div_div_eq_div_mul, ← Nat.pow_succ', Function.iterate_succ_apply,
      BitVec.xor_assoc]

/-- Only the low bits count. -/
theorem polyAt_mod (k r : ℕ) (x : BitVec w) : polyAt f k (r % 2 ^ k) x = polyAt f k r x := by
  induction k generalizing r x with
  | zero => rfl
  | succ k ih =>
    have hdiv : r % 2 ^ (k + 1) / 2 = r / 2 % 2 ^ k := by
      rw [Nat.pow_succ', Nat.mod_mul_right_div_self]
    have hmod : r % 2 ^ (k + 1) % 2 = r % 2 :=
      Nat.mod_mod_of_dvd r (Dvd.intro_left (2 ^ k) (Nat.pow_succ ..).symm)
    rw [polyAt, polyAt, hdiv, hmod, ih]

variable (hf : Additive f)

include hf

theorem polyAt_map (k r : ℕ) (x : BitVec w) : polyAt f k r (f x) = f (polyAt f k r x) := by
  induction k generalizing r x with
  | zero => exact hf.map_zero.symm
  | succ k ih =>
    rw [polyAt, polyAt, hf.map_xor, ih]
    split
    · rfl
    · rw [hf.map_zero]

theorem polyAt_iterate (k r n : ℕ) (x : BitVec w) :
    polyAt f k r (f^[n] x) = f^[n] (polyAt f k r x) := by
  induction n generalizing x with
  | zero => rfl
  | succ n ih => rw [Function.iterate_succ_apply, Function.iterate_succ_apply, ih, polyAt_map hf]

variable (hx : f^[k] x = polyAt f k p x)

include hx

/-- **Multiplying by `X` is applying the map**, where `X ^ k + p` vanishes. -/
theorem polyAt_mulX {r : ℕ} (hr : r < 2 ^ k) :
    polyAt f k (mulX k p r) x = f (polyAt f k r x) := by
  have hdouble : polyAt f (k + 1) (2 * r) x = f (polyAt f k r x) := by
    rw [polyAt, if_neg (by omega), BitVec.zero_xor, Nat.mul_div_cancel_left r (by decide),
      polyAt_map hf]
  rw [polyAt_succ_top] at hdouble
  rw [← hdouble, mulX, polyAt_xor, polyAt_mod]
  rcases two_mul_div_two_pow hr with hzero | hone
  · rw [hzero, Nat.mul_zero, polyAt_zero]
    rfl
  · rw [hone, Nat.mul_one, ← hx]
    rfl

/-- **The product of polynomials is the composition.** -/
theorem polyAt_mulPoly (hp : p < 2 ^ k) (j a : ℕ) {b : ℕ} (hb : b < 2 ^ k) :
    polyAt f k (mulPoly k p j a b) x = polyAt f j a (polyAt f k b x) := by
  induction j generalizing a b with
  | zero => exact polyAt_zero k x
  | succ j ih =>
    have hlow : polyAt f k (b * (a % 2)) x = if a % 2 = 1 then polyAt f k b x else 0#w := by
      rcases Nat.mod_two_eq_zero_or_one a with hzero | hone
      · rw [hzero, Nat.mul_zero, polyAt_zero, if_neg (by decide)]
      · rw [hone, Nat.mul_one, if_pos rfl]
    rw [mulPoly, polyAt_xor, ih _ (mulX_lt hp hb), polyAt_mulX hf hx hb, hlow, polyAt]

/-- **Powers are computed by squaring.** -/
theorem polyAt_powX (hp : p < 2 ^ k) (hk : 0 < k) {j n : ℕ} (hn : n < 2 ^ j) :
    polyAt f k (powX k p j n) x = f^[n] x := by
  induction j generalizing n with
  | zero =>
    obtain rfl : n = 0 := by omega
    obtain ⟨k, rfl⟩ := Nat.exists_eq_succ_of_ne_zero hk.ne'
    exact polyAt_one k x
  | succ j ih =>
    have hhalf := ih (n := n / 2) (by omega)
    have hsquare : polyAt f k (mulPoly k p k (powX k p j (n / 2)) (powX k p j (n / 2))) x
        = f^[n / 2 + n / 2] x := by
      rw [polyAt_mulPoly hf hx hp _ _ (powX_lt hp hk _ _), hhalf, polyAt_iterate hf, hhalf,
        Function.iterate_add_apply]
    rw [powX]
    split
    · rw [polyAt_mulX hf hx (mulPoly_lt hp _ _ (powX_lt hp hk _ _)), hsquare,
        ← Function.iterate_succ_apply' f]
      congr 2
      omega
    · rw [hsquare]
      congr 2
      omega

end PolyAt

/-! ## Orbits -/

/-- **A period is minimal** when it is not one any more without any of its prime divisors. -/
theorem minimalPeriod_eq_of_prime {α : Type} {f : α → α} {x : α} {n : ℕ}
    (hperiod : f^[n] x = x) (hprime : ∀ p, p.Prime → p ∣ n → f^[n / p] x ≠ x) :
    Function.minimalPeriod f x = n := by
  have hdvd : Function.minimalPeriod f x ∣ n := Function.IsPeriodicPt.minimalPeriod_dvd hperiod
  obtain ⟨q, hq⟩ := hdvd
  by_contra hne
  have hq1 : q ≠ 1 := by
    rintro rfl
    exact hne (hq.trans (Nat.mul_one _)).symm
  obtain ⟨p, hp, r, rfl⟩ := Nat.exists_prime_and_dvd hq1
  have hquot : n / p = Function.minimalPeriod f x * r := by
    rw [hq, Nat.mul_left_comm, Nat.mul_div_cancel_left _ hp.pos]
  refine hprime p hp ⟨Function.minimalPeriod f x * r, by rw [hq, Nat.mul_left_comm]⟩ ?_
  rw [hquot]
  exact (Function.isPeriodicPt_minimalPeriod f x).mul_const r

/-- **An orbit with as many words as there are words other than zero** is all of them. -/
theorem exists_iterate_eq {f : BitVec w → BitVec w} {x : BitVec w}
    (hne : ∀ n, f^[n] x ≠ 0#w) (hperiod : Function.minimalPeriod f x = 2 ^ w - 1) {y : BitVec w}
    (hy : y ≠ 0#w) : ∃ n < 2 ^ w - 1, f^[n] x = y := by
  let visited := (Finset.range (2 ^ w - 1)).image fun n => (f^[n] x).toNat
  have hcard : visited.card = 2 ^ w - 1 := by
    rw [Finset.card_image_of_injOn, Finset.card_range]
    intro m hm n hn hmn
    rw [Finset.coe_range, ← hperiod] at hm hn
    exact Function.iterate_injOn_Iio_minimalPeriod hm hn (BitVec.eq_of_toNat_eq hmn)
  have hpos : ∀ {z : BitVec w}, z ≠ 0#w → z.toNat ∈ Finset.Ico 1 (2 ^ w) := by
    intro z hz
    refine Finset.mem_Ico.mpr ⟨Nat.one_le_iff_ne_zero.mpr fun hzero => hz ?_, z.isLt⟩
    exact BitVec.eq_of_toNat_eq hzero
  have hsub : visited ⊆ Finset.Ico 1 (2 ^ w) := by
    intro m hm
    obtain ⟨n, -, rfl⟩ := Finset.mem_image.mp hm
    exact hpos (hne n)
  have hall : visited = Finset.Ico 1 (2 ^ w) :=
    Finset.eq_of_subset_of_card_le hsub (by rw [hcard, Nat.card_Ico])
  obtain ⟨n, hn, heq⟩ := Finset.mem_image.mp (hall ▸ hpos hy)
  exact ⟨n, Finset.mem_range.mp hn, BitVec.eq_of_toNat_eq heq⟩

/-- **Steps of a size that is coprime to the period** reach all of the orbit. -/
theorem exists_iterate_mul {α : Type} {f : α → α} {x : α} {k : ℕ}
    (hk : k.Coprime (Function.minimalPeriod f x)) (hpos : 0 < Function.minimalPeriod f x) (n : ℕ) :
    ∃ t < Function.minimalPeriod f x, f^[k * t] x = f^[n] x := by
  obtain ⟨t, ht, hmod⟩ := Nat.exists_mul_mod_eq_of_coprime n hk hpos.ne'
  refine ⟨t, ht, ?_⟩
  rw [← Function.iterate_mod_minimalPeriod_eq, hmod, Function.iterate_mod_minimalPeriod_eq]

end Bits
