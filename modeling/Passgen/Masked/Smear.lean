import Mathlib.Algebra.BigOperators.Group.Finset.Basic
import Mathlib.Algebra.Order.BigOperators.Group.Finset
import Mathlib.Data.Finset.Card
import Mathlib.Data.Fintype.BigOperators
import Mathlib.Data.Fintype.Pi
import Mathlib.Data.Int.CardIntervalMod
import Mathlib.Algebra.BigOperators.Option
import Mathlib.Algebra.BigOperators.Fin
import Mathlib.Data.Nat.Bitwise
import Mathlib.Data.Nat.Count
import Mathlib.Data.Nat.Size
import Mathlib.Order.Interval.Finset.Fin
import Mathlib.Tactic.Ring

/-!
# Masked/Smear — the bits of a number, smeared downwards

    x                 0001 0010
    x ||| x >>> 4     0001 0011
      … >>> 2         0001 0111
      … >>> 1         0001 1111

Halving shifts double the copies of every bit, until each bit has one at every place below it and
what is left is a mask of the number's own width.  Masking spreads the raw words evenly.
-/

namespace Masked

/-- `m` holds `n` copies of each bit of `x`, at distances `0, s, … (n - 1) * s` below it. -/
def Smeared (s n x m : ℕ) : Prop :=
  ∀ i, m.testBit i ↔ ∃ j < n, x.testBit (i + s * j)

theorem Smeared.refl (s x : ℕ) : Smeared s 1 x x := by
  intro i
  simp

/-- **Half the shift, twice the copies.** -/
theorem Smeared.halve {s n x m : ℕ} (h : Smeared (2 * s) n x m) :
    Smeared s (2 * n) x (m ||| m >>> s) := by
  intro i
  rw [Nat.testBit_or, Nat.testBit_shiftRight, Bool.or_eq_true, h i, h (s + i)]
  constructor
  · rintro (⟨j, hj, hbit⟩ | ⟨j, hj, hbit⟩)
    · exact ⟨2 * j, by omega, by rwa [show i + s * (2 * j) = i + 2 * s * j by ring]⟩
    · exact ⟨2 * j + 1, by omega, by
        rwa [show i + s * (2 * j + 1) = s + i + 2 * s * j by ring]⟩
  · rintro ⟨j, hj, hbit⟩
    obtain ⟨d, rfl | rfl⟩ := Nat.even_or_odd' j
    · exact Or.inl ⟨d, by omega, by rwa [show i + 2 * s * d = i + s * (2 * d) by ring]⟩
    · exact Or.inr ⟨d, by omega, by
        rwa [show s + i + 2 * s * d = i + s * (2 * d + 1) by ring]⟩

/-- The highest bit of a positive number. -/
theorem testBit_size_sub_one {x : ℕ} (h : 0 < x) : x.testBit (x.size - 1) := by
  have hsize : 0 < x.size := Nat.size_pos.mpr h
  obtain ⟨i, hi, hbit⟩ : ∃ i ≥ x.size - 1, x.testBit i :=
    Nat.exists_ge_and_testBit_of_ge_two_pow (Nat.lt_size.mp (by omega))
  have hlt : i < x.size := Nat.lt_size.mpr (Nat.ge_two_pow_of_testBit hbit)
  rwa [show x.size - 1 = i by omega]

/-- **A copy at every place below each bit is a mask of the number's own width.** -/
theorem Smeared.eq_two_pow_sub_one {n x m : ℕ} (h : Smeared 1 n x m) (hx : x < 2 ^ n) :
    m = 2 ^ x.size - 1 := by
  refine Nat.eq_of_testBit_eq fun i => ?_
  rw [Nat.testBit_two_pow_sub_one, Bool.eq_iff_iff, decide_eq_true_eq, h i]
  constructor
  · rintro ⟨j, -, hbit⟩
    have := Nat.lt_size.mpr (Nat.ge_two_pow_of_testBit hbit)
    omega
  · intro hi
    have hpos : 0 < x := Nat.size_pos.mp (by omega)
    have hsize : x.size ≤ n := Nat.size_le.mpr hx
    exact ⟨x.size - 1 - i, by omega, by
      rw [one_mul, show i + (x.size - 1 - i) = x.size - 1 by omega]
      exact testBit_size_sub_one hpos⟩

/-- **The least mask that reaches `x`.** -/
theorem isLeast_mask (x : ℕ) :
    IsLeast {m | (∃ j, m = 2 ^ j - 1) ∧ x ≤ m} (2 ^ x.size - 1) := by
  refine ⟨⟨⟨x.size, rfl⟩, Nat.le_sub_one_of_lt (Nat.lt_size_self x)⟩, ?_⟩
  rintro m ⟨⟨j, rfl⟩, hle⟩
  have hj : x.size ≤ j := by
    have := Nat.two_pow_pos j
    exact Nat.size_le.mpr (by omega)
  have := Nat.pow_le_pow_right Nat.two_pos hj
  omega

/-! ## Raw words under a mask -/

open Finset

/-- Counting in `Fin n` is counting below `n`. -/
theorem card_filter_fin {n : ℕ} (p : ℕ → Prop) [DecidablePred p] :
    #{x : Fin n | p x} = #{x ∈ range n | p x} := by
  rw [← Nat.Iio_eq_range, ← Fin.map_valEmbedding_univ, filter_map, card_map]
  rfl

/-- **Every masked value has the same number of raw words.** -/
theorem card_masked_eq {w k v : ℕ} (hk : k ≤ w) (hv : v < 2 ^ k) :
    #{x ∈ range (2 ^ w) | x &&& (2 ^ k - 1) = v} = 2 ^ (w - k) := by
  have hmod : ∀ x, x &&& (2 ^ k - 1) = v ↔ x ≡ v [MOD 2 ^ k] := fun x => by
    rw [Nat.and_two_pow_sub_one_eq_mod, Nat.ModEq, Nat.mod_eq_of_lt hv]
  have hsplit : 2 ^ w = 2 ^ k * 2 ^ (w - k) := by rw [← pow_add, Nat.add_sub_cancel' hk]
  simp only [hmod]
  rw [← Nat.count_eq_card_filter_range, Nat.count_modEq_card _ (Nat.two_pow_pos k), hsplit,
    Nat.mul_div_cancel_left _ (Nat.two_pow_pos k), Nat.mul_mod_right]
  simp

/-- The raw words whose masked value is below a bound. -/
theorem card_masked_lt {w k b : ℕ} (hk : k ≤ w) (hb : b ≤ 2 ^ k) :
    #{x ∈ range (2 ^ w) | x &&& (2 ^ k - 1) < b} = b * 2 ^ (w - k) := by
  rw [card_eq_sum_card_fiberwise (f := fun x => x &&& (2 ^ k - 1)) (t := range b)
    (fun x hx => by simpa using (mem_filter.mp hx).2)]
  calc ∑ v ∈ range b, _ = ∑ v ∈ range b, 2 ^ (w - k) := by
        refine sum_congr rfl fun v hv => ?_
        rw [filter_filter, ← card_masked_eq hk (lt_of_lt_of_le (mem_range.mp hv) hb)]
        congr 1
        refine filter_congr fun x _ => ?_
        have := mem_range.mp hv
        constructor
        · exact fun h => h.2
        · exact fun h => ⟨h ▸ this, h⟩
    _ = b * 2 ^ (w - k) := by rw [sum_const, card_range, smul_eq_mul]

/-- At least half of all raw words are below their bound. -/
theorem two_pow_le_two_mul_card {w b : ℕ} (hpos : 0 < b) (hb : b < 2 ^ w) :
    2 ^ w ≤ 2 * #{x ∈ range (2 ^ w) | x &&& (2 ^ b.size - 1) < b} := by
  have hk : b.size ≤ w := Nat.size_le.mpr hb
  have hsize : 0 < b.size := Nat.size_pos.mpr hpos
  have hhalf : 2 ^ (b.size - 1) ≤ b := Nat.lt_size.mp (by omega)
  rw [card_masked_lt hk (Nat.lt_size_self b).le]
  calc 2 ^ w = 2 * (2 ^ (b.size - 1) * 2 ^ (w - b.size)) := by
        rw [← pow_add, ← pow_succ']
        congr 1
        omega
    _ ≤ 2 * (b * 2 ^ (w - b.size)) := by gcongr

/-! ## The first accepted word of a sequence -/

variable {α β : Type} [Fintype α] [DecidableEq β]

/-- The sequences of length `t` whose first accepted word gives `v`. -/
def firstCount (accept : α → Option β) (t : ℕ) (v : β) : ℕ :=
  #{ws : Fin t → α | (List.ofFn ws).findSome? accept = some v}

theorem firstCount_zero (accept : α → Option β) (v : β) : firstCount accept 0 v = 0 := by
  simp [firstCount]

/-- Either the first word gives `v`, or it is rejected and a later one does. -/
theorem firstCount_succ (accept : α → Option β) (t : ℕ) (v : β) :
    firstCount accept (t + 1) v =
      #{x | accept x = some v} * Fintype.card α ^ t +
        #{x | accept x = none} * firstCount accept t v := by
  have hinner : ∀ x, #{ws : Fin t → α | (x :: List.ofFn ws).findSome? accept = some v} =
      (if accept x = some v then Fintype.card α ^ t else 0) +
        if accept x = none then firstCount accept t v else 0 := fun x => by
    cases hx : accept x with
    | none => simp [hx, firstCount]
    | some u =>
      rcases eq_or_ne u v with rfl | hne
      · simp [hx]
      · simp [hx, hne]
  calc firstCount accept (t + 1) v
      = ∑ x, #{ws : Fin t → α | (x :: List.ofFn ws).findSome? accept = some v} := by
        rw [firstCount, card_filter, ← (Fin.consEquiv fun _ => α).sum_comp, Fintype.sum_prod_type]
        simp only [card_filter, List.ofFn_succ, Fin.consEquiv, Equiv.coe_fn_mk, Fin.cons_zero,
          Fin.cons_succ]
    _ = _ := by
        rw [sum_congr rfl fun x _ => hinner x, sum_add_distrib, ← sum_filter, ← sum_filter,
          sum_const, sum_const, smul_eq_mul, smul_eq_mul]

/-- The words are the rejected ones and the shares of the values. -/
theorem card_mul_share_add {accept : α → Option β} {values : Finset β} {share : ℕ}
    (hmem : ∀ x v, accept x = some v → v ∈ values)
    (hshare : ∀ v ∈ values, #{x | accept x = some v} = share) :
    values.card * share + #{x | accept x = none} = Fintype.card α := by
  have hvalues : ∀ x ∈ univ, accept x ∈ insertNone values := fun x _ => by
    cases hx : accept x with
    | none => exact none_mem_insertNone
    | some v => exact some_mem_insertNone.mpr (hmem x v hx)
  rw [← card_univ, card_eq_sum_card_fiberwise hvalues, sum_insertNone, sum_congr rfl hshare,
    sum_const, smul_eq_mul, add_comm]

/-- **Equal shares of the words are equal shares of the sequences**: what is left over are the
sequences whose words are all rejected. -/
theorem mul_firstCount_add {accept : α → Option β} {values : Finset β} {share : ℕ}
    (hmem : ∀ x v, accept x = some v → v ∈ values)
    (hshare : ∀ v ∈ values, #{x | accept x = some v} = share) (t : ℕ) {v : β} (hv : v ∈ values) :
    values.card * firstCount accept t v + #{x | accept x = none} ^ t = Fintype.card α ^ t := by
  induction t with
  | zero => simp [firstCount_zero]
  | succ t ih =>
    rw [firstCount_succ, hshare v hv]
    calc _ = values.card * share * Fintype.card α ^ t + #{x | accept x = none} *
          (values.card * firstCount accept t v + #{x | accept x = none} ^ t) := by ring
      _ = _ := by
        rw [ih, ← add_mul, card_mul_share_add hmem hshare, pow_succ']

end Masked
