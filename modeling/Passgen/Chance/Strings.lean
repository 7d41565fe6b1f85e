import Mathlib.Computability.Language
import Mathlib.Data.List.Basic
import Mathlib.Data.List.GetD
import Mathlib.Tactic.Common
import Passgen.Chance.Tree

/-!
# Chance/Strings — random strings

Laws of strings are concatenated, independently of each other, and chosen from a list, each member
as likely as any other.  The strings a law can give are the language of the same operations.
-/

namespace Chance

open PMF
open scoped ENNReal

variable {α : Type*}

/-- A string, and independently another one after it. -/
noncomputable def concat (μ ν : PMF (List α)) : PMF (List α) := μ.bind fun v => ν.map (v ++ ·)

/-- Strings one after the other. -/
noncomputable def concatAll : List (PMF (List α)) → PMF (List α)
  | [] => PMF.pure []
  | μ :: μs => concat μ (concatAll μs)

/-- `n` strings of one law. -/
noncomputable def power (n : ℕ) (μ : PMF (List α)) : PMF (List α) := concatAll (List.replicate n μ)

/-- One of the laws, each as likely as any other; the empty string where there is none. -/
noncomputable def oneOf (μs : List (PMF (List α))) : PMF (List α) :=
  if h : 0 < μs.length then (below μs.length h).bind fun i => μs.getD i (PMF.pure []) else PMF.pure []

/-! ## Probabilities -/

theorem concat_apply_ge (μ ν : PMF (List α)) (v w : List α) : μ v * ν w ≤ concat μ ν (v ++ w) := by
  rw [concat, bind_apply]
  refine le_trans ?_ (ENNReal.le_tsum v)
  refine mul_le_mul_right ?_ _
  rw [map_apply]
  refine le_trans ?_ (ENNReal.le_tsum w)
  rw [if_pos rfl]

theorem sum_range_getD {M : Type*} [AddCommMonoid M] (l : List M) :
    ∑ i ∈ Finset.range l.length, l.getD i 0 = l.sum := by
  induction l with
  | nil => rfl
  | cons a l ih =>
    rw [List.length_cons, Finset.sum_range_succ', List.sum_cons, ← ih, add_comm]
    rfl

/-- The probability of a choice is the average of the probabilities. -/
theorem oneOf_apply {μs : List (PMF (List α))} (h : μs ≠ []) (w : List α) :
    oneOf μs w = (μs.map fun μ => μ w).sum / μs.length := by
  have hlen : 0 < μs.length := List.length_pos_iff.mpr h
  rw [oneOf, dif_pos hlen, bind_apply, tsum_eq_sum (s := Finset.range μs.length)]
  · have hterm : ∀ i ∈ Finset.range μs.length,
        below μs.length hlen i * (μs.getD i (PMF.pure [])) w
          = (μs.map fun μ => μ w).getD i 0 * (μs.length : ℝ≥0∞)⁻¹ := by
      intro i hi
      have hi := Finset.mem_range.mp hi
      rw [below_apply, if_pos hi, mul_comm, List.getD_eq_getElem _ _ hi,
        List.getD_eq_getElem _ _ (by simpa using hi), List.getElem_map]
    rw [Finset.sum_congr rfl hterm, ← Finset.sum_mul, div_eq_mul_inv]
    congr 1
    rw [← sum_range_getD, List.length_map]
  · intro i hi
    rw [below_apply, if_neg (by simpa using hi), zero_mul]

/-- A member of the list adds its share, as often as it is in it. -/
theorem oneOf_apply_ge {μs : List (PMF (List α))} {μ : PMF (List α)} {n : ℕ} (hn : 0 < n)
    (h : (List.replicate n μ).Sublist μs) (w : List α) : n * μ w / μs.length ≤ oneOf μs w := by
  have hne : μs ≠ [] := by
    rintro rfl
    have := h.length_le
    rw [List.length_replicate] at this
    exact absurd this (not_le.mpr hn)
  rw [oneOf_apply hne]
  refine ENNReal.div_le_div_right ?_ _
  have hsum := (h.map fun μ => μ w).sum_le_sum fun _ _ => zero_le
  rwa [List.map_replicate, List.sum_replicate, nsmul_eq_mul] at hsum

theorem oneOf_singleton (μ : PMF (List α)) : oneOf [μ] = μ := by
  ext w
  rw [oneOf_apply (List.cons_ne_nil μ [])]
  simp

/-- A choice is a draw of the place in the list. -/
theorem oneOf_eq {μs : List (PMF (List α))} {n : ℕ} (hlen : μs.length = n) (pos : 0 < n) :
    oneOf μs = (below n pos).bind fun i => μs.getD i (PMF.pure []) := by
  subst hlen
  exact dif_pos pos

theorem oneOf_pair (μ ν : PMF (List α)) :
    oneOf [μ, ν] = (below 2 Nat.two_pos).bind fun i => [μ, ν].getD i (PMF.pure []) :=
  oneOf_eq (n := 2) rfl Nat.two_pos

theorem concat_nil (μ : PMF (List α)) : concat μ (PMF.pure []) = μ := by
  simp only [concat, pure_map, List.append_nil]
  exact PMF.bind_pure μ

/-! ## The strings of a law -/

/-- The strings that have a positive probability. -/
def words (μ : PMF (List α)) : Language α := {w | w ∈ μ.support}

theorem mem_words {μ : PMF (List α)} {w : List α} : w ∈ words μ ↔ w ∈ μ.support := Iff.rfl

theorem words_pure (w : List α) : words (PMF.pure w) = {w} := by
  ext v
  exact mem_support_pure_iff w v

theorem words_concat (μ ν : PMF (List α)) : words (concat μ ν) = words μ * words ν := by
  ext w
  rw [Language.mem_mul, mem_words, concat, mem_support_bind_iff]
  simp only [support_map, Set.mem_image]
  rfl

theorem words_concatAll (μs : List (PMF (List α))) :
    words (concatAll μs) = (μs.map words).prod := by
  induction μs with
  | nil => exact words_pure []
  | cons μ μs ih => rw [concatAll, words_concat, ih, List.map_cons, List.prod_cons]

theorem words_power (n : ℕ) (μ : PMF (List α)) : words (power n μ) = words μ ^ n := by
  rw [power, words_concatAll, List.map_replicate, List.prod_replicate]

theorem mem_words_oneOf {μs : List (PMF (List α))} (h : μs ≠ []) {w : List α} :
    w ∈ words (oneOf μs) ↔ ∃ μ ∈ μs, w ∈ words μ := by
  rw [mem_words, mem_support_iff, oneOf_apply h, Ne, ENNReal.div_eq_zero_iff, not_or,
    and_iff_left (ENNReal.natCast_ne_top _), ← Ne, ← pos_iff_ne_zero]
  constructor
  · intro hpos
    by_contra hnone
    refine hpos.ne' (List.sum_eq_zero fun p hp => ?_)
    obtain ⟨μ, hμ, rfl⟩ := List.mem_map.mp hp
    exact (apply_eq_zero_iff μ w).mpr fun hw => hnone ⟨μ, hμ, hw⟩
  · rintro ⟨μ, hμ, hw⟩
    refine (pos_iff_ne_zero.mpr ((mem_support_iff μ w).mp hw)).trans_le ?_
    exact List.single_le_sum (fun _ _ => zero_le) _ (List.mem_map_of_mem hμ)

end Chance
