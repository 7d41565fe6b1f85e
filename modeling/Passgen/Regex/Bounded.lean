import Mathlib.Computability.RegularExpressions
import Mathlib.Data.List.Basic
import Mathlib.Tactic.Common

/-!
# Regex/Bounded — regular expressions with lists and bounded repeats

    anyOf [P, Q, R] = P + Q + R        inOrder [P, Q, R] = P * Q * R        between P 1 3

The expressions that are written with alternatives, sequences, symbols out of a list and repeats
with bounds, and what each of them matches.
-/

namespace Regex

variable {α : Type}

/-- Any of the expressions. -/
def anyOf (Ps : List (RegularExpression α)) : RegularExpression α := Ps.foldr (· + ·) 0

/-- All of the expressions, one after the other. -/
def inOrder (Ps : List (RegularExpression α)) : RegularExpression α := Ps.foldr (· * ·) 1

/-- One of the symbols. -/
def oneOf (symbols : List α) : RegularExpression α := anyOf (symbols.map .char)

/-- Between `m` and `n` times the expression. -/
def between (P : RegularExpression α) (m n : ℕ) : RegularExpression α := P ^ m * (1 + P) ^ (n - m)

/-- The expression, or nothing. -/
def optional (P : RegularExpression α) : RegularExpression α := 1 + P

/-! ## What they match -/

theorem mem_anyOf {Ps : List (RegularExpression α)} {w : List α} :
    w ∈ (anyOf Ps).matches' ↔ ∃ P ∈ Ps, w ∈ P.matches' := by
  induction Ps with
  | nil => exact iff_of_false (Language.notMem_zero w) (by simp)
  | cons P Ps ih =>
    rw [anyOf, List.foldr_cons, RegularExpression.matches'_add, Language.mem_add]
    refine (or_congr_right ih).trans ?_
    simp only [List.mem_cons, exists_eq_or_imp]

theorem matches_inOrder (Ps : List (RegularExpression α)) :
    (inOrder Ps).matches' = (Ps.map RegularExpression.matches').prod := by
  induction Ps with
  | nil => rfl
  | cons P Ps ih =>
    rw [inOrder, List.foldr_cons, RegularExpression.matches'_mul, List.map_cons, List.prod_cons,
      ← ih]
    rfl

theorem mem_oneOf {symbols : List α} {w : List α} :
    w ∈ (oneOf symbols).matches' ↔ ∃ a ∈ symbols, w = [a] := by
  rw [oneOf, mem_anyOf]
  constructor
  · rintro ⟨P, hP, hw⟩
    obtain ⟨a, ha, rfl⟩ := List.mem_map.mp hP
    exact ⟨a, ha, hw⟩
  · rintro ⟨a, ha, rfl⟩
    exact ⟨_, List.mem_map_of_mem ha, rfl⟩

/-- Up to `k` times a language. -/
theorem mem_one_add_pow {L : Language α} {k : ℕ} {w : List α} :
    w ∈ (1 + L) ^ k ↔ ∃ n ≤ k, w ∈ L ^ n := by
  induction k generalizing w with
  | zero =>
    rw [pow_zero]
    exact ⟨fun h => ⟨0, le_rfl, h⟩, fun ⟨n, hn, h⟩ => by rwa [Nat.le_zero.mp hn, pow_zero] at h⟩
  | succ k ih =>
    rw [pow_succ', add_mul, one_mul, Language.mem_add]
    constructor
    · rintro (h | h)
      · obtain ⟨n, hn, hw⟩ := ih.mp h
        exact ⟨n, Nat.le_succ_of_le hn, hw⟩
      · obtain ⟨u, hu, v, hv, rfl⟩ := Language.mem_mul.mp h
        obtain ⟨n, hn, hv⟩ := ih.mp hv
        refine ⟨n + 1, Nat.succ_le_succ hn, ?_⟩
        rw [pow_succ']
        exact Language.append_mem_mul hu hv
    · rintro ⟨n, hn, hw⟩
      rcases n with _ | n
      · exact .inl (ih.mpr ⟨0, Nat.zero_le k, hw⟩)
      · rw [pow_succ'] at hw
        obtain ⟨u, hu, v, hv, rfl⟩ := Language.mem_mul.mp hw
        exact .inr (Language.append_mem_mul hu (ih.mpr ⟨n, Nat.le_of_succ_le_succ hn, hv⟩))

/-- **A bounded repeat matches the powers between its bounds.** -/
theorem mem_between {P : RegularExpression α} {m n : ℕ} (hle : m ≤ n) {w : List α} :
    w ∈ (between P m n).matches' ↔ ∃ k, m ≤ k ∧ k ≤ n ∧ w ∈ P.matches' ^ k := by
  have hone : (1 + P).matches' = 1 + P.matches' := rfl
  rw [between, RegularExpression.matches'_mul, RegularExpression.matches'_pow,
    RegularExpression.matches'_pow, hone]
  constructor
  · intro h
    obtain ⟨u, hu, v, hv, rfl⟩ := Language.mem_mul.mp h
    obtain ⟨k, hk, hv⟩ := mem_one_add_pow.mp hv
    refine ⟨m + k, by omega, by omega, ?_⟩
    rw [pow_add]
    exact Language.append_mem_mul hu hv
  · rintro ⟨k, hm, hn, hw⟩
    obtain ⟨j, rfl⟩ := Nat.exists_eq_add_of_le hm
    rw [pow_add] at hw
    obtain ⟨u, hu, v, hv, rfl⟩ := Language.mem_mul.mp hw
    exact Language.append_mem_mul hu (mem_one_add_pow.mpr ⟨j, by omega, hv⟩)

theorem mem_optional {P : RegularExpression α} {w : List α} :
    w ∈ (optional P).matches' ↔ w = [] ∨ w ∈ P.matches' := by
  rw [optional, RegularExpression.matches'_add, Language.mem_add]
  exact or_congr_left (Language.mem_one w)

end Regex
