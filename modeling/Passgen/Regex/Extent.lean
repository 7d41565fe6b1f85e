import Mathlib.Algebra.BigOperators.Group.List.Basic
import Mathlib.Algebra.Order.Monoid.Canonical.Defs
import Mathlib.Algebra.Order.Monoid.Unbundled.Pow
import Mathlib.Computability.Language
import Mathlib.Data.List.MinMax
import Mathlib.Order.Bounds.Basic
import Mathlib.Tactic.Common

/-!
# Regex/Extent — the greatest weight of the words of a language

    L * M ▸ m + n        L ^ n ▸ n • m        one of L₁ … Lₖ ▸ max m₁ … mₖ

The weight of a word is the sum of the weights of its symbols.  The greatest weight of a language is
found from those of its parts, wherever words are put one behind the other, repeated or chosen.
-/

namespace Regex

variable {α ι M : Type} [AddCommMonoid M] {weight : α → M}

/-- The weight of a word. -/
def cost (weight : α → M) (w : List α) : M := (w.map weight).sum

theorem cost_append (v w : List α) : cost weight (v ++ w) = cost weight v + cost weight w := by
  rw [cost, List.map_append, List.sum_append]
  rfl

variable [LinearOrder M]

/-- The greatest weight of a word of the language is `m`. -/
def Extent (weight : α → M) (L : Language α) (m : M) : Prop :=
  IsGreatest {n | ∃ w ∈ L, cost weight w = n} m

theorem extent_singleton (w : List α) : Extent weight {w} (cost weight w) :=
  ⟨⟨w, rfl, rfl⟩, by rintro n ⟨v, rfl, rfl⟩; exact le_rfl⟩

theorem extent_one : Extent weight (1 : Language α) 0 := extent_singleton []

/-- The extent bounds every word. -/
theorem Extent.le {L : Language α} {m : M} (h : Extent weight L m) {w : List α} (hw : w ∈ L) :
    cost weight w ≤ m :=
  h.2 ⟨w, hw, rfl⟩

section Choice

variable [CanonicallyOrderedAdd M]

theorem foldr_max_mem {ms : List M} (hne : ms ≠ []) : ms.foldr max 0 ∈ ms := by
  induction ms with
  | nil => exact absurd rfl hne
  | cons a ms ih =>
    rw [List.foldr_cons]
    rcases max_choice a (ms.foldr max 0) with hmax | hmax
    · rw [hmax]
      exact List.mem_cons_self
    · rw [hmax]
      by_cases hnil : ms = []
      · rw [hnil, List.foldr_nil] at hmax ⊢
        have ha : a = 0 := le_antisymm (hmax ▸ le_max_left a 0) zero_le
        exact List.mem_singleton.mpr ha.symm
      · exact List.mem_cons_of_mem a (ih hnil)

/-- **One of several.** -/
theorem extent_any {items : List ι} (hne : items ≠ []) {L : ι → Language α} {m : ι → M}
    (h : ∀ i ∈ items, Extent weight (L i) (m i)) :
    Extent weight {w | ∃ i ∈ items, w ∈ L i} ((items.map m).foldr max 0) := by
  have hmap : items.map m ≠ [] := fun hnil => hne (List.map_eq_nil_iff.mp hnil)
  obtain ⟨i, hi, hmax⟩ := List.mem_map.mp (foldr_max_mem hmap)
  obtain ⟨w, hw, hcost⟩ := (h i hi).1
  refine ⟨⟨w, ⟨i, hi, hw⟩, hcost.trans hmax⟩, ?_⟩
  rintro n ⟨v, ⟨j, hj, hv⟩, rfl⟩
  exact ((h j hj).le hv).trans (List.le_max_of_le' 0 (List.mem_map_of_mem hj) le_rfl)

/-- Or nothing. -/
theorem Extent.optional {L : Language α} {m : M} (h : Extent weight L m) (p : Prop) :
    Extent weight {w | (p ∧ w = []) ∨ w ∈ L} m := by
  obtain ⟨w, hw, hcost⟩ := h.1
  refine ⟨⟨w, .inr hw, hcost⟩, ?_⟩
  rintro n ⟨v, ⟨-, rfl⟩ | hv, rfl⟩
  · exact zero_le
  · exact h.le hv

end Choice

section Ordered

variable [IsOrderedAddMonoid M] {L : Language α} {m : M}

/-- **One behind the other.** -/
theorem Extent.mul (h : Extent weight L m) {L' : Language α} {m' : M}
    (h' : Extent weight L' m') : Extent weight (L * L') (m + m') := by
  obtain ⟨v, hv, hcost⟩ := h.1
  obtain ⟨w, hw, hcost'⟩ := h'.1
  refine ⟨⟨v ++ w, Language.append_mem_mul hv hw, by rw [cost_append, hcost, hcost']⟩, ?_⟩
  rintro n ⟨u, hu, rfl⟩
  obtain ⟨v', hv', w', hw', rfl⟩ := Language.mem_mul.mp hu
  rw [cost_append]
  exact add_le_add (h.le hv') (h'.le hw')

theorem extent_prod {items : List ι} {L : ι → Language α} {m : ι → M}
    (h : ∀ i ∈ items, Extent weight (L i) (m i)) :
    Extent weight (items.map L).prod (items.map m).sum := by
  induction items with
  | nil => exact extent_one
  | cons i items ih =>
    rw [List.map_cons, List.prod_cons, List.map_cons, List.sum_cons]
    exact (h i List.mem_cons_self).mul (ih fun j hj => h j (List.mem_cons_of_mem i hj))

theorem Extent.pow (h : Extent weight L m) (n : ℕ) : Extent weight (L ^ n) (n • m) := by
  induction n with
  | zero =>
    rw [pow_zero, zero_nsmul]
    exact extent_one
  | succ n ih =>
    rw [pow_succ, succ_nsmul]
    exact ih.mul h

/-- **Repeated**, with bounds. -/
theorem Extent.between [CanonicallyOrderedAdd M] (h : Extent weight L m) {lo hi : ℕ}
    (hle : lo ≤ hi) :
    Extent weight {w | ∃ n, lo ≤ n ∧ n ≤ hi ∧ w ∈ L ^ n} (hi • m) := by
  obtain ⟨w, hw, hcost⟩ := (h.pow hi).1
  refine ⟨⟨w, ⟨hi, hle, le_rfl, hw⟩, hcost⟩, ?_⟩
  rintro n ⟨v, ⟨k, -, hk, hv⟩, rfl⟩
  exact ((h.pow k).le hv).trans (nsmul_le_nsmul_left zero_le hk)

end Ordered

end Regex
