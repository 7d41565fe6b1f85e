import Mathlib.Algebra.Order.BigOperators.Group.Finset
import Mathlib.Data.List.Basic
import Mathlib.Tactic.Common
import Passgen.Chance.Tree
import Passgen.Weighted.Select

/-!
# Chance/Chain — strings drawn one element after the other

    [] ─ step [] ▸ a ─ step [a] ▸ b ─ step [a, b] ▸ stop

Each element is drawn given those before it, until the stop is drawn or there is no room for more.
The probability of a string is the product of those of its steps; drawing by weight, a step has the
share of the total that it weighs.
-/

namespace Chance

open PMF
open scoped ENNReal

variable {α : Type*}

/-- The elements that are drawn after `v`, up to the stop; `none` where the room does not suffice. -/
noncomputable def chain [DecidableEq α] (step : List α → PMF α) (stop : α) :
    ℕ → List α → PMF (Option (List α))
  | 0, _ => PMF.pure none
  | room + 1, v =>
    (step v).bind fun a => if a = stop then PMF.pure (some v) else chain step stop room (v ++ [a])

/-- The probability that `v` goes on with `w` and stops there. -/
noncomputable def chainProb (step : List α → PMF α) (stop : α) : List α → List α → ℝ≥0∞
  | v, [] => step v stop
  | v, a :: w => step v a * chainProb step stop (v ++ [a]) w

/-- Where one element alone leads to a result, its probability is that of both steps. -/
theorem bind_apply_of_unique {β : Type*} {μ : PMF α} {f : α → PMF β} {b : α} {y : β}
    (h : ∀ a ≠ b, y ∉ (f a).support) : (μ.bind f) y = μ b * f b y := by
  rw [bind_apply, tsum_eq_single b]
  intro a ha
  rw [(apply_eq_zero_iff _ _).mpr (h a ha), mul_zero]

section Law

variable [DecidableEq α] {step : List α → PMF α} {stop : α}

/-- What is drawn goes on from where it starts. -/
theorem prefix_of_mem_chain {room : ℕ} {v w : List α}
    (h : some w ∈ (chain step stop room v).support) : v <+: w := by
  induction room generalizing v with
  | zero =>
    rw [chain, mem_support_pure_iff] at h
    cases h
  | succ room ih =>
    rw [chain, mem_support_bind_iff] at h
    obtain ⟨a, -, ha⟩ := h
    split at ha
    · rw [mem_support_pure_iff, Option.some.injEq] at ha
      exact ha ▸ List.prefix_rfl
    · exact (List.prefix_append v [a]).trans (ih ha)

/-- **The probability of a string** is the product of those of its steps, where it fits. -/
theorem chain_apply {room : ℕ} {v w : List α} (hw : stop ∉ w) :
    chain step stop room v (some (v ++ w))
      = if w.length < room then chainProb step stop v w else 0 := by
  induction room generalizing v w with
  | zero =>
    rw [chain, if_neg (Nat.not_lt_zero _)]
    exact pure_apply_of_ne _ _ (Option.some_ne_none _)
  | succ room ih =>
    cases w with
    | nil =>
      rw [List.append_nil, chain, bind_apply_of_unique (b := stop), if_pos rfl, pure_apply_self,
        mul_one, if_pos (by exact Nat.succ_pos room), chainProb]
      -- any other element leads to longer strings
      intro a ha hmem
      rw [if_neg ha] at hmem
      have := (prefix_of_mem_chain hmem).length_le
      rw [List.length_append, List.length_singleton] at this
      omega
    | cons b w =>
      obtain ⟨hb, hw⟩ := not_or.mp (List.mem_cons.not.mp hw)
      have hsplit : v ++ b :: w = v ++ [b] ++ w := by rw [List.append_assoc]; rfl
      rw [hsplit, chain, bind_apply_of_unique (b := b), if_neg (Ne.symm hb), ih hw, chainProb,
        mul_ite, mul_zero]
      · exact if_congr Nat.succ_lt_succ_iff.symm rfl rfl
      · intro a ha hmem
        split at hmem
        · rw [mem_support_pure_iff, Option.some.injEq] at hmem
          have := congrArg List.length hmem
          simp only [List.length_append, List.length_singleton] at this
          omega
        · -- strings that go on with different elements differ
          obtain ⟨rest, hrest⟩ := prefix_of_mem_chain hmem
          rw [List.append_assoc, List.append_assoc] at hrest
          exact ha (List.cons.inj (List.append_cancel_left hrest)).1

/-- The stop itself is never part of the string. -/
theorem stop_notMem_of_mem_chain {room : ℕ} {v w : List α} (hv : stop ∉ v)
    (h : some w ∈ (chain step stop room v).support) : stop ∉ w := by
  induction room generalizing v with
  | zero =>
    rw [chain, mem_support_pure_iff] at h
    cases h
  | succ room ih =>
    rw [chain, mem_support_bind_iff] at h
    obtain ⟨a, -, ha⟩ := h
    split at ha
    · rw [mem_support_pure_iff, Option.some.injEq] at ha
      exact ha ▸ hv
    · rename_i hstop
      refine ih (fun hmem => ?_) ha
      rcases List.mem_append.mp hmem with hmem | hmem
      · exact hv hmem
      · exact hstop (List.mem_singleton.mp hmem).symm

end Law

/-! ## Trees -/

namespace Tree

/-- The tree of a chain, from the trees of its steps. -/
def chain [DecidableEq α] (step : List α → Tree α) (stop : α) :
    ℕ → List α → Tree (Option (List α))
  | 0, _ => done none
  | room + 1, v =>
    (step v).bind fun a => if a = stop then done (some v) else chain step stop room (v ++ [a])

/-- **The law of a chain of trees** is that of the laws of its steps. -/
theorem law_chain [DecidableEq α] (step : List α → Tree α) (stop : α) (room : ℕ) (v : List α) :
    (chain step stop room v).law = Chance.chain (fun v => (step v).law) stop room v := by
  induction room generalizing v with
  | zero => rfl
  | succ room ih =>
    rw [chain, law_bind, Chance.chain]
    refine congrArg _ (funext fun a => ?_)
    rw [apply_ite law, ih]
    rfl

/-- One draw, and what it selects. -/
def select {κ : Type} (f : ℕ → Option κ) (default : κ) (total : ℕ) : Tree κ :=
  if pos : 0 < total then draw total pos fun d => done ((f d).getD default) else done default

/-- A draw leads to what it selects. -/
theorem path_select {κ : Type} {f : ℕ → Option κ} {default k : κ} {total : ℕ} (pos : 0 < total)
    {path : List (ℕ × ℕ)} (h : (select f default total).Path path k) :
    ∃ d < total, path = [(total, d)] ∧ k = (f d).getD default := by
  rw [select, dif_pos pos] at h
  cases h with
  | draw hd h =>
    cases h
    exact ⟨_, hd, rfl, rfl⟩

/-- **What is selected has its share of the total.** -/
theorem law_select_apply {κ : Type} [DecidableEq κ] {f : ℕ → Option κ} {default : κ} {total : ℕ}
    {weight : κ → ℕ} (h : Weighted.Selects f total weight) (pos : 0 < total) (k : κ) :
    (select f default total).law k = weight k / total := by
  rw [select, dif_pos pos, law, bind_apply, tsum_eq_sum (s := Finset.range total)]
  · have hterm : ∀ d ∈ Finset.range total,
        below total pos d * (law (done ((f d).getD default))) k
          = if f d = some k then (total : ℝ≥0∞)⁻¹ else 0 := by
      intro d hd
      have hd := Finset.mem_range.mp hd
      obtain ⟨l, hl⟩ := Option.isSome_iff_exists.mp (h.complete d hd)
      rw [below_apply, if_pos hd, law, hl, Option.getD_some, PMF.pure_apply]
      by_cases hk : k = l
      · rw [if_pos hk, if_pos (congrArg some hk.symm), mul_one]
      · rw [if_neg hk, if_neg fun heq => hk (Option.some.inj heq).symm, mul_zero]
    rw [Finset.sum_congr rfl hterm, ← Finset.sum_filter, Finset.sum_const, h.card_eq, nsmul_eq_mul,
      div_eq_mul_inv]
  · intro d hd
    rw [below_apply, if_neg (by simpa using hd), zero_mul]

end Tree

end Chance
