import Mathlib.Algebra.BigOperators.Group.List.Basic
import Mathlib.Algebra.Order.BigOperators.Group.List
import Mathlib.Algebra.Order.Ring.Nat
import Mathlib.Data.Finset.Card
import Mathlib.Data.List.GetD
import Mathlib.Order.Interval.Finset.Nat
import Mathlib.Tactic.Common

/-!
# Weighted/Pick — choosing an index by weight

Weights lie one after the other on `0 … sum - 1`; a draw falls into one of them.

    ws = [2, 0, 3]     draw 0 1 | 2 3 4
                      index 0 0 | 2 2 2
-/

namespace Weighted

/-- The index of the weight a draw falls into, and how far into it. -/
def pick : List ℕ → ℕ → Option (ℕ × ℕ)
  | [], _ => none
  | w :: ws, d => if d < w then some (0, d) else (pick ws (d - w)).map fun p => (p.1 + 1, p.2)

/-- **Where a draw falls**: past the weights before, and inside its own. -/
theorem pick_eq_some_iff {ws : List ℕ} {d i r : ℕ} :
    pick ws d = some (i, r) ↔ ∃ h : i < ws.length, r < ws[i] ∧ d = (ws.take i).sum + r := by
  induction ws generalizing d i with
  | nil => simp [pick]
  | cons w ws ih =>
    rw [pick]
    split
    · rename_i hd
      cases i with
      | zero =>
        constructor
        · rintro h
          obtain rfl : d = r := by simpa using h
          exact ⟨by simp, hd, by simp⟩
        · rintro ⟨-, -, h⟩
          obtain rfl : d = r := by simpa using h
          rfl
      | succ i =>
        refine ⟨fun h => by simp at h, ?_⟩
        rintro ⟨-, -, h⟩
        rw [List.take_succ_cons, List.sum_cons] at h
        omega
    · rename_i hd
      rw [Option.map_eq_some_iff]
      constructor
      · rintro ⟨⟨j, s⟩, hpick, hpair⟩
        obtain ⟨rfl, rfl⟩ : j + 1 = i ∧ s = r := by simpa using hpair
        obtain ⟨hj, hs, hsum⟩ := ih.mp hpick
        refine ⟨by simpa using hj, by simpa using hs, ?_⟩
        rw [List.take_succ_cons, List.sum_cons]
        omega
      · rintro ⟨hi, hr, hsum⟩
        cases i with
        | zero =>
          rw [List.take_zero, List.sum_nil] at hsum
          rw [List.getElem_cons_zero] at hr
          omega
        | succ i =>
          rw [List.take_succ_cons, List.sum_cons] at hsum
          exact ⟨(i, r), ih.mpr ⟨by simpa using hi, by simpa using hr, by omega⟩, rfl⟩

/-- **A draw below the sum falls into a weight**, and no other draw does. -/
theorem exists_pick_iff {ws : List ℕ} {d : ℕ} :
    (∃ i r, pick ws d = some (i, r)) ↔ d < ws.sum := by
  induction ws generalizing d with
  | nil => simp [pick]
  | cons w ws ih =>
    rw [pick, List.sum_cons]
    split
    · rename_i hd
      exact ⟨fun _ => by omega, fun _ => ⟨0, d, rfl⟩⟩
    · rename_i hd
      have hiff := ih (d := d - w)
      constructor
      · rintro ⟨i, r, h⟩
        obtain ⟨p, hp, -⟩ := Option.map_eq_some_iff.mp h
        have := hiff.mp ⟨p.1, p.2, hp⟩
        omega
      · intro h
        obtain ⟨i, r, hp⟩ := hiff.mpr (by omega)
        exact ⟨i + 1, r, by rw [hp]; rfl⟩

theorem pick_eq_none_iff {ws : List ℕ} {d : ℕ} : pick ws d = none ↔ ws.sum ≤ d := by
  rw [← not_lt, ← exists_pick_iff]
  rcases pick ws d with _ | ⟨i, r⟩ <;> simp

/-- The start of a weight and the draws inside it are below the sum. -/
theorem sum_take_add_lt {ws : List ℕ} {i r : ℕ} (hi : i < ws.length) (hr : r < ws[i]) :
    (ws.take i).sum + r < ws.sum :=
  exists_pick_iff.mp ⟨i, r, pick_eq_some_iff.mpr ⟨hi, hr, rfl⟩⟩

/-- **A weight is the number of draws that fall into it**, as far as draws go. -/
theorem card_pick {ws : List ℕ} {i : ℕ} (hi : i < ws.length) (n : ℕ) :
    ((Finset.range n).filter fun d => (pick ws d).map Prod.fst = some i).card
      = min ws[i] (n - (ws.take i).sum) := by
  have heq : ((Finset.range n).filter fun d => (pick ws d).map Prod.fst = some i)
      = (Finset.range (min ws[i] (n - (ws.take i).sum))).map
          (addLeftEmbedding (ws.take i).sum) := by
    ext d
    simp only [Finset.mem_filter, Finset.mem_range, Finset.mem_map, addLeftEmbedding_apply,
      Option.map_eq_some_iff]
    constructor
    · rintro ⟨hd, ⟨j, r⟩, hpick, hj⟩
      obtain rfl : j = i := hj
      obtain ⟨_, hr, rfl⟩ := pick_eq_some_iff.mp hpick
      exact ⟨r, lt_min hr (by omega), rfl⟩
    · rintro ⟨r, hr, rfl⟩
      obtain ⟨hr, hn⟩ := lt_min_iff.mp hr
      exact ⟨by omega, (i, r), pick_eq_some_iff.mpr ⟨hi, hr, rfl⟩, rfl⟩
  rw [heq, Finset.card_map, Finset.card_range]

/-- Weights that are at most others, and have their sum, are the others. -/
theorem eq_of_sum_map_eq {ι : Type} {l : List ι} {f g : ι → ℕ} (hle : ∀ i ∈ l, f i ≤ g i)
    (hsum : (l.map f).sum = (l.map g).sum) {i : ι} (hi : i ∈ l) : f i = g i := by
  by_contra hne
  exact (List.sum_lt_sum f g hle ⟨i, hi, lt_of_le_of_ne (hle i hi) hne⟩).ne hsum

/-! ## Searching running totals -/

/-- The running totals of weights, from a start. -/
def totals (start : ℕ) : List ℕ → List ℕ
  | [] => []
  | w :: ws => (start + w) :: totals (start + w) ws

@[simp] theorem length_totals (start : ℕ) (ws : List ℕ) : (totals start ws).length = ws.length := by
  induction ws generalizing start with
  | nil => rfl
  | cons w ws ih => rw [totals, List.length_cons, List.length_cons, ih]

theorem getElem?_totals (start : ℕ) {i : ℕ} {ws : List ℕ} (hi : i < ws.length) :
    (totals start ws)[i]? = some (start + (ws.take (i + 1)).sum) := by
  induction ws generalizing start i with
  | nil => exact absurd hi (Nat.not_lt_zero _)
  | cons w ws ih =>
    cases i with
    | zero => simp [totals]
    | succ i =>
      rw [totals, List.getElem?_cons_succ, ih _ (by simpa using hi), List.take_succ_cons,
        List.sum_cons, Nat.add_assoc]

theorem start_lt_of_mem_totals {start n : ℕ} {ws : List ℕ} (hpos : ∀ w ∈ ws, 0 < w)
    (h : n ∈ totals start ws) : start < n := by
  induction ws generalizing start with
  | nil => exact absurd h List.not_mem_nil
  | cons w ws ih =>
    have hw := hpos w List.mem_cons_self
    rcases List.mem_cons.mp h with rfl | h
    · omega
    · have := ih (fun v hv => hpos v (List.mem_cons_of_mem w hv)) h
      omega

/-- Totals of positive weights increase. -/
theorem pairwise_totals (start : ℕ) {ws : List ℕ} (hpos : ∀ w ∈ ws, 0 < w) :
    (totals start ws).Pairwise (· < ·) := by
  induction ws generalizing start with
  | nil => exact List.Pairwise.nil
  | cons w ws ih =>
    have htail : ∀ v ∈ ws, 0 < v := fun v hv => hpos v (List.mem_cons_of_mem w hv)
    exact List.pairwise_cons.mpr ⟨fun _ h => start_lt_of_mem_totals htail h, ih _ htail⟩

/-- The last total is the sum. -/
theorem eq_of_mem_getLast?_totals {start n : ℕ} {ws : List ℕ}
    (h : n ∈ (totals start ws).getLast?) : n = start + ws.sum := by
  cases ws with
  | nil => exact absurd h (by simp [totals])
  | cons w ws =>
    rw [List.getLast?_eq_getElem?, length_totals, List.length_cons, Nat.add_sub_cancel,
      getElem?_totals start (by simp), List.take_of_length_le (by simp), Option.mem_def,
      Option.some_inj] at h
    exact h.symm

/-- **The first running total past a draw is that of the weight it falls into.** -/
theorem findIdx_totals (start : ℕ) {d i r : ℕ} {ws : List ℕ} (h : pick ws d = some (i, r)) :
    (totals start ws).findIdx (fun total => start + d < total) = i := by
  induction ws generalizing start d i r with
  | nil => exact absurd h (by simp [pick])
  | cons w ws ih =>
    rw [pick] at h
    rw [totals, List.findIdx_cons]
    split at h
    · rename_i hd
      obtain ⟨rfl, -⟩ : 0 = i ∧ _ := by simpa using h
      rw [decide_eq_true (by omega : start + d < start + w)]
      rfl
    · rename_i hd
      obtain ⟨⟨j, s⟩, hpick, hpair⟩ := Option.map_eq_some_iff.mp h
      obtain ⟨rfl, -⟩ : j + 1 = i ∧ _ := by simpa using hpair
      have hidx := ih (start + w) hpick
      rw [show start + w + (d - w) = start + d by omega] at hidx
      rw [decide_eq_false (by omega : ¬start + d < start + w), hidx]
      rfl

end Weighted
