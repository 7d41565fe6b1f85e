import Mathlib.Order.CompletePartialOrder
import Mathlib.Order.Interval.Set.Basic
import Mathlib.Order.Interval.Set.Disjoint
import Mathlib.Tactic.Common

/-!
# Memory/Cells — arrays as byte ranges

    base          base + size               start i
      ▣▣▣▣▣▣▣▣▣▣▣▣▣▣│▣▣▣▣▣▣▣▣▣▣▣▣▣▣│  …  │▣▣▣▣▣▣▣▣▣▣▣▣▣▣│
         cell 0          cell 1               cell i

Cells of one array are disjoint; two arrays are disjoint where one of them ends before the other
starts, and only there.
-/

namespace Memory

/-- Cells of `size` bytes, one after the other from `base` on. -/
structure Cells where
  base : ℕ
  size : ℕ

namespace Cells

variable {a b : Cells} {i j n m low high : ℕ}

/-- Where cell `i` starts. -/
def start (a : Cells) (i : ℕ) : ℕ := a.base + a.size * i

/-- The bytes of cell `i`. -/
def bytes (a : Cells) (i : ℕ) : Set ℕ := Set.Ico (a.start i) (a.start i + a.size)

@[simp] theorem start_zero (a : Cells) : a.start 0 = a.base := rfl

/-- The next cell starts where a cell ends. -/
theorem start_succ (a : Cells) (i : ℕ) : a.start (i + 1) = a.start i + a.size := by
  rw [start, start, Nat.mul_succ, Nat.add_assoc]

theorem start_mono (a : Cells) (h : i ≤ j) : a.start i ≤ a.start j :=
  Nat.add_le_add_left (Nat.mul_le_mul_left a.size h) a.base

/-- A cell ends where a later one starts, or before. -/
theorem start_add_size_le (a : Cells) (h : i < j) : a.start i + a.size ≤ a.start j :=
  a.start_succ i ▸ a.start_mono h

/-- A byte below the end of `n` cells is in one of them. -/
theorem exists_mem_bytes {k : ℕ} (hlow : a.base ≤ k) (hhigh : k < a.start n) :
    ∃ i < n, k ∈ a.bytes i := by
  induction n with
  | zero => exact absurd hhigh (Nat.not_lt_of_le hlow)
  | succ n ih =>
    rcases Nat.lt_or_ge k (a.start n) with hlt | hge
    · obtain ⟨i, hi, hk⟩ := ih hlt
      exact ⟨i, Nat.lt_succ_of_lt hi, hk⟩
    · exact ⟨n, Nat.lt_succ_self n, hge, a.start_succ n ▸ hhigh⟩

/-- **Cells of one array** are disjoint. -/
theorem disjoint_bytes (h : i ≠ j) : Disjoint (a.bytes i) (a.bytes j) := by
  rw [bytes, bytes, Set.Ico_disjoint_Ico]
  rcases Nat.lt_or_gt_of_ne h with hlt | hgt
  · exact (min_le_left _ _).trans ((a.start_add_size_le hlt).trans (le_max_right _ _))
  · exact (min_le_right _ _).trans ((a.start_add_size_le hgt).trans (le_max_left _ _))

/-- **Two arrays are disjoint** exactly when the first one ends before the second one starts. -/
theorem forall_disjoint_iff (hbase : a.base ≤ b.base) (hb : 0 < b.size) (hm : 0 < m) :
    (∀ i < n, ∀ j < m, Disjoint (a.bytes i) (b.bytes j)) ↔ a.start n ≤ b.base := by
  constructor
  · intro h
    by_contra hlt
    obtain ⟨i, hi, hmem⟩ := exists_mem_bytes hbase (Nat.lt_of_not_le hlt)
    have hfirst : b.base ∈ b.bytes 0 := ⟨le_rfl, Nat.lt_add_of_pos_right hb⟩
    exact Set.disjoint_left.mp (h i hi 0 hm) hmem hfirst
  · intro h i hi j _
    rw [bytes, bytes, Set.Ico_disjoint_Ico]
    have hend := (a.start_add_size_le hi).trans (h.trans (b.start_mono (Nat.zero_le j)))
    exact (min_le_left _ _).trans (hend.trans (le_max_right _ _))

/-- **An array lies in a range** exactly when its ends do. -/
theorem forall_subset_iff (ha : 0 < a.size) (hn : 0 < n) :
    (∀ i < n, a.bytes i ⊆ Set.Ico low high) ↔ low ≤ a.base ∧ a.start n ≤ high := by
  constructor
  · intro h
    have hsub : ∀ i < n, low ≤ a.start i ∧ a.start i + a.size ≤ high := fun i hi =>
      (Set.Ico_subset_Ico_iff (Nat.lt_add_of_pos_right ha)).mp (h i hi)
    refine ⟨(hsub 0 hn).1, ?_⟩
    rw [← Nat.sub_add_cancel hn, start_succ]
    exact (hsub (n - 1) (Nat.sub_one_lt hn.ne')).2
  · rintro ⟨hlow, hhigh⟩ i hi
    exact Set.Ico_subset_Ico (hlow.trans (a.start_mono (Nat.zero_le i)))
      ((a.start_add_size_le hi).trans hhigh)

end Cells

/-! ## Ranges -/

/-- Disjoint ranges: one of them ends before the other starts. -/
theorem apart_of_disjoint {i j n m : ℕ} (hm : 0 < m) (hn : 0 < n)
    (h : Disjoint (Set.Ico j (j + m)) (Set.Ico i (i + n))) : j + m ≤ i ∨ i + n ≤ j := by
  rw [Set.Ico_disjoint_Ico] at h
  omega

theorem le_of_ico_subset {i n low high : ℕ} (hn : 0 < n)
    (h : Set.Ico i (i + n) ⊆ Set.Ico low high) : i + n ≤ high :=
  ((Set.Ico_subset_Ico_iff (Nat.lt_add_of_pos_right hn)).mp h).2

/-! ## Two arrays -/

/-- **Two arrays that do not overlap**, by the bytes of their first `n` cells, inside of a range. -/
structure Separate (n : ℕ) (first second : ℕ → Set ℕ) (range : Set ℕ) : Prop where
  first_disjoint : ∀ i < n, ∀ j < n, i ≠ j → Disjoint (first i) (first j)
  second_disjoint : ∀ i < n, ∀ j < n, i ≠ j → Disjoint (second i) (second j)
  apart : ∀ i < n, ∀ j < n, Disjoint (first i) (second j)
  first_subset : ∀ i < n, first i ⊆ range
  second_subset : ∀ i < n, second i ⊆ range

/-- Only the first `n` cells matter. -/
theorem Separate.congr {n : ℕ} {first first' second second' : ℕ → Set ℕ} {range : Set ℕ}
    (h : Separate n first second range) (hfirst : ∀ i < n, first i = first' i)
    (hsecond : ∀ i < n, second i = second' i) : Separate n first' second' range where
  first_disjoint i hi j hj := hfirst i hi ▸ hfirst j hj ▸ h.first_disjoint i hi j hj
  second_disjoint i hi j hj := hsecond i hi ▸ hsecond j hj ▸ h.second_disjoint i hi j hj
  apart i hi j hj := hfirst i hi ▸ hsecond j hj ▸ h.apart i hi j hj
  first_subset i hi := hfirst i hi ▸ h.first_subset i hi
  second_subset i hi := hsecond i hi ▸ h.second_subset i hi

/-- **Arrays do not overlap** exactly when they follow each other in the range. -/
theorem separate_cells_iff {a b : Cells} {n low high : ℕ} (hbase : a.base ≤ b.base)
    (ha : 0 < a.size) (hb : 0 < b.size) (hn : 0 < n) :
    Separate n a.bytes b.bytes (Set.Ico low high) ↔
      low ≤ a.base ∧ a.start n ≤ b.base ∧ b.start n ≤ high := by
  constructor
  · intro h
    exact ⟨((Cells.forall_subset_iff ha hn).mp h.first_subset).1,
      (Cells.forall_disjoint_iff hbase hb hn).mp h.apart,
      ((Cells.forall_subset_iff hb hn).mp h.second_subset).2⟩
  · rintro ⟨hlow, hapart, hhigh⟩
    have hend := hapart.trans ((b.start_mono (Nat.zero_le n)).trans hhigh)
    exact ⟨fun _ _ _ _ => Cells.disjoint_bytes, fun _ _ _ _ => Cells.disjoint_bytes,
      (Cells.forall_disjoint_iff hbase hb hn).mpr hapart,
      (Cells.forall_subset_iff ha hn).mpr ⟨hlow, hend⟩,
      (Cells.forall_subset_iff hb hn).mpr ⟨hlow.trans hbase, hhigh⟩⟩

end Memory
