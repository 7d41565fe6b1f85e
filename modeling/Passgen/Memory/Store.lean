import Mathlib.Data.List.Basic
import Mathlib.Logic.Function.Basic
import Mathlib.Tactic.Common

/-!
# Memory/Store — cells that are stored to

    cells   0 1 2 … i … i + k … n …
    stores        i … i + k            in the order they were made

A memory is what its cells hold, with a log of the cells that were stored to; nothing reads the log.
Storing a list at `i` changes the cells from `i` on, and no others.
-/

namespace Memory

variable {α : Type}

/-- Cells, and the log of the stores made to them. -/
structure Store (α : Type) where
  cells : ℕ → α
  stores : List ℕ

namespace Store

/-- One store. -/
def set (m : Store α) (i : ℕ) (v : α) : Store α :=
  ⟨Function.update m.cells i v, m.stores ++ [i]⟩

/-- Stores to cells that follow each other. -/
def setAll (m : Store α) : ℕ → List α → Store α
  | _, [] => m
  | i, v :: vs => (m.set i v).setAll (i + 1) vs

/-- The memory starts with the list. -/
def Holds (m : Store α) (vs : List α) : Prop := ∀ i v, vs[i]? = some v → m.cells i = v

theorem cells_set_self (m : Store α) (i : ℕ) (v : α) : (m.set i v).cells i = v := by
  simp [set]

theorem cells_set_of_ne (m : Store α) {i k : ℕ} (h : k ≠ i) (v : α) :
    (m.set i v).cells k = m.cells k := by
  simp [set, h]

/-- The first `n` cells. -/
def first (m : Store α) (n : ℕ) : List α := (List.range n).map m.cells

@[simp] theorem setAll_nil (m : Store α) (i : ℕ) : m.setAll i [] = m := rfl

theorem setAll_append (m : Store α) (i : ℕ) (vs ws : List α) :
    m.setAll i (vs ++ ws) = (m.setAll i vs).setAll (i + vs.length) ws := by
  induction vs generalizing m i with
  | nil => rfl
  | cons v vs ih =>
    rw [List.cons_append, setAll, ih, setAll, List.length_cons, Nat.add_right_comm, Nat.add_assoc]

/-- **The log of a list of stores.** -/
theorem stores_setAll (m : Store α) (i : ℕ) (vs : List α) :
    (m.setAll i vs).stores = m.stores ++ List.range' i vs.length := by
  induction vs generalizing m i with
  | nil => exact (List.append_nil _).symm
  | cons v vs ih =>
    rw [setAll, ih, set, List.append_assoc, List.length_cons, List.range'_succ,
      List.singleton_append]

/-- **Frame**: the cells in front are kept. -/
theorem cells_setAll_of_lt (m : Store α) {i k : ℕ} (h : k < i) (vs : List α) :
    (m.setAll i vs).cells k = m.cells k := by
  induction vs generalizing m i with
  | nil => rfl
  | cons v vs ih =>
    rw [setAll, ih (m.set i v) (Nat.lt_succ_of_lt h)]
    exact m.cells_set_of_ne (Nat.ne_of_lt h) v

/-- **What was stored is there.** -/
theorem cells_setAll_add (m : Store α) (i : ℕ) {vs : List α} {k : ℕ} {v : α} (h : vs[k]? = some v) :
    (m.setAll i vs).cells (i + k) = v := by
  induction vs generalizing m i k with
  | nil => exact absurd h (by simp)
  | cons w vs ih =>
    cases k with
    | zero =>
      obtain rfl : w = v := by simpa using h
      have hkept := cells_setAll_of_lt (m.set i w) (Nat.lt_add_one i) vs
      exact hkept.trans (m.cells_set_self i w)
    | succ k =>
      rw [setAll, ← Nat.add_assoc, Nat.add_right_comm]
      exact ih (m.set i w) (i + 1) h

/-- **A list the memory starts with is its first cells.** -/
theorem Holds.first_eq {m : Store α} {vs : List α} (h : m.Holds vs) : m.first vs.length = vs := by
  refine List.ext_getElem? fun i => ?_
  rw [first, List.getElem?_map]
  cases hi : vs[i]? with
  | none =>
    rw [List.getElem?_eq_none (by rwa [List.length_range, ← List.getElem?_eq_none_iff]),
      Option.map_none]
  | some v =>
    rw [List.getElem?_range (List.getElem?_eq_some_iff.mp hi).1, Option.map_some, h i v hi]

theorem holds_nil (m : Store α) : m.Holds [] := fun _ _ h => absurd h (by simp)

/-- Storing behind what is there. -/
theorem Holds.setAll {m : Store α} {vs : List α} (h : m.Holds vs) (ws : List α) :
    (m.setAll vs.length ws).Holds (vs ++ ws) := by
  intro i v hi
  by_cases hlt : i < vs.length
  · rw [cells_setAll_of_lt _ hlt]
    exact h i v (by rwa [List.getElem?_append_left hlt] at hi)
  · rw [List.getElem?_append_right (Nat.le_of_not_lt hlt)] at hi
    have := cells_setAll_add m vs.length hi
    rwa [Nat.add_sub_cancel' (Nat.le_of_not_lt hlt)] at this

/-- One more store, right behind what is there. -/
theorem Holds.set {m : Store α} {vs : List α} (h : m.Holds vs) (v : α) :
    (m.set vs.length v).Holds (vs ++ [v]) :=
  h.setAll [v]

/-- Memory that starts with a list goes on with its other cells. -/
theorem Holds.first_of_le {m : Store α} {vs : List α} (h : m.Holds vs) {n : ℕ}
    (hn : vs.length ≤ n) : m.first n = vs ++ (m.first n).drop vs.length := by
  have htake : (m.first n).take vs.length = m.first vs.length := by
    rw [first, ← List.map_take, List.take_range, Nat.min_eq_left hn, first]
  rw [← h.first_eq, ← htake, List.length_take, first, List.length_map, List.length_range,
    Nat.min_eq_left hn, List.take_append_drop]

end Store

end Memory
