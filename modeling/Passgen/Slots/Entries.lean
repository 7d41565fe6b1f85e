import Mathlib.Data.List.Perm.Basic
import Mathlib.Data.List.ReduceOption
import Mathlib.Tactic.Common

/-!
# Slots/Entries — the entries of a table with holes

A table is a list of slots, each free or taken; its entries are `List.reduceOption`.  Which slots
they sit in does not matter for what is stored, so every way of writing a table is stated as a
permutation of its entries: filling a free slot (`fill`), rewriting or freeing a taken one
(`taken`), and moving the occupant of a slot somewhere else to make room for another (`displace`).
-/

namespace Slots

variable {α : Type*} {slots : List (Option α)} {i j : ℕ} {a : α}

theorem mem_entries_iff : a ∈ slots.reduceOption ↔ ∃ i : ℕ, slots[i]? = some (some a) := by
  rw [List.reduceOption_mem_iff, List.mem_iff_getElem?]

/-- A slot's own entry, and those of all other slots. -/
theorem entries_perm {cell : Option α} (h : slots[i]? = some cell) :
    slots.reduceOption.Perm (cell.toList ++ (slots.set i none).reduceOption) := by
  induction slots generalizing i with
  | nil => exact absurd h (by simp)
  | cons first rest ih =>
    cases i with
    | zero =>
      obtain rfl : first = cell := by simpa using h
      cases first with
      | none => exact List.Perm.refl _
      | some b => exact List.Perm.refl _
    | succ i =>
      have hrest := ih (i := i) (by simpa using h)
      cases first with
      | none => simpa using hrest
      | some b =>
        simp only [List.reduceOption_cons_of_some, List.set_cons_succ]
        exact (hrest.cons b).trans List.perm_middle.symm

theorem entries_set (hi : i < slots.length) (cell : Option α) :
    (slots.set i cell).reduceOption.Perm (cell.toList ++ (slots.set i none).reduceOption) := by
  have h : (slots.set i cell).reduceOption.Perm
      (cell.toList ++ ((slots.set i cell).set i none).reduceOption) :=
    entries_perm (List.getElem?_set_self hi)
  rwa [List.set_set] at h

/-- **A free slot takes an entry.** -/
theorem fill (h : slots[i]? = some none) (b : α) :
    (slots.set i (some b)).reduceOption.Perm (b :: slots.reduceOption) := by
  have hi := (List.getElem?_eq_some_iff.mp h).1
  exact (entries_set hi (some b)).trans ((entries_perm h).symm.cons b)

/-- **A taken slot**: its entry is one of the table's, and is what a write to it replaces. -/
theorem taken (h : slots[i]? = some (some a)) :
    ∃ rest, slots.reduceOption.Perm (a :: rest) ∧ (slots.set i none).reduceOption = rest ∧
      ∀ b, (slots.set i (some b)).reduceOption.Perm (b :: rest) := by
  have hi := (List.getElem?_eq_some_iff.mp h).1
  exact ⟨(slots.set i none).reduceOption, entries_perm h, rfl, fun b => entries_set hi (some b)⟩

/-- **An occupant makes room** by moving to a free slot. -/
theorem displace (hi : slots[i]? = some (some a)) (hj : slots[j]? = some none) (b : α) :
    ((slots.set j (some a)).set i (some b)).reduceOption.Perm (b :: slots.reduceOption) := by
  have hne : j ≠ i := by
    rintro rfl
    rw [hi] at hj
    exact absurd hj (by simp)
  have hmoved : (slots.set j (some a))[i]? = some (some a) := by
    rwa [List.getElem?_set_ne hne]
  obtain ⟨rest, hrest, -, hwrite⟩ := taken hmoved
  have hperm : (a :: rest).Perm (a :: slots.reduceOption) := hrest.symm.trans (fill hj a)
  exact (hwrite b).trans (hperm.cons_inv.cons b)

end Slots
