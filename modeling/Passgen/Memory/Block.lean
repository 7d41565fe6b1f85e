import Mathlib.Data.List.Basic
import Mathlib.Tactic.Common

/-!
# Memory/Block — allocated blocks

    0        i        i + n       size
    ▢▢▢▢▢▢▢▢▢▣▣▣▣▣▣▣▣▣▢▢▢▢▢▢▢▢▢▢▢▢│
             └ load n ─┘

A block has a size, and loads and stores reach no cell behind it.  A block that is resized keeps the
cells that are in both, and what is in the others is not known.
-/

namespace Memory

/-- A block of cells.  What `cells` has from `size` on is not there. -/
structure Block (α : Type) where
  size : ℕ
  cells : ℕ → α

namespace Block

variable {α : Type} {b c : Block α} {i j n m size : ℕ} {v : Vector α n}

/-- The `n` cells from `i` on; `none` where the block ends before. -/
def load (b : Block α) (i n : ℕ) : Option (Vector α n) :=
  if i + n ≤ b.size then some (Vector.ofFn fun k => b.cells (i + k)) else none

/-- The block with other cells from `i` on. -/
def store (b : Block α) (i : ℕ) (v : Vector α n) : Option (Block α) :=
  if i + n ≤ b.size then
    some { b with cells := fun k => if h : i ≤ k ∧ k < i + n then v[k - i] else b.cells k }
  else none

/-- The block with another size; `junk` is what happens to be behind the old one. -/
def resize (b : Block α) (junk : ℕ → α) (size : ℕ) : Block α :=
  ⟨size, fun k => if k < b.size then b.cells k else junk k⟩

@[simp] theorem size_resize (b : Block α) (junk : ℕ → α) (size : ℕ) :
    (b.resize junk size).size = size := rfl

/-- **Loads and stores inside a block** go through. -/
theorem load_of_le (h : i + n ≤ b.size) :
    b.load i n = some (Vector.ofFn fun k => b.cells (i + k)) := if_pos h

theorem exists_store_of_le (h : i + n ≤ b.size) (v : Vector α n) : ∃ c, b.store i v = some c :=
  ⟨_, if_pos h⟩

/-- What a store leaves. -/
theorem store_eq_some (h : b.store i v = some c) :
    i + n ≤ b.size ∧ c.size = b.size ∧
      ∀ k, c.cells k = if h : i ≤ k ∧ k < i + n then v[k - i] else b.cells k := by
  rw [store] at h
  split at h
  · obtain rfl := Option.some.inj h
    exact ⟨‹_›, rfl, fun _ => rfl⟩
  · exact absurd h (by simp)

/-- **What was stored is loaded.** -/
theorem load_store (h : b.store i v = some c) : c.load i n = some v := by
  obtain ⟨hle, hsize, hcells⟩ := store_eq_some h
  rw [load_of_le (hsize ▸ hle)]
  refine congrArg some (Vector.ext fun k hk => ?_)
  rw [Vector.getElem_ofFn, hcells, dif_pos ⟨Nat.le_add_right i k, by omega⟩]
  exact getElem_congr_idx (Nat.add_sub_cancel_left i k)

/-- **Frame**: cells that were not stored to. -/
theorem load_store_of_disjoint (h : b.store i v = some c) (hdisj : j + m ≤ i ∨ i + n ≤ j) :
    c.load j m = b.load j m := by
  obtain ⟨-, hsize, hcells⟩ := store_eq_some h
  have hkept : ∀ k : Fin m, c.cells (j + k) = b.cells (j + k) := fun k => by
    rw [hcells, dif_neg (by omega)]
  simp only [load, hsize, hkept]

/-- **Frame**: cells of the old size and the new. -/
theorem load_resize (junk : ℕ → α) (h : i + n ≤ b.size) (hsize : i + n ≤ size) :
    (b.resize junk size).load i n = b.load i n := by
  have hkept : ∀ k : Fin n, (b.resize junk size).cells (i + k) = b.cells (i + k) := fun k =>
    if_pos (by omega)
  rw [load_of_le h, load_of_le (by rwa [size_resize])]
  simp only [hkept]

/-! ## Lists in a block -/

/-- A list stored from `i` on. -/
def storeAll (b : Block α) (i : ℕ) (vs : List α) : Option (Block α) :=
  b.store i vs.toArray.toVector

/-- The block starts with the list. -/
structure Holds (b : Block α) (vs : List α) : Prop where
  le : vs.length ≤ b.size
  cells : ∀ k v, vs[k]? = some v → b.cells k = v

theorem holds_nil (b : Block α) : b.Holds [] := ⟨Nat.zero_le _, fun _ _ h => absurd h (by simp)⟩

theorem exists_storeAll_of_le {vs : List α} (h : i + vs.length ≤ b.size) :
    ∃ c, b.storeAll i vs = some c ∧ c.size = b.size := by
  obtain ⟨c, hc⟩ := exists_store_of_le h vs.toArray.toVector
  exact ⟨c, hc, (store_eq_some hc).2.1⟩

/-- **A list stored behind what is there.** -/
theorem Holds.storeAll {us vs : List α} (h : b.Holds us) (hc : b.storeAll us.length vs = some c) :
    c.Holds (us ++ vs) := by
  obtain ⟨hle, hsize, hcells⟩ := store_eq_some hc
  refine ⟨by rw [List.length_append, hsize]; exact hle, fun k v hv => ?_⟩
  rw [hcells]
  rcases Nat.lt_or_ge k us.length with hlt | hge
  · rw [List.getElem?_append_left hlt] at hv
    rw [dif_neg (by omega), h.cells k v hv]
  · rw [List.getElem?_append_right hge] at hv
    obtain ⟨hlt, hv⟩ := List.getElem?_eq_some_iff.mp hv
    rw [dif_pos ⟨hge, (Nat.sub_lt_iff_lt_add' hge).mp hlt⟩]
    exact hv

/-- The start of what is there. -/
theorem Holds.left {us vs : List α} (h : b.Holds (us ++ vs)) : b.Holds us := by
  have hle : us.length ≤ (us ++ vs).length := by simp
  refine ⟨Nat.le_trans hle h.le, fun k v hv => h.cells k v ?_⟩
  rw [List.getElem?_append_left (List.getElem?_eq_some_iff.mp hv).1, hv]

/-- A block that is resized, and still long enough. -/
theorem Holds.resize {us : List α} (h : b.Holds us) (junk : ℕ → α) (hsize : us.length ≤ size) :
    (b.resize junk size).Holds us := by
  refine ⟨hsize, fun k v hv => ?_⟩
  have hlt := Nat.lt_of_lt_of_le (List.getElem?_eq_some_iff.mp hv).1 h.le
  exact (if_pos hlt).trans (h.cells k v hv)

end Block

end Memory
