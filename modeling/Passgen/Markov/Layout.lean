import Mathlib.Data.List.Basic
import Mathlib.Tactic.Common
import Passgen.Markov.Chain
import Passgen.Memory.Block
import Passgen.Memory.Cells

/-!
# Markov/Layout — where nodes and leaves lie in memory

    node   │capacity│ codepoints   │ children …                │
                    └ 4 c ┘        └ from entry (c + 1) / 2 on
    leaf   │total_count│capacity│ codepoints   │ counts        │

A node has one array of entries, each as large as the larger of a codepoint and a pointer, and uses
it for both.  Its children start at entry `(c + 1) / 2`: behind `4 * (c + 1)` bytes where a pointer
has eight, but behind half as many where it has four, in the middle of the codepoints.
-/

namespace Passgen

open Memory

/-- The targets, by the width of their pointers and of `size_t`. -/
inductive Target where
  | bits32
  | bits64
  deriving DecidableEq

namespace Target

/-- `sizeof(void *)`, and `sizeof(size_t)`. -/
def pointerSize : Target → ℕ
  | bits32 => 4
  | bits64 => 8

/-- The value of a `size_t` expression. -/
def size (t : Target) (n : ℕ) : ℕ := n % 2 ^ (8 * t.pointerSize)

/-- `sizeof(passgen_markov_node)`: the capacity; the entries behind it have no size. -/
def nodeHeader (t : Target) : ℕ := t.pointerSize

/-- The size of an entry of a node: a `uint32_t` or a pointer. -/
def nodeEntry (t : Target) : ℕ := max 4 t.pointerSize

/-- `sizeof(passgen_markov_leaf)`: the total count and the capacity. -/
def leafHeader (t : Target) : ℕ := 2 * t.pointerSize

end Target

section Layout

variable (t : Target) (capacity : ℕ)

/-- `passgen_markov_node_codepoint`, as an offset into the node. -/
def nodeCodepoint (index : ℕ) : ℕ := t.nodeHeader + t.nodeEntry * 0 + 4 * (index % capacity)

/-- `passgen_markov_node_child`, as an offset into the node. -/
def nodeChild (codepoint : ℕ) : ℕ :=
  t.nodeHeader + t.nodeEntry * (t.size (capacity + 1) / 2) + t.pointerSize * (codepoint % capacity)

/-- `passgen_markov_node_size`. -/
def nodeSize : ℕ := t.size (t.nodeHeader + (capacity + 1) * 4 + capacity * t.pointerSize)

/-- `passgen_markov_leaf_codepoint_raw`, as an offset into the leaf, whose entries are
`uint32_t`. -/
def leafCodepointRaw (index : ℕ) : ℕ := t.leafHeader + 4 * 0 + 4 * (index % capacity)

/-- `passgen_markov_leaf_count_raw`, as an offset into the leaf. -/
def leafCountRaw (codepoint : ℕ) : ℕ := t.leafHeader + 4 * capacity + 4 * (codepoint % capacity)

/-- `passgen_markov_leaf_size`. -/
def leafSize : ℕ := t.size (t.leafHeader + capacity * 4 + capacity * 4)

/-- The bytes of a codepoint of a node. -/
def nodeCodepointBytes (index : ℕ) : Set ℕ :=
  Set.Ico (nodeCodepoint t capacity index) (nodeCodepoint t capacity index + 4)

/-- The bytes of a child of a node. -/
def nodeChildBytes (codepoint : ℕ) : Set ℕ :=
  Set.Ico (nodeChild t capacity codepoint) (nodeChild t capacity codepoint + t.pointerSize)

/-- The bytes of a codepoint of a leaf. -/
def leafCodepointBytes (index : ℕ) : Set ℕ :=
  Set.Ico (leafCodepointRaw t capacity index) (leafCodepointRaw t capacity index + 4)

/-- The bytes of a count of a leaf. -/
def leafCountBytes (codepoint : ℕ) : Set ℕ :=
  Set.Ico (leafCountRaw t capacity codepoint) (leafCountRaw t capacity codepoint + 4)

/-- **A node as it should be**: its arrays do not overlap, behind its capacity and inside of what is
allocated, and its children are aligned. -/
structure NodeLayout : Prop where
  separate : Separate capacity (nodeCodepointBytes t capacity) (nodeChildBytes t capacity)
    (Set.Ico t.nodeHeader (nodeSize t capacity))
  aligned : ∀ i < capacity, t.pointerSize ∣ nodeChild t capacity i

/-- **A leaf as it should be.** -/
def LeafLayout : Prop :=
  Separate capacity (leafCodepointBytes t capacity) (leafCountBytes t capacity)
    (Set.Ico t.leafHeader (leafSize t capacity))

end Layout

/-! ## When they are -/

variable {t : Target} {capacity i : ℕ}

theorem pointerSize_pos (t : Target) : 0 < t.pointerSize := by
  cases t <;> decide

/-- The array of codepoints of a node. -/
def nodeCodepointCells (t : Target) : Cells := ⟨t.nodeHeader, 4⟩

/-- The array of children of a node. -/
def nodeChildCells (t : Target) (capacity : ℕ) : Cells :=
  ⟨t.nodeHeader + t.nodeEntry * (t.size (capacity + 1) / 2), t.pointerSize⟩

/-- The array of codepoints of a leaf. -/
def leafCodepointCells (t : Target) : Cells := ⟨t.leafHeader, 4⟩

/-- The array of counts of a leaf. -/
def leafCountCells (t : Target) (capacity : ℕ) : Cells := ⟨t.leafHeader + 4 * capacity, 4⟩

theorem nodeCodepointBytes_eq (hi : i < capacity) :
    nodeCodepointBytes t capacity i = (nodeCodepointCells t).bytes i := by
  rw [nodeCodepointBytes, nodeCodepoint, Nat.mod_eq_of_lt hi]
  rfl

theorem nodeChildBytes_eq (hi : i < capacity) :
    nodeChildBytes t capacity i = (nodeChildCells t capacity).bytes i := by
  rw [nodeChildBytes, nodeChild, Nat.mod_eq_of_lt hi]
  rfl

theorem leafCodepointBytes_eq (hi : i < capacity) :
    leafCodepointBytes t capacity i = (leafCodepointCells t).bytes i := by
  rw [leafCodepointBytes, leafCodepointRaw, Nat.mod_eq_of_lt hi]
  rfl

theorem leafCountBytes_eq (hi : i < capacity) :
    leafCountBytes t capacity i = (leafCountCells t capacity).bytes i := by
  rw [leafCountBytes, leafCountRaw, Nat.mod_eq_of_lt hi]
  rfl

/-- Children are aligned wherever they start. -/
theorem pointerSize_dvd_nodeChild (t : Target) (capacity i : ℕ) :
    t.pointerSize ∣ nodeChild t capacity i := by
  have hentry : t.pointerSize ∣ t.nodeEntry := by cases t <;> decide
  exact Nat.dvd_add (Nat.dvd_add (Nat.dvd_refl _) (Nat.dvd_mul_right_of_dvd hentry _))
    (Nat.dvd_mul_right _ _)

/-- **A node is laid out** exactly when its codepoints end before its children start, and its
children where it ends. -/
theorem nodeLayout_iff (hpos : 0 < capacity) :
    NodeLayout t capacity ↔
      t.nodeHeader + 4 * capacity ≤ (nodeChildCells t capacity).base ∧
        (nodeChildCells t capacity).start capacity ≤ nodeSize t capacity := by
  have hcells := @separate_cells_iff (nodeCodepointCells t) (nodeChildCells t capacity) capacity
    t.nodeHeader (nodeSize t capacity) (Nat.le_add_right _ _) (by decide : 0 < 4)
    (pointerSize_pos t) hpos
  constructor
  · intro h
    exact (hcells.mp (h.separate.congr (fun _ => nodeCodepointBytes_eq)
      fun _ => nodeChildBytes_eq)).2
  · intro h
    have hsep := hcells.mpr ⟨le_rfl, h⟩
    exact ⟨hsep.congr (fun _ hi => (nodeCodepointBytes_eq hi).symm)
      fun _ hi => (nodeChildBytes_eq hi).symm, fun i _ => pointerSize_dvd_nodeChild t capacity i⟩

/-- **A leaf is laid out** exactly when its counts end where it ends. -/
theorem leafLayout_iff (hpos : 0 < capacity) :
    LeafLayout t capacity ↔ (leafCountCells t capacity).start capacity ≤ leafSize t capacity := by
  have hcells := @separate_cells_iff (leafCodepointCells t) (leafCountCells t capacity) capacity
    t.leafHeader (leafSize t capacity) (Nat.le_add_right _ _) (by decide : 0 < 4)
    (by decide : 0 < 4) hpos
  constructor
  · intro h
    exact (hcells.mp (h.congr (fun _ => leafCodepointBytes_eq) fun _ => leafCountBytes_eq)).2.2
  · intro h
    exact (hcells.mpr ⟨le_rfl, le_rfl, h⟩).congr (fun _ hi => (leafCodepointBytes_eq hi).symm)
      fun _ hi => (leafCountBytes_eq hi).symm

/-- The size of a leaf is that of its arrays, so only an overflow cuts it short. -/
theorem leafLayout_iff_fits (t : Target) (hpos : 0 < capacity) :
    LeafLayout t capacity ↔ 2 * t.pointerSize + 8 * capacity < 2 ^ (8 * t.pointerSize) := by
  rw [leafLayout_iff hpos]
  simp only [leafCountCells, leafSize, Cells.start, Target.size, Target.leafHeader]
  cases t <;> simp only [Target.pointerSize] <;> omega

/-- Where pointers have four bytes, the children start in the middle of the codepoints. -/
theorem nodeLayout_bits32_iff (hodd : capacity % 2 = 1) (hlt : capacity < 2 ^ 32) :
    NodeLayout .bits32 capacity ↔ capacity = 1 := by
  rw [nodeLayout_iff (by omega)]
  have hentry : Target.bits32.nodeEntry = 4 := rfl
  simp only [nodeChildCells, nodeSize, Cells.start, Target.size, Target.nodeHeader, hentry,
    Target.pointerSize]
  omega

/-- Where pointers have eight bytes, the children start behind the codepoints. -/
theorem nodeLayout_bits64_iff (hodd : capacity % 2 = 1) (hlt : capacity < 2 ^ 64) :
    NodeLayout .bits64 capacity ↔ 12 * (capacity + 1) < 2 ^ 64 := by
  rw [nodeLayout_iff (by omega)]
  have hentry : Target.bits64.nodeEntry = 8 := rfl
  simp only [nodeChildCells, nodeSize, Cells.start, Target.size, Target.nodeHeader, hentry,
    Target.pointerSize]
  omega

/-- **The arrays of nodes and leaves.**  Those of a node do not overlap where pointers have eight
bytes, while its size fits; where they have four, only those of a node with a single entry. -/
theorem markov_layout_iff (t : Target) (capacity : ℕ) (hodd : capacity % 2 = 1)
    (hlt : capacity < 2 ^ (8 * t.pointerSize)) :
    (NodeLayout t capacity ↔ capacity = 1 ∨ t = .bits64 ∧ 12 * (capacity + 1) < 2 ^ 64) ∧
      (LeafLayout t capacity ↔ 2 * t.pointerSize + 8 * capacity < 2 ^ (8 * t.pointerSize)) := by
  constructor
  · cases t with
    | bits32 => simpa using nodeLayout_bits32_iff hodd hlt
    | bits64 =>
      rw [nodeLayout_bits64_iff hodd hlt]
      simp only [true_and]
      omega
  · exact leafLayout_iff_fits t (by omega)

theorem markov_layout_smallest :
    NodeLayout .bits64 3 ∧ LeafLayout .bits64 3 ∧ LeafLayout .bits32 3 := by
  have h64 := markov_layout_iff .bits64 3 (by decide) (by decide)
  have h32 := markov_layout_iff .bits32 3 (by decide) (by decide)
  exact ⟨h64.1.mpr (by decide), h64.2.mpr (by decide), h32.2.mpr (by decide)⟩

/-- On `wasm32` the smallest node has its first child in its last codepoint. -/
theorem markov_layout_overlaps_bits32 :
    ¬ NodeLayout .bits32 3 ∧ nodeChild .bits32 3 0 = nodeCodepoint .bits32 3 2 := by
  refine ⟨fun h => ?_, by decide⟩
  have hdisj := h.separate.apart 2 (by decide) 0 (by decide)
  have hmem : 12 ∈ nodeCodepointBytes .bits32 3 2 := ⟨by decide, by decide⟩
  exact Set.disjoint_left.mp hdisj hmem hmem

/-! ## The tables -/

/-- The sizes of the tables are odd, and none of them is large. -/
theorem markovSize_odd_lt {sizeIndex : ℕ} (h : markovSize sizeIndex ≠ 0) :
    markovSize sizeIndex % 2 = 1 ∧ 1 < markovSize sizeIndex ∧ markovSize sizeIndex < 2 ^ 26 := by
  have hall : ∀ size ∈ markovSizes, size ≠ 0 → size % 2 = 1 ∧ 1 < size ∧ size < 2 ^ 26 := by
    decide
  have hlt : sizeIndex < markovSizes.length := by
    by_contra hge
    exact h (List.getD_eq_default _ _ (Nat.le_of_not_lt hge))
  rw [markovSize, List.getD_eq_getElem _ _ hlt] at h ⊢
  exact hall _ (List.getElem_mem hlt) h

/-- **Every node and leaf the code allocates** is laid out where pointers have eight bytes; where
they have four, every leaf is and no node. -/
theorem markovSize_layout {sizeIndex : ℕ} (h : markovSize sizeIndex ≠ 0) :
    NodeLayout .bits64 (markovSize sizeIndex) ∧ LeafLayout .bits64 (markovSize sizeIndex) ∧
      ¬ NodeLayout .bits32 (markovSize sizeIndex) ∧ LeafLayout .bits32 (markovSize sizeIndex) := by
  obtain ⟨hodd, hone, hlt⟩ := markovSize_odd_lt h
  have hpos : 0 < markovSize sizeIndex := by omega
  refine ⟨(nodeLayout_bits64_iff hodd (by omega)).mpr (by omega),
    (leafLayout_iff_fits .bits64 hpos).mpr ?_, fun hnode => ?_,
    (leafLayout_iff_fits .bits32 hpos).mpr ?_⟩
  · simp only [Target.pointerSize]
    omega
  · exact hone.ne' ((nodeLayout_bits32_iff hodd (by omega)).mp hnode)
  · simp only [Target.pointerSize]
    omega

/-! ## Stores -/

section Stores

variable {α : Type} {b : Block α} {codepoint : ℕ → Vector α 4}
  {child : ℕ → Vector α t.pointerSize}

/-- A block holds a node: the bytes of its codepoints and children. -/
structure HoldsNode (t : Target) (b : Block α) (capacity : ℕ) (codepoint : ℕ → Vector α 4)
    (child : ℕ → Vector α t.pointerSize) : Prop where
  size_eq : b.size = nodeSize t capacity
  codepoint_eq : ∀ i < capacity, b.load (nodeCodepoint t capacity i) 4 = some (codepoint i)
  child_eq : ∀ i < capacity,
    b.load (nodeChild t capacity i) t.pointerSize = some (child i)

/-- **A codepoint is stored**: no child changes, and no other codepoint. -/
theorem HoldsNode.store_codepoint (h : HoldsNode t b capacity codepoint child)
    (hlayout : NodeLayout t capacity) (hi : i < capacity) (v : Vector α 4) :
    ∃ c, b.store (nodeCodepoint t capacity i) v = some c ∧
      HoldsNode t c capacity (Function.update codepoint i v) child := by
  have hin := hlayout.separate.first_subset i hi
  obtain ⟨c, hc⟩ := Block.exists_store_of_le (h.size_eq ▸ le_of_ico_subset (by decide) hin) v
  refine ⟨c, hc, (Block.store_eq_some hc).2.1.trans h.size_eq, fun j hj => ?_, fun j hj => ?_⟩
  · by_cases hji : j = i
    · rw [hji, Function.update_self, Block.load_store hc]
    · have hdisj := hlayout.separate.first_disjoint j hj i hi hji
      rw [Function.update_of_ne hji,
        Block.load_store_of_disjoint hc (apart_of_disjoint (by decide) (by decide) hdisj),
        h.codepoint_eq j hj]
  · have hdisj := (hlayout.separate.apart i hi j hj).symm
    rw [Block.load_store_of_disjoint hc
      (apart_of_disjoint (pointerSize_pos t) (by decide) hdisj), h.child_eq j hj]

/-- **A child is stored**: no codepoint changes, and no other child. -/
theorem HoldsNode.store_child (h : HoldsNode t b capacity codepoint child)
    (hlayout : NodeLayout t capacity) (hi : i < capacity) (v : Vector α t.pointerSize) :
    ∃ c, b.store (nodeChild t capacity i) v = some c ∧
      HoldsNode t c capacity codepoint (Function.update child i v) := by
  have hin := hlayout.separate.second_subset i hi
  have hpos := pointerSize_pos t
  obtain ⟨c, hc⟩ := Block.exists_store_of_le (h.size_eq ▸ le_of_ico_subset hpos hin) v
  refine ⟨c, hc, (Block.store_eq_some hc).2.1.trans h.size_eq, fun j hj => ?_, fun j hj => ?_⟩
  · have hdisj := hlayout.separate.apart j hj i hi
    rw [Block.load_store_of_disjoint hc (apart_of_disjoint (by decide) hpos hdisj),
      h.codepoint_eq j hj]
  · by_cases hji : j = i
    · rw [hji, Function.update_self, Block.load_store hc]
    · have hdisj := hlayout.separate.second_disjoint j hj i hi hji
      rw [Function.update_of_ne hji,
        Block.load_store_of_disjoint hc (apart_of_disjoint hpos hpos hdisj), h.child_eq j hj]

end Stores

end Passgen
