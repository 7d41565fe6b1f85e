import Mathlib.Data.List.Basic
import Mathlib.Logic.Function.Basic
import Mathlib.Tactic.Common
import Passgen.Pattern.Tree

/-!
# Markov/Chain — the tree of n-gram counts

    root ─ codepoint ▸ node ─ … ▸ node ─ codepoint ▸ leaf ─ codepoint ▸ count

A chain of level `L` has `L` layers of nodes above its leaves.  Nodes and leaves are tables indexed
by the codepoint modulo the capacity, without probing: where two codepoints collide the table is
rebuilt in the next size, which can collide again while it is filled.  `growths` bounds the nesting
of such rebuilds; `none` is a run past the table of sizes, a failed assertion, or running out of
`growths`.
-/

namespace Passgen

/-- `markov_sizes`. -/
def markovSizes : List ℕ :=
  [3, 7, 17, 37, 79, 163, 331, 673, 1361, 2729, 5471, 10949, 21911, 43853, 87719, 175447, 350899,
    701819, 1403641, 2807303, 5614657, 11229331, 22458671, 44917381, 0]

/-- `markov_sizes[size_index]`. -/
def markovSize (sizeIndex : ℕ) : ℕ := markovSizes.getD sizeIndex 0

/-- The loop that searches for the size of a table. -/
def sizeIndexOf (capacity : ℕ) : ℕ := markovSizes.findIdx fun size => capacity ≤ size

/-! ## Leaves -/

/-- `passgen_markov_leaf`. -/
structure Leaf where
  totalCount : ℕ
  capacity : ℕ
  codepoint : ℕ → ℕ
  count : ℕ → ℕ

/-- `passgen_markov_leaf_new`. -/
def leafNew (sizeIndex : ℕ) : Option Leaf :=
  if markovSize sizeIndex = 0 then none else some ⟨0, markovSize sizeIndex, fun _ => 0, fun _ => 0⟩

/-- The slot of the codepoint is taken by another one. -/
def Leaf.Collides (leaf : Leaf) (codepoint : ℕ) : Prop :=
  leaf.count (codepoint % leaf.capacity) ≠ 0 ∧
    leaf.codepoint (codepoint % leaf.capacity) ≠ codepoint

instance (leaf : Leaf) (codepoint : ℕ) : Decidable (leaf.Collides codepoint) :=
  inferInstanceAs (Decidable (_ ∧ _))

/-- The assignments at the end of `passgen_markov_leaf_insert`. -/
def Leaf.bump (leaf : Leaf) (codepoint weight : ℕ) : Leaf :=
  { leaf with
    codepoint := Function.update leaf.codepoint (codepoint % leaf.capacity) codepoint
    count := Function.update leaf.count (codepoint % leaf.capacity)
      ((leaf.count (codepoint % leaf.capacity) + weight) % 2 ^ 32)
    totalCount := sizeT (leaf.totalCount + weight) }

/-- `passgen_markov_leaf_realloc`, over the insertion it uses. -/
def leafRealloc (insert : Leaf → ℕ → ℕ → Option Leaf) (leaf : Leaf) : Option Leaf := do
  let new ← leafNew (sizeIndexOf leaf.capacity + 1)
  (List.range leaf.capacity).foldlM (fun new i =>
    if leaf.count i ≠ 0 then insert new (leaf.codepoint i) (leaf.count i) else some new) new

/-- `passgen_markov_leaf_insert`. -/
def leafInsert : ℕ → Leaf → ℕ → ℕ → Option Leaf
  | growths, leaf, codepoint, weight =>
    if weight = 0 then some leaf
    else if leaf.Collides codepoint then
      match growths with
      | 0 => none
      | growths + 1 => do
        let leaf ← leafRealloc (leafInsert growths) leaf
        leafInsert growths leaf codepoint weight
    else some (leaf.bump codepoint weight)

/-- `passgen_markov_leaf_count`. -/
def leafCount (leaf : Leaf) (codepoint : ℕ) : ℕ :=
  if leaf.codepoint (codepoint % leaf.capacity) = codepoint then
    leaf.count (codepoint % leaf.capacity)
  else 0

/-! ## Nodes -/

/-- `passgen_markov_node`, over what its children are. -/
structure Node (β : Type) where
  capacity : ℕ
  codepoint : ℕ → ℕ
  child : ℕ → Option β

variable {β : Type}

/-- `passgen_markov_node_new`; a node of capacity zero is divided by as soon as it is used. -/
def nodeNew (sizeIndex : ℕ) : Option (Node β) :=
  if markovSize sizeIndex = 0 then none else some ⟨markovSize sizeIndex, fun _ => 0, fun _ => none⟩

/-- `passgen_markov_node_child`. -/
def Node.childAt (node : Node β) (codepoint : ℕ) : Option β :=
  node.child (codepoint % node.capacity)

/-- An assignment to `passgen_markov_node_child`. -/
def Node.setChild (node : Node β) (codepoint : ℕ) (child : β) : Node β :=
  { node with child := Function.update node.child (codepoint % node.capacity) (some child) }

/-- The slot of the codepoint is taken by another one. -/
def Node.Collides (node : Node β) (codepoint : ℕ) : Prop :=
  (node.childAt codepoint).isSome ∧ node.codepoint (codepoint % node.capacity) ≠ codepoint

instance (node : Node β) (codepoint : ℕ) : Decidable (node.Collides codepoint) :=
  inferInstanceAs (Decidable (_ ∧ _))

/-- `passgen_markov_node_realloc`, over the insertion it uses. -/
def nodeRealloc (insert : Node β → ℕ → Option (Node β)) (node : Node β) : Option (Node β) := do
  let new ← nodeNew (sizeIndexOf node.capacity + 1)
  (List.range node.capacity).foldlM (fun new i =>
    match node.child i with
    | some child => do
      let new ← insert new (node.codepoint i)
      if (new.childAt (node.codepoint i)).isSome then none
      else some (new.setChild (node.codepoint i) child)
    | none => some new) new

/-- `passgen_markov_node_insert`. -/
def nodeInsert : ℕ → Node β → ℕ → Option (Node β)
  | growths, node, codepoint =>
    if node.Collides codepoint then
      match growths with
      | 0 => none
      | growths + 1 => do
        let node ← nodeRealloc (nodeInsert growths) node
        nodeInsert growths node codepoint
    else some { node with
      codepoint := Function.update node.codepoint (codepoint % node.capacity) codepoint }

/-! ## The tree -/

/-- What a node with `n` layers of nodes below has for children. -/
def Child : ℕ → Type
  | 0 => Leaf
  | n + 1 => Node (Child n)

/-- The nesting of rebuilds the chain is run with: there is a size for each. -/
def maxGrowths : ℕ := 25

/-- `passgen_markov_node_insert_word`, on a node with `n` layers of nodes below and a sequence of
`n + 2` codepoints. -/
def nodeInsertWord (weight : ℕ) : (n : ℕ) → Node (Child n) → List ℕ → Option (Node (Child n))
  | 0, node, [codepoint, last] => do
    let node ← nodeInsert maxGrowths node codepoint
    let child ← (node.childAt codepoint : Option Leaf).or (leafNew 0)
    let child ← leafInsert maxGrowths child last weight
    some (node.setChild codepoint child)
  | n + 1, node, codepoint :: sequence => do
    let node ← nodeInsert maxGrowths node codepoint
    let child ← (node.childAt codepoint : Option (Node (Child n))).or (nodeNew 0)
    let child ← nodeInsertWord weight n child sequence
    some (node.setChild codepoint child)
  | _, _, _ => none

/-- `passgen_markov`.  The root is a node above `level - 1` layers of nodes. -/
structure Markov where
  level : ℕ
  count : ℕ
  root : Node (Child (level - 1))

/-- `passgen_markov_init`. -/
def markovInit (level : UInt8) : Markov :=
  ⟨level.toNat, 0, ⟨markovSize 0, fun _ => 0, fun _ => none⟩⟩

/-- `passgen_markov_insert`, which reads `level + 1` codepoints of the sequence.  At level zero the
recursion of the source does not end. -/
def markovInsert (markov : Markov) (sequence : List ℕ) (weight : ℕ) : Option Markov :=
  if markov.level = 0 then none
  else
    (nodeInsertWord weight (markov.level - 1) markov.root (sequence.take (markov.level + 1))).map
      fun root => { markov with root, count := sizeT (markov.count + weight) }

theorem level_markovInsert {markov markov' : Markov} {sequence : List ℕ} {weight : ℕ}
    (h : markovInsert markov sequence weight = some markov') :
    markov'.level = markov.level ∧ markov.level ≠ 0 := by
  rw [markovInsert] at h
  split at h
  · exact absurd h (by simp)
  · rename_i hlevel
    obtain ⟨root, -, rfl⟩ := Option.map_eq_some_iff.mp h
    exact ⟨rfl, hlevel⟩

/-- The sequences `passgen_markov_add` inserts, phase by phase: the word after `level` zeros, the
word itself, and the last codepoints of the word before a zero. -/
def markovGrams (level : ℕ) (word : List ℕ) : List (List ℕ) :=
  let start := List.replicate level 0 ++ word.take level ++
    List.replicate (level + 1 - min level word.length) 0
  let last := List.replicate (level - word.length) 0 ++ word.drop (word.length - level) ++
    List.replicate (level + 1) 0
  (List.range (min level word.length)).map (fun i => start.drop i) ++
    (List.range (word.length - level)).map (fun i => word.drop i) ++ [last]

theorem length_markovGrams (level : ℕ) (word : List ℕ) :
    (markovGrams level word).length = word.length + 1 := by
  simp only [markovGrams, List.length_append, List.length_map, List.length_range,
    List.length_singleton]
  omega

/-- `passgen_markov_add`. -/
def markovAdd (markov : Markov) (word : List ℕ) (weight : ℕ) : Option Markov :=
  (markovGrams markov.level word).foldlM (fun markov sequence =>
    markovInsert markov sequence weight) markov

end Passgen
