import Mathlib.Data.List.Basic
import Mathlib.Tactic.Common
import Passgen.Markov.Order

/-!
# Markov/Check — the assertions of a trained chain

`passgen_markov_check` walks the nodes of a tree and asserts what a table has to be.  No assertion
fails in a chain that training made, however its counts overflow (`markovTrain_check`).
-/

namespace Passgen

/-- The assertions of `passgen_markov_node_check` about one node, and `below` about its children. -/
def slotsCheck {β : Type} (below : β → Bool) (node : Node β) : Bool :=
  decide (node.capacity ≠ 0) && decide (node.capacity % 2 ≠ 0) &&
    (List.range node.capacity).all fun i =>
      (decide (node.codepoint i = 0) || (node.child i).isSome) &&
        (node.child i).all fun data => decide (node.codepoint i % node.capacity = i) && below data

/-- `passgen_markov_node_check` at the level `n + 1`; below the level three it does not go into the
children. -/
def nodeCheck : (n : ℕ) → Node (Child n) → Bool
  | 0, node => slotsCheck (fun _ => true) node
  | 1, node => slotsCheck (fun _ => true) node
  | n + 2, node => slotsCheck (nodeCheck (n + 1)) node

/-- `passgen_markov_check`. -/
def markovCheck (markov : Markov) : Bool := nodeCheck (markov.level - 1) markov.root

theorem markovSize_odd {i : ℕ} (hi : i ≤ lastSizeIndex) : markovSize i % 2 ≠ 0 := by
  have hall : ∀ j ≤ lastSizeIndex, markovSize j % 2 ≠ 0 := by decide
  exact hall i hi

/-- The assertions hold of a grown node, if they hold of its children. -/
theorem slotsCheck_of_grown {β : Type} {below : β → Bool} {node : Node β} {keys : Set ℕ}
    {growths : ℕ} (hok : NodeOk growths node) (h : node.Grown keys)
    (hbelow : ∀ c child, node.lookup c = some child → below child = true) :
    slotsCheck below node = true := by
  obtain ⟨size, hsize, hcapacity, -⟩ := hok.size
  rw [slotsCheck, Bool.and_eq_true, Bool.and_eq_true, decide_eq_true_eq, decide_eq_true_eq,
    List.all_eq_true]
  refine ⟨⟨hok.size.pos.ne', hcapacity ▸ markovSize_odd hsize⟩, fun i _ => ?_⟩
  cases hchild : node.child i with
  | none => simp [h.blank i hchild]
  | some child =>
    have hslot : node.view.slot i = some (node.codepoint i, child) := by
      simp only [Node.view, hchild, Option.map_some]
    have hlookup : node.lookup (node.codepoint i) = some child := by
      rw [← get_view_node]
      exact hok.placed.get hslot
    have hmod : node.codepoint i % node.capacity = i := hok.placed i _ child hslot
    simp [hmod, hbelow _ child hlookup]

/-- **The assertions hold of every shaped tree.** -/
theorem nodeCheck_of_shaped {n : ℕ} {node : Node (Child n)} (hok : ChildOk (n + 1) node)
    (h : Shaped (n + 1) node) : nodeCheck n node = true := by
  induction n with
  | zero => exact slotsCheck_of_grown hok.1 h.1 fun _ _ _ => rfl
  | succ n ih => cases n with
    | zero => exact slotsCheck_of_grown hok.1 h.1 fun _ _ _ => rfl
    | succ n =>
      exact slotsCheck_of_grown hok.1 h.1 fun c child hc => ih (hok.2 c child hc) (h.2 c child hc).1

/-- **No assertion fails in a trained chain**, for every level and every list of words, whatever
their weights. -/
theorem markovTrain_check {level : UInt8} (hlevel : 0 < level.toNat) {words : List (List ℕ × ℕ)}
    (hwords : ∀ p ∈ words, ∀ c ∈ p.1, c ≤ maxCodepoint) :
    ∃ markov, markovTrain (markovInit level) words = some markov ∧ markovCheck markov = true := by
  obtain ⟨markov, htrain, -, hcounts⟩ := (counts_init hlevel).train hwords
  have hspec : ∀ s ∈ insertions level.toNat words, _ := fun s hs => insertions_spec hwords hs
  obtain ⟨other, hrun, hshaped⟩ := exists_markovInsertAll (counts_init hlevel)
    (shaped_markovInit level) (fun s hs => (hspec s hs).1) (fun s hs => (hspec s hs).2.1)
  have hrun' := (markovTrain_eq (markovInit level) words).symm.trans htrain
  obtain rfl : other = markov := Option.some.inj (hrun.symm.trans hrun')
  exact ⟨other, htrain, nodeCheck_of_shaped hcounts.ok hshaped⟩

theorem markovTrain_check_abcd : ∃ markov,
    markovTrain (markovInit 3) [([97, 98, 99, 100], 1), ([97], 0)] = some markov ∧
      markovCheck markov = true :=
  markovTrain_check (by decide) (by decide)

end Passgen
