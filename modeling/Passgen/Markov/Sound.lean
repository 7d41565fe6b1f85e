import Mathlib.Algebra.BigOperators.Group.Finset.Piecewise
import Mathlib.Algebra.Order.BigOperators.Group.Finset
import Mathlib.Data.List.Basic
import Mathlib.Tactic.Common
import Passgen.Markov.Leaf

/-!
# Markov/Sound — what every leaf keeps

    Σ counts ≤ total ≤ what was inserted

A count that wraps falls behind the total, and a rebuild takes the total down to the counts; so the
counts never exceed it.  This holds of every leaf a walk can reach, whatever codepoints it compares
or does not compare.
-/

namespace Passgen

/-- Every codepoint is in the slot of its residue, the counts are within the total, and the total
within `k`. -/
structure Leaf.Sound (k : ℕ) (leaf : Leaf) : Prop where
  placed : ∀ i, leaf.count i ≠ 0 → leaf.codepoint i % leaf.capacity = i
  sum_le : ∑ i ∈ Finset.range leaf.capacity, leaf.count i ≤ leaf.totalCount
  total_le : leaf.totalCount ≤ k

namespace Leaf.Sound

variable {k k' : ℕ} {leaf : Leaf}

theorem mono (h : leaf.Sound k) (hk : k ≤ k') : leaf.Sound k' :=
  { h with total_le := h.total_le.trans hk }

/-- **Bumping adds to the total what it adds to a count**, or more. -/
theorem bump (h : leaf.Sound k) (c : ℕ) {weight : ℕ} (hlt : k + weight < 2 ^ 64) :
    (leaf.bump c weight).Sound (k + weight) ∧ (leaf.bump c weight).totalCount
      = leaf.totalCount + weight := by
  have htotal : (leaf.bump c weight).totalCount = leaf.totalCount + weight :=
    sizeT_of_lt (by have := h.total_le; omega)
  refine ⟨⟨fun i hi => ?_, ?_, by have := h.total_le; omega⟩, htotal⟩
  · by_cases hslot : i = c % leaf.capacity
    · subst hslot
      simp only [Leaf.bump, Function.update_self]
    · simp only [Leaf.bump, Function.update_of_ne hslot] at hi ⊢
      exact h.placed i hi
  · have hmod : (leaf.count (c % leaf.capacity) + weight) % 2 ^ 32
        ≤ leaf.count (c % leaf.capacity) + weight := Nat.mod_le _ _
    have hsum := h.sum_le
    rw [htotal]
    simp only [Leaf.bump]
    by_cases hslot : c % leaf.capacity ∈ Finset.range leaf.capacity
    · have hsplit := Finset.sum_eq_add_sum_sdiff_singleton_of_mem hslot leaf.count
      rw [Finset.sum_update_of_mem hslot]
      omega
    · rw [Finset.sum_update_of_notMem hslot]
      omega

end Leaf.Sound

/-! ## The insertion rule -/

/-- An invariant of leaves into which less than `bound` is inserted: it holds of a new leaf, it
bounds the counts by what was inserted, and a bump keeps it. -/
structure LeafInvariant (bound : ℕ) (I : ℕ → Leaf → Prop) : Prop where
  new : ∀ {sizeIndex leaf}, leafNew sizeIndex = some leaf → I 0 leaf
  mono : ∀ {k k' leaf}, I k leaf → k ≤ k' → I k' leaf
  counts_le : ∀ {k leaf}, I k leaf → ∑ i ∈ Finset.range leaf.capacity, leaf.count i ≤ k
  bump : ∀ {k leaf} (c : ℕ) {weight : ℕ}, I k leaf → k + weight < bound →
    I (k + weight) (leaf.bump c weight)

namespace LeafInvariant

variable {bound k : ℕ} {I : ℕ → Leaf → Prop} {leaf leaf' : Leaf}

/-- Moving the counts of a leaf, with an insertion that keeps the invariant. -/
theorem realloc (hI : LeafInvariant bound I) {insert : Leaf → ℕ → ℕ → Option Leaf}
    (hinsert : ∀ {k : ℕ} {old : Leaf} {c weight : ℕ} {new : Leaf}, insert old c weight = some new →
      I k old → k + weight < bound → I (k + weight) new)
    (hrealloc : leafRealloc insert leaf = some leaf')
    (hlt : ∑ i ∈ Finset.range leaf.capacity, leaf.count i < bound) :
    I (∑ i ∈ Finset.range leaf.capacity, leaf.count i) leaf' := by
  obtain ⟨fresh, hfresh, hmove⟩ := Option.bind_eq_some_iff.mp hrealloc
  -- after the slots below `n`, their counts have been inserted
  have hslots : ∀ n, ∑ i ∈ Finset.range n, leaf.count i < bound → ∀ new,
      (List.range n).foldlM (fun new i => if leaf.count i ≠ 0 then
        insert new (leaf.codepoint i) (leaf.count i) else some new) fresh = some new →
      I (∑ i ∈ Finset.range n, leaf.count i) new := by
    intro n
    induction n with
    | zero =>
      rintro - _ ⟨⟩
      exact hI.new hfresh
    | succ n ih =>
      intro hlt new hfold
      rw [Finset.sum_range_succ] at hlt ⊢
      rw [List.range_succ, List.foldlM_append] at hfold
      obtain ⟨mid, hmid, hlast⟩ := Option.bind_eq_some_iff.mp hfold
      have hmidI := ih (by omega) mid hmid
      rw [List.foldlM_cons] at hlast
      obtain ⟨last, hlast, ⟨⟩⟩ := Option.bind_eq_some_iff.mp hlast
      split at hlast
      · exact hinsert hlast hmidI hlt
      · obtain rfl := Option.some.inj hlast
        exact hI.mono hmidI (Nat.le_add_right _ _)
  exact hslots leaf.capacity hlt leaf' hmove

/-- **An insertion ends with a bump** of a leaf that satisfies the invariant, through any number of
rebuilds, unless there is nothing to insert. -/
theorem insert_cases (hI : LeafInvariant bound I) {growths c weight : ℕ}
    (hinsert : leafInsert growths leaf c weight = some leaf') (h : I k leaf)
    (hlt : k + weight < bound) :
    (weight = 0 ∧ leaf' = leaf) ∨ ∃ old, I k old ∧ leaf' = old.bump c weight := by
  induction growths generalizing leaf leaf' c weight k with
  | zero =>
    rw [leafInsert] at hinsert
    split at hinsert
    · exact .inl ⟨‹_›, (Option.some.inj hinsert).symm⟩
    split at hinsert
    · exact absurd hinsert (by simp)
    · exact .inr ⟨leaf, h, (Option.some.inj hinsert).symm⟩
  | succ growths ih =>
    rw [leafInsert] at hinsert
    split at hinsert
    · exact .inl ⟨‹_›, (Option.some.inj hinsert).symm⟩
    split at hinsert
    · rename_i hweight _
      obtain ⟨new, hrealloc, hinsert⟩ := Option.bind_eq_some_iff.mp hinsert
      have hle := hI.counts_le h
      have hnew := hI.realloc (fun {k old c weight new} hinsert h hlt => ?_) hrealloc (by omega)
      · rcases ih hinsert (hI.mono hnew hle) hlt with ⟨hzero, -⟩ | hbump
        · exact absurd hzero hweight
        · exact .inr hbump
      · rcases ih hinsert h hlt with ⟨-, rfl⟩ | ⟨old, hold, rfl⟩
        · exact hI.mono h (Nat.le_add_right _ _)
        · exact hI.bump c hold hlt
    · exact .inr ⟨leaf, h, (Option.some.inj hinsert).symm⟩

/-- **An insertion keeps the invariant.** -/
theorem insert (hI : LeafInvariant bound I) {growths c weight : ℕ}
    (hinsert : leafInsert growths leaf c weight = some leaf') (h : I k leaf)
    (hlt : k + weight < bound) : I (k + weight) leaf' := by
  rcases hI.insert_cases hinsert h hlt with ⟨-, rfl⟩ | ⟨old, hold, rfl⟩
  · exact hI.mono h (Nat.le_add_right _ _)
  · exact hI.bump c hold hlt

end LeafInvariant

theorem leafInvariant_sound : LeafInvariant (2 ^ 64) Leaf.Sound where
  new {sizeIndex leaf} h := by
    rw [leafNew] at h
    split at h
    · exact absurd h (by simp)
    · obtain rfl := Option.some.inj h
      exact ⟨fun i hi => absurd rfl hi, by simp, le_rfl⟩
  mono h hk := h.mono hk
  counts_le h := h.sum_le.trans h.total_le
  bump c _ h hlt := (h.bump c hlt).1

/-- **An insertion keeps a leaf sound**, and leaves something to draw. -/
theorem sound_leafInsert {growths k c weight : ℕ} {leaf leaf' : Leaf}
    (hinsert : leafInsert growths leaf c weight = some leaf') (h : leaf.Sound k)
    (hlt : k + weight < 2 ^ 64) :
    leaf'.Sound (k + weight) ∧ (weight ≠ 0 → 0 < leaf'.totalCount) := by
  refine ⟨leafInvariant_sound.insert hinsert h hlt, fun hweight => ?_⟩
  rcases leafInvariant_sound.insert_cases hinsert h hlt with ⟨hzero, -⟩ | ⟨old, hold, rfl⟩
  · exact absurd hzero hweight
  · rw [(hold.bump c hlt).2]
    omega

/-! ## Leaves whose total is exact -/

/-- A sound leaf with slots, whose total is the sum of its counts: the counts have not wrapped. -/
structure Leaf.Tight (k : ℕ) (leaf : Leaf) : Prop extends leaf.Sound k where
  pos : 0 < leaf.capacity
  exact : leaf.Exact

/-- **Below `2 ^ 32` no count wraps.** -/
theorem leafInvariant_tight : LeafInvariant (2 ^ 32) Leaf.Tight where
  new {sizeIndex leaf} h := by
    refine ⟨leafInvariant_sound.new h, ?_, ?_⟩ <;> rw [leafNew] at h <;> split at h
    · exact absurd h (by simp)
    · rename_i hsize
      obtain rfl := Option.some.inj h
      exact Nat.pos_of_ne_zero hsize
    · exact absurd h (by simp)
    · obtain rfl := Option.some.inj h
      simp [Leaf.Exact]
  mono h hk := { h with toSound := h.toSound.mono hk }
  counts_le h := h.sum_le.trans h.total_le
  bump {k leaf} c weight h hlt := by
    obtain ⟨hsound, htotal⟩ := h.toSound.bump c (show k + weight < 2 ^ 64 by omega)
    refine ⟨hsound, h.pos, ?_⟩
    have hslot : c % leaf.capacity ∈ Finset.range leaf.capacity :=
      Finset.mem_range.mpr (Nat.mod_lt _ h.pos)
    have hcount := Finset.single_le_sum (f := leaf.count) (fun _ _ => Nat.zero_le _) hslot
    have hsum := h.sum_le.trans h.total_le
    have hsplit := Finset.sum_eq_add_sum_sdiff_singleton_of_mem hslot leaf.count
    have hexact : leaf.totalCount = ∑ i ∈ Finset.range leaf.capacity, leaf.count i := h.exact
    rw [Leaf.Exact, htotal, hexact]
    simp only [Leaf.bump]
    rw [Finset.sum_update_of_mem hslot, Nat.mod_eq_of_lt (by omega)]
    omega

/-! ## The leaves of a tree -/

/-- What every step of a fold keeps, the fold keeps. -/
theorem foldlM_invariant {α τ : Type} {f : τ → α → Option τ} {P : τ → Prop} {as : List α}
    (hstep : ∀ t, ∀ a ∈ as, ∀ t', f t a = some t' → P t → P t') {t t' : τ} (ht : P t)
    (h : as.foldlM f t = some t') : P t' := by
  induction as generalizing t with
  | nil =>
    obtain rfl := Option.some.inj h
    exact ht
  | cons a as ih =>
    rw [List.foldlM_cons] at h
    obtain ⟨mid, hmid, h⟩ := Option.bind_eq_some_iff.mp h
    exact ih (fun t b hb => hstep t b (List.mem_cons_of_mem a hb))
      (hstep t a List.mem_cons_self mid hmid ht) h

/-- `P` holds of every leaf below, whatever codepoints lead to it. -/
def AllLeaves (P : Leaf → Prop) : (n : ℕ) → Child n → Prop
  | 0, leaf => P leaf
  | n + 1, node => ∀ i child, Node.child (β := Child n) node i = some child → AllLeaves P n child

theorem AllLeaves.mono {P Q : Leaf → Prop} (hPQ : ∀ leaf, P leaf → Q leaf) {n : ℕ} {child : Child n}
    (h : AllLeaves P n child) : AllLeaves Q n child := by
  induction n with
  | zero => exact hPQ child h
  | succ n ih => exact fun i below hbelow => ih (h i below hbelow)

section Children

variable {β : Type} {Q : β → Prop}

/-- `Q` holds of the children of the node. -/
def Node.All (Q : β → Prop) (node : Node β) : Prop := ∀ i child, node.child i = some child → Q child

theorem Node.All.setChild {node : Node β} (h : node.All Q) {child : β} (hchild : Q child) (c : ℕ) :
    (node.setChild c child).All Q := by
  intro i below hbelow
  by_cases hi : i = c % node.capacity
  · subst hi
    simp only [Node.setChild, Function.update_self, Option.some.injEq] at hbelow
    exact hbelow ▸ hchild
  · simp only [Node.setChild, Function.update_of_ne hi] at hbelow
    exact h i below hbelow

theorem all_nodeNew {sizeIndex : ℕ} {node : Node β} (h : nodeNew sizeIndex = some node) :
    node.All Q := by
  rw [nodeNew] at h
  split at h
  · exact absurd h (by simp)
  · obtain rfl := Option.some.inj h
    exact fun i child hchild => absurd hchild (by simp)

/-- **Inserting a codepoint brings no new children.** -/
theorem all_nodeInsert {growths c : ℕ} {node node' : Node β}
    (hinsert : nodeInsert growths node c = some node') (h : node.All Q) : node'.All Q := by
  induction growths generalizing node node' c with
  | zero =>
    rw [nodeInsert] at hinsert
    split at hinsert
    · exact absurd hinsert (by simp)
    · obtain rfl := Option.some.inj hinsert
      exact h
  | succ growths ih =>
    rw [nodeInsert] at hinsert
    split at hinsert
    · obtain ⟨new, hrealloc, hinsert⟩ := Option.bind_eq_some_iff.mp hinsert
      refine ih hinsert ?_
      obtain ⟨fresh, hfresh, hmove⟩ := Option.bind_eq_some_iff.mp hrealloc
      refine foldlM_invariant (fun old i _ new hslot hold => ?_) (all_nodeNew hfresh) hmove
      split at hslot
      · rename_i child hchild
        obtain ⟨mid, hmid, hslot⟩ := Option.bind_eq_some_iff.mp hslot
        split at hslot
        · exact absurd hslot (by simp)
        · obtain rfl := Option.some.inj hslot
          exact (ih hmid hold).setChild (h i child hchild) _
      · obtain rfl := Option.some.inj hslot
        exact hold
    · obtain rfl := Option.some.inj hinsert
      exact h

end Children

/-- What an insertion makes of leaves: `P` of those it leaves alone is enough for `Q`. -/
structure LeafStep (weight : ℕ) (P Q : Leaf → Prop) : Prop where
  keep : ∀ leaf, P leaf → Q leaf
  fresh : ∀ {sizeIndex leaf leaf' last}, leafNew sizeIndex = some leaf →
    leafInsert maxGrowths leaf last weight = some leaf' → Q leaf'
  insert : ∀ {leaf leaf' last}, P leaf → leafInsert maxGrowths leaf last weight = some leaf' →
    Q leaf'

/-- **A gram changes one leaf or adds one**, and keeps the others. -/
theorem allLeaves_nodeInsertWord {weight : ℕ} {P Q : Leaf → Prop} (hstep : LeafStep weight P Q)
    {n : ℕ} {node node' : Node (Child n)} {sequence : List ℕ}
    (hinsert : nodeInsertWord weight n node sequence = some node')
    (h : AllLeaves P (n + 1) node) : AllLeaves Q (n + 1) node' := by
  induction n generalizing sequence with
  | zero => match sequence, hinsert with
    | [c, last], hinsert =>
      obtain ⟨stored, hstored, hinsert⟩ := Option.bind_eq_some_iff.mp hinsert
      obtain ⟨old, hold, hinsert⟩ := Option.bind_eq_some_iff.mp hinsert
      obtain ⟨leaf, hleaf, ⟨⟩⟩ := Option.bind_eq_some_iff.mp hinsert
      have hbelow := all_nodeInsert hstored h
      refine Node.All.setChild (fun i below hi => hstep.keep below (hbelow i below hi)) ?_ c
      cases hchild : (stored.childAt c : Option Leaf) with
      | some child =>
        rw [hchild] at hold
        obtain rfl := Option.some.inj hold
        exact hstep.insert (hbelow _ _ hchild) hleaf
      | none =>
        rw [hchild] at hold
        exact hstep.fresh hold hleaf
  | succ n ih => match sequence, hinsert with
    | c :: sequence, hinsert =>
      obtain ⟨stored, hstored, hinsert⟩ := Option.bind_eq_some_iff.mp hinsert
      obtain ⟨old, hold, hinsert⟩ := Option.bind_eq_some_iff.mp hinsert
      obtain ⟨child, hchild, ⟨⟩⟩ := Option.bind_eq_some_iff.mp hinsert
      have hbelow := all_nodeInsert hstored h
      refine Node.All.setChild (fun i below hi => (hbelow i below hi).mono hstep.keep) ?_ c
      refine ih hchild ?_
      cases hfound : (stored.childAt c : Option (Node (Child n))) with
      | some found =>
        rw [hfound] at hold
        obtain rfl := Option.some.inj hold
        exact hbelow _ _ hfound
      | none =>
        rw [hfound] at hold
        exact all_nodeNew hold

/-! ## Chains -/

/-- A leaf to draw from: sound, with something to draw. -/
def Leaf.Live (k : ℕ) (leaf : Leaf) : Prop := leaf.Sound k ∧ 0 < leaf.totalCount

/-- Every leaf of the chain is live. -/
def Markov.Live (k : ℕ) (markov : Markov) : Prop :=
  AllLeaves (Leaf.Live k) (markov.level - 1 + 1) markov.root

theorem live_markovInit (level : UInt8) : (markovInit level).Live 0 :=
  fun _ _ hchild => absurd hchild (by simp [markovInit])

theorem leafStep_live {k weight : ℕ} (hweight : weight ≠ 0) (hlt : k + weight < 2 ^ 64) :
    LeafStep weight (Leaf.Live k) (Leaf.Live (k + weight)) where
  keep _ h := ⟨h.1.mono (Nat.le_add_right _ _), h.2⟩
  fresh hnew hinsert := by
    have hsound := (leafInvariant_sound.new hnew).mono (Nat.zero_le k)
    obtain ⟨hsound', hpos⟩ := sound_leafInsert hinsert hsound hlt
    exact ⟨hsound', hpos hweight⟩
  insert h hinsert := by
    obtain ⟨hsound, hpos⟩ := sound_leafInsert hinsert h.1 hlt
    exact ⟨hsound, hpos hweight⟩

namespace Markov.Live

variable {k weight : ℕ} {markov markov' : Markov}

theorem mono (h : markov.Live k) {k' : ℕ} (hk : k ≤ k') : markov.Live k' :=
  AllLeaves.mono (fun _ h => ⟨h.1.mono hk, h.2⟩) h

theorem insert (h : markov.Live k) (hweight : weight ≠ 0) (hlt : k + weight < 2 ^ 64)
    {sequence : List ℕ} (hinsert : markovInsert markov sequence weight = some markov') :
    markov'.Live (k + weight) := by
  rw [markovInsert] at hinsert
  split at hinsert
  · exact absurd hinsert (by simp)
  · obtain ⟨root, hroot, rfl⟩ := Option.map_eq_some_iff.mp hinsert
    exact allLeaves_nodeInsertWord (leafStep_live hweight hlt) hroot h

/-- Inserting grams one after the other. -/
theorem foldlM (h : markov.Live k) (hweight : weight ≠ 0) {sequences : List (List ℕ)}
    (hlt : k + weight * sequences.length < 2 ^ 64)
    (hfold : sequences.foldlM (fun markov s => markovInsert markov s weight) markov =
      some markov') :
    markov'.Live (k + weight * sequences.length) := by
  induction sequences generalizing markov k with
  | nil =>
    obtain rfl := Option.some.inj hfold
    exact h
  | cons s sequences ih =>
    obtain ⟨mid, hmid, hrest⟩ := Option.bind_eq_some_iff.mp hfold
    rw [List.length_cons, Nat.mul_add, Nat.mul_one] at hlt ⊢
    have hlive := ih (h.insert hweight (by omega) hmid) (by omega) hrest
    rwa [Nat.add_assoc, Nat.add_comm weight] at hlive

/-- **Adding a word keeps every leaf live.** -/
theorem add (h : markov.Live k) (hweight : weight ≠ 0) {word : List ℕ}
    (hlt : k + weight * (word.length + 1) < 2 ^ 64)
    (hadd : markovAdd markov word weight = some markov') :
    markov'.Live (k + weight * (word.length + 1)) := by
  rw [← length_markovGrams markov.level word] at hlt ⊢
  exact h.foldlM hweight hlt hadd

end Markov.Live

end Passgen
