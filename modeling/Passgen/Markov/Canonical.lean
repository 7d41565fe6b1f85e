import Mathlib.Data.List.Basic
import Mathlib.Data.Set.Insert
import Mathlib.Tactic.Common
import Passgen.Markov.Count
import Passgen.Markov.Sound
import Passgen.Residue.Forced

/-!
# Markov/Canonical — tables as large as their codepoints force

Leaves and nodes grow only where two of their codepoints collide, and a slot that is not taken stays
blank.  A leaf is then a function of its counts (`Leaf.Canonical.eq`), a node of its children
(`Node.eq_of_lookup`) and a tree of its leaves (`eq_of_findLeaf`).
-/

namespace Passgen

open Residue (Collision Forced)

/-- A capacity that the keys force. -/
def SizedFor (keys : Set ℕ) (capacity : ℕ) : Prop :=
  ∃ i ≤ lastSizeIndex, capacity = markovSize i ∧ Forced markovSize keys i

section Sizes

variable {keys : Set ℕ} {capacity : ℕ}

theorem sizedFor_first : SizedFor keys (markovSize 0) :=
  ⟨0, Nat.zero_le _, rfl, Residue.forced_zero⟩

theorem SizedFor.mono (h : SizedFor keys capacity) {keys' : Set ℕ} (hsub : keys ⊆ keys') :
    SizedFor keys' capacity := by
  obtain ⟨i, hi, hcap, hforced⟩ := h
  exact ⟨i, hi, hcap, hforced.mono hsub⟩

/-- Where the keys collide they force the next size. -/
theorem SizedFor.next (h : SizedFor keys capacity) (hcollision : Collision keys capacity)
    (hlt : capacity ≤ maxCodepoint) : SizedFor keys (markovSize (sizeIndexOf capacity + 1)) := by
  obtain ⟨i, hi, rfl, hforced⟩ := h
  have hne : i ≠ lastSizeIndex := by
    rintro rfl
    exact absurd hlt (by decide)
  rw [sizeIndexOf_markovSize hi]
  exact ⟨i + 1, by omega, rfl, hforced.succ hcollision⟩

theorem SizedFor.fitted {β : Type} {t : Residue.Table β} (h : SizedFor t.keys t.capacity) :
    t.Fitted markovSize := by
  obtain ⟨i, -, hcap, hforced⟩ := h
  exact ⟨i, hcap, hforced⟩

end Sizes

/-! ## Leaves -/

/-- A leaf that has grown no more than the keys force, with blank slots where nothing is counted. -/
structure Leaf.Grown (keys : Set ℕ) (leaf : Leaf) : Prop where
  size : SizedFor keys leaf.capacity
  keys : leaf.view.keys ⊆ keys
  blank : ∀ i, leaf.count i = 0 → leaf.codepoint i = 0

theorem mem_keys_leaf {leaf : Leaf} {c : ℕ} : c ∈ leaf.view.keys ↔ leafCount leaf c ≠ 0 := by
  rw [Residue.Table.mem_keys, get_view]
  by_cases h : leafCount leaf c = 0 <;> simp [h]

namespace Leaf.Grown

variable {keys : Set ℕ} {leaf : Leaf} {growths c weight : ℕ}

theorem mono (h : leaf.Grown keys) {keys' : Set ℕ} (hsub : keys ⊆ keys') : leaf.Grown keys' :=
  ⟨h.size.mono hsub, h.keys.trans hsub, h.blank⟩

theorem of_new {sizeIndex : ℕ} (hsize : SizedFor keys (markovSize sizeIndex))
    (hnew : leafNew sizeIndex = some leaf) : leaf.Grown keys := by
  rw [leafNew] at hnew
  split at hnew
  · exact absurd hnew (by simp)
  · obtain rfl := Option.some.inj hnew
    refine ⟨hsize, fun k hk => ?_, fun _ _ => rfl⟩
    exact absurd (ite_self 0) (mem_keys_leaf.mp hk)

theorem bump (h : leaf.Grown keys) (hroom : leaf.view.Room c) (hc : c ∈ keys)
    (hweight : weight ≠ 0) (hlt : leafCount leaf c + weight < 2 ^ 32) :
    (leaf.bump c weight).Grown keys := by
  refine ⟨h.size, fun k hk => ?_, fun i hi => ?_⟩
  · rw [mem_keys_leaf, leafCount_bump hroom] at hk
    by_cases hkc : k = c
    · exact hkc ▸ hc
    · rw [if_neg hkc] at hk
      exact h.keys (mem_keys_leaf.mpr hk)
  · simp only [Leaf.bump] at hi ⊢
    by_cases hslot : i = c % leaf.capacity
    · subst hslot
      have hcount := leafCount_bump hroom weight c
      rw [if_pos rfl, Nat.mod_eq_of_lt hlt, leafCount, Leaf.bump] at hcount
      simp only [Function.update_self, if_true] at hcount hi
      omega
    · rw [Function.update_of_ne hslot] at hi ⊢
      exact h.blank i hi

/-- The codepoints that collide are keys. -/
theorem collision (h : leaf.Grown keys) (hok : LeafOk growths leaf) (hc : c ∈ keys)
    (hcollides : leaf.Collides c) : Collision keys leaf.capacity := by
  have hmod := hok.placed_of_count _ hcollides.1
  refine ⟨_, h.keys (mem_keys_leaf.mpr ?_), c, hc, hcollides.2, hmod⟩
  rw [leafCount, hmod, if_pos rfl]
  exact hcollides.1

end Leaf.Grown

/-- Moving the counts, as moving a table. -/
theorem leafRealloc_eq (insert : Leaf → ℕ → ℕ → Option Leaf) (leaf : Leaf) :
    leafRealloc insert leaf = (leafNew (sizeIndexOf leaf.capacity + 1)).bind fun new =>
      (List.range leaf.capacity).foldlM (leaf.view.moveSlot insert) new := by
  have hbody : (fun new i => if leaf.count i ≠ 0 then
        insert new (leaf.codepoint i) (leaf.count i) else some new)
      = leaf.view.moveSlot insert := by
    funext new i
    by_cases hi : leaf.count i = 0 <;> simp [Residue.Table.moveSlot, Leaf.view, hi]
  rw [leafRealloc, hbody]
  rfl

/-- **Moving the counts of a leaf** forces no more than its collision does. -/
theorem Leaf.Grown.realloc {keys : Set ℕ} {leaf new : Leaf} {growths : ℕ} (hgrown : leaf.Grown keys)
    (h : LeafOk (growths + 1) leaf) (hcapacity : leaf.capacity ≤ maxCodepoint)
    (hcollision : Collision keys leaf.capacity)
    (hinsert : ∀ {new new' : Leaf} {c weight : ℕ}, LeafOk growths new → new.Grown keys →
      c ≤ maxCodepoint → c ∈ keys → leafCount new c + weight < 2 ^ 32 →
      leafInsert growths new c weight = some new' → new'.Grown keys)
    (hnew : leafRealloc (leafInsert growths) leaf = some new) : new.Grown keys := by
  obtain ⟨_, hg, hne, hsize⟩ := h.size.next hcapacity
  obtain rfl := Nat.succ.inj hg
  obtain ⟨fresh, hfresh, hok, -, hzero⟩ := leafNew_spec hsize hne
  have hkeys : ∀ k v, leaf.view.get k = some v → k ≤ maxCodepoint ∧ k ∈ keys := fun k v hk =>
    ⟨h.keys k v hk, hgrown.keys (Residue.Table.mem_keys.mpr ⟨v, hk⟩)⟩
  obtain ⟨moved, hfold, ⟨-, hmoved⟩, -⟩ := Residue.Table.exists_foldlM_insert Leaf.view
    (leafInsert growths) (fun new => LeafOk growths new ∧ new.Grown keys)
    (fun k => k ≤ maxCodepoint ∧ k ∈ keys) leaf.view h.placed hkeys (by
      rintro new k v ⟨hnewOk, hnewGrown⟩ ⟨hk, hmem⟩ hget hnone
      obtain ⟨new', hins, hok', hcount, -⟩ := leafInsert_spec hnewOk hk v
      have hvalue : leafCount leaf k = v ∧ v ≠ 0 := by
        rw [get_view] at hget
        split at hget
        · exact absurd hget (by simp)
        · exact ⟨Option.some.inj hget, by rw [← Option.some.inj hget]; assumption⟩
      have hzero' : leafCount new k = 0 := by
        by_contra hne'
        rw [get_view, if_neg hne'] at hnone
        exact absurd hnone (by simp)
      have hlt : leafCount new k + v < 2 ^ 32 := by
        rw [hzero', Nat.zero_add, ← hvalue.1]
        exact leafCount_lt h k
      refine ⟨new', hins, ⟨hok', hinsert hnewOk hnewGrown hk hmem hlt hins⟩, fun k' => ?_⟩
      rw [get_view, get_view, hcount, Nat.mod_eq_of_lt hlt, hzero', Nat.zero_add]
      by_cases hk' : k' = k
      · rw [if_pos hk', if_pos hk', if_neg hvalue.2]
      · rw [if_neg hk', if_neg hk'])
    fresh ⟨hok, .of_new (hgrown.size.next hcollision hcapacity) hfresh⟩
    (fun k => by rw [get_view, hzero]; rfl) h.size.pos
  rw [leafRealloc_eq, hfresh, Option.bind_some] at hnew
  exact Option.some.inj (hfold.symm.trans hnew) ▸ hmoved

/-- **Inserting a key keeps a leaf grown for the keys**, through any number of rebuilds. -/
theorem Leaf.Grown.insert {keys : Set ℕ} {leaf leaf' : Leaf} {growths c weight : ℕ}
    (hgrown : leaf.Grown keys) (h : LeafOk growths leaf) (hc : c ≤ maxCodepoint) (hmem : c ∈ keys)
    (hlt : leafCount leaf c + weight < 2 ^ 32)
    (hins : leafInsert growths leaf c weight = some leaf') : leaf'.Grown keys := by
  induction growths generalizing leaf leaf' c weight with
  | zero =>
    by_cases hweight : weight = 0
    · rw [hweight, leafInsert_zero] at hins
      exact Option.some.inj hins ▸ hgrown
    have hfree : ¬leaf.Collides c := by
      intro hcollides
      obtain ⟨_, hg, -⟩ := h.size.next (h.capacity_le hc hcollides)
      exact absurd hg (Nat.zero_ne_add_one _)
    rw [leafInsert_bump 0 hweight hfree] at hins
    exact Option.some.inj hins ▸ hgrown.bump (room_of_not_collides hfree) hmem hweight hlt
  | succ growths ih =>
    by_cases hweight : weight = 0
    · rw [hweight, leafInsert_zero] at hins
      exact Option.some.inj hins ▸ hgrown
    by_cases hcollides : leaf.Collides c
    · have hcapacity := h.capacity_le hc hcollides
      obtain ⟨new, hnew, hok, -, hcount⟩ := leafRealloc_spec h hcapacity
        fun new c weight hnew hc => leafInsert_spec hnew hc weight
      rw [leafInsert_grow growths hweight hcollides, hnew, Option.bind_some] at hins
      have hnewGrown := hgrown.realloc h hcapacity (hgrown.collision h hmem hcollides)
        (fun hok hgrown hc hmem hlt hins => ih hgrown hok hc hmem hlt hins) hnew
      exact ih hnewGrown hok hc hmem (by rwa [hcount]) hins
    · rw [leafInsert_bump _ hweight hcollides] at hins
      exact Option.some.inj hins ▸
        hgrown.bump (room_of_not_collides hcollides) hmem hweight hlt

/-- A leaf as insertions without overflow leave it. -/
structure Leaf.Canonical (leaf : Leaf) : Prop where
  ok : LeafOk maxGrowths leaf
  grown : leaf.Grown leaf.view.keys
  exact : leaf.Exact

theorem canonical_leafNew {leaf : Leaf} (hnew : leafNew 0 = some leaf) :
    leaf.Canonical ∧ ∀ x, leafCount leaf x = 0 := by
  obtain ⟨fresh, hfresh, hok, hexact, hzero⟩ := leafNew_spec IsSize.first (by decide)
  obtain rfl := Option.some.inj (hfresh.symm.trans hnew)
  exact ⟨⟨hok, .of_new sizedFor_first hfresh, hexact⟩, hzero⟩

namespace Leaf.Canonical

variable {leaf leaf' : Leaf}

/-- **Inserting keeps a leaf canonical**, as long as its count does not overflow. -/
theorem insert (h : leaf.Canonical) {c weight : ℕ} (hc : c ≤ maxCodepoint) (hweight : weight ≠ 0)
    (hlt : leafCount leaf c + weight < 2 ^ 32)
    (hins : leafInsert maxGrowths leaf c weight = some leaf') : leaf'.Canonical := by
  obtain ⟨other, hother, hok, hcount, hexact⟩ := leafInsert_spec h.ok hc weight
  obtain rfl := Option.some.inj (hother.symm.trans hins)
  have hsub : insert c leaf.view.keys ⊆ other.view.keys := by
    intro k hk
    rw [mem_keys_leaf, hcount, Nat.mod_eq_of_lt hlt]
    rcases hk with rfl | hk
    · rw [if_pos rfl]
      omega
    · by_cases hkc : k = c
      · rw [if_pos hkc]
        omega
      · rw [if_neg hkc]
        exact mem_keys_leaf.mp hk
  have hgrown := (h.grown.mono (Set.subset_insert c _)).insert h.ok hc (Set.mem_insert c _) hlt hins
  exact ⟨hok, hgrown.mono hsub, hexact h.exact hlt⟩

/-- **A canonical leaf is a function of its counts.** -/
theorem eq (h : leaf.Canonical) (h' : leaf'.Canonical)
    (hcount : ∀ x, leafCount leaf x = leafCount leaf' x) : leaf = leaf' := by
  have hview : leaf.view = leaf'.view :=
    Residue.Table.eq_of_get h.ok.placed h'.ok.placed h.grown.size.fitted h'.grown.size.fitted
      fun k => by rw [get_view, get_view, hcount]
  have hcapacity : leaf.capacity = leaf'.capacity := congrArg Residue.Table.capacity hview
  have hslot : ∀ i, leaf.count i = leaf'.count i ∧ leaf.codepoint i = leaf'.codepoint i := by
    intro i
    have hi := congrFun (congrArg Residue.Table.slot hview) i
    simp only [Leaf.view] at hi
    by_cases hzero : leaf.count i = 0
    · by_cases hzero' : leaf'.count i = 0
      · rw [hzero, hzero', h.grown.blank i hzero, h'.grown.blank i hzero']
        exact ⟨rfl, rfl⟩
      · rw [if_pos hzero, if_neg hzero'] at hi
        exact absurd hi (by simp)
    · by_cases hzero' : leaf'.count i = 0
      · rw [if_neg hzero, if_pos hzero'] at hi
        exact absurd hi (by simp)
      · rw [if_neg hzero, if_neg hzero', Option.some.injEq, Prod.mk.injEq] at hi
        exact hi.symm
  have htotal : leaf.totalCount = leaf'.totalCount := by
    rw [h.exact, h'.exact, hcapacity]
    exact Finset.sum_congr rfl fun i _ => (hslot i).1
  cases leaf
  exact Leaf.mk.injEq .. ▸
    ⟨htotal, hcapacity, funext fun i => (hslot i).2, funext fun i => (hslot i).1⟩

end Leaf.Canonical

/-! ## Nodes -/

section Nodes

variable {β : Type} {keys : Set ℕ} {node node' : Node β} {growths c : ℕ}

/-- A node that has grown no more than the keys force, with blank slots where there is no child. -/
structure Node.Grown (keys : Set ℕ) (node : Node β) : Prop where
  size : SizedFor keys node.capacity
  keys : node.view.keys ⊆ keys
  blank : ∀ i, node.child i = none → node.codepoint i = 0

theorem mem_keys_node : c ∈ node.view.keys ↔ (node.lookup c).isSome := by
  rw [Residue.Table.keys, Set.mem_ofPred_eq, get_view_node]

theorem keys_setChild (hcode : node.codepoint (c % node.capacity) = c) (child : β) :
    (node.setChild c child).view.keys = insert c node.view.keys := by
  ext k
  rw [Set.mem_insert_iff, mem_keys_node, mem_keys_node, lookup_setChild hcode]
  by_cases hk : k = c <;> simp [hk]

namespace Node.Grown

theorem mono (h : node.Grown keys) {keys' : Set ℕ} (hsub : keys ⊆ keys') : node.Grown keys' :=
  ⟨h.size.mono hsub, h.keys.trans hsub, h.blank⟩

theorem of_new {sizeIndex : ℕ} (hsize : SizedFor keys (markovSize sizeIndex))
    (hnew : nodeNew sizeIndex = some node) : node.Grown keys := by
  rw [nodeNew] at hnew
  split at hnew
  · exact absurd hnew (by simp)
  · obtain rfl := Option.some.inj hnew
    refine ⟨hsize, fun k hk => ?_, fun _ _ => rfl⟩
    rw [mem_keys_node, lookup_fresh] at hk
    exact absurd hk (by simp)

/-- The codepoints that collide are keys. -/
theorem collision (h : node.Grown keys) (hok : NodeOk growths node) (hc : c ∈ keys)
    (hcollides : node.Collides c) : Collision keys node.capacity := by
  obtain ⟨child, hchild⟩ := Option.isSome_iff_exists.mp hcollides.1
  have hslot : node.view.slot (c % node.capacity)
      = some (node.codepoint (c % node.capacity), child) := by
    rw [Node.childAt] at hchild
    simp only [Node.view, hchild, Option.map_some]
  have hmem : node.codepoint (c % node.capacity) ∈ node.view.keys :=
    Residue.Table.mem_keys.mpr ⟨child, hok.placed.get hslot⟩
  exact ⟨_, h.keys hmem, c, hc, hcollides.2, hok.placed _ _ _ hslot⟩

end Node.Grown

/-- A node in which a codepoint has been stored, and that is blank elsewhere: with any child there
it is grown for the keys. -/
def Node.GrownFor (keys : Set ℕ) (c : ℕ) (node : Node β) : Prop :=
  ∀ child, (node.setChild c child).Grown keys

theorem grownFor_here (h : node.Grown keys) (hok : NodeOk growths node) (hc : c ∈ keys)
    (hfree : ¬node.Collides c) :
    Node.GrownFor keys c { node with
      codepoint := Function.update node.codepoint (c % node.capacity) c } := by
  intro child
  refine ⟨h.size, fun k hk => ?_, fun i hi => ?_⟩
  · rw [keys_setChild (storesLike_here hok hfree).code] at hk
    rcases hk with rfl | hk
    · exact hc
    · rw [mem_keys_node, (storesLike_here hok hfree).lookup] at hk
      exact h.keys (mem_keys_node.mpr hk)
  · simp only [Node.setChild] at hi ⊢
    by_cases hslot : i = c % node.capacity
    · rw [hslot, Function.update_self] at hi
      exact absurd hi (by simp)
    · rw [Function.update_of_ne hslot] at hi ⊢
      exact h.blank i hi

/-- Inserting a codepoint with its child, where it has none. -/
def insertChild (growths : ℕ) (node : Node β) (c : ℕ) (child : β) : Option (Node β) :=
  (nodeInsert growths node c).bind fun node =>
    if (node.childAt c).isSome then none else some (node.setChild c child)

/-- Moving the children, as moving a table. -/
theorem nodeRealloc_eq (growths : ℕ) (node : Node β) :
    nodeRealloc (nodeInsert growths) node
      = (nodeNew (sizeIndexOf node.capacity + 1)).bind fun new =>
        (List.range node.capacity).foldlM (node.view.moveSlot (insertChild growths)) new := by
  refine congrArg (fun body => (nodeNew (sizeIndexOf node.capacity + 1)).bind fun new =>
    (List.range node.capacity).foldlM body new) ?_
  funext new i
  simp only [Residue.Table.moveSlot, Node.view]
  cases node.child i <;> rfl

/-- **Moving the children of a node** forces no more than its collision does. -/
theorem Node.Grown.realloc {new : Node β} (hgrown : node.Grown keys)
    (h : NodeOk (growths + 1) node) (hcapacity : node.capacity ≤ maxCodepoint)
    (hcollision : Collision keys node.capacity)
    (hinsert : ∀ {new new' : Node β} {c : ℕ}, NodeOk growths new → new.Grown keys →
      c ≤ maxCodepoint → c ∈ keys → nodeInsert growths new c = some new' →
      Node.GrownFor keys c new')
    (hnew : nodeRealloc (nodeInsert growths) node = some new) : new.Grown keys := by
  obtain ⟨_, hg, hne, hsize⟩ := h.size.next hcapacity
  obtain rfl := Nat.succ.inj hg
  obtain ⟨fresh, hfresh, hok, hnone⟩ := nodeNew_spec (β := β) hsize hne
  have hkeys : ∀ k v, node.view.get k = some v → k ≤ maxCodepoint ∧ k ∈ keys := by
    intro k v hk
    refine ⟨h.keys k v ?_, hgrown.keys (Residue.Table.mem_keys.mpr ⟨v, hk⟩)⟩
    rwa [get_view_node] at hk
  obtain ⟨moved, hfold, ⟨-, hmoved⟩, -⟩ := Residue.Table.exists_foldlM_insert Node.view
    (insertChild growths) (fun new => NodeOk growths new ∧ new.Grown keys)
    (fun k => k ≤ maxCodepoint ∧ k ∈ keys) node.view h.placed hkeys (by
      rintro new k child ⟨hnewOk, hnewGrown⟩ ⟨hk, hmem⟩ - hget
      obtain ⟨new', hins, hstores⟩ := nodeInsert_spec hnewOk hk
      rw [get_view_node] at hget
      refine ⟨new'.setChild k child, ?_, ⟨hstores.ok.setChild hk hstores.code child,
        hinsert hnewOk hnewGrown hk hmem hins child⟩, fun k' => ?_⟩
      · rw [insertChild, hins, Option.bind_some, hstores.childAt, hget]
        rfl
      · rw [get_view_node, get_view_node, lookup_setChild hstores.code, hstores.lookup])
    fresh ⟨hok, .of_new (hgrown.size.next hcollision hcapacity) hfresh⟩
    (fun k => by rw [get_view_node, hnone]) h.size.pos
  rw [nodeRealloc_eq, hfresh, Option.bind_some] at hnew
  exact Option.some.inj (hfold.symm.trans hnew) ▸ hmoved

/-- **Inserting a key keeps a node grown for the keys**, through any number of rebuilds. -/
theorem Node.Grown.insert (hgrown : node.Grown keys) (h : NodeOk growths node)
    (hc : c ≤ maxCodepoint) (hmem : c ∈ keys) (hins : nodeInsert growths node c = some node') :
    Node.GrownFor keys c node' := by
  induction growths generalizing node node' c with
  | zero =>
    have hfree : ¬node.Collides c := by
      intro hcollides
      obtain ⟨_, hg, -⟩ := h.size.next (h.capacity_le hc hcollides)
      exact absurd hg (Nat.zero_ne_add_one _)
    rw [nodeInsert_here 0 hfree] at hins
    exact Option.some.inj hins ▸ grownFor_here hgrown h hmem hfree
  | succ growths ih =>
    by_cases hcollides : node.Collides c
    · have hcapacity := h.capacity_le hc hcollides
      obtain ⟨new, hnew, hok, -⟩ := nodeRealloc_spec h hcapacity
        fun new c hnew hc => nodeInsert_spec hnew hc
      rw [nodeInsert_grow growths hcollides, hnew, Option.bind_some] at hins
      have hnewGrown := hgrown.realloc h hcapacity (hgrown.collision h hmem hcollides)
        (fun hok hgrown hc hmem hins => ih hgrown hok hc hmem hins) hnew
      exact ih hnewGrown hok hc hmem hins
    · rw [nodeInsert_here _ hcollides] at hins
      exact Option.some.inj hins ▸ grownFor_here hgrown h hmem hcollides

/-- **A grown node is a function of its children.** -/
theorem Node.eq_of_lookup {growths' : ℕ} (h : NodeOk growths node) (h' : NodeOk growths' node')
    (hgrown : node.Grown node.view.keys) (hgrown' : node'.Grown node'.view.keys)
    (hlookup : ∀ c, node.lookup c = node'.lookup c) : node = node' := by
  have hview : node.view = node'.view :=
    Residue.Table.eq_of_get h.placed h'.placed hgrown.size.fitted hgrown'.size.fitted
      fun k => by rw [get_view_node, get_view_node, hlookup]
  have hslot : ∀ i, node.codepoint i = node'.codepoint i ∧ node.child i = node'.child i := by
    intro i
    have hi := congrFun (congrArg Residue.Table.slot hview) i
    simp only [Node.view] at hi
    cases hchild : node.child i with
    | none => cases hchild' : node'.child i with
      | none => exact ⟨(hgrown.blank i hchild).trans (hgrown'.blank i hchild').symm, rfl⟩
      | some child' =>
        rw [hchild, hchild'] at hi
        exact absurd hi (by simp)
    | some child => cases hchild' : node'.child i with
      | none =>
        rw [hchild, hchild'] at hi
        exact absurd hi (by simp)
      | some child' =>
        rw [hchild, hchild'] at hi
        obtain ⟨hcode, rfl⟩ := Prod.mk.inj (Option.some.inj hi)
        exact ⟨hcode, rfl⟩
  cases node
  exact Node.mk.injEq .. ▸ ⟨congrArg Residue.Table.capacity hview, funext fun i => (hslot i).1,
    funext fun i => (hslot i).2⟩

end Nodes

/-! ## Trees -/

/-- Something is stored below: every node that an insertion makes gets a child. -/
def Stocked : (n : ℕ) → Child n → Prop
  | 0, _ => True
  | n + 1, node => (Node.view (β := Child n) node).keys.Nonempty

/-- Every node is as large as its codepoints force, and none but the root is empty. -/
def Shaped : (n : ℕ) → Child n → Prop
  | 0, _ => True
  | n + 1, node => Node.Grown (β := Child n) (Node.view (β := Child n) node).keys node ∧
    ∀ c child, Node.lookup (β := Child n) node c = some child → Shaped n child ∧ Stocked n child

/-- A node with a child set under a codepoint that it has made room for. -/
theorem shaped_setChild {n c : ℕ} {node stored : Node (Child n)} (hc : c ≤ maxCodepoint)
    (hok : ChildOk (n + 1) node) (h : Shaped (n + 1) node)
    (hins : nodeInsert maxGrowths node c = some stored) {child : Child n} (hchild : Shaped n child)
    (hstocked : Stocked n child) :
    Shaped (n + 1) (stored.setChild c child) ∧ Stocked (n + 1) (stored.setChild c child) := by
  obtain ⟨other, hother, hstores⟩ := nodeInsert_spec hok.1 hc
  obtain rfl := Option.some.inj (hother.symm.trans hins)
  have hkeys : insert c node.view.keys = (other.setChild c child).view.keys := by
    rw [keys_setChild hstores.code]
    congr 1
    ext k
    rw [mem_keys_node, mem_keys_node, hstores.lookup]
  have hgrown := (h.1.mono (Set.subset_insert c _)).insert hok.1 hc (Set.mem_insert c _) hins child
  rw [hkeys] at hgrown
  refine ⟨⟨hgrown, fun x below hx => ?_⟩, c, hkeys ▸ Set.mem_insert c _⟩
  rw [lookup_setChild hstores.code, hstores.lookup] at hx
  by_cases hxc : x = c
  · rw [if_pos hxc] at hx
    exact Option.some.inj hx ▸ ⟨hchild, hstocked⟩
  · rw [if_neg hxc] at hx
    exact h.2 x below hx

theorem shaped_nodeNew {n : ℕ} {node : Node (Child n)} (hnew : nodeNew 0 = some node) :
    Shaped (n + 1) node := by
  obtain ⟨fresh, hfresh, -, hnone⟩ := nodeNew_spec (β := Child n) IsSize.first (by decide)
  obtain rfl := Option.some.inj (hfresh.symm.trans hnew)
  refine ⟨.of_new sizedFor_first hfresh, fun c child hc => ?_⟩
  rw [hnone] at hc
  exact absurd hc (by simp)

/-- **Inserting a gram keeps a tree shaped**, by induction on the layers of nodes. -/
theorem shaped_nodeInsertWord {weight n : ℕ} {node node' : Node (Child n)}
    (hok : ChildOk (n + 1) node) (h : Shaped (n + 1) node) {sequence : List ℕ}
    (hle : ∀ c ∈ sequence, c ≤ maxCodepoint)
    (hins : nodeInsertWord weight n node sequence = some node') :
    Shaped (n + 1) node' ∧ Stocked (n + 1) node' := by
  induction n generalizing sequence with
  | zero => match sequence, hins with
    | [c, last], hins =>
      obtain ⟨stored, hstored, hins⟩ := Option.bind_eq_some_iff.mp hins
      obtain ⟨old, -, hins⟩ := Option.bind_eq_some_iff.mp hins
      obtain ⟨leaf, -, ⟨⟩⟩ := Option.bind_eq_some_iff.mp hins
      exact shaped_setChild (hle c List.mem_cons_self) hok h hstored trivial trivial
  | succ n ih => match sequence, hins with
    | c :: sequence, hins =>
      have hc := hle c List.mem_cons_self
      obtain ⟨stored, hstored, hins⟩ := Option.bind_eq_some_iff.mp hins
      obtain ⟨old, hold, hins⟩ := Option.bind_eq_some_iff.mp hins
      obtain ⟨child, hchild, ⟨⟩⟩ := Option.bind_eq_some_iff.mp hins
      obtain ⟨other, hother, hstores⟩ := nodeInsert_spec hok.1 hc
      obtain rfl := Option.some.inj (hother.symm.trans hstored)
      have holdShaped : ChildOk (n + 1) old ∧ Shaped (n + 1) old := by
        rw [hstores.childAt] at hold
        cases hlookup : node.lookup c with
        | some found =>
          rw [hlookup] at hold
          obtain rfl := Option.some.inj hold
          exact ⟨hok.2 c found hlookup, (h.2 c found hlookup).1⟩
        | none =>
          rw [hlookup] at hold
          obtain ⟨fresh, hfresh, hfreshOk, hnone⟩ :=
            nodeNew_spec (β := Child n) IsSize.first (by decide)
          obtain rfl := Option.some.inj (hfresh.symm.trans hold)
          refine ⟨⟨hfreshOk, fun x child hx => ?_⟩, shaped_nodeNew hfresh⟩
          rw [hnone] at hx
          exact absurd hx (by simp)
      obtain ⟨hshaped, hstocked⟩ := ih holdShaped.1 holdShaped.2
        (fun d hd => hle d (List.mem_cons_of_mem c hd)) hchild
      exact shaped_setChild hc hok h hstored hshaped hstocked

/-- A shaped node that stores something has a leaf. -/
theorem exists_findLeaf {n : ℕ} {node : Node (Child n)} (h : Shaped (n + 1) node)
    (hstocked : Stocked (n + 1) node) : ∃ u, (findLeaf n node u).isSome := by
  induction n with
  | zero =>
    obtain ⟨c, hc⟩ := hstocked
    exact ⟨[c], mem_keys_node.mp hc⟩
  | succ n ih =>
    obtain ⟨c, hc⟩ := hstocked
    obtain ⟨child, hchild⟩ := Option.isSome_iff_exists.mp (mem_keys_node.mp hc)
    obtain ⟨hshaped, hbelow⟩ := h.2 c child hchild
    obtain ⟨u, hu⟩ := ih hshaped hbelow
    exact ⟨c :: u, by rwa [findLeaf_cons, hchild, Option.bind_some]⟩

/-- A child that one tree has and the other has not has a leaf that the other has not. -/
theorem lookup_isSome_of_findLeaf {n : ℕ} {node node' : Node (Child n)} (h : Shaped (n + 1) node)
    (hfind : ∀ u, findLeaf n node u = findLeaf n node' u) {c : ℕ} (hc : (node.lookup c).isSome) :
    (node'.lookup c).isSome := by
  cases n with
  | zero => exact congrArg Option.isSome (hfind [c]) ▸ hc
  | succ n =>
    obtain ⟨child, hchild⟩ := Option.isSome_iff_exists.mp hc
    obtain ⟨hshaped, hstocked⟩ := h.2 c child hchild
    obtain ⟨u, hu⟩ := exists_findLeaf hshaped hstocked
    have hcu := hfind (c :: u)
    rw [findLeaf_cons, findLeaf_cons, hchild, Option.bind_some] at hcu
    rw [hcu] at hu
    by_contra hnone
    rw [Option.not_isSome_iff_eq_none] at hnone
    rw [hnone] at hu
    exact absurd hu (by simp)

/-- **A shaped tree is a function of its leaves.** -/
theorem eq_of_findLeaf {n : ℕ} {node node' : Node (Child n)} (hok : ChildOk (n + 1) node)
    (hok' : ChildOk (n + 1) node') (h : Shaped (n + 1) node) (h' : Shaped (n + 1) node')
    (hfind : ∀ u, findLeaf n node u = findLeaf n node' u) : node = node' := by
  induction n with
  | zero => exact Node.eq_of_lookup hok.1 hok'.1 h.1 h'.1 fun c => hfind [c]
  | succ n ih =>
    refine Node.eq_of_lookup hok.1 hok'.1 h.1 h'.1 fun c => ?_
    have hsome := lookup_isSome_of_findLeaf h hfind (c := c)
    have hsome' := lookup_isSome_of_findLeaf h' (fun u => (hfind u).symm) (c := c)
    cases hchild : node.lookup c with
    | none => cases hchild' : node'.lookup c with
      | none => rfl
      | some child' =>
        rw [hchild, hchild'] at hsome'
        exact absurd (hsome' rfl) (by simp)
    | some child => cases hchild' : node'.lookup c with
      | none =>
        rw [hchild, hchild'] at hsome
        exact absurd (hsome rfl) (by simp)
      | some child' =>
        refine congrArg some (ih (hok.2 c child hchild) (hok'.2 c child' hchild')
          (h.2 c child hchild).1 (h'.2 c child' hchild').1 fun u => ?_)
        have hcu := hfind (c :: u)
        rwa [findLeaf_cons, findLeaf_cons, hchild, hchild'] at hcu

/-! ## The leaf of a gram -/

/-- **Inserting a gram inserts into the leaf of its context**, or into a new one. -/
theorem exists_leafInsert {weight n : ℕ} {node node' : Node (Child n)} (hok : ChildOk (n + 1) node)
    {context : List ℕ} (hlen : context.length = n + 1) {last : ℕ}
    (hle : ∀ c ∈ context, c ≤ maxCodepoint)
    (hins : nodeInsertWord weight n node (context ++ [last]) = some node') :
    ∃ old leaf, (findLeaf n node context).or (leafNew 0) = some old ∧
      leafInsert maxGrowths old last weight = some leaf ∧ findLeaf n node' context = some leaf := by
  induction n generalizing context with
  | zero =>
    obtain ⟨c, rfl⟩ := List.length_eq_one_iff.mp hlen
    obtain ⟨stored, hstored, hins⟩ := Option.bind_eq_some_iff.mp hins
    obtain ⟨old, hold, hins⟩ := Option.bind_eq_some_iff.mp hins
    obtain ⟨leaf, hleaf, ⟨⟩⟩ := Option.bind_eq_some_iff.mp hins
    obtain ⟨other, hother, hstores⟩ := nodeInsert_spec hok.1 (hle c (List.mem_singleton_self c))
    obtain rfl := Option.some.inj (hother.symm.trans hstored)
    rw [hstores.childAt] at hold
    refine ⟨old, leaf, hold, hleaf, ?_⟩
    exact (lookup_setChild hstores.code leaf c).trans (if_pos rfl)
  | succ n ih => match context, hlen with
    | c :: context, hlen =>
      obtain ⟨stored, hstored, hins⟩ := Option.bind_eq_some_iff.mp hins
      obtain ⟨old, hold, hins⟩ := Option.bind_eq_some_iff.mp hins
      obtain ⟨child, hchild, ⟨⟩⟩ := Option.bind_eq_some_iff.mp hins
      obtain ⟨other, hother, hstores⟩ := nodeInsert_spec hok.1 (hle c List.mem_cons_self)
      obtain rfl := Option.some.inj (hother.symm.trans hstored)
      obtain ⟨below, hbelow, hbelowOk, hfind⟩ := exists_node_or_new hok hstores
      obtain rfl := Option.some.inj (hbelow.symm.trans hold)
      obtain ⟨oldLeaf, leaf, holdLeaf, hleaf, hfindLeaf⟩ := ih hbelowOk (by simpa using hlen)
        (fun d hd => hle d (List.mem_cons_of_mem c hd)) hchild
      refine ⟨oldLeaf, leaf, by rw [← hfind]; exact holdLeaf, hleaf, ?_⟩
      exact (findLeaf_setChild hstores child c context).trans ((if_pos rfl).trans hfindLeaf)

end Passgen
