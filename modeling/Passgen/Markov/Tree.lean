import Mathlib.Data.List.Basic
import Mathlib.Tactic.Common
import Passgen.Markov.Leaf

/-!
# Markov/Tree — one gram inserted

Nodes are residue tables of children.  Inserting a gram changes the leaf of its context and no other
(`nodeInsertWord_spec`): what is found under any other context is what was found before.
-/

namespace Passgen

variable {β : Type}

/-! ## A node as a table -/

/-- The table of children. -/
def Node.view (node : Node β) : Residue.Table β :=
  ⟨node.capacity, fun i => (node.child i).map fun child => (node.codepoint i, child)⟩

/-- The child whose stored codepoint is `c`. -/
def Node.lookup (node : Node β) (c : ℕ) : Option β :=
  if node.codepoint (c % node.capacity) = c then node.childAt c else none

/-- A node that can be inserted into, with that many growths. -/
structure NodeOk (growths : ℕ) (node : Node β) : Prop where
  size : IsSize growths node.capacity
  placed : node.view.Placed
  keys : ∀ k v, node.lookup k = some v → k ≤ maxCodepoint

theorem NodeOk.mono {growths growths' : ℕ} {node : Node β} (h : NodeOk growths node)
    (hle : growths ≤ growths') : NodeOk growths' node :=
  { h with size := h.size.mono hle }

theorem get_view_node (node : Node β) (c : ℕ) : node.view.get c = node.lookup c := by
  rw [Residue.Table.get, Node.lookup, Node.childAt]
  simp only [Node.view]
  cases node.child (c % node.capacity) with
  | none => simp
  | some child => simp

theorem room_of_not_collides_node {node : Node β} {c : ℕ} (h : ¬node.Collides c) :
    node.view.Room c := by
  intro key value hslot
  simp only [Node.view, Option.map_eq_some_iff, Prod.mk.injEq] at hslot
  obtain ⟨child, hchild, rfl, -⟩ := hslot
  by_contra hne
  exact h ⟨by rw [Node.childAt, hchild]; rfl, hne⟩

theorem room_of_codepoint {node : Node β} {c : ℕ}
    (h : node.codepoint (c % node.capacity) = c) : node.view.Room c :=
  room_of_not_collides_node fun hcollides => hcollides.2 h

/-- Where codepoints collide the capacity is not past all of them. -/
theorem NodeOk.capacity_le {growths : ℕ} {node : Node β} (h : NodeOk growths node) {c : ℕ}
    (hc : c ≤ maxCodepoint) (hcollides : node.Collides c) : node.capacity ≤ maxCodepoint := by
  by_contra hlt
  have hroom : node.view.Room c := by
    refine h.placed.room (fun k v hk => ?_) (hc.trans_lt (not_le.mp hlt))
    rw [get_view_node] at hk
    exact (h.keys k v hk).trans_lt (not_le.mp hlt)
  obtain ⟨child, hchild⟩ := Option.isSome_iff_exists.mp hcollides.1
  refine hcollides.2 (hroom _ child ?_)
  simp only [Node.view]
  rw [Node.childAt] at hchild
  rw [hchild]
  rfl

/-- Setting a child under a stored codepoint writes the table. -/
theorem view_setChild {node : Node β} {c : ℕ} (h : node.codepoint (c % node.capacity) = c)
    (child : β) : (node.setChild c child).view = node.view.set c child := by
  simp only [Node.view, Node.setChild, Residue.Table.set, Residue.Table.mk.injEq, true_and]
  funext i
  by_cases hi : i = c % node.capacity
  · subst hi
    simp [h]
  · simp [Function.update_of_ne hi]

theorem lookup_setChild {node : Node β} {c : ℕ} (h : node.codepoint (c % node.capacity) = c)
    (child : β) (x : ℕ) :
    (node.setChild c child).lookup x = if x = c then some child else node.lookup x := by
  rw [← get_view_node, view_setChild h, Residue.Table.get_set (room_of_codepoint h),
    get_view_node]

theorem NodeOk.setChild {growths : ℕ} {node : Node β} (h : NodeOk growths node) {c : ℕ}
    (hc : c ≤ maxCodepoint) (hcode : node.codepoint (c % node.capacity) = c) (child : β) :
    NodeOk growths (node.setChild c child) := by
  refine ⟨h.size, ?_, fun k v hk => ?_⟩
  · rw [view_setChild hcode]
    exact h.placed.set c child
  · rw [lookup_setChild hcode] at hk
    by_cases hkc : k = c
    · exact hkc ▸ hc
    · rw [if_neg hkc] at hk
      exact h.keys k v hk

/-! ## Inserting a codepoint -/

theorem nodeInsert_here (growths : ℕ) {node : Node β} {c : ℕ} (hfree : ¬node.Collides c) :
    nodeInsert growths node c = some { node with
      codepoint := Function.update node.codepoint (c % node.capacity) c } := by
  cases growths <;> exact if_neg hfree

theorem nodeInsert_grow (growths : ℕ) {node : Node β} {c : ℕ} (hcollides : node.Collides c) :
    nodeInsert (growths + 1) node c
      = (nodeRealloc (nodeInsert growths) node).bind fun node => nodeInsert growths node c :=
  if_pos hcollides

/-- What inserting a codepoint leaves: a node in order that stores it, with the children of
before. -/
structure StoresLike (growths : ℕ) (node : Node β) (c : ℕ) (node' : Node β) : Prop where
  ok : NodeOk growths node'
  code : node'.codepoint (c % node'.capacity) = c
  lookup : ∀ x, node'.lookup x = node.lookup x

theorem StoresLike.childAt {growths : ℕ} {node node' : Node β} {c : ℕ}
    (h : StoresLike growths node c node') : node'.childAt c = node.lookup c := by
  rw [← h.lookup, Node.lookup, if_pos h.code]

/-- Storing a codepoint in a slot that is free or its own. -/
theorem storesLike_here {growths : ℕ} {node : Node β} (h : NodeOk growths node) {c : ℕ}
    (hfree : ¬node.Collides c) :
    StoresLike growths node c
      { node with codepoint := Function.update node.codepoint (c % node.capacity) c } := by
  have hview : Node.view { node with
      codepoint := Function.update node.codepoint (c % node.capacity) c } = node.view := by
    simp only [Node.view, Residue.Table.mk.injEq, true_and]
    funext i
    by_cases hi : i = c % node.capacity
    · subst hi
      rcases hchild : node.child (c % node.capacity) with _ | child
      · rfl
      · have hcode : node.codepoint (c % node.capacity) = c := by
          by_contra hne
          exact hfree ⟨by rw [Node.childAt, hchild]; rfl, hne⟩
        simp [hcode]
    · simp [Function.update_of_ne hi]
  have hlookup : ∀ x, Node.lookup { node with
      codepoint := Function.update node.codepoint (c % node.capacity) c } x = node.lookup x := by
    intro x
    rw [← get_view_node, hview, get_view_node]
  refine ⟨⟨h.size, by rw [hview]; exact h.placed, fun k v hk => ?_⟩, Function.update_self _ _ _,
    hlookup⟩
  exact h.keys k v (by rw [← hlookup]; exact hk)

theorem empty_view_fresh (capacity : ℕ) :
    (⟨capacity, fun _ => 0, fun _ => none⟩ : Node β).view.Empty := fun _ => rfl

theorem lookup_fresh (capacity x : ℕ) :
    Node.lookup (⟨capacity, fun _ => 0, fun _ => none⟩ : Node β) x = none := by
  rw [← get_view_node]
  exact (empty_view_fresh capacity).get x

/-- A new node is empty. -/
theorem nodeNew_spec {growths sizeIndex : ℕ} (hsize : IsSize growths (markovSize sizeIndex))
    (hne : markovSize sizeIndex ≠ 0) :
    ∃ node : Node β, nodeNew sizeIndex = some node ∧ NodeOk growths node ∧
      ∀ x, node.lookup x = none := by
  refine ⟨_, if_neg hne, ⟨hsize, (empty_view_fresh _).placed, fun k v hk => ?_⟩, lookup_fresh _⟩
  exact absurd (hk.symm.trans (lookup_fresh _ k)) (Option.some_ne_none v)

/-- Moving all children into a node of the next size, with an insertion that works there. -/
theorem nodeRealloc_spec {growths : ℕ} {node : Node β} (h : NodeOk (growths + 1) node)
    (hcapacity : node.capacity ≤ maxCodepoint)
    (hinsert : ∀ (new : Node β) c, NodeOk growths new → c ≤ maxCodepoint →
      ∃ new', nodeInsert growths new c = some new' ∧ StoresLike growths new c new') :
    ∃ new, nodeRealloc (nodeInsert growths) node = some new ∧ NodeOk growths new ∧
      ∀ x, new.lookup x = node.lookup x := by
  obtain ⟨_, hg, hne, hsize⟩ := h.size.next hcapacity
  obtain rfl := Nat.succ.inj hg
  obtain ⟨fresh, hfresh, hok, hnone⟩ := nodeNew_spec (β := β) hsize hne
  let insert (new : Node β) (k : ℕ) (child : β) : Option (Node β) :=
    (nodeInsert growths new k).bind fun new =>
      if (new.childAt k).isSome then none else some (new.setChild k child)
  have hkeys : ∀ k v, node.view.get k = some v → k ≤ maxCodepoint := by
    intro k v hk
    rw [get_view_node] at hk
    exact h.keys k v hk
  obtain ⟨new, hfold, hok', hget⟩ := Residue.Table.exists_foldlM_insert
    Node.view insert (NodeOk growths) (· ≤ maxCodepoint) node.view h.placed hkeys (by
      intro new k v hnew hk _ hget
      obtain ⟨new', hins, hstores⟩ := hinsert new k hnew hk
      rw [get_view_node] at hget
      refine ⟨new'.setChild k v, ?_, hstores.ok.setChild hk hstores.code v, fun k' => ?_⟩
      · simp only [insert]
        rw [hins, Option.bind_some, hstores.childAt, hget]
        rfl
      · rw [get_view_node, get_view_node, lookup_setChild hstores.code, hstores.lookup])
    fresh hok (fun k => by rw [get_view_node, hnone]) h.size.pos
  refine ⟨new, ?_, hok', fun x => ?_⟩
  · rw [nodeRealloc, hfresh]
    simp only [Option.bind_eq_bind, Option.bind_some]
    refine Eq.trans (congrArg (fun body => List.foldlM body fresh (List.range node.capacity)) ?_)
      hfold
    funext new i
    simp only [Residue.Table.moveSlot, Node.view]
    cases node.child i <;> rfl
  · rw [← get_view_node, hget, get_view_node]

/-- **Inserting a codepoint stores it and keeps every child**, through any number of rebuilds. -/
theorem nodeInsert_spec {growths : ℕ} {node : Node β} (h : NodeOk growths node) {c : ℕ}
    (hc : c ≤ maxCodepoint) :
    ∃ node', nodeInsert growths node c = some node' ∧ StoresLike growths node c node' := by
  induction growths generalizing node c with
  | zero =>
    have hfree : ¬node.Collides c := by
      intro hcollides
      obtain ⟨_, hg, -⟩ := h.size.next (h.capacity_le hc hcollides)
      exact absurd hg (Nat.zero_ne_add_one _)
    exact ⟨_, nodeInsert_here 0 hfree, storesLike_here h hfree⟩
  | succ growths ih =>
    by_cases hcollides : node.Collides c
    · obtain ⟨new, hnew, hok, hlookup⟩ := nodeRealloc_spec h (h.capacity_le hc hcollides)
        fun new c hnew hc => ih hnew hc
      obtain ⟨node', hins, hstores⟩ := ih hok hc
      refine ⟨node', ?_, hstores.ok.mono (Nat.le_succ _), hstores.code, fun x => ?_⟩
      · rw [nodeInsert_grow growths hcollides, hnew, Option.bind_some, hins]
      · rw [hstores.lookup, hlookup]
    · exact ⟨_, nodeInsert_here _ hcollides, storesLike_here h hcollides⟩

/-! ## The tree -/

/-- A tree in order: every table of it is. -/
def ChildOk : (n : ℕ) → Child n → Prop
  | 0, leaf => LeafOk maxGrowths leaf
  | n + 1, node => NodeOk maxGrowths (β := Child n) node ∧
    ∀ c child, Node.lookup (β := Child n) node c = some child → ChildOk n child

/-- The leaf of a context, following the children whose stored codepoints are its elements. -/
def findLeaf : (n : ℕ) → Node (Child n) → List ℕ → Option Leaf
  | 0, node, [c] => node.lookup c
  | n + 1, node, c :: context => (node.lookup c).bind fun child => findLeaf n child context
  | _, _, _ => none

/-- The count of a codepoint after a context, zero where it is absent. -/
def countAfter (n : ℕ) (node : Node (Child n)) (context : List ℕ) (c : ℕ) : ℕ :=
  ((findLeaf n node context).map fun leaf => leafCount leaf c).getD 0

theorem findLeaf_zero (node : Node (Child 0)) (c : ℕ) : findLeaf 0 node [c] = node.lookup c := rfl

theorem findLeaf_cons {n : ℕ} (node : Node (Child (n + 1))) (c : ℕ) (context : List ℕ) :
    findLeaf (n + 1) node (c :: context)
      = (node.lookup c).bind fun child => findLeaf n child context := rfl

/-- A context of another length has no leaf. -/
theorem findLeaf_eq_none {n : ℕ} {context : List ℕ} (hlen : context.length ≠ n + 1)
    (node : Node (Child n)) : findLeaf n node context = none := by
  induction n generalizing context with
  | zero => match context, hlen with
    | [], _ => rfl
    | [c], hlen => exact absurd rfl hlen
    | _ :: _ :: _, _ => rfl
  | succ n ih => match context, hlen with
    | [], _ => rfl
    | c :: context, hlen =>
      rw [findLeaf_cons]
      cases node.lookup c with
      | none => rfl
      | some child => exact ih (by simpa using hlen) child

theorem findLeaf_of_lookup_none {n : ℕ} {node : Node (Child n)} (h : ∀ x, node.lookup x = none)
    (context : List ℕ) : findLeaf n node context = none := by
  cases n with
  | zero => match context with
    | [] => rfl
    | [x] => exact h x
    | _ :: _ :: _ => rfl
  | succ n => cases context with
    | nil => rfl
    | cons x context => rw [findLeaf_cons, h, Option.bind_none]

/-- A leaf of a tree in order is in order. -/
theorem leafOk_of_findLeaf {n : ℕ} {node : Node (Child n)} (h : ChildOk (n + 1) node)
    {context : List ℕ} {leaf : Leaf} (hfind : findLeaf n node context = some leaf) :
    LeafOk maxGrowths leaf := by
  induction n generalizing context with
  | zero => match context, hfind with
    | [c], hfind => exact h.2 c leaf hfind
  | succ n ih => match context, hfind with
    | c :: context, hfind =>
      obtain ⟨child, hlookup, hfind⟩ := Option.bind_eq_some_iff.mp hfind
      exact ih (h.2 c child hlookup) hfind

theorem nodeInsertWord_zero (weight : ℕ) (node : Node (Child 0)) (c last : ℕ) :
    nodeInsertWord weight 0 node [c, last]
      = (nodeInsert maxGrowths node c).bind fun node =>
          ((node.childAt c : Option Leaf).or (leafNew 0)).bind fun child =>
            (leafInsert maxGrowths child last weight).bind fun child =>
              some (node.setChild c child) := rfl

theorem nodeInsertWord_succ (weight : ℕ) {n : ℕ} (node : Node (Child (n + 1))) (c : ℕ)
    (sequence : List ℕ) :
    nodeInsertWord weight (n + 1) node (c :: sequence)
      = (nodeInsert maxGrowths node c).bind fun node =>
          ((node.childAt c : Option (Node (Child n))).or (nodeNew 0)).bind fun child =>
            (nodeInsertWord weight n child sequence).bind fun child =>
              some (node.setChild c child) := rfl

theorem nodeInsertWord_zero_eq_some {weight c last : ℕ} {node stored : Node (Child 0)}
    {old leaf : Leaf} (hins : nodeInsert maxGrowths node c = some stored)
    (hold : (stored.childAt c : Option Leaf).or (leafNew 0) = some old)
    (hleaf : leafInsert maxGrowths old last weight = some leaf) :
    nodeInsertWord weight 0 node [c, last] = some (stored.setChild c leaf) := by
  rw [nodeInsertWord_zero, hins]
  exact (congrArg (fun child => Option.bind child _) hold).trans
    (congrArg (fun child => Option.bind child _) hleaf)

theorem nodeInsertWord_succ_eq_some {weight n c : ℕ} {sequence : List ℕ}
    {node stored : Node (Child (n + 1))} {old child : Node (Child n)}
    (hins : nodeInsert maxGrowths node c = some stored)
    (hold : (stored.childAt c : Option (Node (Child n))).or (nodeNew 0) = some old)
    (hword : nodeInsertWord weight n old sequence = some child) :
    nodeInsertWord weight (n + 1) node (c :: sequence) = some (stored.setChild c child) := by
  rw [nodeInsertWord_succ, hins]
  exact (congrArg (fun child => Option.bind child _) hold).trans
    (congrArg (fun child => Option.bind child _) hword)

/-- What inserting the gram `context ++ [last]` does: the leaf of the context has the weight added
to one count, and nothing else changes. -/
structure InsertsGram (n weight : ℕ) (node : Node (Child n)) (context : List ℕ) (last : ℕ)
    (node' : Node (Child n)) (leaf : Leaf) : Prop where
  ok : ChildOk (n + 1) node'
  find : ∀ u, findLeaf n node' u = if u = context then some leaf else findLeaf n node u
  count : ∀ x, leafCount leaf x = if x = last
    then (countAfter n node context last + weight) % 2 ^ 32 else countAfter n node context x
  exact : (∀ old, findLeaf n node context = some old → old.Exact) →
    countAfter n node context last + weight < 2 ^ 32 → leaf.Exact

/-- A slot that is stored and set. -/
theorem childOk_setChild {n : ℕ} {node stored : Node (Child n)} {c : ℕ} (hc : c ≤ maxCodepoint)
    (hnode : ChildOk (n + 1) node) (hstores : StoresLike maxGrowths node c stored) {child : Child n}
    (hchild : ChildOk n child) : ChildOk (n + 1) (stored.setChild c child) := by
  refine ⟨hstores.ok.setChild hc hstores.code child, fun x other hother => ?_⟩
  rw [lookup_setChild hstores.code, hstores.lookup] at hother
  by_cases hx : x = c
  · rw [if_pos hx] at hother
    exact Option.some.inj hother ▸ hchild
  · rw [if_neg hx] at hother
    exact hnode.2 x other hother

/-- The leaf of a context of one codepoint, or a new one, has the counts of before. -/
theorem exists_leaf_or_new {node stored : Node (Child 0)} {c : ℕ} (hnode : ChildOk 1 node)
    (hstores : StoresLike maxGrowths node c stored) :
    ∃ old : Leaf, (stored.childAt c : Option Leaf).or (leafNew 0) = some old ∧
      LeafOk maxGrowths old ∧ (∀ x, leafCount old x = countAfter 0 node [c] x) ∧
      ((∀ leaf, findLeaf 0 node [c] = some leaf → leaf.Exact) → old.Exact) := by
  rw [hstores.childAt]
  cases hlookup : node.lookup c with
  | some child =>
    refine ⟨child, rfl, hnode.2 c child hlookup, fun x => ?_, fun h => h child hlookup⟩
    rw [countAfter, findLeaf_zero, hlookup]
    rfl
  | none =>
    obtain ⟨fresh, hfresh, hok, hexact, hzero⟩ := leafNew_spec IsSize.first (by decide)
    refine ⟨fresh, hfresh, hok, fun x => ?_, fun _ => hexact⟩
    rw [hzero, countAfter, findLeaf_zero, hlookup]
    rfl

/-- The node below a codepoint, or a new one, has the leaves of before. -/
theorem exists_node_or_new {n : ℕ} {node stored : Node (Child (n + 1))} {c : ℕ}
    (hnode : ChildOk (n + 2) node) (hstores : StoresLike maxGrowths node c stored) :
    ∃ old : Node (Child n), (stored.childAt c : Option (Node (Child n))).or (nodeNew 0) = some old ∧
      ChildOk (n + 1) old ∧ ∀ u, findLeaf n old u = findLeaf (n + 1) node (c :: u) := by
  rw [hstores.childAt]
  simp only [findLeaf_cons]
  cases hlookup : node.lookup c with
  | some child => exact ⟨child, rfl, hnode.2 c child hlookup, fun u => rfl⟩
  | none =>
    obtain ⟨fresh, hfresh, hok, hnone⟩ := nodeNew_spec (β := Child n) IsSize.first (by decide)
    refine ⟨fresh, hfresh, ⟨hok, fun x child hx => ?_⟩, findLeaf_of_lookup_none hnone⟩
    rw [hnone] at hx
    exact absurd hx (by simp)

theorem findLeaf_setChild {n c : ℕ} {node stored : Node (Child (n + 1))}
    (hstores : StoresLike maxGrowths node c stored) (child : Child (n + 1)) (x : ℕ)
    (u : List ℕ) :
    findLeaf (n + 1) (stored.setChild c child) (x :: u)
      = if x = c then findLeaf n child u else findLeaf (n + 1) node (x :: u) := by
  have hset := lookup_setChild hstores.code child x
  rw [hstores.lookup] at hset
  rw [findLeaf_cons, findLeaf_cons]
  refine (congrArg (fun child => Option.bind child _) hset).trans ?_
  by_cases hx : x = c
  · rw [if_pos hx, if_pos hx]
    rfl
  · rw [if_neg hx, if_neg hx]

/-- **Inserting a gram**, by induction on the layers of nodes. -/
theorem nodeInsertWord_spec (weight : ℕ) {n : ℕ} {node : Node (Child n)}
    (hnode : ChildOk (n + 1) node) {context : List ℕ} (hlen : context.length = n + 1)
    (hcontext : ∀ c ∈ context, c ≤ maxCodepoint) {last : ℕ} (hlast : last ≤ maxCodepoint) :
    ∃ node' leaf, nodeInsertWord weight n node (context ++ [last]) = some node' ∧
      InsertsGram n weight node context last node' leaf := by
  induction n generalizing context with
  | zero =>
    obtain ⟨c, rfl⟩ := List.length_eq_one_iff.mp hlen
    have hc := hcontext c (List.mem_singleton_self c)
    obtain ⟨stored, hins, hstores⟩ := nodeInsert_spec hnode.1 hc
    obtain ⟨old, hold, holdOk, holdCount, holdExact⟩ := exists_leaf_or_new hnode hstores
    obtain ⟨leaf, hleaf, hleafOk, hcount, hexact⟩ := leafInsert_spec holdOk hlast weight
    refine ⟨stored.setChild c leaf, leaf, ?_, childOk_setChild hc hnode hstores hleafOk,
      fun u => ?_, fun x => ?_, fun h hlt => hexact (holdExact h) (by rwa [holdCount])⟩
    · exact nodeInsertWord_zero_eq_some hins hold hleaf
    · by_cases hu : u.length = 1
      · obtain ⟨x, rfl⟩ := List.length_eq_one_iff.mp hu
        have hset := lookup_setChild hstores.code leaf x
        rw [hstores.lookup] at hset
        simp only [List.cons.injEq, and_true]
        exact hset
      · rw [findLeaf_eq_none hu, findLeaf_eq_none hu, if_neg (by rintro rfl; exact hu rfl)]
    · rw [hcount, holdCount, holdCount]
  | succ n ih =>
    match context, hlen with
    | c :: context, hlen =>
      have hc := hcontext c List.mem_cons_self
      obtain ⟨stored, hins, hstores⟩ := nodeInsert_spec hnode.1 hc
      obtain ⟨old, hold, holdOk, holdFind⟩ := exists_node_or_new hnode hstores
      obtain ⟨child, leaf, hword, hchild⟩ := ih holdOk (by simpa using hlen)
        fun d hd => hcontext d (List.mem_cons_of_mem c hd)
      have hcountAfter : ∀ x,
          countAfter n old context x = countAfter (n + 1) node (c :: context) x :=
        fun x => by rw [countAfter, countAfter, holdFind]
      refine ⟨stored.setChild c child, leaf, ?_, childOk_setChild hc hnode hstores hchild.ok,
        fun u => ?_, fun x => ?_, fun h hlt => hchild.exact ?_ (by rwa [hcountAfter])⟩
      · exact nodeInsertWord_succ_eq_some hins hold hword
      · cases u with
        | nil => rfl
        | cons x u =>
          refine (findLeaf_setChild hstores child x u).trans ?_
          by_cases hx : x = c
          · subst hx
            rw [if_pos rfl, hchild.find, holdFind]
            simp only [List.cons.injEq, true_and]
          · rw [if_neg hx, if_neg fun h => hx (List.cons.inj h).1]
      · rw [hchild.count, hcountAfter, hcountAfter]
      · intro old' hold'
        rw [holdFind] at hold'
        exact h old' hold'

end Passgen
