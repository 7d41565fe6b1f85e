import Passgen.Effect.Traced
import Passgen.Markov.Tree

/-!
# Markov/Growth — tables grow, and stop growing

    3 ─▸ 7 ─▸ 17 ─▸ … ─▸ 701819 ─▸ 1403641        collisions end here: past every codepoint

The insertions, with a log of the capacity of every table they allocate.  Each of them is one of the
sizes up to 1403641, so the search for a larger one never reaches the 0 that ends the table; from
the first size, eighteen growths are enough for every insertion, and more of them change nothing.
After any sequence of insertions every codepoint is in the slot of its residue, with all its counts
or its last child (`tables_grow`).
-/

namespace Passgen

open Effect Effect.Traced

/-! ## The insertions, with a log -/

/-- `passgen_markov_leaf_new`. -/
def leafNewTraced (sizeIndex : ℕ) : Traced ℕ Leaf := do
  emit (markovSize sizeIndex)
  match leafNew sizeIndex with
  | some leaf => pure leaf
  | none => stuck

/-- `passgen_markov_leaf_realloc`, over the insertion it uses. -/
def leafReallocTraced (insert : Leaf → ℕ → ℕ → Traced ℕ Leaf) (leaf : Leaf) : Traced ℕ Leaf := do
  let new ← leafNewTraced (sizeIndexOf leaf.capacity + 1)
  (List.range leaf.capacity).foldlM (fun new i =>
    if leaf.count i ≠ 0 then insert new (leaf.codepoint i) (leaf.count i) else pure new) new

/-- `passgen_markov_leaf_insert`. -/
def leafInsertTraced : ℕ → Leaf → ℕ → ℕ → Traced ℕ Leaf
  | growths, leaf, codepoint, weight =>
    if weight = 0 then pure leaf
    else if leaf.Collides codepoint then
      match growths with
      | 0 => stuck
      | growths + 1 => do
        let leaf ← leafReallocTraced (leafInsertTraced growths) leaf
        leafInsertTraced growths leaf codepoint weight
    else pure (leaf.bump codepoint weight)

variable {β : Type}

/-- `passgen_markov_node_new`. -/
def nodeNewTraced (sizeIndex : ℕ) : Traced ℕ (Node β) := do
  emit (markovSize sizeIndex)
  match nodeNew sizeIndex with
  | some node => pure node
  | none => stuck

/-- `passgen_markov_node_realloc`, over the insertion it uses. -/
def nodeReallocTraced (insert : Node β → ℕ → Traced ℕ (Node β)) (node : Node β) :
    Traced ℕ (Node β) := do
  let new ← nodeNewTraced (sizeIndexOf node.capacity + 1)
  (List.range node.capacity).foldlM (fun new i =>
    match node.child i with
    | some child => do
      let new ← insert new (node.codepoint i)
      if (new.childAt (node.codepoint i)).isSome then stuck
      else pure (new.setChild (node.codepoint i) child)
    | none => pure new) new

/-- `passgen_markov_node_insert`. -/
def nodeInsertTraced : ℕ → Node β → ℕ → Traced ℕ (Node β)
  | growths, node, codepoint =>
    if node.Collides codepoint then
      match growths with
      | 0 => stuck
      | growths + 1 => do
        let node ← nodeReallocTraced (nodeInsertTraced growths) node
        nodeInsertTraced growths node codepoint
    else pure { node with
      codepoint := Function.update node.codepoint (codepoint % node.capacity) codepoint }

/-- A new leaf, and insertions into it one after the other. -/
def leafRun (growths : ℕ) (calls : List (ℕ × ℕ)) : Traced ℕ Leaf := do
  let leaf ← leafNewTraced 0
  calls.foldlM (fun leaf call => leafInsertTraced growths leaf call.1 call.2) leaf

/-- An insertion, and a child attached to the codepoint. -/
def nodeAttachTraced (growths : ℕ) (node : Node β) (call : ℕ × β) : Traced ℕ (Node β) := do
  let node ← nodeInsertTraced growths node call.1
  pure (node.setChild call.1 call.2)

/-- A new node, and insertions into it one after the other, each of which attaches a child. -/
def nodeRun (growths : ℕ) (calls : List (ℕ × β)) : Traced ℕ (Node β) := do
  let node ← nodeNewTraced 0
  calls.foldlM (nodeAttachTraced growths) node

/-- A capacity a table can be allocated with: not the 0 that ends the sizes, and none past the first
one that is larger than every codepoint. -/
def Allocates (capacity : ℕ) : Prop := 0 < capacity ∧ capacity ≤ 1403641

/-! ## The same answers -/

theorem answer_leafNewTraced (sizeIndex : ℕ) :
    (leafNewTraced sizeIndex).answer = leafNew sizeIndex := by
  rw [leafNewTraced, answer_bind, answer_emit, Option.bind_some]
  cases leafNew sizeIndex <;> rfl

theorem answer_leafReallocTraced {insert : Leaf → ℕ → ℕ → Traced ℕ Leaf}
    {insert' : Leaf → ℕ → ℕ → Option Leaf}
    (h : ∀ leaf c weight, (insert leaf c weight).answer = insert' leaf c weight) (leaf : Leaf) :
    (leafReallocTraced insert leaf).answer = leafRealloc insert' leaf := by
  rw [leafReallocTraced, answer_bind, answer_leafNewTraced, leafRealloc]
  refine congrArg _ (funext fun new => answer_foldlM (fun new i => ?_) _ _)
  split
  · exact h _ _ _
  · rfl

theorem answer_leafInsertTraced (growths : ℕ) (leaf : Leaf) (c weight : ℕ) :
    (leafInsertTraced growths leaf c weight).answer = leafInsert growths leaf c weight := by
  induction growths generalizing leaf c weight with
  | zero =>
    unfold leafInsertTraced leafInsert
    split
    · rfl
    · split <;> rfl
  | succ growths ih =>
    unfold leafInsertTraced leafInsert
    split
    · rfl
    · split
      · rw [answer_bind, answer_leafReallocTraced ih]
        exact congrArg _ (funext fun new => ih new c weight)
      · rfl

theorem answer_nodeNewTraced (sizeIndex : ℕ) :
    (nodeNewTraced sizeIndex : Traced ℕ (Node β)).answer = nodeNew sizeIndex := by
  rw [nodeNewTraced, answer_bind, answer_emit, Option.bind_some]
  cases nodeNew (β := β) sizeIndex <;> rfl

theorem answer_nodeReallocTraced {insert : Node β → ℕ → Traced ℕ (Node β)}
    {insert' : Node β → ℕ → Option (Node β)}
    (h : ∀ node c, (insert node c).answer = insert' node c) (node : Node β) :
    (nodeReallocTraced insert node).answer = nodeRealloc insert' node := by
  rw [nodeReallocTraced, answer_bind, answer_nodeNewTraced, nodeRealloc]
  refine congrArg _ (funext fun new => answer_foldlM (fun new i => ?_) _ _)
  cases node.child i with
  | none => rfl
  | some child =>
    simp only [answer_bind, h]
    refine congrArg _ (funext fun new => ?_)
    split <;> rfl

theorem answer_nodeInsertTraced (growths : ℕ) (node : Node β) (c : ℕ) :
    (nodeInsertTraced growths node c).answer = nodeInsert growths node c := by
  induction growths generalizing node c with
  | zero =>
    unfold nodeInsertTraced nodeInsert
    split <;> rfl
  | succ growths ih =>
    unfold nodeInsertTraced nodeInsert
    split
    · rw [answer_bind, answer_nodeReallocTraced ih]
      exact congrArg _ (funext fun new => ih new c)
    · rfl

/-! ## What is allocated -/

theorem IsSize.allocates {growths capacity : ℕ} (h : IsSize growths capacity) :
    Allocates capacity := ⟨h.pos, h.le⟩

theorem all_leafNewTraced {growths sizeIndex : ℕ} (h : IsSize growths (markovSize sizeIndex)) :
    (leafNewTraced sizeIndex).All Allocates := by
  have hlog : (emit (markovSize sizeIndex)).All Allocates := all_emit_iff.mpr h.allocates
  refine hlog.bind fun _ _ => ?_
  cases leafNew sizeIndex with
  | some leaf => exact all_pure leaf
  | none => exact all_stuck

/-- A codepoint that counts is one that was inserted. -/
theorem LeafOk.codepoint_le {growths : ℕ} {leaf : Leaf} (h : LeafOk growths leaf) {i : ℕ}
    (hi : leaf.count i ≠ 0) : leaf.codepoint i ≤ maxCodepoint :=
  h.keys _ (leaf.count i) (h.placed.get (i := i) (by simp only [Leaf.view, if_neg hi]))

/-- The counts that move into a larger leaf, by an insertion that allocates as it should. -/
theorem all_leafReallocTraced {growths : ℕ} {leaf : Leaf} (h : LeafOk (growths + 1) leaf)
    (hcapacity : leaf.capacity ≤ maxCodepoint)
    (hinsert : ∀ {new : Leaf}, LeafOk growths new → ∀ {c : ℕ}, c ≤ maxCodepoint →
      ∀ weight, (leafInsertTraced growths new c weight).All Allocates) :
    (leafReallocTraced (leafInsertTraced growths) leaf).All Allocates := by
  obtain ⟨_, hg, hne, hsize⟩ := h.size.next hcapacity
  obtain rfl := Nat.succ.inj hg
  obtain ⟨fresh, hfresh, hok, -⟩ := leafNew_spec hsize hne
  have hanswer := (answer_leafNewTraced _).trans hfresh
  refine (all_leafNewTraced hsize).bind_of_answer hanswer ?_
  -- the leaf that is filled stays in order, whatever of the old one has moved
  refine all_foldlM (I := LeafOk growths) (fun i _ new hnew => ?_) hok
  by_cases hi : leaf.count i = 0
  · rw [if_neg (not_not.mpr hi)]
    exact ⟨all_pure new, fun new' hnew' => Option.some.inj hnew' ▸ hnew⟩
  · rw [if_pos hi]
    refine ⟨hinsert hnew (h.codepoint_le hi) _, fun new' hnew' => ?_⟩
    obtain ⟨_, hins, hok', -⟩ := leafInsert_spec hnew (h.codepoint_le hi) (leaf.count i)
    rw [answer_leafInsertTraced, hins, Option.some.injEq] at hnew'
    exact hnew' ▸ hok'

/-- **A leaf that is inserted into allocates tables of the sizes only**, in all the rebuilds it
nests. -/
theorem all_leafInsertTraced {growths : ℕ} {leaf : Leaf} (h : LeafOk growths leaf) {c : ℕ}
    (hc : c ≤ maxCodepoint) (weight : ℕ) :
    (leafInsertTraced growths leaf c weight).All Allocates := by
  induction growths generalizing leaf c weight with
  | zero =>
    unfold leafInsertTraced
    split
    · exact all_pure leaf
    · split
      · exact all_stuck
      · exact all_pure _
  | succ growths ih =>
    unfold leafInsertTraced
    split
    · exact all_pure leaf
    split
    · rename_i hcollides
      have hcapacity := h.capacity_le hc hcollides
      obtain ⟨new, hnew, hok, -⟩ := leafRealloc_spec h hcapacity fun new c weight hnew hc =>
        leafInsert_spec hnew hc weight
      have hanswer := (answer_leafReallocTraced (answer_leafInsertTraced growths) leaf).trans hnew
      exact (all_leafReallocTraced h hcapacity ih).bind_of_answer hanswer (ih hok hc weight)
    · exact all_pure _

theorem all_nodeNewTraced {growths sizeIndex : ℕ} (h : IsSize growths (markovSize sizeIndex)) :
    (nodeNewTraced sizeIndex : Traced ℕ (Node β)).All Allocates := by
  have hlog : (emit (markovSize sizeIndex)).All Allocates := all_emit_iff.mpr h.allocates
  refine hlog.bind fun _ _ => ?_
  cases nodeNew (β := β) sizeIndex with
  | some node => exact all_pure node
  | none => exact all_stuck

/-- A codepoint with a child is one that was inserted, and the child is its own. -/
theorem NodeOk.lookup_codepoint {growths : ℕ} {node : Node β} (h : NodeOk growths node) {i : ℕ}
    {child : β} (hi : node.child i = some child) :
    node.lookup (node.codepoint i) = some child := by
  rw [← get_view_node]
  exact h.placed.get (i := i) (by simp only [Node.view, hi, Option.map_some])

/-- The children that move into a larger node, by an insertion that allocates as it should. -/
theorem all_nodeReallocTraced {growths : ℕ} {node : Node β} (h : NodeOk (growths + 1) node)
    (hcapacity : node.capacity ≤ maxCodepoint)
    (hinsert : ∀ {new : Node β}, NodeOk growths new → ∀ {c : ℕ}, c ≤ maxCodepoint →
      (nodeInsertTraced growths new c).All Allocates) :
    (nodeReallocTraced (nodeInsertTraced growths) node).All Allocates := by
  obtain ⟨_, hg, hne, hsize⟩ := h.size.next hcapacity
  obtain rfl := Nat.succ.inj hg
  obtain ⟨fresh, hfresh, hok, -⟩ := nodeNew_spec (β := β) hsize hne
  have hanswer := (answer_nodeNewTraced _).trans hfresh
  refine (all_nodeNewTraced hsize).bind_of_answer hanswer ?_
  refine all_foldlM (I := NodeOk growths) (fun i _ new hnew => ?_) hok
  cases hchild : node.child i with
  | none => exact ⟨all_pure new, fun new' hnew' => Option.some.inj hnew' ▸ hnew⟩
  | some child =>
    have hkey := h.keys _ _ (h.lookup_codepoint hchild)
    obtain ⟨stored, hins, hstores⟩ := nodeInsert_spec hnew hkey
    constructor
    · refine (hinsert hnew hkey).bind fun stored _ => ?_
      split
      · exact all_stuck
      · exact all_pure _
    · intro new' hnew'
      simp only [answer_bind, answer_nodeInsertTraced, hins, Option.bind_some] at hnew'
      split at hnew'
      · exact absurd hnew' (by simp)
      · exact Option.some.inj hnew' ▸ hstores.ok.setChild hkey hstores.code child

/-- **A node that is inserted into allocates tables of the sizes only.** -/
theorem all_nodeInsertTraced {growths : ℕ} {node : Node β} (h : NodeOk growths node) {c : ℕ}
    (hc : c ≤ maxCodepoint) : (nodeInsertTraced growths node c).All Allocates := by
  induction growths generalizing node c with
  | zero =>
    unfold nodeInsertTraced
    split
    · exact all_stuck
    · exact all_pure _
  | succ growths ih =>
    unfold nodeInsertTraced
    split
    · rename_i hcollides
      have hcapacity := h.capacity_le hc hcollides
      obtain ⟨new, hnew, hok, -⟩ := nodeRealloc_spec h hcapacity fun new c hnew hc =>
        nodeInsert_spec hnew hc
      have hanswer := (answer_nodeReallocTraced (answer_nodeInsertTraced growths) node).trans hnew
      exact (all_nodeReallocTraced h hcapacity ih).bind_of_answer hanswer (ih hok hc)
    · exact all_pure _

/-! ## Growths to spare -/

/-- More growths change nothing about an insertion that returns. -/
theorem leafInsert_mono {growths growths' : ℕ} (hle : growths ≤ growths') {leaf leaf' : Leaf}
    {c weight : ℕ} (h : leafInsert growths leaf c weight = some leaf') :
    leafInsert growths' leaf c weight = some leaf' := by
  induction growths generalizing growths' leaf c weight leaf' with
  | zero =>
    by_cases hweight : weight = 0
    · rwa [hweight, leafInsert_zero] at h ⊢
    by_cases hcollides : leaf.Collides c
    · exact absurd h (by simp [leafInsert, hweight, hcollides])
    · rwa [leafInsert_bump _ hweight hcollides] at h ⊢
  | succ growths ih =>
    obtain ⟨spare, rfl⟩ : ∃ k, growths' = k + 1 := ⟨growths' - 1, by omega⟩
    have hmono : ∀ new i c weight new', (if i ≠ 0 then leafInsert growths new c weight
        else some new) = some new' → (if i ≠ 0 then leafInsert spare new c weight
        else some new) = some new' := by
      intro new i c weight new' hnew
      split at hnew
      · rw [if_pos ‹_›]
        exact ih (Nat.le_of_succ_le_succ hle) hnew
      · rwa [if_neg ‹_›]
    by_cases hweight : weight = 0
    · rwa [hweight, leafInsert_zero] at h ⊢
    by_cases hcollides : leaf.Collides c
    · rw [leafInsert_grow _ hweight hcollides] at h ⊢
      obtain ⟨new, hnew, hins⟩ := Option.bind_eq_some_iff.mp h
      refine Option.bind_eq_some_iff.mpr ⟨new, ?_, ih (Nat.le_of_succ_le_succ hle) hins⟩
      obtain ⟨fresh, hfresh, hfold⟩ := Option.bind_eq_some_iff.mp hnew
      refine Option.bind_eq_some_iff.mpr ⟨fresh, hfresh, ?_⟩
      exact Residue.foldlM_mono (fun new i new' => hmono new _ _ _ new') hfold
    · rwa [leafInsert_bump _ hweight hcollides] at h ⊢

theorem nodeInsert_mono {growths growths' : ℕ} (hle : growths ≤ growths') {node node' : Node β}
    {c : ℕ} (h : nodeInsert growths node c = some node') :
    nodeInsert growths' node c = some node' := by
  induction growths generalizing growths' node c node' with
  | zero =>
    by_cases hcollides : node.Collides c
    · exact absurd h (by simp [nodeInsert, hcollides])
    · rwa [nodeInsert_here _ hcollides] at h ⊢
  | succ growths ih =>
    obtain ⟨spare, rfl⟩ : ∃ k, growths' = k + 1 := ⟨growths' - 1, by omega⟩
    by_cases hcollides : node.Collides c
    · rw [nodeInsert_grow _ hcollides] at h ⊢
      obtain ⟨new, hnew, hins⟩ := Option.bind_eq_some_iff.mp h
      refine Option.bind_eq_some_iff.mpr ⟨new, ?_, ih (Nat.le_of_succ_le_succ hle) hins⟩
      obtain ⟨fresh, hfresh, hfold⟩ := Option.bind_eq_some_iff.mp hnew
      refine Option.bind_eq_some_iff.mpr ⟨fresh, hfresh, ?_⟩
      refine Residue.foldlM_mono (fun new i new' hstep => ?_) hfold
      cases hchild : node.child i with
      | none => rwa [hchild] at hstep
      | some child =>
        simp only [hchild] at hstep ⊢
        obtain ⟨stored, hstored, hset⟩ := Option.bind_eq_some_iff.mp hstep
        exact Option.bind_eq_some_iff.mpr ⟨stored, ih (Nat.le_of_succ_le_succ hle) hstored, hset⟩
    · rwa [nodeInsert_here _ hcollides] at h ⊢

/-! ## Any sequence of insertions -/

/-- What was inserted for a codepoint. -/
def accumulated (calls : List (ℕ × ℕ)) (c : ℕ) : ℕ :=
  ((calls.filter fun call => call.1 = c).map Prod.snd).sum

theorem accumulated_append (calls : List (ℕ × ℕ)) (call : ℕ × ℕ) (c : ℕ) :
    accumulated (calls ++ [call]) c = accumulated calls c + if call.1 = c then call.2 else 0 := by
  rw [accumulated, List.filter_append, List.map_append, List.sum_append, accumulated]
  split <;> simp [*]

theorem accumulated_le (calls : List (ℕ × ℕ)) (c : ℕ) :
    accumulated calls c ≤ (calls.map Prod.snd).sum :=
  (List.filter_sublist.map Prod.snd).sum_le_sum fun _ _ => Nat.zero_le _

theorem le_accumulated {calls : List (ℕ × ℕ)} {call : ℕ × ℕ} (hmem : call ∈ calls) :
    call.2 ≤ accumulated calls call.1 :=
  List.le_sum_of_mem (List.mem_map_of_mem (List.mem_filter.mpr ⟨hmem, by simp⟩))

theorem leafRun_append (growths : ℕ) (calls : List (ℕ × ℕ)) (call : ℕ × ℕ) :
    leafRun growths (calls ++ [call]) =
      leafRun growths calls >>= fun leaf => leafInsertTraced growths leaf call.1 call.2 := by
  simp only [leafRun, List.foldlM_append, List.foldlM_cons, List.foldlM_nil, bind_pure, bind_assoc]

theorem nodeRun_append (growths : ℕ) (calls : List (ℕ × β)) (call : ℕ × β) :
    nodeRun growths (calls ++ [call]) =
      nodeRun growths calls >>= fun node => nodeAttachTraced growths node call := by
  simp only [nodeRun, List.foldlM_append, List.foldlM_cons, List.foldlM_nil, bind_pure, bind_assoc]

/-- **A leaf after any sequence of insertions.** -/
theorem leafRun_spec {growths : ℕ} (hgrowths : lastSizeIndex ≤ growths) {calls : List (ℕ × ℕ)}
    (hcalls : ∀ call ∈ calls, call.1 ≤ maxCodepoint) (hsum : (calls.map Prod.snd).sum < 2 ^ 32) :
    ∃ leaf, (leafRun growths calls).answer = some leaf ∧ (leafRun growths calls).All Allocates ∧
      LeafOk growths leaf ∧ ∀ c, leafCount leaf c = accumulated calls c := by
  induction calls using List.reverseRecOn with
  | nil =>
    have hsize : IsSize growths (markovSize 0) := ⟨0, Nat.zero_le _, rfl, by simpa using hgrowths⟩
    obtain ⟨leaf, hnew, hok, -, hzero⟩ := leafNew_spec hsize (by decide)
    refine ⟨leaf, ?_, ?_, hok, hzero⟩
    · rw [leafRun, answer_bind, answer_leafNewTraced, hnew]
      rfl
    · exact (all_leafNewTraced hsize).bind fun leaf _ => all_pure leaf
  | append_singleton calls call ih =>
    obtain ⟨hcalls, hcall⟩ := List.forall_mem_append.mp hcalls
    have hc := hcall call (List.mem_singleton_self call)
    rw [List.map_append, List.sum_append] at hsum
    obtain ⟨leaf, hrun, hall, hok, hcount⟩ := ih hcalls (by omega)
    obtain ⟨leaf', hins, hok', hcount', -⟩ := leafInsert_spec hok hc call.2
    rw [leafRun_append]
    refine ⟨leaf', ?_, hall.bind_of_answer hrun (all_leafInsertTraced hok hc call.2), hok',
      fun c => ?_⟩
    · rw [answer_bind, hrun, Option.bind_some, answer_leafInsertTraced, hins]
    · rw [hcount', hcount, hcount, accumulated_append]
      by_cases hx : c = call.1
      · subst hx
        have hle := accumulated_le calls call.1
        rw [if_pos rfl, if_pos rfl, Nat.mod_eq_of_lt]
        simp only [List.map_cons, List.map_nil, List.sum_singleton] at hsum
        omega
      · rw [if_neg hx, if_neg (Ne.symm hx), Nat.add_zero]

/-- **A node after any sequence of insertions.** -/
theorem nodeRun_spec {growths : ℕ} (hgrowths : lastSizeIndex ≤ growths) {calls : List (ℕ × β)}
    (hcalls : ∀ call ∈ calls, call.1 ≤ maxCodepoint) :
    ∃ node, (nodeRun growths calls).answer = some node ∧ (nodeRun growths calls).All Allocates ∧
      NodeOk growths node ∧ ∀ c, node.lookup c = calls.reverse.lookup c := by
  induction calls using List.reverseRecOn with
  | nil =>
    have hsize : IsSize growths (markovSize 0) := ⟨0, Nat.zero_le _, rfl, by simpa using hgrowths⟩
    obtain ⟨node, hnew, hok, hnone⟩ := nodeNew_spec (β := β) hsize (by decide)
    refine ⟨node, ?_, ?_, hok, hnone⟩
    · rw [nodeRun, answer_bind, answer_nodeNewTraced, hnew]
      rfl
    · exact (all_nodeNewTraced hsize).bind fun node _ => all_pure node
  | append_singleton calls call ih =>
    obtain ⟨hcalls, hcall⟩ := List.forall_mem_append.mp hcalls
    have hc := hcall call (List.mem_singleton_self call)
    obtain ⟨node, hrun, hall, hok, hlookup⟩ := ih hcalls
    obtain ⟨stored, hins, hstores⟩ := nodeInsert_spec hok hc
    rw [nodeRun_append]
    have hattach : (nodeAttachTraced growths node call).All Allocates :=
      (all_nodeInsertTraced hok hc).bind fun stored _ => all_pure _
    refine ⟨stored.setChild call.1 call.2, ?_, hall.bind_of_answer hrun hattach,
      hstores.ok.setChild hc hstores.code call.2, fun c => ?_⟩
    · rw [answer_bind, hrun, Option.bind_some, nodeAttachTraced, answer_bind,
        answer_nodeInsertTraced, hins]
      rfl
    · rw [lookup_setChild hstores.code, hstores.lookup, hlookup, List.reverse_append,
        List.reverse_singleton, List.singleton_append, List.lookup_cons]
      by_cases hx : c = call.1
      · rw [if_pos hx, beq_iff_eq.mpr hx]
      · rw [if_neg hx, beq_eq_false_iff_ne.mpr hx]

theorem answer_leafRun_mono {growths growths' : ℕ} (hle : growths ≤ growths')
    {calls : List (ℕ × ℕ)} {leaf : Leaf} (h : (leafRun growths calls).answer = some leaf) :
    (leafRun growths' calls).answer = some leaf := by
  have hanswer : ∀ growths fresh,
      (calls.foldlM (fun leaf call => leafInsertTraced growths leaf call.1 call.2) fresh).answer =
        calls.foldlM (fun leaf call => leafInsert growths leaf call.1 call.2) fresh :=
    fun growths => answer_foldlM
      (fun leaf call => answer_leafInsertTraced growths leaf call.1 call.2) calls
  rw [leafRun, answer_bind] at h ⊢
  obtain ⟨fresh, hfresh, hfold⟩ := Option.bind_eq_some_iff.mp h
  refine Option.bind_eq_some_iff.mpr ⟨fresh, hfresh, ?_⟩
  rw [hanswer] at hfold ⊢
  exact Residue.foldlM_mono (fun _ _ _ hstep => leafInsert_mono hle hstep) hfold

theorem answer_nodeRun_mono {growths growths' : ℕ} (hle : growths ≤ growths')
    {calls : List (ℕ × β)} {node : Node β} (h : (nodeRun growths calls).answer = some node) :
    (nodeRun growths' calls).answer = some node := by
  have hanswer : ∀ growths fresh, (calls.foldlM (nodeAttachTraced growths) fresh).answer =
      calls.foldlM (fun node call =>
        (nodeInsert growths node call.1).map fun node => node.setChild call.1 call.2) fresh := by
    refine fun growths => answer_foldlM (fun node call => ?_) calls
    rw [nodeAttachTraced, answer_bind, answer_nodeInsertTraced, Option.map_eq_bind]
    rfl
  rw [nodeRun, answer_bind] at h ⊢
  obtain ⟨fresh, hfresh, hfold⟩ := Option.bind_eq_some_iff.mp h
  refine Option.bind_eq_some_iff.mpr ⟨fresh, hfresh, ?_⟩
  rw [hanswer] at hfold ⊢
  refine Residue.foldlM_mono (fun node call node' hstep => ?_) hfold
  obtain ⟨stored, hstored, rfl⟩ := Option.map_eq_some_iff.mp hstep
  rw [nodeInsert_mono hle hstored, Option.map_some]

theorem codepoint_of_leafCount {leaf : Leaf} {c : ℕ} (h : leafCount leaf c ≠ 0) :
    leaf.codepoint (c % leaf.capacity) = c := by
  by_contra hne
  exact h (if_neg hne)

theorem codepoint_of_lookup {node : Node β} {c : ℕ} (h : node.lookup c ≠ none) :
    node.codepoint (c % node.capacity) = c := by
  by_contra hne
  exact h (if_neg hne)

/-- **The tables grow, and stop growing.**  A sequence of insertions of codepoints into a new leaf,
with positive weights and a total below `2 ^ 32`, and one of insertions into a new node that attach
children: with enough growths both return, always the same; no table they allocate is past 1403641;
and every codepoint is in the slot of its residue, with all that was inserted for it or the last
child it was given. -/
theorem tables_grow :
    (∀ calls : List (ℕ × ℕ), (∀ call ∈ calls, call.1 ≤ maxCodepoint ∧ 0 < call.2) →
      (calls.map Prod.snd).sum < 2 ^ 32 →
        ∃ leaf, ∀ growths, lastSizeIndex ≤ growths →
          (leafRun growths calls).All Allocates ∧ (leafRun growths calls).answer = some leaf ∧
          ∀ call ∈ calls, leaf.codepoint (call.1 % leaf.capacity) = call.1 ∧
            leaf.count (call.1 % leaf.capacity) = accumulated calls call.1) ∧
    ∀ calls : List (ℕ × β), (∀ call ∈ calls, call.1 ≤ maxCodepoint) →
      ∃ node, ∀ growths, lastSizeIndex ≤ growths →
        (nodeRun growths calls).All Allocates ∧ (nodeRun growths calls).answer = some node ∧
        ∀ call ∈ calls, node.codepoint (call.1 % node.capacity) = call.1 ∧
          node.childAt call.1 = calls.reverse.lookup call.1 := by
  constructor
  · intro calls hcalls hsum
    have hkeys : ∀ call ∈ calls, call.1 ≤ maxCodepoint := fun call hmem => (hcalls call hmem).1
    obtain ⟨leaf, hrun, -, -, hcount⟩ := leafRun_spec le_rfl hkeys hsum
    refine ⟨leaf, fun growths hgrowths => ⟨?_, answer_leafRun_mono hgrowths hrun, ?_⟩⟩
    · obtain ⟨_, -, hall, -⟩ := leafRun_spec hgrowths hkeys hsum
      exact hall
    · intro call hmem
      have hpos : leafCount leaf call.1 ≠ 0 := by
        rw [hcount]
        exact ((hcalls call hmem).2.trans_le (le_accumulated hmem)).ne'
      have hcode := codepoint_of_leafCount hpos
      refine ⟨hcode, ?_⟩
      rw [← hcount, leafCount, if_pos hcode]
  · intro calls hkeys
    obtain ⟨node, hrun, -, -, hlookup⟩ := nodeRun_spec le_rfl hkeys
    refine ⟨node, fun growths hgrowths => ⟨?_, answer_nodeRun_mono hgrowths hrun, ?_⟩⟩
    · obtain ⟨_, -, hall, -⟩ := nodeRun_spec hgrowths hkeys
      exact hall
    · intro call hmem
      have hsome : node.lookup call.1 ≠ none := by
        rw [hlookup]
        intro hnone
        have hother := List.lookup_eq_none_iff.mp hnone call (List.mem_reverse.mpr hmem)
        exact absurd hother (by simp)
      have hcode := codepoint_of_lookup hsome
      refine ⟨hcode, ?_⟩
      rw [← hlookup, Node.lookup, if_pos hcode]

/-- Zero and three collide in the first size and not in the second one. -/
theorem tables_grow_three :
    (∃ leaf, (leafRun 18 [(0, 1), (3, 2), (0, 5)]).answer = some leaf ∧
        leaf.count (0 % leaf.capacity) = 6) ∧
      ∃ node, (nodeRun 18 [(0, true), (3, true), (0, false)]).answer = some node ∧
        node.childAt 0 = some false := by
  obtain ⟨leaf, hleaf⟩ :=
    (tables_grow (β := Bool)).1 [(0, 1), (3, 2), (0, 5)] (by decide) (by decide)
  obtain ⟨node, hnode⟩ := (tables_grow (β := Bool)).2 [(0, true), (3, true), (0, false)] (by decide)
  obtain ⟨-, hleafRun, hcounts⟩ := hleaf 18 le_rfl
  obtain ⟨-, hnodeRun, hchildren⟩ := hnode 18 le_rfl
  exact ⟨⟨leaf, hleafRun, (hcounts (0, 1) (by decide)).2⟩,
    ⟨node, hnodeRun, (hchildren (0, true) (by decide)).2⟩⟩

end Passgen
