import Mathlib.Algebra.BigOperators.Group.Finset.Basic
import Mathlib.Algebra.BigOperators.Ring.Finset
import Mathlib.Data.List.Basic
import Mathlib.Tactic.Common
import Passgen.Generate.Select
import Passgen.Generate.Walk

/-!
# Markov/Weights — the weight of a sequence

    0 0 a b 0     grams   0 0 a    0 a b    a b 0
                contexts  0 0      0 a      a b

Along a sequence the weights of its grams are multiplied, and so are those of their contexts.  The
total of a leaf is the weight of its context: each draw below it chooses a gram by its weight.
-/

namespace Passgen

/-- The weight of the grams after a context. -/
def contextWeight (level : ℕ) (words : List (List ℕ × ℕ)) (context : List ℕ) : ℕ :=
  (words.map fun p =>
    p.2 * (windows (level + 1) (padded level p.1)).countP fun gram => gram.take level = context).sum

/-- The weights of the grams of a sequence. -/
def weightAlong (level : ℕ) (words : List (List ℕ × ℕ)) (seq : List ℕ) : ℕ :=
  ((windows (level + 1) seq).map (gramWeight level words)).prod

/-- The weights of their contexts. -/
def totalAlong (level : ℕ) (words : List (List ℕ × ℕ)) (seq : List ℕ) : ℕ :=
  ((windows (level + 1) seq).map fun gram => contextWeight level words (gram.take level)).prod

variable {level : ℕ} {words : List (List ℕ × ℕ)}

/-! ## One more element -/

theorem windows_replicate (level c : ℕ) : windows (level + 1) (List.replicate level c) = [] := by
  rw [windows, List.length_replicate, Nat.sub_self]
  rfl

theorem length_walkContext {seq : List ℕ} (hlen : level ≤ seq.length) :
    (walkContext level seq).length = level := by
  rw [walkContext, List.length_drop]
  omega

theorem weightAlong_replicate (level : ℕ) (words : List (List ℕ × ℕ)) :
    weightAlong level words (List.replicate level 0) = 1 := by
  rw [weightAlong, windows_replicate]
  rfl

theorem totalAlong_replicate (level : ℕ) (words : List (List ℕ × ℕ)) :
    totalAlong level words (List.replicate level 0) = 1 := by
  rw [totalAlong, windows_replicate]
  rfl

theorem weightAlong_concat {seq : List ℕ} (hlen : level ≤ seq.length) (c : ℕ) :
    weightAlong level words (seq ++ [c])
      = weightAlong level words seq * gramWeight level words (walkContext level seq ++ [c]) := by
  rw [weightAlong, windows_concat hlen, List.map_append, List.prod_append, List.map_singleton,
    List.prod_singleton]
  rfl

theorem totalAlong_concat {seq : List ℕ} (hlen : level ≤ seq.length) (c : ℕ) :
    totalAlong level words (seq ++ [c])
      = totalAlong level words seq * contextWeight level words (walkContext level seq) := by
  rw [totalAlong, windows_concat hlen, List.map_append, List.prod_append, List.map_singleton,
    List.prod_singleton]
  refine congrArg (totalAlong level words seq * contextWeight level words ·) ?_
  exact List.take_left' (length_walkContext hlen)

/-- A sequence with a gram that has no weight has none, however it goes on. -/
theorem weightAlong_append_eq_zero {seq : List ℕ} (hlen : level ≤ seq.length)
    (hzero : weightAlong level words seq = 0) (rest : List ℕ) :
    weightAlong level words (seq ++ rest) = 0 := by
  induction rest generalizing seq with
  | nil => rwa [List.append_nil]
  | cons c rest ih =>
    have hsplit : seq ++ c :: rest = seq ++ [c] ++ rest := by rw [List.append_assoc]; rfl
    rw [hsplit]
    refine ih (by rw [List.length_append]; omega) ?_
    rw [weightAlong_concat hlen, hzero, Nat.zero_mul]

/-! ## Contexts -/

/-- Among grams of one length, those after a context are told apart by their last element. -/
theorem sum_count_eq_countP {n : ℕ} {grams : List (List ℕ)}
    (hgrams : ∀ gram ∈ grams, gram.length = level + 1 ∧ ∀ c ∈ gram, c < n) (context : List ℕ) :
    ∑ c ∈ Finset.range n, grams.count (context ++ [c])
      = grams.countP fun gram => gram.take level = context := by
  induction grams with
  | nil => exact Finset.sum_const_zero
  | cons gram grams ih =>
    obtain ⟨hgram, hrest⟩ := List.forall_mem_cons.mp hgrams
    obtain ⟨u, c, rfl⟩ : ∃ u c, gram = u ++ [c] :=
      ⟨_, _, (List.dropLast_append_getLast (List.ne_nil_of_length_eq_add_one hgram.1)).symm⟩
    have hu : u.length = level := by
      have := hgram.1
      rw [List.length_append, List.length_singleton] at this
      omega
    have hc : c ∈ Finset.range n :=
      Finset.mem_range.mpr (hgram.2 c (List.mem_append_right u (List.mem_singleton_self c)))
    have hsingle : ∑ d ∈ Finset.range n, (if u ++ [c] = context ++ [d] then 1 else 0)
        = if u = context then 1 else 0 := by
      have heq : ∀ d, u ++ [c] = context ++ [d] ↔ c = d ∧ u = context := by
        intro d
        rw [List.append_singleton_inj, and_comm]
      simp only [heq, ite_and]
      rw [Finset.sum_ite_eq, if_pos hc]
    simp only [List.count_cons, beq_iff_eq, Finset.sum_add_distrib, hsingle, ih hrest,
      List.countP_cons, List.take_left' hu, decide_eq_true_eq]

/-- **The weight of a context** is that of the grams after it. -/
theorem sum_gramWeight (hwords : ∀ p ∈ words, ∀ c ∈ p.1, c ≤ maxCodepoint) (context : List ℕ) :
    ∑ c ∈ Finset.range (maxCodepoint + 1), gramWeight level words (context ++ [c])
      = contextWeight level words context := by
  induction words with
  | nil => exact Finset.sum_const_zero
  | cons p words ih =>
    obtain ⟨hp, hrest⟩ := List.forall_mem_cons.mp hwords
    have hgrams : ∀ gram ∈ windows (level + 1) (padded level p.1),
        gram.length = level + 1 ∧ ∀ c ∈ gram, c < maxCodepoint + 1 := fun gram hgram =>
      ⟨length_of_mem_windows hgram, fun c hc =>
        Nat.lt_succ_of_le (le_of_mem_padded hp (mem_of_mem_windows hgram hc))⟩
    have hcons : ∀ gram, gramWeight level (p :: words) gram
        = p.2 * (windows (level + 1) (padded level p.1)).count gram
          + gramWeight level words gram := fun gram => by
      rw [gramWeight, List.map_cons, List.sum_cons]
      rfl
    simp only [hcons, Finset.sum_add_distrib, ← Finset.mul_sum, sum_count_eq_countP hgrams context,
      ih hrest]
    rw [contextWeight, contextWeight, List.map_cons, List.sum_cons]

/-- A leaf that counts exactly is tight. -/
theorem LeafOk.tight {growths : ℕ} {leaf : Leaf} (h : LeafOk growths leaf) (hexact : leaf.Exact) :
    leaf.Tight leaf.totalCount :=
  ⟨⟨h.placed_of_count, hexact.ge, le_rfl⟩, h.size.pos, hexact⟩

/-- **The draws of a leaf** select each codepoint as often as its gram weighs, and there are as many
as its context weighs. -/
theorem Counts.selects {markov : Markov} {sum : ℕ}
    (h : Counts markov (gramWeight markov.level words) sum) (hweights : ∀ p ∈ words, 0 < p.2)
    (hwords : ∀ p ∈ words, ∀ c ∈ p.1, c ≤ maxCodepoint)
    (hlt : ∀ g, gramWeight markov.level words g < 2 ^ 32) {context : List ℕ}
    (hnext : ∃ x, Occurs markov.level words (context ++ [x])) :
    ∃ leaf, walkNode (markov.level - 1) markov.root context = some leaf ∧ LeafOk maxGrowths leaf ∧
      leaf.Exact ∧ 0 < leaf.totalCount ∧
      leaf.totalCount = contextWeight markov.level words context ∧
      (∀ c, leafCount leaf c = gramWeight markov.level words (context ++ [c])) ∧
      Weighted.Selects (fun r => (leafChoose leaf (List.range leaf.capacity) r).map Prod.fst)
        leaf.totalCount fun c => gramWeight markov.level words (context ++ [c]) := by
  obtain ⟨leaf, hfind, hok, hexact, hpos, hcount⟩ := h.exists_leaf hweights hlt hnext
  have hselects := (selectsCounts drawHost (hok.tight hexact)).selects
  rw [funext hcount] at hselects
  refine ⟨leaf, walkNode_of_findLeaf hfind, hok, hexact, hpos, ?_, hcount, hselects⟩
  rw [← sum_gramWeight hwords]
  refine (hselects.sum_eq fun c hc => ?_).symm
  -- no gram has a codepoint past the last one
  by_contra hne
  obtain ⟨p, hp, hgram⟩ := (gramWeight_pos_iff hweights).mp (Nat.pos_of_ne_zero hne)
  refine hc (Finset.mem_range.mpr (Nat.lt_succ_of_le (le_of_mem_padded (hwords p hp)
    (mem_of_mem_windows hgram ?_))))
  exact List.mem_append_right context (List.mem_singleton_self c)

end Passgen
