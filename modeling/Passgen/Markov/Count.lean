import Mathlib.Algebra.BigOperators.Group.List.Basic
import Mathlib.Algebra.Order.BigOperators.Group.List
import Mathlib.Data.List.Basic
import Mathlib.Tactic.Common
import Passgen.Markov.Tree

/-!
# Markov/Count — a trained chain counts grams

    add word     grams of 0^L word 0     insert each     the tree counts every gram added

`Counts markov total sum` is the invariant of training: what the tree stores is `total`, modulo the
width of a count.
-/

namespace Passgen

/-! ## The grams of a word -/

/-- The windows of `n` consecutive elements. -/
def windows (n : ℕ) (seq : List ℕ) : List (List ℕ) :=
  (List.range (seq.length + 1 - n)).map fun i => (seq.drop i).take n

/-- `0^level word 0`. -/
def padded (level : ℕ) (word : List ℕ) : List ℕ := List.replicate level 0 ++ word ++ [0]

theorem length_padded (level : ℕ) (word : List ℕ) :
    (padded level word).length = level + word.length + 1 := by
  simp only [padded, List.length_append, List.length_replicate, List.length_singleton]

theorem getElem?_padded (level : ℕ) (word : List ℕ) (k : ℕ) :
    (padded level word)[k]? = if k < level then some 0 else if k = level + word.length then some 0
      else word[k - level]? := by
  rw [padded, List.append_assoc]
  simp only [List.getElem?_append, List.getElem?_replicate, List.length_replicate]
  split
  · rfl
  · split
    · rw [if_neg (by omega)]
    · split
      · rw [show k - level - word.length = 0 by omega]; rfl
      · rw [List.getElem?_eq_none (by simp; omega), List.getElem?_eq_none (by omega)]

/-- Windows with the same elements. -/
theorem take_drop_congr {xs ys : List ℕ} {i j n : ℕ} (h : ∀ k < n, xs[i + k]? = ys[j + k]?) :
    (xs.drop i).take n = (ys.drop j).take n := by
  refine List.ext_getElem? fun k => ?_
  rw [List.getElem?_take, List.getElem?_take]
  split
  · rename_i hk
    rw [List.getElem?_drop, List.getElem?_drop, h k hk]
  · rfl

theorem map_range_add {α : Type} (a b : ℕ) (f : ℕ → α) :
    (List.range (a + b)).map f = (List.range a).map f ++ (List.range b).map fun i => f (a + i) := by
  rw [List.range_add, List.map_append, List.map_map]
  rfl

/-- **The three phases of adding a word are the windows of the padded word**, for every length of
the word. -/
theorem markovGrams_take (level : ℕ) (word : List ℕ) :
    (markovGrams level word).map (List.take (level + 1)) =
      windows (level + 1) (padded level word) := by
  have hrange : (padded level word).length + 1 - (level + 1)
      = min level word.length + (word.length - level) + 1 := by
    rw [length_padded]
    omega
  rw [windows, hrange, map_range_add, map_range_add, markovGrams]
  simp only [List.map_append, List.map_map, List.map_cons, List.map_nil, List.range_one]
  refine congrArg₂ _ (congrArg₂ _ ?_ ?_) (congrArg (fun gram => [gram]) ?_)
  · refine List.map_congr_left fun i hi => take_drop_congr fun k hk => ?_
    have hi := List.mem_range.mp hi
    simp only [getElem?_padded, List.getElem?_append, List.getElem?_replicate, List.length_append,
      List.length_replicate, List.length_take]
    rw [if_pos (by omega)]
    split
    · rfl
    · rw [if_neg (by omega), List.getElem?_take_of_lt (by omega)]
  · refine List.map_congr_left fun i hi => take_drop_congr fun k hk => ?_
    have hi := List.mem_range.mp hi
    rw [getElem?_padded, if_neg (by omega), if_neg (by omega)]
    congr 1
    omega
  · refine Eq.trans (congrArg _ List.drop_zero.symm) (take_drop_congr fun k hk => ?_)
    simp only [getElem?_padded, List.getElem?_append, List.getElem?_replicate, List.length_append,
      List.length_replicate, List.length_drop, List.getElem?_drop]
    rcases Nat.lt_or_ge (0 + k) (level - word.length) with hstart | hstart
    · rw [if_pos (by omega), if_pos hstart, if_pos hstart, if_pos (by omega)]
    · rw [if_neg (by omega : ¬0 + k < level - word.length)]
      rcases Nat.lt_or_ge k level with hmid | hmid
      · rw [if_pos (by omega), if_neg (by omega), if_neg (by omega)]
        congr 1
        omega
      · rw [if_neg (by omega), if_pos (by omega), if_neg (by omega), if_pos (by omega)]

theorem length_of_mem_windows {n : ℕ} {seq gram : List ℕ} (h : gram ∈ windows n seq) :
    gram.length = n := by
  obtain ⟨i, hi, rfl⟩ := List.mem_map.mp h
  have hi := List.mem_range.mp hi
  rw [List.length_take, List.length_drop]
  omega

theorem mem_of_mem_windows {n c : ℕ} {seq gram : List ℕ} (h : gram ∈ windows n seq)
    (hc : c ∈ gram) : c ∈ seq := by
  obtain ⟨i, -, rfl⟩ := List.mem_map.mp h
  exact List.mem_of_mem_drop (List.mem_of_mem_take hc)

theorem length_windows_padded (level : ℕ) (word : List ℕ) :
    (windows (level + 1) (padded level word)).length = word.length + 1 := by
  rw [windows, List.length_map, List.length_range, length_padded]
  omega

theorem le_of_mem_padded {level c : ℕ} {word : List ℕ} (hword : ∀ c ∈ word, c ≤ maxCodepoint)
    (hc : c ∈ padded level word) : c ≤ maxCodepoint := by
  rw [padded, List.mem_append, List.mem_append, List.mem_replicate, List.mem_singleton] at hc
  rcases hc with (⟨-, rfl⟩ | hc) | rfl
  · exact Nat.zero_le _
  · exact hword c hc
  · exact Nat.zero_le _

/-! ## One gram -/

/-- The leaf of a context. -/
def Markov.find (markov : Markov) (context : List ℕ) : Option Leaf :=
  findLeaf (markov.level - 1) markov.root context

/-- The count of a codepoint after a context, zero where it is absent. -/
def Markov.countAfter (markov : Markov) (context : List ℕ) (c : ℕ) : ℕ :=
  Passgen.countAfter (markov.level - 1) markov.root context c

/-- The chain stores the gram weights `total`, `sum` in all. -/
structure Counts (markov : Markov) (total : List ℕ → ℕ) (sum : ℕ) : Prop where
  pos : 0 < markov.level
  ok : ChildOk (markov.level - 1 + 1) markov.root
  count : markov.count = sizeT sum
  gram : ∀ u x, markov.countAfter u x = total (u ++ [x]) % 2 ^ 32
  exact : ∀ u leaf, markov.find u = some leaf → (∀ x, total (u ++ [x]) < 2 ^ 32) → leaf.Exact

theorem findLeaf_init (level : UInt8) (u : List ℕ) : (markovInit level).find u = none :=
  findLeaf_of_lookup_none (lookup_fresh _) u

/-- An initialised chain stores nothing. -/
theorem counts_init {level : UInt8} (hlevel : 0 < level.toNat) :
    Counts (markovInit level) (fun _ => 0) 0 := by
  refine ⟨hlevel, ⟨⟨IsSize.first, (empty_view_fresh _).placed, ?_⟩, ?_⟩, rfl, fun u x => ?_,
    fun u leaf h => ?_⟩
  · exact fun k v hk => absurd (hk.symm.trans (lookup_fresh _ k)) (by simp)
  · exact fun c child hc => absurd (hc.symm.trans (lookup_fresh _ c)) (by simp)
  · rw [Markov.countAfter, Passgen.countAfter]
    exact congrArg (fun leaf => (Option.map (fun leaf => leafCount leaf x) leaf).getD 0)
      (findLeaf_init level u)
  · exact absurd ((findLeaf_init level u).symm.trans h) (by simp)

/-- **Inserting a gram adds its weight to it**, and to no other gram. -/
theorem Counts.insert {markov : Markov} {total : List ℕ → ℕ} {sum : ℕ}
    (h : Counts markov total sum) {sequence gram : List ℕ}
    (hgram : sequence.take (markov.level + 1) = gram) (hlen : gram.length = markov.level + 1)
    (hle : ∀ c ∈ gram, c ≤ maxCodepoint) (weight : ℕ) :
    ∃ markov', markovInsert markov sequence weight = some markov' ∧ markov'.level = markov.level ∧
      Counts markov' (fun g => total g + if g = gram then weight else 0) (sum + weight) := by
  have hpos := h.pos
  obtain ⟨context, last, rfl⟩ : ∃ context last, gram = context ++ [last] := by
    rcases List.eq_nil_or_concat gram with rfl | ⟨context, last, rfl⟩
    · exact absurd hlen (Nat.succ_ne_zero _).symm
    · exact ⟨context, last, List.concat_eq_append⟩
  have hcontext : context.length = markov.level - 1 + 1 := by
    rw [List.length_append, List.length_singleton] at hlen
    omega
  obtain ⟨root, leaf, hword, hins⟩ := nodeInsertWord_spec weight h.ok hcontext
    (fun c hc => hle c (List.mem_append_left _ hc)) (hle last (by simp))
  have hgrams : ∀ u x, u ++ [x] = context ++ [last] ↔ u = context ∧ x = last := by
    intro u x
    constructor
    · intro heq
      obtain ⟨hu, hx⟩ := List.append_inj' heq rfl
      exact ⟨hu, List.singleton_inj.mp hx⟩
    · rintro ⟨rfl, rfl⟩
      rfl
  refine ⟨{ markov with root, count := sizeT (markov.count + weight) }, ?_, rfl, hpos, hins.ok, ?_,
    fun u x => ?_, fun u leaf' hfind hlt => ?_⟩
  · rw [markovInsert, if_neg hpos.ne', hgram, hword]
    rfl
  · rw [h.count]
    exact Nat.mod_add_mod _ _ _
  · have hold := h.gram u x
    rw [Markov.countAfter] at hold ⊢
    rw [Passgen.countAfter, hins.find]
    by_cases hu : u = context
    · subst hu
      rw [if_pos rfl, Option.map_some, Option.getD_some, hins.count]
      by_cases hx : x = last
      · subst hx
        rw [if_pos rfl, if_pos rfl, hold, Nat.mod_add_mod]
      · rw [if_neg hx, if_neg fun h => hx ((hgrams u x).mp h).2, Nat.add_zero, hold]
    · rw [if_neg hu, if_neg fun h => hu ((hgrams u x).mp h).1, Nat.add_zero, ← hold,
        Passgen.countAfter]
  · have hless : ∀ x, total (u ++ [x]) < 2 ^ 32 := fun x => (Nat.le_add_right _ _).trans_lt (hlt x)
    rw [Markov.find] at hfind
    rw [hins.find] at hfind
    by_cases hu : u = context
    · subst hu
      obtain rfl := Option.some.inj ((if_pos rfl).symm.trans hfind)
      refine hins.exact (fun old hold => h.exact u old hold hless) ?_
      have hold := h.gram u last
      rw [Markov.countAfter, Nat.mod_eq_of_lt (hless last)] at hold
      have := hlt last
      rw [if_pos rfl] at this
      rwa [hold]
    · rw [if_neg hu] at hfind
      exact h.exact u leaf' hfind hless

/-! ## Training -/

/-- Inserting grams one after the other. -/
theorem Counts.foldlM {markov : Markov} {total : List ℕ → ℕ} {sum : ℕ}
    (h : Counts markov total sum) (weight : ℕ) {sequences : List (List ℕ)}
    (hlen : ∀ s ∈ sequences, (s.take (markov.level + 1)).length = markov.level + 1)
    (hle : ∀ s ∈ sequences, ∀ c ∈ s.take (markov.level + 1), c ≤ maxCodepoint) :
    ∃ markov', sequences.foldlM (fun markov s => markovInsert markov s weight) markov =
        some markov' ∧
      markov'.level = markov.level ∧
      Counts markov'
        (fun g => total g + weight * (sequences.map (List.take (markov.level + 1))).count g)
        (sum + weight * sequences.length) := by
  induction sequences generalizing markov total sum with
  | nil => exact ⟨markov, rfl, rfl, by simpa using h⟩
  | cons s sequences ih =>
    obtain ⟨mid, hins, hlevel, hmid⟩ := h.insert rfl (hlen s List.mem_cons_self)
      (hle s List.mem_cons_self) weight
    obtain ⟨markov', hfold, hlevel', hcounts⟩ := ih hmid
      (fun t ht => by rw [hlevel]; exact hlen t (List.mem_cons_of_mem s ht))
      (fun t ht => by rw [hlevel]; exact hle t (List.mem_cons_of_mem s ht))
    refine ⟨markov', by rw [List.foldlM_cons, hins]; exact hfold, hlevel'.trans hlevel, ?_⟩
    rw [hlevel] at hcounts
    convert hcounts using 1
    · funext g
      rw [List.map_cons, List.count_cons, Nat.mul_add, beq_eq_decide]
      by_cases hg : g = s.take (markov.level + 1)
      · subst hg
        simp
        omega
      · simp [hg, Ne.symm hg]
    · rw [List.length_cons, Nat.mul_add]
      omega

/-- The weight of a gram in the words of a training run. -/
def gramWeight (level : ℕ) (words : List (List ℕ × ℕ)) (gram : List ℕ) : ℕ :=
  (words.map fun p => p.2 * (windows (level + 1) (padded level p.1)).count gram).sum

/-- The weight of all grams of a training run. -/
def totalWeight (words : List (List ℕ × ℕ)) : ℕ :=
  (words.map fun p => p.2 * (p.1.length + 1)).sum

/-- No gram outweighs all of them. -/
theorem gramWeight_le_totalWeight (level : ℕ) (words : List (List ℕ × ℕ)) (gram : List ℕ) :
    gramWeight level words gram ≤ totalWeight words := by
  refine List.sum_le_sum fun p _ => Nat.mul_le_mul_left _ ?_
  rw [← length_windows_padded level p.1]
  exact List.count_le_length

/-- A run of `passgen_markov_add`. -/
def markovTrain (markov : Markov) (words : List (List ℕ × ℕ)) : Option Markov :=
  words.foldlM (fun markov p => markovAdd markov p.1 p.2) markov

/-- **A step of training adds the grams of the padded word.** -/
theorem Counts.add {markov : Markov} {total : List ℕ → ℕ} {sum : ℕ} (h : Counts markov total sum)
    {word : List ℕ} (hword : ∀ c ∈ word, c ≤ maxCodepoint) (weight : ℕ) :
    ∃ markov', markovAdd markov word weight = some markov' ∧ markov'.level = markov.level ∧
      Counts markov' (fun g => total g +
          weight * (windows (markov.level + 1) (padded markov.level word)).count g)
        (sum + weight * (word.length + 1)) := by
  have htake := markovGrams_take markov.level word
  have hmem : ∀ s ∈ markovGrams markov.level word,
      s.take (markov.level + 1) ∈ windows (markov.level + 1) (padded markov.level word) :=
    fun s hs => htake ▸ List.mem_map_of_mem hs
  obtain ⟨markov', hfold, hlevel, hcounts⟩ := h.foldlM weight
    (fun s hs => length_of_mem_windows (hmem s hs))
    (fun s hs c hc => le_of_mem_padded hword (mem_of_mem_windows (hmem s hs) hc))
  rw [htake, length_markovGrams] at hcounts
  exact ⟨markov', hfold, hlevel, hcounts⟩

/-- **Training counts grams.** -/
theorem Counts.train {markov : Markov} {total : List ℕ → ℕ} {sum : ℕ} (h : Counts markov total sum)
    {words : List (List ℕ × ℕ)} (hwords : ∀ p ∈ words, ∀ c ∈ p.1, c ≤ maxCodepoint) :
    ∃ markov', markovTrain markov words = some markov' ∧ markov'.level = markov.level ∧
      Counts markov' (fun g => total g + gramWeight markov.level words g)
        (sum + totalWeight words) := by
  induction words generalizing markov total sum with
  | nil => exact ⟨markov, rfl, rfl, h⟩
  | cons p words ih =>
    obtain ⟨mid, hadd, hlevel, hmid⟩ := h.add (hwords p List.mem_cons_self) p.2
    obtain ⟨markov', htrain, hlevel', hcounts⟩ := ih hmid fun q hq =>
      hwords q (List.mem_cons_of_mem p hq)
    refine ⟨markov', ?_, hlevel'.trans hlevel, ?_⟩
    · rw [markovTrain, List.foldlM_cons, hadd]
      exact htrain
    · rw [hlevel] at hcounts
      convert hcounts using 1
      · funext g
        rw [gramWeight, List.map_cons, List.sum_cons, ← Nat.add_assoc]
        rfl
      · rw [totalWeight, List.map_cons, List.sum_cons, ← Nat.add_assoc]
        rfl

/-- **The tree stores the counts of the grams**, for every sequence of words on an initialised
chain: the leaf of a context counts each codepoint modulo `2 ^ 32`, and exactly so and with a total
that is the sum of the counts where no gram after the context reaches `2 ^ 32`. -/
theorem markovTrain_counts {level : UInt8} (hlevel : 0 < level.toNat) {words : List (List ℕ × ℕ)}
    (hwords : ∀ p ∈ words, ∀ c ∈ p.1, c ≤ maxCodepoint) :
    ∃ markov, markovTrain (markovInit level) words = some markov ∧
      (∀ u x, markov.countAfter u x = gramWeight level.toNat words (u ++ [x]) % 2 ^ 32) ∧
      (∀ u, (∀ x, gramWeight level.toNat words (u ++ [x]) < 2 ^ 32) →
        (∀ x, markov.countAfter u x = gramWeight level.toNat words (u ++ [x])) ∧
          ∀ leaf, markov.find u = some leaf → leaf.Exact) ∧
      markov.count = sizeT (totalWeight words) := by
  obtain ⟨markov, htrain, -, hcounts⟩ := (counts_init hlevel).train hwords
  simp only [Nat.zero_add] at hcounts
  refine ⟨markov, htrain, hcounts.gram, fun u hlt => ⟨fun x => ?_, fun leaf hfind => ?_⟩,
    hcounts.count⟩
  · exact (hcounts.gram u x).trans (Nat.mod_eq_of_lt (hlt x))
  · exact hcounts.exact u leaf hfind hlt

theorem markovTrain_counts_sample :
    ∃ markov, markovTrain (markovInit 2) [([97, 98, 97], 1), ([], 3)] = some markov ∧
      (∀ u x, markov.countAfter u x
        = gramWeight 2 [([97, 98, 97], 1), ([], 3)] (u ++ [x]) % 2 ^ 32) ∧
      (∀ u, (∀ x, gramWeight 2 [([97, 98, 97], 1), ([], 3)] (u ++ [x]) < 2 ^ 32) →
        (∀ x, markov.countAfter u x = gramWeight 2 [([97, 98, 97], 1), ([], 3)] (u ++ [x])) ∧
          ∀ leaf, markov.find u = some leaf → leaf.Exact) ∧
      markov.count = sizeT (totalWeight [([97, 98, 97], 1), ([], 3)]) :=
  markovTrain_counts (by decide) (by decide)

/-- A gram that occurs twice in one word wraps below a total weight of `2 ^ 32`. -/
theorem markovTrain_wraps :
    (markovTrain (markovInit 1) [([97, 97, 97], 2 ^ 31)]).map (fun m => m.countAfter [97] 97)
        = some 0 ∧
      gramWeight 1 [([97, 97, 97], 2 ^ 31)] [97, 97] = 2 ^ 32 := by
  decide +kernel

end Passgen
