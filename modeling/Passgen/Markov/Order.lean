import Mathlib.Algebra.BigOperators.Group.Finset.Basic
import Mathlib.Algebra.BigOperators.Group.Finset.Piecewise
import Mathlib.Data.List.Basic
import Mathlib.Tactic.Common
import Passgen.Markov.Canonical

/-!
# Markov/Order — a chain is what it was trained on

    words     (gram, weight), one after the other     insert each     a canonical chain

Training keeps every table as large as its codepoints force (`Markov.Canonical.insert`), so two runs
that count the same grams end in the same chain, whatever the order of their words
(`markovTrain_eq_of_gramWeight`).
-/

namespace Passgen

variable {markov markov' : Markov} {total : List ℕ → ℕ} {sum weight : ℕ} {sequence : List ℕ}

/-! ## Training as one run of insertions -/

/-- The sequences inserted for the words, each with the weight of its word. -/
def insertions (level : ℕ) (words : List (List ℕ × ℕ)) : List (List ℕ × ℕ) :=
  words.flatMap fun p => (markovGrams level p.1).map fun s => (s, p.2)

/-- A run of `passgen_markov_insert`. -/
def markovInsertAll (markov : Markov) (sequences : List (List ℕ × ℕ)) : Option Markov :=
  sequences.foldlM (fun markov s => markovInsert markov s.1 s.2) markov

theorem markovInsertAll_cons (markov : Markov) (s : List ℕ × ℕ) (sequences : List (List ℕ × ℕ)) :
    markovInsertAll markov (s :: sequences)
      = (markovInsert markov s.1 s.2).bind fun markov => markovInsertAll markov sequences := rfl

theorem level_markovInsertAll {sequences : List (List ℕ × ℕ)}
    (h : markovInsertAll markov sequences = some markov') : markov'.level = markov.level :=
  foldlM_invariant (P := fun m => m.level = markov.level)
    (fun _ _ _ _ hstep hm => (level_markovInsert hstep).1.trans hm) rfl h

theorem markovAdd_eq (markov : Markov) (word : List ℕ) (weight : ℕ) :
    markovAdd markov word weight
      = markovInsertAll markov ((markovGrams markov.level word).map fun s => (s, weight)) := by
  rw [markovAdd, markovInsertAll, List.foldlM_map]

/-- **Training is one run of insertions.** -/
theorem markovTrain_eq (markov : Markov) (words : List (List ℕ × ℕ)) :
    markovTrain markov words = markovInsertAll markov (insertions markov.level words) := by
  induction words generalizing markov with
  | nil => rfl
  | cons p words ih =>
    rw [markovTrain, List.foldlM_cons, markovAdd_eq, insertions, List.flatMap_cons,
      markovInsertAll, markovInsertAll, List.foldlM_append]
    cases hadd : ((markovGrams markov.level p.1).map fun s => (s, p.2)).foldlM
        (fun markov s => markovInsert markov s.1 s.2) markov with
    | none => rfl
    | some mid =>
      have hlevel := level_markovInsertAll hadd
      exact (ih mid).trans (by rw [hlevel]; rfl)

/-- The weight a run of insertions gives to a gram. -/
def insertedWeight (level : ℕ) (sequences : List (List ℕ × ℕ)) (gram : List ℕ) : ℕ :=
  (sequences.map fun s => if gram = s.1.take (level + 1) then s.2 else 0).sum

theorem insertedWeight_cons (level : ℕ) (s : List ℕ × ℕ) (sequences : List (List ℕ × ℕ))
    (gram : List ℕ) : insertedWeight level (s :: sequences) gram
      = (if gram = s.1.take (level + 1) then s.2 else 0) + insertedWeight level sequences gram :=
  List.sum_cons

theorem insertedWeight_append (level : ℕ) (sequences others : List (List ℕ × ℕ))
    (gram : List ℕ) : insertedWeight level (sequences ++ others) gram
      = insertedWeight level sequences gram + insertedWeight level others gram := by
  simp only [insertedWeight, List.map_append, List.sum_append]

theorem insertedWeight_map (level weight : ℕ) (sequences : List (List ℕ)) (gram : List ℕ) :
    insertedWeight level (sequences.map fun s => (s, weight)) gram
      = weight * (sequences.map (List.take (level + 1))).count gram := by
  induction sequences with
  | nil => rfl
  | cons s sequences ih =>
    rw [List.map_cons, List.map_cons, insertedWeight_cons, ih, List.count_cons, Nat.mul_add,
      Nat.add_comm]
    by_cases hs : gram = s.take (level + 1)
    · subst hs
      simp
    · simp [hs, Ne.symm hs]

/-- The weight of a gram in the words is what their insertions give to it. -/
theorem gramWeight_eq (level : ℕ) (words : List (List ℕ × ℕ)) (gram : List ℕ) :
    gramWeight level words gram = insertedWeight level (insertions level words) gram := by
  induction words with
  | nil => rfl
  | cons p words ih =>
    rw [insertions, List.flatMap_cons, insertedWeight_append, insertedWeight_map,
      markovGrams_take, gramWeight, List.map_cons, List.sum_cons]
    exact congrArg _ ih

theorem gramWeight_perm {words words' : List (List ℕ × ℕ)} (h : words.Perm words') (level : ℕ)
    (gram : List ℕ) : gramWeight level words gram = gramWeight level words' gram :=
  (h.map _).sum_eq

/-- Only windows have a weight. -/
theorem gramWeight_eq_zero {level : ℕ} {gram : List ℕ} (hlen : gram.length ≠ level + 1)
    (words : List (List ℕ × ℕ)) : gramWeight level words gram = 0 := by
  refine List.sum_eq_zero fun w hw => ?_
  obtain ⟨p, -, rfl⟩ := List.mem_map.mp hw
  rw [List.count_eq_zero.mpr fun hmem => hlen (length_of_mem_windows hmem), Nat.mul_zero]

/-- The weight of a run of insertions is the sum over all its grams. -/
theorem sum_insertedWeight (level : ℕ) {sequences : List (List ℕ × ℕ)} {grams : Finset (List ℕ)}
    (h : ∀ s ∈ sequences, s.1.take (level + 1) ∈ grams) :
    ∑ gram ∈ grams, insertedWeight level sequences gram = (sequences.map Prod.snd).sum := by
  induction sequences with
  | nil => exact Finset.sum_const_zero
  | cons s sequences ih =>
    simp only [insertedWeight_cons, Finset.sum_add_distrib, List.map_cons, List.sum_cons]
    rw [ih fun t ht => h t (List.mem_cons_of_mem s ht), Finset.sum_ite_eq',
      if_pos (h s List.mem_cons_self)]

theorem totalWeight_eq (level : ℕ) (words : List (List ℕ × ℕ)) :
    totalWeight words = ((insertions level words).map Prod.snd).sum := by
  induction words with
  | nil => rfl
  | cons p words ih =>
    rw [totalWeight, List.map_cons, List.sum_cons, insertions, List.flatMap_cons, List.map_append,
      List.sum_append, List.map_map]
    refine congrArg₂ _ ?_ ih
    rw [List.sum_eq_card_nsmul _ p.2 (by simp), List.length_map, length_markovGrams, smul_eq_mul,
      Nat.mul_comm]

/-- **The weight of all grams is determined by the weight of each.** -/
theorem totalWeight_congr {level : ℕ} {words words' : List (List ℕ × ℕ)}
    (h : ∀ gram, gramWeight level words gram = gramWeight level words' gram) :
    totalWeight words = totalWeight words' := by
  let grams := ((insertions level words ++ insertions level words').map
    fun s => s.1.take (level + 1)).toFinset
  have hmem : ∀ s ∈ insertions level words ++ insertions level words',
      s.1.take (level + 1) ∈ grams := fun s hs =>
    List.mem_toFinset.mpr (List.mem_map_of_mem (f := fun s => s.1.take (level + 1)) hs)
  rw [totalWeight_eq level, totalWeight_eq level,
    ← sum_insertedWeight level fun s hs => hmem s (List.mem_append_left _ hs),
    ← sum_insertedWeight level fun s hs => hmem s (List.mem_append_right _ hs)]
  exact Finset.sum_congr rfl fun gram _ => by rw [← gramWeight_eq, ← gramWeight_eq, h]

/-! ## Canonical chains -/

/-- A chain as training without overflow leaves it. -/
structure Markov.Canonical (markov : Markov) : Prop where
  shaped : Shaped (markov.level - 1 + 1) markov.root
  leaf : ∀ u leaf, markov.find u = some leaf → leaf.Canonical ∧ ∃ x, leafCount leaf x ≠ 0

theorem shaped_markovInit (level : UInt8) :
    Shaped ((markovInit level).level - 1 + 1) (markovInit level).root :=
  shaped_nodeNew rfl

theorem canonical_markovInit (level : UInt8) : (markovInit level).Canonical :=
  ⟨shaped_markovInit level, fun u leaf h =>
    absurd ((findLeaf_init level u).symm.trans h) (by simp)⟩

/-- A gram is a context and the codepoint after it. -/
theorem exists_context {level : ℕ} {gram : List ℕ} (hlen : gram.length = level + 1) :
    ∃ context last, gram = context ++ [last] ∧ context.length = level := by
  obtain ⟨context, last, rfl⟩ : ∃ context last, gram = context ++ [last] := by
    rcases List.eq_nil_or_concat gram with rfl | ⟨context, last, rfl⟩
    · exact absurd hlen (Nat.succ_ne_zero _).symm
    · exact ⟨context, last, List.concat_eq_append⟩
  exact ⟨context, last, rfl, by simpa using hlen⟩

/-- **Inserting a gram keeps the nodes shaped**, whatever its weight. -/
theorem shaped_markovInsert (hcounts : Counts markov total sum)
    (h : Shaped (markov.level - 1 + 1) markov.root)
    (hle : ∀ c ∈ sequence.take (markov.level + 1), c ≤ maxCodepoint)
    (hins : markovInsert markov sequence weight = some markov') :
    Shaped (markov'.level - 1 + 1) markov'.root := by
  rw [markovInsert, if_neg hcounts.pos.ne'] at hins
  obtain ⟨root, hroot, rfl⟩ := Option.map_eq_some_iff.mp hins
  exact (shaped_nodeInsertWord hcounts.ok h hle hroot).1

/-- **Inserting a gram keeps a chain canonical**, as long as its count does not overflow. -/
theorem Markov.Canonical.insert (h : markov.Canonical) (hcounts : Counts markov total sum)
    (hlen : (sequence.take (markov.level + 1)).length = markov.level + 1)
    (hle : ∀ c ∈ sequence.take (markov.level + 1), c ≤ maxCodepoint) (hweight : weight ≠ 0)
    (hlt : total (sequence.take (markov.level + 1)) + weight < 2 ^ 32)
    (hins : markovInsert markov sequence weight = some markov') : markov'.Canonical := by
  refine ⟨shaped_markovInsert hcounts h.shaped hle hins, fun u leaf hfind => ?_⟩
  have hpos := hcounts.pos
  obtain ⟨context, last, hgram, hcontext⟩ := exists_context hlen
  rw [hgram] at hle hlt
  rw [markovInsert, if_neg hpos.ne', hgram] at hins
  obtain ⟨root, hroot, rfl⟩ := Option.map_eq_some_iff.mp hins
  have hcontext' : context.length = markov.level - 1 + 1 := by omega
  have hleContext : ∀ c ∈ context, c ≤ maxCodepoint := fun c hc => hle c (List.mem_append_left _ hc)
  have hlast : last ≤ maxCodepoint := hle last (by simp)
  obtain ⟨root', new, hword, hinserts⟩ :=
    nodeInsertWord_spec weight hcounts.ok hcontext' hleContext hlast
  obtain rfl := Option.some.inj (hword.symm.trans hroot)
  rw [Markov.find] at hfind
  rw [hinserts.find] at hfind
  by_cases hu : u = context
  · subst hu
    obtain rfl := Option.some.inj ((if_pos rfl).symm.trans hfind)
    obtain ⟨old, inserted, hold, hinsert, hfound⟩ :=
      exists_leafInsert hcounts.ok hcontext' hleContext hroot
    rw [hinserts.find, if_pos rfl] at hfound
    obtain rfl := Option.some.inj hfound
    have hcount : Passgen.countAfter (markov.level - 1) markov.root u last ≤ total (u ++ [last]) :=
      (hcounts.gram u last).trans_le (Nat.mod_le _ _)
    have holdCanonical : old.Canonical ∧ leafCount old last ≤ total (u ++ [last]) := by
      rw [Passgen.countAfter] at hcount
      cases hbefore : findLeaf (markov.level - 1) markov.root u with
      | some before =>
        rw [hbefore] at hold hcount
        obtain rfl := Option.some.inj hold
        exact ⟨(h.leaf u before hbefore).1, hcount⟩
      | none =>
        rw [hbefore] at hold
        obtain ⟨hnew, hzero⟩ := canonical_leafNew hold
        exact ⟨hnew, by rw [hzero]; exact Nat.zero_le _⟩
    refine ⟨holdCanonical.1.insert hlast hweight ?_ hinsert, last, ?_⟩
    · exact (Nat.add_le_add_right holdCanonical.2 _).trans_lt hlt
    · rw [hinserts.count, if_pos rfl, Nat.mod_eq_of_lt]
      · omega
      · exact (Nat.add_le_add_right hcount _).trans_lt hlt
  · rw [if_neg hu] at hfind
    exact h.leaf u leaf hfind

/-- **A canonical chain is what it counts.** -/
theorem Markov.Canonical.eq (h : markov.Canonical) (h' : markov'.Canonical)
    (hcounts : Counts markov total sum) (hcounts' : Counts markov' total sum)
    (hlevel : markov.level = markov'.level) : markov = markov' := by
  obtain ⟨level, count, root⟩ := markov
  obtain ⟨level', count', root'⟩ := markov'
  obtain rfl : level = level' := hlevel
  have hcount : count = count' := hcounts.count.trans hcounts'.count.symm
  have hroot : root = root' := by
    refine eq_of_findLeaf hcounts.ok hcounts'.ok h.shaped h'.shaped fun u => ?_
    have hafter : ∀ x, Passgen.countAfter (level - 1) root u x
        = Passgen.countAfter (level - 1) root' u x := fun x =>
      (hcounts.gram u x).trans (hcounts'.gram u x).symm
    simp only [Passgen.countAfter] at hafter
    cases hfind : findLeaf (level - 1) root u with
    | none => cases hfind' : findLeaf (level - 1) root' u with
      | none => rfl
      | some leaf' =>
        obtain ⟨x, hx⟩ := (h'.leaf u leaf' hfind').2
        have hzero := hafter x
        rw [hfind, hfind'] at hzero
        exact absurd hzero.symm hx
    | some leaf => cases hfind' : findLeaf (level - 1) root' u with
      | none =>
        obtain ⟨x, hx⟩ := (h.leaf u leaf hfind).2
        have hzero := hafter x
        rw [hfind, hfind'] at hzero
        exact absurd hzero hx
      | some leaf' =>
        rw [hfind, hfind'] at hafter
        exact congrArg some ((h.leaf u leaf hfind).1.eq (h'.leaf u leaf' hfind').1 hafter)
  rw [hcount, hroot]

/-! ## Runs -/

/-- What the grams of words need to be inserted. -/
theorem insertions_spec {level : ℕ} {words : List (List ℕ × ℕ)}
    (hwords : ∀ p ∈ words, ∀ c ∈ p.1, c ≤ maxCodepoint) {s : List ℕ × ℕ}
    (hs : s ∈ insertions level words) :
    (s.1.take (level + 1)).length = level + 1 ∧ (∀ c ∈ s.1.take (level + 1), c ≤ maxCodepoint) ∧
      ∃ p ∈ words, s.2 = p.2 := by
  obtain ⟨p, hp, hs⟩ := List.mem_flatMap.mp hs
  obtain ⟨gram, hgram, rfl⟩ := List.mem_map.mp hs
  have hmem : gram.take (level + 1) ∈ windows (level + 1) (padded level p.1) :=
    markovGrams_take level p.1 ▸ List.mem_map_of_mem hgram
  exact ⟨length_of_mem_windows hmem,
    fun c hc => le_of_mem_padded (hwords p hp) (mem_of_mem_windows hmem hc), p, hp, rfl⟩

/-- **A run of insertions counts them and keeps the nodes shaped.** -/
theorem exists_markovInsertAll (hcounts : Counts markov total sum)
    (h : Shaped (markov.level - 1 + 1) markov.root) {sequences : List (List ℕ × ℕ)}
    (hlen : ∀ s ∈ sequences, (s.1.take (markov.level + 1)).length = markov.level + 1)
    (hle : ∀ s ∈ sequences, ∀ c ∈ s.1.take (markov.level + 1), c ≤ maxCodepoint) :
    ∃ markov', markovInsertAll markov sequences = some markov' ∧
      Shaped (markov'.level - 1 + 1) markov'.root := by
  induction sequences generalizing markov total sum with
  | nil => exact ⟨markov, rfl, h⟩
  | cons s sequences ih =>
    obtain ⟨mid, hins, hlevel, hmid⟩ := hcounts.insert rfl (hlen s List.mem_cons_self)
      (hle s List.mem_cons_self) s.2
    obtain ⟨markov', hrun, hshaped⟩ := ih hmid
      (shaped_markovInsert hcounts h (hle s List.mem_cons_self) hins)
      (fun t ht => by rw [hlevel]; exact hlen t (List.mem_cons_of_mem s ht))
      (fun t ht => by rw [hlevel]; exact hle t (List.mem_cons_of_mem s ht))
    exact ⟨markov', by rw [markovInsertAll_cons, hins]; exact hrun, hshaped⟩

/-- **A run of insertions keeps a chain canonical**, as long as no count overflows. -/
theorem Markov.Canonical.insertAll (h : markov.Canonical) (hcounts : Counts markov total sum)
    {sequences : List (List ℕ × ℕ)}
    (hlen : ∀ s ∈ sequences, (s.1.take (markov.level + 1)).length = markov.level + 1)
    (hle : ∀ s ∈ sequences, ∀ c ∈ s.1.take (markov.level + 1), c ≤ maxCodepoint)
    (hweight : ∀ s ∈ sequences, s.2 ≠ 0)
    (hlt : ∀ gram, total gram + insertedWeight markov.level sequences gram < 2 ^ 32)
    (hrun : markovInsertAll markov sequences = some markov') : markov'.Canonical := by
  induction sequences generalizing markov total sum with
  | nil => exact Option.some.inj hrun ▸ h
  | cons s sequences ih =>
    obtain ⟨mid, hins, hlevel, hmid⟩ := hcounts.insert rfl (hlen s List.mem_cons_self)
      (hle s List.mem_cons_self) s.2
    rw [markovInsertAll_cons, hins, Option.bind_some] at hrun
    simp only [insertedWeight_cons] at hlt
    have hgram := hlt (s.1.take (markov.level + 1))
    rw [if_pos rfl] at hgram
    refine ih (h.insert hcounts (hlen s List.mem_cons_self) (hle s List.mem_cons_self)
        (hweight s List.mem_cons_self) (by omega) hins) hmid
      (fun t ht => by rw [hlevel]; exact hlen t (List.mem_cons_of_mem s ht))
      (fun t ht => by rw [hlevel]; exact hle t (List.mem_cons_of_mem s ht))
      (fun t ht => hweight t (List.mem_cons_of_mem s ht)) (fun gram => ?_) hrun
    have hall := hlt gram
    rw [hlevel]
    omega

/-- A training run on words without overflow. -/
structure Trains (level : UInt8) (words : List (List ℕ × ℕ)) : Prop where
  codepoint : ∀ p ∈ words, ∀ c ∈ p.1, c ≤ maxCodepoint
  weight : ∀ p ∈ words, p.2 ≠ 0
  count : ∀ gram, gramWeight level.toNat words gram < 2 ^ 32

/-- **A training run ends in a canonical chain** that counts the grams of its words. -/
theorem Trains.canonical {level : UInt8} {words : List (List ℕ × ℕ)} (h : Trains level words)
    (hlevel : 0 < level.toNat) :
    ∃ markov, markovTrain (markovInit level) words = some markov ∧ markov.level = level.toNat ∧
      markov.Canonical ∧ Counts markov (gramWeight level.toNat words) (totalWeight words) := by
  obtain ⟨markov, htrain, hmarkov, hcounts⟩ := (counts_init hlevel).train h.codepoint
  simp only [Nat.zero_add] at hcounts
  refine ⟨markov, htrain, hmarkov, ?_, hcounts⟩
  rw [markovTrain_eq] at htrain
  have hspec : ∀ s ∈ insertions level.toNat words, _ := fun s hs => insertions_spec h.codepoint hs
  refine (canonical_markovInit level).insertAll (counts_init hlevel)
    (fun s hs => (hspec s hs).1) (fun s hs => (hspec s hs).2.1) (fun s hs => ?_) (fun gram => ?_)
    htrain
  · obtain ⟨p, hp, heq⟩ := (hspec s hs).2.2
    exact heq ▸ h.weight p hp
  · rw [Nat.zero_add]
    exact gramWeight_eq level.toNat words gram ▸ h.count gram

/-- **Training on the same grams ends in the same chain.** -/
theorem markovTrain_eq_of_gramWeight {level : UInt8} (hlevel : 0 < level.toNat)
    {words words' : List (List ℕ × ℕ)} (h : Trains level words) (h' : Trains level words')
    (hgrams : ∀ gram, gramWeight level.toNat words gram = gramWeight level.toNat words' gram) :
    markovTrain (markovInit level) words = markovTrain (markovInit level) words' := by
  obtain ⟨markov, htrain, hmarkov, hcanonical, hcounts⟩ := h.canonical hlevel
  obtain ⟨markov', htrain', hmarkov', hcanonical', hcounts'⟩ := h'.canonical hlevel
  rw [← funext hgrams, ← totalWeight_congr hgrams] at hcounts'
  rw [htrain, htrain',
    hcanonical.eq hcanonical' hcounts hcounts' (hmarkov.trans hmarkov'.symm)]

/-- The order of the words does not matter. -/
theorem markovTrain_perm {level : UInt8} (hlevel : 0 < level.toNat)
    {words words' : List (List ℕ × ℕ)} (h : Trains level words) (hperm : words.Perm words') :
    markovTrain (markovInit level) words = markovTrain (markovInit level) words' := by
  have hgrams := fun gram => gramWeight_perm hperm level.toNat gram
  refine markovTrain_eq_of_gramWeight hlevel h ⟨fun p hp => h.codepoint p (hperm.mem_iff.mpr hp),
    fun p hp => h.weight p (hperm.mem_iff.mpr hp), fun gram => ?_⟩ hgrams
  rw [← hgrams]
  exact h.count gram

/-- **A trained chain is the counts of its grams**, and nothing else: two runs end in the same
chain, slot by slot and size by size, if and only if they count the same grams. -/
theorem markovTrain_eq_iff {level : UInt8} (hlevel : 0 < level.toNat)
    {words words' : List (List ℕ × ℕ)} (h : Trains level words) (h' : Trains level words') :
    markovTrain (markovInit level) words = markovTrain (markovInit level) words' ↔
      ∀ gram, gramWeight level.toNat words gram = gramWeight level.toNat words' gram := by
  refine ⟨fun htrains gram => ?_, markovTrain_eq_of_gramWeight hlevel h h'⟩
  obtain ⟨markov, htrain, -, -, hcounts⟩ := h.canonical hlevel
  obtain ⟨markov', htrain', -, -, hcounts'⟩ := h'.canonical hlevel
  obtain rfl : markov = markov' := Option.some.inj (htrain.symm.trans (htrains.trans htrain'))
  by_cases hlen : gram.length = level.toNat + 1
  · obtain ⟨context, last, rfl, -⟩ := exists_context hlen
    have hmod := (hcounts.gram context last).symm.trans (hcounts'.gram context last)
    rwa [Nat.mod_eq_of_lt (h.count _), Nat.mod_eq_of_lt (h'.count _)] at hmod
  · rw [gramWeight_eq_zero hlen, gramWeight_eq_zero hlen]

/-- Training on a word twice, and on it once with twice the weight. -/
theorem trains_twice : Trains 1 [([97, 98], 1), ([97, 98], 1)] ∧ Trains 1 [([97, 98], 2)] := by
  refine ⟨⟨by decide, by decide, fun gram => ?_⟩, ⟨by decide, by decide, fun gram => ?_⟩⟩ <;>
    exact (gramWeight_le_totalWeight _ _ gram).trans_lt (by decide)

theorem markovTrain_eq_iff_twice :
    markovTrain (markovInit 1) [([97, 98], 1), ([97, 98], 1)]
        = markovTrain (markovInit 1) [([97, 98], 2)] ↔
      ∀ gram, gramWeight 1 [([97, 98], 1), ([97, 98], 1)] gram
        = gramWeight 1 [([97, 98], 2)] gram :=
  markovTrain_eq_iff (by decide) trains_twice.1 trains_twice.2

end Passgen
