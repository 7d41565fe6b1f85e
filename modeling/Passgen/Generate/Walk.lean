import Mathlib.Algebra.BigOperators.Group.Finset.Basic
import Mathlib.Data.List.Basic
import Mathlib.Tactic.Common
import Passgen.Generate.Generate
import Passgen.Markov.Count

/-!
# Generate/Walk — the Markov walk

    0^L ─ c₁ ▸ … 0 c₁ ─ c₂ ▸ … c₁ c₂ ─ … ▸ 0

The walk follows slots without comparing codepoints.  It never goes wrong: its context is always a
context of some padded word (`Ongoing`), and a context that occurs has a leaf of its own, every draw
of which is a codepoint that was counted after it.
-/

namespace Passgen

/-! ## Occurrences -/

/-- The gram is in one of the padded words. -/
def Occurs (level : ℕ) (words : List (List ℕ × ℕ)) (gram : List ℕ) : Prop :=
  ∃ p ∈ words, gram ∈ windows (level + 1) (padded level p.1)

theorem mem_windows_iff {n : ℕ} {seq gram : List ℕ} :
    gram ∈ windows n seq ↔ ∃ i, i + n ≤ seq.length ∧ gram = (seq.drop i).take n := by
  rw [windows, List.mem_map]
  constructor
  · rintro ⟨i, hi, rfl⟩
    have hi := List.mem_range.mp hi
    exact ⟨i, by omega, rfl⟩
  · rintro ⟨i, hi, rfl⟩
    exact ⟨i, List.mem_range.mpr (by omega), rfl⟩

/-- A gram with weight occurs, and with positive weights every gram that occurs has some. -/
theorem gramWeight_pos_iff {level : ℕ} {words : List (List ℕ × ℕ)}
    (hweights : ∀ p ∈ words, 0 < p.2) {gram : List ℕ} :
    0 < gramWeight level words gram ↔ Occurs level words gram := by
  rw [gramWeight, Nat.pos_iff_ne_zero, Ne, List.sum_eq_zero_iff]
  constructor
  · intro h
    by_contra hnot
    refine h fun x hx => ?_
    obtain ⟨p, hp, rfl⟩ := List.mem_map.mp hx
    rw [List.count_eq_zero.mpr fun hmem => hnot ⟨p, hp, hmem⟩, Nat.mul_zero]
  · rintro ⟨p, hp, hmem⟩ h
    have hzero := h _ (List.mem_map_of_mem hp)
    have hpos := Nat.mul_pos (hweights p hp) (List.count_pos_iff.mpr hmem)
    omega

/-- **After a gram that does not end the word, another one occurs**, shifted by one. -/
theorem Occurs.next {level : ℕ} (hlevel : 0 < level) {words : List (List ℕ × ℕ)} {u : List ℕ}
    {c : ℕ} (h : Occurs level words (u ++ [c])) (hc : c ≠ 0) :
    ∃ x, Occurs level words (u.drop 1 ++ [c] ++ [x]) := by
  obtain ⟨p, hp, hmem⟩ := h
  obtain ⟨i, hi, hgram⟩ := mem_windows_iff.mp hmem
  have hlen : u.length = level := by
    have := length_of_mem_windows hmem
    rw [List.length_append, List.length_singleton] at this
    omega
  rw [length_padded] at hi
  have hlast : (padded level p.1)[i + level]? = some c := by
    have := congrArg (fun gram => gram[level]?) hgram
    simp only [List.getElem?_take_of_lt (Nat.lt_succ_self level), List.getElem?_drop] at this
    rw [← this, List.getElem?_append_right (by omega), hlen, Nat.sub_self]
    rfl
  have hinner : i ≠ p.1.length := by
    rintro rfl
    rw [getElem?_padded, if_neg (by omega), if_pos (by omega)] at hlast
    exact hc (Option.some.inj hlast).symm
  have hlt : i + level + 1 < (padded level p.1).length := by
    rw [length_padded]
    omega
  refine ⟨(padded level p.1)[i + level + 1], p, hp, mem_windows_iff.mpr ⟨i + 1, by omega, ?_⟩⟩
  have hnext : ((padded level p.1).drop i).take (level + 1 + 1)
      = u ++ [c] ++ [(padded level p.1)[i + level + 1]] := by
    rw [List.take_add_one, ← hgram, List.getElem?_drop, ← Nat.add_assoc,
      List.getElem?_eq_getElem hlt]
    rfl
  have hdrop := congrArg (List.drop 1) hnext
  rw [List.drop_take, List.drop_drop, Nat.add_sub_cancel, List.append_assoc,
    List.drop_append_of_le_length (by omega), ← List.append_assoc] at hdrop
  exact hdrop.symm

/-- Every word starts after a context of zeros. -/
theorem occurs_start {level : ℕ} {words : List (List ℕ × ℕ)} (hne : words ≠ []) :
    ∃ x, Occurs level words (List.replicate level 0 ++ [x]) := by
  obtain ⟨p, hp⟩ := List.exists_mem_of_ne_nil words hne
  have hlt : level < (padded level p.1).length := by
    rw [length_padded]
    omega
  refine ⟨(padded level p.1)[level], p, hp, mem_windows_iff.mpr ⟨0, by omega, ?_⟩⟩
  have htake : (padded level p.1).take level = List.replicate level 0 := by
    rw [padded, List.append_assoc, List.take_left' List.length_replicate]
  rw [List.drop_zero, List.take_add_one, List.getElem?_eq_getElem hlt, htake]
  rfl

/-- The last window of a longer word. -/
theorem windows_concat {level : ℕ} {word : List ℕ} (hlen : level ≤ word.length) (c : ℕ) :
    windows (level + 1) (word ++ [c])
      = windows (level + 1) word ++ [word.drop (word.length - level) ++ [c]] := by
  have hrange : (word ++ [c]).length + 1 - (level + 1) = word.length + 1 - (level + 1) + 1 := by
    rw [List.length_append, List.length_singleton]
    omega
  rw [windows, windows, hrange, List.range_succ, List.map_append]
  refine congrArg₂ _ (List.map_congr_left fun i hi => ?_) (congrArg (fun gram => [gram]) ?_)
  · have hi := List.mem_range.mp hi
    rw [List.drop_append_of_le_length (by omega), List.take_append_of_le_length]
    rw [List.length_drop]
    omega
  · simp only [show word.length + 1 - (level + 1) = word.length - level by omega]
    rw [List.drop_append_of_le_length (by omega), List.take_of_length_le]
    rw [List.length_append, List.length_drop, List.length_singleton]
    omega

/-! ## One step -/

/-- Where a context has a leaf, walking by residue finds it. -/
theorem walkNode_of_findLeaf {n : ℕ} {node : Node (Child n)} {context : List ℕ} {leaf : Leaf}
    (h : findLeaf n node context = some leaf) : walkNode n node context = some leaf := by
  have hchild : ∀ {β : Type} {node : Node β} {c : ℕ} {child : β},
      node.lookup c = some child → node.childAt c = some child := by
    intro β node c child hlookup
    rw [Node.lookup] at hlookup
    split at hlookup
    · exact hlookup
    · exact absurd hlookup (by simp)
  induction n generalizing context with
  | zero =>
    rcases context with _ | ⟨c, _ | ⟨d, context⟩⟩
    · cases h
    · exact hchild h
    · cases h
  | succ n ih =>
    cases context with
    | nil => cases h
    | cons c context =>
      obtain ⟨child, hlookup, hfind⟩ := Option.bind_eq_some_iff.mp h
      exact Option.bind_eq_some_iff.mpr ⟨child, hchild hlookup, ih hfind⟩

/-- **The loop over the entries picks by count.** -/
theorem leafChoose_eq (leaf : Leaf) (is : List ℕ) (choice : ℕ) :
    leafChoose leaf is choice = (Weighted.pick (is.map leaf.count) choice).bind fun p =>
      is[p.1]?.map fun i => (leaf.codepoint i, leaf.count i) := by
  induction is generalizing choice with
  | nil => rfl
  | cons i is ih =>
    have hlater : leafChoose leaf is (choice - leaf.count i)
        = ((Weighted.pick (is.map leaf.count) (choice - leaf.count i)).map
            fun p => (p.1 + 1, p.2)).bind fun p =>
              (i :: is)[p.1]?.map fun i => (leaf.codepoint i, leaf.count i) := by
      rw [ih]
      cases Weighted.pick (is.map leaf.count) (choice - leaf.count i) <;> rfl
    rw [leafChoose, List.map_cons, Weighted.pick]
    by_cases hcount : leaf.count i = 0
    · rw [if_neg (not_not.mpr hcount), if_neg (by omega), ← hlater, hcount, Nat.sub_zero]
    · rw [if_pos hcount]
      by_cases hchoice : choice < leaf.count i
      · rw [if_pos hchoice, if_pos hchoice]
        rfl
      · rw [if_neg hchoice, if_neg hchoice, hlater]

/-- The codepoint chosen is that of the slot the choice falls into. -/
theorem map_fst_leafChoose (leaf : Leaf) (choice : ℕ) :
    (leafChoose leaf (List.range leaf.capacity) choice).map Prod.fst
      = (Weighted.pick ((List.range leaf.capacity).map leaf.count) choice).map
          fun p => leaf.codepoint p.1 := by
  rw [leafChoose_eq]
  cases hpick : Weighted.pick ((List.range leaf.capacity).map leaf.count) choice with
  | none => rfl
  | some p =>
    obtain ⟨hi, -, -⟩ := Weighted.pick_eq_some_iff.mp hpick
    rw [List.length_map, List.length_range] at hi
    rw [Option.bind_some, List.getElem?_range hi]
    rfl

/-- **Every draw below an exact total chooses a codepoint that is counted.** -/
theorem exists_leafChoose {leaf : Leaf}
    (hplaced : ∀ i, leaf.count i ≠ 0 → leaf.codepoint i % leaf.capacity = i)
    (hexact : leaf.Exact) {choice : ℕ} (hchoice : choice < leaf.totalCount) :
    ∃ c, leafChoose leaf (List.range leaf.capacity) choice = some (c, leafCount leaf c) ∧
      0 < leafCount leaf c := by
  have hsum : leaf.totalCount = ((List.range leaf.capacity).map leaf.count).sum := hexact
  rw [hsum] at hchoice
  obtain ⟨i, r, hpick⟩ := Weighted.exists_pick_iff.mpr hchoice
  obtain ⟨hi, hr, -⟩ := Weighted.pick_eq_some_iff.mp hpick
  rw [List.length_map, List.length_range] at hi
  rw [List.getElem_map, List.getElem_range] at hr
  have hcount : leafCount leaf (leaf.codepoint i) = leaf.count i := by
    rw [leafCount, hplaced i (by omega), if_pos rfl]
  refine ⟨leaf.codepoint i, ?_, by omega⟩
  rw [leafChoose_eq, hpick, Option.bind_some, List.getElem?_range hi, hcount]
  rfl

variable {σ δ : Type} (host : Host σ δ)

/-- One call, from a context with a leaf in which the draw chooses a codepoint. -/
theorem run_markovGenerate {markov : Markov} (hlevel : markov.level ≠ 0) {context : List ℕ}
    {leaf : Leaf} (hwalk : walkNode (markov.level - 1) markov.root context = some leaf)
    {s : GenState σ δ} {choice c count : ℕ} {random : σ}
    (hdraw : host.source.u64Max s.random leaf.totalCount = some (choice, random))
    (hchoose : leafChoose leaf (List.range leaf.capacity) choice = some (c, count)) :
    (markovGenerate host markov context).run s = .ok c
      { s with
        random
        entropy := s.entropy.map fun e => e * leaf.totalCount / count
        draws := s.draws ++ [⟨.markov leaf, leaf.totalCount, some choice⟩] } := by
  rw [markovGenerate, if_neg hlevel, hwalk]
  simp only [multiplyEntropy, Effect.run_modify_bind]
  rw [run_drawBelow_bind (by exact hdraw), hchoose]
  simp only [divideEntropy, Effect.run_modify_bind, Option.map_map]
  rfl

/-- **One call**, from a context with an exact leaf: it stops only in a rejection loop that could
exit, and returns a codepoint counted there. -/
theorem markovGenerate_spec {markov : Markov} (hlevel : 0 < markov.level) {context : List ℕ}
    {leaf : Leaf} (hfind : markov.find context = some leaf) {growths : ℕ} (h : LeafOk growths leaf)
    (hexact : leaf.Exact) (hpos : 0 < leaf.totalCount) (s : GenState σ δ) :
    (∀ e t, Effect.Stops (markovGenerate host markov context) s e t →
        e = .looping ∧ ¬host.source.Exits) ∧
      ∀ c t, Effect.Returns (markovGenerate host markov context) s c t → 0 < leafCount leaf c := by
  rw [markovGenerate, if_neg hlevel.ne', walkNode_of_findLeaf hfind]
  constructor
  · intro e t hstops
    rcases Effect.stops_bind_iff.mp hstops with hstops | ⟨_, s₁, -, hstops⟩
    · exact absurd hstops Effect.not_stops_modify
    rcases Effect.stops_bind_iff.mp hstops with hstops | ⟨choice, s₂, hdraw, hstops⟩
    · obtain ⟨hnone, rfl, -⟩ := stops_drawBelow_iff.mp hstops
      refine ⟨rfl, fun hexits => ?_⟩
      have := hexits s₁.random leaf.totalCount hpos
      rw [hnone] at this
      exact absurd this (by simp)
    · obtain ⟨random, hdraw, -⟩ := returns_drawBelow_iff.mp hdraw
      obtain ⟨c, hchoose, -⟩ :=
        exists_leafChoose h.placed_of_count hexact (host.source.u64Max_lt hdraw)
      rw [hchoose] at hstops
      rcases Effect.stops_bind_iff.mp hstops with hstops | ⟨_, s₃, -, hstops⟩
      · exact absurd hstops Effect.not_stops_modify
      · exact absurd hstops Effect.not_stops_pure
  · intro c t hreturns
    obtain ⟨_, s₁, -, hreturns⟩ := Effect.returns_bind_iff.mp hreturns
    obtain ⟨choice, s₂, hdraw, hreturns⟩ := Effect.returns_bind_iff.mp hreturns
    obtain ⟨random, hdraw, -⟩ := returns_drawBelow_iff.mp hdraw
    obtain ⟨c', hchoose, hc'⟩ :=
      exists_leafChoose h.placed_of_count hexact (host.source.u64Max_lt hdraw)
    rw [hchoose] at hreturns
    obtain ⟨_, s₃, -, hreturns⟩ := Effect.returns_bind_iff.mp hreturns
    obtain ⟨rfl, -⟩ := Effect.returns_pure_iff.mp hreturns
    exact hc'

/-! ## The walk -/

/-- From `s`, calls of `passgen_markov_generate` have extended `0^level` to `word`, none of them
producing a zero, and left `t`. -/
inductive Walks (markov : Markov) (s : GenState σ δ) : List ℕ → GenState σ δ → Prop where
  | start : Walks markov s (List.replicate markov.level 0) s
  | step {word : List ℕ} {t u : GenState σ δ} {c : ℕ} (hw : Walks markov s word t)
      (hstep : Effect.Returns (markovGenerate host markov (walkContext markov.level word)) t c u)
      (hc : c ≠ 0) : Walks markov s (word ++ [c]) u

/-- What is generated so far occurs, and so does a gram that continues it. -/
structure Ongoing (level : ℕ) (words : List (List ℕ × ℕ)) (word : List ℕ) : Prop where
  length : level ≤ word.length
  windows : ∀ g ∈ windows (level + 1) word, Occurs level words g
  next : ∃ x, Occurs level words (walkContext level word ++ [x])

theorem ongoing_start {level : ℕ} {words : List (List ℕ × ℕ)} (hne : words ≠ []) :
    Ongoing level words (List.replicate level 0) := by
  refine ⟨List.length_replicate.ge, fun g hg => ?_, ?_⟩
  · obtain ⟨i, hi, -⟩ := mem_windows_iff.mp hg
    rw [List.length_replicate] at hi
    omega
  · rw [walkContext, List.length_replicate, Nat.sub_self, List.drop_zero]
    exact occurs_start hne

/-- **A step keeps the walk going.** -/
theorem Ongoing.step {level : ℕ} (hlevel : 0 < level) {words : List (List ℕ × ℕ)} {word : List ℕ}
    (h : Ongoing level words word) {c : ℕ}
    (hoccurs : Occurs level words (walkContext level word ++ [c])) (hc : c ≠ 0) :
    Ongoing level words (word ++ [c]) := by
  have hlen := h.length
  refine ⟨?_, fun g hg => ?_, ?_⟩
  · rw [List.length_append]
    omega
  · rw [windows_concat h.length, List.mem_append, List.mem_singleton] at hg
    rcases hg with hg | rfl
    · exact h.windows g hg
    · exact hoccurs
  · have hcontext : walkContext level (word ++ [c]) = (walkContext level word).drop 1 ++ [c] := by
      rw [walkContext, walkContext, List.length_append, List.length_singleton,
        List.drop_append_of_le_length (by omega), List.drop_drop]
      congr 2
      omega
    rw [hcontext]
    exact hoccurs.next hlevel hc

/-- What a trained chain knows about a context that occurs. -/
theorem Counts.exists_leaf {markov : Markov} {words : List (List ℕ × ℕ)} {sum : ℕ}
    (h : Counts markov (gramWeight markov.level words) sum) (hweights : ∀ p ∈ words, 0 < p.2)
    (hlt : ∀ g, gramWeight markov.level words g < 2 ^ 32) {context : List ℕ}
    (hnext : ∃ x, Occurs markov.level words (context ++ [x])) :
    ∃ leaf, markov.find context = some leaf ∧ LeafOk maxGrowths leaf ∧ leaf.Exact ∧
      0 < leaf.totalCount ∧
      ∀ c, leafCount leaf c = gramWeight markov.level words (context ++ [c]) := by
  obtain ⟨x, hx⟩ := hnext
  have hcount : ∀ c, markov.countAfter context c = gramWeight markov.level words (context ++ [c]) :=
    fun c => (h.gram context c).trans (Nat.mod_eq_of_lt (hlt _))
  have hpos := (gramWeight_pos_iff hweights).mpr hx
  cases hfind : markov.find context with
  | none =>
    have hzero : markov.countAfter context x = 0 := by
      rw [Markov.countAfter, Passgen.countAfter]
      rw [Markov.find] at hfind
      rw [hfind]
      rfl
    rw [hcount] at hzero
    omega
  | some leaf =>
    have hleaf : ∀ c, leafCount leaf c = gramWeight markov.level words (context ++ [c]) := by
      intro c
      rw [← hcount, Markov.countAfter, Passgen.countAfter]
      rw [Markov.find] at hfind
      rw [hfind]
      rfl
    have hexact := h.exact context leaf hfind fun x => hlt _
    have hok := leafOk_of_findLeaf h.ok hfind
    refine ⟨leaf, rfl, hok, hexact, ?_, hleaf⟩
    exact hexact.pos hok (by rw [hleaf]; exact hpos)

/-- **A walk keeps going**, whatever is drawn. -/
theorem Walks.ongoing {markov : Markov} {words : List (List ℕ × ℕ)} {sum : ℕ} (hne : words ≠ [])
    (h : Counts markov (gramWeight markov.level words) sum) (hweights : ∀ p ∈ words, 0 < p.2)
    (hlt : ∀ g, gramWeight markov.level words g < 2 ^ 32) {s t : GenState σ δ} {word : List ℕ}
    (hw : Walks host markov s word t) : Ongoing markov.level words word := by
  induction hw with
  | start => exact ongoing_start hne
  | step hw hstep hc ih =>
    obtain ⟨leaf, hfind, hok, hexact, hpos, hcount⟩ := h.exists_leaf hweights hlt ih.next
    have hpositive := (markovGenerate_spec host h.pos hfind hok hexact hpos _).2 _ _ hstep
    rw [hcount] at hpositive
    exact ih.step h.pos ((gramWeight_pos_iff hweights).mp hpositive) hc

/-- **The walk never gets stuck**: as long as no zero is generated, its context has a leaf of its
own with a positive total, which indexing by residue finds; the call stops only in a rejection loop
that could exit; and what it returns is counted there and continues the walk inside the padded
words. -/
theorem walks_markovGenerate {level : UInt8} (hlevel : 0 < level.toNat)
    {words : List (List ℕ × ℕ)} (hne : words ≠ []) (hweights : ∀ p ∈ words, 0 < p.2)
    (hwords : ∀ p ∈ words, ∀ c ∈ p.1, c ≤ maxCodepoint)
    (hlt : ∀ g, gramWeight level.toNat words g < 2 ^ 32) :
    ∃ markov, markovTrain (markovInit level) words = some markov ∧ markov.level = level.toNat ∧
      ∀ {σ δ : Type} (host : Host σ δ) (s t : GenState σ δ) (word : List ℕ),
        Walks host markov s word t →
          (∃ leaf, markov.find (walkContext markov.level word) = some leaf ∧
            walkNode (markov.level - 1) markov.root (walkContext markov.level word) = some leaf ∧
            0 < leaf.totalCount) ∧
          (∀ e u, Effect.Stops (markovGenerate host markov (walkContext markov.level word)) t e u →
            e = .looping ∧ ¬host.source.Exits) ∧
          ∀ c u,
            Effect.Returns (markovGenerate host markov (walkContext markov.level word)) t c u →
              0 < markov.countAfter (walkContext markov.level word) c ∧
              ∀ g ∈ windows (markov.level + 1) (word ++ [c]), Occurs markov.level words g := by
  obtain ⟨markov, htrain, hmarkov, hcounts⟩ := (counts_init hlevel).train hwords
  simp only [Nat.zero_add] at hcounts
  have hmarkov : markov.level = level.toNat := hmarkov
  rw [← hmarkov] at hlt
  have hcounts : Counts markov (gramWeight markov.level words) (totalWeight words) := by
    rw [hmarkov]
    exact hcounts
  refine ⟨markov, htrain, hmarkov, fun host s t word hw => ?_⟩
  have hongoing := hw.ongoing host hne hcounts hweights hlt
  obtain ⟨leaf, hfind, hok, hexact, hpos, hcount⟩ := hcounts.exists_leaf hweights hlt hongoing.next
  obtain ⟨hstops, hreturns⟩ := markovGenerate_spec host hcounts.pos hfind hok hexact hpos t
  refine ⟨⟨leaf, hfind, walkNode_of_findLeaf hfind, hpos⟩, hstops, fun c u hc => ?_⟩
  have hpositive := hreturns c u hc
  rw [hcount] at hpositive
  refine ⟨?_, fun g hg => ?_⟩
  · rw [hcounts.gram, Nat.mod_eq_of_lt (hlt _)]
    exact hpositive
  · rw [windows_concat hongoing.length, List.mem_append, List.mem_singleton] at hg
    rcases hg with hg | rfl
    · exact hongoing.windows g hg
    · exact (gramWeight_pos_iff hweights).mp hpositive

/-- Draws played back, for a callback that accepts every codepoint. -/
def drawHost : Host (List ℕ) Unit := ⟨drawSource, fun _ _ => (0, ())⟩

theorem walks_markovGenerate_sample :
    ∃ markov, markovTrain (markovInit 2) [([97, 98], 1)] = some markov ∧ markov.level = 2 ∧
      ∀ {σ δ : Type} (host : Host σ δ) (s t : GenState σ δ) (word : List ℕ),
        Walks host markov s word t →
          (∃ leaf, markov.find (walkContext markov.level word) = some leaf ∧
            walkNode (markov.level - 1) markov.root (walkContext markov.level word) = some leaf ∧
            0 < leaf.totalCount) ∧
          (∀ e u, Effect.Stops (markovGenerate host markov (walkContext markov.level word)) t e u →
            e = .looping ∧ ¬host.source.Exits) ∧
          ∀ c u,
            Effect.Returns (markovGenerate host markov (walkContext markov.level word)) t c u →
              0 < markov.countAfter (walkContext markov.level word) c ∧
              ∀ g ∈ windows (markov.level + 1) (word ++ [c]),
                Occurs markov.level [([97, 98], 1)] g :=
  walks_markovGenerate (by decide) (by decide) (by decide) (by decide) fun g =>
    (gramWeight_le_totalWeight _ _ g).trans_lt (by decide)

/-- The draws of a run that ends in a fault. -/
def faultDraws {α : Type} : EStateM.Result Stop (GenState σ δ) α → Option (List (Option ℕ))
  | .error .fault s => some (s.draws.map Draw.taken)
  | _ => none

/-- A gram that occurs twice in one word wraps below a total weight of `2 ^ 32`, and a draw then
falls past all counts. -/
theorem markovGenerate_stuck :
    ((markovTrain (markovInit 1) [([97, 97, 97], 2 ^ 31)]).bind fun markov =>
      faultDraws ((markovGenerate drawHost markov [0] >>= fun c =>
        markovGenerate drawHost markov [c]).run (GenState.init [0, 2 ^ 31] () 1 false [])))
      = some [some 0, some (2 ^ 31)] := by
  decide +kernel

end Passgen
