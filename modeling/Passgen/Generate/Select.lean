import Mathlib.Data.List.Basic
import Mathlib.Data.Set.Function
import Mathlib.Tactic.Common
import Passgen.Generate.Bounds
import Passgen.Parser.Print
import Passgen.Weighted.Select

/-!
# Generate/Select — three searches, one law

    group   subtract the multipliers       set   compare with running totals
    leaf    subtract the counts, past the empty slots

Each search splits the draws below its total by weight.  A segment and a codepoint of a leaf are
chosen by as many draws as they weigh, and the entropy grows by the total over the weight; the draws
of a set are in bijection with the codepoints of its ranges, as long as `choices_list` counts them.
-/

namespace Passgen

variable {σ δ : Type} (host : Host σ δ)

/-! ## Segments -/

/-- Draws choose segments by multiplier: a run chooses one, multiplies the entropy by
`multiplier_sum` over its multiplier, and goes on with its items. -/
structure SelectsSegments (group : GroupOf (Gen σ δ Unit)) : Prop where
  selects : Weighted.Selects (fun r => (chooseSegment group.segments r).map Prod.fst)
    group.multiplierSum fun i => (group.segments.map SegmentOf.multiplier).getD i 0
  run : ∀ (s : GenState σ δ) (r : ℕ) (random : σ), s.depth ≠ 0 →
    host.source.u64Max s.random group.multiplierSum = some (r, random) →
    ∃ i segment, chooseSegment group.segments r = some (i, segment) ∧
      group.segments[i]? = some segment ∧
      (generateGroup host group).run s = EStateM.run (do generateSegment segment; ascend)
        { s with
          random
          depth := s.depth - 1
          entropy := s.entropy.map fun e => e * group.multiplierSum / segment.multiplier
          draws := s.draws
            ++ [⟨.segment (group.segments.map SegmentOf.multiplier), group.multiplierSum, some r⟩] }

/-- **The subtracting loop is exact.** -/
theorem selectsSegments {group : GroupOf (Gen σ δ Unit)}
    (hsum : group.multiplierSum = totalMultiplier group.segments) (hpos : 0 < group.multiplierSum) :
    SelectsSegments host group where
  selects := by
    have hpicks := Weighted.selects_pick (group.segments.map SegmentOf.multiplier) id
    simp only [map_fst_chooseSegment, hsum]
    refine ⟨hpicks.complete, fun i => (hpicks.card_eq i).trans ?_⟩
    simp only [id, Finset.sum_filter, Finset.sum_ite_eq', Finset.mem_range]
    split
    · rfl
    · rename_i hi
      rw [List.getD_eq_default _ _ (not_lt.mp hi)]
  run s r random hdepth hdraw := by
    have hlt := host.source.u64Max_lt hdraw
    obtain ⟨i, segment, hchoose⟩ := exists_chooseSegment_iff.mpr (hsum ▸ hlt)
    refine ⟨i, segment, hchoose, (chooseSegment_eq_some_iff.mp hchoose).1, ?_⟩
    have hdescend : Effect.Returns descend s () { s with depth := s.depth - 1 } :=
      returns_descend_iff.mpr ⟨hdepth, rfl⟩
    rw [generateGroup, hdescend.run_bind, if_neg hpos.ne',
      run_drawBelow_bind (s := { s with depth := s.depth - 1 }) hdraw, hchoose]
    simp only [multiplyEntropy, divideEntropy, Effect.run_modify_bind, Option.map_map]
    rfl

/-! ## Codepoints of a set -/

/-- A set as the parser closes it: its ranges are in order, and `choices_list` holds the running
totals. -/
structure PatternSet.Closed (set : PatternSet) : Prop where
  ranges : ∀ range ∈ set.items, range.start ≤ range.stop
  closed : set.choicesList = choicesFrom 0 set.items

theorem setRules_closed : SetRules PatternSet.Closed where
  empty {set} hnil := by
    refine ⟨fun range hrange => ?_, rfl⟩
    rw [setClose, hnil] at hrange
    exact absurd hrange List.not_mem_nil
  push {set} c h := by
    refine ⟨fun range hrange => ?_, rfl⟩
    rcases List.mem_append.mp hrange with hrange | hrange
    · exact h.ranges range hrange
    · obtain rfl := List.mem_singleton.mp hrange
      exact le_rfl
  extend {set last c} hlast hle h := by
    obtain ⟨init, hitems⟩ := List.getLast?_eq_some_iff.mp hlast
    refine ⟨fun range hrange => ?_, rfl⟩
    rw [setClose, setExtend, hitems, List.modifyLast_concat, List.mem_append] at hrange
    rcases hrange with hrange | hrange
    · refine h.ranges range ?_
      rw [setClose, hitems]
      exact List.mem_append_left _ hrange
    · obtain rfl := List.mem_singleton.mp hrange
      exact hle

/-- **The sets of an accepted pattern are closed.** -/
theorem offers_closed_of_parse {string : List UInt8} {g : Group} (hparse : parse string = .ok g) :
    g.Offers (Site.Within PatternSet.Closed) :=
  setRules_closed.offers_of_parse hparse

/-- `choices_list[last]`. -/
def PatternSet.possible (set : PatternSet) : ℕ := set.choicesList.getD (set.items.length - 1) 0

/-- The range and the codepoint of a choice. -/
def setPair (set : PatternSet) (choice : ℕ) : Option (ℕ × ℕ) :=
  let num := (set.choicesList.take set.items.length).findIdx fun total => choice < total
  (setCodepoint set choice).map fun codepoint => (num, codepoint)

/-- The ranges of a set, by index, each with its codepoints. -/
def PatternSet.pairs (set : PatternSet) : Set (ℕ × ℕ) :=
  {p | ∃ range, set.items[p.1]? = some range ∧ range.start ≤ p.2 ∧ p.2 ≤ range.stop}

/-- The choices of each range fit a `uint32_t`, and those of the set a `size_t`. -/
structure PatternSet.Fits (set : PatternSet) : Prop where
  range : ∀ range ∈ set.items, range.size < 2 ^ 32
  sum : (set.items.map Range.size).sum < 2 ^ 64

/-- Draws and codepoints of the ranges are in bijection: a run emits the codepoint of its draw, and
multiplies the entropy by their number. -/
structure SelectsCodepoints (set : PatternSet) : Prop where
  bijOn : Set.BijOn (setPair set) (Set.Iio set.possible) (some '' set.pairs)
  run : ∀ (s : GenState σ δ) (r : ℕ) (random : σ),
    host.source.u64Max s.random set.possible = some (r, random) →
    ∃ codepoint, setCodepoint set r = some codepoint ∧
      (generateSet host set).run s = (emit host codepoint).run
        { s with
          random
          entropy := s.entropy.map fun e => e * set.possible
          draws := s.draws ++ [⟨.set set, set.possible, some r⟩] }

theorem Range.choices_eq {range : Range} (hle : range.start ≤ range.stop) :
    range.choices = range.size % 2 ^ 32 := by
  rw [Range.choices, Range.size]
  omega

/-- Without wraps the totals written when a set is closed are those of the sizes. -/
theorem choicesFrom_eq_totals {items : List Range} (hitems : ∀ range ∈ items,
    range.choices = range.size) {choices : ℕ}
    (hlt : choices + (items.map Range.size).sum < 2 ^ 64) :
    choicesFrom choices items = Weighted.totals choices (items.map Range.size) := by
  induction items generalizing choices with
  | nil => rfl
  | cons range items ih =>
    rw [List.map_cons, List.sum_cons] at hlt
    rw [choicesFrom, hitems range List.mem_cons_self, sizeT_of_lt (by omega), List.map_cons,
      Weighted.totals, ih (fun r hr => hitems r (List.mem_cons_of_mem range hr)) (by omega)]

namespace PatternSet

variable {set : PatternSet}

/-- **A closed set whose choices fit is valid.** -/
theorem Closed.valid (h : set.Closed) (hwidth : ∀ range ∈ set.items, range.stop < 2 ^ 32)
    (hfits : set.Fits) : set.Valid where
  ranges range hrange := ⟨h.ranges range hrange, hwidth range hrange⟩
  choices := by
    rw [h.closed]
    refine choicesFrom_eq_totals (fun range hrange => ?_) (by rw [Nat.zero_add]; exact hfits.sum)
    rw [Range.choices_eq (h.ranges range hrange), Nat.mod_eq_of_lt (hfits.range range hrange)]
  sum := hfits.sum

/-- The last total, as it is computed. -/
theorem Closed.possible_eq (h : set.Closed) (hne : set.items ≠ []) :
    set.possible = sizeT set.choices := by
  have hlast := getLast_choicesFrom hne 0
  rw [Nat.zero_add, ← h.closed] at hlast
  rw [PatternSet.possible, List.getD_eq_getElem?_getD, hlast]
  rfl

theorem Valid.possible_eq (h : set.Valid) (hne : set.items ≠ []) :
    set.possible = (set.items.map Range.size).sum := by
  rw [PatternSet.possible, List.getD_eq_getElem?_getD,
    h.possible fun hlen => hne (List.length_eq_zero_iff.mp hlen)]
  rfl

/-- The codepoint of a place: so far into its range. -/
def placeCodepoint (set : PatternSet) (p : ℕ × ℕ) : ℕ × ℕ :=
  (p.1, (set.items.getD p.1 ⟨0, 0⟩).start + p.2)

/-- The places of the sizes are the codepoints of the ranges. -/
theorem image_places (hranges : ∀ range ∈ set.items, range.start ≤ range.stop) :
    set.placeCodepoint '' Weighted.places (set.items.map Range.size) = set.pairs := by
  ext ⟨i, c⟩
  constructor
  · rintro ⟨⟨j, r⟩, ⟨hj, hr⟩, hpair⟩
    simp only [List.length_map] at hj
    simp only [List.getElem_map, Range.size] at hr
    obtain ⟨rfl, rfl⟩ := Prod.mk.inj hpair
    have hle := hranges _ (List.getElem_mem hj)
    refine ⟨set.items[j], List.getElem?_eq_getElem hj, ?_⟩
    simp only [List.getD_eq_getElem _ _ hj]
    omega
  · rintro ⟨range, hrange, hstart, hstop⟩
    obtain ⟨hi, rfl⟩ := List.getElem?_eq_some_iff.mp hrange
    simp only at hi hstart hstop
    refine ⟨(i, c - set.items[i].start), ⟨by rwa [List.length_map], ?_⟩, ?_⟩
    · simp only [List.getElem_map, Range.size]
      omega
    · simp only [placeCodepoint, List.getD_eq_getElem _ _ hi, Nat.add_sub_cancel' hstart]

theorem image_some_places (hranges : ∀ range ∈ set.items, range.start ≤ range.stop) :
    (fun p => some (set.placeCodepoint p)) '' Weighted.places (set.items.map Range.size)
      = some '' set.pairs := by
  rw [← image_places hranges, Set.image_image]

theorem injective_some_placeCodepoint (set : PatternSet) :
    Function.Injective fun p => some (set.placeCodepoint p) := by
  refine (Option.some_injective _).comp ?_
  rintro ⟨i, r⟩ ⟨j, t⟩ h
  obtain ⟨rfl, h⟩ := Prod.mk.inj h
  exact congrArg _ (Nat.add_left_cancel h)

/-- **The comparing loop is exact** on a valid set. -/
theorem Valid.bijOn (h : set.Valid) (hne : set.items ≠ []) :
    Set.BijOn (setPair set) (Set.Iio set.possible) (some '' set.pairs) := by
  have hpick : ∀ d p, Weighted.pick (set.items.map Range.size) d = some p →
      setPair set d = some (set.placeCodepoint p) := by
    rintro d ⟨i, r⟩ hpick
    obtain ⟨range, hrange, hcode, -⟩ := setCodepoint_eq h hpick
    have hfind := Weighted.findIdx_totals 0 hpick
    simp only [Nat.zero_add] at hfind
    rw [setPair, hcode, h.choices, List.take_of_length_le (by simp), hfind, Option.map_some,
      placeCodepoint, List.getD_eq_getElem?_getD, hrange]
    rfl
  have hbij := Weighted.bijOn_places hpick set.injective_some_placeCodepoint.injOn
  rwa [image_some_places fun range hrange => (h.ranges range hrange).1, ← h.possible_eq hne] at hbij

/-- **The draws are as many as the codepoints only where nothing wraps.** -/
theorem Closed.fits_of_bijOn (h : set.Closed) (hne : set.items ≠ []) {f : ℕ → Option (ℕ × ℕ)}
    (hf : Set.BijOn f (Set.Iio set.possible) (some '' set.pairs)) : set.Fits := by
  have hplaces := Weighted.bijOn_places
    (f := fun d => (Weighted.pick (set.items.map Range.size) d).map set.placeCodepoint)
    (fun d p hpick => by rw [hpick]; rfl) set.injective_some_placeCodepoint.injOn
  rw [image_some_places h.ranges] at hplaces
  have hcount := Weighted.bijOn_Iio_unique hf hplaces
  have hle : ∀ range ∈ set.items, range.choices ≤ range.size := fun range hrange =>
    (Range.choices_eq (h.ranges range hrange)).trans_le (Nat.mod_le _ _)
  have hsizeT : sizeT set.choices ≤ set.choices := Nat.mod_le _ _
  have hlt : sizeT set.choices < 2 ^ 64 := sizeT_lt _
  rw [h.possible_eq hne] at hcount
  have hsum : set.choices = (set.items.map Range.size).sum :=
    le_antisymm (List.sum_le_sum hle) (hcount ▸ hsizeT)
  refine ⟨fun range hrange => ?_, by omega⟩
  rw [← Weighted.eq_of_sum_map_eq hle hsum hrange]
  exact Nat.mod_lt _ (by decide)

end PatternSet

/-- **The comparing loop is exact where `choices_list` counts.** -/
theorem selectsCodepoints_iff {set : PatternSet} (h : set.Closed) (hne : set.items ≠ [])
    (hwidth : ∀ range ∈ set.items, range.stop < 2 ^ 32) :
    SelectsCodepoints host set ↔ set.Fits := by
  refine ⟨fun hselects => h.fits_of_bijOn hne hselects.bijOn, fun hfits => ?_⟩
  have hvalid := h.valid hwidth hfits
  refine ⟨hvalid.bijOn hne, fun s r random hdraw => ?_⟩
  have hlt := host.source.u64Max_lt hdraw
  rw [hvalid.possible_eq hne] at hlt
  obtain ⟨i, t, hpick⟩ := Weighted.exists_pick_iff.mpr hlt
  obtain ⟨range, -, hcode, -⟩ := setCodepoint_eq hvalid hpick
  refine ⟨_, hcode, ?_⟩
  have hlen : set.items.length ≠ 0 := fun hlen => hne (List.length_eq_zero_iff.mp hlen)
  rw [generateSet, if_neg hlen, hvalid.possible hlen, ← hvalid.possible_eq hne]
  simp only [run_drawBelow_bind hdraw, hcode, multiplyEntropy, Effect.run_modify_bind]

/-! ## Codepoints of a leaf -/

/-- A leaf insertions have made, with the weight they inserted. -/
inductive Leaf.Inserted : ℕ → Leaf → Prop where
  | new {sizeIndex : ℕ} {leaf : Leaf} (h : leafNew sizeIndex = some leaf) : Inserted 0 leaf
  | insert {total growths c weight : ℕ} {leaf leaf' : Leaf} (h : Inserted total leaf)
      (hinsert : leafInsert growths leaf c weight = some leaf') : Inserted (total + weight) leaf'

/-- Draws choose codepoints by count: a run that reaches the leaf returns one, and multiplies the
entropy by the total over its count. -/
structure SelectsCounts (leaf : Leaf) : Prop where
  selects : Weighted.Selects
    (fun r => (leafChoose leaf (List.range leaf.capacity) r).map Prod.fst) leaf.totalCount
    (leafCount leaf)
  run : ∀ (markov : Markov) (current : List ℕ) (s : GenState σ δ) (r : ℕ) (random : σ),
    markov.level ≠ 0 → walkNode (markov.level - 1) markov.root current = some leaf →
    host.source.u64Max s.random leaf.totalCount = some (r, random) →
    ∃ c, leafChoose leaf (List.range leaf.capacity) r = some (c, leafCount leaf c) ∧
      (markovGenerate host markov current).run s = .ok c
        { s with
          random
          entropy := s.entropy.map fun e => e * leaf.totalCount / leafCount leaf c
          draws := s.draws ++ [⟨.markov leaf, leaf.totalCount, some r⟩] }

/-- **Below `2 ^ 32` the total of an inserted leaf is exact.** -/
theorem Leaf.Inserted.tight {total : ℕ} {leaf : Leaf} (h : leaf.Inserted total)
    (hlt : total < 2 ^ 32) : leaf.Tight total := by
  induction h with
  | new h => exact leafInvariant_tight.new h
  | insert h hinsert ih => exact leafInvariant_tight.insert hinsert (ih (by omega)) hlt

/-- **The loop over the slots is exact**, where the total is. -/
theorem selectsCounts {total : ℕ} {leaf : Leaf} (h : leaf.Tight total) :
    SelectsCounts host leaf where
  selects := by
    have hpicks := Weighted.selects_pick ((List.range leaf.capacity).map leaf.count) leaf.codepoint
    have htotal : leaf.totalCount = ((List.range leaf.capacity).map leaf.count).sum := h.exact
    simp only [map_fst_leafChoose, htotal]
    refine ⟨hpicks.complete, fun c => (hpicks.card_eq c).trans ?_⟩
    have hcount : ∀ i < leaf.capacity,
        ((List.range leaf.capacity).map leaf.count).getD i 0 = leaf.count i := by
      intro i hi
      rw [List.getD_eq_getElem _ _ (by simpa using hi), List.getElem_map, List.getElem_range]
    rw [Finset.sum_filter, List.length_map, List.length_range,
      Finset.sum_eq_single (c % leaf.capacity)]
    · rw [leafCount, hcount _ (Nat.mod_lt _ h.pos)]
    · -- elsewhere the codepoint has no count, or it would be in its own slot
      intro i hi hne
      rw [hcount i (Finset.mem_range.mp hi)]
      by_contra hsum
      obtain ⟨rfl, hpos⟩ := ite_ne_right_iff.mp hsum
      exact hne (h.placed i hpos).symm
    · exact fun hslot => absurd (Finset.mem_range.mpr (Nat.mod_lt _ h.pos)) hslot
  run markov current s r random hlevel hwalk hdraw := by
    obtain ⟨c, hchoose, -⟩ := exists_leafChoose h.placed h.exact (host.source.u64Max_lt hdraw)
    exact ⟨c, hchoose, run_markovGenerate host hlevel hwalk hdraw hchoose⟩

/-! ## The three searches -/

/-- **Weighted selection is exact**: of segments, where `multiplier_sum` is the sum of the
multipliers; of the codepoints of a closed set, exactly where no range is all of `uint32_t` and the
choices of the set fit a `size_t`; and of the codepoints of a leaf into which less than `2 ^ 32` was
inserted. -/
theorem selection_exact :
    (∀ group : GroupOf (Gen σ δ Unit), group.multiplierSum = totalMultiplier group.segments →
      0 < group.multiplierSum → SelectsSegments host group) ∧
    (∀ set : PatternSet, set.Closed → set.items ≠ [] → (∀ range ∈ set.items, range.stop < 2 ^ 32) →
      (SelectsCodepoints host set ↔ set.Fits)) ∧
    ∀ (total : ℕ) (leaf : Leaf), leaf.Inserted total → total < 2 ^ 32 → SelectsCounts host leaf :=
  ⟨fun _ hsum hpos => selectsSegments host hsum hpos,
    fun _ hclosed hne hwidth => selectsCodepoints_iff host hclosed hne hwidth,
    fun _ _ hinserted hlt => selectsCounts host (hinserted.tight hlt)⟩

/-- Segments of weights 1 and 3, the set `[a-cx]`, and a leaf that has counted one codepoint
twice. -/
theorem selection_exact_samples :
    SelectsSegments drawHost ⟨[⟨[], 1⟩, ⟨[], 3⟩], 4⟩ ∧
    SelectsCodepoints drawHost ⟨[⟨97, 99⟩, ⟨120, 120⟩], [3, 4]⟩ ∧
    ∃ leaf, leafNew 0 = some leaf ∧ SelectsCounts drawHost (leaf.bump 97 2) := by
  have hnew : leafNew 0 = some ⟨0, 3, fun _ => 0, fun _ => 0⟩ := rfl
  have hinsert : leafInsert 0 ⟨0, 3, fun _ => 0, fun _ => 0⟩ 97 2 = some (Leaf.bump _ 97 2) :=
    leafInsert_bump 0 (by decide) fun hcollides => hcollides.1 rfl
  obtain ⟨hsegments, hsets, hleaves⟩ := selection_exact drawHost
  refine ⟨hsegments _ rfl (by decide), (hsets _ ⟨by decide, rfl⟩ ?_ (by decide)).mpr
    ⟨by decide, by decide⟩, _, hnew, hleaves (0 + 2) _ (.insert (.new hnew) hinsert) (by decide)⟩
  exact List.cons_ne_nil _ _

/-! ## A set that wraps -/

/-- The range `.-\-`, whose end keeps the escape bit: `2 ^ 30` codepoints. -/
def wideRange : Range := ⟨'.'.toNat, escapedToken '-'.toNat⟩

/-- That range, `n` times, in brackets. -/
def wideTokens (n : ℕ) : List ℕ := dataTokens (.set (List.replicate n wideRange))

/-- The set it is read as. -/
def wideSet (n : ℕ) : PatternSet := setClose ⟨List.replicate n wideRange, []⟩

theorem mem_wideTokens {n t : ℕ} (h : t ∈ wideTokens n) :
    t ∈ ['['.toNat, '.'.toNat, '-'.toNat, escapedToken '-'.toNat, ']'.toNat] := by
  rw [wideTokens, dataTokens, List.mem_append, List.mem_cons, List.mem_flatMap] at h
  rcases h with (rfl | ⟨range, hrange, ht⟩) | ht
  · exact List.mem_cons_self
  · obtain rfl := List.eq_of_mem_replicate hrange
    exact List.mem_cons_of_mem _ (List.mem_append_left [']'.toNat] ht)
  · exact List.mem_append_right ['['.toNat, '.'.toNat, '-'.toNat, escapedToken '-'.toNat] ht

/-- **The ranges are accepted.** -/
theorem parse_wideTokens (n : ℕ) :
    parse (utf8EncodeAll ((wideTokens n).flatMap spell))
      = .ok ⟨[⟨[.init (.set (wideSet n))], 1⟩], 1⟩ := by
  have hscalar : ∀ t ∈ ['['.toNat, '.'.toNat, '-'.toNat, escapedToken '-'.toNat, ']'.toNat],
      ∀ c ∈ spell t, IsScalar c := by decide
  have hspell : ∀ t ∈ ['['.toNat, '.'.toNat, '-'.toNat, escapedToken '-'.toNat, ']'.toNat],
      t < 2 ^ 30 ∨ t = escapedToken '-'.toNat := by decide
  have hlex : lex .init ((wideTokens n).flatMap spell) = some (wideTokens n) := by
    refine lex_flatMap_spell fun t ht => ?_
    rcases hspell t (mem_wideTokens ht) with hlt | rfl
    · exact .inl hlt
    · exact .inr ⟨'-'.toNat, by decide, rfl, by decide, by decide⟩
  refine (parse_encodeAll_iff (fun c hc => ?_) _).mpr ⟨wideTokens n, _, hlex,
    parseStates_set _ [] ready_segmentInit fun range hrange => ?_, rfl⟩
  · obtain ⟨t, ht, hc⟩ := List.mem_flatMap.mp hc
    exact hscalar t (mem_wideTokens ht) c hc
  · obtain rfl := List.eq_of_mem_replicate hrange
    exact ⟨by unfold RangeEnd; decide, by decide, by decide⟩

theorem closed_wideSet (n : ℕ) : (wideSet n).Closed where
  ranges range hrange := by
    obtain rfl := List.eq_of_mem_replicate hrange
    decide
  closed := rfl

theorem choices_wideSet (n : ℕ) : (wideSet n).choices = n * 2 ^ 30 := by
  have hwide : wideRange.choices = 2 ^ 30 := by decide
  rw [PatternSet.choices, wideSet, setClose, List.map_replicate, List.sum_replicate, hwide,
    smul_eq_mul]

/-- `2 ^ 34` such ranges have `2 ^ 64` choices: no draw is below `choices_list[last]`, and there are
codepoints to draw. -/
theorem not_selectsCodepoints_wideSet :
    parse (utf8EncodeAll ((wideTokens (2 ^ 34)).flatMap spell))
        = .ok ⟨[⟨[.init (.set (wideSet (2 ^ 34)))], 1⟩], 1⟩ ∧
      (wideSet (2 ^ 34)).Closed ∧ (wideSet (2 ^ 34)).items ≠ [] ∧
      ∀ f : ℕ → Option (ℕ × ℕ), ¬Set.BijOn f (Set.Iio (wideSet (2 ^ 34)).possible)
        (some '' (wideSet (2 ^ 34)).pairs) := by
  have hclosed := closed_wideSet (2 ^ 34)
  have hne : (wideSet (2 ^ 34)).items ≠ [] := fun hnil =>
    absurd ((List.replicate_eq_nil_iff _).mp hnil) (by decide)
  refine ⟨parse_wideTokens _, hclosed, hne, fun f hf => ?_⟩
  have hpossible : (wideSet (2 ^ 34)).possible = 0 := by
    rw [hclosed.possible_eq hne, choices_wideSet]
    decide
  have hpair : ((0, '.'.toNat) : ℕ × ℕ) ∈ (wideSet (2 ^ 34)).pairs := by
    refine ⟨wideRange, ?_, by decide, by decide⟩
    rw [wideSet, setClose, List.getElem?_replicate, if_pos (by decide)]
  obtain ⟨r, hr, -⟩ := hf.surjOn (Set.mem_image_of_mem some hpair)
  rw [hpossible] at hr
  exact absurd hr (Nat.not_lt_zero r)

end Passgen
