import Mathlib.Data.List.Basic
import Mathlib.Tactic.Common
import Passgen.Chance.Strings
import Passgen.Generate.Language
import Passgen.Generate.Sink

/-!
# Generate/Law — the distribution of a pattern

    set ▸ a uniform codepoint     item ▸ a uniform count of copies     group ▸ a segment by multiplier

A special-free pattern denotes a random string, and generating it with uniform draws samples that
string: the draws of the generator are a tree, which it follows whatever is drawn, and whose law is
that of the pattern.
-/

namespace Passgen

open Chance (concat concatAll oneOf power words)

/-! ## The law -/

/-- One of the codepoints of the ranges, each as likely as any other. -/
noncomputable def setLaw (set : PatternSet) : PMF (List ℕ) :=
  oneOf (set.items.flatMap fun range =>
    (List.range' range.start range.size).map fun c => PMF.pure [c])

/-- A segment by its multiplier, item after item. -/
noncomputable def groupLaw (group : GroupOf (PMF (List ℕ))) : PMF (List ℕ) :=
  oneOf (group.segments.flatMap fun segment =>
    List.replicate segment.multiplier (concatAll segment.items))

/-- One copy of an item. -/
noncomputable def dataLaw : ItemData (PMF (List ℕ)) → PMF (List ℕ)
  | .set set => setLaw set
  | .literal literal => PMF.pure literal.codepoints
  | .special _ => PMF.pure []
  | .group group => groupLaw group

/-- Between `min` and `max` independent copies, each count as likely as any other. -/
noncomputable def copiesLaw (rep : Repeat) (μ : PMF (List ℕ)) : PMF (List ℕ) :=
  oneOf ((List.range' rep.min (rep.max - rep.min + 1)).map fun n => power n μ)

/-- The copies of an item, or, as likely, none when maybe. -/
noncomputable def itemLaw (data : ItemData (PMF (List ℕ))) (rep : Repeat) (maybe : Bool) :
    PMF (List ℕ) :=
  if maybe then oneOf [PMF.pure [], copiesLaw rep (dataLaw data)] else copiesLaw rep (dataLaw data)

noncomputable def Item.law (item : Item) : PMF (List ℕ) := item.fold itemLaw

/-- The law of a pattern. -/
noncomputable def Group.law (pattern : Group) : PMF (List ℕ) := groupLaw (pattern.map Item.law)

theorem Item.law_mk (data : ItemData Item) (rep : Repeat) (maybe : Bool) :
    (Item.mk data rep maybe).law = itemLaw (data.map Item.law) rep maybe :=
  Item.fold_mk _ data rep maybe

/-! ## What a choice leads to -/

/-- The codepoint at a place of the ranges is the one its draw falls on. -/
theorem getElem?_codepoints {β : Type*} (f : ℕ → β) (ranges : List Range) (choice : ℕ) :
    (ranges.flatMap fun range => (List.range' range.start range.size).map f)[choice]?
      = (Weighted.pick (ranges.map Range.size) choice).bind fun p =>
          ranges[p.1]?.map fun range => f (range.start + p.2) := by
  induction ranges generalizing choice with
  | nil => rfl
  | cons range ranges ih =>
    rw [List.flatMap_cons, List.map_cons, Weighted.pick]
    by_cases h : choice < range.size
    · rw [List.getElem?_append_left (by simpa using h), if_pos h]
      simp [h]
    · rw [List.getElem?_append_right (by simpa using h), if_neg h, List.length_map,
        List.length_range', ih]
      cases Weighted.pick (ranges.map Range.size) (choice - range.size) <;> rfl

/-- The segment at a place of the repeated segments is the one its draw chooses. -/
theorem getElem?_segments {ι : Type} {β : Type*} (f : SegmentOf ι → β)
    (segments : List (SegmentOf ι)) (choice : ℕ) :
    (segments.flatMap fun segment => List.replicate segment.multiplier (f segment))[choice]?
      = (chooseSegment segments choice).map fun p => f p.2 := by
  induction segments generalizing choice with
  | nil => rfl
  | cons segment segments ih =>
    rw [List.flatMap_cons, chooseSegment]
    by_cases h : choice ≥ segment.multiplier
    · rw [List.getElem?_append_right (by simpa using h), if_pos h, List.length_replicate, ih,
        Option.map_map]
      rfl
    · have h := not_le.mp h
      rw [List.getElem?_append_left (by simpa using h), if_neg (not_le.mpr h),
        List.getElem?_replicate_of_lt h]
      rfl

theorem length_codepoints {β : Type*} (f : ℕ → β) (ranges : List Range) :
    (ranges.flatMap fun range => (List.range' range.start range.size).map f).length
      = (ranges.map Range.size).sum := by
  simp only [List.length_flatMap, List.length_map, List.length_range']

theorem length_segments {ι : Type} {β : Type*} (f : SegmentOf ι → β)
    (segments : List (SegmentOf ι)) :
    (segments.flatMap fun segment => List.replicate segment.multiplier (f segment)).length
      = totalMultiplier segments := by
  simp only [List.length_flatMap, List.length_replicate, totalMultiplier]

/-- A set with ranges has codepoints to draw. -/
theorem sizes_pos {set : PatternSet} (hnil : set.items ≠ []) :
    0 < (set.items.map Range.size).sum := by
  obtain ⟨range, hrange⟩ := List.exists_mem_of_ne_nil _ hnil
  refine lt_of_lt_of_le (Nat.succ_pos (range.stop - range.start)) ?_
  exact List.single_le_sum (fun _ _ => Nat.zero_le _) _ (List.mem_map_of_mem hrange)

/-! ## Sampling -/

section Sampling

variable {δ : Type} {func : δ → ℕ → ℤ × δ}

/-- The bounds and the choices of draws. -/
def asked (draws : List Draw) : List (ℕ × Option ℕ) := draws.map fun d => (d.bound, d.taken)

/-- From `s` to `t` the draws of the path were made, one after the other, `w` was emitted, and
`rest` is left; the depth counter ends `up` above where it was. -/
structure Played (s t : GenState (List ℕ) δ) (path : List (ℕ × ℕ)) (up : ℕ) (rest w : List ℕ) :
    Prop where
  random : t.random = rest
  depth : t.depth = s.depth + up
  emitted : t.emitted = s.emitted ++ w
  draws : asked t.draws = asked s.draws ++ path.map fun p => (p.1, some p.2)

/-- The computation follows a tree of draws whose law is `μ`, from every state that admits that much
nesting. -/
def Samples (x : Gen (List ℕ) δ Unit) (depth up : ℕ) (μ : PMF (List ℕ)) : Prop :=
  ∃ tree : Chance.Tree (List ℕ), tree.law = μ ∧ ∀ path w, tree.Path path w → ∀ rest s,
    s.random = path.map Prod.snd ++ rest → depth ≤ s.depth →
      ∃ t, Effect.Returns x s () t ∧ Played s t path up rest w

variable {x y : Gen (List ℕ) δ Unit} {depth up : ℕ} {μ ν : PMF (List ℕ)}

theorem samples_pure (depth : ℕ) :
    Samples (pure () : Gen (List ℕ) δ Unit) depth 0 (PMF.pure []) := by
  refine ⟨.done [], rfl, fun path w h rest s hs _ => ?_⟩
  cases h
  exact ⟨s, Effect.returns_pure_iff.mpr ⟨rfl, rfl⟩, hs, rfl, (List.append_nil _).symm,
    (List.append_nil _).symm⟩

theorem Samples.mono (h : Samples x depth up μ) {depth' : ℕ} (hle : depth ≤ depth') :
    Samples x depth' up μ := by
  obtain ⟨tree, hlaw, htree⟩ := h
  exact ⟨tree, hlaw, fun path w hpath rest s hs hdepth => htree path w hpath rest s hs
    (hle.trans hdepth)⟩

theorem Played.trans {s t u : GenState (List ℕ) δ} {path path' : List (ℕ × ℕ)} {up up' : ℕ}
    {rest rest' v w : List ℕ} (h : Played s t path up rest v) (h' : Played t u path' up' rest' w) :
    Played s u (path ++ path') (up + up') rest' (v ++ w) where
  random := h'.random
  depth := by rw [h'.depth, h.depth, Nat.add_assoc]
  emitted := by rw [h'.emitted, h.emitted, List.append_assoc]
  draws := by rw [h'.draws, h.draws, List.map_append, List.append_assoc]

/-- **A sequence samples the concatenation.** -/
theorem Samples.seq (hx : Samples x depth 0 μ) (hy : Samples y depth up ν) :
    Samples (x >>= fun _ => y) depth up (concat μ ν) := by
  obtain ⟨tree, rfl, htree⟩ := hx
  obtain ⟨tree', rfl, htree'⟩ := hy
  refine ⟨tree.bind fun v => tree'.bind fun w => .done (v ++ w), ?_, ?_⟩
  · simp only [Chance.Tree.law_bind, Chance.Tree.law]
    rfl
  · intro path w hpath rest s hs hdepth
    obtain ⟨first, v, second, hfirst, hsecond, rfl⟩ := hpath.of_bind
    obtain ⟨path', w, last, hpath', hlast, rfl⟩ := hsecond.of_bind
    cases hlast
    rw [List.append_nil, List.map_append, List.append_assoc] at hs
    obtain ⟨t, ht, hplayed⟩ := htree first v hfirst _ s hs hdepth
    obtain ⟨u, hu, hplayed'⟩ := htree' path' w hpath' rest t hplayed.random (by rwa [hplayed.depth])
    have hboth := hplayed.trans hplayed'
    rw [Nat.zero_add] at hboth
    exact ⟨u, Effect.returns_bind_iff.mpr ⟨(), t, ht, hu⟩, by rwa [List.append_nil]⟩

theorem Samples.times (h : Samples x depth 0 μ) (n : ℕ) :
    Samples (Effect.times n x) depth 0 (power n μ) := by
  induction n with
  | zero => exact samples_pure depth
  | succ n ih => exact h.seq ih

theorem samples_inOrder {host : Host (List ℕ) δ} {items : List Item}
    (h : ∀ item ∈ items, Samples (item.generate host) depth 0 item.law) :
    Samples (Effect.inOrder (items.map (Item.generate host))) depth 0
      (concatAll (items.map Item.law)) := by
  induction items with
  | nil => exact samples_pure depth
  | cons item items ih =>
    exact (h item List.mem_cons_self).seq (ih fun i hi => h i (List.mem_cons_of_mem item hi))

/-- **A draw and what follows it.** -/
theorem Samples.draw {site : Site} {bound : ℕ} (pos : 0 < bound) {f : ℕ → Gen (List ℕ) δ Unit}
    {ν : ℕ → PMF (List ℕ)} (hf : ∀ c < bound, Samples (f c) depth up (ν c)) :
    Samples (drawBelow ⟨drawSource, func⟩ site bound >>= f) depth up
      ((Chance.below bound pos).bind ν) := by
  have : Nonempty (Chance.Tree (List ℕ)) := ⟨.done []⟩
  choose! tree hlaw htree using hf
  refine ⟨.draw bound pos tree, Chance.below_bind_congr hlaw,
    fun path w hpath rest s hs hdepth => ?_⟩
  cases hpath with
  | @draw _ c _ _ path _ hc hpath =>
    let s' : GenState (List ℕ) δ :=
      { s with random := path.map Prod.snd ++ rest, draws := s.draws ++ [⟨site, bound, some c⟩] }
    have hdraw : Effect.Returns (drawBelow ⟨drawSource, func⟩ site bound) s c s' :=
      returns_drawBelow_iff.mpr ⟨path.map Prod.snd ++ rest, by rw [hs]; exact if_pos hc, rfl⟩
    obtain ⟨t, ht, hplayed⟩ := htree c hc path w hpath rest s' rfl hdepth
    refine ⟨t, Effect.returns_bind_iff.mpr ⟨c, s', hdraw, ht⟩, hplayed.random, hplayed.depth,
      hplayed.emitted, ?_⟩
    rw [hplayed.draws, asked, List.map_append, List.append_assoc]
    rfl

/-- A coin flip and what follows it. -/
theorem Samples.flip {f : Bool → Gen (List ℕ) δ Unit} (hfalse : Samples (f false) depth up μ)
    (htrue : Samples (f true) depth up ν) :
    Samples (drawMaybe ⟨drawSource, func⟩ >>= f) depth up (oneOf [μ, ν]) := by
  obtain ⟨tree, rfl, htree⟩ := hfalse
  obtain ⟨tree', rfl, htree'⟩ := htrue
  refine ⟨.draw 2 Nat.two_pos fun c => if c = 0 then tree else tree', ?_, ?_⟩
  · refine (Chance.below_bind_congr fun c hc => ?_).trans (Chance.oneOf_pair tree.law tree'.law).symm
    obtain rfl | rfl : c = 0 ∨ c = 1 := by omega
    · rfl
    · rfl
  · intro path w hpath rest s hs hdepth
    cases hpath with
    | @draw _ c _ _ path _ hc hpath =>
      obtain ⟨b, rfl⟩ : ∃ b : Bool, c = b.toNat := by
        obtain rfl | rfl : c = 0 ∨ c = 1 := by omega
        · exact ⟨false, rfl⟩
        · exact ⟨true, rfl⟩
      let s' : GenState (List ℕ) δ :=
        { s with random := path.map Prod.snd ++ rest, draws := s.draws ++ [⟨.maybe, 2, some b.toNat⟩] }
      have hbool : drawSource.bool s.random = (b, path.map Prod.snd ++ rest) := by
        rw [hs]
        cases b <;> rfl
      have hflip : Effect.Returns (drawMaybe ⟨drawSource, func⟩) s b s' := by
        rw [returns_drawMaybe_iff, hbool]
        exact ⟨rfl, rfl⟩
      have hfollow : ∃ t, Effect.Returns (f b) s' () t ∧ Played s' t path up rest w := by
        cases b with
        | false => exact htree path w hpath rest s' rfl hdepth
        | true => exact htree' path w hpath rest s' rfl hdepth
      obtain ⟨t, ht, hplayed⟩ := hfollow
      refine ⟨t, Effect.returns_bind_iff.mpr ⟨b, s', hflip, ht⟩, hplayed.random, hplayed.depth,
        hplayed.emitted, ?_⟩
      rw [hplayed.draws, asked, List.map_append, List.append_assoc]
      rfl

/-- Entropy does not matter. -/
theorem Samples.scale {f : ℚ → ℚ} (hx : Samples x depth up μ) :
    Samples ((modify fun s => { s with entropy := s.entropy.map f }) >>= fun _ => x) depth up
      μ := by
  obtain ⟨tree, hlaw, htree⟩ := hx
  refine ⟨tree, hlaw, fun path w hpath rest s hs hdepth => ?_⟩
  obtain ⟨t, ht, hplayed⟩ :=
    htree path w hpath rest { s with entropy := s.entropy.map f } hs hdepth
  exact ⟨t, Effect.returns_bind_iff.mpr ⟨(), _, Effect.returns_modify_iff.mpr rfl, ht⟩,
    hplayed.random, hplayed.depth, hplayed.emitted, hplayed.draws⟩

/-- A level down and up again. -/
theorem Samples.descend {f : Unit → Gen (List ℕ) δ Unit} (hf : Samples (f ()) depth 1 μ) :
    Samples (descend >>= f) (depth + 1) 0 μ := by
  obtain ⟨tree, hlaw, htree⟩ := hf
  refine ⟨tree, hlaw, fun path w hpath rest s hs hdepth => ?_⟩
  obtain ⟨t, ht, hplayed⟩ := htree path w hpath rest { s with depth := s.depth - 1 } hs
    (Nat.le_sub_of_add_le hdepth)
  refine ⟨t, Effect.returns_bind_iff.mpr ⟨(), _, returns_descend_iff.mpr ⟨by omega, rfl⟩, ht⟩,
    hplayed.random, ?_, hplayed.emitted, hplayed.draws⟩
  rw [hplayed.depth]
  exact Nat.sub_add_cancel (by omega)

theorem samples_ascend (depth : ℕ) :
    Samples (ascend : Gen (List ℕ) δ Unit) depth 1 (PMF.pure []) := by
  refine ⟨.done [], rfl, fun path w h rest s hs _ => ?_⟩
  cases h
  exact ⟨_, Effect.returns_modify_iff.mpr rfl, hs, rfl, (List.append_nil _).symm,
    (List.append_nil _).symm⟩

/-- **A repeat samples its count of copies.** -/
theorem Samples.repeat {rep : Repeat} (hrep : rep.Ordered) {f : ℕ → Gen (List ℕ) δ Unit}
    (hf : ∀ n, Samples (f n) depth up (power n μ)) :
    Samples (generateRepeat ⟨drawSource, func⟩ rep >>= f) depth up (copiesLaw rep μ) := by
  have hsize := hrep.max
  have hcounts := hrep.counts
  have hle := hrep.le
  rw [generateRepeat, sizeSub_of_le hsize hle, copiesLaw]
  by_cases hdiff : rep.max - rep.min = 0
  · rw [if_pos hdiff, hdiff]
    exact (Chance.oneOf_singleton (power rep.min μ)).symm ▸ hf rep.min
  · rw [if_neg hdiff, sizeT_of_lt hcounts, bind_assoc]
    have hlen : ((List.range' rep.min (rep.max - rep.min + 1)).map fun n => power n μ).length
        = rep.max - rep.min + 1 := by rw [List.length_map, List.length_range']
    rw [Chance.oneOf_eq hlen (Nat.succ_pos _)]
    refine Samples.draw (Nat.succ_pos _) fun c hc => ?_
    rw [bind_assoc]
    refine Samples.scale ?_
    rw [pure_bind, sizeT_of_lt (by omega), List.getD_eq_getElem _ _ (by omega), List.getElem_map,
      List.getElem_range', Nat.one_mul]
    exact hf _

section Accepts

variable (hfunc : ∀ d c, (func d c).1 = 0)
include hfunc

theorem samples_emit (codepoint depth : ℕ) :
    Samples (emit ⟨drawSource, func⟩ codepoint) depth 0 (PMF.pure [codepoint]) := by
  refine ⟨.done [codepoint], rfl, fun path w h rest s hs _ => ?_⟩
  cases h
  exact ⟨_, returns_emit_iff.mpr ⟨hfunc _ _, rfl⟩, hs, rfl, rfl, (List.append_nil _).symm⟩

theorem samples_emitAll (codepoints : List ℕ) (depth : ℕ) :
    Samples (emitAll ⟨drawSource, func⟩ codepoints) depth 0 (PMF.pure codepoints) := by
  induction codepoints with
  | nil => exact samples_pure depth
  | cons c codepoints ih =>
    have hseq := (samples_emit hfunc c depth).seq ih
    rw [concat, PMF.pure_bind, PMF.pure_map] at hseq
    exact hseq

/-- **A set samples its codepoints.** -/
theorem samples_generateSet {set : PatternSet} (hset : set.Valid) (depth : ℕ) :
    Samples (generateSet ⟨drawSource, func⟩ set) depth 0 (setLaw set) := by
  rw [generateSet, setLaw]
  by_cases hlen : set.items.length = 0
  · rw [if_pos hlen, List.length_eq_zero_iff.mp hlen]
    exact samples_pure depth
  · have hcount := length_codepoints (fun c => PMF.pure [c]) set.items
    have hpos := sizes_pos fun hnil => hlen (List.length_eq_zero_iff.mpr hnil)
    rw [if_neg hlen, hset.possible hlen, Chance.oneOf_eq hcount hpos]
    refine Samples.draw hpos fun choice hchoice => Samples.scale ?_
    obtain ⟨i, r, hpick⟩ := Weighted.exists_pick_iff.mpr hchoice
    obtain ⟨range, hget, hcode, -⟩ := setCodepoint_eq hset hpick
    rw [hcode, List.getD_eq_getElem?_getD, getElem?_codepoints, hpick, Option.bind_some, hget]
    exact samples_emit hfunc _ depth

omit hfunc in
/-- **A group samples its segments by their multipliers**, one level down. -/
theorem samples_generateGroup {group : Group} (hgroup : group.Valid)
    (h : ∀ segment ∈ group.segments, ∀ item ∈ segment.items,
      Samples (item.generate ⟨drawSource, func⟩) item.depth 0 item.law) :
    Samples (generateGroup ⟨drawSource, func⟩ (group.map (Item.generate ⟨drawSource, func⟩)))
      (groupDepth (group.map Item.depth)) 0 (groupLaw (group.map Item.law)) := by
  have hne : (group.map (Item.generate ⟨drawSource, func⟩)).multiplierSum ≠ 0 :=
    Nat.pos_iff_ne_zero.mp hgroup.pos
  have hlen : ((group.map Item.law).segments.flatMap fun segment =>
      List.replicate segment.multiplier (concatAll segment.items)).length = group.multiplierSum := by
    rw [length_segments fun segment => concatAll segment.items, GroupOf.segments_map,
      totalMultiplier_map, hgroup.sum_eq]
  refine Samples.descend ?_
  rw [if_neg hne, groupLaw, Chance.oneOf_eq hlen hgroup.pos]
  refine Samples.draw hgroup.pos fun choice hchoice => ?_
  rw [GroupOf.multiplierSum_map, hgroup.sum_eq] at hchoice
  obtain ⟨i, segment, hchoose⟩ := exists_chooseSegment_iff.mpr hchoice
  have hmem : segment ∈ group.segments :=
    List.mem_of_getElem? (chooseSegment_eq_some_iff.mp hchoose).1
  have hitems : Samples (generateSegment (segment.map (Item.generate ⟨drawSource, func⟩)))
      (groupDepth (group.map Item.depth) - 1) 0 (concatAll (segment.items.map Item.law)) := by
    refine samples_inOrder fun item hitem => (h segment hmem item hitem).mono ?_
    exact List.le_max_of_le' 0 (List.mem_flatMap.mpr
      ⟨_, List.mem_map_of_mem hmem, List.mem_map_of_mem hitem⟩) le_rfl
  have hrise := hitems.seq (samples_ascend (groupDepth (group.map Item.depth) - 1))
  rw [Chance.concat_nil] at hrise
  rw [List.getD_eq_getElem?_getD, getElem?_segments fun segment => concatAll segment.items,
    GroupOf.segments_map (Item.generate ⟨drawSource, func⟩), GroupOf.segments_map Item.law,
    chooseSegment_map, chooseSegment_map, hchoose]
  exact hrise.scale.scale

/-- **A valid item samples its law**, by induction on the item. -/
theorem samples_item (item : Item) (hitem : item.Valid) :
    Samples (item.generate ⟨drawSource, func⟩) item.depth 0 item.law := by
  induction item using Item.induct with
  | mk data rep maybe ih =>
    obtain ⟨hdata, hrep⟩ := Item.valid_mk.mp hitem
    have hcopy : Samples
        (generateData ⟨drawSource, func⟩ (data.map (Item.generate ⟨drawSource, func⟩)))
        (dataDepth (data.map Item.depth)) 0 (dataLaw (data.map Item.law)) := by
      cases data with
      | set set => exact samples_generateSet hfunc hdata _
      | literal literal => exact samples_emitAll hfunc _ _
      | special special => exact hdata.elim
      | group group =>
        exact samples_generateGroup hdata fun segment hs item hi =>
          ih segment hs item hi (Group.Valid.item hdata hs hi)
    have hcopies : Samples (generateRepeat ⟨drawSource, func⟩ rep >>= fun reps =>
          Effect.times reps (generateData ⟨drawSource, func⟩
            (data.map (Item.generate ⟨drawSource, func⟩))))
        (dataDepth (data.map Item.depth)) 0 (copiesLaw rep (dataLaw (data.map Item.law))) :=
      Samples.repeat hrep fun n => hcopy.times n
    rw [Item.generate_mk, Item.depth_mk, Item.law_mk, generateItem, decideMaybe, itemLaw]
    cases maybe with
    | true =>
      rw [if_pos rfl, if_pos rfl]
      exact Samples.flip (samples_pure _) hcopies
    | false =>
      rw [if_neg Bool.false_ne_true, if_neg Bool.false_ne_true, pure_bind, if_pos rfl]
      exact hcopies

end Accepts

end Sampling

/-! ## The strings of a law -/

theorem words_setLaw {set : PatternSet} (hset : set.Valid) :
    words (setLaw set) = setLanguage set := by
  ext w
  by_cases hnil : set.items = []
  · have hlaw : setLaw set = PMF.pure [] := by rw [setLaw, hnil]; rfl
    rw [hlaw, Chance.words_pure]
    simp only [setLanguage, hnil, true_and, List.not_mem_nil, false_and, exists_false, or_false]
    rfl
  · have hne : set.items.flatMap (fun range =>
        (List.range' range.start range.size).map fun c => PMF.pure [c]) ≠ [] := by
      rw [← List.length_pos_iff, length_codepoints]
      exact sizes_pos hnil
    rw [setLaw, Chance.mem_words_oneOf hne]
    constructor
    · rintro ⟨μ, hμ, hw⟩
      obtain ⟨range, hrange, hμ⟩ := List.mem_flatMap.mp hμ
      obtain ⟨c, hc, rfl⟩ := List.mem_map.mp hμ
      rw [Chance.words_pure] at hw
      have hordered := (hset.ranges range hrange).1
      rw [List.mem_range'_1, Range.size] at hc
      exact .inr ⟨range, hrange, c, hc.1, by omega, hw⟩
    · rintro (⟨hempty, -⟩ | ⟨range, hrange, c, hstart, hstop, rfl⟩)
      · exact absurd hempty hnil
      · refine ⟨_, List.mem_flatMap.mpr ⟨range, hrange, List.mem_map_of_mem (a := c) ?_⟩, ?_⟩
        · rw [List.mem_range'_1, Range.size]
          omega
        · rw [Chance.words_pure]
          rfl

theorem words_groupLaw {group : GroupOf (PMF (List ℕ))} (hpos : 0 < totalMultiplier group.segments) :
    words (groupLaw group) = groupLanguage (group.map words) := by
  ext w
  have hne : group.segments.flatMap (fun segment =>
      List.replicate segment.multiplier (concatAll segment.items)) ≠ [] := by
    rwa [← List.length_pos_iff, length_segments fun segment => concatAll segment.items]
  rw [groupLaw, Chance.mem_words_oneOf hne]
  constructor
  · rintro ⟨μ, hμ, hw⟩
    obtain ⟨segment, hsegment, hμ⟩ := List.mem_flatMap.mp hμ
    obtain ⟨hmultiplier, rfl⟩ := List.mem_replicate.mp hμ
    rw [Chance.words_concatAll] at hw
    exact ⟨segment.map words, List.mem_map_of_mem hsegment, Nat.pos_of_ne_zero hmultiplier, hw⟩
  · rintro ⟨_, hmap, hmultiplier, hw⟩
    obtain ⟨segment, hsegment, rfl⟩ := List.mem_map.mp hmap
    refine ⟨_, List.mem_flatMap.mpr ⟨segment, hsegment, List.mem_replicate.mpr
      ⟨Nat.pos_iff_ne_zero.mp hmultiplier, rfl⟩⟩, ?_⟩
    rwa [Chance.words_concatAll]

theorem words_copiesLaw {rep : Repeat} (hrep : rep.Ordered) (μ : PMF (List ℕ)) (w : List ℕ) :
    w ∈ words (copiesLaw rep μ) ↔ ∃ n, rep.min ≤ n ∧ n ≤ rep.max ∧ w ∈ words μ ^ n := by
  have hle := hrep.le
  have hne : (List.range' rep.min (rep.max - rep.min + 1)).map (fun n => power n μ) ≠ [] := by
    simp
  rw [copiesLaw, Chance.mem_words_oneOf hne]
  constructor
  · rintro ⟨ν, hν, hw⟩
    obtain ⟨n, hn, rfl⟩ := List.mem_map.mp hν
    rw [List.mem_range'_1] at hn
    exact ⟨n, hn.1, by omega, by rwa [Chance.words_power] at hw⟩
  · rintro ⟨n, hmin, hmax, hw⟩
    have hn : n ∈ List.range' rep.min (rep.max - rep.min + 1) :=
      List.mem_range'_1.mpr ⟨hmin, by omega⟩
    refine ⟨_, List.mem_map_of_mem hn, ?_⟩
    rwa [Chance.words_power]

theorem words_group {group : Group} (hgroup : group.Valid)
    (h : ∀ segment ∈ group.segments, ∀ item ∈ segment.items, words item.law = item.language) :
    words (groupLaw (group.map Item.law)) = groupLanguage (group.map Item.language) := by
  have hpos : 0 < totalMultiplier (group.map Item.law).segments := by
    rw [GroupOf.segments_map, totalMultiplier_map]
    exact hgroup.total_pos
  have hitems : group.map (words ∘ Item.law) = group.map Item.language := by
    rw [GroupOf.map, GroupOf.map]
    congr 1
    refine List.map_congr_left fun segment hs => ?_
    rw [SegmentOf.map, SegmentOf.map]
    congr 1
    exact List.map_congr_left (h segment hs)
  rw [words_groupLaw hpos, GroupOf.map_map, hitems]

/-- **The strings of an item's law are its language.** -/
theorem words_item (item : Item) (hitem : item.Valid) : words item.law = item.language := by
  induction item using Item.induct with
  | mk data rep maybe ih =>
    obtain ⟨hdata, hrep⟩ := Item.valid_mk.mp hitem
    have hcopy : words (dataLaw (data.map Item.law)) = dataLanguage (data.map Item.language) := by
      cases data with
      | set set => exact words_setLaw hdata
      | literal literal => exact Chance.words_pure _
      | special special => exact hdata.elim
      | group group =>
        exact words_group hdata fun segment hs item hi =>
          ih segment hs item hi (Group.Valid.item hdata hs hi)
    rw [Item.law_mk, Item.language_mk, itemLaw]
    ext w
    have hcopies := words_copiesLaw hrep (dataLaw (data.map Item.law)) w
    rw [hcopy] at hcopies
    cases maybe with
    | true =>
      rw [if_pos rfl, Chance.mem_words_oneOf (List.cons_ne_nil _ _)]
      simp only [List.mem_cons, List.not_mem_nil, or_false, exists_eq_or_imp, exists_eq_left,
        Chance.words_pure, hcopies, itemLanguage, true_and]
      rfl
    | false =>
      rw [if_neg Bool.false_ne_true, hcopies]
      simp only [itemLanguage, Bool.false_eq_true, false_and, false_or]
      rfl

/-- **Generating samples the law of the pattern.**  The draws of a valid pattern are a tree: whatever
path through it is played, generating asks for exactly the bounds of the path, in order, uses up its
choices, and emits the string the path leads to; and when every draw is uniform, that string has the
law of the pattern, under which the language of the pattern is what has a positive probability. -/
theorem generate_samples {pattern : Group} (hpattern : pattern.Valid) {δ : Type}
    {func : δ → ℕ → ℤ × δ} (hfunc : ∀ d c, (func d c).1 = 0) :
    words pattern.law = pattern.language ∧
    ∃ tree : Chance.Tree (List ℕ), tree.law = pattern.law ∧
      ∀ path w, tree.Path path w → ∀ (rest : List ℕ) (data : δ) (depthLimit : ℕ) (entropy : Bool)
        (wordlists : List (List UInt8 × Wordlist)), pattern.depth ≤ depthLimit →
          ∃ t, Effect.Returns (generate ⟨drawSource, func⟩ pattern)
              (GenState.init (path.map Prod.snd ++ rest) data depthLimit entropy wordlists) () t ∧
            t.random = rest ∧ t.emitted = w ∧
            asked t.draws = path.map fun p => (p.1, some p.2) := by
  have hitem : ∀ segment ∈ pattern.segments, ∀ item ∈ segment.items, item.Valid :=
    fun segment hs item hi => hpattern.item hs hi
  refine ⟨words_group hpattern fun segment hs item hi => words_item item (hitem segment hs item hi),
    ?_⟩
  obtain ⟨tree, hlaw, htree⟩ := samples_generateGroup hpattern
    fun segment hs item hi => samples_item hfunc item (hitem segment hs item hi)
  refine ⟨tree, hlaw, fun path w hpath rest data depthLimit entropy wordlists hdepth => ?_⟩
  obtain ⟨t, ht, hplayed⟩ := htree path w hpath rest
    (GenState.init (path.map Prod.snd ++ rest) data depthLimit entropy wordlists) rfl hdepth
  exact ⟨t, ht, hplayed.random, hplayed.emitted, hplayed.draws⟩

theorem generate_samples_digitPattern :
    words digitPattern.law = digitPattern.language ∧
    ∃ tree : Chance.Tree (List ℕ), tree.law = digitPattern.law ∧
      ∀ path w, tree.Path path w → ∀ (rest : List ℕ) (data : Unit) (depthLimit : ℕ) (entropy : Bool)
        (wordlists : List (List UInt8 × Wordlist)), digitPattern.depth ≤ depthLimit →
          ∃ t, Effect.Returns (generate ⟨drawSource, fun _ _ => (0, ())⟩ digitPattern)
              (GenState.init (path.map Prod.snd ++ rest) data depthLimit entropy wordlists) () t ∧
            t.random = rest ∧ t.emitted = w ∧
            asked t.draws = path.map fun p => (p.1, some p.2) :=
  generate_samples digitPattern_valid fun _ _ => rfl

end Passgen
