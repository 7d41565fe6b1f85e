import Mathlib.Data.List.Basic
import Mathlib.Tactic.Common
import Passgen.Generate.Language
import Passgen.Generate.Select
import Passgen.Parser.Packing
import Passgen.Parser.Print
import Passgen.Parser.Sets
import Passgen.Regex.Bounded

/-!
# Generate/Matched — a pattern generates what its text matches

    Ast ──print──▸ text ──parse──▸ Group ──generate──▸ words
     └───────────────regex───────────────────────────────┘ matches

The syntax of a pattern without specials is a regular expression.  The tree that is made of its text
packs characters into literals and counts choices, and it has the language of that expression; so
the words that are generated from the text are those the expression matches (`text_matches`).
-/

namespace Passgen

open RegularExpression

/-! ## The expression of a pattern -/

/-- The codepoints of a range. -/
def Range.codepoints (range : Range) : List ℕ :=
  List.range' range.start (range.stop + 1 - range.start)

/-- The modifiers of an item. -/
def modifiedRegex (P : RegularExpression ℕ) (rep : Repeat) (maybe : Bool) : RegularExpression ℕ :=
  if maybe then Regex.optional (Regex.between P rep.min rep.max)
  else Regex.between P rep.min rep.max

mutual

/-- What an item matches. -/
def Ast.regex : Ast → RegularExpression ℕ
  | .mk data rep maybe => modifiedRegex (dataRegex data) rep maybe

def dataRegex : AstData Ast → RegularExpression ℕ
  | .char c => .char c
  | .set ranges => Regex.oneOf (ranges.flatMap Range.codepoints)
  | .special _ _ => 0
  | .group g => groupRegex g

/-- What a group matches: one of its segments. -/
def groupRegex : GroupOf Ast → RegularExpression ℕ
  | ⟨segments, _⟩ => Regex.anyOf (segmentsRegex segments)

def segmentsRegex : List (SegmentOf Ast) → List (RegularExpression ℕ)
  | [] => []
  | segment :: segments => segmentRegex segment :: segmentsRegex segments

def segmentRegex : SegmentOf Ast → RegularExpression ℕ
  | ⟨items, multiplier⟩ => if multiplier = 0 then 0 else Regex.inOrder (itemsRegex items)

def itemsRegex : List Ast → List (RegularExpression ℕ)
  | [] => []
  | item :: items => item.regex :: itemsRegex items

end

theorem itemsRegex_eq (items : List Ast) : itemsRegex items = items.map Ast.regex := by
  induction items with
  | nil => rfl
  | cons item items ih => rw [itemsRegex, ih, List.map_cons]

theorem segmentsRegex_eq (segments : List (SegmentOf Ast)) :
    segmentsRegex segments = segments.map segmentRegex := by
  induction segments with
  | nil => rfl
  | cons segment segments ih => rw [segmentsRegex, ih, List.map_cons]

/-- What an item matches, as a language. -/
def Ast.language (item : Ast) : Language ℕ := item.regex.matches'

theorem mem_groupRegex {group : GroupOf Ast} {w : List ℕ} :
    w ∈ (groupRegex group).matches' ↔ ∃ segment ∈ group.segments,
      0 < segment.multiplier ∧ w ∈ (segment.items.map Ast.language).prod := by
  rcases group with ⟨segments, sum⟩
  have hsegment : ∀ segment : SegmentOf Ast, w ∈ (segmentRegex segment).matches' ↔
      0 < segment.multiplier ∧ w ∈ (segment.items.map Ast.language).prod := by
    rintro ⟨items, multiplier⟩
    rw [segmentRegex]
    split
    · rename_i hzero
      exact iff_of_false (Language.notMem_zero w) fun h => h.1.ne' hzero
    · rename_i hne
      rw [Regex.matches_inOrder, itemsRegex_eq, List.map_map]
      exact (and_iff_right (Nat.pos_of_ne_zero hne)).symm
  rw [groupRegex, Regex.mem_anyOf, segmentsRegex_eq]
  constructor
  · rintro ⟨P, hP, hw⟩
    obtain ⟨segment, hmem, rfl⟩ := List.mem_map.mp hP
    exact ⟨segment, hmem, (hsegment segment).mp hw⟩
  · rintro ⟨segment, hmem, hw⟩
    exact ⟨_, List.mem_map_of_mem hmem, (hsegment segment).mpr hw⟩

/-- **An item is matched by copies of what it is**, or by nothing when it is a maybe. -/
theorem mem_language_mk {data : AstData Ast} {rep : Repeat} (hrep : rep.min ≤ rep.max)
    {maybe : Bool} {w : List ℕ} : w ∈ (Ast.mk data rep maybe).language ↔
      maybe = true ∧ w = [] ∨
        ∃ n, rep.min ≤ n ∧ n ≤ rep.max ∧ w ∈ (dataRegex data).matches' ^ n := by
  rw [Ast.language, Ast.regex, modifiedRegex]
  cases maybe with
  | true => rw [if_pos rfl, Regex.mem_optional, Regex.mem_between hrep, and_iff_right rfl]
  | false =>
    rw [if_neg Bool.false_ne_true, Regex.mem_between hrep]
    simp

/-- The syntax that is counted in 64 bits, and has no specials. -/
inductive Ast.Plain : Ast → Prop where
  | char {c : ℕ} {rep : Repeat} {maybe : Bool} (hcounts : rep.max - rep.min + 1 < 2 ^ 64) :
      Plain (.mk (.char c) rep maybe)
  | set {ranges : List Range} {rep : Repeat} {maybe : Bool}
      (hsum : (ranges.map Range.size).sum < 2 ^ 64) (hcounts : rep.max - rep.min + 1 < 2 ^ 64) :
      Plain (.mk (.set ranges) rep maybe)
  | group {g : GroupOf Ast} {rep : Repeat} {maybe : Bool}
      (hitems : ∀ s ∈ g.segments, ∀ i ∈ s.items, Plain i)
      (hcounts : rep.max - rep.min + 1 < 2 ^ 64) : Plain (.mk (.group g) rep maybe)

/-! ## Trees -/

/-- What the parser keeps of an item: its literals are packed, and its sets counted. -/
structure Item.Parsed (item : Item) : Prop where
  packed : item.Deep Item.Packed
  closed : item.Sets fun set => set.choicesList = choicesFrom 0 set.items

/-- The items of a group of which everything is packed and counted. -/
theorem parsed_of_everywhere {group : Group} (hpacked : group.Everywhere Item.Packed)
    (hclosed : ∀ k, group.Contains k →
      Group.Sets (fun set => set.choicesList = choicesFrom 0 set.items) k)
    {segment : Segment} (hs : segment ∈ group.segments) {item : Item} (hi : item ∈ segment.items) :
    item.Parsed := by
  obtain ⟨a, ha⟩ := List.mem_iff_getElem?.mp hs
  obtain ⟨b, hb⟩ := List.mem_iff_getElem?.mp hi
  have hat : group.item (a, b) = some item := Option.bind_eq_some_iff.mpr ⟨segment, ha, hb⟩
  refine ⟨⟨?_, fun inner hinner path x hx => ?_⟩, ?_, fun inner hinner k hk => ?_⟩
  · exact hpacked [(a, b)] item (itemAt_cons_iff.mpr ⟨item, hat, .inl ⟨rfl, rfl⟩⟩)
  · exact hpacked ((a, b) :: path) x
      (itemAt_cons_iff.mpr ⟨item, hat, .inr ⟨inner, hinner, hx⟩⟩)
  · exact hclosed group (.root group) segment hs item hi
  · exact hclosed k (.item hs hi hinner hk)

/-- The items of a parsed group. -/
theorem Item.Parsed.inside {group : Group} {rep : Repeat} {maybe : Bool}
    (h : (Item.mk (.group group) rep maybe).Parsed) {segment : Segment}
    (hs : segment ∈ group.segments) {item : Item} (hi : item ∈ segment.items) : item.Parsed :=
  parsed_of_everywhere (h.packed.inside group rfl) (h.closed.2 group rfl) hs hi

/-! ## The language of a tree -/

/-- An item whose data says the same has the same language. -/
theorem itemLanguage_eq {data : ItemData (Language ℕ)} {d : AstData Ast} {rep : Repeat}
    (hdata : dataLanguage data = (dataRegex d).matches') (hrep : rep.min ≤ rep.max)
    (maybe : Bool) : itemLanguage data rep maybe = (Ast.mk d rep maybe).language := by
  ext w
  rw [mem_language_mk hrep, ← hdata]
  rfl

/-- Without modifiers there is one copy. -/
theorem itemLanguage_once (data : ItemData (Language ℕ)) :
    itemLanguage data ⟨1, 1⟩ false = dataLanguage data := by
  ext w
  constructor
  · rintro (⟨h, -⟩ | ⟨n, hmin, hmax, hw⟩)
    · exact absurd h Bool.false_ne_true
    · obtain rfl : n = 1 := le_antisymm hmax hmin
      rwa [pow_one] at hw
  · exact fun hw => .inr ⟨1, le_rfl, le_rfl, by rwa [pow_one]⟩

/-- A codepoint that is not modified. -/
theorem language_char (c : ℕ) : (Ast.mk (.char c) ⟨1, 1⟩ false).language = {[c]} := by
  have hdata : dataLanguage (.literal ⟨[c], false⟩) = (dataRegex (.char c)).matches' := rfl
  rw [← itemLanguage_eq hdata le_rfl, itemLanguage_once]
  rfl

/-- The characters of a literal that is not modified spell it. -/
theorem prod_language_chars (cs : List ℕ) :
    (cs.map fun c => (Ast.mk (.char c) ⟨1, 1⟩ false).language).prod = {cs} := by
  induction cs with
  | nil => rfl
  | cons c cs ih =>
    rw [List.map_cons, List.prod_cons, ih, language_char]
    ext w
    rw [Language.mem_mul]
    constructor
    · rintro ⟨u, rfl, v, rfl, rfl⟩
      rfl
    · rintro rfl
      exact ⟨[c], rfl, cs, rfl, rfl⟩

theorem setLanguage_eq {ranges : List Range} (hne : ranges ≠ []) {choices : List ℕ} :
    setLanguage ⟨ranges, choices⟩ = (dataRegex (.set ranges)).matches' := by
  ext w
  rw [dataRegex, Regex.mem_oneOf]
  constructor
  · rintro (⟨hnil, -⟩ | ⟨range, hrange, c, hstart, hstop, rfl⟩)
    · exact absurd hnil hne
    · exact ⟨c, List.mem_flatMap.mpr ⟨range, hrange, List.mem_range'_1.mpr (by omega)⟩, rfl⟩
  · rintro ⟨c, hc, rfl⟩
    obtain ⟨range, hrange, hc⟩ := List.mem_flatMap.mp hc
    have hbounds := List.mem_range'_1.mp hc
    exact .inr ⟨range, hrange, c, by omega, by omega, rfl⟩

/-- The items of a segment, and what they say. -/
theorem prod_language_asts {items : List Item}
    (h : ∀ item ∈ items, item.language = (item.asts.map Ast.language).prod) :
    ((items.flatMap Item.asts).map Ast.language).prod = (items.map Item.language).prod := by
  induction items with
  | nil => rfl
  | cons item items ih =>
    rw [List.flatMap_cons, List.map_append, List.prod_append, List.map_cons, List.prod_cons,
      h item List.mem_cons_self, ih fun i hi => h i (List.mem_cons_of_mem item hi)]

/-- A group matches what its items say. -/
theorem groupLanguage_eq {group : Group}
    (h : ∀ segment ∈ group.segments, ∀ item ∈ segment.items,
      item.language = (item.asts.map Ast.language).prod) :
    groupLanguage (group.map Item.language) = (groupRegex group.ast).matches' := by
  have hitems : ∀ segment ∈ group.segments,
      ((SegmentOf.ast segment).items.map Ast.language).prod
        = (segment.items.map Item.language).prod :=
    fun segment hs => prod_language_asts (h segment hs)
  ext w
  rw [mem_groupRegex]
  constructor
  · rintro ⟨_, hmem, hpos, hw⟩
    obtain ⟨segment, hs, rfl⟩ := List.mem_map.mp hmem
    exact ⟨segment.ast, List.mem_map_of_mem hs, hpos, by rw [hitems segment hs]; exact hw⟩
  · rintro ⟨_, hmem, hpos, hw⟩
    obtain ⟨segment, hs, rfl⟩ := List.mem_map.mp hmem
    exact ⟨_, List.mem_map_of_mem hs, hpos, by rw [hitems segment hs] at hw; exact hw⟩

/-- The repeats of well-formed syntax are in order. -/
theorem Ast.Valid.rep {d : AstData Ast} {rep : Repeat} {maybe : Bool}
    (h : (Ast.mk d rep maybe).Valid) : rep.Valid := by
  cases h <;> assumption

/-- **A parsed item has the language of what it says**, by induction on the item. -/
theorem language_eq_asts (item : Item) (hparsed : item.Parsed) (hvalid : ∀ a ∈ item.asts, a.Valid) :
    item.language = (item.asts.map Ast.language).prod := by
  induction item using Item.induct with
  | mk data rep maybe ih =>
    rw [Item.language_mk]
    cases data with
    | set set =>
      rw [asts_set] at hvalid ⊢
      have hset := hvalid _ (List.mem_singleton_self _)
      rw [List.map_singleton, List.prod_singleton]
      refine itemLanguage_eq ?_ hset.rep.1 maybe
      cases hset with
      | set hne hranges hrep => exact setLanguage_eq hne
    | literal literal =>
      obtain ⟨hliteral, hmodified⟩ := hparsed.packed.self
      rw [asts_literal] at hvalid ⊢
      rcases hmodified with htainted | ⟨rfl, rfl⟩
      · -- a literal that is modified has one codepoint
        obtain ⟨c, hc⟩ := List.length_eq_one_iff.mp (hliteral.single htainted)
        rw [hc, List.map_singleton] at hvalid ⊢
        have hchar := hvalid _ (List.mem_singleton_self _)
        rw [List.map_singleton, List.prod_singleton]
        refine itemLanguage_eq ?_ hchar.rep.1 maybe
        rw [ItemData.map, dataLanguage, hc]
        rfl
      · rw [List.map_map]
        rw [itemLanguage_once]
        exact (prod_language_chars literal.codepoints).symm
    | special special =>
      rw [asts_special] at hvalid ⊢
      rw [List.map_singleton, List.prod_singleton]
      exact itemLanguage_eq rfl (hvalid _ (List.mem_singleton_self _)).rep.1 maybe
    | group group =>
      rw [asts_group] at hvalid ⊢
      have hgroup := hvalid _ (List.mem_singleton_self _)
      rw [List.map_singleton, List.prod_singleton]
      refine itemLanguage_eq ?_ hgroup.rep.1 maybe
      cases hgroup with
      | group hpos hitems hsum hlt hne hrep =>
        refine groupLanguage_eq fun segment hs item hi => ih segment hs item hi
          (hparsed.inside hs hi) fun a ha => ?_
        exact hitems segment.ast (List.mem_map_of_mem hs) a (List.mem_flatMap.mpr ⟨item, hi, ha⟩)

/-! ## Parsed items are valid -/

/-- The repeats of plain syntax can be drawn. -/
theorem Ast.Plain.ordered {d : AstData Ast} {rep : Repeat} {maybe : Bool}
    (hvalid : (Ast.mk d rep maybe).Valid) (hplain : (Ast.mk d rep maybe).Plain) : rep.Ordered := by
  obtain ⟨hle, hmax⟩ := hvalid.rep
  cases hplain <;> exact ⟨hle, hmax, by assumption⟩

/-- The sum of the multipliers of a group, and its positivity. -/
theorem validOver_of_asts {group : Group} (hpos : ∀ s ∈ group.ast.segments, 1 ≤ s.multiplier)
    (hsum : group.ast.multiplierSum = totalMultiplier group.ast.segments)
    (hne : group.ast.segments ≠ [])
    (hitems : ∀ segment ∈ group.segments, ∀ item ∈ segment.items, item.Valid) : group.Valid := by
  have htotal : totalMultiplier group.ast.segments = totalMultiplier group.segments := by
    rw [totalMultiplier, totalMultiplier, GroupOf.ast, List.map_map]
    rfl
  obtain ⟨segment, hmem⟩ := List.exists_mem_of_ne_nil _ hne
  have hle : segment.multiplier ≤ totalMultiplier group.ast.segments :=
    List.single_le_sum (fun _ _ => Nat.zero_le _) _ (List.mem_map_of_mem hmem)
  have hsum' : group.multiplierSum = totalMultiplier group.segments := hsum.trans htotal
  refine ⟨?_, ?_, fun s hs x hx => ?_⟩
  · rw [GroupOf.segments_map, totalMultiplier_map]
    exact hsum'
  · have := hpos segment hmem
    rw [GroupOf.multiplierSum_map, hsum', ← htotal]
    omega
  · obtain ⟨segment, hsegment, rfl⟩ := List.mem_map.mp hs
    obtain ⟨item, hitem, rfl⟩ := List.mem_map.mp hx
    exact hitems segment hsegment item hitem

/-- **A parsed item that says plain syntax is valid.** -/
theorem valid_of_asts (item : Item) (hparsed : item.Parsed)
    (hasts : ∀ a ∈ item.asts, a.Valid ∧ a.Plain) : item.Valid := by
  induction item using Item.induct with
  | mk data rep maybe ih =>
    rw [Item.valid_mk]
    cases data with
    | set set =>
      rw [asts_set] at hasts
      obtain ⟨hvalid, hplain⟩ := hasts _ (List.mem_singleton_self _)
      refine ⟨?_, hplain.ordered hvalid⟩
      cases hvalid with
      | set hne hranges hrep =>
        cases hplain with
        | set hsum hcounts =>
          have hstop : ∀ range ∈ set.items, range.stop ≤ 0x10FFFF :=
            fun range hrange => (hranges range hrange).2.1.1.1
          refine PatternSet.Closed.valid
            ⟨fun range hrange => (hranges range hrange).2.2, hparsed.closed.1 set rfl⟩
            (fun range hrange => (hstop range hrange).trans_lt (by decide))
            ⟨fun range hrange => ?_, hsum⟩
          have := hstop range hrange
          rw [Range.size]
          omega
    | literal literal =>
      obtain ⟨hliteral, -⟩ := hparsed.packed.self
      rw [asts_literal] at hasts
      obtain ⟨c, hc⟩ := List.exists_mem_of_length_pos hliteral.pos
      obtain ⟨hvalid, hplain⟩ := hasts _ (List.mem_map_of_mem hc)
      exact ⟨⟨hliteral.pos, hliteral.le⟩, hplain.ordered hvalid⟩
    | special special =>
      rw [asts_special] at hasts
      cases (hasts _ (List.mem_singleton_self _)).2
    | group group =>
      rw [asts_group] at hasts
      obtain ⟨hvalid, hplain⟩ := hasts _ (List.mem_singleton_self _)
      refine ⟨?_, hplain.ordered hvalid⟩
      cases hvalid with
      | group hpos hitems hsum hlt hne hrep =>
        cases hplain with
        | group hplains hcounts =>
          obtain ⟨s, hs, -⟩ := hne
          refine validOver_of_asts hpos hsum (List.ne_nil_of_mem hs) fun segment hsegment item hi =>
            ih segment hsegment item hi (hparsed.inside hsegment hi) fun a ha => ?_
          have hmem : a ∈ (SegmentOf.ast segment).items := List.mem_flatMap.mpr ⟨item, hi, ha⟩
          exact ⟨hitems _ (List.mem_map_of_mem hsegment) a hmem,
            hplains _ (List.mem_map_of_mem hsegment) a hmem⟩

/-! ## From the text to the words -/

/-- The items of an accepted pattern. -/
theorem parsed_of_parse {string : List UInt8} {g : Group} (hparse : parse string = .ok g)
    {segment : Segment} (hs : segment ∈ g.segments) {item : Item} (hi : item ∈ segment.items) :
    item.Parsed := by
  obtain ⟨state, hrun, hfinish⟩ := parse_run hparse
  exact parsed_of_everywhere
    (everywhere_of_segments ((packedState_run hrun).items.finish hfinish))
    (sets_of_parse hparse fun _ _ _ _ _ _ => rfl) hs hi

/-- The text of a group is accepted, and the tree says the group. -/
theorem exists_parse_print {group : GroupOf Ast} (hgroup : group.Valid Ast.Valid)
    (hne : group.segments ≠ []) :
    ∃ g, parse (utf8EncodeAll group.print) = .ok g ∧ g.ast = group := by
  have hreads : group.Valid Ast.Reads :=
    { hgroup with items := fun s hs i hi => (hgroup.items s hs i hi).reads }
  have hlex : lex .init group.print = some (groupTokens group) :=
    lex_flatMap_spell fun t ht =>
      (writable_group (fun s hs i hi => (hgroup.items s hs i hi).writable) ht).1
  obtain ⟨g, s, hrun, hready, -, hasts, hsum⟩ := reads_segments [] hreads hne
  refine ⟨{ g with segments := g.segments ++ [s] }, ?_, ?_⟩
  · rw [parse_encodeAll_iff fun c hc => (isScalar_of_mem_print hgroup hc).1]
    refine ⟨groupTokens group, [.group g s], hlex, hrun, ?_⟩
    simp only [finish, parseFinish, hready.clean]
  · rw [GroupOf.ast, hasts]
    simp only [hsum]

/-- **A pattern generates what its text matches.**  Well-formed syntax without specials, that is
counted in 64 bits, is accepted as it is written; every run of the tree that returns emits a word
the expression of the syntax matches, and under a depth limit that admits the nesting every word it
matches is emitted for some draws. -/
theorem text_matches {group : GroupOf Ast} (hgroup : group.Valid Ast.Valid)
    (hne : group.segments ≠ []) (hplain : ∀ s ∈ group.segments, ∀ i ∈ s.items, i.Plain) :
    ∃ pattern, parse (utf8EncodeAll group.print) = .ok pattern ∧
      (∀ {σ δ : Type} (host : Host σ δ) (s t : GenState σ δ),
        Effect.Returns (generate host pattern) s () t →
          ∃ w ∈ (groupRegex group).matches', t.emitted = s.emitted ++ w) ∧
      ∀ {δ : Type} (func : δ → ℕ → ℤ × δ), (∀ d c, (func d c).1 = 0) →
        ∀ (data : δ) (depthLimit : ℕ) (entropy : Bool) (wordlists : List (List UInt8 × Wordlist)),
          pattern.depth ≤ depthLimit → ∀ w ∈ (groupRegex group).matches', ∃ draws t,
            Effect.Returns (generate ⟨drawSource, func⟩ pattern)
              (GenState.init draws data depthLimit entropy wordlists) () t ∧ t.emitted = w := by
  obtain ⟨pattern, hparse, hast⟩ := exists_parse_print hgroup hne
  have hasts : ∀ segment ∈ pattern.segments, ∀ item ∈ segment.items, ∀ a ∈ item.asts,
      a.Valid ∧ a.Plain := by
    intro segment hs item hi a ha
    have hs' : segment.ast ∈ group.segments := hast ▸ List.mem_map_of_mem hs
    have ha' : a ∈ segment.ast.items := List.mem_flatMap.mpr ⟨item, hi, ha⟩
    exact ⟨hgroup.items _ hs' a ha', hplain _ hs' a ha'⟩
  have hvalid : ∀ segment ∈ pattern.segments, ∀ item ∈ segment.items, item.Valid :=
    fun segment hs item hi => valid_of_asts item (parsed_of_parse hparse hs hi)
      (hasts segment hs item hi)
  have hpattern : pattern.Valid :=
    validOver_of_asts (hast ▸ hgroup.pos) (hast ▸ hgroup.sum_eq) (hast ▸ hne) hvalid
  have hlanguage : groupLanguage (pattern.map Item.language) = (groupRegex group).matches' := by
    rw [← hast]
    exact groupLanguage_eq fun segment hs item hi => language_eq_asts item
      (parsed_of_parse hparse hs hi) fun a ha => (hasts segment hs item hi a ha).1
  refine ⟨pattern, hparse, fun host s t h => ?_, ?_⟩
  · rw [← hlanguage]
    exact emits_generateGroup
      (fun segment hs item hi => emits_item item (hvalid segment hs item hi)) s t h
  · intro δ func hfunc data depthLimit entropy wordlists hdepth w hw
    rw [← hlanguage] at hw
    obtain ⟨draws, hdraws⟩ := produces_generateGroup hpattern
      (fun segment hs item hi w hw => produces_item hfunc item (hvalid segment hs item hi) hw) hw
    obtain ⟨t, ht, -, -, hemitted⟩ := hdraws []
      (GenState.init draws data depthLimit entropy wordlists) (List.append_nil _).symm hdepth
    exact ⟨draws, t, ht, hemitted⟩

theorem plain_sampleAst : ∀ s ∈ sampleAst.segments, ∀ i ∈ s.items, i.Plain := by
  have ha : Ast.Plain (.mk (.char 97) ⟨1, 1⟩ true) := .char (by decide)
  have hset : Ast.Plain (.mk (.set [⟨98, 100⟩]) ⟨3, 3⟩ false) := .set (by decide) (by decide)
  have hbar : Ast.Plain (.mk (.char 124) ⟨1, 1⟩ false) := .char (by decide)
  have hgroup : Ast.Plain
      (.mk (.group ⟨[⟨[.mk (.char 124) ⟨1, 1⟩ false], 1⟩], 1⟩) ⟨1, 1⟩ false) :=
    .group (by simpa using hbar) (by decide)
  simpa [sampleAst] using ⟨⟨ha, hset⟩, hgroup⟩

theorem text_matches_sampleAst :
    ∃ pattern, parse (utf8EncodeAll sampleAst.print) = .ok pattern ∧
      (∀ {σ δ : Type} (host : Host σ δ) (s t : GenState σ δ),
        Effect.Returns (generate host pattern) s () t →
          ∃ w ∈ (groupRegex sampleAst).matches', t.emitted = s.emitted ++ w) ∧
      ∀ {δ : Type} (func : δ → ℕ → ℤ × δ), (∀ d c, (func d c).1 = 0) →
        ∀ (data : δ) (depthLimit : ℕ) (entropy : Bool) (wordlists : List (List UInt8 × Wordlist)),
          pattern.depth ≤ depthLimit → ∀ w ∈ (groupRegex sampleAst).matches', ∃ draws t,
            Effect.Returns (generate ⟨drawSource, func⟩ pattern)
              (GenState.init draws data depthLimit entropy wordlists) () t ∧ t.emitted = w :=
  text_matches valid_sampleAst (List.cons_ne_nil _ _) plain_sampleAst

end Passgen
