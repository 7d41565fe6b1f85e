import Mathlib.Data.List.Basic
import Mathlib.Tactic.Common
import Passgen.Generate.Select
import Passgen.Parser.Items

/-!
# Parser/Sets — where the ranges of a set come from

    [ s  s-e  s-e-e' ]        ranges  s…s  s…e  s…e'        totals  1  1 + (e - s + 1)  …

Every set of an accepted pattern is written in it: a range is a start and any number of ends, of
which the last one counts.  A start is unescaped, or it is refused; an end is stored as the token
is, escape bit and all, and neither is compared with the last codepoint there is.
-/

namespace Passgen

/-! ## Ranges as they are written -/

/-- The codepoint a token starts a range with. -/
def rangeStart (t : ℕ) : ℕ := if isEscaped t then clearEscaped t else t

/-- A range as it is written: a start, and ends that are not below it. -/
structure RangeText where
  start : ℕ
  ends : List ℕ
  le : ∀ e ∈ ends, rangeStart start ≤ e

namespace RangeText

/-- The tokens: each end after a dash. -/
def tokens (x : RangeText) : List ℕ := x.start :: x.ends.flatMap fun e => ['-'.toNat, e]

/-- The last end, or the start. -/
def last (x : RangeText) : ℕ := x.ends.getLast?.getD (rangeStart x.start)

/-- The range. -/
def range (x : RangeText) : Range := ⟨rangeStart x.start, x.last⟩

/-- A start alone. -/
def single (t : ℕ) : RangeText := ⟨t, [], fun _ h => absurd h List.not_mem_nil⟩

/-- One more end. -/
def extend (x : RangeText) (e : ℕ) (he : rangeStart x.start ≤ e) : RangeText :=
  ⟨x.start, x.ends ++ [e], List.forall_mem_append.mpr ⟨x.le, List.forall_mem_singleton.mpr he⟩⟩

theorem start_le_last (x : RangeText) : rangeStart x.start ≤ x.last := by
  rw [last]
  cases hlast : x.ends.getLast? with
  | none => exact le_rfl
  | some e => exact x.le e (List.mem_of_getLast? hlast)

theorem tokens_extend (x : RangeText) (e : ℕ) (he : rangeStart x.start ≤ e) :
    (x.extend e he).tokens = x.tokens ++ ['-'.toNat, e] := by
  simp only [tokens, extend, List.flatMap_append, List.flatMap_singleton, List.cons_append]

theorem range_extend (x : RangeText) (e : ℕ) (he : rangeStart x.start ≤ e) :
    (x.extend e he).range = { x.range with stop := e } := by
  simp [range, last, extend]

end RangeText

/-- The ends are codepoints, and the codepoints of all ranges can be counted on a `size_t`. -/
structure FitsText (text : List RangeText) : Prop where
  last : ∀ x ∈ text, x.last ≤ 0x10FFFF
  sum : (text.map fun x => x.last - rangeStart x.start + 1).sum < 2 ^ 64

/-- The set is written in the tokens. -/
structure WrittenAs (tokens : List ℕ) (set : PatternSet) (text : List RangeText) : Prop where
  tokens : ∃ before t after, IsControl t '[' ∧
    tokens = before ++ t :: text.flatMap RangeText.tokens ++ ']'.toNat :: after
  items : set.items = text.map RangeText.range

/-! ## Sets as they should be -/

/-- **The ranges are of codepoints, and `choices_list` counts them.** -/
structure PatternSet.Proper (set : PatternSet) : Prop where
  ranges : ∀ range ∈ set.items, range.start ≤ range.stop ∧ range.stop ≤ 0x10FFFF
  length : set.choicesList.length = set.items.length
  total : ∀ i < set.items.length,
    set.choicesList[i]? = some ((set.items.map Range.size).take (i + 1)).sum
  increasing : set.choicesList.Pairwise (· < ·)
  last : ∀ n ∈ set.choicesList.getLast?, n = (set.items.map Range.size).sum

/-- **A closed set** is as it should be when its ends are codepoints and their number fits. -/
theorem PatternSet.Closed.proper_iff {set : PatternSet} (h : set.Closed) :
    set.Proper ↔ (∀ range ∈ set.items, range.stop ≤ 0x10FFFF) ∧
      (set.items.map Range.size).sum < 2 ^ 64 := by
  constructor
  · intro hproper
    refine ⟨fun range hrange => (hproper.ranges range hrange).2, ?_⟩
    by_cases hnil : set.items = []
    · rw [hnil]
      exact Nat.two_pow_pos 64
    · have hlen : set.items.length - 1 < set.items.length :=
        Nat.sub_one_lt (List.length_pos_of_ne_nil hnil).ne'
      have htotal := hproper.total _ hlen
      rw [h.closed, getLast_choicesFrom hnil, Nat.sub_add_cancel (List.length_pos_of_ne_nil hnil),
        List.take_of_length_le (by rw [List.length_map])] at htotal
      exact Option.some.inj htotal ▸ sizeT_lt _
  · rintro ⟨hstop, hsum⟩
    have hsize : ∀ range ∈ set.items, range.choices = range.size := fun range hrange => by
      have hle := h.ranges range hrange
      have hlast := hstop range hrange
      rw [Range.choices_eq hle, Range.size]
      omega
    have hchoices : set.choicesList = Weighted.totals 0 (set.items.map Range.size) := by
      rw [h.closed, choicesFrom_eq_totals hsize (by rwa [Nat.zero_add])]
    refine ⟨fun range hrange => ⟨h.ranges range hrange, hstop range hrange⟩, ?_, fun i hi => ?_, ?_,
      fun n hn => ?_⟩
    · rw [hchoices, Weighted.length_totals, List.length_map]
    · rw [hchoices, Weighted.getElem?_totals 0 (by rwa [List.length_map]), Nat.zero_add]
    · rw [hchoices]
      refine Weighted.pairwise_totals 0 fun n hn => ?_
      obtain ⟨range, -, rfl⟩ := List.mem_map.mp hn
      exact Nat.succ_pos _
    · rw [hchoices] at hn
      rw [Weighted.eq_of_mem_getLast?_totals hn, Nat.zero_add]

/-- **A set that is written** is as it should be when its text fits. -/
theorem WrittenAs.proper_iff {tokens : List ℕ} {set : PatternSet} {text : List RangeText}
    (h : WrittenAs tokens set text) (hclosed : set.choicesList = choicesFrom 0 set.items) :
    set.Proper ↔ FitsText text := by
  have hitems := h.items
  have hset : set.Closed := by
    refine ⟨fun range hrange => ?_, hclosed⟩
    obtain ⟨x, -, rfl⟩ := List.mem_map.mp (hitems ▸ hrange)
    exact x.start_le_last
  have hsum : (set.items.map Range.size).sum =
      (text.map fun x => x.last - rangeStart x.start + 1).sum := by
    rw [hitems, List.map_map]
    rfl
  rw [hset.proper_iff, hsum, hitems, List.forall_mem_map]
  exact ⟨fun ⟨hlast, hsum⟩ => ⟨hlast, hsum⟩, fun ⟨hlast, hsum⟩ => ⟨hlast, hsum⟩⟩

/-! ## Reading a set -/

/-- The last item of the segment is an open set, written at the end of the tokens. -/
structure OpenSet (tokens : List ℕ) (s : Segment) (text : List RangeText) : Prop where
  tokens : ∃ before t, IsControl t '[' ∧ tokens = before ++ t :: text.flatMap RangeText.tokens
  items : ∃ init, s.items = init ++ [.init (.set ⟨text.map RangeText.range, []⟩)]

/-- The set at the top of the stack is written at the end of the tokens, and so is the dash after a
range. -/
def SetRead (tokens : List ℕ) : List ParserState → Prop
  | .set range :: .group _ s :: _ => ∃ text, OpenSet tokens s text ∧ (range = true → text ≠ [])
  | .setRange :: .group _ s :: _ =>
    ∃ before text, tokens = before ++ ['-'.toNat] ∧ OpenSet before s text ∧ text ≠ []
  | _ => True

section SetRead

variable {tokens : List ℕ} {s : Segment} {text : List RangeText}

/-- A start is written. -/
theorem OpenSet.push (h : OpenSet tokens s text) (t : ℕ) :
    OpenSet (tokens ++ [t]) (s.modifyLast (Item.modifySet (setPush (rangeStart t))))
      (text ++ [RangeText.single t]) := by
  obtain ⟨before, u, hu, htokens⟩ := h.tokens
  obtain ⟨init, hitems⟩ := h.items
  refine ⟨⟨before, u, hu, ?_⟩, init, ?_⟩
  · rw [htokens, List.flatMap_append, List.flatMap_singleton, List.append_assoc, List.cons_append]
    rfl
  · rw [SegmentOf.modifyLast, hitems, List.modifyLast_concat, List.map_append]
    rfl

/-- An end is written. -/
theorem OpenSet.extend (h : OpenSet tokens s text) {set : PatternSet} {range : Range} {e : ℕ}
    (hset : lastSet s = some set) (hrange : set.items.getLast? = some range)
    (hle : range.start ≤ e) :
    ∃ text', OpenSet (tokens ++ ['-'.toNat] ++ [e])
      (s.modifyLast (Item.modifySet (setExtend e))) text' ∧ text' ≠ [] := by
  obtain ⟨before, u, hu, htokens⟩ := h.tokens
  obtain ⟨init, hitems⟩ := h.items
  rw [lastSet, hitems, List.getLast?_concat] at hset
  obtain rfl := Option.some.inj hset
  rcases List.eq_nil_or_concat text with rfl | ⟨front, x, rfl⟩
  · exact absurd hrange (by simp)
  · rw [List.concat_eq_append] at htokens hitems hrange
    rw [List.map_append, List.map_singleton, List.getLast?_concat] at hrange
    obtain rfl := Option.some.inj hrange
    have hstart : rangeStart x.start ≤ e := hle
    refine ⟨front ++ [x.extend e hstart], ⟨⟨before, u, hu, ?_⟩, init, ?_⟩, by simp⟩
    · rw [htokens, List.flatMap_append, List.flatMap_append, List.flatMap_singleton,
        List.flatMap_singleton, RangeText.tokens_extend]
      simp
    · rw [SegmentOf.modifyLast, hitems, List.modifyLast_concat, List.map_append, List.map_append,
        List.map_singleton, List.map_singleton, RangeText.range_extend]
      simp only [Item.init, Item.modifySet, setExtend, List.modifyLast_concat]

/-- **One token** of a set is one more token of its text. -/
theorem setRead_step {t : ℕ} {state state' : List ParserState} (hstep : Step t state state')
    (h : SetRead tokens state) : SetRead (tokens ++ [t]) state' := by
  cases hstep with
  | openSet ht =>
    exact ⟨[], ⟨⟨tokens, t, ht, rfl⟩, _, rfl⟩, fun h => absurd h Bool.false_ne_true⟩
  | setRange ht =>
    obtain ⟨text, hopen, hne⟩ := h
    exact ⟨tokens, text, by rw [ht], hopen, hne rfl⟩
  | setEscaped ht =>
    obtain ⟨text, hopen, -⟩ := h
    have hpush := hopen.push t
    rw [rangeStart, if_pos ht] at hpush
    exact ⟨_, hpush, fun _ => by simp⟩
  | setPush ht =>
    obtain ⟨text, hopen, -⟩ := h
    have hpush := hopen.push t
    rw [rangeStart, if_neg (by rw [ht]; exact Bool.false_ne_true)] at hpush
    exact ⟨_, hpush, fun _ => by simp⟩
  | setExtend _ hset hrange hle =>
    obtain ⟨before, text, rfl, hopen, -⟩ := h
    obtain ⟨text', hopen', hne⟩ := hopen.extend hset hrange hle
    exact ⟨text', hopen', fun _ => hne⟩
  | _ => trivial

end SetRead

/-! ## Accepted patterns -/

/-- `Q` holds of the group's own sets. -/
def Group.Sets (Q : PatternSet → Prop) (g : Group) : Prop :=
  ∀ s ∈ g.segments, ∀ item ∈ s.items, ∀ set, item.data = .set set → Q set

/-- `Q` holds of the set of the item and of the sets inside. -/
def Item.Sets (Q : PatternSet → Prop) (item : Item) : Prop :=
  (∀ set, item.data = .set set → Q set) ∧ item.Groups (Group.Sets Q)

/-- The stack without the set that is being read. -/
def openless : List ParserState → List ParserState
  | .set _ :: .group g s :: rest => .group g { s with items := s.items.dropLast } :: rest
  | .setRange :: .group g s :: rest => .group g { s with items := s.items.dropLast } :: rest
  | state => state

section Sets

variable {Q : PatternSet → Prop}

theorem Item.Sets.of_data {item item' : Item} (h : item.Sets Q) (hdata : item'.data = item.data) :
    item'.Sets Q :=
  ⟨fun set hset => h.1 set (hdata ▸ hset), fun g hg => h.2 g (hdata ▸ hg)⟩

/-- An item that is neither a set nor a group. -/
theorem sets_leaf {item : Item} (hset : ∀ set, item.data ≠ .set set)
    (hgroup : ∀ g, item.data ≠ .group g) : item.Sets Q :=
  ⟨fun set h => absurd h (hset set), fun g h => absurd h (hgroup g)⟩

theorem leafRules_sets : LeafRules (Item.Sets Q) where
  fresh _ := sets_leaf (by simp [Item.init]) (by simp [Item.init])
  other _ _ := sets_leaf (by simp) (by simp)
  special _ := sets_leaf (by simp [Item.init]) (by simp [Item.init])
  name {item} c h := by
    rcases item with ⟨_ | _ | _ | _, rep, maybe⟩
    case special => exact sets_leaf (by simp [Item.modifySpecial]) (by simp [Item.modifySpecial])
    all_goals exact h
  group g h := by
    refine ⟨by simp [Item.init], fun g' hg' => ?_⟩
    obtain rfl : groupFinish g = g' := by simpa [Item.init] using hg'
    exact Group.forall_contains_items fun s hs => h s (segments_groupFinish g ▸ hs)
  maybe h := h.of_data rfl
  reset h := h.of_data rfl

theorem dropLast_modifyLast (s : Segment) (f : Item → Item) :
    (s.modifyLast f).items.dropLast = s.items.dropLast := by
  rcases List.eq_nil_or_concat s.items with hnil | ⟨init, item, hitems⟩
  · rw [SegmentOf.modifyLast, hnil]
    rfl
  · rw [List.concat_eq_append] at hitems
    rw [SegmentOf.modifyLast, hitems, List.modifyLast_concat, List.dropLast_concat,
      List.dropLast_concat]

/-- **One step** keeps the sets, when `Q` holds of every set that is closed. -/
theorem sets_step {t : ℕ} {tokens : List ℕ} {state state' : List ParserState}
    (hclose : ∀ s text, OpenSet tokens s text → t = ']'.toNat →
      Q (setClose ⟨text.map RangeText.range, []⟩))
    (hread : SetRead tokens state) (hstep : Step t state state')
    (h : AllItems (Item.Sets Q) (openless state)) : AllItems (Item.Sets Q) (openless state') := by
  have hsame : ∀ {g : Group} {s : Segment} {rest} {f : Item → Item},
      AllItems (Item.Sets Q) (.group g ⟨s.items.dropLast, s.multiplier⟩ :: rest) →
      AllItems (Item.Sets Q) (.group g ⟨(s.modifyLast f).items.dropLast, s.multiplier⟩ :: rest) :=
    fun h => h.last fun hs item hitem => hs item (dropLast_modifyLast _ _ ▸ hitem)
  cases hstep with
  | openSet =>
    refine AllItems.last h fun hs item hitem => hs.clean item ?_
    rwa [SegmentOf.push, List.dropLast_concat] at hitem
  | setEnd ht =>
    obtain ⟨text, hopen, -⟩ := hread
    obtain ⟨init, hitems⟩ := hopen.items
    refine AllItems.last h fun hs item hitem => ?_
    rcases SegmentOf.mem_modifyLast_iff.mp hitem with hmem | ⟨last, hlast, rfl⟩
    · exact hs item hmem
    · rw [hitems, List.getLast?_concat] at hlast
      obtain rfl := Option.some.inj hlast
      refine ⟨fun set hset => ?_, fun g hg => absurd hg (by simp [Item.init, Item.modifySet])⟩
      obtain rfl := ItemData.set.inj hset
      exact hclose _ text hopen ht
  | setRange => exact h
  | setEscaped | setPush | setExtend => exact hsame h
  | repeatEnd => exact AllItems.write h fun _ hitem => hitem.of_data rfl
  | repeatComma | repeatDigit | repeatRangeDigit =>
    exact allItems_cons_iff.mpr ⟨trivial, AllItems.write h fun _ hitem => hitem.of_data rfl⟩
  | repeatRangeEnd => exact h.below
  | _ => exact leafRules_sets.step (by constructor <;> assumption) id id id h

/-- **The sets of an accepted pattern** are those that are closed on the way. -/
theorem sets_of_parse {string : List UInt8} {g : Group} (hparse : parse string = .ok g)
    (hclose : ∀ before after s text, patternTokens string = before ++ ']'.toNat :: after →
      OpenSet before s text → Q (setClose ⟨text.map RangeText.range, []⟩)) :
    ∀ k, g.Contains k → Group.Sets Q k := by
  obtain ⟨state, hrun, hfinish⟩ := parse_run hparse
  have hinit : SetRead [] parserInit.state ∧ AllItems (Item.Sets Q) (openless parserInit.state) :=
    ⟨trivial, allItems_parserInit⟩
  have hall := parseStates_prefix_invariant
    (P := fun before state => SetRead before state ∧ AllItems (Item.Sets Q) (openless state))
    (fun before t after state state' htokens h ht =>
      ⟨setRead_step (step_of_parseState ht) h.1, sets_step (fun s text hopen hend =>
        hclose before after s text (hend ▸ htokens) hopen) h.1 (step_of_parseState ht) h.2⟩)
    hinit hrun
  obtain ⟨group, segment, rfl, -⟩ := finish_eq_some_iff.mp hfinish
  exact Group.forall_contains_items (AllItems.finish hall.2 hfinish)

end Sets

/-- **Sets hold valid codepoint ranges** where their text fits: every set of an accepted pattern is
written in it, and it is as it should be exactly when the last end of each range is a codepoint and
the codepoints can be counted. -/
theorem sets_proper_iff {string : List UInt8} {g : Group} (hparse : parse string = .ok g) :
    ∀ k, g.Contains k → k.Sets fun set => ∃ text, WrittenAs (patternTokens string) set text ∧
      (set.Proper ↔ FitsText text) := by
  refine sets_of_parse hparse fun before after s text htokens hopen => ?_
  obtain ⟨front, t, ht, hbefore⟩ := hopen.tokens
  have hwritten : WrittenAs (patternTokens string) (setClose ⟨text.map RangeText.range, []⟩) text :=
    ⟨⟨front, t, after, ht, by rw [htokens, hbefore]⟩, rfl⟩
  exact ⟨text, hwritten, hwritten.proper_iff rfl⟩

/-- The pattern `[a-z]`. -/
def letterSet : Group := ⟨[⟨[.init (.set ⟨[⟨97, 122⟩], [26]⟩)], 1⟩], 1⟩

theorem sets_proper_letterSet :
    letterSet.Sets fun set => ∃ text, WrittenAs (patternTokens (ascii "[a-z]")) set text ∧
      (set.Proper ↔ FitsText text) :=
  @sets_proper_iff (ascii "[a-z]") letterSet rfl letterSet (.root _)

/-- **The end of a range keeps the escape bit**: `[a-\z]` has more than `2 ^ 30` choices. -/
theorem not_sets_proper_escaped :
    ¬∀ (string : List UInt8) (g : Group), parse string = .ok g →
      ∀ k, g.Contains k → k.Sets PatternSet.Proper := by
  intro h
  have hparse : parse (ascii "[a-\\z]") =
      .ok ⟨[⟨[.init (.set ⟨[⟨97, 1073741946⟩], [1073741850]⟩)], 1⟩], 1⟩ := rfl
  have hproper := h _ _ hparse _ (.root _) _ List.mem_cons_self _ List.mem_cons_self _ rfl
  exact absurd (hproper.ranges _ List.mem_cons_self).2 (by decide)

end Passgen
