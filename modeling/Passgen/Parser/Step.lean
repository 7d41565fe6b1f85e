import Mathlib.Data.List.Basic
import Mathlib.Data.List.ModifyLast
import Mathlib.Tactic.Common
import Passgen.Parser.Parser
import Passgen.Pattern.Fold

/-!
# Parser/Step — what one token can do

`Step t state state'` lists the effects a token `t` can have on the stack, one constructor for each
branch of the source that does not fail.  Every accepted token is one of them
(`step_of_parseState`), so an invariant of the parser is a case analysis over `Step`.
-/

namespace Passgen

/-- An unescaped token that the group state reads as the control character `c`. -/
def IsControl (t : ℕ) (c : Char) : Prop := isEscaped t = false ∧ asChar t = c.toNat

instance (t : ℕ) (c : Char) : Decidable (IsControl t c) := inferInstanceAs (Decidable (_ ∧ _))

/-- The control characters of the group state. -/
def controls : List Char := ['|', ')', '(', '[', '{', '?']

/-- The token is text, and stands for `c`. -/
def IsText (t c : ℕ) : Prop :=
  isEscaped t = false ∧ (∀ d ∈ controls, asChar t ≠ d.toNat) ∧ c = t ∨
    isEscaped t = true ∧ isEscapedText c ∧ c = clearEscaped t

theorem IsControl.ne {t : ℕ} {c d : Char} (h : IsControl t c) (hne : c.toNat ≠ d.toNat) :
    ¬IsControl t d := fun h' => hne (h.2.symm.trans h'.2)

theorem IsText.not_isControl {t c : ℕ} (h : IsText t c) {d : Char} (hd : d ∈ controls) :
    ¬IsControl t d := by
  rintro ⟨hesc, hchar⟩
  rcases h with ⟨-, hne, -⟩ | ⟨hesc', -⟩
  · exact hne d hd hchar
  · exact absurd (hesc.symm.trans hesc') (by decide)

/-- The segments of a group that is being closed: a last segment with multiplier zero is dropped. -/
def keptSegments (group : Group) (segment : Segment) : List Segment :=
  if segment.multiplier = 0 then group.segments else group.segments ++ [segment]

/-- The effects a token can have. -/
inductive Step (t : ℕ) : List ParserState → List ParserState → Prop where
  | text {g s rest} (c : ℕ) (ht : IsText t c) :
      Step t (.group g s :: rest) (.group g (appendChar (segmentClean s) c) :: rest)
  | special {g s rest} (kind : SpecialKind) (ht : isEscaped t = true)
      (hkind : specialKind (clearEscaped t) = some kind) :
      Step t (.group g s :: rest)
        (.special :: .group g ((segmentClean s).push (.init (.special (specialInit kind)))) :: rest)
  | bar {g s rest} (ht : IsControl t '|') (hs : 0 < (segmentClean s).multiplier) :
      Step t (.group g s :: rest)
        (.group ⟨g.segments ++ [segmentClean s], sizeT (g.multiplierSum + 1)⟩ segmentInit :: rest)
  | recycle {g s rest} (ht : IsControl t '|') (hs : (segmentClean s).multiplier = 0) :
      Step t (.group g s :: rest) (.group g segmentInit :: rest)
  | close {g s parent last rest} (ht : IsControl t ')') :
      Step t (.group g s :: .group parent last :: rest)
        (.group parent (last.push (.init (.group
          (groupFinish { g with segments := keptSegments g (segmentClean s) })))) :: rest)
  | openGroup {g s rest} (ht : IsControl t '(') :
      Step t (.group g s :: rest)
        (.group { groupInit with multiplierSum := 1 } segmentInit
          :: .group g (segmentClean s) :: rest)
  | openSet {g s rest} (ht : IsControl t '[') :
      Step t (.group g s :: rest)
        (.set false :: .group g ((segmentClean s).push (.init (.set setInit))) :: rest)
  | openRepeat {g s s' rest} (ht : IsControl t '{')
      (hs : lastSingleItemTaint (segmentClean s) = some s') :
      Step t (.group g s :: rest) (.repeat :: .group g (s'.modifyLast resetRepeat) :: rest)
  | openMultiplier {g s rest} (ht : IsControl t '{') (hs : (segmentClean s).items = []) :
      Step t (.group g s :: rest)
        (.multiplier :: .group { g with multiplierSum := sizeSub g.multiplierSum 1 }
          { segmentClean s with multiplier := 0 } :: rest)
  | maybe {g s s' rest} (ht : IsControl t '?')
      (hs : lastSingleItemTaint (segmentClean s) = some s') :
      Step t (.group g s :: rest)
        (.group g (s'.modifyLast fun item => .mk item.data item.rep true) :: rest)
  | multiplierEnd {g s rest} (ht : t = '}'.toNat) :
      Step t (.multiplier :: .group g s :: rest)
        (.group { g with multiplierSum := sizeT (g.multiplierSum + s.multiplier) } s :: rest)
  | multiplierDigit {g s rest} (ht : isDigit t) :
      Step t (.multiplier :: .group g s :: rest)
        (.multiplier :: .group g { s with multiplier := pushDigit s.multiplier t } :: rest)
  | setEnd {range g s rest} (ht : t = ']'.toNat) :
      Step t (.set range :: .group g s :: rest)
        (.group g (s.modifyLast (Item.modifySet setClose)) :: rest)
  | setRange {g s rest} (ht : t = '-'.toNat) :
      Step t (.set true :: .group g s :: rest) (.setRange :: .group g s :: rest)
  | setEscaped {range g s rest} (ht : isEscaped t = true) (hc : clearEscaped t = '-'.toNat) :
      Step t (.set range :: .group g s :: rest)
        (.set true
          :: .group g (s.modifyLast (Item.modifySet (setPush (clearEscaped t)))) :: rest)
  | setPush {range g s rest} (ht : isEscaped t = false) (hend : t ≠ ']'.toNat) :
      Step t (.set range :: .group g s :: rest)
        (.set true :: .group g (s.modifyLast (Item.modifySet (setPush t))) :: rest)
  | setExtend {g s set range rest} (hend : t ≠ ']'.toNat) (hset : lastSet s = some set)
      (hrange : set.items.getLast? = some range) (hle : range.start ≤ t) :
      Step t (.setRange :: .group g s :: rest)
        (.set true :: .group g (s.modifyLast (Item.modifySet (setExtend t))) :: rest)
  | repeatEnd {g s rest} (ht : t = '}'.toNat) :
      Step t (.repeat :: .group g s :: rest)
        (.group g (s.modifyLast (Item.modifyRepeat fun r => { r with max := r.min })) :: rest)
  | repeatComma {g s rest} (ht : t = ','.toNat) :
      Step t (.repeat :: .group g s :: rest)
        (.repeatRange
          :: .group g (s.modifyLast (Item.modifyRepeat fun r => { r with max := 0 })) :: rest)
  | repeatDigit {g s rest} (ht : isDigit t) :
      Step t (.repeat :: .group g s :: rest)
        (.repeat :: .group g (s.modifyLast
          (Item.modifyRepeat fun r => { r with min := pushDigit r.min t })) :: rest)
  | repeatRangeEnd {g s rest} (ht : t = '}'.toNat) :
      Step t (.repeatRange :: .group g s :: rest) (.group g s :: rest)
  | repeatRangeDigit {g s rest} (ht : isDigit t) :
      Step t (.repeatRange :: .group g s :: rest)
        (.repeatRange :: .group g (s.modifyLast
          (Item.modifyRepeat fun r => { r with max := pushDigit r.max t })) :: rest)
  | nameOpen {g s rest} (ht : t = '{'.toNat) :
      Step t (.special :: .group g s :: rest) (.specialName :: .group g s :: rest)
  | nameEnd {g s rest} (ht : t = '}'.toNat) :
      Step t (.specialName :: .group g s :: rest) (.group g s :: rest)
  | namePush {g s rest} (ht : t ≠ '}'.toNat) :
      Step t (.specialName :: .group g s :: rest)
        (.specialName :: .group g (s.modifyLast
          (Item.modifySpecial fun special => specialPush special (clearEscaped t))) :: rest)

theorem lastSingleItemTaint_eq_none_iff (s : Segment) :
    lastSingleItemTaint s = none ↔ s.items = [] := by
  rw [lastSingleItemTaint, Option.map_eq_none_iff, List.getLast?_eq_none_iff]

/-- The steps of the group state. -/
theorem step_of_parseGroup {t : ℕ} {g : Group} {s : Segment} {rest state' : List ParserState}
    (h : parseGroup t g s rest = some state') : Step t (.group g s :: rest) state' := by
  simp only [parseGroup] at h
  cases hesc : isEscaped t with
  | true =>
    rw [if_pos hesc] at h
    split at h
    · rename_i htext
      obtain rfl := Option.some.inj h
      exact .text _ (.inr ⟨hesc, htext, rfl⟩)
    · cases hkind : specialKind (clearEscaped t) with
      | none => simp [hkind] at h
      | some kind =>
        rw [hkind] at h
        obtain rfl := Option.some.inj h
        exact .special kind hesc hkind
  | false =>
    rw [if_neg (by rw [hesc]; exact Bool.false_ne_true)] at h
    by_cases hbar : asChar t = '|'.toNat
    · rw [if_pos hbar, parseBar] at h
      obtain rfl := Option.some.inj h
      split
      · exact .bar ⟨hesc, hbar⟩ (by assumption)
      · exact .recycle ⟨hesc, hbar⟩ (by omega)
    rw [if_neg hbar] at h
    by_cases hclose : asChar t = ')'.toNat
    · rw [if_pos hclose] at h
      match rest, h with
      | .group parent last :: rest, h =>
        obtain rfl := Option.some.inj h
        exact .close ⟨hesc, hclose⟩
    rw [if_neg hclose] at h
    by_cases hopen : asChar t = '('.toNat
    · rw [if_pos hopen] at h
      obtain rfl := Option.some.inj h
      exact .openGroup ⟨hesc, hopen⟩
    rw [if_neg hopen] at h
    by_cases hset : asChar t = '['.toNat
    · rw [if_pos hset] at h
      obtain rfl := Option.some.inj h
      exact .openSet ⟨hesc, hset⟩
    rw [if_neg hset] at h
    by_cases hbrace : asChar t = '{'.toNat
    · rw [if_pos hbrace, parseBrace] at h
      cases hlast : lastSingleItemTaint (segmentClean s) with
      | some s' =>
        rw [hlast] at h
        obtain rfl := Option.some.inj h
        exact .openRepeat ⟨hesc, hbrace⟩ hlast
      | none =>
        rw [hlast] at h
        obtain rfl := Option.some.inj h
        exact .openMultiplier ⟨hesc, hbrace⟩ ((lastSingleItemTaint_eq_none_iff _).mp hlast)
    rw [if_neg hbrace] at h
    by_cases hmaybe : asChar t = '?'.toNat
    · rw [if_pos hmaybe, parseMaybe, Option.map_eq_some_iff] at h
      obtain ⟨s', hlast, rfl⟩ := h
      exact .maybe ⟨hesc, hmaybe⟩ hlast
    rw [if_neg hmaybe] at h
    obtain rfl := Option.some.inj h
    refine .text t (.inl ⟨hesc, ?_, rfl⟩)
    simp only [controls, List.forall_mem_cons]
    exact ⟨hbar, hclose, hopen, hset, hbrace, hmaybe, by simp⟩

/-- The steps of the set states. -/
theorem step_of_parseSet {t : ℕ} {range : Bool} {g : Group} {s : Segment}
    {rest state' : List ParserState} (h : parseSet t range g s rest = some state') :
    Step t (.set range :: .group g s :: rest) state' := by
  rw [parseSet] at h
  split at h
  · obtain rfl := Option.some.inj h
    exact .setEnd (by assumption)
  rename_i hend
  split at h
  · rename_i hrange
    obtain ⟨rfl, ht⟩ := hrange
    obtain rfl := Option.some.inj h
    exact .setRange ht
  split at h
  · rename_i hesc
    split at h
    · obtain rfl := Option.some.inj h
      exact .setEscaped hesc (by assumption)
    · exact absurd h (by simp)
  · rename_i hesc
    obtain rfl := Option.some.inj h
    exact .setPush (by simpa using hesc) hend

theorem step_of_parseSetRange {t : ℕ} {g : Group} {s : Segment} {rest state' : List ParserState}
    (h : parseSetRange t g s rest = some state') :
    Step t (.setRange :: .group g s :: rest) state' := by
  rw [parseSetRange] at h
  split at h
  · exact absurd h (by simp)
  rename_i hend
  split at h
  · rename_i range hrange
    split at h
    · exact absurd h (by simp)
    · obtain rfl := Option.some.inj h
      obtain ⟨set, hset, hitems⟩ := Option.bind_eq_some_iff.mp hrange
      exact .setExtend hend hset hitems (by omega)
  · exact absurd h (by simp)

/-- **Every accepted token is a step.** -/
theorem step_of_parseState {t : ℕ} {state state' : List ParserState}
    (h : parseState t state = some state') : Step t state state' := by
  unfold parseState at h
  split at h
  · exact step_of_parseGroup h
  · rw [parseMultiplier] at h
    split at h
    · obtain rfl := Option.some.inj h
      exact .multiplierEnd (by assumption)
    split at h
    · obtain rfl := Option.some.inj h
      exact .multiplierDigit (by assumption)
    · exact absurd h (by simp)
  · exact step_of_parseSet h
  · exact step_of_parseSetRange h
  · rw [parseRepeat] at h
    split at h
    · obtain rfl := Option.some.inj h
      exact .repeatEnd (by assumption)
    split at h
    · obtain rfl := Option.some.inj h
      exact .repeatComma (by assumption)
    split at h
    · obtain rfl := Option.some.inj h
      exact .repeatDigit (by assumption)
    · exact absurd h (by simp)
  · rw [parseRepeatRange] at h
    split at h
    · obtain rfl := Option.some.inj h
      exact .repeatRangeEnd (by assumption)
    split at h
    · obtain rfl := Option.some.inj h
      exact .repeatRangeDigit (by assumption)
    · exact absurd h (by simp)
  · rw [parseSpecial] at h
    split at h
    · obtain rfl := Option.some.inj h
      exact .nameOpen (by assumption)
    · exact absurd h (by simp)
  · rw [parseSpecialName] at h
    obtain rfl := Option.some.inj h
    split
    · exact .nameEnd (by assumption)
    · exact .namePush (by assumption)
  · exact absurd h (by simp)

/-! ## The items of a segment after a step -/

theorem SegmentOf.mem_modifyLast_iff {s : Segment} {f : Item → Item} {item : Item} :
    item ∈ (s.modifyLast f).items ↔
      item ∈ s.items.dropLast ∨ ∃ last, s.items.getLast? = some last ∧ item = f last := by
  rcases List.eq_nil_or_concat s.items with hnil | ⟨init, last, hconcat⟩
  · have hempty : (s.modifyLast f).items = [] := by
      rw [SegmentOf.modifyLast, hnil]
      rfl
    simp [hempty, hnil]
  · rw [List.concat_eq_append] at hconcat
    rw [SegmentOf.modifyLast, hconcat, List.modifyLast_concat, List.dropLast_concat,
      List.getLast?_concat, List.mem_append, List.mem_singleton]
    simp

theorem SegmentOf.modifyLast_push (s : Segment) (item : Item) (f : Item → Item) :
    (s.push item).modifyLast f = s.push (f item) := by
  simp only [SegmentOf.push, SegmentOf.modifyLast, List.modifyLast_concat]

theorem SegmentOf.modifyLast_modifyLast (s : Segment) (f g : Item → Item) :
    (s.modifyLast f).modifyLast g = s.modifyLast fun item => g (f item) := by
  rcases List.eq_nil_or_concat s.items with hnil | ⟨init, last, hconcat⟩
  · simp only [SegmentOf.modifyLast, hnil]
    rfl
  · rw [List.concat_eq_append] at hconcat
    simp only [SegmentOf.modifyLast, hconcat, List.modifyLast_concat]

/-- The items of a tree a group leaf can sit in: a change of leaves keeps them. -/
def SegmentOf.SubGroups (s' s : Segment) : Prop :=
  ∀ item' ∈ s'.items, ∀ h, item'.data = .group h → ∃ item ∈ s.items, item.data = .group h

theorem SegmentOf.SubGroups.groups {P : Group → Prop} {s s' : Segment} (hsub : s'.SubGroups s)
    (hs : s.Groups P) : s'.Groups P := by
  intro item' hitem' h hdata k hk
  obtain ⟨item, hitem, hd⟩ := hsub item' hitem' h hdata
  exact hs item hitem h hd k hk

theorem SegmentOf.SubGroups.trans {s s' s'' : Segment} (h : s''.SubGroups s')
    (h' : s'.SubGroups s) : s''.SubGroups s := by
  intro item'' hitem'' k hk
  obtain ⟨item', hitem', hk'⟩ := h item'' hitem'' k hk
  exact h' item' hitem' k hk'

theorem subGroups_clean (s : Segment) : (segmentClean s).SubGroups s := by
  intro item hitem h hdata
  refine ⟨item, ?_, hdata⟩
  unfold segmentClean at hitem
  split at hitem
  · split at hitem
    · exact List.dropLast_subset _ hitem
    · exact hitem
  · exact hitem

theorem multiplier_clean (s : Segment) : (segmentClean s).multiplier = s.multiplier := by
  unfold segmentClean
  split
  · split <;> rfl
  · rfl

/-- Cleaning looks at the last item only. -/
theorem segmentClean_push (s : Segment) (item : Item) :
    segmentClean (s.push item) =
      match item.data with
      | .group g => if g.multiplierSum = 0 then s else s.push item
      | _ => s.push item := by
  have hlast : (s.push item).items.getLast? = some item := List.getLast?_concat
  have hdrop : (s.push item).items.dropLast = s.items := List.dropLast_concat
  rcases item with ⟨_ | _ | _ | g, rep, maybe⟩ <;> simp only [segmentClean, hlast, Item.data_mk]
  split
  · rw [hdrop]
    rfl
  · rfl

/-- Appending an item that is not a group. -/
theorem subGroups_push (s : Segment) {item : Item} (hitem : ∀ h, item.data ≠ .group h) :
    (s.push item).SubGroups s := by
  intro item' hitem' h hdata
  rcases List.mem_append.mp hitem' with hmem | hmem
  · exact ⟨item', hmem, hdata⟩
  · obtain rfl := List.mem_singleton.mp hmem
    exact absurd hdata (hitem h)

/-- Rewriting the last item without making a group of it. -/
theorem subGroups_modifyLast (s : Segment) {f : Item → Item}
    (hf : ∀ item h, (f item).data = .group h → item.data = .group h) :
    (s.modifyLast f).SubGroups s := by
  intro item' hitem' h hdata
  rcases SegmentOf.mem_modifyLast_iff.mp hitem' with hmem | ⟨last, hlast, rfl⟩
  · exact ⟨item', List.dropLast_subset _ hmem, hdata⟩
  · exact ⟨last, List.mem_of_getLast? hlast, hf last h hdata⟩

theorem data_modifySet (f : PatternSet → PatternSet) (item : Item) (h : Group)
    (hdata : (item.modifySet f).data = .group h) : item.data = .group h := by
  rcases item with ⟨_ | _ | _ | _, rep, maybe⟩ <;> simp_all [Item.modifySet]

theorem data_modifySpecial (f : Special → Special) (item : Item) (h : Group)
    (hdata : (item.modifySpecial f).data = .group h) : item.data = .group h := by
  rcases item with ⟨_ | _ | _ | _, rep, maybe⟩ <;> simp_all [Item.modifySpecial]

theorem subGroups_appendChar (s : Segment) (c : ℕ) : (appendChar s c).SubGroups s := by
  have hfresh : (s.push (.init (.literal ⟨[c], false⟩))).SubGroups s :=
    subGroups_push s fun h hd => nomatch hd
  unfold appendChar
  split
  · split
    · exact subGroups_modifyLast s fun item h hd => nomatch hd
    · exact hfresh
  · exact hfresh

/-- Splitting a literal only adds literals. -/
theorem subGroups_lastSingleItemTaint {s s' : Segment} (h : lastSingleItemTaint s = some s') :
    s'.SubGroups s := by
  rw [lastSingleItemTaint, Option.map_eq_some_iff] at h
  obtain ⟨last, hlast, rfl⟩ := h
  intro item' hitem' k hdata
  rcases List.mem_append.mp hitem' with hmem | hmem
  · exact ⟨item', List.dropLast_subset _ hmem, hdata⟩
  · refine ⟨last, List.mem_of_getLast? hlast, ?_⟩
    unfold singleItemTaint at hmem
    split at hmem
    · split at hmem <;> simp at hmem
      · rcases hmem with rfl | rfl <;> exact absurd hdata (by simp [Item.init])
      · exact absurd hdata (by simp [hmem])
    · rw [← List.mem_singleton.mp hmem, hdata]

theorem multiplier_lastSingleItemTaint {s s' : Segment} (h : lastSingleItemTaint s = some s') :
    s'.multiplier = s.multiplier := by
  rw [lastSingleItemTaint, Option.map_eq_some_iff] at h
  obtain ⟨last, -, rfl⟩ := h
  rfl

theorem multiplier_appendChar (s : Segment) (c : ℕ) :
    (appendChar s c).multiplier = s.multiplier := by
  unfold appendChar
  split
  · split <;> rfl
  · rfl

/-! ## A property of all items -/

/-- `P` holds of every item of the segment. -/
def SegmentOf.All (P : Item → Prop) (segment : Segment) : Prop := ∀ item ∈ segment.items, P item

/-- `P` holds of fresh literals, and looks at no codepoint of a literal. -/
structure IgnoresText (P : Item → Prop) : Prop where
  fresh : ∀ literal, P (.init (.literal literal))
  other : ∀ {literal rep maybe}, P (.mk (.literal literal) rep maybe) →
    ∀ literal', P (.mk (.literal literal') rep maybe)

namespace SegmentOf.All

variable {P : Item → Prop} {s s' : Segment}

theorem segmentInit : SegmentOf.All P segmentInit := fun _ h => absurd h List.not_mem_nil

theorem push (h : s.All P) {item : Item} (hitem : P item) : (s.push item).All P := by
  intro i hi
  rcases List.mem_append.mp hi with hi | hi
  · exact h i hi
  · exact List.mem_singleton.mp hi ▸ hitem

/-- **Rewriting the last item**: what `f` makes of it is enough for what `g` makes of it. -/
theorem modifyLast {f g : Item → Item} (h : (s.modifyLast f).All P)
    (hfg : ∀ item, P (f item) → P (g item)) : (s.modifyLast g).All P := by
  intro i hi
  rcases SegmentOf.mem_modifyLast_iff.mp hi with hi | ⟨last, hlast, rfl⟩
  · exact h i (SegmentOf.mem_modifyLast_iff.mpr (.inl hi))
  · exact hfg last (h _ (SegmentOf.mem_modifyLast_iff.mpr (.inr ⟨last, hlast, rfl⟩)))

theorem modifyLast_of (h : s.All P) {g : Item → Item} (hg : ∀ item, P item → P (g item)) :
    (s.modifyLast g).All P := by
  intro i hi
  rcases SegmentOf.mem_modifyLast_iff.mp hi with hi | ⟨last, hlast, rfl⟩
  · exact h i (List.dropLast_subset _ hi)
  · exact hg last (h last (List.mem_of_getLast? hlast))

theorem clean (h : s.All P) : (segmentClean s).All P := by
  rw [segmentClean]
  split
  · split
    · exact fun i hi => h i (List.dropLast_subset _ hi)
    · exact h
  · exact h

theorem appendChar (hP : IgnoresText P) (h : s.All P) (c : ℕ) : (appendChar s c).All P := by
  have hfresh : (s.push (.init (.literal ⟨[c], false⟩))).All P := h.push (hP.fresh _)
  rw [Passgen.appendChar]
  split
  · rename_i literal rep maybe hlast
    have hlast := h _ (List.mem_of_getLast? hlast)
    split
    · exact h.modifyLast_of fun _ _ => hP.other hlast _
    · exact hfresh
  · exact hfresh

theorem lastSingleItemTaint (hP : IgnoresText P) (h : s.All P)
    (htaint : Passgen.lastSingleItemTaint s = some s') : s'.All P := by
  obtain ⟨last, hlast, rfl⟩ := Option.map_eq_some_iff.mp htaint
  have hlast := h last (List.mem_of_getLast? hlast)
  intro i hi
  rcases List.mem_append.mp hi with hi | hi
  · exact h i (List.dropLast_subset _ hi)
  · unfold singleItemTaint at hi
    split at hi
    · split at hi
      · simp only [List.mem_cons, List.not_mem_nil, or_false] at hi
        rcases hi with rfl | rfl
        · exact hP.other hlast _
        · exact hP.fresh _
      · exact List.mem_singleton.mp hi ▸ hP.other hlast _
    · exact List.mem_singleton.mp hi ▸ hlast

end SegmentOf.All

/-- What holds of the segments of a group and of its last one holds of those that are kept. -/
theorem forall_keptSegments {Q : Segment → Prop} {group : Group} {segment : Segment}
    (hgroup : ∀ s ∈ group.segments, Q s) (hsegment : Q segment) :
    ∀ s ∈ keptSegments group segment, Q s := by
  rw [keptSegments]
  split
  · exact hgroup
  · intro s hs
    rcases List.mem_append.mp hs with hs | hs
    · exact hgroup s hs
    · exact List.mem_singleton.mp hs ▸ hsegment

theorem segments_groupFinish (group : Group) : (groupFinish group).segments = group.segments := by
  rw [groupFinish]
  split <;> rfl

/-- `P` holds of every item of the groups a state owns. -/
def ParserState.Items (P : Item → Prop) : ParserState → Prop
  | .group g last => (∀ s ∈ g.segments, s.All P) ∧ last.All P
  | _ => True

end Passgen
