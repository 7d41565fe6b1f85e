import Mathlib.Data.List.Basic
import Mathlib.Tactic.Common
import Passgen.Parser.Path
import Passgen.Parser.Reading

/-!
# Parser/Packing — how characters are packed into literals

    a b c d e f g h i {2} j      abcdefg │ h │ i{2} │ j
                                              tainted

A character joins the literal in front of it, up to seven in one; a modifier takes the last one out
and taints it, so that nothing joins it.  None of this changes what is read: without the limits
between them, the literals of a segment are the text that was read into it (`literal_packing`).
-/

namespace Passgen

/-! ## Packed items -/

/-- A literal has one to seven codepoints, and one if it is tainted. -/
structure Literal.Packed (literal : Literal) : Prop where
  pos : 1 ≤ literal.count
  le : literal.count ≤ 7
  single : literal.tainted = true → literal.count = 1

/-- A literal that has been modified is tainted. -/
def Item.Packed : Item → Prop
  | .mk (.literal literal) rep maybe =>
    literal.Packed ∧ (literal.tainted = true ∨ rep = ⟨1, 1⟩ ∧ maybe = false)
  | _ => True

/-- The last item is tainted, if it is a literal. -/
def SegmentOf.LastTainted (segment : Segment) : Prop :=
  ∀ item literal, segment.items.getLast? = some item → item.data = .literal literal →
    literal.tainted = true

/-- The item whose bounds are being read is tainted. -/
def RepeatsTainted : List ParserState → Prop
  | .repeat :: .group _ segment :: _ => segment.LastTainted
  | .repeatRange :: .group _ segment :: _ => segment.LastTainted
  | _ => True

/-- What holds of every state. -/
structure PackedState (state : List ParserState) : Prop where
  items : AllItems (Item.Deep Item.Packed) state
  repeats : RepeatsTainted state

section Items

variable {s s' : Segment} {item last : Item} {f : Item → Item}

theorem packed_of_data (h : ∀ literal, item.data ≠ .literal literal) : item.Packed := by
  rcases item with ⟨_ | literal | _ | _, rep, maybe⟩
  · trivial
  · exact absurd rfl (h literal)
  · trivial
  · trivial

theorem deep_init {data : ItemData Item} (hliteral : ∀ literal, data ≠ .literal literal)
    (hgroup : ∀ group, data ≠ .group group) : (Item.init data).Deep Item.Packed :=
  deep_leaf (packed_of_data hliteral) hgroup

/-- A new literal. -/
theorem deep_literal {codepoint : ℕ} {tainted : Bool} :
    (Item.init (.literal ⟨[codepoint], tainted⟩)).Deep Item.Packed :=
  deep_leaf ⟨⟨le_rfl, by simp [Literal.count], fun _ => rfl⟩, .inr ⟨rfl, rfl⟩⟩ (by simp [Item.init])

/-- **A modifier of a tainted item.** -/
theorem Item.Deep.modify (h : item.Deep Item.Packed)
    (htainted : ∀ literal, item.data = .literal literal → literal.tainted = true)
    (hdata : last.data = item.data) : last.Deep Item.Packed := by
  refine ⟨?_, fun group hgroup => h.inside group (hdata.symm.trans hgroup)⟩
  rcases last with ⟨_ | literal | _ | _, rep, maybe⟩
  · trivial
  · rcases item with ⟨_ | literal' | _ | _, rep', maybe'⟩
    all_goals cases hdata
    exact ⟨h.self.1, .inl (htainted literal rfl)⟩
  · trivial
  · trivial

/-- What appending to a literal needs, and does. -/
theorem literalAppend_eq_some_iff {literal literal' : Literal} {codepoint : ℕ} :
    literalAppend literal codepoint = some literal' ↔ literal.count < 7 ∧
      literal.tainted = false ∧ literal' = ⟨literal.codepoints ++ [codepoint], false⟩ := by
  rcases literal with ⟨codepoints, tainted⟩
  rw [literalAppend]
  split
  · rename_i hfull
    refine iff_of_false (by simp) ?_
    rintro ⟨hlt, rfl, -⟩
    rcases hfull with hge | htainted
    · exact absurd hge (Nat.not_le.mpr hlt)
    · exact absurd htainted (by simp)
  · rename_i hroom
    obtain ⟨hlt, htainted⟩ := not_or.mp hroom
    obtain rfl : tainted = false := by simpa using htainted
    rw [Option.some.injEq, and_iff_right (Nat.not_le.mp hlt), and_iff_right rfl, eq_comm]

/-- **Text** keeps the items packed. -/
theorem all_appendChar (h : s.All (Item.Deep Item.Packed)) (codepoint : ℕ) :
    (appendChar s codepoint).All (Item.Deep Item.Packed) := by
  have hfresh := h.push (@deep_literal codepoint false)
  rw [appendChar]
  split
  · rename_i literal rep maybe hlast
    have hliteral := h _ (List.mem_of_getLast? hlast)
    split
    · rename_i literal' happend
      obtain ⟨hlt, huntainted, rfl⟩ := literalAppend_eq_some_iff.mp happend
      refine h.modifyLast_of fun _ _ => deep_leaf ⟨⟨?_, ?_, by simp⟩, ?_⟩ (by simp)
      · simp [Literal.count]
      · rw [Literal.count] at hlt ⊢
        rw [List.length_append]
        exact hlt
      · exact hliteral.self.2.imp (fun htainted => absurd htainted (by simp [huntainted])) id
    · exact hfresh
  · exact hfresh

/-- **A modifier finds one codepoint**, and taints it. -/
theorem singleItemTaint_packed (h : last.Deep Item.Packed) :
    ∃ front x, singleItemTaint last = front ++ [x] ∧
      (∀ item ∈ front ++ [x], item.Deep Item.Packed) ∧
        ∀ literal, x.data = .literal literal → literal.tainted = true := by
  rcases last with ⟨set | literal | special | group, rep, maybe⟩
  · exact ⟨[], _, rfl, List.forall_mem_singleton.mpr h, by simp⟩
  · obtain ⟨⟨hpos, hle, hsingle⟩, hmodified⟩ := h.self
    by_cases hlong : literal.count > 1
    · have huntainted : literal.tainted = false := by
        by_contra htainted
        exact absurd (hsingle (by simpa using htainted)) (by omega)
      have hplain := hmodified.resolve_left (by simp [huntainted])
      have hlast : literal.codepoints ≠ [] := List.ne_nil_of_length_pos hpos
      refine ⟨[_], _, if_pos hlong, List.forall_mem_cons.mpr ⟨?_, ?_⟩, ?_⟩
      · refine deep_leaf ⟨⟨?_, ?_, ?_⟩, .inr hplain⟩ (by simp)
        · rw [Literal.count, List.length_dropLast]
          exact Nat.le_sub_of_add_le hlong
        · rw [Literal.count, List.length_dropLast]
          exact (Nat.sub_le _ _).trans hle
        · exact fun htainted => absurd htainted (by simp [huntainted])
      · rw [List.getLast?_eq_some_getLast hlast]
        exact List.forall_mem_singleton.mpr deep_literal
      · rintro literal' ⟨⟩
        rfl
    · refine ⟨[], _, if_neg hlong, List.forall_mem_singleton.mpr ?_, ?_⟩
      · refine deep_leaf ⟨⟨hpos, hle, fun _ => ?_⟩, .inl rfl⟩ (by simp)
        exact Nat.le_antisymm (Nat.not_lt.mp hlong) hpos
      · rintro literal' ⟨⟩
        rfl
  · exact ⟨[], _, rfl, List.forall_mem_singleton.mpr h, by simp⟩
  · exact ⟨[], _, rfl, List.forall_mem_singleton.mpr h, by simp⟩

theorem all_lastSingleItemTaint (h : s.All (Item.Deep Item.Packed))
    (htaint : lastSingleItemTaint s = some s') :
    s'.All (Item.Deep Item.Packed) ∧ s'.LastTainted := by
  obtain ⟨last, hlast, rfl⟩ := Option.map_eq_some_iff.mp htaint
  obtain ⟨front, x, hsingle, hdeep, htainted⟩ :=
    singleItemTaint_packed (h last (List.mem_of_getLast? hlast))
  simp only [hsingle]
  constructor
  · intro item hitem
    rcases List.mem_append.mp hitem with hitem | hitem
    · exact h item (List.dropLast_subset _ hitem)
    · exact hdeep item hitem
  · intro item literal hitem hdata
    rw [← List.append_assoc, List.getLast?_concat] at hitem
    obtain rfl := Option.some.inj hitem
    exact htainted literal hdata

/-- **Writing a modifier** where the last item is tainted. -/
theorem all_modify (h : s.All (Item.Deep Item.Packed)) (htainted : s.LastTainted)
    (hdata : ∀ item, (f item).data = item.data) :
    (s.modifyLast f).All (Item.Deep Item.Packed) ∧ (s.modifyLast f).LastTainted := by
  constructor
  · intro item hitem
    rcases SegmentOf.mem_modifyLast_iff.mp hitem with hitem | ⟨last, hlast, rfl⟩
    · exact h item (List.dropLast_subset _ hitem)
    · have hdeep := h last (List.mem_of_getLast? hlast)
      exact hdeep.modify (fun literal => htainted last literal hlast) (hdata last)
  · intro item literal hitem hliteral
    rw [SegmentOf.getLast?_modifyLast] at hitem
    obtain ⟨last, hlast, rfl⟩ := Option.map_eq_some_iff.mp hitem
    exact htainted last literal hlast ((hdata last).symm.trans hliteral)

theorem deep_modifySet (f : PatternSet → PatternSet) (h : item.Deep Item.Packed) :
    (item.modifySet f).Deep Item.Packed := by
  rcases item with ⟨_ | _ | _ | _, rep, maybe⟩
  · exact deep_leaf trivial (by simp [Item.modifySet])
  all_goals exact h

theorem deep_modifySpecial (f : Special → Special) (h : item.Deep Item.Packed) :
    (item.modifySpecial f).Deep Item.Packed := by
  rcases item with ⟨_ | _ | _ | _, rep, maybe⟩
  · exact h
  · exact h
  · exact deep_leaf trivial (by simp [Item.modifySpecial])
  · exact h

end Items

/-! ## States -/

section States

variable {state state' : List ParserState} {t : ℕ}

theorem all_push_group {last : Segment} {group : Group} (h : last.All (Item.Deep Item.Packed))
    (hsegments : ∀ s ∈ group.segments, s.All (Item.Deep Item.Packed)) :
    (last.push (.init (.group group))).All (Item.Deep Item.Packed) :=
  h.push (deep_group trivial rfl (everywhere_of_segments hsegments))

theorem allItems_modify {g : Group} {s : Segment} {rest : List ParserState} {f : Item → Item}
    (h : AllItems (Item.Deep Item.Packed) (.group g s :: rest)) (htainted : s.LastTainted)
    (hdata : ∀ item, (f item).data = item.data) :
    AllItems (Item.Deep Item.Packed) (.group g (s.modifyLast f) :: rest) ∧
      (s.modifyLast f).LastTainted :=
  ⟨h.last fun hs => (all_modify hs htainted hdata).1,
    (all_modify (allItems_cons_iff.mp h).1.2 htainted hdata).2⟩

theorem allItems_taint {g : Group} {s s' : Segment} {rest : List ParserState} {f : Item → Item}
    (h : AllItems (Item.Deep Item.Packed) (.group g s :: rest))
    (htaint : lastSingleItemTaint s = some s') (hdata : ∀ item, (f item).data = item.data) :
    AllItems (Item.Deep Item.Packed) (.group g (s'.modifyLast f) :: rest) ∧
      (s'.modifyLast f).LastTainted :=
  allItems_modify (h.last fun hs => (all_lastSingleItemTaint hs htaint).1)
    (all_lastSingleItemTaint (allItems_cons_iff.mp h).1.2 htaint).2 hdata

/-- **A step** keeps the literals packed. -/
theorem PackedState.step (hstep : Step t state state') (h : PackedState state) :
    PackedState state' := by
  obtain ⟨h, hrepeats⟩ := h
  have hon : ∀ {top : ParserState} {state}, (∀ P, top.Items P) →
      AllItems (Item.Deep Item.Packed) state → AllItems (Item.Deep Item.Packed) (top :: state) :=
    fun htop h => allItems_cons_iff.mpr ⟨htop _, h⟩
  cases hstep with
  | text c => exact ⟨h.clean.last fun hs => all_appendChar hs c, trivial⟩
  | special kind =>
    refine ⟨hon (fun _ => trivial) (h.clean.last fun hs => hs.push ?_), trivial⟩
    exact deep_init (by simp) (by simp)
  | bar =>
    refine ⟨h.clean.next fun s' hs' => ?_, trivial⟩
    rcases List.mem_append.mp hs' with hs' | hs'
    · exact .inl hs'
    · exact .inr (List.mem_singleton.mp hs')
  | recycle => exact ⟨h.clean.next fun s' hs' => .inl hs', trivial⟩
  | close =>
    obtain ⟨⟨hgroup, hlast⟩, hbelow⟩ := allItems_cons_iff.mp h.clean
    refine ⟨AllItems.last hbelow fun hs => all_push_group hs ?_, trivial⟩
    rw [segments_groupFinish]
    exact forall_keptSegments hgroup hlast
  | openGroup => exact ⟨h.clean.openGroup, trivial⟩
  | openSet =>
    refine ⟨hon (fun _ => trivial) (h.clean.last fun hs => hs.push ?_), trivial⟩
    exact deep_init (by simp) (by simp)
  | openRepeat ht hs =>
    obtain ⟨hitems, htainted⟩ := allItems_taint h.clean hs data_resetRepeat
    exact ⟨hon (fun _ => trivial) hitems, htainted⟩
  | openMultiplier => exact ⟨hon (fun _ => trivial) h.clean.weighted, trivial⟩
  | maybe ht hs => exact ⟨(allItems_taint h.clean hs data_setMaybe).1, trivial⟩
  | multiplierEnd => exact ⟨h.below.weighted, trivial⟩
  | multiplierDigit => exact ⟨hon (fun _ => trivial) h.below.weighted, trivial⟩
  | setEnd => exact ⟨h.write fun _ => deep_modifySet _, trivial⟩
  | setRange => exact ⟨hon (fun _ => trivial) h.below, trivial⟩
  | setEscaped | setPush | setExtend =>
    exact ⟨hon (fun _ => trivial) (h.write fun _ => deep_modifySet _), trivial⟩
  | repeatEnd => exact ⟨(allItems_modify h.below hrepeats (data_modifyRepeat _)).1, trivial⟩
  | repeatComma | repeatDigit | repeatRangeDigit =>
    exact ⟨hon (fun _ => trivial) (allItems_modify h.below hrepeats (data_modifyRepeat _)).1,
      (allItems_modify h.below hrepeats (data_modifyRepeat _)).2⟩
  | repeatRangeEnd | nameEnd => exact ⟨h.below, trivial⟩
  | nameOpen => exact ⟨hon (fun _ => trivial) h.below, trivial⟩
  | namePush => exact ⟨hon (fun _ => trivial) (h.write fun _ => deep_modifySpecial _), trivial⟩

/-- **Every state of a run** is packed. -/
theorem packedState_run {tokens : List ℕ}
    (hrun : parseStates tokens parserInit.state = some state) : PackedState state :=
  parseStates_invariant (fun _ _ _ h ht => h.step (step_of_parseState ht))
    ⟨allItems_parserInit, trivial⟩ hrun

end States

/-! ## Tainted literals stay -/

section Stays

variable {s s' : Segment} {last : Item} {state state' : List ParserState} {t : ℕ}

theorem stays_appendChar (s : Segment) (codepoint : ℕ) :
    s.Stays (appendChar s codepoint) ∧ s.Fresh (appendChar s codepoint) := by
  have hfresh : s.Fresh (s.push (.init (.literal ⟨[codepoint], false⟩))) :=
    SegmentOf.fresh_push fun group hgroup => absurd hgroup (by simp [Item.init])
  rw [appendChar]
  split
  · rename_i literal rep maybe hlast
    split
    · rename_i literal' happend
      refine ⟨SegmentOf.stays_modifyLast fun item hitem => ?_, SegmentOf.fresh_modifyLast⟩
      obtain rfl := Option.some.inj (hitem.symm.trans hlast)
      have huntainted := (literalAppend_eq_some_iff.mp happend).2.1
      refine ⟨fun l hl htainted => ?_, fun group _ hgroup => absurd hgroup (by simp)⟩
      obtain rfl := ItemData.literal.inj hl
      exact absurd htainted (by simp [huntainted])
    · exact ⟨SegmentOf.stays_push _, hfresh⟩
  · exact ⟨SegmentOf.stays_push _, hfresh⟩

theorem stays_modifySet (f : PatternSet → PatternSet) (item : Item) :
    item.Stays (item.modifySet f) := by
  rcases item with ⟨_ | _ | _ | _, rep, maybe⟩
  · exact ⟨by simp, by simp⟩
  all_goals exact .of_data rfl

theorem stays_modifySpecial (f : Special → Special) (item : Item) :
    item.Stays (item.modifySpecial f) := by
  rcases item with ⟨_ | _ | _ | _, rep, maybe⟩
  · exact .of_data rfl
  · exact .of_data rfl
  · exact ⟨by simp, by simp⟩
  · exact .of_data rfl

/-- What is left of an item that is split is no tainted literal. -/
theorem stays_singleItemTaint (h : last.Deep Item.Packed) :
    ∃ y ys, singleItemTaint last = y :: ys ∧ last.Stays y ∧
      ∀ z ∈ ys, ∀ group, z.data ≠ .group group := by
  rcases last with ⟨set | literal | special | group, rep, maybe⟩
  · exact ⟨_, [], rfl, .of_data rfl, by simp⟩
  · by_cases hlong : literal.count > 1
    · refine ⟨_, _, if_pos hlong, ⟨fun l hl htainted => ?_, by simp⟩, by simp [Item.init]⟩
      obtain rfl := ItemData.literal.inj hl
      exact absurd (h.self.1.single htainted) (by omega)
    · refine ⟨_, [], if_neg hlong, ⟨fun l hl htainted => ?_, by simp⟩, by simp⟩
      obtain rfl := ItemData.literal.inj hl
      rw [Item.data_mk, literalTaint, ← htainted]
  · exact ⟨_, [], rfl, .of_data rfl, by simp⟩
  · exact ⟨_, [], rfl, .of_data rfl, by simp⟩

theorem stays_lastSingleItemTaint (h : s.All (Item.Deep Item.Packed))
    (htaint : lastSingleItemTaint s = some s') : s.Stays s' ∧ s.Fresh s' := by
  obtain ⟨last, hlast, rfl⟩ := Option.map_eq_some_iff.mp htaint
  obtain ⟨y, ys, hsplit, hstays, hgroups⟩ :=
    stays_singleItemTaint (h last (List.mem_of_getLast? hlast))
  obtain ⟨init, hinit⟩ := List.getLast?_eq_some_iff.mp hlast
  simp only [hsplit, SegmentOf.Stays, SegmentOf.Fresh, hinit, List.dropLast_concat]
  constructor
  · intro i item item' hitem hitem'
    rw [List.getElem?_append] at hitem hitem'
    split at hitem
    · rename_i hlt
      rw [if_pos hlt] at hitem'
      obtain rfl := Option.some.inj (hitem.symm.trans hitem')
      exact .of_data rfl
    · rename_i hlt
      rw [if_neg hlt] at hitem'
      obtain ⟨hindex, rfl⟩ : i - init.length = 0 ∧ last = item := by
        simpa [List.getElem?_singleton] using hitem
      rw [hindex] at hitem'
      obtain rfl := Option.some.inj hitem'
      exact hstays
  · intro item hitem group hgroup
    rw [List.length_append, List.getElem?_append_right (Nat.le_add_right _ _),
      Nat.add_sub_cancel_left] at hitem
    exact absurd hgroup (hgroups item (List.mem_of_getElem? hitem) group)

/-- Closing a group may drop its last segment. -/
theorem stays_groupFinish (g : Group) (s : Segment) :
    GroupOf.Stays ⟨g.segments ++ [s], g.multiplierSum⟩
      (groupFinish { g with segments := keptSegments g (segmentClean s) }) := by
  obtain ⟨sum, hfinish⟩ : ∃ sum, groupFinish { g with
      segments := keptSegments g (segmentClean s) } = ⟨keptSegments g (segmentClean s), sum⟩ := by
    rw [groupFinish]
    split <;> exact ⟨_, rfl⟩
  rw [hfinish, keptSegments]
  split
  · have hnil : g.segments = g.segments ++ [] := (List.append_nil _).symm
    rw [hnil, List.append_assoc]
    exact .concat fun s' hs' => absurd hs' (by simp)
  · refine .concat fun s' hs' => ?_
    obtain rfl := Option.some.inj hs'
    exact SegmentOf.stays_clean s

/-- **A step leaves tainted literals as they are**, wherever an item is left. -/
theorem stays_step (hstep : Step t state state') (h : PackedState state) :
    (tree state).Stays (tree state') := by
  have hwrite : ∀ {g s rest} {f : Item → Item}, (∀ item, Item.Stays item (f item)) →
      (tree (.group g s :: rest)).Stays (tree (.group g (s.modifyLast f) :: rest)) :=
    fun hf => SegmentOf.Stays.tree (SegmentOf.stays_modifyLast fun item _ => hf item)
  have hleaf : ∀ {data}, (∀ group, data ≠ .group group) → ∀ s : Segment,
      s.Stays ((segmentClean s).push (.init data)) := fun hdata s =>
    .of_clean (SegmentOf.stays_push _)
      (SegmentOf.fresh_push fun group hgroup => absurd hgroup (hdata group))
  have htaint : ∀ {g s s' rest} {f : Item → Item}, AllItems (Item.Deep Item.Packed)
      (.group g s :: rest) → lastSingleItemTaint (segmentClean s) = some s' →
        (∀ item, (f item).data = item.data) → s.Stays (s'.modifyLast f) := by
    intro g s s' rest f h hs hf
    obtain ⟨hstays, hfresh⟩ := stays_lastSingleItemTaint (allItems_cons_iff.mp h).1.2.clean hs
    exact .of_clean (hstays.modifyLast hf) (hfresh.modifyLast hf)
  cases hstep with
  | @text g s rest c ht =>
    obtain ⟨hstays, hfresh⟩ := stays_appendChar (segmentClean s) c
    exact SegmentOf.Stays.tree (.of_clean hstays hfresh)
  | special kind => exact SegmentOf.Stays.tree (hleaf (by simp) _)
  | openSet => exact SegmentOf.Stays.tree (hleaf (by simp) _)
  | @bar g s rest ht hs =>
    refine GroupOf.Stays.enclose ?_ rest
    rw [List.append_assoc]
    refine .concat fun s' hs' => ?_
    obtain rfl := Option.some.inj hs'
    exact SegmentOf.stays_clean s
  | recycle => exact SegmentOf.Stays.tree (.of_nil rfl)
  | @close g s parent last rest ht =>
    exact SegmentOf.Stays.tree (SegmentOf.stays_push_group (stays_groupFinish g s))
  | openGroup =>
    refine SegmentOf.Stays.tree (.of_clean (SegmentOf.stays_push _) (SegmentOf.fresh_push ?_))
    rintro group ⟨⟩ p
    rw [GroupOf.item, Option.bind_eq_none_iff]
    intro s hs
    obtain rfl : s = segmentInit := List.mem_singleton.mp (List.mem_of_getElem? hs)
    rfl
  | openRepeat ht hs => exact SegmentOf.Stays.tree (htaint h.items hs data_resetRepeat)
  | maybe ht hs => exact SegmentOf.Stays.tree (htaint h.items hs data_setMaybe)
  | openMultiplier => exact SegmentOf.Stays.tree (SegmentOf.stays_clean _)
  | multiplierEnd => exact SegmentOf.Stays.tree (.refl _)
  | multiplierDigit => exact SegmentOf.Stays.tree (.refl _)
  | setEnd | setEscaped | setPush | setExtend => exact hwrite (stays_modifySet _)
  | repeatEnd | repeatComma | repeatDigit | repeatRangeDigit =>
    exact hwrite fun item => .of_data rfl
  | setRange | repeatRangeEnd | nameOpen | nameEnd => exact .refl _
  | namePush => exact hwrite (stays_modifySpecial _)

end Stays

/-! ## Main theorem -/

/-- **Literals are packed** in the tree of a state, and in the step after it; and the tree says what
was read, in order: the codepoints of consecutive literals are one text. -/
structure LiteralPacking (tokens : List ℕ) (state : List ParserState) : Prop where
  count : ∀ path item literal, (tree state).itemAt path = some item →
    item.data = .literal literal → 1 ≤ literal.count ∧ literal.count ≤ 7
  modified : ∀ path item literal, (tree state).itemAt path = some item →
    item.data = .literal literal → item.rep ≠ ⟨1, 1⟩ ∨ item.maybe = true →
      literal.count = 1 ∧ literal.tainted = true
  tainted : ∀ t state', parseState t state = some state' → (tree state).Stays (tree state')
  text : (tree state).segments.map SegmentOf.marks =
    said (readTokens tokens parserInit.state [⟨[], []⟩])

/-- **Every accepted sequence of tokens** leaves its literals packed. -/
theorem literal_packing {tokens : List ℕ} {state : List ParserState}
    (hrun : parseStates tokens parserInit.state = some state) : LiteralPacking tokens state := by
  have hpacked := packedState_run hrun
  have heverywhere := everywhere_tree (P := Item.Packed) (fun _ => trivial) hpacked.items
  refine ⟨fun path item literal hitem hdata => ?_,
    fun path item literal hitem hdata hmodified => ?_,
    fun t state' ht => stays_step (step_of_parseState ht) hpacked, ?_⟩
  · rcases item with ⟨data, rep, maybe⟩
    obtain rfl : data = .literal literal := hdata
    obtain ⟨⟨hpos, hle, -⟩, -⟩ := heverywhere path _ hitem
    exact ⟨hpos, hle⟩
  · rcases item with ⟨data, rep, maybe⟩
    obtain rfl : data = .literal literal := hdata
    obtain ⟨hliteral, htainted⟩ := heverywhere path _ hitem
    have htainted := htainted.resolve_right fun ⟨hrep, hmaybe⟩ => hmodified.elim
      (fun h => h hrep) fun h => absurd (hmaybe.symm.trans h) (by decide)
    exact ⟨hliteral.single htainted, htainted⟩
  · rw [marks_tree, frames_run hrun]
    rfl

/-- `abc{2}?d`: the modifiers take `c` out, and `d` does not join it. -/
theorem literal_packing_split :
    LiteralPacking [97, 98, 99, '{'.toNat, '2'.toNat, '}'.toNat, '?'.toNat, 100]
      [.group ⟨[], 1⟩ ⟨[.init (.literal ⟨[97, 98], false⟩),
        .mk (.literal ⟨[99], true⟩) ⟨2, 2⟩ true, .init (.literal ⟨[100], false⟩)], 1⟩] :=
  literal_packing rfl

end Passgen
