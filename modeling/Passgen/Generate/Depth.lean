import Mathlib.Data.List.Basic
import Mathlib.Tactic.Common
import Passgen.Effect.Triple
import Passgen.Generate.Generate
import Passgen.Generate.Sink
import Passgen.Generate.Walk

/-!
# Generate/Depth — the depth limit counts nesting

    level       0 ─────▸ 1 ─────▸ 2 ─────▸ 1        the root is entered at level 1
    depth   limit  limit - 1  limit - 2  limit - 1

`generateLeveled` is the generator with a ghost: next to the data of the callback it logs the level
of every group it enters, and it is the generator once that is forgotten.  On all of its runs the
depth counter and the level add up to the limit, so a run fails on a level above it and on nothing
else.
-/

namespace Passgen

variable {σ δ : Type} (host : Host σ δ)

/-! ## The generator with levels -/

/-- The callback, on data with a log of levels. -/
def Host.leveled : Host σ (δ × List ℕ) :=
  ⟨host.source, fun data codepoint =>
    ((host.func data.1 codepoint).1, (host.func data.1 codepoint).2, data.2)⟩

/-- The state without the log of levels. -/
def GenState.plain (s : GenState σ (δ × List ℕ)) : GenState σ δ :=
  ⟨s.random, s.data.1, s.depth, s.entropy, s.wordlists, s.emitted, s.draws⟩

/-- The state with an empty log of levels. -/
def GenState.unentered (s : GenState σ δ) : GenState σ (δ × List ℕ) :=
  ⟨s.random, (s.data, []), s.depth, s.entropy, s.wordlists, s.emitted, s.draws⟩

/-- A group is entered at a level. -/
def enter (level : ℕ) : Gen σ (δ × List ℕ) Unit :=
  modify fun s => { s with data := (s.data.1, s.data.2 ++ [level]) }

/-- A copy of an item in a group at `level`: a group is entered one level further down. -/
def generateLeveledData (level : ℕ) :
    ItemData (ℕ → Gen σ (δ × List ℕ) Unit) → Gen σ (δ × List ℕ) Unit
  | .set set => generateSet host.leveled set
  | .literal literal => generateLiteral host.leveled literal
  | .special special => generateSpecial host.leveled special
  | .group group => do
    enter (level + 1)
    generateGroup host.leveled (group.map fun x => x (level + 1))

/-- An item in a group at `level`. -/
def generateLeveledItem (data : ItemData (ℕ → Gen σ (δ × List ℕ) Unit)) (rep : Repeat)
    (maybe : Bool) (level : ℕ) : Gen σ (δ × List ℕ) Unit := do
  let emits ← decideMaybe host.leveled maybe
  if emits then do
    let reps ← generateRepeat host.leveled rep
    Effect.times reps (generateLeveledData host level data)
  else pure ()

/-- What an item of a group at some level does. -/
def Item.generateLeveled (item : Item) : ℕ → Gen σ (δ × List ℕ) Unit :=
  item.fold (generateLeveledItem host)

/-- A group entered at `level`. -/
def generateLeveledGroup (level : ℕ) (group : Group) : Gen σ (δ × List ℕ) Unit := do
  enter level
  generateGroup host.leveled (group.map fun item => item.generateLeveled host level)

/-- **The levels of the groups a run enters**: the root is level one. -/
def levelsEntered (pattern : Group) (s : GenState σ δ) : List ℕ :=
  (Effect.final (generateLeveledGroup host 1 pattern) s.unentered).data.2

/-! ## Patterns -/

/-- The data is no special, and a set has a running total for each of its ranges. -/
def ItemData.Plain {ι : Type} : ItemData ι → Prop
  | .special _ => False
  | .set s => s.items.length ≤ s.choicesList.length
  | _ => True

/-- The sum of the multipliers is that of the segments and not zero, and the items are plain. -/
structure Group.Plain (group : Group) : Prop where
  sum_eq : group.multiplierSum = totalMultiplier group.segments
  sum_pos : 0 < group.multiplierSum
  data : ∀ segment ∈ group.segments, ∀ item ∈ segment.items, item.data.Plain

/-- An item of a pattern of plain groups. -/
structure Item.Plain (item : Item) : Prop where
  data : item.data.Plain
  groups : item.Groups Group.Plain

/-- The items of a pattern of plain groups. -/
theorem Group.plain_item {pattern : Group} (h : ∀ g, pattern.Contains g → Group.Plain g)
    {segment : Segment} (hs : segment ∈ pattern.segments) {item : Item}
    (hi : item ∈ segment.items) : item.Plain :=
  ⟨(h pattern (.root _)).data segment hs item hi,
    (Group.forall_contains_iff.mp h).2 segment hs item hi⟩

section Plain

variable {host}

theorem Item.generateLeveled_mk {data : ItemData Item} {rep : Repeat} {maybe : Bool} :
    (Item.mk data rep maybe).generateLeveled host =
      generateLeveledItem host (data.map fun item => item.generateLeveled host) rep maybe :=
  Item.fold_mk _ data rep maybe

theorem generateLeveledData_group {level : ℕ} {group : Group} :
    generateLeveledData host level (.group (group.map fun item => item.generateLeveled host)) =
      generateLeveledGroup host (level + 1) group := by
  rw [generateLeveledData, generateLeveledGroup, GroupOf.map_map]
  rfl

/-! ## Forgetting the levels -/

theorem erases_emit (codepoint : ℕ) :
    Effect.Erases GenState.plain (emit host.leveled codepoint) (emit host codepoint) where
  returns hx := by
    obtain ⟨hcode, rfl⟩ := returns_emit_iff.mp hx
    exact returns_emit_iff.mpr ⟨hcode, rfl⟩
  stops hx := by
    obtain ⟨hcode, rfl, rfl⟩ := stops_emit_iff.mp hx
    exact stops_emit_iff.mpr ⟨hcode, rfl, rfl⟩

theorem erases_drawBelow (site : Site) (bound : ℕ) :
    Effect.Erases GenState.plain (drawBelow host.leveled site bound)
      (drawBelow host site bound) where
  returns hx := by
    obtain ⟨random, hdraw, rfl⟩ := returns_drawBelow_iff.mp hx
    exact returns_drawBelow_iff.mpr ⟨random, hdraw, rfl⟩
  stops hx := by
    obtain ⟨hdraw, rfl, rfl⟩ := stops_drawBelow_iff.mp hx
    exact stops_drawBelow_iff.mpr ⟨hdraw, rfl, rfl⟩

theorem not_stops_drawMaybe {s t : GenState σ δ} {e : Stop} :
    ¬Effect.Stops (drawMaybe host) s e t := by
  intro h
  rw [Effect.Stops, EStateM.run, drawMaybe] at h
  exact absurd h (by simp)

theorem erases_decideMaybe (maybe : Bool) :
    Effect.Erases GenState.plain (decideMaybe host.leveled maybe) (decideMaybe host maybe) := by
  rw [decideMaybe, decideMaybe]
  split
  · refine ⟨fun hx => ?_, fun hx => absurd hx not_stops_drawMaybe⟩
    obtain ⟨rfl, rfl⟩ := returns_drawMaybe_iff.mp hx
    exact returns_drawMaybe_iff.mpr ⟨rfl, rfl⟩
  · exact Effect.erases_pure _

theorem stops_descend_iff {s t : GenState σ δ} {e : Stop} :
    Effect.Stops descend s e t ↔ s.depth = 0 ∧ e = .returned 1 ∧ t = s := by
  rw [Effect.Stops, EStateM.run, descend]
  by_cases hdepth : s.depth = 0
  · simp [hdepth, eq_comm]
  · simp [hdepth]

theorem erases_descend :
    Effect.Erases GenState.plain (descend : Gen σ (δ × List ℕ) Unit) descend where
  returns hx := by
    obtain ⟨hdepth, rfl⟩ := returns_descend_iff.mp hx
    exact returns_descend_iff.mpr ⟨hdepth, rfl⟩
  stops hx := by
    obtain ⟨hdepth, rfl, rfl⟩ := stops_descend_iff.mp hx
    exact stops_descend_iff.mpr ⟨hdepth, rfl, rfl⟩

/-- A step that scales the entropy. -/
theorem erases_scale (f : ℚ → ℚ) :
    Effect.Erases GenState.plain
      (modify fun s => { s with entropy := s.entropy.map f } : Gen σ (δ × List ℕ) Unit)
      (modify fun s => { s with entropy := s.entropy.map f }) :=
  Effect.erases_modify fun _ => rfl

theorem erases_generateRepeat (rep : Repeat) :
    Effect.Erases GenState.plain (generateRepeat host.leveled rep) (generateRepeat host rep) := by
  rw [generateRepeat, generateRepeat]
  split
  · exact Effect.erases_pure _
  · exact (erases_drawBelow _ _).bind fun choice =>
      (erases_scale _).bind fun _ => Effect.erases_pure _

theorem erases_generateSet (set : PatternSet) :
    Effect.Erases GenState.plain (generateSet host.leveled set) (generateSet host set) := by
  rw [generateSet, generateSet]
  split
  · exact Effect.erases_pure _
  split
  · exact Effect.erases_throw _
  refine (erases_drawBelow _ _).bind fun choice => (erases_scale _).bind fun _ => ?_
  split
  · exact Effect.erases_throw _
  · exact erases_emit _

/-- A group, given its items. -/
theorem erases_generateGroup {group : Group} {f : Item → Gen σ (δ × List ℕ) Unit}
    (hitems : ∀ segment ∈ group.segments, ∀ item ∈ segment.items,
      Effect.Erases GenState.plain (f item) (item.generate host)) :
    Effect.Erases GenState.plain (generateGroup host.leveled (group.map f))
      (generate host group) := by
  rw [generate, generateGroup, generateGroup, GroupOf.multipliers_map,
    GroupOf.multipliers_map, GroupOf.multiplierSum_map, GroupOf.multiplierSum_map,
    GroupOf.segments_map, GroupOf.segments_map]
  refine erases_descend.bind fun _ => ?_
  split
  · exact Effect.erases_throw _
  refine (erases_drawBelow _ _).bind fun choice => ?_
  rw [chooseSegment_map, chooseSegment_map]
  cases hchoose : chooseSegment group.segments choice with
  | none => exact Effect.erases_throw _
  | some p =>
    have hsegment := List.mem_of_getElem? (chooseSegment_eq_some_iff.mp hchoose).1
    refine (erases_scale _).bind fun _ => (erases_scale _).bind fun _ => ?_
    have hitems := Effect.erases_inOrder (hitems p.2 hsegment)
    exact hitems.bind fun _ => Effect.erases_modify fun _ => rfl

theorem erases_item (item : Item) (hitem : item.Plain) (level : ℕ) :
    Effect.Erases GenState.plain (item.generateLeveled host level) (item.generate host) := by
  induction item using Item.induct generalizing level with
  | mk data rep maybe ih =>
    have hcopy : Effect.Erases GenState.plain
        (generateLeveledData host level (data.map fun item => item.generateLeveled host))
        (generateData host (data.map (Item.generate host))) := by
      cases data with
      | set set => exact erases_generateSet set
      | literal literal => exact Effect.erases_inOrder fun c _ => erases_emit c
      | special special => exact absurd hitem.data not_false
      | group group =>
        have hgroups := Item.groups_group_iff.mp hitem.groups
        refine generateLeveledData_group ▸ Effect.Erases.ghost (erases_generateGroup
          fun segment hs item hi => ih segment hs item hi ?_ (level + 1)) fun _ => rfl
        exact Group.plain_item hgroups hs hi
    rw [Item.generateLeveled_mk, Item.generate_mk, generateLeveledItem, generateItem]
    refine (erases_decideMaybe maybe).bind fun emits => ?_
    split
    · exact (erases_generateRepeat rep).bind fun reps => hcopy.times reps
    · exact Effect.erases_pure _

/-- **With the levels forgotten, it is the generator.** -/
theorem erases_generateLeveledGroup {pattern : Group}
    (h : ∀ g, pattern.Contains g → Group.Plain g) (level : ℕ) :
    Effect.Erases GenState.plain (generateLeveledGroup host level pattern)
      (generate host pattern) :=
  Effect.Erases.ghost (erases_generateGroup fun _ hs item hi =>
    erases_item item (Group.plain_item h hs hi) level) fun _ => rfl

end Plain

/-! ## Depth and level -/

/-- The run is in a group at `level`, and entered no level above the limit so far. -/
structure AtLevel (limit level : ℕ) (s : GenState σ (δ × List ℕ)) : Prop where
  depth : s.depth + level = limit
  entered : ∀ l ∈ s.data.2, l ≤ limit

/-- The run has entered a group in one at `level`, and entered no level above the limit before. -/
structure AtDoor (limit level : ℕ) (s : GenState σ (δ × List ℕ)) : Prop where
  depth : s.depth + level = limit
  entered : ∃ log, s.data.2 = log ++ [level + 1] ∧ ∀ l ∈ log, l ≤ limit

/-- Why a run stops: a draw is not answered, or a level above the limit is entered. -/
def TooDeep (limit : ℕ) (e : Stop) (s : GenState σ (δ × List ℕ)) : Prop :=
  e = .looping ∨ e = .returned 1 ∧ ∃ l ∈ s.data.2, limit < l

/-- The computation stays in a group at `level`. -/
def Stays (limit level : ℕ) (x : Gen σ (δ × List ℕ) Unit) : Prop :=
  Effect.Triple (AtLevel limit level) x (fun _ => AtLevel limit level) (TooDeep limit)

section Depth

variable {host} {limit level : ℕ}

theorem stays_emit (hfunc : ∀ d c, (host.func d c).1 = 0) (codepoint : ℕ) :
    Stays limit level (emit host.leveled codepoint) where
  returns hs hx := by
    obtain ⟨-, rfl⟩ := returns_emit_iff.mp hx
    exact ⟨hs.depth, hs.entered⟩
  stops _ hx := by
    obtain ⟨hcode, -, -⟩ := stops_emit_iff.mp hx
    exact absurd (hfunc _ _) hcode

theorem stays_scale (f : ℚ → ℚ) :
    Stays limit level
      (modify fun s => { s with entropy := s.entropy.map f } : Gen σ (δ × List ℕ) Unit) :=
  Effect.triple_modify fun hs => ⟨hs.depth, hs.entered⟩

theorem triple_drawBelow (site : Site) (bound : ℕ) :
    Effect.Triple (AtLevel limit level) (drawBelow host.leveled site bound)
      (fun choice s => AtLevel limit level s ∧ choice < bound) (TooDeep limit) where
  returns hs hx := by
    obtain ⟨random, hdraw, rfl⟩ := returns_drawBelow_iff.mp hx
    exact ⟨⟨hs.depth, hs.entered⟩, host.leveled.source.u64Max_lt hdraw⟩
  stops _ hx := .inl (stops_drawBelow_iff.mp hx).2.1

theorem triple_decideMaybe (maybe : Bool) :
    Effect.Triple (AtLevel limit level) (decideMaybe host.leveled maybe)
      (fun _ => AtLevel limit level) (TooDeep limit) := by
  rw [decideMaybe]
  split
  · refine ⟨fun hs hx => ?_, fun _ hx => absurd hx not_stops_drawMaybe⟩
    obtain ⟨-, rfl⟩ := returns_drawMaybe_iff.mp hx
    exact ⟨hs.depth, hs.entered⟩
  · exact Effect.triple_pure id

theorem triple_generateRepeat (rep : Repeat) :
    Effect.Triple (AtLevel limit level) (generateRepeat host.leveled rep)
      (fun _ => AtLevel limit level) (TooDeep limit) := by
  rw [generateRepeat]
  split
  · exact Effect.triple_pure id
  · refine (triple_drawBelow _ _).bind fun choice => Effect.triple_and fun _ => ?_
    exact (stays_scale _).bind fun _ => Effect.triple_pure id

/-- A set with enough running totals: the draw is below the last one, so a range is found. -/
theorem exists_setCodepoint {set : PatternSet} (hset : set.items.length ≤ set.choicesList.length)
    {possible choice : ℕ} (hpossible : set.choicesList[set.items.length - 1]? = some possible)
    (hne : set.items.length ≠ 0) (hlt : choice < possible) :
    ∃ codepoint, setCodepoint set choice = some codepoint := by
  have hfind : (set.choicesList.take set.items.length).findIdx (fun total => choice < total) <
      set.items.length := by
    have hlen : (set.choicesList.take set.items.length).length = set.items.length := by
      rw [List.length_take, min_eq_left hset]
    refine lt_of_lt_of_eq (List.findIdx_lt_length_of_exists ⟨possible, ?_, by simpa using hlt⟩) hlen
    refine List.mem_of_getElem? (i := set.items.length - 1) ?_
    rw [List.getElem?_take_of_lt (by omega), hpossible]
  exact ⟨_, by rw [setCodepoint, List.getElem?_eq_getElem hfind]; rfl⟩

theorem stays_generateSet (hfunc : ∀ d c, (host.func d c).1 = 0) {set : PatternSet}
    (hset : set.items.length ≤ set.choicesList.length) :
    Stays limit level (generateSet host.leveled set) := by
  rw [generateSet]
  split
  · exact Effect.triple_pure id
  rename_i hne
  cases hpossible : set.choicesList[set.items.length - 1]? with
  | none =>
    rw [List.getElem?_eq_none_iff] at hpossible
    omega
  | some possible =>
    refine (triple_drawBelow _ _).bind fun choice => Effect.triple_and fun hlt => ?_
    refine (stays_scale _).bind fun _ => ?_
    obtain ⟨codepoint, hcodepoint⟩ := exists_setCodepoint hset hpossible hne hlt
    rw [hcodepoint]
    exact stays_emit hfunc codepoint

theorem triple_enter :
    Effect.Triple (AtLevel limit level) (enter (level + 1) : Gen σ (δ × List ℕ) Unit)
      (fun _ => AtDoor limit level) (TooDeep limit) :=
  Effect.triple_modify fun hs => ⟨hs.depth, _, rfl, hs.entered⟩

/-- At the limit there is no depth left. -/
theorem triple_descend :
    Effect.Triple (AtDoor limit level) (descend : Gen σ (δ × List ℕ) Unit)
      (fun _ => AtLevel limit (level + 1)) (TooDeep limit) := by
  refine ⟨?_, ?_⟩
  · rintro s _ t ⟨hdepth, log, hlog, hle⟩ hx
    obtain ⟨hne, rfl⟩ := returns_descend_iff.mp hx
    refine ⟨by simp only; omega, fun l hl => ?_⟩
    rcases List.mem_append.mp (hlog ▸ hl) with hl | hl
    · exact hle l hl
    · obtain rfl := List.mem_singleton.mp hl
      omega
  · rintro s e t ⟨hdepth, log, hlog, -⟩ hx
    obtain ⟨hzero, rfl, rfl⟩ := stops_descend_iff.mp hx
    have hlevel : level + 1 ∈ t.data.2 :=
      hlog ▸ List.mem_append_right _ (List.mem_singleton_self _)
    exact .inr ⟨rfl, level + 1, hlevel, by omega⟩

/-- **Entering and leaving a group**: one of depth for the level, and both back. -/
theorem stays_group {group : GroupOf (Gen σ (δ × List ℕ) Unit)}
    (hsum : group.multiplierSum = totalMultiplier group.segments) (hpos : 0 < group.multiplierSum)
    (hitems : ∀ segment ∈ group.segments, ∀ x ∈ segment.items, Stays limit (level + 1) x) :
    Stays limit level (enter (level + 1) >>= fun _ => generateGroup host.leveled group) := by
  refine triple_enter.bind fun _ => ?_
  rw [generateGroup]
  refine triple_descend.bind fun _ => ?_
  rw [if_neg (Nat.pos_iff_ne_zero.mp hpos)]
  refine (triple_drawBelow _ _).bind fun choice => Effect.triple_and fun hlt => ?_
  obtain ⟨i, segment, hchoose⟩ := exists_chooseSegment_iff.mpr (hsum ▸ hlt)
  rw [hchoose]
  have hsegment := List.mem_of_getElem? (chooseSegment_eq_some_iff.mp hchoose).1
  refine (stays_scale _).bind fun _ => (stays_scale _).bind fun _ => ?_
  have hitems := Effect.triple_inOrder (hitems segment hsegment)
  refine hitems.bind fun _ => Effect.triple_modify fun hs => ⟨?_, hs.entered⟩
  have := hs.depth
  simp only
  omega

/-- A group of a pattern, given its items. -/
theorem stays_generateLeveledGroup {group : Group} (hgroup : group.Plain)
    (hitems : ∀ segment ∈ group.segments, ∀ item ∈ segment.items,
      Stays limit (level + 1) (item.generateLeveled host (level + 1))) :
    Stays limit level (generateLeveledGroup host (level + 1) group) := by
  refine stays_group (hgroup.sum_eq.trans (totalMultiplier_map _ _).symm) hgroup.sum_pos ?_
  intro segment hs x hx
  obtain ⟨segment, hsegment, rfl⟩ := List.mem_map.mp hs
  obtain ⟨item, hitem, rfl⟩ := List.mem_map.mp hx
  exact hitems segment hsegment item hitem

/-- **Every item stays at its level.** -/
theorem stays_item (hfunc : ∀ d c, (host.func d c).1 = 0) (item : Item) (hitem : item.Plain)
    (level : ℕ) : Stays limit level (item.generateLeveled host level) := by
  induction item using Item.induct generalizing level with
  | mk data rep maybe ih =>
    have hcopy : Stays limit level
        (generateLeveledData host level (data.map fun item => item.generateLeveled host)) := by
      cases data with
      | set set => exact stays_generateSet hfunc hitem.data
      | literal literal =>
        refine Effect.triple_inOrder fun x hx => ?_
        obtain ⟨c, -, rfl⟩ := List.mem_map.mp hx
        exact stays_emit hfunc c
      | special special => exact absurd hitem.data not_false
      | group group =>
        have hgroups := Item.groups_group_iff.mp hitem.groups
        rw [ItemData.map, generateLeveledData_group]
        exact stays_generateLeveledGroup (hgroups _ (.root _)) fun segment hs item hi =>
          ih segment hs item hi (Group.plain_item hgroups hs hi) (level + 1)
    rw [Item.generateLeveled_mk, generateLeveledItem]
    refine (triple_decideMaybe maybe).bind fun emits => ?_
    split
    · exact (triple_generateRepeat rep).bind fun reps => hcopy.times reps
    · exact Effect.triple_pure id

/-- **Every group of a pattern stays at its level.** -/
theorem stays_of_plain (hfunc : ∀ d c, (host.func d c).1 = 0) {pattern : Group}
    (hpattern : ∀ g, pattern.Contains g → Group.Plain g) :
    Stays limit level (generateLeveledGroup host (level + 1) pattern) :=
  stays_generateLeveledGroup (hpattern _ (.root _)) fun _ hs item hi =>
    stays_item hfunc item (Group.plain_item hpattern hs hi) (level + 1)

end Depth

/-! ## The depth limit -/

/-- A call for the group that returns zero gives the depth counter its value back. -/
def RestoresDepth (group : Group) : Prop :=
  ∀ s t : GenState σ δ, Effect.Returns (generate host group) s () t → t.depth = s.depth

/-- Generating from `s` returns zero. -/
def Generates (pattern : Group) (s : GenState σ δ) : Prop :=
  ∃ t, Effect.Returns (generate host pattern) s () t

/-- Generating from `s`, no draw is left unanswered. -/
def Answered (pattern : Group) (s : GenState σ δ) : Prop :=
  ∀ t, ¬Effect.Stops (generate host pattern) s .looping t

instance (pattern : Group) (s : GenState σ δ) : Decidable (Answered host pattern s) :=
  match h : (generate host pattern).run s with
  | .ok _ _ => .isTrue fun _ hstops => absurd (h.symm.trans hstops) (by simp)
  | .error e t => decidable_of_iff (e ≠ .looping) <| by
    constructor
    · intro hne u hstops
      exact hne (EStateM.Result.error.inj (h.symm.trans hstops)).1
    · rintro hanswered rfl
      exact hanswered t h

section Limit

variable {host}

theorem Group.Contains.trans {g h k : Group} (hgh : g.Contains h) (hhk : h.Contains k) :
    g.Contains k := by
  induction hgh with
  | root => exact hhk
  | item hs hi hdata _ ih => exact .item hs hi hdata (ih hhk)

theorem restoresDepth_of_plain (hfunc : ∀ d c, (host.func d c).1 = 0) {pattern : Group}
    (hpattern : ∀ g, pattern.Contains g → Group.Plain g) : RestoresDepth host pattern := by
  intro s t h
  have hstays : Stays s.depth 0 (generateLeveledGroup host 1 pattern) :=
    stays_of_plain hfunc hpattern
  obtain ⟨u, hu, rfl⟩ := (erases_generateLeveledGroup hpattern 1).exists_returns
    (s := s.unentered) h
  have hstart : AtLevel s.depth 0 s.unentered := ⟨rfl, fun _ hl => absurd hl List.not_mem_nil⟩
  exact (hstays.returns hstart hu).depth

/-- **The depth limit counts nesting and nothing else**: on a pattern without specials, whose groups
have the positive sum of their multipliers, and with a callback that returns zero, generating
returns zero exactly when no level above the limit is entered; and every group gives back the depth
it took. -/
theorem generates_iff_levels {host : Host σ δ} (hfunc : ∀ d c, (host.func d c).1 = 0)
    {pattern : Group} (hpattern : ∀ g, pattern.Contains g → Group.Plain g) {s : GenState σ δ}
    (hdraws : Answered host pattern s) :
    (Generates host pattern s ↔ ∀ level ∈ levelsEntered host pattern s, level ≤ s.depth) ∧
      ∀ g, pattern.Contains g → RestoresDepth host g := by
  have herases : Effect.Erases GenState.plain (generateLeveledGroup host 1 pattern) _ :=
    erases_generateLeveledGroup hpattern 1
  have hstays : Stays s.depth 0 (generateLeveledGroup host 1 pattern) :=
    stays_of_plain hfunc hpattern
  have hstart : AtLevel s.depth 0 s.unentered := ⟨rfl, fun _ hl => absurd hl List.not_mem_nil⟩
  refine ⟨⟨?_, fun hlevels => ?_⟩, fun g hg => ?_⟩
  · rintro ⟨t, h⟩
    obtain ⟨u, hu, rfl⟩ := herases.exists_returns (s := s.unentered) h
    rw [levelsEntered, Effect.final_of_returns hu]
    exact (hstays.returns hstart hu).entered
  · rcases Effect.returns_or_stops (generateLeveledGroup host 1 pattern) s.unentered with
      ⟨_, u, hu⟩ | ⟨e, u, hu⟩
    · exact ⟨_, herases.returns hu⟩
    · rw [levelsEntered, Effect.final_of_stops hu] at hlevels
      rcases hstays.stops hstart hu with rfl | ⟨-, l, hl, hlt⟩
      · exact absurd (herases.stops hu) (hdraws _)
      · exact absurd (hlevels l hl) (Nat.not_le.mpr hlt)
  · exact restoresDepth_of_plain hfunc fun k hk => hpattern k (hg.trans hk)

end Limit

/-- The group `(c)`, for a codepoint. -/
def letterGroup (c : ℕ) : Group := ⟨[⟨[.mk (.literal ⟨[c], false⟩) ⟨1, 1⟩ false], 1⟩], 1⟩

theorem plain_letterGroup (c : ℕ) : ∀ g, (letterGroup c).Contains g → Group.Plain g := by
  refine Group.forall_contains_iff.mpr ⟨⟨rfl, Nat.one_pos, fun segment hs item hi => ?_⟩,
    fun segment hs item hi h hdata => ?_⟩
  all_goals
    obtain rfl := List.mem_singleton.mp hs
    obtain rfl := List.mem_singleton.mp hi
  · exact trivial
  · exact absurd hdata (by simp)

/-- The pattern `(a){2}(b)`. -/
def twiceThenOnce : Group :=
  ⟨[⟨[.mk (.group (letterGroup 97)) ⟨2, 2⟩ false, .mk (.group (letterGroup 98)) ⟨1, 1⟩ false], 1⟩],
    1⟩

theorem plain_twiceThenOnce : ∀ g, twiceThenOnce.Contains g → Group.Plain g := by
  refine Group.forall_contains_iff.mpr ⟨⟨rfl, Nat.one_pos, fun segment hs item hi => ?_⟩,
    fun segment hs item hi => ?_⟩
  all_goals
    obtain rfl := List.mem_singleton.mp hs
    rcases List.mem_pair.mp hi with rfl | rfl
  · exact trivial
  · exact trivial
  · exact Item.groups_group_iff.mpr (plain_letterGroup 97)
  · exact Item.groups_group_iff.mpr (plain_letterGroup 98)

/-- Two copies and a sibling, within a limit of two. -/
theorem generates_twiceThenOnce :
    Generates drawHost twiceThenOnce (.init [0, 0, 0, 0] () 2 false []) ∧
      ∀ g, twiceThenOnce.Contains g → RestoresDepth drawHost g := by
  have hlevels : levelsEntered drawHost twiceThenOnce (.init [0, 0, 0, 0] () 2 false []) =
      [1, 2, 2, 2] := by decide +kernel
  have hanswered : Answered drawHost twiceThenOnce (.init [0, 0, 0, 0] () 2 false []) := by
    decide +kernel
  obtain ⟨hiff, hrestores⟩ := generates_iff_levels (fun _ _ => rfl) plain_twiceThenOnce hanswered
  exact ⟨hiff.mpr (hlevels ▸ by decide), hrestores⟩

end Passgen
