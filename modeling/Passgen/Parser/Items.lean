import Mathlib.Data.List.Basic
import Mathlib.Tactic.Common
import Passgen.Parser.Run
import Passgen.Parser.Step

/-!
# Parser/Items — induction on accepted patterns

`ItemRules P` lists what the parser makes items from; a property that follows these rules holds of
every item of an accepted pattern (`items_of_parse`).  A set is only judged as if it were closed: an
open one is the last item of the segment at the top of the stack, and what follows will close it.
-/

namespace Passgen

/-- `P` holds of whatever the parser makes of items it holds of, but for sets, specials and the
bounds of a repeat. -/
structure PlainRules (P : Item → Prop) : Prop extends IgnoresText P where
  group : ∀ group : Group, (∀ s ∈ group.segments, s.All P) → P (.init (.group (groupFinish group)))
  maybe : ∀ {item}, P item → P (.mk item.data item.rep true)
  reset : ∀ {item}, P item → P (resetRepeat item)

/-- `P` holds of whatever the parser makes of items it holds of, but for sets and for the bounds of
a repeat. -/
structure LeafRules (P : Item → Prop) : Prop extends IgnoresText P where
  special : ∀ kind, P (.init (.special (specialInit kind)))
  name : ∀ {item} c, P item → P (item.modifySpecial fun special => specialPush special c)
  group : ∀ group : Group, (∀ s ∈ group.segments, s.All P) → P (.init (.group (groupFinish group)))
  maybe : ∀ {item}, P item → P (.mk item.data item.rep true)
  reset : ∀ {item}, P item → P (resetRepeat item)

/-- `P` holds of whatever the parser makes of items it holds of, but for the bounds of a repeat. -/
structure ShapeRules (P : Item → Prop) : Prop extends IgnoresText P where
  special : ∀ kind, P (.init (.special (specialInit kind)))
  name : ∀ {item} c, P item → P (item.modifySpecial fun special => specialPush special c)
  set : P (.init (.set (setClose setInit)))
  push : ∀ {set rep maybe} c, P (.mk (.set (setClose set)) rep maybe) →
    P (.mk (.set (setClose (setPush c set))) rep maybe)
  extend : ∀ {set rep maybe range c}, set.items.getLast? = some range → range.start ≤ c →
    P (.mk (.set (setClose set)) rep maybe) → P (.mk (.set (setClose (setExtend c set))) rep maybe)
  group : ∀ group : Group, (∀ s ∈ group.segments, s.All P) → P (.init (.group (groupFinish group)))
  maybe : ∀ {item}, P item → P (.mk item.data item.rep true)
  reset : ∀ {item}, P item → P (resetRepeat item)

/-- `P` holds of whatever the parser makes of items it holds of. -/
structure ItemRules (P : Item → Prop) : Prop extends IgnoresText P where
  special : ∀ kind, P (.init (.special (specialInit kind)))
  name : ∀ {item} c, P item → P (item.modifySpecial fun special => specialPush special c)
  set : P (.init (.set (setClose setInit)))
  push : ∀ {set rep maybe} c, P (.mk (.set (setClose set)) rep maybe) →
    P (.mk (.set (setClose (setPush c set))) rep maybe)
  extend : ∀ {set rep maybe range c}, set.items.getLast? = some range → range.start ≤ c →
    P (.mk (.set (setClose set)) rep maybe) → P (.mk (.set (setClose (setExtend c set))) rep maybe)
  group : ∀ group : Group, (∀ s ∈ group.segments, s.All P) → P (.init (.group (groupFinish group)))
  maybe : ∀ {item}, P item → P (.mk item.data item.rep true)
  rep : ∀ {item} {rep : Repeat}, rep.min < 2 ^ 64 → rep.max < 2 ^ 64 → P item →
    P (.mk item.data rep item.maybe)
  sized : ∀ {item}, P item → item.rep.min < 2 ^ 64 ∧ item.rep.max < 2 ^ 64

/-- The stack with the open set at its top closed. -/
def closeTop : List ParserState → List ParserState
  | .set _ :: .group g last :: rest => .group g (last.modifyLast (Item.modifySet setClose)) :: rest
  | .setRange :: .group g last :: rest =>
    .group g (last.modifyLast (Item.modifySet setClose)) :: rest
  | state => state

/-- `P` holds of all items in the groups of the stack. -/
def AllItems (P : Item → Prop) (state : List ParserState) : Prop := ∀ s ∈ state, s.Items P

section AllItems

variable {P : Item → Prop} {g : Group} {s s' : Segment} {top : ParserState}
  {rest : List ParserState}

theorem allItems_cons_iff : AllItems P (top :: rest) ↔ top.Items P ∧ AllItems P rest :=
  List.forall_mem_cons

theorem AllItems.last (h : AllItems P (.group g s :: rest)) (hs : s.All P → s'.All P) :
    AllItems P (.group g s' :: rest) :=
  have ⟨⟨hgroup, hlast⟩, hrest⟩ := allItems_cons_iff.mp h
  allItems_cons_iff.mpr ⟨⟨hgroup, hs hlast⟩, hrest⟩

theorem AllItems.below (h : AllItems P (top :: rest)) : AllItems P rest :=
  (allItems_cons_iff.mp h).2

theorem AllItems.clean (h : AllItems P (.group g s :: rest)) :
    AllItems P (.group g (segmentClean s) :: rest) := h.last SegmentOf.All.clean

/-- A change to the last item, below the state that makes it. -/
theorem AllItems.write {f : Item → Item} (h : AllItems P (top :: .group g s :: rest))
    (hf : ∀ item, P item → P (f item)) : AllItems P (.group g (s.modifyLast f) :: rest) :=
  AllItems.last h.below fun hs => hs.modifyLast_of hf

/-- Multipliers and their sum are not items. -/
theorem AllItems.weighted {sum multiplier : ℕ} (h : AllItems P (.group g s :: rest)) :
    AllItems P (.group { g with multiplierSum := sum } { s with multiplier } :: rest) :=
  have ⟨⟨hgroup, hlast⟩, hrest⟩ := allItems_cons_iff.mp h
  allItems_cons_iff.mpr ⟨⟨hgroup, hlast⟩, hrest⟩

/-- A new segment, after those that are kept. -/
theorem AllItems.next {segments : List Segment} {sum : ℕ} (h : AllItems P (.group g s :: rest))
    (hsegments : ∀ s' ∈ segments, s' ∈ g.segments ∨ s' = s) :
    AllItems P (.group ⟨segments, sum⟩ segmentInit :: rest) := by
  obtain ⟨⟨hgroup, hlast⟩, hrest⟩ := allItems_cons_iff.mp h
  refine allItems_cons_iff.mpr ⟨⟨fun s' hs' => ?_, .segmentInit⟩, hrest⟩
  rcases hsegments s' hs' with hmem | rfl
  · exact hgroup s' hmem
  · exact hlast

/-- A new group on top. -/
theorem AllItems.openGroup {sum : ℕ} (h : AllItems P rest) :
    AllItems P (.group { groupInit with multiplierSum := sum } segmentInit :: rest) :=
  allItems_cons_iff.mpr ⟨⟨fun _ hs => absurd hs List.not_mem_nil, .segmentInit⟩, h⟩

end AllItems

/-- The bounds of a repeat are being read. -/
def ReadsRepeat : List ParserState → Prop
  | .repeat :: _ => True
  | .repeatRange :: _ => True
  | _ => False

/-- A set is being read. -/
def ReadsSet : List ParserState → Prop
  | .set _ :: _ => True
  | .setRange :: _ => True
  | _ => False

/-- A special is being read. -/
def ReadsSpecial : List ParserState → Prop
  | .special :: _ => True
  | .specialName :: _ => True
  | _ => False

/-- **A step that reads no set, special or repeat** keeps the items. -/
theorem PlainRules.step {P : Item → Prop} (hP : PlainRules P) {t : ℕ}
    {state state' : List ParserState} (hstep : Step t state state') (hset : ¬ ReadsSet state)
    (hset' : ¬ ReadsSet state') (hspecial : ¬ ReadsSpecial state)
    (hspecial' : ¬ ReadsSpecial state') (hread : ¬ ReadsRepeat state) (h : AllItems P state) :
    AllItems P state' := by
  cases hstep with
  | text c => exact h.clean.last fun hs => hs.appendChar hP.toIgnoresText c
  | bar =>
    refine h.clean.next fun s' hs' => ?_
    rcases List.mem_append.mp hs' with hs' | hs'
    · exact .inl hs'
    · exact .inr (List.mem_singleton.mp hs')
  | recycle => exact h.clean.next fun s' hs' => .inl hs'
  | close =>
    obtain ⟨⟨hgroup, hlast⟩, hbelow⟩ := allItems_cons_iff.mp h.clean
    exact AllItems.last hbelow fun hs => hs.push
      (hP.group _ (forall_keptSegments hgroup hlast))
  | openGroup => exact h.clean.openGroup
  | openRepeat ht hs =>
    refine allItems_cons_iff.mpr ⟨trivial, h.clean.last fun hlast => ?_⟩
    exact (hlast.lastSingleItemTaint hP.toIgnoresText hs).modifyLast_of fun item => hP.reset
  | openMultiplier => exact allItems_cons_iff.mpr ⟨trivial, h.clean.weighted⟩
  | maybe ht hs =>
    refine h.clean.last fun hlast => ?_
    exact (hlast.lastSingleItemTaint hP.toIgnoresText hs).modifyLast_of fun item => hP.maybe
  | multiplierEnd => exact h.below.weighted
  | multiplierDigit => exact allItems_cons_iff.mpr ⟨trivial, h.below.weighted⟩
  | special => exact absurd trivial hspecial'
  | nameOpen | nameEnd | namePush => exact absurd trivial hspecial
  | openSet => exact absurd trivial hset'
  | setEnd | setRange | setEscaped | setPush | setExtend => exact absurd trivial hset
  | _ => exact absurd trivial hread

section Leaf

variable {P : Item → Prop} (hP : LeafRules P)
include hP

theorem LeafRules.toPlainRules : PlainRules P := { hP with }

/-- **A step that reads no set and no repeat** keeps the items. -/
theorem LeafRules.step {t : ℕ} {state state' : List ParserState} (hstep : Step t state state')
    (hset : ¬ ReadsSet state) (hset' : ¬ ReadsSet state') (hread : ¬ ReadsRepeat state)
    (h : AllItems P state) : AllItems P state' := by
  cases hstep with
  | special kind =>
    exact allItems_cons_iff.mpr ⟨trivial, h.clean.last fun hs => hs.push (hP.special kind)⟩
  | nameOpen => exact allItems_cons_iff.mpr ⟨trivial, h.below⟩
  | nameEnd => exact h.below
  | namePush =>
    refine allItems_cons_iff.mpr ⟨trivial, AllItems.last h.below fun hs => ?_⟩
    exact hs.modifyLast_of fun item hitem => hP.name _ hitem
  | _ => exact hP.toPlainRules.step (by constructor <;> assumption) hset hset' id id hread h

end Leaf

section Shape

variable {P : Item → Prop} (hP : ShapeRules P) {s : Segment}
include hP

/-- Opening a set. -/
theorem ShapeRules.openSet (h : s.All P) :
    ((s.push (.init (.set setInit))).modifyLast (Item.modifySet setClose)).All P := by
  rw [SegmentOf.modifyLast_push]
  exact h.push hP.set

/-- Writing a codepoint into an open set. -/
theorem ShapeRules.pushSet (h : (s.modifyLast (Item.modifySet setClose)).All P) (c : ℕ) :
    ((s.modifyLast (Item.modifySet (setPush c))).modifyLast (Item.modifySet setClose)).All P := by
  rw [SegmentOf.modifyLast_modifyLast]
  refine h.modifyLast fun item hitem => ?_
  rcases item with ⟨_ | _ | _ | _, rep, maybe⟩
  · exact hP.push c hitem
  all_goals exact hitem

/-- Writing the end of a range into an open set. -/
theorem ShapeRules.extendSet (h : (s.modifyLast (Item.modifySet setClose)).All P) {set : PatternSet}
    {range : Range} {c : ℕ} (hset : lastSet s = some set) (hrange : set.items.getLast? = some range)
    (hle : range.start ≤ c) :
    ((s.modifyLast (Item.modifySet (setExtend c))).modifyLast (Item.modifySet setClose)).All P := by
  rw [SegmentOf.modifyLast_modifyLast]
  intro i hi
  rcases SegmentOf.mem_modifyLast_iff.mp hi with hi | ⟨last, hlast, rfl⟩
  · exact h i (SegmentOf.mem_modifyLast_iff.mpr (.inl hi))
  · have hclosed := h _ (SegmentOf.mem_modifyLast_iff.mpr (.inr ⟨last, hlast, rfl⟩))
    rw [lastSet, hlast] at hset
    rcases last with ⟨set' | _ | _ | _, rep, maybe⟩
    · obtain rfl := Option.some.inj hset
      exact hP.extend hrange hle hclosed
    all_goals exact hclosed

/-- **A step that reads no repeat** keeps the items. -/
theorem ShapeRules.step {t : ℕ} {state state' : List ParserState} (hstep : Step t state state')
    (hread : ¬ ReadsRepeat state) (h : AllItems P (closeTop state)) :
    AllItems P (closeTop state') := by
  have hleaf : LeafRules P := { hP with }
  cases hstep with
  | openSet => exact (h.last SegmentOf.All.clean).last hP.openSet
  | setEnd => exact h
  | setRange => exact h
  | setEscaped => exact h.last fun hs => hP.pushSet hs _
  | setPush => exact h.last fun hs => hP.pushSet hs _
  | setExtend hend hset hrange hle => exact h.last fun hs => hP.extendSet hs hset hrange hle
  | _ => exact hleaf.step (by constructor <;> assumption) id id hread h

end Shape

theorem allItems_parserInit {P : Item → Prop} : AllItems P parserInit.state :=
  allItems_cons_iff.mpr ⟨⟨fun _ hs => absurd hs List.not_mem_nil, .segmentInit⟩,
    fun _ hs => absurd hs List.not_mem_nil⟩

/-- The items of a finished pattern are those of its stack. -/
theorem AllItems.finish {P : Item → Prop} {state : List ParserState} {g : Group}
    (h : AllItems P state) (hfinish : finish state = some g) : ∀ s ∈ g.segments, s.All P := by
  obtain ⟨group, segment, rfl, rfl⟩ := finish_eq_some_iff.mp hfinish
  obtain ⟨⟨hgroup, hlast⟩, -⟩ := allItems_cons_iff.mp h
  intro s hs
  rcases List.mem_append.mp hs with hs | hs
  · exact hgroup s hs
  · exact List.mem_singleton.mp hs ▸ hlast.clean

section Rules

variable {P : Item → Prop} (hP : ItemRules P) {s : Segment}
include hP

theorem ItemRules.toShapeRules : ShapeRules P :=
  { hP with reset := fun h => hP.rep (by decide) (by decide) h }

/-- Writing to the bounds of the last repeat. -/
theorem ItemRules.writeRepeat (h : s.All P) {f : Repeat → Repeat}
    (hf : ∀ r, r.min < 2 ^ 64 → r.max < 2 ^ 64 → (f r).min < 2 ^ 64 ∧ (f r).max < 2 ^ 64) :
    (s.modifyLast (Item.modifyRepeat f)).All P := by
  refine h.modifyLast_of fun item hitem => ?_
  obtain ⟨hmin, hmax⟩ := hP.sized hitem
  obtain ⟨hmin', hmax'⟩ := hf item.rep hmin hmax
  exact hP.rep hmin' hmax' hitem

/-- **A step keeps the items.** -/
theorem ItemRules.step {t : ℕ} {state state' : List ParserState} (hstep : Step t state state')
    (h : AllItems P (closeTop state)) : AllItems P (closeTop state') := by
  have hrep : ∀ {top g s rest} {f : Repeat → Repeat}, AllItems P (top :: .group g s :: rest) →
      (∀ r, r.min < 2 ^ 64 → r.max < 2 ^ 64 → (f r).min < 2 ^ 64 ∧ (f r).max < 2 ^ 64) →
      AllItems P (.group g (s.modifyLast (Item.modifyRepeat f)) :: rest) :=
    fun h hf => AllItems.last h.below fun hs => hP.writeRepeat hs hf
  cases hstep with
  | repeatEnd => exact hrep h fun r hmin _ => ⟨hmin, hmin⟩
  | repeatComma =>
    exact allItems_cons_iff.mpr ⟨trivial, hrep h fun r hmin _ => ⟨hmin, Nat.two_pow_pos 64⟩⟩
  | repeatDigit =>
    exact allItems_cons_iff.mpr ⟨trivial, hrep h fun r _ hmax => ⟨sizeT_lt _, hmax⟩⟩
  | repeatRangeEnd => exact h.below
  | repeatRangeDigit =>
    exact allItems_cons_iff.mpr ⟨trivial, hrep h fun r hmin _ => ⟨hmin, sizeT_lt _⟩⟩
  | _ => exact hP.toShapeRules.step (by constructor <;> assumption) id h

/-- **Every item of an accepted pattern** has every property that follows the rules. -/
theorem ItemRules.parse {string : List UInt8} {g : Group} (hparse : parse string = .ok g) :
    ∀ s ∈ g.segments, s.All P := by
  obtain ⟨state, hrun, hfinish⟩ := parse_run hparse
  have hall := parseStates_invariant
    (fun t _ _ hstate hstep => hP.step (step_of_parseState hstep) hstate)
    (P := fun state => AllItems P (closeTop state)) allItems_parserInit hrun
  obtain ⟨group, segment, rfl, -⟩ := finish_eq_some_iff.mp hfinish
  exact AllItems.finish hall hfinish

end Rules

end Passgen
