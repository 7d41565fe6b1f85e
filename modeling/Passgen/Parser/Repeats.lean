import Mathlib.Data.List.Basic
import Mathlib.Tactic.Common
import Passgen.Parser.Items

/-!
# Parser/Repeats — the bounds of the repeats

    {        ⟨0, 0⟩
    {n       ⟨n, 0⟩
    {n}      ⟨n, n⟩
    {n,m     ⟨n, m⟩
    {n,m}    ⟨n, m⟩   whatever n and m are

Both numbers are read straight into the item, and nothing compares them.  A property `Q` of bounds
that all pairs `⟨n, n⟩` have holds of every item of every state of a run, but for the one whose
repeat is being read, exactly when it holds whenever a `{n,m}` is closed.
-/

namespace Passgen

theorem SegmentOf.modifyLast_self (s : Segment) : (s.modifyLast fun item => item) = s := by
  rcases List.eq_nil_or_concat s.items with hnil | ⟨init, last, hconcat⟩
  · rw [SegmentOf.modifyLast, hnil]
    exact congrArg (SegmentOf.mk · s.multiplier) hnil.symm
  · rw [SegmentOf.modifyLast, hconcat, List.concat_eq_append, List.modifyLast_concat,
      ← List.concat_eq_append, ← hconcat]

theorem SegmentOf.mem_items_iff {s : Segment} {item : Item} :
    item ∈ s.items ↔ item ∈ s.items.dropLast ∨ s.items.getLast? = some item := by
  rw [← s.modifyLast_self, SegmentOf.mem_modifyLast_iff, s.modifyLast_self]
  simp

/-- `Q` holds of the bounds of the group's own items. -/
def Group.Reps (Q : Repeat → Prop) (g : Group) : Prop :=
  ∀ s ∈ g.segments, ∀ item ∈ s.items, Q item.rep

/-- `Q` holds of the bounds of the item and of every item inside. -/
def Item.Reps (Q : Repeat → Prop) (item : Item) : Prop :=
  Q item.rep ∧ item.Groups (Group.Reps Q)

/-- The stack with the repeat that is being read taken back. -/
def closeRep : List ParserState → List ParserState
  | .repeat :: .group g last :: rest => .group g (last.modifyLast resetRepeat) :: rest
  | .repeatRange :: .group g last :: rest => .group g (last.modifyLast resetRepeat) :: rest
  | state => state

/-- The token does not close a `{n,m}` of which `Q` fails. -/
def ClosesRep (Q : Repeat → Prop) (t : ℕ) : List ParserState → Prop
  | .repeatRange :: .group _ s :: _ =>
    t = '}'.toNat → ∀ item ∈ s.items.getLast?, Q item.rep
  | _ => True

section Reps

variable {Q : Repeat → Prop}

theorem Item.Reps.of_groups {item item' : Item} (h : item.Reps Q) (hrep : Q item'.rep)
    (hsub : ∀ g, item'.data = .group g → item.data = .group g) : item'.Reps Q :=
  ⟨hrep, fun g hg => h.2 g (hsub g hg)⟩

theorem reps_init (hone : Q ⟨1, 1⟩) {data : ItemData Item} (hdata : ∀ g, data ≠ .group g) :
    (Item.init data).Reps Q :=
  ⟨hone, fun g hg => absurd hg (hdata g)⟩

/-- **Only a repeat changes bounds**: a fresh item is there once. -/
theorem shapeRules_reps (hzero : Q ⟨0, 0⟩) (hone : Q ⟨1, 1⟩) : ShapeRules (Item.Reps Q) where
  fresh _ := reps_init hone (by simp)
  other h _ := h.of_groups h.1 fun _ hg => absurd hg (by simp)
  special _ := reps_init hone (by simp)
  name {item} c h := by
    rcases item with ⟨_ | _ | _ | _, rep, maybe⟩ <;> exact h.of_groups h.1 fun _ hg => by
      first | exact hg | exact absurd hg (by simp [Item.modifySpecial])
  set := reps_init hone (by simp)
  push _ h := h.of_groups h.1 fun _ hg => absurd hg (by simp)
  extend _ _ h := h.of_groups h.1 fun _ hg => absurd hg (by simp)
  group g h := by
    refine ⟨hone, fun g' hg' => ?_⟩
    obtain rfl : groupFinish g = g' := by simpa [Item.init] using hg'
    exact Group.forall_contains_items fun s hs => h s (segments_groupFinish g ▸ hs)
  maybe h := h.of_groups h.1 fun _ hg => hg
  reset h := h.of_groups hzero fun _ hg => hg

/-- Both bounds fit a `size_t`. -/
def Repeat.Sized (rep : Repeat) : Prop := rep.min < 2 ^ 64 ∧ rep.max < 2 ^ 64

theorem itemRules_reps : ItemRules (Item.Reps Repeat.Sized) :=
  { shapeRules_reps (Q := Repeat.Sized) ⟨by decide, by decide⟩ ⟨by decide, by decide⟩ with
    rep := fun hmin hmax h => h.of_groups ⟨hmin, hmax⟩ fun _ hg => hg
    sized := fun h => h.1 }

/-- All bounds of the items are all bounds of the groups. -/
theorem forall_contains_reps {g : Group} (h : ∀ s ∈ g.segments, s.All (Item.Reps Q)) :
    ∀ k, g.Contains k → Group.Reps Q k :=
  Group.forall_contains_items h

theorem sized_of_parse {string : List UInt8} {g : Group} (hparse : parse string = .ok g) :
    ∀ k, g.Contains k → Group.Reps Repeat.Sized k :=
  forall_contains_reps (itemRules_reps.parse hparse)

theorem reps_modifySet_iff (f : PatternSet → PatternSet) (item : Item) :
    (item.modifySet f).Reps Q ↔ item.Reps Q := by
  rcases item with ⟨_ | _ | _ | _, rep, maybe⟩
  · exact ⟨fun h => h.of_groups h.1 fun _ hg => absurd hg (by simp),
      fun h => h.of_groups h.1 fun _ hg => absurd hg (by simp [Item.modifySet])⟩
  all_goals exact Iff.rfl

/-- The bounds do not depend on whether a set is closed. -/
theorem allItems_closeTop_iff {state : List ParserState} :
    AllItems (Item.Reps Q) (closeTop state) ↔ AllItems (Item.Reps Q) state := by
  have hclose : ∀ {s : Segment}, (s.modifyLast (Item.modifySet setClose)).All (Item.Reps Q) ↔
      s.All (Item.Reps Q) := fun {s} => by
    constructor
    · intro h
      have := h.modifyLast fun item => (reps_modifySet_iff _ item).mp
      rwa [SegmentOf.modifyLast_self] at this
    · exact fun h => h.modifyLast_of fun item => (reps_modifySet_iff _ item).mpr
  have hset : ∀ {top g s rest}, (∀ P, top.Items P) →
      (AllItems (Item.Reps Q) (.group g (s.modifyLast (Item.modifySet setClose)) :: rest) ↔
        AllItems (Item.Reps Q) (top :: .group g s :: rest)) := fun htop => by
    constructor
    · exact fun h => allItems_cons_iff.mpr ⟨htop _, h.last hclose.mp⟩
    · exact fun h => AllItems.last h.below hclose.mpr
  unfold closeTop
  split
  · exact hset fun _ => trivial
  · exact hset fun _ => trivial
  · exact Iff.rfl

theorem closeRep_of_not {state : List ParserState} (h : ¬ ReadsRepeat state) :
    closeRep state = state := by
  unfold closeRep
  split
  · exact absurd trivial h
  · exact absurd trivial h
  · rfl

theorem closesRep_of_not {t : ℕ} {state : List ParserState} (h : ¬ ReadsRepeat state) :
    ClosesRep Q t state := by
  unfold ClosesRep
  split
  · exact absurd trivial h
  · trivial

theorem resetRepeat_modifyRepeat (s : Segment) (f : Repeat → Repeat) :
    (s.modifyLast (Item.modifyRepeat f)).modifyLast resetRepeat = s.modifyLast resetRepeat :=
  SegmentOf.modifyLast_modifyLast ..

variable (hQ : ∀ n, Q ⟨n, n⟩)
include hQ

/-- Taking a repeat back does no harm. -/
theorem AllItems.closeRep {state : List ParserState} (h : AllItems (Item.Reps Q) state) :
    AllItems (Item.Reps Q) (closeRep state) := by
  have hreset : ∀ {top g s rest}, AllItems (Item.Reps Q) (top :: .group g s :: rest) →
      AllItems (Item.Reps Q) (.group g (s.modifyLast resetRepeat) :: rest) := fun h =>
    h.write fun _ => (shapeRules_reps (hQ 0) (hQ 1)).reset
  unfold Passgen.closeRep
  split
  · exact hreset h
  · exact hreset h
  · exact h

/-- **One step** keeps the bounds exactly when it closes no `{n,m}` of which `Q` fails. -/
theorem reps_step_iff {t : ℕ} {state state' : List ParserState} (hstep : Step t state state')
    (h : AllItems (Item.Reps Q) (closeRep state)) :
    AllItems (Item.Reps Q) (closeRep state') ↔ ClosesRep Q t state := by
  by_cases hread : ReadsRepeat state
  · cases hstep with
    | repeatEnd =>
      refine iff_of_true (AllItems.last h fun hs => ?_) trivial
      exact hs.modifyLast fun item hitem => hitem.of_groups (hQ _) fun _ hg => hg
    | repeatComma | repeatDigit =>
      refine iff_of_true ?_ trivial
      simpa only [closeRep, resetRepeat_modifyRepeat] using h
    | repeatRangeDigit hdigit =>
      refine iff_of_true ?_ fun hend => absurd (hend ▸ hdigit) (by decide)
      simpa only [closeRep, resetRepeat_modifyRepeat] using h
    | repeatRangeEnd ht =>
      constructor
      · exact fun h' _ item hitem =>
          ((allItems_cons_iff.mp h').1.2 item (List.mem_of_getLast? hitem)).1
      · intro hlast
        refine AllItems.last h fun hs => ?_
        intro item hitem
        rcases SegmentOf.mem_items_iff.mp hitem with hmem | hget
        · exact hs item (SegmentOf.mem_modifyLast_iff.mpr (.inl hmem))
        · have := hs _ (SegmentOf.mem_modifyLast_iff.mpr (.inr ⟨item, hget, rfl⟩))
          exact this.of_groups (hlast ht _ hget) fun _ hg => hg
    | _ => exact absurd hread id
  · rw [closeRep_of_not hread] at h
    refine iff_of_true (AllItems.closeRep hQ (allItems_closeTop_iff.mp ?_)) (closesRep_of_not hread)
    exact (shapeRules_reps (hQ 0) (hQ 1)).step hstep hread (allItems_closeTop_iff.mpr h)

/-! ## Runs -/

/-- `Q` holds of all bounds, but for those being read. -/
def RepsRead (Q : Repeat → Prop) (state : List ParserState) : Prop :=
  AllItems (Item.Reps Q) (closeRep state)

/-- **The run lemma**: `Q` holds in every state exactly when every step keeps it. -/
theorem runHolds_repsRead_iff {tokens : List ℕ} {last : List ParserState}
    (hrun : parseStates tokens parserInit.state = some last) :
    RunHolds (RepsRead Q) tokens parserInit.state ↔
      RunSteps (ClosesRep Q) tokens parserInit.state :=
  runHolds_iff (fun _ _ _ h ht => reps_step_iff hQ (step_of_parseState ht) h)
    (P := RepsRead Q) allItems_parserInit hrun

omit hQ

/-- The bounds of an accepted pattern are those of the last state of its run. -/
theorem reps_of_parse {string : List UInt8} {g : Group} (hparse : parse string = .ok g)
    (h : RunHolds (RepsRead Q) (patternTokens string) parserInit.state) :
    ∀ k, g.Contains k → Group.Reps Q k := by
  obtain ⟨state, hrun, hfinish⟩ := parse_run hparse
  have hlast : RepsRead Q state := h (patternTokens string) [] state (by simp) hrun
  have hread : ¬ ReadsRepeat state := by
    obtain ⟨group, segment, rfl, -⟩ := finish_eq_some_iff.mp hfinish
    exact id
  rw [RepsRead, closeRep_of_not hread] at hlast
  exact forall_contains_reps (hlast.finish hfinish)

end Reps

end Passgen
