import Mathlib.Data.List.Basic
import Mathlib.Tactic.Common
import Passgen.Generate.Choose
import Passgen.Parser.Run
import Passgen.Parser.Step

/-!
# Parser/Balance — `multiplier_sum` against the multipliers

The sum of a group is kept up to date by its five writers instead of being computed.  It is right in
every state of a run exactly when the run keeps clear of three kinds of step (`KeepsSum`): a brace
that replaces a multiplier other than one, a bar that recycles a segment of multiplier zero, and a
sum that leaves `size_t`.
-/

namespace Passgen

/-- `multiplier_sum` is the sum of the multipliers of the segments. -/
def Exact (group : Group) : Prop := group.multiplierSum = totalMultiplier group.segments

/-- What generation relies on: no draw below `multiplier_sum` walks past the last segment, and every
segment with a positive multiplier can be chosen. -/
def Selectable (group : Group) : Prop :=
  (∀ choice < group.multiplierSum,
      ∃ i segment, chooseSegment group.segments choice = some (i, segment)) ∧
    ∀ i segment, group.segments[i]? = some segment → 0 < segment.multiplier →
      ∃ choice < group.multiplierSum, chooseSegment group.segments choice = some (i, segment)

theorem Exact.selectable {group : Group} (h : Exact group) : Selectable group := by
  constructor
  · exact fun choice hlt => exists_chooseSegment_iff.mpr (hlt.trans_eq h)
  · intro i segment hi hpos
    obtain ⟨choice, hlt, hchoose⟩ := exists_choice_of_pos hi hpos
    exact ⟨choice, hlt.trans_eq h.symm, hchoose⟩

/-! ## The account of a stack -/

/-- A group under construction of which `counted` has entered the sum for the last segment, and
everything nested in it is exact. -/
structure Level (group : Group) (segment : Segment) (counted : ℕ) : Prop where
  sum_eq : group.multiplierSum = totalMultiplier group.segments + counted
  sum_lt : group.multiplierSum < 2 ^ 64
  done : ∀ s ∈ group.segments, s.Groups Exact
  last : segment.Groups Exact

/-- The states below the top: groups with all of their last segment counted. -/
def LevelsBelow : List ParserState → Prop
  | [] => True
  | .group group segment :: rest => Level group segment segment.multiplier ∧ LevelsBelow rest
  | _ :: _ => False

/-- **The sums are right**: of every group under construction, and of every group nested in one.
While a multiplier is read it is not counted; a group of sum zero at the end of the top segment is
as good as removed. -/
def Balanced : List ParserState → Prop
  | .group group segment :: rest =>
    Level group (segmentClean segment) segment.multiplier ∧ LevelsBelow rest
  | .multiplier :: .group group segment :: rest => Level group segment 0 ∧ LevelsBelow rest
  | _ :: .group group segment :: rest =>
    Level group segment segment.multiplier ∧ LevelsBelow rest
  | _ => False

/-- The steps that keep the sums right. -/
def KeepsSum (t : ℕ) : List ParserState → Prop
  | .group group segment :: _ =>
    (IsControl t '{' → (segmentClean segment).items = [] → segment.multiplier = 1) ∧
      (IsControl t '|' → 0 < segment.multiplier ∧ group.multiplierSum + 1 < 2 ^ 64)
  | .multiplier :: .group group segment :: _ =>
    t = '}'.toNat → group.multiplierSum + segment.multiplier < 2 ^ 64
  | _ => True

instance decidableKeepsSum (t : ℕ) : ∀ state, Decidable (KeepsSum t state)
  | .group _ _ :: _ => inferInstanceAs (Decidable (_ ∧ _))
  | .multiplier :: .group _ _ :: _ => inferInstanceAs (Decidable (_ → _))
  | [] | .set _ :: _ | .setRange :: _ | .repeat :: _ | .repeatRange :: _ | .special :: _
  | .specialName :: _ | [.multiplier] | .multiplier :: .multiplier :: _
  | .multiplier :: .set _ :: _ | .multiplier :: .setRange :: _ | .multiplier :: .repeat :: _
  | .multiplier :: .repeatRange :: _ | .multiplier :: .special :: _
  | .multiplier :: .specialName :: _ => isTrue trivial

theorem balanced_parserInit : Balanced parserInit.state := by
  refine ⟨⟨rfl, by decide, by simp [groupInit], ?_⟩, trivial⟩
  exact fun item hitem => absurd hitem (by simp [segmentInit, segmentClean])

/-- A new last segment with the same groups. -/
theorem Level.of_subGroups {group : Group} {s s' : Segment} {counted counted' : ℕ}
    (h : Level group s counted) (hsub : s'.SubGroups s) (hcounted : counted' = counted) :
    Level group s' counted' := by
  subst hcounted
  exact ⟨h.sum_eq, h.sum_lt, h.done, hsub.groups h.last⟩

/-- A level whose sum is another number is not one. -/
theorem Level.unique {group : Group} {s s' : Segment} {c c' : ℕ} (h : Level group s c)
    (h' : Level group s' c') : c = c' := by
  have := h.sum_eq
  have := h'.sum_eq
  omega

theorem groups_segmentInit {P : Group → Prop} : segmentInit.Groups P :=
  fun item hitem => absurd hitem (by simp [segmentInit])

/-- An exact group at the end of a segment, or one that is cleaned away. -/
theorem groups_clean_push {P : Group → Prop} {s : Segment} {g : Group} (hs : s.Groups P)
    (hg : g.multiplierSum ≠ 0 → ∀ k, Group.Contains g k → P k) :
    (segmentClean (s.push (.init (.group g)))).Groups P := by
  rw [segmentClean_push]
  simp only [Item.init, Item.data_mk]
  split
  · exact hs
  · rename_i h0
    intro item hitem
    rcases List.mem_append.mp hitem with hmem | hmem
    · exact hs item hmem
    · rw [List.mem_singleton.mp hmem]
      exact Item.groups_group_iff.mpr (hg h0)

/-- A closed group is exact, or has sum zero and is removed. -/
theorem exact_close {g : Group} {s : Segment} (h : Level g s s.multiplier)
    (hne : (groupFinish { g with segments := keptSegments g s }).multiplierSum ≠ 0) :
    ∀ k, Group.Contains (groupFinish { g with segments := keptSegments g s }) k → Exact k := by
  unfold groupFinish at hne ⊢
  split at hne
  · exact absurd rfl hne
  rw [if_neg (by assumption)]
  refine Group.forall_contains_iff.mpr ⟨?_, fun s' hs' => ?_⟩
  · rw [Exact, h.sum_eq, keptSegments]
    split
    · simp only [*, Nat.add_zero]
    · rw [totalMultiplier_append, totalMultiplier_singleton]
  · simp only [keptSegments] at hs'
    split at hs'
    · exact h.done s' hs'
    · rcases List.mem_append.mp hs' with hmem | hmem
      · exact h.done s' hmem
      · rw [List.mem_singleton.mp hmem]
        exact h.last

/-- A token of the group state that is neither a brace nor a bar. -/
theorem keepsSum_group {t : ℕ} {g : Group} {s : Segment} {rest : List ParserState}
    (hbrace : ¬IsControl t '{') (hbar : ¬IsControl t '|') : KeepsSum t (.group g s :: rest) :=
  ⟨fun h => absurd h hbrace, fun h => absurd h hbar⟩

/-- The top segment may change in its leaves. -/
theorem Level.clean {g : Group} {s s' : Segment} {c c' : ℕ} (h : Level g s c)
    (hsub : s'.SubGroups s) (hc : c' = c) : Level g (segmentClean s') c' :=
  h.of_subGroups ((subGroups_clean s').trans hsub) hc

section Counting

variable {g : Group} {s : Segment} {rest : List ParserState}

/-- A bar counts the segment it starts: one that ends with multiplier zero must not be recycled, and
the sum must not wrap. -/
theorem balanced_bar_iff (h : Balanced (.group g s :: rest)) (hs : 0 < s.multiplier) :
    Balanced (.group ⟨g.segments ++ [segmentClean s], sizeT (g.multiplierSum + 1)⟩ segmentInit
        :: rest) ↔ 0 < s.multiplier ∧ g.multiplierSum + 1 < 2 ^ 64 := by
  obtain ⟨hlevel, hbelow⟩ := h
  have hsum : totalMultiplier (g.segments ++ [segmentClean s]) = g.multiplierSum := by
    rw [totalMultiplier_append, totalMultiplier_singleton, multiplier_clean, hlevel.sum_eq]
  constructor
  · rintro ⟨⟨hsum', hlt, -, -⟩, -⟩
    rw [hsum] at hsum'
    refine ⟨hs, ?_⟩
    simp only [segmentInit] at hsum' hlt
    omega
  · rintro ⟨-, hlt⟩
    refine ⟨⟨?_, sizeT_lt _, fun s' hs' => ?_, groups_segmentInit⟩, hbelow⟩
    · rw [hsum]
      exact sizeT_of_lt hlt
    · rcases List.mem_append.mp hs' with hmem | hmem
      · exact hlevel.done s' hmem
      · rw [List.mem_singleton.mp hmem]
        exact hlevel.last

/-- While a multiplier is read, what was counted for its segment is taken back: one. -/
theorem balanced_openMultiplier_iff (h : Balanced (.group g s :: rest)) :
    Balanced (.multiplier :: .group { g with multiplierSum := sizeSub g.multiplierSum 1 }
        { segmentClean s with multiplier := 0 } :: rest) ↔ s.multiplier = 1 := by
  obtain ⟨hlevel, hbelow⟩ := h
  have hsum := hlevel.sum_eq
  have hlt := hlevel.sum_lt
  constructor
  · rintro ⟨⟨hsum', -, -, -⟩, -⟩
    simp only [sizeSub, sizeT] at hsum'
    omega
  · intro hone
    have hsub : sizeSub g.multiplierSum 1 = g.multiplierSum - 1 := sizeSub_of_le hlt (by omega)
    exact ⟨⟨by simp only [hsub]; omega, by simp only [hsub]; omega, hlevel.done, hlevel.last⟩,
      hbelow⟩

/-- The end of a multiplier counts it. -/
theorem balanced_multiplierEnd_iff (h : Balanced (.multiplier :: .group g s :: rest)) :
    Balanced (.group { g with multiplierSum := sizeT (g.multiplierSum + s.multiplier) } s :: rest) ↔
      g.multiplierSum + s.multiplier < 2 ^ 64 := by
  obtain ⟨hlevel, hbelow⟩ := h
  have hsum := hlevel.sum_eq
  constructor
  · rintro ⟨⟨hsum', hlt, -, -⟩, -⟩
    simp only at hsum' hlt
    omega
  · intro hlt
    refine ⟨⟨?_, sizeT_lt _, hlevel.done, (subGroups_clean s).groups hlevel.last⟩, hbelow⟩
    simp only [sizeT_of_lt hlt]
    omega

/-- A write to the last item, below the state that makes it. -/
theorem balanced_write {f : Item → Item} (h : Level g s s.multiplier ∧ LevelsBelow rest)
    (hf : ∀ item g, (f item).data = .group g → item.data = .group g) :
    Level g (s.modifyLast f) (s.modifyLast f).multiplier ∧ LevelsBelow rest :=
  ⟨h.1.of_subGroups (subGroups_modifyLast s hf) rfl, h.2⟩

/-- The last write to an item, after which it can be cleaned away. -/
theorem balanced_writeLast {f : Item → Item} (h : Level g s s.multiplier ∧ LevelsBelow rest)
    (hf : ∀ item g, (f item).data = .group g → item.data = .group g) :
    Level g (segmentClean (s.modifyLast f)) (s.modifyLast f).multiplier ∧ LevelsBelow rest :=
  ⟨h.1.clean (subGroups_modifyLast s hf) rfl, h.2⟩

/-- An item that is done without a write. -/
theorem balanced_close (h : Level g s s.multiplier ∧ LevelsBelow rest) :
    Level g (segmentClean s) s.multiplier ∧ LevelsBelow rest :=
  ⟨h.1.clean (fun item hi _ hd => ⟨item, hi, hd⟩) rfl, h.2⟩

end Counting

/-- **One step**: the sums stay right exactly when the step keeps them. -/
theorem balanced_step_iff {t : ℕ} {state state' : List ParserState} (hstate : Balanced state)
    (hstep : Step t state state') : Balanced state' ↔ KeepsSum t state := by
  cases hstep with
  | @text g s rest c ht =>
    obtain ⟨hlevel, hbelow⟩ := hstate
    refine iff_of_true ⟨hlevel.clean (subGroups_appendChar _ c) ?_, hbelow⟩
      (keepsSum_group (ht.not_isControl (by decide)) (ht.not_isControl (by decide)))
    rw [multiplier_appendChar, multiplier_clean]
  | @special g s rest kind ht hkind =>
    obtain ⟨hlevel, hbelow⟩ := hstate
    refine iff_of_true
      ⟨hlevel.of_subGroups (subGroups_push _ fun h hd => nomatch hd) (multiplier_clean s), hbelow⟩
      (keepsSum_group ?_ ?_) <;>
    exact fun h => absurd (h.1.symm.trans ht) (by decide)
  | @bar g s rest ht hs =>
    rw [multiplier_clean] at hs
    refine (balanced_bar_iff hstate hs).trans ⟨fun hkept => ?_, fun hkeeps => hkeeps.2 ht⟩
    exact ⟨fun h => absurd h (ht.ne (by decide)), fun _ => hkept⟩
  | @recycle g s rest ht hs =>
    obtain ⟨hlevel, hbelow⟩ := hstate
    rw [multiplier_clean] at hs
    refine iff_of_false ?_ fun hkeeps => absurd (hkeeps.2 ht).1 (by omega)
    rintro ⟨hlevel', -⟩
    have := hlevel.unique hlevel'
    rw [hs] at this
    exact absurd this (by decide)
  | @close g s parent last rest ht =>
    obtain ⟨hlevel, hparent, hbelow⟩ := hstate
    rw [← multiplier_clean s] at hlevel
    exact iff_of_true
      ⟨⟨hparent.sum_eq, hparent.sum_lt, hparent.done,
        groups_clean_push hparent.last fun hne => exact_close hlevel hne⟩, hbelow⟩
      (keepsSum_group (ht.ne (by decide)) (ht.ne (by decide)))
  | @openGroup g s rest ht =>
    obtain ⟨hlevel, hbelow⟩ := hstate
    refine iff_of_true ⟨⟨rfl, by decide, by simp [groupInit], ?_⟩, ?_, hbelow⟩
      (keepsSum_group (ht.ne (by decide)) (ht.ne (by decide)))
    · exact (subGroups_clean _).groups groups_segmentInit
    · rwa [multiplier_clean]
  | @openSet g s rest ht =>
    obtain ⟨hlevel, hbelow⟩ := hstate
    exact iff_of_true
      ⟨hlevel.of_subGroups (subGroups_push _ fun h hd => nomatch hd) (multiplier_clean s), hbelow⟩
      (keepsSum_group (ht.ne (by decide)) (ht.ne (by decide)))
  | @openRepeat g s s' rest ht hs =>
    obtain ⟨hlevel, hbelow⟩ := hstate
    have hsub := (subGroups_modifyLast s' (f := resetRepeat) fun _ _ hd => hd).trans
      (subGroups_lastSingleItemTaint hs)
    have hmul := (multiplier_lastSingleItemTaint hs).trans (multiplier_clean s)
    refine iff_of_true ⟨hlevel.of_subGroups hsub hmul, hbelow⟩
      ⟨fun _ hnil => ?_, fun h => absurd h (ht.ne (by decide))⟩
    rw [(lastSingleItemTaint_eq_none_iff _).mpr hnil] at hs
    exact absurd hs (by simp)
  | @openMultiplier g s rest ht hs =>
    refine (balanced_openMultiplier_iff hstate).trans ⟨fun hone => ?_, fun hkeeps => ?_⟩
    · exact ⟨fun _ _ => hone, fun h => absurd h (ht.ne (by decide))⟩
    · exact hkeeps.1 ht hs
  | @maybe g s s' rest ht hs =>
    obtain ⟨hlevel, hbelow⟩ := hstate
    have hsub := (subGroups_modifyLast s' (f := fun item => .mk item.data item.rep true)
      fun _ _ hd => hd).trans (subGroups_lastSingleItemTaint hs)
    have hmul := (multiplier_lastSingleItemTaint hs).trans (multiplier_clean s)
    exact iff_of_true ⟨hlevel.clean hsub hmul, hbelow⟩
      (keepsSum_group (ht.ne (by decide)) (ht.ne (by decide)))
  | @multiplierEnd g s rest ht =>
    exact (balanced_multiplierEnd_iff hstate).trans ⟨fun hlt _ => hlt, fun hkeeps => hkeeps ht⟩
  | @multiplierDigit g s rest ht =>
    obtain ⟨hlevel, hbelow⟩ := hstate
    refine iff_of_true ⟨⟨hlevel.sum_eq, hlevel.sum_lt, hlevel.done, hlevel.last⟩, hbelow⟩ ?_
    rintro rfl
    exact absurd ht (by decide)
  | setEnd => exact iff_of_true (balanced_writeLast hstate (data_modifySet _)) trivial
  | setRange => exact iff_of_true hstate trivial
  | setEscaped | setPush | setExtend =>
    exact iff_of_true (balanced_write hstate (data_modifySet _)) trivial
  | repeatEnd => exact iff_of_true (balanced_writeLast hstate fun _ _ hd => hd) trivial
  | repeatComma | repeatDigit | repeatRangeDigit =>
    exact iff_of_true (balanced_write hstate fun _ _ hd => hd) trivial
  | repeatRangeEnd | nameEnd => exact iff_of_true (balanced_close hstate) trivial
  | nameOpen => exact iff_of_true hstate trivial
  | namePush => exact iff_of_true (balanced_write hstate (data_modifySpecial _)) trivial

/-! ## Runs -/

/-- Every step of the run over `tokens` keeps the sums right. -/
def RunKeepsSum : List ℕ → List ParserState → Prop
  | [], _ => True
  | t :: ts, state =>
    KeepsSum t state ∧ (parseState t state).elim True (RunKeepsSum ts)

instance decidableRunKeepsSum : ∀ tokens state, Decidable (RunKeepsSum tokens state)
  | [], _ => isTrue trivial
  | t :: ts, state =>
    have : Decidable ((parseState t state).elim True (RunKeepsSum ts)) :=
      match parseState t state with
      | none => isTrue trivial
      | some state' => decidableRunKeepsSum ts state'
    inferInstanceAs (Decidable (_ ∧ _))

/-- The sums are right in every state of the run over `tokens`. -/
def RunBalanced (tokens : List ℕ) (state : List ParserState) : Prop :=
  ∀ before after state', tokens = before ++ after → parseStates before state = some state' →
    Balanced state'

theorem runKeepsSum_iff (tokens : List ℕ) (state : List ParserState) :
    RunKeepsSum tokens state ↔ RunSteps KeepsSum tokens state := by
  induction tokens generalizing state with
  | nil => exact Iff.rfl
  | cons t ts ih =>
    rw [RunKeepsSum, RunSteps]
    cases parseState t state with
    | none => exact Iff.rfl
    | some next => exact and_congr_right fun _ => ih next

/-- **The run lemma**: the sums are right in every state exactly when every step keeps them. -/
theorem runBalanced_iff {tokens : List ℕ} {state last : List ParserState} (hstate : Balanced state)
    (hrun : parseStates tokens state = some last) :
    RunBalanced tokens state ↔ RunKeepsSum tokens state := by
  rw [runKeepsSum_iff]
  exact runHolds_iff (fun t _ _ h ht => balanced_step_iff h (step_of_parseState ht)) hstate hrun

/-- A finished pattern whose sums are right is exact in every group. -/
theorem exact_of_finish {state : List ParserState} {g : Group} (hstate : Balanced state)
    (hfinish : finish state = some g) (h : Group) (hcontains : g.Contains h) : Exact h := by
  obtain ⟨group, segment, rfl, rfl⟩ := finish_eq_some_iff.mp hfinish
  obtain ⟨hlevel, -⟩ := hstate
  refine Group.forall_contains_iff.mpr ⟨?_, fun s hs => ?_⟩ h hcontains
  · rw [Exact, totalMultiplier_append, totalMultiplier_singleton, multiplier_clean]
    exact hlevel.sum_eq
  · rcases List.mem_append.mp hs with hmem | hmem
    · exact hlevel.done s hmem
    · rw [List.mem_singleton.mp hmem]
      exact hlevel.last

/-- **`multiplier_sum` of an accepted pattern.**  The sums are right in every state of the parse
exactly when every step keeps them, and then every group of the pattern has the sum of its
multipliers, and its segments are chosen by it. -/
theorem exact_of_runKeepsSum {string : List UInt8} {g : Group} (hparse : parse string = .ok g) :
    (RunBalanced (patternTokens string) parserInit.state ↔
        RunKeepsSum (patternTokens string) parserInit.state) ∧
      (RunKeepsSum (patternTokens string) parserInit.state →
        ∀ h, g.Contains h → Exact h ∧ Selectable h) := by
  obtain ⟨state, hrun, hfinish⟩ := parse_run hparse
  have hiff := runBalanced_iff balanced_parserInit hrun
  refine ⟨hiff, fun hkeeps h hcontains => ?_⟩
  have hstate := hiff.mpr hkeeps (patternTokens string) [] state (by simp) hrun
  have hexact := exact_of_finish hstate hfinish h hcontains
  exact ⟨hexact, hexact.selectable⟩

/-- The pattern `{2}a|b`. -/
def weightedPair : Group :=
  ⟨[⟨[.init (.literal ⟨[97], false⟩)], 2⟩, ⟨[.init (.literal ⟨[98], false⟩)], 1⟩], 3⟩

theorem exact_weightedPair : Exact weightedPair ∧ Selectable weightedPair :=
  (@exact_of_runKeepsSum (ascii "{2}a|b") _ rfl).2 (by decide) _ (.root _)

/-- **A bar after a segment of multiplier zero** leaves the next segment out of the sum: nothing can
be generated from this pattern. -/
theorem not_exact_recycled :
    ¬∀ (string : List UInt8) (g : Group), parse string = .ok g → ∀ h, g.Contains h →
      Exact h ∨ h.multiplierSum = 0 ∧ ∀ s ∈ h.segments, s.items = [] := by
  intro h
  have hparse : parse (ascii "{0}a|b") = .ok ⟨[⟨[.init (.literal ⟨[98], false⟩)], 1⟩], 0⟩ := rfl
  rcases h _ _ hparse _ (.root _) with hexact | ⟨-, hempty⟩
  · exact absurd hexact (Nat.zero_ne_one)
  · exact absurd (hempty _ List.mem_cons_self) (List.cons_ne_nil _ _)

end Passgen
