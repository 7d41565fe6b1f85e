import Mathlib.Data.List.Basic
import Mathlib.Tactic.Common
import Passgen.Pattern.Fold
import Passgen.Weighted.Pick

/-!
# Generate/Choose — the segment a draw chooses

The loop of `passgen_generate_group` is a choice by weight: below the sum of the multipliers it
never leaves the segments, and it reaches every segment with a positive one.
-/

namespace Passgen

variable {ι : Type}

/-- The selection loop of `passgen_generate_group`: `segment_index` and the segment it stops at;
`none` when it walks past the last one. -/
def chooseSegment : List (SegmentOf ι) → ℕ → Option (ℕ × SegmentOf ι)
  | [], _ => none
  | segment :: segments, choice =>
    if choice ≥ segment.multiplier then
      (chooseSegment segments (choice - segment.multiplier)).map fun p => (p.1 + 1, p.2)
    else some (0, segment)

/-- The multipliers of segments added up. -/
def totalMultiplier (segments : List (SegmentOf ι)) : ℕ :=
  (segments.map SegmentOf.multiplier).sum

@[simp] theorem totalMultiplier_append (ss ts : List (SegmentOf ι)) :
    totalMultiplier (ss ++ ts) = totalMultiplier ss + totalMultiplier ts := by
  rw [totalMultiplier, List.map_append, List.sum_append]
  rfl

@[simp] theorem totalMultiplier_singleton (s : SegmentOf ι) :
    totalMultiplier [s] = s.multiplier := by
  simp [totalMultiplier]

@[simp] theorem totalMultiplier_map {κ : Type} (f : ι → κ) (segments : List (SegmentOf ι)) :
    totalMultiplier (segments.map (SegmentOf.map f)) = totalMultiplier segments := by
  rw [totalMultiplier, List.map_map]
  rfl

/-- **The loop picks by multiplier.** -/
theorem chooseSegment_eq (segments : List (SegmentOf ι)) (choice : ℕ) :
    chooseSegment segments choice =
      (Weighted.pick (segments.map SegmentOf.multiplier) choice).bind fun p =>
        segments[p.1]?.map fun segment => (p.1, segment) := by
  induction segments generalizing choice with
  | nil => rfl
  | cons segment segments ih =>
    rw [chooseSegment, List.map_cons, Weighted.pick]
    by_cases h : choice < segment.multiplier
    · rw [if_neg (not_le.mpr h), if_pos h]
      rfl
    · rw [if_pos (not_lt.mp h), if_neg h, ih]
      cases Weighted.pick (segments.map SegmentOf.multiplier) (choice - segment.multiplier) with
      | none => rfl
      | some p =>
        simp only [Option.bind_some, Option.map_some, List.getElem?_cons_succ, Option.map_map]
        rfl

/-- The index of the segment is that of the multiplier the choice falls into. -/
theorem map_fst_chooseSegment (segments : List (SegmentOf ι)) (choice : ℕ) :
    (chooseSegment segments choice).map Prod.fst
      = (Weighted.pick (segments.map SegmentOf.multiplier) choice).map Prod.fst := by
  rw [chooseSegment_eq]
  cases hpick : Weighted.pick (segments.map SegmentOf.multiplier) choice with
  | none => rfl
  | some p =>
    obtain ⟨hi, -, -⟩ := Weighted.pick_eq_some_iff.mp hpick
    rw [List.length_map] at hi
    rw [Option.bind_some, List.getElem?_eq_getElem hi]
    rfl

/-- **Which draws choose a segment.** -/
theorem chooseSegment_eq_some_iff {segments : List (SegmentOf ι)} {choice i : ℕ}
    {segment : SegmentOf ι} :
    chooseSegment segments choice = some (i, segment) ↔
      segments[i]? = some segment ∧ totalMultiplier (segments.take i) ≤ choice ∧
        choice < totalMultiplier (segments.take i) + segment.multiplier := by
  rw [chooseSegment_eq, Option.bind_eq_some_iff, totalMultiplier, List.map_take]
  constructor
  · rintro ⟨⟨j, r⟩, hpick, hsome⟩
    obtain ⟨s, hs, hpair⟩ := Option.map_eq_some_iff.mp hsome
    obtain ⟨rfl, rfl⟩ : j = i ∧ s = segment := by simpa using hpair
    obtain ⟨hj, hr, rfl⟩ := Weighted.pick_eq_some_iff.mp hpick
    obtain ⟨hj', hget⟩ := List.getElem?_eq_some_iff.mp hs
    rw [List.getElem_map, hget] at hr
    exact ⟨hs, Nat.le_add_right _ _, by omega⟩
  · rintro ⟨hs, hle, hlt⟩
    obtain ⟨hi, hget⟩ := List.getElem?_eq_some_iff.mp hs
    refine ⟨(i, choice - ((segments.map SegmentOf.multiplier).take i).sum), ?_, by rw [hs]; rfl⟩
    refine Weighted.pick_eq_some_iff.mpr ⟨by simpa using hi, ?_, by omega⟩
    rw [List.getElem_map, hget]
    omega

/-- **The loop stops at a segment exactly below the sum of the multipliers.** -/
theorem exists_chooseSegment_iff {segments : List (SegmentOf ι)} {choice : ℕ} :
    (∃ i segment, chooseSegment segments choice = some (i, segment)) ↔
      choice < totalMultiplier segments := by
  rw [totalMultiplier, ← Weighted.exists_pick_iff, chooseSegment_eq]
  constructor
  · rintro ⟨i, segment, h⟩
    obtain ⟨p, hp, -⟩ := Option.bind_eq_some_iff.mp h
    exact ⟨p.1, p.2, hp⟩
  · rintro ⟨i, r, h⟩
    obtain ⟨hi, -, -⟩ := Weighted.pick_eq_some_iff.mp h
    have hi' : i < segments.length := by simpa using hi
    exact ⟨i, segments[i], by rw [h, Option.bind_some, List.getElem?_eq_getElem hi']; rfl⟩

/-- **A segment with a positive multiplier can be chosen.** -/
theorem exists_choice_of_pos {segments : List (SegmentOf ι)} {i : ℕ} {segment : SegmentOf ι}
    (hi : segments[i]? = some segment) (hpos : 0 < segment.multiplier) :
    ∃ choice < totalMultiplier segments, chooseSegment segments choice = some (i, segment) := by
  have h : chooseSegment segments (totalMultiplier (segments.take i)) = some (i, segment) :=
    chooseSegment_eq_some_iff.mpr ⟨hi, le_rfl, by omega⟩
  exact ⟨_, exists_chooseSegment_iff.mp ⟨i, segment, h⟩, h⟩

end Passgen
