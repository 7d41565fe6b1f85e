import Mathlib.Algebra.BigOperators.Group.Finset.Basic
import Mathlib.Data.Set.Card
import Passgen.Weighted.Pick

/-!
# Weighted/Select — drawing by weight is exact

    draws    0 1 2 3 4 5          weight of a   4
    slots    a a b a a c          weight of b   1

A selection is exact when every draw below the total selects something, and each thing is selected
by as many draws as it weighs.  Picking from a list of weights is, whatever names its entries are
given; and when a draw is told apart by how far it falls into its weight, picking is a bijection.
-/

namespace Weighted

variable {κ : Type}

/-- Every draw below the total selects, and what it selects is drawn as often as it weighs. -/
structure Selects [DecidableEq κ] (select : ℕ → Option κ) (total : ℕ) (weight : κ → ℕ) : Prop where
  complete : ∀ d < total, (select d).isSome
  card_eq : ∀ k, ((Finset.range total).filter fun d => select d = some k).card = weight k

/-- **Picking is exact**: what several entries stand for weighs what they weigh together. -/
theorem selects_pick [DecidableEq κ] (ws : List ℕ) (label : ℕ → κ) :
    Selects (fun d => (pick ws d).map fun p => label p.1) ws.sum
      fun k => ∑ i ∈ (Finset.range ws.length).filter fun i => label i = k, ws.getD i 0 where
  complete d hd := by
    obtain ⟨i, r, hpick⟩ := exists_pick_iff.mpr hd
    simp only [hpick, Option.map_some, Option.isSome_some]
  card_eq k := by
    have hmaps : Set.MapsTo (fun d => ((pick ws d).map Prod.fst).getD 0)
        ((Finset.range ws.sum).filter fun d => ((pick ws d).map fun p => label p.1) = some k)
        ((Finset.range ws.length).filter fun i => label i = k) := by
      intro d hd
      obtain ⟨-, hselect⟩ := Finset.mem_filter.mp hd
      obtain ⟨⟨i, r⟩, hpick, hlabel⟩ := Option.map_eq_some_iff.mp hselect
      obtain ⟨hi, -, -⟩ := pick_eq_some_iff.mp hpick
      simp only [hpick, Option.map_some, Option.getD_some, Finset.coe_filter, Set.mem_ofPred_eq,
        Finset.mem_range]
      exact ⟨hi, hlabel⟩
    rw [Finset.card_eq_sum_card_fiberwise hmaps]
    refine Finset.sum_congr rfl fun i hi => ?_
    obtain ⟨hi, hlabel⟩ := Finset.mem_filter.mp hi
    have hlt := Finset.mem_range.mp hi
    have hfiber : ((Finset.range ws.sum).filter
          fun d => ((pick ws d).map fun p => label p.1) = some k).filter
          (fun d => ((pick ws d).map Prod.fst).getD 0 = i)
        = (Finset.range ws.sum).filter fun d => (pick ws d).map Prod.fst = some i := by
      ext d
      simp only [Finset.mem_filter, Finset.mem_range, and_assoc]
      refine and_congr_right fun hd => ?_
      obtain ⟨j, r, hpick⟩ := exists_pick_iff.mpr hd
      simp only [hpick, Option.map_some, Option.getD_some, Option.some.injEq]
      exact ⟨fun h => h.2, fun h => ⟨h ▸ hlabel, h⟩⟩
    have hle : (ws.take i).sum + ws[i] ≤ ws.sum := by
      rw [← List.sum_take_succ _ _ hlt]
      exact (List.take_sublist _ _).sum_le_sum fun _ _ => Nat.zero_le _
    rw [hfiber, card_pick hlt, List.getD_eq_getElem _ _ hlt]
    omega

/-- **The weights add up to the total.** -/
theorem Selects.sum_eq [DecidableEq κ] {select : ℕ → Option κ} {total : ℕ} {weight : κ → ℕ}
    (h : Selects select total weight) {s : Finset κ} (hs : ∀ k ∉ s, weight k = 0) :
    ∑ k ∈ s, weight k = total := by
  have hmaps : ∀ d ∈ Finset.range total, select d ∈ s.map Function.Embedding.some := by
    intro d hd
    obtain ⟨k, hk⟩ := Option.isSome_iff_exists.mp (h.complete d (Finset.mem_range.mp hd))
    rw [hk, Finset.mem_map]
    refine ⟨k, ?_, rfl⟩
    by_contra hnot
    have hcard := Finset.card_eq_zero.mp ((h.card_eq k).trans (hs k hnot))
    exact Finset.notMem_empty d (hcard ▸ Finset.mem_filter.mpr ⟨hd, hk⟩)
  have hcard := Finset.card_eq_sum_card_fiberwise hmaps
  rw [Finset.card_range, Finset.sum_map] at hcard
  rw [hcard]
  exact Finset.sum_congr rfl fun k _ => (h.card_eq k).symm

/-! ## Draws and places -/

/-- The entries, and how far into each a draw can fall. -/
def places (ws : List ℕ) : Set (ℕ × ℕ) := {p | ∃ h : p.1 < ws.length, p.2 < ws[p.1]}

/-- **Draws and places are in bijection**, and with whatever names the places have. -/
theorem bijOn_places {ws : List ℕ} {f : ℕ → κ} {label : ℕ × ℕ → κ}
    (hf : ∀ d p, pick ws d = some p → f d = label p) (hlabel : Set.InjOn label (places ws)) :
    Set.BijOn f (Set.Iio ws.sum) (label '' places ws) := by
  have hplace : ∀ {d p}, pick ws d = some p → p ∈ places ws := by
    intro d p hpick
    obtain ⟨hi, hr, -⟩ := pick_eq_some_iff.mp hpick
    exact ⟨hi, hr⟩
  refine ⟨fun d hd => ?_, fun d hd d' hd' heq => ?_, ?_⟩
  · obtain ⟨i, r, hpick⟩ := exists_pick_iff.mpr hd
    exact ⟨(i, r), hplace hpick, (hf d _ hpick).symm⟩
  · obtain ⟨i, r, hpick⟩ := exists_pick_iff.mpr hd
    obtain ⟨i', r', hpick'⟩ := exists_pick_iff.mpr hd'
    rw [hf d _ hpick, hf d' _ hpick'] at heq
    obtain ⟨rfl, rfl⟩ := Prod.mk.inj (hlabel (hplace hpick) (hplace hpick') heq)
    obtain ⟨_, _, rfl⟩ := pick_eq_some_iff.mp hpick
    obtain ⟨_, _, rfl⟩ := pick_eq_some_iff.mp hpick'
    rfl
  · rintro _ ⟨⟨i, r⟩, ⟨hi, hr⟩, rfl⟩
    have hpick : pick ws ((ws.take i).sum + r) = some (i, r) := pick_eq_some_iff.mpr ⟨hi, hr, rfl⟩
    exact ⟨_, sum_take_add_lt hi hr, hf _ _ hpick⟩

/-- Only one number of draws is in bijection with a set. -/
theorem bijOn_Iio_unique {f g : ℕ → κ} {m n : ℕ} {s : Set κ} (hf : Set.BijOn f (Set.Iio m) s)
    (hg : Set.BijOn g (Set.Iio n) s) : m = n := by
  have hcard : ∀ k : ℕ, (Set.Iio k).ncard = k := fun k => by
    rw [Set.ncard_eq_toFinset_card', Set.toFinset_Iio, Nat.card_Iio]
  rw [← hcard m, hf.ncard_eq, ← hg.ncard_eq, hcard]

end Weighted
