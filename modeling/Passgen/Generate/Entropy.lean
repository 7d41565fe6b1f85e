import Mathlib.Algebra.Order.Field.Rat
import Mathlib.Data.Finset.Card
import Mathlib.Data.List.Basic
import Mathlib.Tactic.Common
import Mathlib.Tactic.FieldSimp
import Mathlib.Tactic.Positivity
import Passgen.Generate.Draws
import Passgen.Parser.Run

/-!
# Generate/Entropy — the entropy of a run

    entropy = Π bound / weight        surprise = Π bound / ways

The code divides by the weight of a choice, the probability counts the draws with the same outcome.
These differ for a maybe, which the code leaves out, and for a segment that lies in part past
`multiplier_sum`; nowhere else.
-/

namespace Passgen

/-! ## Probabilities -/

/-- What a choice decides at its place: a number of copies, a segment, a codepoint of the chain, or
itself. -/
def Site.outcome : Site → ℕ → Option ℕ
  | .rep r, choice => some (sizeT (r.min + choice))
  | .segment multipliers, choice => (Weighted.pick multipliers choice).map Prod.fst
  | .markov leaf, choice => (leafChoose leaf (List.range leaf.capacity) choice).map Prod.fst
  | _, choice => some choice

/-- The number of choices with the same outcome. -/
def Site.ways (site : Site) (bound choice : ℕ) : ℕ :=
  ((Finset.range bound).filter fun c => site.outcome c = site.outcome choice).card

/-- The probability of the outcome of a draw, every choice below the bound being as likely. -/
def Draw.probability (draw : Draw) : ℚ :=
  (draw.taken.map fun choice => draw.site.ways draw.bound choice).getD 0 / draw.bound

/-- The draw is accounted for: it is no maybe, and a segment it chooses lies below the bound. -/
def Draw.Counted (draw : Draw) : Prop :=
  match draw.site, draw.taken with
  | .maybe, _ => False
  | .segment multipliers, some choice =>
    ∀ i r, Weighted.pick multipliers choice = some (i, r) →
      (multipliers.take (i + 1)).sum ≤ draw.bound
  | _, _ => True

/-- Where no two choices have one outcome, there is one way. -/
theorem ways_eq_one {site : Site} {bound choice : ℕ} (hlt : choice < bound)
    (hinj : ∀ c < bound, site.outcome c = site.outcome choice → c = choice) :
    site.ways bound choice = 1 := by
  rw [Site.ways, Finset.card_eq_one]
  refine ⟨choice, Finset.ext fun c => ?_⟩
  rw [Finset.mem_filter, Finset.mem_range, Finset.mem_singleton]
  exact ⟨fun ⟨hc, heq⟩ => hinj c hc heq, by rintro rfl; exact ⟨hlt, rfl⟩⟩

/-- The ways to choose a segment are its multiplier, as far as it lies below the bound. -/
theorem ways_segment {multipliers : List ℕ} {choice i r : ℕ}
    (hpick : Weighted.pick multipliers choice = some (i, r)) (bound : ℕ) :
    ∃ hi : i < multipliers.length, Site.weight (.segment multipliers) choice = multipliers[i] ∧
      Site.ways (.segment multipliers) bound choice
        = min multipliers[i] (bound - (multipliers.take i).sum) := by
  obtain ⟨hi, -, -⟩ := Weighted.pick_eq_some_iff.mp hpick
  refine ⟨hi, ?_, ?_⟩
  · rw [Site.weight, hpick, Option.bind_some, List.getElem?_eq_getElem hi]
    rfl
  · rw [Site.ways, ← Weighted.card_pick hi bound]
    simp only [Site.outcome, hpick, Option.map_some]

/-- The codepoint a choice leads to is that of the slot it falls into. -/
theorem outcome_markov (leaf : Leaf) (choice : ℕ) :
    Site.outcome (.markov leaf) choice
      = (Weighted.pick ((List.range leaf.capacity).map leaf.count) choice).map
          fun p => leaf.codepoint p.1 :=
  map_fst_leafChoose leaf choice

/-- **The ways to choose a codepoint are its count.** -/
theorem ways_markov {k : ℕ} {leaf : Leaf} (hleaf : leaf.Live k) {choice : ℕ}
    (hpos : 0 < Site.weight (.markov leaf) choice) :
    Site.ways (.markov leaf) leaf.totalCount choice = Site.weight (.markov leaf) choice := by
  let counts := (List.range leaf.capacity).map leaf.count
  have hplaced : ∀ {c j r : ℕ}, Weighted.pick counts c = some (j, r) →
      ∃ hj : j < counts.length, counts[j] = leaf.count j ∧
        leaf.codepoint j % leaf.capacity = j := by
    intro c j r hpick
    obtain ⟨hj, hr, -⟩ := Weighted.pick_eq_some_iff.mp hpick
    have hcount : counts[j] = leaf.count j := by
      rw [List.getElem_map, List.getElem_range]
    exact ⟨hj, hcount, hleaf.1.placed j (by omega)⟩
  cases hpick : Weighted.pick counts choice with
  | none =>
    have hnone : leafChoose leaf (List.range leaf.capacity) choice = none := by
      rw [leafChoose_eq, hpick, Option.bind_none]
    rw [weight_markov.1 hnone] at hpos
    exact absurd hpos (Nat.lt_irrefl 0)
  | some p =>
    obtain ⟨i, r⟩ := p
    obtain ⟨hi, hcount, hslot⟩ := hplaced hpick
    have hchoose : leafChoose leaf (List.range leaf.capacity) choice
        = some (leaf.codepoint i, leaf.count i) := by
      rw [List.length_map, List.length_range] at hi
      rw [leafChoose_eq, hpick, Option.bind_some, List.getElem?_range hi]
      rfl
    have hsame : ∀ c, Site.outcome (.markov leaf) c = Site.outcome (.markov leaf) choice ↔
        (Weighted.pick counts c).map Prod.fst = some i := by
      intro c
      rw [outcome_markov, outcome_markov, hpick, Option.map_some, Option.map_eq_some_iff,
        Option.map_eq_some_iff]
      constructor
      · rintro ⟨⟨j, r'⟩, hc, hcodepoint⟩
        obtain ⟨-, -, hj⟩ := hplaced hc
        exact ⟨(j, r'), hc, by rw [← hj, hcodepoint, hslot]⟩
      · rintro ⟨⟨j, r'⟩, hc, rfl⟩
        exact ⟨(j, r'), hc, rfl⟩
    have hbelow : (counts.take (i + 1)).sum ≤ leaf.totalCount :=
      ((List.take_sublist _ _).sum_le_sum fun _ _ => Nat.zero_le _).trans hleaf.1.sum_le
    rw [List.sum_take_succ _ _ hi, hcount] at hbelow
    rw [(weight_markov.2 _ _ hchoose).1, Site.ways]
    simp only [hsame]
    rw [Weighted.card_pick hi, hcount]
    omega

/-- The ways to choose a segment are its multiplier, unless the bound cuts it short. -/
theorem ways_segment_le {multipliers : List ℕ} {bound choice : ℕ} (hlt : choice < bound)
    (hpos : 0 < Site.weight (.segment multipliers) choice) :
    0 < Site.ways (.segment multipliers) bound choice ∧
      Site.ways (.segment multipliers) bound choice ≤ Site.weight (.segment multipliers) choice ∧
      (Site.ways (.segment multipliers) bound choice = Site.weight (.segment multipliers) choice ↔
        Draw.Counted ⟨.segment multipliers, bound, some choice⟩) := by
  cases hpick : Weighted.pick multipliers choice with
  | none =>
    have hzero : Site.weight (.segment multipliers) choice = 0 := by
      rw [Site.weight, hpick]
      rfl
    simp only [hzero] at hpos
    exact absurd hpos (Nat.lt_irrefl 0)
  | some p =>
    obtain ⟨hi, hweight, hways⟩ := ways_segment hpick bound
    obtain ⟨-, hr, hchoice⟩ := Weighted.pick_eq_some_iff.mp hpick
    have hcounted : Draw.Counted ⟨.segment multipliers, bound, some choice⟩ ↔
        (multipliers.take (p.1 + 1)).sum ≤ bound := by
      constructor
      · exact fun h => h p.1 p.2 hpick
      · intro h i r hpick'
        obtain ⟨rfl, -⟩ := Prod.mk.inj (Option.some.inj (hpick.symm.trans hpick'))
        exact h
    simp only [hcounted, hweight, hways, List.sum_take_succ _ _ hi]
    omega

/-- **No outcome has more ways than its weight**, and it has as many exactly when it is counted. -/
theorem ways_le_weight {S : Site → ℕ → Prop} {draw : Draw} (hlawful : draw.Lawful S) {choice : ℕ}
    (htaken : draw.taken = some choice) (hpos : 0 < draw.site.weight choice) :
    0 < draw.site.ways draw.bound choice ∧
      draw.site.ways draw.bound choice ≤ draw.site.weight choice ∧
      (draw.site.ways draw.bound choice = draw.site.weight choice ↔ draw.Counted) := by
  obtain ⟨site, bound, taken⟩ := draw
  obtain rfl : taken = some choice := htaken
  obtain ⟨hasks, htaken⟩ := hlawful
  have hlt : choice < bound := htaken choice rfl
  simp only at hasks hpos ⊢
  have hself : ∀ {site : Site}, (∀ c < bound, site.outcome c = site.outcome choice → c = choice) →
      site.weight choice = 1 → Draw.Counted ⟨site, bound, some choice⟩ →
      0 < site.ways bound choice ∧ site.ways bound choice ≤ site.weight choice ∧
        (site.ways bound choice = site.weight choice ↔
          Draw.Counted ⟨site, bound, some choice⟩) := by
    intro site hinj hweight hcounted
    rw [ways_eq_one hlt hinj, hweight]
    exact ⟨Nat.one_pos, le_rfl, iff_of_true rfl hcounted⟩
  have hid : ∀ c < bound, some c = some choice → c = choice := fun c _ => Option.some.inj
  cases site with
  | maybe =>
    have hways : Site.ways .maybe bound choice = 1 := ways_eq_one hlt hid
    have hweight : Site.weight .maybe choice = 2 := rfl
    rw [hways, hweight]
    exact ⟨Nat.one_pos, by decide, iff_of_false (by decide) id⟩
  | rep rep =>
    refine hself (fun c hc heq => ?_) rfl trivial
    have hbound : bound ≤ 2 ^ 64 := hasks.2 ▸ (sizeT_lt _).le
    have hmod := Option.some.inj heq
    rw [sizeT, sizeT] at hmod
    omega
  | set set => exact hself hid rfl trivial
  | word words => exact hself hid rfl trivial
  | markov leaf =>
    obtain ⟨⟨k, -, hleaf⟩, rfl⟩ := hasks
    have hways := ways_markov hleaf hpos
    exact ⟨hways ▸ hpos, hways.le, iff_of_true hways trivial⟩
  | segment multipliers => exact ways_segment_le hlt hpos

/-! ## The entropy of a run -/

/-- Factors that are at most others have their product only when they are the others. -/
theorem prod_eq_prod_iff {ι : Type} {l : List ι} {f g : ι → ℚ}
    (h : ∀ i ∈ l, 0 < f i ∧ f i ≤ g i) :
    (l.map f).prod = (l.map g).prod ↔ ∀ i ∈ l, f i = g i := by
  have hle : ∀ {l : List ι}, (∀ i ∈ l, 0 < f i ∧ f i ≤ g i) →
      0 < (l.map f).prod ∧ (l.map f).prod ≤ (l.map g).prod := by
    intro l h
    induction l with
    | nil => simp
    | cons i l ih =>
      obtain ⟨hpos, hi⟩ := h i List.mem_cons_self
      obtain ⟨hprod, hprodLe⟩ := ih fun j hj => h j (List.mem_cons_of_mem i hj)
      rw [List.map_cons, List.map_cons, List.prod_cons, List.prod_cons]
      exact ⟨mul_pos hpos hprod, mul_le_mul hi hprodLe hprod.le (hpos.le.trans hi)⟩
  induction l with
  | nil => simp
  | cons i l ih =>
    obtain ⟨hpos, hi⟩ := h i List.mem_cons_self
    have htail : ∀ j ∈ l, 0 < f j ∧ f j ≤ g j := fun j hj => h j (List.mem_cons_of_mem i hj)
    obtain ⟨hprod, hprodLe⟩ := hle htail
    have hiff := ih htail
    rw [List.map_cons, List.map_cons, List.prod_cons, List.prod_cons, List.forall_mem_cons]
    constructor
    · intro heq
      have hfirst : f i = g i := by
        by_contra hne
        have hlt : f i * (l.map f).prod < g i * (l.map g).prod :=
          mul_lt_mul (lt_of_le_of_ne hi hne) hprodLe hprod (hpos.le.trans hi)
        exact absurd heq hlt.ne
      rw [hfirst] at heq
      exact ⟨hfirst, hiff.mp (mul_left_cancel₀ (hpos.trans_le hi).ne' heq)⟩
    · rintro ⟨hfirst, hrest⟩
      rw [hfirst, hiff.mpr hrest]

/-- The factor of a draw is at most the surprise at its outcome, and equal to it exactly when the
draw is counted. -/
theorem factor_le_surprise {S : Site → ℕ → Prop} {draw : Draw} (hlawful : draw.Lawful S)
    (hsettled : draw.Settled) :
    (0 < draw.factor ∧ draw.factor ≤ 1 / draw.probability) ∧
      (draw.factor = 1 / draw.probability ↔ draw.Counted) := by
  obtain ⟨choice, htaken, hweight⟩ := hsettled
  obtain ⟨hways, hle, hiff⟩ := ways_le_weight hlawful htaken hweight
  have hbound : (0 : ℚ) < draw.bound :=
    Nat.cast_pos.mpr (Nat.zero_lt_of_lt (hlawful.taken choice htaken))
  have hways' : (0 : ℚ) < draw.site.ways draw.bound choice := Nat.cast_pos.mpr hways
  have hweight' : (0 : ℚ) < draw.site.weight choice := Nat.cast_pos.mpr hweight
  have hfactor : draw.factor = draw.bound / draw.site.weight choice := by
    rw [Draw.factor, htaken, Option.map_some, Option.getD_some]
  have hsurprise : 1 / draw.probability = draw.bound / draw.site.ways draw.bound choice := by
    rw [Draw.probability, htaken, Option.map_some, Option.getD_some, one_div_div]
  rw [hfactor, hsurprise, ← hiff]
  refine ⟨⟨div_pos hbound hweight', ?_⟩, ?_⟩
  · exact div_le_div_of_nonneg_left hbound.le hways' (Nat.cast_le.mpr hle)
  · rw [div_eq_div_iff hweight'.ne' hways'.ne', mul_right_inj' hbound.ne', Nat.cast_inj]

/-- A place that is accounted for whatever is drawn. -/
def Site.Plain : Site → ℕ → Prop
  | .maybe, _ => False
  | .segment ms, bound => ms.sum ≤ bound
  | _, _ => True

/-- Draws at plain places are counted. -/
theorem Draw.Lawful.counted {draw : Draw} (h : draw.Lawful Site.Plain) : draw.Counted := by
  obtain ⟨site, bound, taken⟩ := draw
  obtain ⟨hasks, -⟩ := h
  cases site with
  | maybe => exact hasks.1
  | segment multipliers =>
    cases taken with
    | none => trivial
    | some choice =>
      intro i r _
      exact ((List.take_sublist _ _).sum_le_sum fun _ _ => Nat.zero_le _).trans hasks.1
  | _ => trivial

/-- Whatever holds of all places holds of those of an item. -/
theorem Item.offers_all {S : Site → ℕ → Prop} (hS : ∀ site bound, S site bound) (item : Item) :
    item.Offers S := by
  induction item using Item.induct with
  | mk data rep maybe ih =>
    refine Item.offers_mk.mpr ⟨?_, hS _ _, fun _ => hS _ _⟩
    cases data with
    | set set => exact fun _ _ => hS _ _
    | group group => exact Group.offers_iff.mpr ⟨hS _ _, ih⟩
    | _ => trivial

section Run

variable {S : Site → ℕ → Prop} {pattern : Group} {σ δ : Type} {host : Host σ δ} {random : σ}
  {data : δ} {depthLimit : ℕ} {wordlists : List (List UInt8 × Wordlist)} {t : GenState σ δ}

/-- The entropy is the product of the factors of the draws. -/
theorem entropy_of_returns (hoffers : pattern.Offers S) (hloaded : ∀ p ∈ wordlists, p.2.Loaded)
    (hrun : Effect.Returns (generate host pattern)
      (GenState.init random data depthLimit true wordlists) () t) :
    t.entropy = some (t.draws.map Draw.factor).prod ∧ ∀ d ∈ t.draws, d.Lawful S ∧ d.Settled := by
  obtain ⟨new, h⟩ := (holds_generate hoffers _).returns hrun hloaded
  have hdraws : t.draws = new := h.draws.trans (List.nil_append new)
  refine ⟨?_, hdraws ▸ h.lawful⟩
  rw [hdraws, h.entropy, one_mul]
  exact congrArg some (one_mul _)

/-- The product of the factors is that of the surprises exactly when every draw is counted. -/
theorem prod_factor_eq_iff {draws : List Draw} (h : ∀ d ∈ draws, d.Lawful S ∧ d.Settled) :
    (draws.map Draw.factor).prod = (draws.map fun draw => 1 / draw.probability).prod ↔
      ∀ draw ∈ draws, draw.Counted := by
  have hfactors : ∀ d ∈ draws, (0 < d.factor ∧ d.factor ≤ 1 / d.probability) ∧
      (d.factor = 1 / d.probability ↔ d.Counted) :=
    fun d hd => factor_le_surprise (h d hd).1 (h d hd).2
  rw [prod_eq_prod_iff fun d hd => (hfactors d hd).1]
  exact forall₂_congr fun d hd => (hfactors d hd).2

/-- **Without maybes, and with every segment within reach, the entropy is right in every successful
run.** -/
theorem entropy_eq (hpattern : pattern.Offers Site.Plain) (hloaded : ∀ p ∈ wordlists, p.2.Loaded)
    (hrun : Effect.Returns (generate host pattern)
      (GenState.init random data depthLimit true wordlists) () t) :
    t.entropy = some (t.draws.map fun draw => 1 / draw.probability).prod := by
  obtain ⟨hentropy, hdraws⟩ := entropy_of_returns hpattern hloaded hrun
  rw [hentropy, (prod_factor_eq_iff hdraws).mpr fun d hd => (hdraws d hd).1.counted]

/-- **The entropy of a successful run is the reciprocal of its probability exactly when every draw
of it is counted**: no maybe was decided, and no segment chosen that `multiplier_sum` cuts short. -/
theorem entropy_eq_iff (hloaded : ∀ p ∈ wordlists, p.2.Loaded)
    (hrun : Effect.Returns (generate host pattern)
      (GenState.init random data depthLimit true wordlists) () t) :
    t.entropy = some (t.draws.map fun draw => 1 / draw.probability).prod ↔
      ∀ draw ∈ t.draws, draw.Counted := by
  have hoffers : pattern.Offers fun _ _ => True := Group.offers_iff.mpr
    ⟨trivial, fun _ _ item _ => item.offers_all fun _ _ => trivial⟩
  obtain ⟨hentropy, hdraws⟩ := entropy_of_returns hoffers hloaded hrun
  rw [hentropy, Option.some_inj, prod_factor_eq_iff hdraws]

end Run

/-- `[ab]|c`. -/
def choicePattern : Group :=
  ⟨[⟨[.mk (.set ⟨[⟨97, 97⟩, ⟨98, 98⟩], [1, 2]⟩) ⟨1, 1⟩ false], 1⟩,
    ⟨[.mk (.literal ⟨[99], false⟩) ⟨1, 1⟩ false], 1⟩], 2⟩

theorem entropy_choicePattern :
    let t := Effect.final (generate drawHost choicePattern) (GenState.init [0, 1] () 1 true [])
    t.entropy = some (t.draws.map fun draw => 1 / draw.probability).prod ↔
      ∀ draw ∈ t.draws, draw.Counted := by
  have hrun : Effect.Returns (generate drawHost choicePattern) (GenState.init [0, 1] () 1 true [])
      () (Effect.final (generate drawHost choicePattern) (GenState.init [0, 1] () 1 true [])) := rfl
  exact entropy_eq_iff (fun _ h => absurd h List.not_mem_nil) hrun

/-- `a?`, generated as `a`: a maybe was decided, and the entropy is one instead of two. -/
theorem entropy_maybe :
    ∃ pattern, parse (ascii "a?") = .ok pattern ∧
      ∃ t, Effect.Returns (generate drawHost pattern) (GenState.init [0, 1] () 1 true []) () t ∧
        t.emitted = [97] ∧ t.entropy = some 1 ∧
        (t.draws.map fun draw => 1 / draw.probability).prod = 2 := by
  refine ⟨⟨[⟨[.mk (.literal ⟨[97], true⟩) ⟨1, 1⟩ true], 1⟩], 1⟩, rfl, _, rfl, rfl, ?_, ?_⟩
  · decide +kernel
  · decide +kernel

end Passgen
