import Mathlib.Data.List.Basic
import Mathlib.Tactic.Common
import Mathlib.Tactic.NormNum
import Mathlib.Tactic.Positivity
import Passgen.Generate.Law

/-!
# Generate/Surprise — how likely a generated string is

The entropy of a run counts the choices it made.  A string that came out of a run has at least the
probability of these choices, so its surprise is at most what the run reports, and one bit for every
maybe it decided (`surprise_le`).
-/

namespace Passgen

open Chance (concat concatAll oneOf power)
open scoped ENNReal

variable {σ δ : Type} {host : Host σ δ}

/-- A draw that decided a maybe. -/
def Draw.isMaybe (draw : Draw) : Bool :=
  match draw.site with
  | .maybe => true
  | _ => false

/-- The maybes that were decided. -/
def coins (draws : List Draw) : ℕ := draws.countP Draw.isMaybe

/-- The probability of choices that make up `factor`, and of coin flips. -/
noncomputable def share (factor : ℚ) (flips : ℕ) : ℝ≥0∞ :=
  ENNReal.ofReal ((factor * 2 ^ flips : ℚ) : ℝ)⁻¹

theorem share_mul {p : ℚ} (hp : 0 < p) (q : ℚ) (m n : ℕ) :
    share (p * q) (m + n) = share p m * share q n := by
  have hnonneg : (0 : ℝ) ≤ ((p * 2 ^ m : ℚ) : ℝ)⁻¹ := by positivity
  have hsplit : p * q * 2 ^ (m + n) = p * 2 ^ m * (q * 2 ^ n) := by ring
  rw [share, share, share, hsplit, Rat.cast_mul, mul_inv, ENNReal.ofReal_mul hnonneg]

theorem share_div {k n : ℕ} (hk : 0 < k) : share (k / n) 0 = n / k := by
  have hinv : (((k / n : ℚ) * 2 ^ 0 : ℚ) : ℝ)⁻¹ = (n : ℝ) / k := by
    push_cast
    rw [pow_zero, mul_one, inv_div]
  rw [share, hinv, ENNReal.ofReal_div_of_pos (Nat.cast_pos.mpr hk), ENNReal.ofReal_natCast,
    ENNReal.ofReal_natCast]

theorem share_flip : share 1 1 = 1 / 2 := by
  have hinv : ((1 * 2 ^ 1 : ℚ) : ℝ)⁻¹ = 1 / 2 := by norm_num
  rw [share, hinv, ENNReal.ofReal_div_of_pos two_pos, ENNReal.ofReal_one, ENNReal.ofReal_ofNat]

/-- Between `s` and `t` the string `w` was emitted; the entropy was multiplied by `factor`, and
`flips` maybes were decided: together they make up at least the surprise of `w`. -/
structure Surprises (μ : PMF (List ℕ)) (s t : GenState σ δ) (w : List ℕ) (factor : ℚ) (flips : ℕ) :
    Prop where
  emitted : t.emitted = s.emitted ++ w
  entropy : t.entropy = s.entropy.map (· * factor)
  flipped : coins t.draws = coins s.draws + flips
  pos : 0 < factor
  ge : share factor flips ≤ μ w

/-- Every run that returns emits a string that is no more surprising than reported. -/
def Weighs (x : Gen σ δ Unit) (μ : PMF (List ℕ)) : Prop :=
  ∀ s t, Effect.Returns x s () t → ∃ w factor flips, Surprises μ s t w factor flips

/-- What has one choice surprises by nothing. -/
theorem surprises_pure {s t : GenState σ δ} {w : List ℕ} (hemitted : t.emitted = s.emitted ++ w)
    (hentropy : t.entropy = s.entropy) (hdraws : t.draws = s.draws) :
    Surprises (PMF.pure w) s t w 1 0 := by
  refine ⟨hemitted, by simp [hentropy], by rw [hdraws, Nat.add_zero], one_pos, ?_⟩
  simp [share, PMF.pure_apply]

theorem weighs_pure : Weighs (pure () : Gen σ δ Unit) (PMF.pure []) := by
  intro s t h
  obtain ⟨-, rfl⟩ := Effect.returns_pure_iff.mp h
  exact ⟨[], 1, 0, surprises_pure (List.append_nil _).symm rfl rfl⟩

/-- **Surprises add up.** -/
theorem Surprises.trans {μ ν : PMF (List ℕ)} {s t u : GenState σ δ} {v w : List ℕ} {p q : ℚ}
    {m n : ℕ} (h : Surprises μ s t v p m) (h' : Surprises ν t u w q n) :
    Surprises (concat μ ν) s u (v ++ w) (p * q) (m + n) where
  emitted := by rw [h'.emitted, h.emitted, List.append_assoc]
  entropy := by
    rw [h'.entropy, h.entropy, Option.map_map]
    congr 1
    funext e
    rw [Function.comp_apply, mul_assoc]
  flipped := by rw [h'.flipped, h.flipped, Nat.add_assoc]
  pos := mul_pos h.pos h'.pos
  ge := by
    rw [share_mul h.pos]
    exact (mul_le_mul' h.ge h'.ge).trans (Chance.concat_apply_ge μ ν v w)

theorem Weighs.seq {x y : Gen σ δ Unit} {μ ν : PMF (List ℕ)} (hx : Weighs x μ) (hy : Weighs y ν) :
    Weighs (x >>= fun _ => y) (concat μ ν) := by
  intro s u h
  obtain ⟨_, t, ht, hu⟩ := Effect.returns_bind_iff.mp h
  obtain ⟨v, p, m, hv⟩ := hx s t ht
  obtain ⟨w, q, n, hw⟩ := hy t u hu
  exact ⟨v ++ w, p * q, m + n, hv.trans hw⟩

theorem Weighs.times {x : Gen σ δ Unit} {μ : PMF (List ℕ)} (h : Weighs x μ) (n : ℕ) :
    Weighs (Effect.times n x) (power n μ) := by
  induction n with
  | zero => exact weighs_pure
  | succ n ih => exact h.seq ih

theorem weighs_inOrder {items : List Item}
    (h : ∀ item ∈ items, Weighs (item.generate host) item.law) :
    Weighs (Effect.inOrder (items.map (Item.generate host))) (concatAll (items.map Item.law)) := by
  induction items with
  | nil => exact weighs_pure
  | cons item items ih =>
    exact (h item List.mem_cons_self).seq (ih fun i hi => h i (List.mem_cons_of_mem item hi))

/-- **A choice** of which `n` of the members lead on. -/
theorem Surprises.choose {μ : PMF (List ℕ)} {μs : List (PMF (List ℕ))} {n : ℕ} (hn : 0 < n)
    (hsub : (List.replicate n μ).Sublist μs) {s s' t : GenState σ δ} {w : List ℕ} {p : ℚ} {m : ℕ}
    (h : Surprises μ s' t w p m) (hemitted : s'.emitted = s.emitted)
    (hentropy : s'.entropy = s.entropy.map (· * (μs.length / n : ℚ)))
    (hcoins : coins s'.draws = coins s.draws) :
    Surprises (oneOf μs) s t w (μs.length / n * p) m := by
  have hlen : n ≤ μs.length := by
    have hle := hsub.length_le
    rwa [List.length_replicate] at hle
  have hpos : (0 : ℚ) < μs.length / n :=
    div_pos (Nat.cast_pos.mpr (hn.trans_le hlen)) (Nat.cast_pos.mpr hn)
  refine ⟨by rw [h.emitted, hemitted], ?_, by rw [h.flipped, hcoins], mul_pos hpos h.pos, ?_⟩
  · rw [h.entropy, hentropy, Option.map_map]
    congr 1
    funext e
    rw [Function.comp_apply, mul_assoc]
  · have hshare := share_mul hpos p 0 m
    rw [Nat.zero_add, share_div (hn.trans_le hlen)] at hshare
    rw [hshare]
    refine le_trans ?_ (Chance.oneOf_apply_ge hn hsub w)
    rw [ENNReal.mul_div_right_comm]
    exact mul_le_mul' le_rfl h.ge

/-- **A coin flip** between members of a pair. -/
theorem Surprises.flip {μ ν ν' : PMF (List ℕ)} (hmem : μ ∈ [ν, ν']) {s s' t : GenState σ δ}
    {w : List ℕ} {p : ℚ} {m : ℕ} (h : Surprises μ s' t w p m) (hemitted : s'.emitted = s.emitted)
    (hentropy : s'.entropy = s.entropy) (hcoins : coins s'.draws = coins s.draws + 1) :
    Surprises (oneOf [ν, ν']) s t w (1 * p) (1 + m) := by
  refine ⟨by rw [h.emitted, hemitted], ?_, by rw [h.flipped, hcoins, Nat.add_assoc],
    mul_pos one_pos h.pos, ?_⟩
  · rw [h.entropy, hentropy, one_mul]
  · rw [share_mul one_pos, share_flip]
    refine le_trans ?_ (Chance.oneOf_apply_ge Nat.one_pos (List.singleton_sublist.mpr hmem) w)
    rw [Nat.cast_one, ENNReal.mul_div_right_comm]
    exact mul_le_mul' le_rfl h.ge

/-! ## The parts of the generator -/

theorem weighs_emit (codepoint : ℕ) : Weighs (emit host codepoint) (PMF.pure [codepoint]) := by
  intro s t h
  obtain ⟨-, rfl⟩ := returns_emit_iff.mp h
  exact ⟨[codepoint], 1, 0, surprises_pure rfl rfl rfl⟩

theorem weighs_emitAll (codepoints : List ℕ) :
    Weighs (emitAll host codepoints) (PMF.pure codepoints) := by
  induction codepoints with
  | nil => exact weighs_pure
  | cons c codepoints ih =>
    have hseq : Weighs (emit host c >>= fun _ => emitAll host codepoints) _ :=
      (weighs_emit c).seq ih
    rw [concat, PMF.pure_bind, PMF.pure_map] at hseq
    exact hseq

/-- A draw, and the entropy multiplied by its bound. -/
theorem returns_drawn {α : Type} {site : Site} {bound : ℕ} {f : ℕ → Gen σ δ α} {s t : GenState σ δ}
    {a : α} (h : Effect.Returns (drawBelow host site bound >>= fun choice =>
      multiplyEntropy bound >>= fun _ => f choice) s a t) :
    ∃ choice s', choice < bound ∧ Effect.Returns (f choice) s' a t ∧ s'.emitted = s.emitted ∧
      s'.entropy = s.entropy.map (· * (bound : ℚ)) ∧
      s'.draws = s.draws ++ [⟨site, bound, some choice⟩] := by
  obtain ⟨choice, s₁, hdraw, h⟩ := Effect.returns_bind_iff.mp h
  obtain ⟨random, hsource, rfl⟩ := returns_drawBelow_iff.mp hdraw
  obtain ⟨_, s₂, hscale, h⟩ := Effect.returns_bind_iff.mp h
  obtain rfl := Effect.returns_modify_iff.mp hscale
  exact ⟨choice, _, host.source.u64Max_lt hsource, h, rfl, rfl, rfl⟩

theorem coins_append_of_not_isMaybe {draws : List Draw} {draw : Draw}
    (h : draw.isMaybe = false) : coins (draws ++ [draw]) = coins draws := by
  rw [coins, List.countP_append, List.countP_singleton, if_neg (by simp [h]), Nat.add_zero]
  rfl

/-- **A set** surprises by its codepoints. -/
theorem weighs_generateSet {set : PatternSet} (hset : set.Valid) :
    Weighs (generateSet host set) (setLaw set) := by
  intro s t h
  rw [generateSet] at h
  by_cases hlen : set.items.length = 0
  · rw [if_pos hlen] at h
    have hlaw : setLaw set = PMF.pure [] := by
      rw [setLaw, List.length_eq_zero_iff.mp hlen]
      rfl
    exact hlaw ▸ weighs_pure s t h
  · rw [if_neg hlen, hset.possible hlen] at h
    obtain ⟨choice, s', hchoice, h, hemitted, hentropy, hdraws⟩ := returns_drawn h
    obtain ⟨i, r, hpick⟩ := Weighted.exists_pick_iff.mpr hchoice
    obtain ⟨range, hget, hcode, -⟩ := setCodepoint_eq hset hpick
    rw [hcode] at h
    obtain ⟨-, rfl⟩ := returns_emit_iff.mp h
    have hmem := getElem?_codepoints (fun c => PMF.pure [c]) set.items choice
    rw [hpick, Option.bind_some, hget, Option.map_some] at hmem
    have hsub := List.singleton_sublist.mpr (List.mem_of_getElem? hmem)
    refine ⟨[range.start + r], _, 0, Surprises.choose Nat.one_pos hsub
      (surprises_pure rfl rfl rfl) hemitted ?_ ?_⟩
    · rw [hentropy, length_codepoints, Nat.cast_one, div_one]
    · rw [hdraws, coins_append_of_not_isMaybe rfl]

/-- **A repeat** surprises by its counts. -/
theorem Weighs.repeat {rep : Repeat} (hrep : rep.Ordered) {f : ℕ → Gen σ δ Unit}
    {μ : PMF (List ℕ)} (hf : ∀ n, Weighs (f n) (power n μ)) :
    Weighs (generateRepeat host rep >>= f) (copiesLaw rep μ) := by
  have hsize := hrep.max
  have hcounts := hrep.counts
  have hle := hrep.le
  intro s t h
  rw [generateRepeat, sizeSub_of_le hsize hle] at h
  rw [copiesLaw]
  by_cases hdiff : rep.max - rep.min = 0
  · rw [if_pos hdiff] at h
    rw [hdiff]
    exact (Chance.oneOf_singleton (power rep.min μ)).symm ▸ hf rep.min s t h
  · rw [if_neg hdiff, sizeT_of_lt hcounts, bind_assoc] at h
    simp only [bind_assoc, pure_bind] at h
    obtain ⟨choice, s', hchoice, h, hemitted, hentropy, hdraws⟩ := returns_drawn h
    rw [sizeT_of_lt (by omega)] at h
    obtain ⟨w, p, m, hw⟩ := hf _ s' t h
    have hmem : power (rep.min + choice) μ
        ∈ (List.range' rep.min (rep.max - rep.min + 1)).map fun n => power n μ :=
      List.mem_map_of_mem (f := fun n => power n μ) (List.mem_range'_1.mpr ⟨by omega, by omega⟩)
    refine ⟨w, _, m, Surprises.choose Nat.one_pos (List.singleton_sublist.mpr hmem) hw hemitted
      ?_ ?_⟩
    · rw [hentropy, List.length_map, List.length_range', Nat.cast_one, div_one]
    · rw [hdraws, coins_append_of_not_isMaybe rfl]

/-- **A run of a group** chooses a segment and runs it. -/
theorem returns_generateGroup {group : Group} {s t : GenState σ δ}
    (h : Effect.Returns (generateGroup host (group.map (Item.generate host))) s () t) :
    ∃ choice i segment s' t', chooseSegment group.segments choice = some (i, segment) ∧
      Effect.Returns (Effect.inOrder (segment.items.map (Item.generate host))) s' () t' ∧
      s'.emitted = s.emitted ∧
      s'.entropy = s.entropy.map (· * (group.multiplierSum / segment.multiplier : ℚ)) ∧
      coins s'.draws = coins s.draws ∧
      t.emitted = t'.emitted ∧ t.entropy = t'.entropy ∧ t.draws = t'.draws := by
  obtain ⟨_, s₁, hdescend, h⟩ := Effect.returns_bind_iff.mp h
  obtain ⟨-, hs₁⟩ := returns_descend_iff.mp hdescend
  split at h
  · exact absurd h Effect.returns_throw
  obtain ⟨choice, s₂, hdraw, h⟩ := Effect.returns_bind_iff.mp h
  obtain ⟨random, -, hs₂⟩ := returns_drawBelow_iff.mp hdraw
  rw [GroupOf.segments_map, chooseSegment_map] at h
  cases hchoose : chooseSegment group.segments choice with
  | none =>
    rw [hchoose] at h
    exact absurd h Effect.returns_throw
  | some p =>
    obtain ⟨i, segment⟩ := p
    rw [hchoose] at h
    obtain ⟨_, s₃, hmul, h⟩ := Effect.returns_bind_iff.mp h
    have hs₃ := Effect.returns_modify_iff.mp hmul
    obtain ⟨_, s₄, hdiv, h⟩ := Effect.returns_bind_iff.mp h
    have hs₄ := Effect.returns_modify_iff.mp hdiv
    obtain ⟨_, t', hsegment, h⟩ := Effect.returns_bind_iff.mp h
    have ht := Effect.returns_modify_iff.mp h
    refine ⟨choice, i, segment, s₄, t', hchoose, hsegment, ?_, ?_, ?_, ?_, ?_, ?_⟩
    · rw [hs₄, hs₃, hs₂, hs₁]
    · rw [hs₄, hs₃, hs₂, hs₁]
      simp only [Option.map_map, GroupOf.multiplierSum_map, SegmentOf.multiplier_map]
      congr 1
      funext e
      rw [Function.comp_apply, mul_div_assoc]
    · rw [hs₄, hs₃, hs₂, hs₁]
      exact coins_append_of_not_isMaybe rfl
    · rw [ht]
    · rw [ht]
    · rw [ht]

/-- **A group** surprises by its segments. -/
theorem weighs_generateGroup {group : Group} (hgroup : group.Valid)
    (h : ∀ segment ∈ group.segments, ∀ item ∈ segment.items,
      Weighs (item.generate host) item.law) :
    Weighs (generateGroup host (group.map (Item.generate host)))
      (groupLaw (group.map Item.law)) := by
  intro s t hrun
  obtain ⟨choice, i, segment, s', t', hchoose, hsegment, hemitted, hentropy, hcoins, hemitted',
    hentropy', hdraws'⟩ := returns_generateGroup hrun
  obtain ⟨hget, hle, hlt⟩ := chooseSegment_eq_some_iff.mp hchoose
  have hmem := List.mem_of_getElem? hget
  obtain ⟨w, p, m, hw⟩ := weighs_inOrder (h segment hmem) _ _ hsegment
  have hw' : Surprises (concatAll (segment.items.map Item.law)) s' t w p m :=
    ⟨hemitted' ▸ hw.emitted, hentropy' ▸ hw.entropy, hdraws' ▸ hw.flipped, hw.pos, hw.ge⟩
  have hsub : (List.replicate segment.multiplier (concatAll (segment.items.map Item.law))).Sublist
      ((group.map Item.law).segments.flatMap fun segment =>
        List.replicate segment.multiplier (concatAll segment.items)) :=
    List.sublist_flatten_of_mem (List.mem_map_of_mem
      (f := fun segment : SegmentOf (PMF (List ℕ)) =>
        List.replicate segment.multiplier (concatAll segment.items))
      (List.mem_map_of_mem (f := SegmentOf.map Item.law) hmem))
  have hlen : ((group.map Item.law).segments.flatMap fun segment =>
      List.replicate segment.multiplier (concatAll segment.items)).length = group.multiplierSum := by
    rw [length_segments fun segment => concatAll segment.items, GroupOf.segments_map,
      totalMultiplier_map, hgroup.sum_eq]
  have hpos : 0 < segment.multiplier := by omega
  refine ⟨w, _, m, Surprises.choose hpos hsub hw' hemitted ?_ hcoins⟩
  rw [hentropy, hlen]

/-- **Every run of a valid item** emits a string that is no more surprising than reported. -/
theorem weighs_item (item : Item) (hitem : item.Valid) : Weighs (item.generate host) item.law := by
  induction item using Item.induct with
  | mk data rep maybe ih =>
    obtain ⟨hdata, hrep⟩ := Item.valid_mk.mp hitem
    have hcopy : Weighs (generateData host (data.map (Item.generate host)))
        (dataLaw (data.map Item.law)) := by
      cases data with
      | set set => exact weighs_generateSet hdata
      | literal literal => exact weighs_emitAll _
      | special special => exact hdata.elim
      | group group =>
        exact weighs_generateGroup hdata fun segment hs item hi =>
          ih segment hs item hi (Group.Valid.item hdata hs hi)
    have hcopies : Weighs (generateRepeat host rep >>= fun reps =>
        Effect.times reps (generateData host (data.map (Item.generate host))))
          (copiesLaw rep (dataLaw (data.map Item.law))) :=
      Weighs.repeat hrep fun n => hcopy.times n
    intro s t h
    rw [Item.generate_mk, generateItem] at h
    rw [Item.law_mk, itemLaw]
    obtain ⟨emits, s₁, hmaybe, hrest⟩ := Effect.returns_bind_iff.mp h
    cases maybe with
    | false =>
      obtain ⟨rfl, rfl⟩ := Effect.returns_pure_iff.mp hmaybe
      rw [if_pos rfl] at hrest
      rw [if_neg Bool.false_ne_true]
      exact hcopies _ t hrest
    | true =>
      obtain ⟨-, hs₁⟩ := returns_drawMaybe_iff.mp hmaybe
      have hcoins : coins s₁.draws = coins s.draws + 1 := by
        rw [hs₁, coins, List.countP_append]
        rfl
      have hemitted : s₁.emitted = s.emitted := by rw [hs₁]
      have hentropy : s₁.entropy = s.entropy := by rw [hs₁]
      rw [if_pos rfl]
      cases emits with
      | false =>
        rw [if_neg Bool.false_ne_true] at hrest
        obtain ⟨-, rfl⟩ := Effect.returns_pure_iff.mp hrest
        have hnone : Surprises (PMF.pure []) t t [] 1 0 :=
          surprises_pure (List.append_nil _).symm rfl rfl
        exact ⟨[], _, _, hnone.flip List.mem_cons_self hemitted hentropy hcoins⟩
      | true =>
        rw [if_pos rfl] at hrest
        obtain ⟨w, p, m, hw⟩ := hcopies s₁ t hrest
        have hmem : copiesLaw rep (dataLaw (data.map Item.law))
            ∈ [PMF.pure [], copiesLaw rep (dataLaw (data.map Item.law))] :=
          List.mem_cons_of_mem _ List.mem_cons_self
        exact ⟨w, _, _, hw.flip hmem hemitted hentropy hcoins⟩

/-- **A generated string is no more surprising than reported**, up to a bit for each maybe, over
exact rationals.  In every run of a valid pattern that returns, whatever its source of randomness,
the string that was emitted has, under the law of the pattern, at least the probability
`1 / (entropy * 2 ^ coins)`, where `coins` is the number of maybes that were decided. -/
theorem surprise_le {pattern : Group} (hpattern : pattern.Valid) {random : σ} {data : δ}
    {depthLimit : ℕ} {wordlists : List (List UInt8 × Wordlist)} {t : GenState σ δ}
    (hrun : Effect.Returns (generate host pattern)
      (GenState.init random data depthLimit true wordlists) () t) :
    ∃ entropy : ℚ, t.entropy = some entropy ∧ 0 < entropy ∧
      ENNReal.ofReal (1 / (entropy * 2 ^ coins t.draws)) ≤ pattern.law t.emitted := by
  obtain ⟨w, p, m, hw⟩ := weighs_generateGroup hpattern
    (fun segment hs item hi => weighs_item item (hpattern.item hs hi)) _ t hrun
  have hemitted : t.emitted = w := hw.emitted
  have hcoins : coins t.draws = m := hw.flipped.trans (Nat.zero_add m)
  have hentropy : t.entropy = some p := hw.entropy.trans (congrArg some (one_mul p))
  refine ⟨p, hentropy, hw.pos, ?_⟩
  rw [hemitted, hcoins, one_div]
  have hge := hw.ge
  rw [share] at hge
  push_cast at hge
  exact hge

theorem surprise_le_digitPattern :
    let t := Effect.final (generate ⟨drawSource, fun _ _ => (0, ())⟩ digitPattern)
      (GenState.init [0, 0, 7] () 1 true [])
    ∃ entropy : ℚ, t.entropy = some entropy ∧ 0 < entropy ∧
      ENNReal.ofReal (1 / (entropy * 2 ^ coins t.draws)) ≤ digitPattern.law t.emitted := by
  have hrun : Effect.Returns (generate ⟨drawSource, fun _ _ => (0, ())⟩ digitPattern)
      (GenState.init [0, 0, 7] () 1 true []) ()
      (Effect.final (generate ⟨drawSource, fun _ _ => (0, ())⟩ digitPattern)
        (GenState.init [0, 0, 7] () 1 true [])) := rfl
  exact surprise_le digitPattern_valid hrun

end Passgen
