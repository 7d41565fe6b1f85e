import Mathlib.Algebra.BigOperators.Group.List.Basic
import Mathlib.Algebra.Field.Rat
import Mathlib.Data.List.Basic
import Mathlib.Tactic.Common
import Mathlib.Tactic.FieldSimp
import Passgen.Generate.Language
import Passgen.Generate.Walk
import Passgen.Wordlist.Loaded

/-!
# Generate/Draws — the account of a run

    bound ─ draw ▸ choice ─ weight          entropy *= bound / weight

Whatever a run does, it only adds draws to the log that their places ask for (`Draw.Lawful`).  Where
it goes on, each of them has chosen something, and the entropy is multiplied by the bound over the
weight of the choice: this is what `drawGuarantee` says of every part of the generator, graded by
the factor the part is ahead of its draws.
-/

namespace Passgen

/-! ## Draws -/

/-- What the code takes a choice to weigh: the entropy is multiplied by the bound over the weight.
For a maybe that is `2 / 2`. -/
def Site.weight : Site → ℕ → ℕ
  | .maybe, _ => 2
  | .segment multipliers, choice =>
    ((Weighted.pick multipliers choice).bind fun p => multipliers[p.1]?).getD 0
  | .markov leaf, choice =>
    ((leafChoose leaf (List.range leaf.capacity) choice).map Prod.snd).getD 0
  | _, _ => 1

/-- The bound a place asks for; `S` are the places the pattern offers, with their bounds. -/
def Site.Asks (S : Site → ℕ → Prop) : Site → ℕ → Prop
  | .maybe, bound => S .maybe bound ∧ bound = 2
  | .rep r, bound => S (.rep r) bound ∧ bound = sizeT (sizeSub r.max r.min + 1)
  | .set s, bound => S (.set s) bound ∧ s.choicesList[s.items.length - 1]? = some bound
  | .segment ms, bound => S (.segment ms) bound ∧ 0 < bound
  | .word ws, bound => bound = ws.length
  | .markov leaf, bound => (∃ k < 2 ^ 64, leaf.Live k) ∧ bound = leaf.totalCount

/-- A draw as its place asks for it, below the bound. -/
structure Draw.Lawful (S : Site → ℕ → Prop) (draw : Draw) : Prop where
  asks : draw.site.Asks S draw.bound
  taken : ∀ choice, draw.taken = some choice → choice < draw.bound

/-- A draw that has chosen something. -/
def Draw.Settled (draw : Draw) : Prop :=
  ∃ choice, draw.taken = some choice ∧ 0 < draw.site.weight choice

/-- What the entropy is multiplied by for a draw. -/
def Draw.factor (draw : Draw) : ℚ := draw.bound / (draw.taken.map draw.site.weight).getD 0

/-! ## The guarantee -/

variable {σ δ : Type}

/-- Every wordlist is loaded. -/
def GenState.Loaded (s : GenState σ δ) : Prop := ∀ p ∈ s.wordlists, p.2.Loaded

/-- Between `s` and `t` these draws were made, and the entropy is ahead of them by `m`. -/
structure Accounts (S : Site → ℕ → Prop) (m : ℚ) (s t : GenState σ δ) (new : List Draw) : Prop where
  loaded : t.Loaded
  draws : t.draws = s.draws ++ new
  lawful : ∀ d ∈ new, d.Lawful S ∧ d.Settled
  entropy : t.entropy = s.entropy.map (· * (m * (new.map Draw.factor).prod))

/-- **The account of a run**, from a state with loaded wordlists. -/
def drawGuarantee (S : Site → ℕ → Prop) : Effect.Guarantee (GenState σ δ) ℚ where
  returns m s t := s.Loaded → ∃ new, Accounts S m s t new
  stops s t := s.Loaded → ∃ new, t.draws = s.draws ++ new ∧ ∀ d ∈ new, d.Lawful S
  refl s hs := ⟨[], hs, (List.append_nil _).symm, fun _ h => absurd h List.not_mem_nil, by
    rw [List.map_nil, List.prod_nil, mul_one]
    simp only [mul_one, Option.map_id']⟩
  trans := by
    intro m n s t u hst htu hs
    obtain ⟨new, h⟩ := hst hs
    obtain ⟨new', h'⟩ := htu h.loaded
    refine ⟨new ++ new', h'.loaded, ?_, ?_, ?_⟩
    · rw [h'.draws, h.draws, List.append_assoc]
    · intro d hd
      rcases List.mem_append.mp hd with hd | hd
      · exact h.lawful d hd
      · exact h'.lawful d hd
    · rw [h'.entropy, h.entropy, Option.map_map, List.map_append, List.prod_append]
      congr 1
      funext e
      simp only [Function.comp_apply]
      ring
  stops_refl s _ := ⟨[], (List.append_nil _).symm, fun _ h => absurd h List.not_mem_nil⟩
  after := by
    intro m s t u hst htu hs
    obtain ⟨new, h⟩ := hst hs
    obtain ⟨new', hdraws, hlawful⟩ := htu h.loaded
    refine ⟨new ++ new', by rw [hdraws, h.draws, List.append_assoc], fun d hd => ?_⟩
    rcases List.mem_append.mp hd with hd | hd
    · exact (h.lawful d hd).1
    · exact hlawful d hd

section Parts

variable {host : Host σ δ} {S : Site → ℕ → Prop}

/-- A state that keeps wordlists and draws, with the entropy multiplied. -/
theorem accounts_scale {m : ℚ} {s t : GenState σ δ} (hwordlists : t.wordlists = s.wordlists)
    (hdraws : t.draws = s.draws) (hentropy : t.entropy = s.entropy.map (· * m)) (hs : s.Loaded) :
    ∃ new, Accounts S m s t new :=
  ⟨[], fun p hp => hs p (hwordlists ▸ hp), by rw [hdraws, List.append_nil],
    fun _ h => absurd h List.not_mem_nil, by rw [hentropy, List.map_nil, List.prod_nil, mul_one]⟩

/-- A state that keeps wordlists, draws and entropy. -/
theorem accounts_same {s t : GenState σ δ} (hwordlists : t.wordlists = s.wordlists)
    (hdraws : t.draws = s.draws) (hentropy : t.entropy = s.entropy) (hs : s.Loaded) :
    ∃ new, Accounts S 1 s t new :=
  accounts_scale hwordlists hdraws (by simp only [mul_one, Option.map_id', hentropy]) hs

theorem holds_multiplyEntropy (n : ℕ) :
    (drawGuarantee S).Holds n (multiplyEntropy n : Gen σ δ Unit) :=
  Effect.Guarantee.holds_modify fun _ => accounts_scale rfl rfl rfl

theorem holds_divideEntropy (n : ℕ) :
    (drawGuarantee S).Holds (1 / n : ℚ) (divideEntropy n : Gen σ δ Unit) := by
  refine Effect.Guarantee.holds_modify fun s => accounts_scale rfl rfl ?_
  simp only [mul_one_div]

theorem holds_emit (codepoint : ℕ) : (drawGuarantee S).Holds 1 (emit host codepoint) := by
  refine fun s => ⟨fun h => ?_, fun {e t} h => ?_⟩
  · obtain ⟨-, rfl⟩ := returns_emit_iff.mp h
    exact accounts_same rfl rfl rfl
  · have ht : t.draws = s.draws := by
      rw [Effect.Stops, EStateM.run, emit] at h
      split at h
      split at h
      · exact absurd h (by simp)
      · obtain ⟨-, rfl⟩ := EStateM.Result.error.inj h
        rfl
    exact fun _ => ⟨[], by rw [ht, List.append_nil], fun _ h => absurd h List.not_mem_nil⟩

theorem holds_emitAll (codepoints : List ℕ) :
    (drawGuarantee S).Holds 1 (emitAll host codepoints) := by
  refine Effect.Guarantee.holds_inOrder fun x hx => ?_
  obtain ⟨codepoint, -, rfl⟩ := List.mem_map.mp hx
  exact holds_emit codepoint

theorem holds_descend : (drawGuarantee S).Holds 1 (descend : Gen σ δ Unit) := by
  refine fun s => ⟨fun h => ?_, fun {e t} h => ?_⟩
  · obtain ⟨-, rfl⟩ := returns_descend_iff.mp h
    exact accounts_same rfl rfl rfl
  · have ht : t = s := by
      rw [Effect.Stops, EStateM.run, descend] at h
      split at h
      · exact (EStateM.Result.error.inj h).2.symm
      · exact absurd h (by simp)
    exact ht ▸ (drawGuarantee S).stops_refl s

theorem holds_ascend : (drawGuarantee S).Holds 1 (ascend : Gen σ δ Unit) :=
  Effect.Guarantee.holds_modify fun _ => accounts_same rfl rfl rfl

/-- **A draw and what follows it**: a choice that weighs nothing has to stop, after any other one
the entropy is still to be multiplied by the bound over the weight. -/
theorem holds_draw {α : Type} {m : ℚ} {site : Site} {bound : ℕ} (hasks : site.Asks S bound)
    {f : ℕ → Gen σ δ α}
    (hstop : ∀ choice < bound, site.weight choice = 0 → ∃ e, f choice = throw e)
    (hf : ∀ choice < bound, 0 < site.weight choice →
      (drawGuarantee S).Holds (m * (bound / site.weight choice)) (f choice)) :
    (drawGuarantee S).Holds m (drawBelow host site bound >>= f) := by
  intro s
  constructor
  · intro b u h hs
    obtain ⟨choice, t, hdraw, hu⟩ := Effect.returns_bind_iff.mp h
    obtain ⟨random, hsource, rfl⟩ := returns_drawBelow_iff.mp hdraw
    have hlt := host.source.u64Max_lt hsource
    have hpos : 0 < site.weight choice := by
      by_contra hzero
      obtain ⟨e, hthrow⟩ := hstop choice hlt (Nat.eq_zero_of_not_pos hzero)
      rw [hthrow] at hu
      exact Effect.returns_throw hu
    obtain ⟨new, hnew⟩ := (hf choice hlt hpos _).returns hu hs
    refine ⟨⟨site, bound, some choice⟩ :: new, hnew.loaded, ?_, ?_, ?_⟩
    · rw [hnew.draws, List.append_assoc]
      rfl
    · refine List.forall_mem_cons.mpr ⟨⟨⟨hasks, fun c hc => ?_⟩, choice, rfl, hpos⟩, hnew.lawful⟩
      exact Option.some.inj hc ▸ hlt
    · rw [hnew.entropy, List.map_cons, List.prod_cons, ← mul_assoc m]
      rfl
  · intro e u h hs
    rcases Effect.stops_bind_iff.mp h with h | ⟨choice, t, hdraw, hu⟩
    · obtain ⟨-, -, rfl⟩ := stops_drawBelow_iff.mp h
      refine ⟨[⟨site, bound, none⟩], rfl, fun d hd => ?_⟩
      rw [List.mem_singleton.mp hd]
      exact ⟨hasks, fun c hc => absurd hc (by simp)⟩
    · obtain ⟨random, hsource, rfl⟩ := returns_drawBelow_iff.mp hdraw
      have hlt := host.source.u64Max_lt hsource
      have hrest : ∃ new, u.draws = (s.draws ++ [⟨site, bound, some choice⟩]) ++ new ∧
          ∀ d ∈ new, d.Lawful S := by
        by_cases hzero : site.weight choice = 0
        · obtain ⟨e', hthrow⟩ := hstop choice hlt hzero
          rw [hthrow] at hu
          obtain ⟨-, rfl⟩ := Effect.stops_throw_iff.mp hu
          exact ⟨[], (List.append_nil _).symm, fun _ h => absurd h List.not_mem_nil⟩
        · exact (hf choice hlt (Nat.pos_of_ne_zero hzero) _).stops hu hs
      obtain ⟨new, hdraws, hlawful⟩ := hrest
      refine ⟨⟨site, bound, some choice⟩ :: new, by rw [hdraws, List.append_assoc]; rfl, ?_⟩
      refine List.forall_mem_cons.mpr ⟨⟨hasks, fun c hc => ?_⟩, hlawful⟩
      exact Option.some.inj hc ▸ hlt

/-- A draw of which every choice weighs one. -/
theorem holds_draw_one {α : Type} {m : ℚ} {site : Site} {bound : ℕ} (hasks : site.Asks S bound)
    (hone : ∀ choice, site.weight choice = 1) {f : ℕ → Gen σ δ α}
    (hf : ∀ choice < bound, (drawGuarantee S).Holds (m * bound) (f choice)) :
    (drawGuarantee S).Holds m (drawBelow host site bound >>= f) := by
  refine holds_draw hasks (fun choice _ hzero => ?_) fun choice hlt _ => ?_
  · rw [hone] at hzero
    exact absurd hzero one_ne_zero
  · rw [hone, Nat.cast_one, div_one]
    exact hf choice hlt

theorem holds_drawMaybe (hmaybe : S .maybe 2) : (drawGuarantee S).Holds 1 (drawMaybe host) := by
  have hnever : ∀ {s t e}, ¬Effect.Stops (drawMaybe host) s e t := by
    simp [Effect.Stops, EStateM.run, drawMaybe]
  refine fun s => ⟨fun h hs => ?_, fun h => absurd h hnever⟩
  obtain ⟨-, rfl⟩ := returns_drawMaybe_iff.mp h
  refine ⟨[_], hs, rfl, fun d hd => ?_, ?_⟩
  · rw [List.mem_singleton.mp hd]
    refine ⟨⟨⟨hmaybe, rfl⟩, fun choice hc => ?_⟩, _, rfl, Nat.two_pos⟩
    rw [← Option.some.inj hc]
    exact Bool.toNat_lt _
  · have hfactor : Draw.factor ⟨.maybe, 2, some (host.source.bool s.random).1.toNat⟩ = 1 := by
      simp [Draw.factor, Site.weight]
    rw [List.map_singleton, List.prod_singleton, hfactor]
    simp only [mul_one, Option.map_id']

/-! ## The parts of the generator -/

theorem holds_generateRepeat {rep : Repeat}
    (hrep : S (.rep rep) (sizeT (sizeSub rep.max rep.min + 1))) :
    (drawGuarantee S).Holds 1 (generateRepeat host rep) := by
  rw [generateRepeat]
  split
  · exact Effect.Guarantee.holds_pure _
  · have hasks : Site.Asks S (.rep rep) (sizeT (sizeSub rep.max rep.min + 1)) := ⟨hrep, rfl⟩
    refine holds_draw_one hasks (fun _ => rfl) fun choice _ => ?_
    rw [one_mul, ← mul_one ((sizeT _ : ℕ) : ℚ)]
    exact (holds_multiplyEntropy _).bind fun _ => Effect.Guarantee.holds_pure _

theorem holds_generateSet {set : PatternSet}
    (hset : ∀ bound, set.choicesList[set.items.length - 1]? = some bound → S (.set set) bound) :
    (drawGuarantee S).Holds 1 (generateSet host set) := by
  rw [generateSet]
  split
  · exact Effect.Guarantee.holds_pure _
  split
  · exact Effect.Guarantee.holds_throw _
  · rename_i possible hpossible
    have hasks : Site.Asks S (.set set) possible := ⟨hset possible hpossible, hpossible⟩
    refine holds_draw_one hasks (fun _ => rfl) fun choice _ => ?_
    rw [one_mul, ← mul_one (possible : ℚ)]
    refine (holds_multiplyEntropy possible).bind fun _ => ?_
    split
    · exact Effect.Guarantee.holds_throw _
    · exact holds_emit _

/-- A segment that is chosen weighs its multiplier. -/
theorem weight_segment {ι : Type} {segments : List (SegmentOf ι)} {choice i : ℕ}
    {segment : SegmentOf ι} (h : chooseSegment segments choice = some (i, segment)) :
    Site.weight (.segment (segments.map SegmentOf.multiplier)) choice = segment.multiplier ∧
      0 < segment.multiplier := by
  rw [chooseSegment_eq] at h
  obtain ⟨⟨j, r⟩, hpick, hsegment⟩ := Option.bind_eq_some_iff.mp h
  obtain ⟨segment', hget, heq⟩ := Option.map_eq_some_iff.mp hsegment
  obtain ⟨rfl, rfl⟩ := Prod.mk.inj heq
  obtain ⟨hj, hr, -⟩ := Weighted.pick_eq_some_iff.mp hpick
  obtain ⟨hj', hget⟩ := List.getElem?_eq_some_iff.mp hget
  rw [List.getElem_map, hget] at hr
  refine ⟨?_, by omega⟩
  rw [Site.weight, hpick, Option.bind_some, List.getElem?_map, List.getElem?_eq_getElem hj', hget]
  rfl

/-- A draw past the last segment weighs nothing. -/
theorem weight_segment_none {ι : Type} {segments : List (SegmentOf ι)} {choice : ℕ}
    (h : chooseSegment segments choice = none) :
    Site.weight (.segment (segments.map SegmentOf.multiplier)) choice = 0 := by
  have hpick : Weighted.pick (segments.map SegmentOf.multiplier) choice = none := by
    rw [Weighted.pick_eq_none_iff, ← totalMultiplier, ← not_lt, ← exists_chooseSegment_iff, h]
    rintro ⟨i, segment, hsome⟩
    exact absurd hsome (by simp)
  rw [Site.weight, hpick]
  rfl

theorem holds_generateGroup {group : GroupOf (Gen σ δ Unit)}
    (hgroup : S (.segment (group.segments.map SegmentOf.multiplier)) group.multiplierSum)
    (hitems : ∀ segment ∈ group.segments, ∀ item ∈ segment.items, (drawGuarantee S).Holds 1 item) :
    (drawGuarantee S).Holds 1 (generateGroup host group) := by
  refine holds_descend.then fun _ => ?_
  split
  · exact Effect.Guarantee.holds_throw _
  · rename_i hsum
    have hasks : Site.Asks S (.segment (group.segments.map SegmentOf.multiplier))
        group.multiplierSum := ⟨hgroup, Nat.pos_of_ne_zero hsum⟩
    refine holds_draw hasks (fun choice _ hzero => ?_) fun choice _ hpos => ?_
    · cases hchoose : chooseSegment group.segments choice with
      | none => exact ⟨_, rfl⟩
      | some p =>
        obtain ⟨hweight, hpositive⟩ := weight_segment hchoose
        omega
    · cases hchoose : chooseSegment group.segments choice with
      | none =>
        have := weight_segment_none hchoose
        omega
      | some p =>
        obtain ⟨hweight, -⟩ := weight_segment hchoose
        have hmem : p.2 ∈ group.segments :=
          List.mem_of_getElem? (chooseSegment_eq_some_iff.mp hchoose).1
        rw [hweight, one_mul, div_eq_mul_one_div]
        refine (holds_multiplyEntropy _).bind fun _ => ?_
        rw [← mul_one (1 / (p.2.multiplier : ℚ))]
        refine (holds_divideEntropy _).bind fun _ => ?_
        exact (Effect.Guarantee.holds_inOrder (hitems p.2 hmem)).then fun _ => holds_ascend

/-! ## Specials -/

/-- A walk ends in a leaf of the chain. -/
theorem leaf_of_walkNode {P : Leaf → Prop} {n : ℕ} {node : Node (Child n)}
    (h : AllLeaves P (n + 1) node) {current : List ℕ} {leaf : Leaf}
    (hwalk : walkNode n node current = some leaf) : P leaf := by
  induction n generalizing current with
  | zero => match current, hwalk with
    | c :: _, hwalk => exact h _ leaf hwalk
  | succ n ih => match current, hwalk with
    | c :: current, hwalk =>
      obtain ⟨child, hchild, hwalk⟩ := Option.bind_eq_some_iff.mp hwalk
      exact ih (h _ child hchild) hwalk

/-- A codepoint that is chosen has a count, and is weighed by it. -/
theorem weight_markov {leaf : Leaf} {choice : ℕ} :
    (leafChoose leaf (List.range leaf.capacity) choice = none →
        Site.weight (.markov leaf) choice = 0) ∧
      ∀ c count, leafChoose leaf (List.range leaf.capacity) choice = some (c, count) →
        Site.weight (.markov leaf) choice = count ∧ 0 < count := by
  constructor
  · intro h
    rw [Site.weight, h]
    rfl
  · intro c count h
    refine ⟨by rw [Site.weight, h]; rfl, ?_⟩
    rw [leafChoose_eq] at h
    obtain ⟨⟨i, r⟩, hpick, hslot⟩ := Option.bind_eq_some_iff.mp h
    obtain ⟨slot, hget, heq⟩ := Option.map_eq_some_iff.mp hslot
    obtain ⟨hi, hr, -⟩ := Weighted.pick_eq_some_iff.mp hpick
    rw [List.length_map, List.length_range] at hi
    rw [List.getElem_map, List.getElem_range] at hr
    rw [List.getElem?_range hi] at hget
    obtain rfl := Option.some.inj hget
    obtain ⟨-, rfl⟩ := Prod.mk.inj heq
    omega

theorem holds_markovGenerate {markov : Markov} {k : ℕ} (hk : k < 2 ^ 64) (hlive : markov.Live k)
    (current : List ℕ) : (drawGuarantee S).Holds 1 (markovGenerate host markov current) := by
  rw [markovGenerate]
  split
  · exact Effect.Guarantee.holds_throw _
  split
  · exact Effect.Guarantee.holds_throw _
  · rename_i leaf hwalk
    have hleaf := leaf_of_walkNode hlive hwalk
    have htotal : (leaf.totalCount : ℚ) ≠ 0 := Nat.cast_ne_zero.mpr hleaf.2.ne'
    have hasks : Site.Asks S (.markov leaf) leaf.totalCount := ⟨⟨k, hk, hleaf⟩, rfl⟩
    rw [← mul_one_div_cancel htotal]
    refine (holds_multiplyEntropy _).bind fun _ => ?_
    refine holds_draw hasks (fun choice _ hzero => ?_) fun choice _ hpos => ?_
    · cases hchoose : leafChoose leaf (List.range leaf.capacity) choice with
      | none => exact ⟨_, rfl⟩
      | some p =>
        obtain ⟨hweight, hcount⟩ := weight_markov.2 p.1 p.2 hchoose
        omega
    · cases hchoose : leafChoose leaf (List.range leaf.capacity) choice with
      | none =>
        have := weight_markov.1 hchoose
        omega
      | some p =>
        obtain ⟨hweight, -⟩ := weight_markov.2 p.1 p.2 hchoose
        rw [hweight, one_div_mul_eq_div, div_div_cancel_left' htotal, ← mul_one (_⁻¹), ← one_div]
        exact (holds_divideEntropy p.2).bind fun _ => Effect.Guarantee.holds_pure _

theorem holds_markovWord {markov : Markov} {k : ℕ} (hk : k < 2 ^ 64) (hlive : markov.Live k)
    (room : ℕ) (word : List ℕ) : (drawGuarantee S).Holds 1 (markovWord host markov room word) := by
  induction room generalizing word with
  | zero => exact Effect.Guarantee.holds_throw _
  | succ room ih =>
    refine (holds_markovGenerate hk hlive _).then fun codepoint => ?_
    split
    · exact Effect.Guarantee.holds_pure _
    · exact ih _

/-- From `s`, the computation leaves the state alone and returns what `P` says. -/
structure Reads {α : Type} (P : α → Prop) (x : Gen σ δ α) (s : GenState σ δ) : Prop where
  returns : ∀ {a t}, Effect.Returns x s a t → t = s ∧ P a
  stops : ∀ {e t}, Effect.Stops x s e t → t = s

theorem reads_pure {α : Type} {P : α → Prop} {a : α} (h : P a) (s : GenState σ δ) :
    Reads P (pure a) s := by
  refine ⟨fun hx => ?_, fun hx => absurd hx Effect.not_stops_pure⟩
  obtain ⟨rfl, rfl⟩ := Effect.returns_pure_iff.mp hx
  exact ⟨rfl, h⟩

theorem reads_throw {α : Type} {P : α → Prop} (e : Stop) (s : GenState σ δ) :
    Reads P (throw e) s :=
  ⟨fun hx => absurd hx Effect.returns_throw, fun hx => (Effect.stops_throw_iff.mp hx).2⟩

/-- What follows a computation that only reads. -/
theorem Reads.bind {α β : Type} {P : α → Prop} {x : Gen σ δ α} {f : α → Gen σ δ β}
    {s : GenState σ δ} {m : ℚ} (hx : Reads P x s)
    (hf : ∀ a, P a → (drawGuarantee S).HoldsAt m (f a) s) :
    (drawGuarantee S).HoldsAt m (x >>= f) s := by
  constructor
  · intro b u h
    obtain ⟨a, t, hxt, hfu⟩ := Effect.returns_bind_iff.mp h
    obtain ⟨rfl, ha⟩ := hx.returns hxt
    exact (hf a ha).returns hfu
  · intro e u h
    rcases Effect.stops_bind_iff.mp h with h | ⟨a, t, hxt, hfu⟩
    · exact hx.stops h ▸ (drawGuarantee S).stops_refl s
    · obtain ⟨rfl, ha⟩ := hx.returns hxt
      exact (hf a ha).stops hfu

/-- **What is found is loaded.** -/
theorem reads_findWordlist (special : Special) {s : GenState σ δ} (hs : s.Loaded) :
    Reads (fun p => p.2.Loaded) (findWordlist special) s := by
  refine ⟨fun {found t} h => ?_, fun h => stops_findWordlist h⟩
  obtain ⟨name, wordlist⟩ := found
  obtain ⟨rfl, string, stored, -, -, hlookup, hfound⟩ := returns_findWordlist_iff.mp h
  obtain ⟨before, after, hsplit, -⟩ := List.lookup_eq_some_iff.mp hlookup
  have hloaded : stored.Loaded := hs _ (hsplit ▸ List.mem_append_right before List.mem_cons_self)
  rcases found_eq_some_iff.mp hfound with ⟨-, rfl⟩ | ⟨hparsed, code, hparse⟩
  · exact ⟨rfl, hloaded⟩
  · exact ⟨rfl, hloaded.parse hparsed hparse⟩

theorem reads_trainWordlist {wordlist : Wordlist} (h : wordlist.Loaded) (s : GenState σ δ) :
    Reads Wordlist.Loaded (trainWordlist wordlist) s := by
  rw [trainWordlist]
  split
  · exact reads_pure h s
  · rename_i hparsed
    split
    · exact reads_throw _ s
    · rename_i trained htrain
      exact reads_pure (h.train (by simpa using hparsed) htrain) s

theorem holds_storeWordlist (name : List UInt8) {wordlist : Wordlist} (h : wordlist.Loaded) :
    (drawGuarantee S).Holds 1 (storeWordlist name wordlist : Gen σ δ Unit) := by
  refine Effect.Guarantee.holds_modify fun s hs => ⟨[], fun p hp => ?_, (List.append_nil _).symm,
    fun _ h => absurd h List.not_mem_nil, ?_⟩
  · obtain ⟨q, hq, rfl⟩ := List.mem_map.mp hp
    split
    · exact h
    · exact hs q hq
  · simp only [List.map_nil, List.prod_nil, mul_one, Option.map_id']

/-- A promise about states with loaded wordlists is kept if it is kept from those. -/
theorem holdsAt_of_loaded {α : Type} {m : ℚ} {x : Gen σ δ α} {s : GenState σ δ}
    (h : s.Loaded → (drawGuarantee S).HoldsAt m x s) : (drawGuarantee S).HoldsAt m x s :=
  ⟨fun hx hs => (h hs).returns hx hs, fun hx hs => (h hs).stops hx hs⟩

theorem holds_generateSpecialMarkov (special : Special) :
    (drawGuarantee S).Holds 1 (generateSpecialMarkov host special) := by
  refine fun s => holdsAt_of_loaded fun hs =>
    (reads_findWordlist special hs).bind fun found hfound =>
      (reads_trainWordlist hfound s).bind fun wordlist hwordlist => ?_
  obtain ⟨k, hk, hlive⟩ := hwordlist.ready.trained
  refine (holds_storeWordlist found.1 hwordlist).then (fun _ => ?_) s
  exact (holds_markovWord hk hlive _ _).then fun word => holds_emitAll _

theorem holds_generateSpecialWordlist (special : Special) :
    (drawGuarantee S).Holds 1 (generateSpecialWordlist host special) := by
  refine fun s => holdsAt_of_loaded fun hs => (reads_findWordlist special hs).bind
    fun found hfound => ?_
  refine (holds_storeWordlist found.1 hfound).then (fun _ => ?_) s
  split
  · exact Effect.Guarantee.holds_throw _
  · rename_i words _
    have hasks : Site.Asks S (.word words) words.length := rfl
    refine holds_draw_one hasks (fun _ => rfl) fun index _ => ?_
    rw [one_mul]
    simp only
    split
    · exact Effect.Guarantee.holds_throw _
    · exact (holds_emitAll _).then fun _ => holds_multiplyEntropy _

/-! ## Items and patterns -/

/-- The places of a group are in `S`, given those of its items. -/
def GroupOf.OffersOver (S : Site → ℕ → Prop) (group : GroupOf Prop) : Prop :=
  S (.segment (group.segments.map SegmentOf.multiplier)) group.multiplierSum ∧
    ∀ segment ∈ group.segments, ∀ item ∈ segment.items, item

/-- The places a copy of an item draws at are in `S`, given those of the items inside. -/
def dataOffers (S : Site → ℕ → Prop) : ItemData Prop → Prop
  | .set set => ∀ bound, set.choicesList[set.items.length - 1]? = some bound → S (.set set) bound
  | .group group => group.OffersOver S
  | _ => True

/-- The places the item draws at are in `S`. -/
def Item.Offers (S : Site → ℕ → Prop) (item : Item) : Prop :=
  item.fold fun data rep maybe => dataOffers S data ∧
    S (.rep rep) (sizeT (sizeSub rep.max rep.min + 1)) ∧ (maybe = true → S .maybe 2)

/-- The places the pattern draws at are in `S`. -/
def Group.Offers (S : Site → ℕ → Prop) (pattern : Group) : Prop :=
  (pattern.map (Item.Offers S)).OffersOver S

theorem Item.offers_mk {data : ItemData Item} {rep : Repeat} {maybe : Bool} :
    (Item.mk data rep maybe).Offers S ↔ dataOffers S (data.map (Item.Offers S)) ∧
      S (.rep rep) (sizeT (sizeSub rep.max rep.min + 1)) ∧ (maybe = true → S .maybe 2) := by
  rw [Item.Offers, Item.fold_mk]
  rfl

theorem Group.offers_iff {group : Group} :
    group.Offers S ↔ S (.segment (group.segments.map SegmentOf.multiplier)) group.multiplierSum ∧
      ∀ segment ∈ group.segments, ∀ item ∈ segment.items, item.Offers S := by
  have hmultipliers : (group.map (Item.Offers S)).segments.map SegmentOf.multiplier
      = group.segments.map SegmentOf.multiplier := by
    rw [GroupOf.segments_map, List.map_map]
    rfl
  rw [Group.Offers, GroupOf.OffersOver, hmultipliers]
  refine and_congr_right fun _ => ⟨fun h segment hs item hi => ?_, fun h segment hs item hi => ?_⟩
  · exact h _ (List.mem_map_of_mem hs) _ (List.mem_map_of_mem hi)
  · obtain ⟨segment, hsegment, rfl⟩ := List.mem_map.mp hs
    obtain ⟨item, hitem, rfl⟩ := List.mem_map.mp hi
    exact h segment hsegment item hitem

/-- A group whose items are accounted for. -/
theorem Group.Offers.holds {group : Group} (h : group.Offers S)
    (hitems : ∀ segment ∈ group.segments, ∀ item ∈ segment.items, item.Offers S →
      (drawGuarantee S).Holds 1 (item.generate host)) :
    (drawGuarantee S).Holds 1 (generateGroup host (group.map (Item.generate host))) := by
  obtain ⟨hsegments, hoffers⟩ := Group.offers_iff.mp h
  refine holds_generateGroup ?_ fun segment hs x hx => ?_
  · rw [GroupOf.segments_map, List.map_map]
    exact hsegments
  · obtain ⟨segment, hsegment, rfl⟩ := List.mem_map.mp hs
    obtain ⟨item, hitem, rfl⟩ := List.mem_map.mp hx
    exact hitems segment hsegment item hitem (hoffers segment hsegment item hitem)

theorem holds_item (item : Item) (hitem : item.Offers S) :
    (drawGuarantee S).Holds 1 (item.generate host) := by
  induction item using Item.induct with
  | mk data rep maybe ih =>
    obtain ⟨hdata, hrep, hoffered⟩ := Item.offers_mk.mp hitem
    rw [Item.generate_mk, generateItem]
    have hcopy : (drawGuarantee S).Holds 1 (generateData host (data.map (Item.generate host))) := by
      cases data with
      | set set => exact holds_generateSet hdata
      | literal literal => exact holds_emitAll _
      | special special =>
        rw [ItemData.map, generateData, generateSpecial]
        split
        · exact holds_generateSpecialMarkov special
        · exact holds_generateSpecialWordlist special
        · exact Effect.Guarantee.holds_pure _
      | group group => exact Group.Offers.holds hdata ih
    have hmaybe : (drawGuarantee S).Holds 1 (decideMaybe host maybe) := by
      rw [decideMaybe]
      split
      · exact holds_drawMaybe (hoffered (by assumption))
      · exact Effect.Guarantee.holds_pure _
    refine hmaybe.then fun emits => ?_
    split
    · exact (holds_generateRepeat hrep).then fun reps => hcopy.times reps
    · exact Effect.Guarantee.holds_pure _

/-- **Every run of a pattern is accounted for**, however it ends. -/
theorem holds_generate {pattern : Group} (hpattern : pattern.Offers S) :
    (drawGuarantee S).Holds 1 (generate host pattern) :=
  hpattern.holds fun _ _ item _ hitem => holds_item item hitem

/-- **Every draw of a run is lawful**, however the run ends. -/
theorem lawful_of_mem_draws {pattern : Group} (hpattern : pattern.Offers S) {s : GenState σ δ}
    (hs : s.Loaded) (hdraws : s.draws = []) :
    ∀ draw ∈ (Effect.final (generate host pattern) s).draws, draw.Lawful S := by
  have hholds : (drawGuarantee S).HoldsAt 1 (generate host pattern) s := holds_generate hpattern s
  rcases Effect.returns_or_stops (generate host pattern) s with ⟨_, t, hrun⟩ | ⟨e, t, hrun⟩
  · obtain ⟨new, h⟩ := hholds.returns hrun hs
    rw [Effect.final_of_returns hrun, h.draws, hdraws, List.nil_append]
    exact fun draw hdraw => (h.lawful draw hdraw).1
  · obtain ⟨new, hnew, hlawful⟩ := hholds.stops hrun hs
    rw [Effect.final_of_stops hrun, hnew, hdraws, List.nil_append]
    exact hlawful

end Parts

end Passgen
