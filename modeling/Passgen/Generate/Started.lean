import Mathlib.Data.List.Basic
import Mathlib.Tactic.Common
import Passgen.Effect.Reached
import Passgen.Generate.Sink

/-!
# Generate/Started — the specials a run starts

    group ─ enters ▸ segment ─ items before ▸ item ─ copies before ▸ special

A run starts a special in the state its item reaches it in: the depth allows for the group, the
segment was chosen, and the items and the copies before have returned.  Only specials touch the
wordlists, so what holds of these is kept by a run if it is kept by the specials the run starts.
-/

namespace Passgen

variable {σ δ α β : Type} (host : Host σ δ)

/-! ## Starts -/

/-- From `s` a copy of the item starts in `t`. -/
def ReachesCopy (data : ItemData Item) (rep : Repeat) (maybe : Bool) (s t : GenState σ δ) : Prop :=
  ∃ s₁ s₂ reps, Effect.Returns (decideMaybe host maybe) s true s₁ ∧
    Effect.Returns (generateRepeat host rep) s₁ reps s₂ ∧
    Effect.Reaches (fun _ => generateData host (data.map (Item.generate host)))
      (List.replicate reps ()) s₂ () t

/-- From `s` the group gets to its segment in `t`. -/
def Enters (group : Group) (s : GenState σ δ) (segment : Segment) (t : GenState σ δ) : Prop :=
  ∃ s₁ s₂ s₃ choice i, Effect.Returns descend s () s₁ ∧ group.multiplierSum ≠ 0 ∧
    Effect.Returns (drawBelow host (.segment (group.segments.map SegmentOf.multiplier))
      group.multiplierSum) s₁ choice s₂ ∧
    chooseSegment group.segments choice = some (i, segment) ∧
    Effect.Returns (multiplyEntropy group.multiplierSum) s₂ () s₃ ∧
    Effect.Returns (divideEntropy segment.multiplier) s₃ () t

/-- From `s` the run of the item starts the special in `t`. -/
inductive Item.Starts : Item → GenState σ δ → Special → GenState σ δ → Prop where
  | special {special : Special} {rep : Repeat} {maybe : Bool} {s t : GenState σ δ}
      (hcopy : ReachesCopy host (.special special) rep maybe s t) :
      Starts (.mk (.special special) rep maybe) s special t
  | group {group : Group} {rep : Repeat} {maybe : Bool} {segment : Segment} {item : Item}
      {special : Special} {s s₁ s₂ s₃ t : GenState σ δ}
      (hcopy : ReachesCopy host (.group group) rep maybe s s₁)
      (henters : Enters host group s₁ segment s₂)
      (hitem : Effect.Reaches (Item.generate host) segment.items s₂ item s₃)
      (h : Starts item s₃ special t) :
      Starts (.mk (.group group) rep maybe) s special t

/-- From `s` the run of the group starts the special in `t`. -/
def Group.Starts (group : Group) (s : GenState σ δ) (special : Special) (t : GenState σ δ) : Prop :=
  ∃ segment s₁ item s₂, Enters host group s segment s₁ ∧
    Effect.Reaches (Item.generate host) segment.items s₁ item s₂ ∧ item.Starts host s₂ special t

section Stops

variable {host} {e : Stop} {s t u : GenState σ δ}

theorem ReachesCopy.stops {data : ItemData Item} {rep : Repeat} {maybe : Bool}
    (hcopy : ReachesCopy host data rep maybe s t)
    (h : Effect.Stops (generateData host (data.map (Item.generate host))) t e u) :
    Effect.Stops ((Item.mk data rep maybe).generate host) s e u := by
  obtain ⟨s₁, s₂, reps, hmaybe, hrep, hreach⟩ := hcopy
  rw [Item.generate_mk, generateItem]
  refine Effect.stops_bind_iff.mpr (.inr ⟨true, s₁, hmaybe, ?_⟩)
  rw [if_pos rfl]
  refine Effect.stops_bind_iff.mpr (.inr ⟨reps, s₂, hrep, ?_⟩)
  rw [Effect.times_eq_inOrder]
  exact hreach.stops h

theorem Enters.stops {group : Group} {segment : Segment} (henters : Enters host group s segment t)
    (h : Effect.Stops (Effect.inOrder (segment.items.map (Item.generate host))) t e u) :
    Effect.Stops (generateGroup host (group.map (Item.generate host))) s e u := by
  obtain ⟨s₁, s₂, s₃, choice, i, hdescend, hsum, hdraw, hchoose, hmultiply, hdivide⟩ := henters
  rw [generateGroup, GroupOf.multipliers_map, GroupOf.multiplierSum_map, GroupOf.segments_map]
  refine Effect.stops_bind_iff.mpr (.inr ⟨(), s₁, hdescend, ?_⟩)
  rw [if_neg hsum]
  refine Effect.stops_bind_iff.mpr (.inr ⟨choice, s₂, hdraw, ?_⟩)
  rw [chooseSegment_map, hchoose]
  refine Effect.stops_bind_iff.mpr (.inr ⟨(), s₃, hmultiply, ?_⟩)
  refine Effect.stops_bind_iff.mpr (.inr ⟨(), t, hdivide, ?_⟩)
  exact Effect.stops_bind_iff.mpr (.inl h)

/-- **Where a special stops**, its item does. -/
theorem Item.Starts.stops {item : Item} {special : Special} (h : item.Starts host s special t)
    (hstops : Effect.Stops (generateSpecial host special) t e u) :
    Effect.Stops (item.generate host) s e u := by
  induction h with
  | special hcopy => exact hcopy.stops hstops
  | group hcopy henters hitem h ih => exact hcopy.stops (henters.stops (hitem.stops (ih hstops)))

/-- **Where a special stops**, the run does. -/
theorem Group.Starts.stops {pattern : Group} {special : Special}
    (h : pattern.Starts host s special t)
    (hstops : Effect.Stops (generateSpecial host special) t e u) :
    Effect.Stops (generate host pattern) s e u := by
  obtain ⟨segment, s₁, item, s₂, henters, hitem, h⟩ := h
  exact henters.stops (hitem.stops (h.stops hstops))

end Stops

/-! ## What leaves the wordlists alone -/

/-- Whatever holds of the wordlists, the computation keeps it. -/
def Kept (x : Gen σ δ α) : Prop :=
  ∀ R : List (List UInt8 × Wordlist) → Prop, (Effect.invariant fun s => R s.wordlists).Holds 1 x

section Kept

variable {host}

theorem kept_of {x : Gen σ δ α}
    (hreturns : ∀ {s a t}, Effect.Returns x s a t → t.wordlists = s.wordlists)
    (hstops : ∀ {s e t}, Effect.Stops x s e t → t.wordlists = s.wordlists) : Kept x := by
  refine fun R s => ⟨fun hx hs => ?_, fun hx hs => ?_⟩
  · exact (congrArg R (hreturns hx)).mpr hs
  · exact (congrArg R (hstops hx)).mpr hs

theorem kept_pure (a : α) : Kept (pure a : Gen σ δ α) := fun _ => Effect.Guarantee.holds_pure a

theorem kept_throw (e : Stop) : Kept (throw e : Gen σ δ α) :=
  fun _ => Effect.Guarantee.holds_throw e

theorem Kept.bind {x : Gen σ δ α} {f : α → Gen σ δ β} (hx : Kept x) (hf : ∀ a, Kept (f a)) :
    Kept (x >>= f) := fun R => (hx R).then fun a => hf a R

theorem kept_emit (codepoint : ℕ) : Kept (emit host codepoint) := by
  refine kept_of (fun h => ?_) fun h => ?_
  · rw [(returns_emit_iff.mp h).2]
  · rw [(stops_emit_iff.mp h).2.2]

theorem kept_emitAll (codepoints : List ℕ) : Kept (emitAll host codepoints) := by
  refine fun R => Effect.Guarantee.holds_inOrder fun x hx => ?_
  obtain ⟨codepoint, -, rfl⟩ := List.mem_map.mp hx
  exact kept_emit codepoint R

theorem kept_drawBelow (site : Site) (bound : ℕ) : Kept (drawBelow host site bound) := by
  refine kept_of (fun h => ?_) fun h => ?_
  · obtain ⟨random, -, rfl⟩ := returns_drawBelow_iff.mp h
    rfl
  · rw [(stops_drawBelow_iff.mp h).2.2]

theorem kept_decideMaybe (maybe : Bool) : Kept (decideMaybe host maybe) := by
  rw [decideMaybe]
  split
  · refine kept_of (fun h => ?_) fun h => ?_
    · rw [(returns_drawMaybe_iff.mp h).2]
    · exact absurd h (by simp [Effect.Stops, EStateM.run, drawMaybe])
  · exact kept_pure _

theorem kept_entropy (f : ℚ → ℚ) :
    Kept (modify fun s => { s with entropy := s.entropy.map f } : Gen σ δ Unit) :=
  fun _ => Effect.Guarantee.holds_modify fun _ => id

theorem kept_descend : Kept (descend : Gen σ δ Unit) := by
  refine kept_of (fun h => ?_) fun {s e t} h => ?_
  · rw [(returns_descend_iff.mp h).2]
  · rw [Effect.Stops, EStateM.run, descend] at h
    split at h
    · rw [(EStateM.Result.error.inj h).2]
    · exact absurd h (by simp)

theorem kept_ascend : Kept (ascend : Gen σ δ Unit) :=
  fun _ => Effect.Guarantee.holds_modify fun _ => id

theorem kept_generateRepeat (rep : Repeat) : Kept (generateRepeat host rep) := by
  rw [generateRepeat]
  split
  · exact kept_pure _
  · exact (kept_drawBelow _ _).bind fun _ => (kept_entropy _).bind fun _ => kept_pure _

theorem kept_generateSet (set : PatternSet) : Kept (generateSet host set) := by
  rw [generateSet]
  split
  · exact kept_pure _
  split
  · exact kept_throw _
  refine (kept_drawBelow _ _).bind fun choice => (kept_entropy _).bind fun _ => ?_
  split
  · exact kept_throw _
  · exact kept_emit _

theorem kept_markovGenerate (markov : Markov) (current : List ℕ) :
    Kept (markovGenerate host markov current) := by
  rw [markovGenerate]
  split
  · exact kept_throw _
  split
  · exact kept_throw _
  refine (kept_entropy _).bind fun _ => (kept_drawBelow _ _).bind fun choice => ?_
  split
  · exact kept_throw _
  · exact (kept_entropy _).bind fun _ => kept_pure _

theorem kept_markovWord (markov : Markov) (room : ℕ) (word : List ℕ) :
    Kept (markovWord host markov room word) := by
  induction room generalizing word with
  | zero => exact kept_throw _
  | succ room ih =>
    rw [markovWord]
    refine (kept_markovGenerate _ _).bind fun codepoint => ?_
    split
    · exact kept_pure _
    · exact ih _

end Kept

/-! ## What a run keeps -/

section Runs

variable {host} {R : List (List UInt8 × Wordlist) → Prop} {Q : Special → GenState σ δ → Prop}

/-- The specials in `Q` keep `R`. -/
def SpecialsKeep (host : Host σ δ) (R : List (List UInt8 × Wordlist) → Prop)
    (Q : Special → GenState σ δ → Prop) : Prop :=
  ∀ special t, Q special t →
    (Effect.invariant fun s => R s.wordlists).HoldsAt 1 (generateSpecial host special) t

/-- From where the run of the item starts one of `Q` only, it keeps `R`. -/
def Item.Keeps (host : Host σ δ) (R : List (List UInt8 × Wordlist) → Prop)
    (Q : Special → GenState σ δ → Prop) (item : Item) : Prop :=
  ∀ s, (∀ special t, item.Starts host s special t → Q special t) →
    (Effect.invariant fun s => R s.wordlists).HoldsAt 1 (item.generate host) s

theorem Enters.mem {group : Group} {s t : GenState σ δ} {segment : Segment}
    (h : Enters host group s segment t) : segment ∈ group.segments := by
  obtain ⟨_, _, _, choice, i, -, -, -, hchoose, -⟩ := h
  exact List.mem_of_getElem? (chooseSegment_eq_some_iff.mp hchoose).1

/-- A group whose items keep `R` from where they start. -/
theorem holdsAt_generateGroup {group : Group} {s : GenState σ δ}
    (h : ∀ segment s₁ item s₂, Enters host group s segment s₁ →
      Effect.Reaches (Item.generate host) segment.items s₁ item s₂ →
      (Effect.invariant fun s => R s.wordlists).HoldsAt 1 (item.generate host) s₂) :
    (Effect.invariant fun s => R s.wordlists).HoldsAt 1
      (generateGroup host (group.map (Item.generate host))) s := by
  rw [generateGroup, GroupOf.multipliers_map, GroupOf.multiplierSum_map, GroupOf.segments_map]
  refine (kept_descend R s).next fun _ s₁ hdescend => ?_
  split
  · exact Effect.Guarantee.holds_throw _ s₁
  rename_i hsum
  refine (kept_drawBelow _ _ R s₁).next fun choice s₂ hdraw => ?_
  rw [chooseSegment_map]
  cases hchoose : chooseSegment group.segments choice with
  | none => exact Effect.Guarantee.holds_throw _ s₂
  | some p =>
    refine (kept_entropy _ R s₂).next fun _ s₃ hmultiply => ?_
    refine (kept_entropy _ R s₃).next fun _ s₄ hdivide => ?_
    have henters : Enters host group s p.2 s₄ :=
      ⟨s₁, s₂, s₃, choice, p.1, hdescend, hsum, hdraw, hchoose, hmultiply, hdivide⟩
    have hitems := Effect.Guarantee.holdsAt_inOrder (h p.2 s₄ · · henters)
    exact hitems.next fun _ t _ => kept_ascend R t

/-- A copy of an item. -/
theorem holdsAt_copy (hQ : SpecialsKeep host R Q) {data : ItemData Item} {rep : Repeat}
    {maybe : Bool} {s t : GenState σ δ} (hdata : data.All (Item.Keeps host R Q))
    (hstarts : ∀ special t, (Item.mk data rep maybe).Starts host s special t → Q special t)
    (hcopy : ReachesCopy host data rep maybe s t) :
    (Effect.invariant fun s => R s.wordlists).HoldsAt 1
      (generateData host (data.map (Item.generate host))) t := by
  cases data with
  | set set => exact kept_generateSet set R t
  | literal literal => exact kept_emitAll _ R t
  | special special => exact hQ special t (hstarts special t (.special hcopy))
  | group group =>
    refine holdsAt_generateGroup fun segment s₁ item s₂ henters hitem => ?_
    refine hdata segment henters.mem item hitem.mem s₂ fun special u hu => ?_
    exact hstarts special u (.group hcopy henters hitem hu)

/-- **Every item keeps `R`** from where it starts one of `Q` only. -/
theorem keeps_item (hQ : SpecialsKeep host R Q) (item : Item) : item.Keeps host R Q := by
  induction item using Item.induct with
  | mk data rep maybe ih =>
    intro s hstarts
    rw [Item.generate_mk, generateItem]
    refine (kept_decideMaybe maybe R s).next fun emits s₁ hmaybe => ?_
    split
    · rename_i hemits
      refine (kept_generateRepeat rep R s₁).next fun reps s₂ hrep => ?_
      refine Effect.Guarantee.holdsAt_times fun t ht => holdsAt_copy hQ ih hstarts ?_
      exact ⟨s₁, s₂, reps, hemits ▸ hmaybe, hrep, ht⟩
    · exact Effect.Guarantee.holds_pure _ s₁

theorem all_keeps (hQ : SpecialsKeep host R Q) (data : ItemData Item) :
    data.All (Item.Keeps host R Q) := by
  cases data with
  | group group => exact fun segment _ item _ => keeps_item hQ item
  | _ => trivial

/-- **A run keeps `R`** if it starts one of `Q` only. -/
theorem holdsAt_generate (hQ : SpecialsKeep host R Q) {pattern : Group} {s : GenState σ δ}
    (hstarts : ∀ special t, pattern.Starts host s special t → Q special t) :
    (Effect.invariant fun s => R s.wordlists).HoldsAt 1 (generate host pattern) s :=
  holdsAt_generateGroup fun segment s₁ item s₂ henters hitem =>
    keeps_item hQ item s₂ fun special t ht =>
      hstarts special t ⟨segment, s₁, item, s₂, henters, hitem, ht⟩

/-! ## What holds where a special starts -/

theorem ReachesCopy.kept (hQ : SpecialsKeep host R Q) {data : ItemData Item} {rep : Repeat}
    {maybe : Bool} {s t : GenState σ δ} (hcopy : ReachesCopy host data rep maybe s t)
    (hstarts : ∀ special t, (Item.mk data rep maybe).Starts host s special t → Q special t)
    (hs : R s.wordlists) : R t.wordlists := by
  obtain ⟨s₁, s₂, reps, hmaybe, hrep, hreach⟩ := hcopy
  have hs₁ := (kept_decideMaybe maybe R s).returns hmaybe hs
  have hs₂ := (kept_generateRepeat rep R s₁).returns hrep hs₁
  refine Effect.Guarantee.returns_of_reaches (G := Effect.invariant fun s => R s.wordlists) hreach
    (fun _ u hu => ?_) hs₂
  exact holdsAt_copy hQ (all_keeps hQ data) hstarts ⟨s₁, s₂, reps, hmaybe, hrep, hu⟩

theorem Enters.kept {group : Group} {s t : GenState σ δ} {segment : Segment}
    (h : Enters host group s segment t) (hs : R s.wordlists) : R t.wordlists := by
  obtain ⟨s₁, s₂, s₃, choice, i, hdescend, -, hdraw, -, hmultiply, hdivide⟩ := h
  have hs₁ := (kept_descend R s).returns hdescend hs
  have hs₂ := (kept_drawBelow _ _ R s₁).returns hdraw hs₁
  exact (kept_entropy _ R s₃).returns hdivide ((kept_entropy _ R s₂).returns hmultiply hs₂)

/-- Up to where an item of a segment starts. -/
theorem kept_of_reaches (hQ : SpecialsKeep host R Q) {items : List Item} {item : Item}
    {s t : GenState σ δ} (hitem : Effect.Reaches (Item.generate host) items s item t)
    (hstarts : ∀ item u, Effect.Reaches (Item.generate host) items s item u →
      ∀ special v, item.Starts host u special v → Q special v)
    (hs : R s.wordlists) : R t.wordlists :=
  Effect.Guarantee.returns_of_reaches (G := Effect.invariant fun s => R s.wordlists) hitem
    (fun item u hu => keeps_item hQ item u (hstarts item u hu)) hs

/-- **`R` holds where an item starts a special**, if it starts one of `Q` only. -/
theorem Item.Starts.kept (hQ : SpecialsKeep host R Q) {item : Item} {special : Special}
    {s t : GenState σ δ} (h : item.Starts host s special t)
    (hstarts : ∀ special t, item.Starts host s special t → Q special t) (hs : R s.wordlists) :
    R t.wordlists := by
  induction h with
  | special hcopy => exact hcopy.kept hQ hstarts hs
  | group hcopy henters hitem h ih =>
    refine ih (fun special u hu => hstarts special u (.group hcopy henters hitem hu)) ?_
    refine kept_of_reaches hQ hitem (fun item u hu special v hv => ?_)
      (henters.kept (hcopy.kept hQ hstarts hs))
    exact hstarts special v (.group hcopy henters hu hv)

/-- **`R` holds where a run starts a special.** -/
theorem Group.Starts.kept (hQ : SpecialsKeep host R Q) {pattern : Group} {special : Special}
    {s t : GenState σ δ} (h : pattern.Starts host s special t)
    (hstarts : ∀ special t, pattern.Starts host s special t → Q special t)
    (hs : R s.wordlists) : R t.wordlists := by
  obtain ⟨segment, s₁, item, s₂, henters, hitem, h⟩ := h
  refine h.kept hQ (fun special u hu => hstarts special u ⟨_, _, _, _, henters, hitem, hu⟩) ?_
  refine kept_of_reaches hQ hitem (fun item u hu special v hv => ?_) (henters.kept hs)
  exact hstarts special v ⟨_, _, _, _, henters, hu, hv⟩

end Runs

end Passgen
