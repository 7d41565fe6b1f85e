import Mathlib.Data.List.Basic
import Mathlib.Tactic.Common
import Passgen.Effect.Coupled
import Passgen.Generate.Language

/-!
# Generate/Sink — one run, another callback

    c₁ c₂ … cₖ cₖ₊₁ … cₙ        what a run emits that returns
    c₁ c₂ … cₖ ▪                what it emits into a callback that refuses cₖ

Nothing the generator does depends on what is behind the callback, but for when it stops.  So a run
that returns can be replayed into another callback: it does the same, and the callback is fed the
same codepoints, up to the first that is refused (`follows_generate`).
-/

namespace Passgen

variable {σ δ₁ δ₂ : Type}

/-! ## Feeding a callback -/

/-- The callback on all codepoints, up to the first it returns nonzero for. -/
def feed (func : δ₂ → ℕ → ℤ × δ₂) : δ₂ → List ℕ → ℤ × δ₂
  | data, [] => (0, data)
  | data, c :: cs => if (func data c).1 = 0 then feed func (func data c).2 cs else func data c

section Feed

variable {func : δ₂ → ℕ → ℤ × δ₂}

theorem feed_append (data : δ₂) (v w : List ℕ) :
    feed func data (v ++ w) =
      if (feed func data v).1 = 0 then feed func (feed func data v).2 w else feed func data v := by
  induction v generalizing data with
  | nil => rfl
  | cons c v ih =>
    rw [List.cons_append, feed, feed]
    split
    · exact ih _
    · rfl

theorem feed_concat (data : δ₂) (v : List ℕ) (c : ℕ) (h : (feed func data v).1 = 0) :
    feed func data (v ++ [c]) = func (feed func data v).2 c := by
  rw [feed_append, if_pos h, feed]
  split
  · rename_i hcode
    rw [feed, ← hcode]
  · rfl

theorem feed_append_of_ne {data : δ₂} {v : List ℕ} (h : (feed func data v).1 ≠ 0) (w : List ℕ) :
    feed func data (v ++ w) = feed func data v := by
  rw [feed_append, if_neg h]

end Feed

/-! ## Two runs side by side -/

/-- The second run is where the first one is, and its callback was fed what the first one
emitted. -/
structure SideBySide (func : δ₂ → ℕ → ℤ × δ₂) (data : δ₂) (s : GenState σ δ₁) (s' : GenState σ δ₂) :
    Prop where
  random : s'.random = s.random
  depth : s'.depth = s.depth
  wordlists : s'.wordlists = s.wordlists
  emitted : s'.emitted = s.emitted
  draws : s'.draws = s.draws
  fed : feed func data s.emitted = (0, s'.data)

/-- The second run was stopped by its callback; up to there it was where the first one was. -/
structure CutShort (func : δ₂ → ℕ → ℤ × δ₂) (data : δ₂) (s : GenState σ δ₁) (e : Stop)
    (s' : GenState σ δ₂) : Prop where
  refused : (feed func data s.emitted).1 ≠ 0
  stop : e = .returned (feed func data s.emitted).1
  fed : (feed func data s.emitted).2 = s'.data
  emitted : s'.emitted <+: s.emitted
  draws : s'.draws <+: s.draws

/-- Two runs with callbacks of their own. -/
def sinkCoupling (func : δ₂ → ℕ → ℤ × δ₂) (data : δ₂) :
    Effect.Coupling Stop (GenState σ δ₁) (GenState σ δ₂) :=
  ⟨SideBySide func data, CutShort func data⟩

section Follows

variable {source : Source σ} {free : δ₁ → ℕ → ℤ × δ₁} {func : δ₂ → ℕ → ℤ × δ₂} {data : δ₂}

/-- Going on emits and draws more. -/
theorem CutShort.later {s t : GenState σ δ₁} {e : Stop} {s' : GenState σ δ₂}
    (h : CutShort func data s e s') (hemitted : s.emitted <+: t.emitted)
    (hdraws : s.draws <+: t.draws) : CutShort func data t e s' := by
  obtain ⟨w, hw⟩ := hemitted
  have hfeed : feed func data t.emitted = feed func data s.emitted := by
    rw [← hw, feed_append_of_ne h.refused]
  constructor
  · rw [hfeed]
    exact h.refused
  · rw [hfeed]
    exact h.stop
  · rw [hfeed]
    exact h.fed
  · exact h.emitted.trans ⟨w, hw⟩
  · exact h.draws.trans hdraws

theorem follows_emit (codepoint : ℕ) :
    (sinkCoupling func data).Follows (emit ⟨source, free⟩ codepoint)
      (emit ⟨source, func⟩ codepoint) where
  both {s s' a t} hs hx := by
    obtain ⟨-, rfl⟩ := returns_emit_iff.mp hx
    have hfeed : feed func data (s.emitted ++ [codepoint]) = func s'.data codepoint := by
      rw [feed_concat _ _ _ (by rw [hs.fed]), hs.fed]
    by_cases hcode : (func s'.data codepoint).1 = 0
    · refine .inl ⟨_, returns_emit_iff.mpr ⟨hcode, rfl⟩, ?_⟩
      refine ⟨hs.random, hs.depth, hs.wordlists, by rw [hs.emitted], hs.draws, ?_⟩
      rw [hfeed, ← hcode]
    · refine .inr ⟨_, _, stops_emit_iff.mpr ⟨hcode, rfl, rfl⟩, ?_⟩
      refine ⟨by rwa [hfeed], by rw [hfeed], by rw [hfeed], ?_, ?_⟩
      · rw [hs.emitted]
      · rw [hs.draws]
  cut hs hx := by
    obtain ⟨-, rfl⟩ := returns_emit_iff.mp hx
    exact hs.later (List.prefix_append _ _) List.prefix_rfl

theorem follows_emitAll (codepoints : List ℕ) :
    (sinkCoupling func data).Follows (emitAll ⟨source, free⟩ codepoints)
      (emitAll ⟨source, func⟩ codepoints) :=
  Effect.Coupling.follows_inOrder fun codepoint _ => follows_emit codepoint

theorem follows_drawBelow (site : Site) (bound : ℕ) :
    (sinkCoupling func data).Follows (drawBelow ⟨source, free⟩ site bound)
      (drawBelow ⟨source, func⟩ site bound) where
  both {s s' v t} hs hx := by
    obtain ⟨random, hdraw, rfl⟩ := returns_drawBelow_iff.mp hx
    refine .inl ⟨_, returns_drawBelow_iff.mpr ⟨random, by rw [hs.random, hdraw], rfl⟩, ?_⟩
    exact ⟨rfl, hs.depth, hs.wordlists, hs.emitted, by rw [hs.draws], hs.fed⟩
  cut hs hx := by
    obtain ⟨random, -, rfl⟩ := returns_drawBelow_iff.mp hx
    exact hs.later List.prefix_rfl (List.prefix_append _ _)

theorem follows_drawMaybe :
    (sinkCoupling func data).Follows (drawMaybe ⟨source, free⟩) (drawMaybe ⟨source, func⟩) where
  both {s s' v t} hs hx := by
    obtain ⟨rfl, rfl⟩ := returns_drawMaybe_iff.mp hx
    refine .inl ⟨_, returns_drawMaybe_iff.mpr ⟨by rw [hs.random], rfl⟩, ?_⟩
    exact ⟨by rw [hs.random], hs.depth, hs.wordlists, hs.emitted, by rw [hs.random, hs.draws],
      hs.fed⟩
  cut hs hx := by
    obtain ⟨-, rfl⟩ := returns_drawMaybe_iff.mp hx
    exact hs.later List.prefix_rfl (List.prefix_append _ _)

theorem follows_descend :
    (sinkCoupling func data).Follows (descend : Gen σ δ₁ Unit) (descend : Gen σ δ₂ Unit) where
  both {s s' a t} hs hx := by
    obtain ⟨hdepth, rfl⟩ := returns_descend_iff.mp hx
    refine .inl ⟨_, returns_descend_iff.mpr ⟨by rwa [hs.depth], rfl⟩, ?_⟩
    exact ⟨hs.random, by rw [hs.depth], hs.wordlists, hs.emitted, hs.draws, hs.fed⟩
  cut hs hx := by
    obtain ⟨-, rfl⟩ := returns_descend_iff.mp hx
    exact hs.later List.prefix_rfl List.prefix_rfl

theorem follows_ascend :
    (sinkCoupling func data).Follows (ascend : Gen σ δ₁ Unit) (ascend : Gen σ δ₂ Unit) :=
  Effect.Coupling.follows_modify
    (fun hs => ⟨hs.random, congrArg (· + 1) hs.depth, hs.wordlists, hs.emitted, hs.draws, hs.fed⟩)
    fun hs => hs.later List.prefix_rfl List.prefix_rfl

/-- The entropy is each run's own. -/
theorem follows_scale (f : ℚ → ℚ) :
    (sinkCoupling func data).Follows
      (modify fun s => { s with entropy := s.entropy.map f } : Gen σ δ₁ Unit)
      (modify fun s => { s with entropy := s.entropy.map f } : Gen σ δ₂ Unit) :=
  Effect.Coupling.follows_modify
    (fun hs => ⟨hs.random, hs.depth, hs.wordlists, hs.emitted, hs.draws, hs.fed⟩)
    fun hs => hs.later List.prefix_rfl List.prefix_rfl

/-! ## The parts of the generator -/

theorem follows_generateRepeat (rep : Repeat) :
    (sinkCoupling func data).Follows (generateRepeat ⟨source, free⟩ rep)
      (generateRepeat ⟨source, func⟩ rep) := by
  rw [generateRepeat, generateRepeat]
  split
  · exact Effect.Coupling.follows_pure _
  · refine (follows_drawBelow _ _).bind fun choice => ?_
    exact (follows_scale _).bind fun _ => Effect.Coupling.follows_pure _

theorem follows_generateSet (set : PatternSet) :
    (sinkCoupling func data).Follows (generateSet ⟨source, free⟩ set)
      (generateSet ⟨source, func⟩ set) := by
  rw [generateSet, generateSet]
  split
  · exact Effect.Coupling.follows_pure _
  split
  · exact Effect.Coupling.follows_throw _ _
  · refine (follows_drawBelow _ _).bind fun choice => (follows_scale _).bind fun _ => ?_
    cases setCodepoint set choice with
    | none => exact Effect.Coupling.follows_throw _ _
    | some codepoint => exact follows_emit codepoint

/-- Looking up a wordlist reads nothing but the wordlists. -/
theorem follows_findWordlist (special : Special) :
    (sinkCoupling func data).Follows (findWordlist special : Gen σ δ₁ _)
      (findWordlist special : Gen σ δ₂ _) := by
  rw [findWordlist, findWordlist]
  refine Effect.Coupling.follows_get (P := fun s s' => s'.wordlists = s.wordlists)
    (fun hs => hs.wordlists) (fun {s e s'} _ => ⟨{ s' with wordlists := s.wordlists }, rfl⟩) ?_
  intro s s' hwordlists
  rw [hwordlists]
  split
  · split
    · exact Effect.Coupling.follows_throw _ _
    · exact Effect.Coupling.follows_throw _ _
  split
  · exact Effect.Coupling.follows_throw _ _
  split
  · exact Effect.Coupling.follows_pure _
  split
  · exact Effect.Coupling.follows_throw _ _
  · exact Effect.Coupling.follows_pure _

/-- Storing a parsed wordlist. -/
theorem follows_storeWordlist (name : List UInt8) (wordlist : Wordlist) :
    (sinkCoupling func data).Follows (storeWordlist name wordlist : Gen σ δ₁ Unit)
      (storeWordlist name wordlist : Gen σ δ₂ Unit) :=
  Effect.Coupling.follows_modify
    (fun hs => ⟨hs.random, hs.depth, by rw [hs.wordlists], hs.emitted, hs.draws, hs.fed⟩)
    fun hs => hs.later List.prefix_rfl List.prefix_rfl

theorem follows_trainWordlist (wordlist : Wordlist) :
    (sinkCoupling func data).Follows (trainWordlist wordlist : Gen σ δ₁ _)
      (trainWordlist wordlist : Gen σ δ₂ _) := by
  rw [trainWordlist, trainWordlist]
  split
  · exact Effect.Coupling.follows_pure _
  split
  · exact Effect.Coupling.follows_throw _ _
  · exact Effect.Coupling.follows_pure _

theorem follows_markovGenerate (markov : Markov) (current : List ℕ) :
    (sinkCoupling func data).Follows (markovGenerate ⟨source, free⟩ markov current)
      (markovGenerate ⟨source, func⟩ markov current) := by
  rw [markovGenerate, markovGenerate]
  split
  · exact Effect.Coupling.follows_throw _ _
  split
  · exact Effect.Coupling.follows_throw _ _
  · rename_i leaf hleaf
    refine (follows_scale _).bind fun _ => (follows_drawBelow _ _).bind fun choice => ?_
    rcases leafChoose leaf (List.range leaf.capacity) choice with _ | ⟨codepoint, count⟩
    · exact Effect.Coupling.follows_throw _ _
    · exact (follows_scale _).bind fun _ => Effect.Coupling.follows_pure _

theorem follows_markovWord (markov : Markov) (room : ℕ) (word : List ℕ) :
    (sinkCoupling func data).Follows (markovWord ⟨source, free⟩ markov room word)
      (markovWord ⟨source, func⟩ markov room word) := by
  induction room generalizing word with
  | zero => exact Effect.Coupling.follows_throw _ _
  | succ room ih =>
    rw [markovWord, markovWord]
    refine (follows_markovGenerate _ _).bind fun codepoint => ?_
    split
    · exact Effect.Coupling.follows_pure _
    · exact ih _

theorem follows_generateSpecial (special : Special) :
    (sinkCoupling func data).Follows (generateSpecial ⟨source, free⟩ special)
      (generateSpecial ⟨source, func⟩ special) := by
  rw [generateSpecial, generateSpecial]
  split
  · refine (follows_findWordlist _).bind fun found =>
      (follows_trainWordlist _).bind fun wordlist => ?_
    refine (follows_storeWordlist _ _).bind fun _ => ?_
    exact (follows_markovWord _ _ _).bind fun word => follows_emitAll _
  · refine (follows_findWordlist _).bind fun found => (follows_storeWordlist _ _).bind fun _ => ?_
    split
    · exact Effect.Coupling.follows_throw _ _
    · refine (follows_drawBelow _ _).bind fun index => ?_
      dsimp only
      split
      · exact Effect.Coupling.follows_throw _ _
      · exact (follows_emitAll _).bind fun _ => follows_scale _
  · exact Effect.Coupling.follows_pure _

/-! ## The generator -/

theorem chooseSegment_map {ι κ : Type} (f : ι → κ) (segments : List (SegmentOf ι)) (choice : ℕ) :
    chooseSegment (segments.map (SegmentOf.map f)) choice =
      (chooseSegment segments choice).map fun p => (p.1, p.2.map f) := by
  induction segments generalizing choice with
  | nil => rfl
  | cons segment segments ih =>
    rw [List.map_cons, chooseSegment, chooseSegment, SegmentOf.multiplier_map]
    split
    · rw [ih, Option.map_map, Option.map_map]
      rfl
    · rfl

/-- A group, given its items. -/
theorem follows_group {group : Group}
    (hitems : ∀ segment ∈ group.segments, ∀ item ∈ segment.items,
      (sinkCoupling func data).Follows (item.generate ⟨source, free⟩)
        (item.generate ⟨source, func⟩)) :
    (sinkCoupling func data).Follows (generate ⟨source, free⟩ group)
      (generate ⟨source, func⟩ group) := by
  rw [generate, generate, generateGroup, generateGroup, GroupOf.multipliers_map,
    GroupOf.multipliers_map, GroupOf.multiplierSum_map, GroupOf.multiplierSum_map,
    GroupOf.segments_map, GroupOf.segments_map]
  refine follows_descend.bind fun _ => ?_
  split
  · exact Effect.Coupling.follows_throw _ _
  refine (follows_drawBelow _ _).bind fun choice => ?_
  rw [chooseSegment_map, chooseSegment_map]
  cases hchoose : chooseSegment group.segments choice with
  | none => exact Effect.Coupling.follows_throw _ _
  | some p =>
    have hsegment := List.mem_of_getElem? (chooseSegment_eq_some_iff.mp hchoose).1
    refine (follows_scale _).bind fun _ => (follows_scale _).bind fun _ => ?_
    have hitems := Effect.Coupling.follows_inOrder (hitems p.2 hsegment)
    exact hitems.bind fun _ => follows_ascend

/-- **Every item follows itself.** -/
theorem follows_item (item : Item) :
    (sinkCoupling func data).Follows (item.generate ⟨source, free⟩)
      (item.generate ⟨source, func⟩) := by
  induction item using Item.induct with
  | mk d rep maybe ih =>
    have hcopy : (sinkCoupling func data).Follows
        (generateData ⟨source, free⟩ (d.map (Item.generate ⟨source, free⟩)))
        (generateData ⟨source, func⟩ (d.map (Item.generate ⟨source, func⟩))) := by
      cases d with
      | set set => exact follows_generateSet set
      | literal literal => exact follows_emitAll _
      | special special => exact follows_generateSpecial special
      | group group => exact follows_group ih
    have hmaybe : (sinkCoupling func data).Follows (decideMaybe ⟨source, free⟩ maybe)
        (decideMaybe ⟨source, func⟩ maybe) := by
      rw [decideMaybe, decideMaybe]
      split
      · exact follows_drawMaybe
      · exact Effect.Coupling.follows_pure _
    rw [Item.generate_mk, Item.generate_mk, generateItem, generateItem]
    refine hmaybe.bind fun emits => ?_
    split
    · exact (follows_generateRepeat rep).bind fun reps => hcopy.times reps
    · exact Effect.Coupling.follows_pure _

/-- **Every run follows itself**, whatever the callbacks. -/
theorem follows_generate (pattern : Group) :
    (sinkCoupling func data).Follows (generate ⟨source, free⟩ pattern)
      (generate ⟨source, func⟩ pattern) :=
  follows_group fun _ _ item _ => follows_item item

end Follows

end Passgen
