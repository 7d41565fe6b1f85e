import Mathlib.Data.List.Basic
import Mathlib.Tactic.Common
import Passgen.Generate.Bounds
import Passgen.Generate.Depth
import Passgen.Generate.Parts
import Passgen.Random.Exits

/-!
# Generate/Halting — when a run does not come to an end

    draw ✓   draw ✓   draw ✓   draw ∞        the loop is the last entry of the log

A run that is stuck is stuck in its last draw, and all draws before it are below their bounds.  On a
randomness that makes every draw there is something to draw for, that last bound is zero.  This is
so for xorshift: whatever is generated from it comes to an end, unless a place of the pattern has
nothing to draw (`xorshift_halts`).
-/

namespace Passgen

variable {σ δ : Type} {host : Host σ δ} {I : σ → Prop}

/-- All draws of the log were made. -/
def GenState.Drawn (s : GenState σ δ) : Prop :=
  ∀ draw ∈ s.draws, ∃ choice < draw.bound, draw.taken = some choice

/-- The last draw of the log, and no other, goes on forever, from a randomness in `I`. -/
def GenState.Stuck (source : Source σ) (I : σ → Prop) (s : GenState σ δ) : Prop :=
  ∃ draws site bound random, s.draws = draws ++ [⟨site, bound, none⟩] ∧
    (∀ draw ∈ draws, ∃ choice < draw.bound, draw.taken = some choice) ∧
    I random ∧ source.u64Max random bound = none

/-- The randomness stays in `I`, and only the last draw can be stuck. -/
def DrawsOn (host : Host σ δ) (I : σ → Prop) {α : Type} (x : Gen σ δ α) : Prop :=
  Effect.Triple (fun s => I s.random ∧ s.Drawn) x (fun _ s => I s.random ∧ s.Drawn)
    fun e s => if e = .looping then s.Stuck host.source I else s.Drawn

/-- Another draw is made. -/
theorem GenState.Drawn.snoc {s t : GenState σ δ} (h : s.Drawn) {site : Site} {bound choice : ℕ}
    (hlt : choice < bound) (hdraws : t.draws = s.draws ++ [⟨site, bound, some choice⟩]) :
    t.Drawn := by
  rw [GenState.Drawn, hdraws]
  exact List.forall_mem_append.mpr ⟨h, List.forall_mem_singleton.mpr ⟨choice, hlt, rfl⟩⟩

/-- **The parts of the generator draw on**, as long as draws keep the randomness in `I`. -/
theorem partRules_drawsOn
    (hbelow : ∀ {r max v r'}, I r → host.source.u64Max r max = some (v, r') → I r')
    (hbool : ∀ {r}, I r → I (host.source.bool r).2) : PartRules host (DrawsOn host I) where
  pure _ := Effect.triple_pure id
  throw {α e} he :=
    ⟨fun _ hx => absurd hx Effect.returns_throw, fun hs hx => by
      obtain ⟨rfl, rfl⟩ := Effect.stops_throw_iff.mp hx
      rw [if_neg he]
      exact hs.2⟩
  get :=
    ⟨fun hs hx => (Effect.returns_get_iff.mp hx).2 ▸ hs, fun _ hx => absurd hx (by
      simp [Effect.Stops])⟩
  bind hx hf := hx.bind hf
  modify hrandom hdraws := Effect.triple_modify fun {s} hs => by
    rw [GenState.Drawn, hrandom, hdraws]
    exact hs
  emit codepoint :=
    ⟨fun hs hx => by
      obtain ⟨-, rfl⟩ := returns_emit_iff.mp hx
      exact hs, fun hs hx => by
      obtain ⟨-, rfl, rfl⟩ := stops_emit_iff.mp hx
      rw [if_neg (by simp)]
      exact hs.2⟩
  descend :=
    ⟨fun hs hx => by
      obtain ⟨-, rfl⟩ := returns_descend_iff.mp hx
      exact hs, fun hs hx => by
      obtain ⟨-, rfl, rfl⟩ := stops_descend_iff.mp hx
      rw [if_neg (by simp)]
      exact hs.2⟩
  drawBelow site bound :=
    ⟨fun hs hx => by
      obtain ⟨random, hdraw, rfl⟩ := returns_drawBelow_iff.mp hx
      exact ⟨hbelow hs.1 hdraw, hs.2.snoc (host.source.u64Max_lt hdraw) rfl⟩, fun hs hx => by
      obtain ⟨hdraw, rfl, rfl⟩ := stops_drawBelow_iff.mp hx
      rw [if_pos rfl]
      exact ⟨_, site, bound, _, rfl, hs.2, hs.1, hdraw⟩⟩
  drawMaybe :=
    ⟨fun hs hx => by
      obtain ⟨rfl, rfl⟩ := returns_drawMaybe_iff.mp hx
      exact ⟨hbool hs.1, hs.2.snoc (Bool.toNat_lt _) rfl⟩, fun _ hx =>
      absurd hx not_stops_drawMaybe⟩

/-- **A run is stuck exactly when it draws below zero**, if draws keep the randomness in `I` and are
made from there whenever there is something to draw. -/
theorem stops_looping_iff
    (hbelow : ∀ {r max v r'}, I r → host.source.u64Max r max = some (v, r') → I r')
    (hbool : ∀ {r}, I r → I (host.source.bool r).2)
    (hexits : ∀ {r max}, I r → 0 < max → (host.source.u64Max r max).isSome) (pattern : Group)
    {s : GenState σ δ} (hs : I s.random) (hdraws : s.draws = []) :
    (∃ t, Effect.Stops (generate host pattern) s .looping t) ↔
      ∃ draw ∈ (Effect.final (generate host pattern) s).draws, draw.bound = 0 := by
  have hrun : DrawsOn host I (generate host pattern) :=
    (partRules_drawsOn hbelow hbool).generate pattern
  have hdrawn : s.Drawn := fun draw hdraw => absurd (hdraws ▸ hdraw) List.not_mem_nil
  -- no draw that was made has bound zero
  have hpos : ∀ {t : GenState σ δ}, t.Drawn → ¬∃ draw ∈ t.draws, draw.bound = 0 := by
    rintro t ht ⟨draw, hdraw, hzero⟩
    obtain ⟨choice, hlt, -⟩ := ht draw hdraw
    omega
  rcases Effect.returns_or_stops (generate host pattern) s with ⟨_, t, hx⟩ | ⟨e, t, hx⟩
  · rw [Effect.final_of_returns hx]
    refine iff_of_false ?_ (hpos (hrun.returns ⟨hs, hdrawn⟩ hx).2)
    rintro ⟨u, hu⟩
    exact absurd (hx.symm.trans hu) (by simp)
  · have hend := hrun.stops ⟨hs, hdrawn⟩ hx
    rw [Effect.final_of_stops hx]
    split at hend
    · rename_i he
      subst he
      obtain ⟨draws, site, bound, random, hlog, -, hrandom, hnone⟩ := hend
      have hzero : bound = 0 := by
        by_contra hne
        have hsome := hexits hrandom (Nat.pos_of_ne_zero hne)
        rw [hnone] at hsome
        exact Bool.false_ne_true hsome
      refine iff_of_true ⟨t, hx⟩ ⟨⟨site, bound, none⟩, ?_, hzero⟩
      rw [hlog]
      exact List.mem_append_right _ (List.mem_singleton_self _)
    · rename_i he
      refine iff_of_false ?_ (hpos hend)
      rintro ⟨u, hu⟩
      obtain ⟨rfl, -⟩ := EStateM.Result.error.inj (hx.symm.trans hu)
      exact he rfl

/-- **Generating from xorshift comes to an end**, whatever the seed but zero, the callback, the
depth limit and the wordlists are: a run of an accepted pattern is stuck exactly when it comes to a
place with nothing to draw. -/
theorem xorshift_halts {string : List UInt8} {pattern : Group}
    (hparse : parse string = .ok pattern) {seed : BitVec 64} (hseed : seed ≠ 0)
    (allocated : Random (BitVec 64) UInt8) (func : δ → ℕ → ℤ × δ) (data : δ) (depthLimit : ℕ)
    (entropy : Bool) {wordlists : List (List UInt8 × Wordlist)}
    (hloaded : ∀ p ∈ wordlists, p.2.Loaded) :
    (∃ t, Effect.Stops (generate ⟨randomSource xorshiftRead xorshiftTries, func⟩ pattern)
        (GenState.init (randomOpenWith xorshiftRead allocated seed) data depthLimit entropy
          wordlists) .looping t) ↔
      ∃ draw ∈ (Effect.final (generate ⟨randomSource xorshiftRead xorshiftTries, func⟩ pattern)
        (GenState.init (randomOpenWith xorshiftRead allocated seed) data depthLimit entropy
          wordlists)).draws, ¬draw.site.Drawable := by
  have hserves := serves_xorshift seed
  have hopen := atByte_randomOpenWith hserves allocated
  have hlawful : ∀ draw ∈ (Effect.final
      (generate ⟨randomSource xorshiftRead xorshiftTries, func⟩ pattern)
      (GenState.init (randomOpenWith xorshiftRead allocated seed) data depthLimit entropy
        wordlists)).draws, draw.Lawful Site.Sized :=
    lawful_of_mem_draws (offers_sized_of_parse hparse) hloaded rfl
  refine (stops_looping_iff (I := fun r => ∃ i, AtByte (fun k => xorshift64^[128 * k] seed)
    (xorshiftByte seed) i r) ?_ ?_ ?_ pattern ⟨0, hopen⟩ rfl).trans ?_
  · rintro r max v r' ⟨i, hr⟩ hdraw
    exact hr.u64Max hserves hdraw
  · rintro r ⟨i, hr⟩
    exact ⟨i + 1, hr.bool hserves⟩
  · rintro r max ⟨i, hr⟩ hmax
    exact exits_xorshift hseed hmax hr
  · refine exists_congr fun draw => and_congr_right fun hdraw => ?_
    rw [← (hlawful draw hdraw).bound_pos_iff, Nat.pos_iff_ne_zero, not_not]

/-- `a{1,2}` from the seed of the examples. -/
theorem xorshift_halts_repeatPattern :
    (∃ t, Effect.Stops (generate ⟨randomSource xorshiftRead xorshiftTries, drawHost.func⟩
        repeatPattern)
        (GenState.init (randomOpenWith xorshiftRead
          ⟨List.replicate randomBufferLength 0, List.length_replicate, 0, 0⟩ 123) () 1 false [])
        .looping t) ↔
      ∃ draw ∈ (Effect.final (generate ⟨randomSource xorshiftRead xorshiftTries, drawHost.func⟩
          repeatPattern)
        (GenState.init (randomOpenWith xorshiftRead
          ⟨List.replicate randomBufferLength 0, List.length_replicate, 0, 0⟩ 123) () 1 false
          [])).draws, ¬draw.site.Drawable := by
  have hparse : parse (ascii "a{1,2}") = .ok repeatPattern := rfl
  exact xorshift_halts hparse (by decide) _ _ () 1 false fun _ h => absurd h List.not_mem_nil

end Passgen
