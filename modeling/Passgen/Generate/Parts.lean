import Mathlib.Data.List.Basic
import Mathlib.Tactic.Common
import Passgen.Generate.Language

/-!
# Generate/Parts — what the generator is made of

    emit   drawBelow   drawMaybe   descend   get   changes of the rest      ─ >>= ─▸ generate

The generator is put together from a few parts, and only two of them touch the randomness and the
log of draws.  So what holds of the parts and goes through sequences holds of every run, whatever
the pattern has in it (`PartRules.generate`).
-/

namespace Passgen

variable {σ δ : Type}

/-- What holds of the parts of the generator, and of sequences of what it holds of. -/
structure PartRules (host : Host σ δ) (P : ∀ {α : Type}, Gen σ δ α → Prop) : Prop where
  pure : ∀ {α : Type} (a : α), P (pure a : Gen σ δ α)
  throw : ∀ {α : Type} {e : Stop}, e ≠ .looping → P (throw e : Gen σ δ α)
  get : P (get : Gen σ δ (GenState σ δ))
  bind : ∀ {α β : Type} {x : Gen σ δ α} {f : α → Gen σ δ β}, P x → (∀ a, P (f a)) → P (x >>= f)
  /-- What changes neither the randomness nor the log of draws. -/
  modify : ∀ {f : GenState σ δ → GenState σ δ}, (∀ s, (f s).random = s.random) →
    (∀ s, (f s).draws = s.draws) → P (modify f : Gen σ δ Unit)
  emit : ∀ codepoint, P (emit host codepoint)
  descend : P (descend : Gen σ δ Unit)
  drawBelow : ∀ site bound, P (drawBelow host site bound)
  drawMaybe : P (drawMaybe host)

namespace PartRules

variable {host : Host σ δ} {P : ∀ {α : Type}, Gen σ δ α → Prop} (h : PartRules host P)
include h

/-! ## Sequences -/

theorem inOrder {xs : List (Gen σ δ Unit)} (hxs : ∀ x ∈ xs, P x) : P (Effect.inOrder xs) := by
  induction xs with
  | nil => exact h.pure ()
  | cons x xs ih =>
    exact h.bind (hxs x List.mem_cons_self) fun _ =>
      ih fun y hy => hxs y (List.mem_cons_of_mem x hy)

theorem times {x : Gen σ δ Unit} (hx : P x) (n : ℕ) : P (Effect.times n x) := by
  induction n with
  | zero => exact h.pure ()
  | succ n ih => exact h.bind hx fun _ => ih

theorem fault {α : Type} : P (MonadExcept.throw Stop.fault : Gen σ δ α) :=
  h.throw (by simp)

theorem returned {α : Type} (code : ℤ) : P (MonadExcept.throw (Stop.returned code) : Gen σ δ α) :=
  h.throw (by simp)

theorem multiplyEntropy (n : ℕ) : P (multiplyEntropy n : Gen σ δ Unit) :=
  h.modify (fun _ => rfl) fun _ => rfl

theorem divideEntropy (n : ℕ) : P (divideEntropy n : Gen σ δ Unit) :=
  h.modify (fun _ => rfl) fun _ => rfl

theorem emitAll (codepoints : List ℕ) : P (emitAll host codepoints) := by
  refine h.inOrder fun x hx => ?_
  obtain ⟨codepoint, -, rfl⟩ := List.mem_map.mp hx
  exact h.emit codepoint

/-! ## Sets and repeats -/

theorem generateRepeat (rep : Repeat) : P (generateRepeat host rep) := by
  rw [Passgen.generateRepeat]
  split
  · exact h.pure _
  · exact h.bind (h.drawBelow _ _) fun _ => h.bind (h.multiplyEntropy _) fun _ => h.pure _

theorem generateSet (set : PatternSet) : P (generateSet host set) := by
  rw [Passgen.generateSet]
  split
  · exact h.pure ()
  split
  · exact h.fault
  refine h.bind (h.drawBelow _ _) fun choice => h.bind (h.multiplyEntropy _) fun _ => ?_
  split
  · exact h.fault
  · exact h.emit _

/-! ## Specials -/

theorem findWordlist (special : Special) : P (findWordlist special : Gen σ δ _) := by
  rw [Passgen.findWordlist]
  refine h.bind h.get fun s => ?_
  split
  · split
    · exact h.returned _
    · exact h.fault
  split
  · exact h.returned _
  split
  · exact h.pure _
  split
  · exact h.fault
  · exact h.pure _

theorem storeWordlist (name : List UInt8) (wordlist : Wordlist) :
    P (storeWordlist name wordlist : Gen σ δ Unit) :=
  h.modify (fun _ => rfl) fun _ => rfl

theorem trainWordlist (wordlist : Wordlist) : P (trainWordlist wordlist : Gen σ δ _) := by
  rw [Passgen.trainWordlist]
  split
  · exact h.pure _
  split
  · exact h.fault
  · exact h.pure _

theorem markovGenerate (markov : Markov) (current : List ℕ) :
    P (markovGenerate host markov current) := by
  rw [Passgen.markovGenerate]
  split
  · exact h.fault
  split
  · exact h.fault
  refine h.bind (h.multiplyEntropy _) fun _ => h.bind (h.drawBelow _ _) fun choice => ?_
  split
  · exact h.fault
  · exact h.bind (h.divideEntropy _) fun _ => h.pure _

theorem markovWord (markov : Markov) (room : ℕ) (word : List ℕ) :
    P (markovWord host markov room word) := by
  induction room generalizing word with
  | zero => exact h.fault
  | succ room ih =>
    rw [Passgen.markovWord]
    refine h.bind (h.markovGenerate _ _) fun codepoint => ?_
    split
    · exact h.pure _
    · exact ih _

theorem generateSpecial (special : Special) : P (generateSpecial host special) := by
  rw [Passgen.generateSpecial]
  split
  · rw [generateSpecialMarkov]
    exact h.bind (h.findWordlist _) fun found => h.bind (h.trainWordlist _) fun wordlist =>
      h.bind (h.storeWordlist _ _) fun _ => h.bind (h.markovWord _ _ _) fun word => h.emitAll _
  · rw [generateSpecialWordlist]
    refine h.bind (h.findWordlist _) fun found => h.bind (h.storeWordlist _ _) fun _ => ?_
    split
    · exact h.fault
    refine h.bind (h.drawBelow _ _) fun index => ?_
    dsimp only
    split
    · exact h.returned _
    · exact h.bind (h.emitAll _) fun _ => h.multiplyEntropy _
  · exact h.pure ()

/-! ## Items and patterns -/

theorem generateGroup {group : GroupOf (Gen σ δ Unit)}
    (hitems : ∀ segment ∈ group.segments, ∀ item ∈ segment.items, P item) :
    P (generateGroup host group) := by
  rw [Passgen.generateGroup]
  refine h.bind h.descend fun _ => ?_
  split
  · exact h.returned _
  refine h.bind (h.drawBelow _ _) fun choice => ?_
  split
  · exact h.fault
  · rename_i segment hchoose
    have hmem : segment ∈ group.segments :=
      List.mem_of_getElem? (chooseSegment_eq_some_iff.mp hchoose).1
    exact h.bind (h.multiplyEntropy _) fun _ => h.bind (h.divideEntropy _) fun _ =>
      h.bind (h.inOrder (hitems segment hmem)) fun _ => h.modify (fun _ => rfl) fun _ => rfl

/-- **What holds of the parts holds of an item.** -/
theorem item (item : Item) : P (item.generate host) := by
  induction item using Item.induct with
  | mk data rep maybe ih =>
    have hcopy : P (generateData host (data.map (Item.generate host))) := by
      cases data with
      | set set => exact h.generateSet set
      | literal literal => exact h.emitAll _
      | special special => exact h.generateSpecial special
      | group group =>
        refine h.generateGroup fun segment hs x hx => ?_
        obtain ⟨segment, hsegment, rfl⟩ := List.mem_map.mp hs
        obtain ⟨item, hitem, rfl⟩ := List.mem_map.mp hx
        exact ih segment hsegment item hitem
    have hmaybe : P (decideMaybe host maybe) := by
      rw [decideMaybe]
      split
      · exact h.drawMaybe
      · exact h.pure true
    rw [Item.generate_mk, generateItem]
    refine h.bind hmaybe fun emits => ?_
    split
    · exact h.bind (h.generateRepeat rep) fun reps => h.times hcopy reps
    · exact h.pure ()

/-- **What holds of the parts holds of every run.** -/
theorem generate (pattern : Group) : P (generate host pattern) := by
  refine h.generateGroup fun segment hs x hx => ?_
  obtain ⟨segment, hsegment, rfl⟩ := List.mem_map.mp hs
  obtain ⟨item, hitem, rfl⟩ := List.mem_map.mp hx
  exact h.item item

end PartRules

end Passgen
