import Mathlib.Data.List.Basic
import Mathlib.Tactic.Common
import Passgen.Generate.Choose
import Passgen.Generate.State

/-!
# Generate/Generate — the generator

    item ─ maybe? ─ repeat ─ n × ( set | literal | special | group ─ segment ─ items )

`generateItem` is an algebra on item data, given what the items inside do; the generator of a
pattern is its fold.  Assertions of the repository are compiled out, `assert` is not.
-/

namespace Passgen

variable {σ δ : Type} (host : Host σ δ)

/-! ## Sets, literals, repeats -/

/-- `passgen_generate_repeat`. -/
def generateRepeat (rep : Repeat) : Gen σ δ ℕ :=
  let difference := sizeSub rep.max rep.min
  if difference = 0 then pure rep.min
  else do
    let choice ← drawBelow host (.rep rep) (sizeT (difference + 1))
    multiplyEntropy (sizeT (difference + 1))
    pure (sizeT (rep.min + choice))

/-- The codepoint `passgen_generate_set` emits for a choice: the range is the first whose running
total is past it. -/
def setCodepoint (set : PatternSet) (choice : ℕ) : Option ℕ :=
  let num := (set.choicesList.take set.items.length).findIdx fun total => choice < total
  let choice := if num = 0 then choice else sizeSub choice (set.choicesList.getD (num - 1) 0)
  set.items[num]?.map fun range => (range.start + choice) % 2 ^ 32

/-- `passgen_generate_set`. -/
def generateSet (set : PatternSet) : Gen σ δ Unit :=
  if set.items.length = 0 then pure ()
  else
    match set.choicesList[set.items.length - 1]? with
    | none => throw .fault
    | some possible => do
      let choice ← drawBelow host (.set set) possible
      multiplyEntropy possible
      match setCodepoint set choice with
      | none => throw .fault
      | some codepoint => emit host codepoint

/-- `passgen_generate_literal`. -/
def generateLiteral (literal : Literal) : Gen σ δ Unit := emitAll host literal.codepoints

/-! ## Specials -/

/-- The lookup both kinds of words start with, and the parsing of the list on first use. -/
def findWordlist (special : Special) : Gen σ δ (List UInt8 × Wordlist) := do
  let s ← get
  match special.string with
  | none => if s.wordlists.isEmpty then throw (.returned (-1)) else throw .fault
  | some name =>
    match s.wordlists.lookup (cString name) with
    | none => throw (.returned (-1))
    | some wordlist =>
      if wordlist.parsed then pure (cString name, wordlist)
      else
        match wordlistParse wordlist with
        | none => throw .fault
        | some (_, wordlist) => pure (cString name, wordlist)

/-- Storing a wordlist that has been parsed on first use. -/
def storeWordlist (name : List UInt8) (wordlist : Wordlist) : Gen σ δ Unit :=
  modify fun s => { s with
    wordlists := s.wordlists.map fun p => if p.1 = name then (p.1, wordlist) else p }

/-- The walk of `passgen_markov_generate`: children are indexed by residue, without comparing their
codepoint. -/
def walkNode : (n : ℕ) → Node (Child n) → List ℕ → Option Leaf
  | 0, node, codepoint :: _ => node.childAt codepoint
  | n + 1, node, codepoint :: current =>
    (node.childAt codepoint : Option (Node (Child n))).bind fun child => walkNode n child current
  | _, _, [] => none

/-- The loop of `passgen_markov_generate` over the entries `is`: the codepoint chosen and its
count. -/
def leafChoose (leaf : Leaf) : List ℕ → ℕ → Option (ℕ × ℕ)
  | [], _ => none
  | i :: is, choice =>
    if leaf.count i ≠ 0 then
      if choice < leaf.count i then some (leaf.codepoint i, leaf.count i)
      else leafChoose leaf is (choice - leaf.count i)
    else leafChoose leaf is choice

/-- `passgen_markov_generate`.  At level zero the root is taken for a leaf. -/
def markovGenerate (markov : Markov) (current : List ℕ) : Gen σ δ ℕ :=
  if markov.level = 0 then throw .fault
  else
    match walkNode (markov.level - 1) markov.root current with
    | none => throw .fault
    | some leaf => do
      multiplyEntropy leaf.totalCount
      let choice ← drawBelow host (.markov leaf) leaf.totalCount
      match leafChoose leaf (List.range leaf.capacity) choice with
      | none => throw .fault
      | some (codepoint, count) => do
        divideEntropy count
        pure codepoint

/-- `&word[pos - markov->level]`: the last `level` codepoints. -/
def walkContext (level : ℕ) (word : List ℕ) : List ℕ := word.drop (word.length - level)

/-- The length of `word` in `passgen_generate_special_markov`. -/
def markovWordLength : ℕ := 128

/-- The loop of `passgen_generate_special_markov`: the array up to the terminator.  `room` is what
is left of it. -/
def markovWord (markov : Markov) : ℕ → List ℕ → Gen σ δ (List ℕ)
  | 0, _ => throw .fault
  | room + 1, word => do
    let codepoint ← markovGenerate host markov (walkContext markov.level word)
    if codepoint = 0 then pure word else markovWord markov room (word ++ [codepoint])

/-- The training of the chain on first use. -/
def trainWordlist (wordlist : Wordlist) : Gen σ δ Wordlist :=
  if wordlist.parsedMarkov then pure wordlist
  else
    match wordlistParseMarkov wordlist with
    | none => throw .fault
    | some wordlist => pure wordlist

/-- `passgen_generate_special_markov`. -/
def generateSpecialMarkov (special : Special) : Gen σ δ Unit := do
  let (name, parsed) ← findWordlist special
  let wordlist ← trainWordlist parsed
  storeWordlist name wordlist
  let word ← markovWord host wordlist.markov (markovWordLength - wordlist.markov.level)
    (List.replicate wordlist.markov.level 0)
  emitAll host (word.drop wordlist.markov.level)

/-- `passgen_generate_special_wordlist`. -/
def generateSpecialWordlist (special : Special) : Gen σ δ Unit := do
  let (name, wordlist) ← findWordlist special
  storeWordlist name wordlist
  match wordlist.words with
  | none => throw .fault
  | some words => do
    let index ← drawBelow host (.word words) words.length
    let decoded := utf8Decode 128 (words.getD index [])
    if decoded.ret ≠ 0 then throw (.returned decoded.ret)
    else do
      emitAll host (decoded.written.map Prod.fst)
      multiplyEntropy words.length

/-- `passgen_generate_special`; a preset emits nothing. -/
def generateSpecial (special : Special) : Gen σ δ Unit :=
  match special.kind with
  | .markov => generateSpecialMarkov host special
  | .wordlist => generateSpecialWordlist host special
  | .preset => pure ()

/-! ## Items, segments, groups -/

/-- `passgen_generate_segment`, over what its items do. -/
def generateSegment (segment : SegmentOf (Gen σ δ Unit)) : Gen σ δ Unit :=
  Effect.inOrder segment.items

/-- `passgen_generate_group`, over what its items do. -/
def generateGroup (group : GroupOf (Gen σ δ Unit)) : Gen σ δ Unit := do
  descend
  if group.multiplierSum = 0 then throw (.returned 1)
  else do
    let choice ← drawBelow host (.segment (group.segments.map SegmentOf.multiplier))
      group.multiplierSum
    match chooseSegment group.segments choice with
    | none => throw .fault
    | some (_, segment) => do
      multiplyEntropy group.multiplierSum
      divideEntropy segment.multiplier
      generateSegment segment
      ascend

/-- The switch of `passgen_generate_item`. -/
def generateData (data : ItemData (Gen σ δ Unit)) : Gen σ δ Unit :=
  match data with
  | .set set => generateSet host set
  | .literal literal => generateLiteral host literal
  | .special special => generateSpecial host special
  | .group group => generateGroup host group

/-- Whether an item is emitted: when it is a maybe, that is drawn. -/
def decideMaybe (maybe : Bool) : Gen σ δ Bool := if maybe then drawMaybe host else pure true

/-- `passgen_generate_item`, over what the items inside do. -/
def generateItem (data : ItemData (Gen σ δ Unit)) (rep : Repeat) (maybe : Bool) :
    Gen σ δ Unit := do
  let emits ← decideMaybe host maybe
  if emits then do
    let reps ← generateRepeat host rep
    Effect.times reps (generateData host data)
  else pure ()

/-- What an item does. -/
def Item.generate (item : Item) : Gen σ δ Unit := item.fold (generateItem host)

/-- `passgen_generate`, from a state with the depth limit and the entropy of the call. -/
def generate (pattern : Group) : Gen σ δ Unit :=
  generateGroup host (pattern.map (Item.generate host))

/-- The state `passgen_generate` starts from. -/
def GenState.init (random : σ) (data : δ) (depthLimit : ℕ) (entropy : Bool)
    (wordlists : List (List UInt8 × Wordlist)) : GenState σ δ :=
  ⟨random, data, depthLimit, if entropy then some 1 else none, wordlists, [], []⟩

/-! ## What is found -/

/-- A list as it is found: parsed on first use. -/
def Wordlist.found (stored : Wordlist) : Option Wordlist :=
  if stored.parsed then some stored else (wordlistParse stored).map Prod.snd

section Find

variable {special : Special} {string name : List UInt8} {stored wordlist : Wordlist}
  {s t : GenState σ δ}

theorem run_findWordlist (hstring : special.string = some string)
    (hlookup : s.wordlists.lookup (cString string) = some stored) :
    (findWordlist special).run s =
      match stored.found with
      | some wordlist => .ok (cString string, wordlist) s
      | none => .error .fault s := by
  rw [findWordlist, EStateM.run_bind, EStateM.run_get]
  simp only [hstring, hlookup, Wordlist.found]
  split
  · rfl
  · cases wordlistParse stored <;> rfl

/-- **What is found** is the list of the name. -/
theorem returns_findWordlist_iff :
    Effect.Returns (findWordlist special) s (name, wordlist) t ↔ t = s ∧
      ∃ string stored, special.string = some string ∧ cString string = name ∧
        s.wordlists.lookup name = some stored ∧ stored.found = some wordlist := by
  constructor
  · intro h
    have hget := h
    rw [findWordlist] at hget
    obtain ⟨_, _, hget, hbody⟩ := Effect.returns_bind_iff.mp hget
    obtain ⟨rfl, rfl⟩ := Effect.returns_get_iff.mp hget
    split at hbody
    · split at hbody <;> exact absurd hbody Effect.returns_throw
    rename_i string hstring
    split at hbody
    · exact absurd hbody Effect.returns_throw
    rename_i stored hlookup
    rw [Effect.Returns, run_findWordlist hstring hlookup] at h
    split at h
    · obtain ⟨hfound, rfl⟩ := EStateM.Result.ok.inj h
      obtain ⟨rfl, rfl⟩ := Prod.mk.inj hfound
      exact ⟨rfl, string, stored, hstring, rfl, hlookup, ‹_›⟩
    · exact absurd h (by simp)
  · rintro ⟨rfl, string, stored, hstring, rfl, hlookup, hfound⟩
    rw [Effect.Returns, run_findWordlist hstring hlookup, hfound]

/-- Nothing changes where nothing is found. -/
theorem stops_findWordlist {e : Stop} (h : Effect.Stops (findWordlist special) s e t) : t = s := by
  rw [findWordlist] at h
  rcases Effect.stops_bind_iff.mp h with hget | ⟨_, _, hget, hbody⟩
  · exact absurd hget (by simp [Effect.Stops])
  obtain ⟨rfl, rfl⟩ := Effect.returns_get_iff.mp hget
  split at hbody
  · split at hbody <;> exact (Effect.stops_throw_iff.mp hbody).2
  split at hbody
  · exact (Effect.stops_throw_iff.mp hbody).2
  split at hbody
  · exact absurd hbody Effect.not_stops_pure
  split at hbody
  · exact (Effect.stops_throw_iff.mp hbody).2
  · exact absurd hbody Effect.not_stops_pure

/-- A list is found as it is, or parsed. -/
theorem found_eq_some_iff : stored.found = some wordlist ↔
    stored.parsed = true ∧ stored = wordlist ∨
      stored.parsed = false ∧ ∃ code, wordlistParse stored = some (code, wordlist) := by
  rw [Wordlist.found]
  cases stored.parsed <;> simp

/-- **What is trained** is the list, on first use. -/
theorem returns_trainWordlist_iff {trained : Wordlist} :
    Effect.Returns (trainWordlist wordlist) s trained t ↔ t = s ∧
      (wordlist.parsedMarkov = true ∧ trained = wordlist ∨
        wordlist.parsedMarkov = false ∧ wordlistParseMarkov wordlist = some trained) := by
  rw [trainWordlist]
  split
  · rename_i hparsed
    rw [Effect.returns_pure_iff, and_comm]
    simp [hparsed]
  · rename_i hparsed
    cases htrain : wordlistParseMarkov wordlist with
    | none => exact iff_of_false Effect.returns_throw (by simp [hparsed])
    | some found =>
      rw [Effect.returns_pure_iff, and_comm, eq_comm (a := trained)]
      simp [hparsed]

end Find
end Passgen
