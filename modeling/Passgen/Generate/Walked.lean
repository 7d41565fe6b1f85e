import Mathlib.Data.List.Basic
import Mathlib.Tactic.Common
import Passgen.Chance.Chain
import Passgen.Generate.Law
import Passgen.Generate.Loading
import Passgen.Markov.Weights
import Passgen.Wordlist.Trained

/-!
# Generate/Walked — the law of a Markov word

    0 0 ─ a ▸ 0 a ─ b ▸ a b ─ 0 ▸ stop     probability   weights of the grams / of their contexts

The draws of a word are a tree, a draw for each codepoint; under uniform draws a word has the
probability that the list gives it, and the entropy grows by the inverse of it.  A walk that does
not come to a zero in time overruns the array.
-/

namespace Passgen

open scoped ENNReal

/-- A word after the zeros it starts with. -/
def walked (level : ℕ) (word : List ℕ) : List ℕ := List.replicate level 0 ++ word

/-- The draw of the codepoint after a word. -/
def stepTree (markov : Markov) (word : List ℕ) : Chance.Tree ℕ :=
  match walkNode (markov.level - 1) markov.root
      (walkContext markov.level (walked markov.level word)) with
  | none => .done 0
  | some leaf =>
    .select (fun r => (leafChoose leaf (List.range leaf.capacity) r).map Prod.fst) 0 leaf.totalCount

/-- The draws of a word, where there is room for so many codepoints; `none` overruns it. -/
def wordTree (markov : Markov) (room : ℕ) : Chance.Tree (Option (List ℕ)) :=
  .chain (stepTree markov) 0 room []

/-- Entropy grown along a sequence, by the inverse of its probability. -/
def grown (level : ℕ) (words : List (List ℕ × ℕ)) (seq : List ℕ) (entropy : Option ℚ) : Option ℚ :=
  entropy.map fun e => e * totalAlong level words seq / weightAlong level words seq

theorem grown_concat {level : ℕ} {words : List (List ℕ × ℕ)} {seq : List ℕ}
    (hlen : level ≤ seq.length) (c : ℕ) (entropy : Option ℚ) :
    (grown level words seq entropy).map (fun e : ℚ =>
        e * contextWeight level words (walkContext level seq)
          / gramWeight level words (walkContext level seq ++ [c]))
      = grown level words (seq ++ [c]) entropy := by
  rw [grown, grown, Option.map_map, weightAlong_concat hlen, totalAlong_concat hlen]
  refine congrArg (Option.map · entropy) (funext fun e => ?_)
  rw [Function.comp_apply, Nat.cast_mul, Nat.cast_mul]
  ring

theorem walked_concat (level : ℕ) (word : List ℕ) (c : ℕ) :
    walked level (word ++ [c]) = walked level word ++ [c] :=
  (List.append_assoc _ _ _).symm

theorem length_walked (level : ℕ) (word : List ℕ) :
    (walked level word).length = level + word.length := by
  rw [walked, List.length_append, List.length_replicate]

theorem padded_append (level : ℕ) (word rest : List ℕ) :
    padded level (word ++ rest) = walked level word ++ (rest ++ [0]) := by
  simp only [padded, walked, List.append_assoc]

section Trained

variable {markov : Markov} {words : List (List ℕ × ℕ)} {sum : ℕ}
  (h : Counts markov (gramWeight markov.level words) sum) (hweights : ∀ p ∈ words, 0 < p.2)
  (hwords : ∀ p ∈ words, ∀ c ∈ p.1, c ≤ maxCodepoint)
  (hlt : ∀ g, gramWeight markov.level words g < 2 ^ 32)
include h hweights hwords hlt

/-! ## The law -/

/-- **A codepoint is drawn by its weight** after the context. -/
theorem law_stepTree {word : List ℕ} (hword : Ongoing markov.level words (walked markov.level word))
    (c : ℕ) : (stepTree markov word).law c
      = gramWeight markov.level words (walkContext markov.level (walked markov.level word) ++ [c])
        / contextWeight markov.level words (walkContext markov.level (walked markov.level word)) := by
  obtain ⟨leaf, hwalk, -, -, hpos, htotal, -, hselects⟩ :=
    h.selects hweights hwords hlt hword.next
  rw [stepTree, hwalk, ← htotal]
  exact Chance.Tree.law_select_apply hselects hpos c

/-- A step multiplies the share of what is drawn so far by that of the gram. -/
theorem law_stepTree_mul {word : List ℕ}
    (hword : Ongoing markov.level words (walked markov.level word)) (c : ℕ) :
    (stepTree markov word).law c
        * (weightAlong markov.level words (walked markov.level word)
          / totalAlong markov.level words (walked markov.level word))
      = weightAlong markov.level words (walked markov.level word ++ [c])
        / totalAlong markov.level words (walked markov.level word ++ [c]) := by
  rw [law_stepTree h hweights hwords hlt hword, weightAlong_concat hword.length,
    totalAlong_concat hword.length, Nat.cast_mul, Nat.cast_mul, ← ENNReal.mul_div_mul_comm
      (.inr (ENNReal.natCast_ne_top _)) (.inl (ENNReal.natCast_ne_top _)), mul_comm,
    mul_comm (contextWeight _ _ _ : ℝ≥0∞)]

/-- **What is still to come** of a word has the probability its grams make of it. -/
theorem chainProb_stepTree {word rest : List ℕ} (hrest : 0 ∉ rest)
    (hword : Ongoing markov.level words (walked markov.level word)) :
    Chance.chainProb (fun word => (stepTree markov word).law) 0 word rest
        * (weightAlong markov.level words (walked markov.level word)
          / totalAlong markov.level words (walked markov.level word))
      = weightAlong markov.level words (padded markov.level (word ++ rest))
        / totalAlong markov.level words (padded markov.level (word ++ rest)) := by
  induction rest generalizing word with
  | nil =>
    rw [Chance.chainProb, law_stepTree_mul h hweights hwords hlt hword, List.append_nil]
    rfl
  | cons c rest ih =>
    obtain ⟨hc, hrest⟩ := not_or.mp (List.mem_cons.not.mp hrest)
    have hsplit : word ++ c :: rest = word ++ [c] ++ rest := by rw [List.append_assoc]; rfl
    rw [Chance.chainProb, mul_right_comm, law_stepTree_mul h hweights hwords hlt hword, hsplit,
      ← walked_concat, mul_comm]
    by_cases hoccurs : Occurs markov.level words
        (walkContext markov.level (walked markov.level word) ++ [c])
    · have hnext := hword.step h.pos hoccurs (Ne.symm hc)
      rw [← walked_concat] at hnext
      exact ih hrest hnext
    · -- a gram without weight: neither side has any
      have hzero : weightAlong markov.level words (walked markov.level (word ++ [c])) = 0 := by
        rw [walked_concat, weightAlong_concat hword.length, Nat.eq_zero_of_not_pos fun hpos =>
          hoccurs ((gramWeight_pos_iff hweights).mp hpos), Nat.mul_zero]
      have hlong := weightAlong_append_eq_zero (by rw [length_walked]; omega) hzero (rest ++ [0])
      rw [padded_append, hzero, hlong, Nat.cast_zero, ENNReal.zero_div, ENNReal.zero_div, mul_zero]

/-- **The probability of a word** is the weight of its grams over that of their contexts. -/
theorem law_wordTree (hne : words ≠ []) (room : ℕ) (word : List ℕ) :
    (wordTree markov room).law (some word)
      = if 0 ∉ word ∧ word.length < room then
          (weightAlong markov.level words (padded markov.level word)
            / totalAlong markov.level words (padded markov.level word) : ℝ≥0∞)
        else 0 := by
  rw [wordTree, Chance.Tree.law_chain]
  by_cases hword : 0 ∈ word
  · rw [if_neg fun hif => hif.1 hword, PMF.apply_eq_zero_iff]
    exact fun hmem => Chance.stop_notMem_of_mem_chain List.not_mem_nil hmem hword
  · have hstart : Ongoing markov.level words (walked markov.level []) := by
      rw [walked, List.append_nil]
      exact ongoing_start hne
    have hprob := chainProb_stepTree h hweights hwords hlt hword hstart
    rw [walked, List.append_nil, weightAlong_replicate, totalAlong_replicate, Nat.cast_one,
      ENNReal.div_self one_ne_zero ENNReal.one_ne_top, mul_one, List.nil_append] at hprob
    rw [← hprob]
    refine (Chance.chain_apply (v := []) hword).trans ?_
    exact if_congr (and_iff_right hword).symm rfl rfl

/-! ## The run -/

variable {δ : Type} (func : δ → ℕ → ℤ × δ)

/-- **One call** follows its draw. -/
theorem run_stepTree {word : List ℕ} (hword : Ongoing markov.level words (walked markov.level word))
    {path : List (ℕ × ℕ)} {c : ℕ} (hpath : (stepTree markov word).Path path c) {rest : List ℕ}
    {s : GenState (List ℕ) δ} (hs : s.random = path.map Prod.snd ++ rest) {entropy : Option ℚ}
    (hentropy : s.entropy = grown markov.level words (walked markov.level word) entropy) :
    Occurs markov.level words (walkContext markov.level (walked markov.level word) ++ [c]) ∧
    ∃ t, Effect.Returns (markovGenerate ⟨drawSource, func⟩ markov
        (walkContext markov.level (walked markov.level word))) s c t ∧
      Played s t path 0 rest [] ∧
        t.entropy = grown markov.level words (walked markov.level word ++ [c]) entropy := by
  obtain ⟨leaf, hwalk, hok, hexact, hpos, htotal, hcount, -⟩ :=
    h.selects hweights hwords hlt hword.next
  rw [stepTree, hwalk] at hpath
  obtain ⟨choice, hchoice, rfl, rfl⟩ := Chance.Tree.path_select hpos hpath
  obtain ⟨c, hchoose, hc⟩ := exists_leafChoose hok.placed_of_count hexact hchoice
  have hdraw : drawSource.u64Max s.random leaf.totalCount = some (choice, rest) := by
    rw [hs]
    exact if_pos hchoice
  have hrun := run_markovGenerate ⟨drawSource, func⟩ h.pos.ne' hwalk hdraw hchoose
  rw [hchoose, Option.map_some, Option.getD_some]
  rw [hcount] at hc hrun
  refine ⟨(gramWeight_pos_iff hweights).mp hc, _, hrun,
    ⟨rfl, rfl, (List.append_nil _).symm, List.map_append⟩, ?_⟩
  rw [← grown_concat hword.length, ← htotal, ← hentropy]

/-- **The loop follows the tree of a word**: it returns the word a path leads to, the entropy grown
by the inverse of its probability, and goes wrong where the path leads to none. -/
theorem run_wordTree {room : ℕ} {word : List ℕ}
    (hword : Ongoing markov.level words (walked markov.level word)) {path : List (ℕ × ℕ)}
    {result : Option (List ℕ)}
    (hpath : (Chance.Tree.chain (stepTree markov) 0 room word).Path path result) {rest : List ℕ}
    {s : GenState (List ℕ) δ} (hs : s.random = path.map Prod.snd ++ rest) {entropy : Option ℚ}
    (hentropy : s.entropy = grown markov.level words (walked markov.level word) entropy) :
    (∀ w, result = some w → ∃ t,
      Effect.Returns (markovWord ⟨drawSource, func⟩ markov room (walked markov.level word)) s
        (walked markov.level w) t ∧
      Played s t path 0 rest [] ∧
      t.entropy = grown markov.level words (padded markov.level w) entropy) ∧
    (result = none → ∃ t,
      Effect.Stops (markovWord ⟨drawSource, func⟩ markov room (walked markov.level word)) s .fault
        t ∧ Played s t path 0 rest []) := by
  induction room generalizing word path s with
  | zero =>
    cases hpath
    have hplayed : Played s s [] 0 rest [] :=
      ⟨hs, rfl, (List.append_nil _).symm, (List.append_nil _).symm⟩
    exact ⟨fun w hw => absurd hw (by simp),
      fun _ => ⟨s, Effect.stops_throw_iff.mpr ⟨rfl, rfl⟩, hplayed⟩⟩
  | succ room ih =>
    obtain ⟨first, c, second, hfirst, hsecond, rfl⟩ := hpath.of_bind
    rw [List.map_append, List.append_assoc] at hs
    obtain ⟨hoccurs, t, ht, hplayed, hgrown⟩ :=
      run_stepTree h hweights hwords hlt func hword hfirst hs hentropy
    by_cases hc : c = 0
    · rw [if_pos hc] at hsecond
      cases hsecond
      refine ⟨fun w hw => ⟨t, ?_, ?_, ?_⟩, fun hnone => nomatch hnone⟩
      · obtain rfl := Option.some.inj hw
        refine Effect.returns_bind_iff.mpr ⟨c, t, ht, ?_⟩
        rw [if_pos hc]
        exact Effect.returns_pure_iff.mpr ⟨rfl, rfl⟩
      · rwa [List.append_nil]
      · obtain rfl := Option.some.inj hw
        rw [hc] at hgrown
        exact hgrown
    · rw [if_neg hc] at hsecond
      have hnext := hword.step h.pos hoccurs hc
      rw [← walked_concat] at hnext hgrown
      obtain ⟨hreturns, hstops⟩ := ih hnext hsecond hplayed.random hgrown
      rw [walked_concat] at hreturns hstops
      refine ⟨fun w hw => ?_, fun hnone => ?_⟩
      · obtain ⟨u, hu, hplayed', hentropy'⟩ := hreturns w hw
        refine ⟨u, Effect.returns_bind_iff.mpr ⟨c, t, ht, ?_⟩, hplayed.trans hplayed', hentropy'⟩
        rw [if_neg hc]
        exact hu
      · obtain ⟨u, hu, hplayed'⟩ := hstops hnone
        refine ⟨u, Effect.stops_bind_iff.mpr (.inr ⟨c, t, ht, ?_⟩), hplayed.trans hplayed'⟩
        rw [if_neg hc]
        exact hu

end Trained

/-- Where every codepoint is accepted, they are all emitted. -/
theorem returns_emitAll {σ δ : Type} (host : Host σ δ) (hfunc : ∀ d c, (host.func d c).1 = 0)
    (codepoints : List ℕ) (s : GenState σ δ) : ∃ data, Effect.Returns (emitAll host codepoints) s ()
      { s with data, emitted := s.emitted ++ codepoints } := by
  induction codepoints generalizing s with
  | nil =>
    rw [List.append_nil]
    exact ⟨s.data, Effect.returns_pure_iff.mpr ⟨rfl, rfl⟩⟩
  | cons c codepoints ih =>
    obtain ⟨data, hrest⟩ := ih { s with
      data := (host.func s.data c).2, emitted := s.emitted ++ [c] }
    rw [List.append_assoc] at hrest
    exact ⟨data, Effect.returns_bind_iff.mpr
      ⟨(), _, returns_emit_iff.mpr ⟨hfunc _ _, rfl⟩, hrest⟩⟩

/-! ## The words of a list -/

/-- The words a chain is trained on. -/
def WordlistFile.texts (file : WordlistFile) : List (List ℕ × ℕ) :=
  (wordlistScan file.contents).map fun word => (decodedWord word, 1)

/-- The wordlist has been initialised with the file and the length, and parsed and trained at most
once each. -/
inductive Wordlist.LoadedFrom (file : WordlistFile) (markovLength : ℕ) : Wordlist → Prop where
  | init : LoadedFrom file markovLength (wordlistInit file markovLength)
  | parse {wordlist wordlist' : Wordlist} {code : ℤ} (h : LoadedFrom file markovLength wordlist)
      (hparsed : wordlist.parsed = false)
      (hparse : wordlistParse wordlist = some (code, wordlist')) :
      LoadedFrom file markovLength wordlist'
  | train {wordlist wordlist' : Wordlist} (h : LoadedFrom file markovLength wordlist)
      (hparsed : wordlist.parsedMarkov = false)
      (htrain : wordlistParseMarkov wordlist = some wordlist') :
      LoadedFrom file markovLength wordlist'

/-- The chain of a list is fresh, and trained on the words of its file afterwards. -/
structure Wordlist.Chained (file : WordlistFile) (markovLength : ℕ) (wordlist : Wordlist) : Prop
    extends wordlist.Tracks file where
  untrained : wordlist.parsedMarkov = false → wordlist.markov = markovInit (.ofNat markovLength)
  markov : wordlist.parsedMarkov = true →
    markovTrain (markovInit (.ofNat markovLength)) file.texts = some wordlist.markov

section Loaded

variable {file : WordlistFile} {markovLength : ℕ} {stored wordlist : Wordlist}

theorem foldlM_texts (file : WordlistFile) (markov : Markov) :
    (wordlistScan file.contents).foldlM (fun markov word => markovAdd markov (decodedWord word) 1)
      markov = markovTrain markov file.texts := by
  rw [WordlistFile.texts, markovTrain, List.foldlM_map]

/-- Parsing keeps the chain. -/
theorem wordlistParse_keeps {code : ℤ} (h : wordlistParse stored = some (code, wordlist)) :
    wordlist.markov = stored.markov ∧ wordlist.parsedMarkov = stored.parsedMarkov := by
  obtain ⟨file, -, h⟩ := Option.map_eq_some_iff.mp h
  split at h
  · obtain ⟨-, rfl⟩ := Prod.mk.inj h
    exact ⟨rfl, rfl⟩
  · obtain ⟨-, rfl⟩ := Prod.mk.inj h
    exact ⟨rfl, rfl⟩

theorem Wordlist.LoadedFrom.chained (h : wordlist.LoadedFrom file markovLength) :
    wordlist.Chained file markovLength := by
  induction h with
  | init =>
    exact ⟨tracks_wordlistInit file markovLength, fun _ => rfl, fun htrained => nomatch htrained⟩
  | @parse wordlist wordlist' code h hparsed hparse ih =>
    obtain ⟨found, hfound, htracks, -⟩ := ih.toTracks.found
    have hsame : found = wordlist' := by
      rw [Wordlist.found, hparsed, if_neg Bool.false_ne_true, hparse] at hfound
      exact (Option.some.inj hfound).symm
    obtain ⟨hmarkov, htrained⟩ := wordlistParse_keeps hparse
    refine ⟨hsame ▸ htracks, ?_, ?_⟩
    · rw [hmarkov, htrained]
      exact ih.untrained
    · rw [hmarkov, htrained]
      exact ih.markov
  | @train wordlist wordlist' h hparsed htrain ih =>
    have htracks := ih.toTracks.train htrain
    obtain ⟨words, hwords, htrain⟩ := Option.bind_eq_some_iff.mp htrain
    obtain ⟨markov, hfold, ⟨⟩⟩ := Option.bind_eq_some_iff.mp htrain
    have hscan : words = wordlistScan file.contents := by
      cases hread : wordlist.parsed with
      | false => exact absurd (hwords.symm.trans (ih.unparsed hread).2) (by simp)
      | true =>
        have hcomplete := hwords.symm.trans (ih.words hread)
        split at hcomplete
        · exact Option.some.inj hcomplete
        · exact absurd hcomplete (by simp)
    refine ⟨htracks, fun hfalse => absurd hfalse (by simp), fun _ => ?_⟩
    rw [← foldlM_texts, ← hscan, ← ih.untrained hparsed]
    exact hfold

/-- **On use a list has the chain** that is trained on the words of its file. -/
theorem Wordlist.Chained.use (h : stored.Chained file markovLength) (hcomplete : file.complete = true)
    {markov : Markov}
    (htrain : markovTrain (markovInit (.ofNat markovLength)) file.texts = some markov) :
    ∃ parsed trained, stored.found = some parsed ∧
      (parsed.parsedMarkov = true ∧ trained = parsed ∨
        parsed.parsedMarkov = false ∧ wordlistParseMarkov parsed = some trained) ∧
      trained.markov = markov := by
  obtain ⟨parsed, hfound, htracks, hread⟩ := h.toTracks.found
  obtain ⟨hmarkov, htrained⟩ : parsed.markov = stored.markov ∧
      parsed.parsedMarkov = stored.parsedMarkov := by
    rcases found_eq_some_iff.mp hfound with ⟨-, rfl⟩ | ⟨-, code, hparse⟩
    · exact ⟨rfl, rfl⟩
    · exact wordlistParse_keeps hparse
  cases hstage : stored.parsedMarkov with
  | true =>
    refine ⟨parsed, parsed, hfound, .inl ⟨htrained.trans hstage, rfl⟩, ?_⟩
    rw [hmarkov]
    exact Option.some.inj ((h.markov hstage).symm.trans htrain)
  | false =>
    refine ⟨parsed, { parsed with parsedMarkov := true, markov }, hfound,
      .inr ⟨htrained.trans hstage, ?_⟩, rfl⟩
    rw [wordlistParseMarkov, htracks.words hread, if_pos hcomplete, Option.bind_eq_bind,
      Option.bind_some, foldlM_texts, hmarkov, h.untrained hstage, htrain]
    rfl

theorem texts_le (file : WordlistFile) : ∀ p ∈ file.texts, ∀ c ∈ p.1, c ≤ maxCodepoint := by
  intro p hp c hc
  obtain ⟨word, -, rfl⟩ := List.mem_map.mp hp
  exact ((decodedWord_encoded word).1 c hc).1

theorem grown_walked_nil (level : ℕ) (words : List (List ℕ × ℕ)) (entropy : Option ℚ) :
    grown level words (walked level []) entropy = entropy := by
  rw [grown, walked, List.append_nil, weightAlong_replicate, totalAlong_replicate]
  simp

/-- **The chain of a file** counts the grams of its words. -/
theorem exists_trained (file : WordlistFile) (hlevel : 0 < markovLength % 256) :
    ∃ markov, markovTrain (markovInit (.ofNat markovLength)) file.texts = some markov ∧
      markov.level = markovLength % 256 ∧
      Counts markov (gramWeight markov.level file.texts) (totalWeight file.texts) := by
  have hofNat : (UInt8.ofNat markovLength).toNat = markovLength % 256 := UInt8.toNat_ofNat'
  obtain ⟨markov, htrain, hmarkov, hcounts⟩ :=
    (counts_init (hofNat.symm ▸ hlevel)).train (texts_le file)
  simp only [Nat.zero_add] at hcounts
  have hmarkov : markov.level = markovLength % 256 := hmarkov.trans hofNat
  refine ⟨markov, htrain, hmarkov, ?_⟩
  rw [hmarkov, ← hofNat]
  exact hcounts

/-- **A Markov special samples the words of its list.**  Whatever the list has been used for, the
draws of the special are one tree: along each path it asks for exactly the bounds of the path and
emits the word it leads to; under uniform draws a word without zeros that fits into the array has
the probability that is the product, over its grams, of their weight over that of their context; the
entropy, a rational, grows by exactly the inverse; and the paths to no word overrun the array. -/
theorem word_samples (hcomplete : file.complete = true) (hne : wordlistScan file.contents ≠ [])
    (hlevel : 0 < markovLength % 256)
    (hlt : ∀ gram, gramWeight (markovLength % 256) file.texts gram < 2 ^ 32) :
    ∃ tree : Chance.Tree (Option (List ℕ)),
      (∀ word, tree.law (some word)
        = if 0 ∉ word ∧ word.length < markovWordLength - markovLength % 256 then
            (weightAlong (markovLength % 256) file.texts (padded (markovLength % 256) word)
              / totalAlong (markovLength % 256) file.texts (padded (markovLength % 256) word) : ℝ≥0∞)
          else 0) ∧
      ∀ {δ : Type} (func : δ → ℕ → ℤ × δ), (∀ d c, (func d c).1 = 0) →
        ∀ (special : Special) (string : List UInt8) (stored : Wordlist) (s : GenState (List ℕ) δ),
          special.kind = .markov → special.string = some string →
          s.wordlists.lookup (cString string) = some stored →
          stored.LoadedFrom file markovLength →
          ∀ path result, tree.Path path result → ∀ rest, s.random = path.map Prod.snd ++ rest →
            (∀ word, result = some word → ∃ t,
              Effect.Returns (generateSpecial ⟨drawSource, func⟩ special) s () t ∧
              Played s t path 0 rest word ∧ t.entropy = grown (markovLength % 256) file.texts
                (padded (markovLength % 256) word) s.entropy) ∧
            (result = none → ∃ t,
              Effect.Stops (generateSpecial ⟨drawSource, func⟩ special) s .fault t ∧
              Played s t path 0 rest []) := by
  obtain ⟨markov, htrain, hmarkov, hcounts⟩ := exists_trained file hlevel
  have hweights : ∀ p ∈ file.texts, 0 < p.2 := by
    intro p hp
    obtain ⟨word, -, rfl⟩ := List.mem_map.mp hp
    exact Nat.one_pos
  have hnil : file.texts ≠ [] := fun hnil => hne (List.map_eq_nil_iff.mp hnil)
  rw [← hmarkov] at hlt ⊢
  refine ⟨wordTree markov (markovWordLength - markov.level),
    law_wordTree hcounts hweights (texts_le file) hlt hnil _, ?_⟩
  intro δ func hfunc special string stored s hkind hstring hlookup hloaded path result hpath rest hs
  obtain ⟨parsed, trained, hfound, huse, rfl⟩ := hloaded.chained.use hcomplete htrain
  have hfind : Effect.Returns (findWordlist special) s (cString string, parsed) s :=
    returns_findWordlist_iff.mpr ⟨rfl, string, stored, hstring, rfl, hlookup, hfound⟩
  have huse : Effect.Returns (trainWordlist parsed) s trained s :=
    returns_trainWordlist_iff.mpr ⟨rfl, huse⟩
  let stage : GenState (List ℕ) δ := { s with
    wordlists := s.wordlists.map fun p => if p.1 = cString string then (p.1, trained) else p }
  have hstore : Effect.Returns (storeWordlist (cString string) trained) s () stage :=
    Effect.returns_modify_iff.mpr rfl
  have hstart : Ongoing trained.markov.level file.texts (walked trained.markov.level []) := by
    rw [walked, List.append_nil]
    exact ongoing_start hnil
  obtain ⟨hreturns, hstops⟩ := run_wordTree hcounts hweights (texts_le file) hlt func
    hstart hpath (s := stage) hs (grown_walked_nil _ _ s.entropy).symm
  rw [walked, List.append_nil] at hreturns hstops
  rw [generateSpecial, hkind]
  refine ⟨fun word hword => ?_, fun hnone => ?_⟩
  · obtain ⟨t, ht, hplayed, hentropy⟩ := hreturns word hword
    have hdrop : (walked trained.markov.level word).drop trained.markov.level = word :=
      List.drop_left' List.length_replicate
    obtain ⟨data, hemit⟩ := returns_emitAll ⟨drawSource, func⟩ hfunc word t
    have hspecial : Effect.Returns (generateSpecialMarkov ⟨drawSource, func⟩ special) s ()
        { t with data, emitted := t.emitted ++ word } := by
      refine Effect.returns_bind_iff.mpr ⟨_, _, hfind, ?_⟩
      refine Effect.returns_bind_iff.mpr ⟨_, _, huse, ?_⟩
      refine Effect.returns_bind_iff.mpr ⟨_, _, hstore, ?_⟩
      refine Effect.returns_bind_iff.mpr ⟨_, _, ht, ?_⟩
      rw [hdrop]
      exact hemit
    refine ⟨_, hspecial, ⟨hplayed.random, hplayed.depth, ?_, hplayed.draws⟩, hentropy⟩
    exact congrArg (· ++ word) (hplayed.emitted.trans (List.append_nil _))
  · obtain ⟨t, ht, hplayed⟩ := hstops hnone
    refine ⟨t, ?_, ⟨hplayed.random, hplayed.depth, hplayed.emitted, hplayed.draws⟩⟩
    refine Effect.stops_bind_iff.mpr (.inr ⟨_, _, hfind, ?_⟩)
    refine Effect.stops_bind_iff.mpr (.inr ⟨_, _, huse, ?_⟩)
    refine Effect.stops_bind_iff.mpr (.inr ⟨_, _, hstore, ?_⟩)
    exact Effect.stops_bind_iff.mpr (.inl ht)

end Loaded

theorem word_samples_lines :
    ∃ tree : Chance.Tree (Option (List ℕ)),
      (∀ word, tree.law (some word)
        = if 0 ∉ word ∧ word.length < markovWordLength - 3 % 256 then
            (weightAlong (3 % 256) linesFile.texts (padded (3 % 256) word)
              / totalAlong (3 % 256) linesFile.texts (padded (3 % 256) word) : ℝ≥0∞)
          else 0) ∧
      ∀ {δ : Type} (func : δ → ℕ → ℤ × δ), (∀ d c, (func d c).1 = 0) →
        ∀ (special : Special) (string : List UInt8) (stored : Wordlist) (s : GenState (List ℕ) δ),
          special.kind = .markov → special.string = some string →
          s.wordlists.lookup (cString string) = some stored → stored.LoadedFrom linesFile 3 →
          ∀ path result, tree.Path path result → ∀ rest, s.random = path.map Prod.snd ++ rest →
            (∀ word, result = some word → ∃ t,
              Effect.Returns (generateSpecial ⟨drawSource, func⟩ special) s () t ∧
              Played s t path 0 rest word ∧ t.entropy = grown (3 % 256) linesFile.texts
                (padded (3 % 256) word) s.entropy) ∧
            (result = none → ∃ t,
              Effect.Stops (generateSpecial ⟨drawSource, func⟩ special) s .fault t ∧
              Played s t path 0 rest []) :=
  word_samples rfl (by decide) (by decide) fun gram =>
    (gramWeight_le_totalWeight _ _ gram).trans_lt (by decide)

end Passgen
