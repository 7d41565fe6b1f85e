import Mathlib.Data.List.Basic
import Mathlib.Data.List.TakeWhile
import Mathlib.Data.Multiset.Filter
import Mathlib.Tactic.Common
import Passgen.Effect.Traced
import Passgen.Markov.Count
import Passgen.Util.IllFormed
import Passgen.Wordlist.Wordlist

/-!
# Wordlist/Trained — what the chain is trained on

    lines of the file      é    \xC3\n   aaa…a (300)
    given to markov_add    é    nothing  aaa…a (256)

The words are the pieces of the file up to its first zero byte, and each of them is added whatever
the decoder says of it: nothing where it rejects, what fits into the buffer where that is too small.
So the chain is trained on the list as written exactly when the list has no zero byte, and the lines
are encodings of at most 256 codepoints.
-/

namespace Passgen

open Effect (Traced)

/-! ## The calls -/

/-- A call of `passgen_markov_add`, logged with the codepoints it is given. -/
def markovAddTraced (markov : Markov) (word : List ℕ) : Traced (List ℕ) Markov := do
  Traced.emit word
  match markovAdd markov word 1 with
  | some markov => pure markov
  | none => Traced.stuck

/-- `passgen_wordlist_parse_markov`, with the calls it makes. -/
def wordlistParseMarkovTraced (wordlist : Wordlist) : Traced (List ℕ) Wordlist :=
  match wordlist.words with
  | some words => do
    let markov ← words.foldlM (fun markov word => markovAddTraced markov (decodedWord word))
      wordlist.markov
    pure { wordlist with parsedMarkov := true, markov }
  | none => Traced.stuck

theorem answer_markovAddTraced (markov : Markov) (word : List ℕ) :
    (markovAddTraced markov word).answer = markovAdd markov word 1 := by
  rw [markovAddTraced, Traced.answer_bind, Traced.answer_emit, Option.bind_some]
  cases markovAdd markov word 1 <;> rfl

theorem log_markovAddTraced (markov : Markov) (word : List ℕ) :
    (markovAddTraced markov word).log = [word] := by
  rw [markovAddTraced]
  cases markovAdd markov word 1 <;> rfl

/-- The log changes nothing. -/
theorem answer_wordlistParseMarkovTraced (wordlist : Wordlist) :
    (wordlistParseMarkovTraced wordlist).answer = wordlistParseMarkov wordlist := by
  rw [wordlistParseMarkovTraced, wordlistParseMarkov]
  cases wordlist.words with
  | none => rfl
  | some words =>
    rw [Traced.answer_bind,
      Traced.answer_foldlM fun markov word => answer_markovAddTraced markov (decodedWord word)]
    rfl

/-! ## Lines -/

/-- The lines of a file that are not empty. -/
def wordlistLines (contents : List UInt8) : List (List UInt8) :=
  (contents.splitOn 10).filter (· ≠ [])

/-- The line is the encoding of these codepoints, and there is room for them. -/
structure Decodes (line : List UInt8) (text : List ℕ) : Prop where
  scalar : ∀ c ∈ text, IsScalar c
  encode : utf8EncodeAll text = line
  length_le : text.length ≤ 256

open Classical in
/-- What a line stands for, if it is valid and not too long. -/
noncomputable def lineText (line : List UInt8) : Option (List ℕ) :=
  if h : ∃ text, Decodes line text then some h.choose else none

theorem Decodes.lineText_eq {line : List UInt8} {text : List ℕ} (h : Decodes line text) :
    lineText line = some text := by
  have hex : ∃ text, Decodes line text := ⟨text, h⟩
  rw [lineText, dif_pos hex]
  refine congrArg some (utf8EncodeAll_inj (fun c hc => (hex.choose_spec.scalar c hc).1)
    (fun c hc => (h.scalar c hc).1) ?_)
  rw [hex.choose_spec.encode, h.encode]

/-- **The decoder** on such a line. -/
theorem Decodes.decodedWord_eq {line : List UInt8} {text : List ℕ} (h : Decodes line text) :
    decodedWord line = text := by
  rw [decodedWord, ← h.encode, utf8Decode_encodeAll 256 h.scalar]
  simp only [List.take_of_length_le h.length_le]
  rw [List.take_of_length_le (by rw [withWidths, List.length_map]), map_fst_withWidths]

theorem decodedWord_eq_loop (word : List UInt8) :
    decodedWord word = if (utf8DecodeLoop 256 utf8Accept 0 0 word).1 then
      (utf8DecodeLoop 256 utf8Accept 0 0 word).2.1.map Prod.fst else [] := by
  rw [decodedWord, utf8Decode]
  by_cases hok : (utf8DecodeLoop 256 utf8Accept 0 0 word).1 = true
  · simp only [hok, if_true, List.take_length]
  · simp only [hok, if_false, Bool.false_eq_true, List.take_zero, List.map_nil]

/-- What is added of any word was encoded in it. -/
theorem decodedWord_encoded (word : List UInt8) :
    (∀ c ∈ decodedWord word, IsScalar c) ∧ utf8EncodeAll (decodedWord word) <+: word := by
  rw [decodedWord_eq_loop]
  split
  · exact utf8DecodeLoop_written .accept
  · exact ⟨List.forall_mem_nil _, List.nil_prefix⟩

/-- A zero is encoded by a zero byte only. -/
theorem zero_mem_of_utf8EncodeAll {text : List ℕ} (h : ∀ c ∈ text, IsScalar c) :
    0 ∈ utf8EncodeAll text ↔ 0 ∈ text := by
  have hcodepoint : ∀ c ∈ text, (0 ∈ utf8Encode c ↔ c = 0) := fun c hc => by
    obtain ⟨w, hw⟩ := Option.ne_none_iff_exists'.mp
      (utf8EncodeCodepoint_eq_none_iff.not.mpr (not_lt.mpr (h c hc).1))
    rw [utf8Encode, hw, Option.getD_some, zero_mem_utf8EncodeCodepoint hw]
  rw [utf8EncodeAll, List.mem_flatMap]
  constructor
  · rintro ⟨c, hc, hzero⟩
    exact (hcodepoint c hc).mp hzero ▸ hc
  · exact fun hzero => ⟨0, hzero, (hcodepoint 0 hzero).mpr rfl⟩

theorem zero_mem_of_decodedWord {word : List UInt8} (h : 0 ∈ decodedWord word) : 0 ∈ word := by
  obtain ⟨hscalar, hprefixed⟩ := decodedWord_encoded word
  exact hprefixed.subset ((zero_mem_of_utf8EncodeAll hscalar).mpr h)

/-! ## The pieces of a file -/

/-- The bytes of the pieces are those of the file, without its newlines. -/
theorem flatten_splitOn (contents : List UInt8) :
    (contents.splitOn 10).flatten = contents.filter (· ≠ 10) := by
  induction contents with
  | nil => rfl
  | cons c contents ih =>
    rw [List.splitOn_cons_eq_if_modifyHead]
    by_cases hc : c = 10
    · rw [if_pos (beq_iff_eq.mpr hc), List.flatten_cons, List.nil_append, ih,
        List.filter_cons_of_neg (by simpa using hc)]
    · obtain ⟨piece, pieces, hsplit⟩ := List.exists_cons_of_ne_nil (List.splitOn_ne_nil 10 contents)
      rw [if_neg (fun h => hc (beq_iff_eq.mp h)), List.filter_cons_of_pos (by simpa using hc), ← ih,
        hsplit]
      rfl

theorem mem_of_mem_splitOn {contents piece : List UInt8} {c : UInt8}
    (hpiece : piece ∈ contents.splitOn 10) (hc : c ∈ piece) : c ∈ contents := by
  have hmem := List.mem_flatten_of_mem hpiece hc
  rw [flatten_splitOn] at hmem
  exact List.mem_of_mem_filter hmem

theorem exists_mem_splitOn {contents : List UInt8} {c : UInt8} (hc : c ∈ contents) (hne : c ≠ 10) :
    ∃ piece ∈ contents.splitOn 10, c ∈ piece := by
  have hmem : c ∈ contents.filter (· ≠ 10) := List.mem_filter.mpr ⟨hc, decide_eq_true hne⟩
  rw [← flatten_splitOn] at hmem
  exact List.mem_flatten.mp hmem

/-- No word has a zero byte in it. -/
theorem zero_notMem_wordlistScan {contents word : List UInt8} (h : word ∈ wordlistScan contents) :
    0 ∉ word := by
  intro hzero
  have hpiece := List.mem_of_mem_filter h
  have hmem := mem_of_mem_splitOn hpiece hzero
  simpa using List.mem_takeWhile_imp hmem

/-- Without a zero byte all lines are words. -/
theorem wordlistScan_eq {contents : List UInt8} (h : 0 ∉ contents) :
    wordlistScan contents = wordlistLines contents := by
  have hself : cString contents = contents :=
    List.takeWhile_eq_self_iff.mpr fun c hc => decide_eq_true fun hzero => h (hzero ▸ hc)
  rw [wordlistScan, hself, wordlistLines]

/-! ## Training -/

/-- **Training goes through**, and adds each word once, in order. -/
theorem wordlistParseMarkov_returns {words : List (List UInt8)} {wordlist : Wordlist}
    (hwords : wordlist.words = some words) {total : List ℕ → ℕ} {sum : ℕ}
    (hcounts : Counts wordlist.markov total sum) :
    ∃ trained, (wordlistParseMarkovTraced wordlist).answer = some trained ∧
      (wordlistParseMarkovTraced wordlist).log = words.map decodedWord := by
  have hscalar : ∀ p ∈ words.map (fun word => (decodedWord word, 1)), ∀ c ∈ p.1,
      c ≤ maxCodepoint := by
    intro p hp c hc
    obtain ⟨word, -, rfl⟩ := List.mem_map.mp hp
    exact ((decodedWord_encoded word).1 c hc).1
  obtain ⟨markov, htrain, -⟩ := hcounts.train hscalar
  rw [markovTrain, List.foldlM_map] at htrain
  have hfold : (words.foldlM (fun markov word => markovAddTraced markov (decodedWord word))
      wordlist.markov).answer = some markov := by
    rw [Traced.answer_foldlM fun markov word => answer_markovAddTraced markov (decodedWord word)]
    exact htrain
  have hlog := Traced.log_foldlM
    (fun markov word => log_markovAddTraced markov (decodedWord word)) hfold
  refine ⟨{ wordlist with parsedMarkov := true, markov }, ?_, ?_⟩
  · rw [answer_wordlistParseMarkovTraced, wordlistParseMarkov, hwords]
    refine Option.bind_eq_some_iff.mpr ⟨words, rfl, ?_⟩
    exact Option.bind_eq_some_iff.mpr ⟨markov, htrain, rfl⟩
  · rw [wordlistParseMarkovTraced, hwords]
    refine (Traced.log_bind_of_answer hfold).trans ?_
    rw [hlog, ← List.map_eq_flatMap]
    exact List.append_nil _

/-- **The chain is trained on the list as written**: a line that is not valid or too long is
reported, and what the others stand for is what the chain is given, each as often as it is there. -/
def TrainedAsWritten (file : WordlistFile) (markovLength : ℕ) : Prop :=
  ∃ code wordlist trained, wordlistParse (wordlistInit file markovLength) = some (code, wordlist) ∧
    (wordlistParseMarkovTraced wordlist).answer = some trained ∧
    ((wordlistParseMarkovTraced wordlist).log : Multiset (List ℕ)) =
      (wordlistLines file.contents).filterMap lineText ∧
    ((∃ line ∈ wordlistLines file.contents, lineText line = none) → code ≠ 0)

/-- Where every line is valid, what the lines stand for is what the decoder makes of them. -/
theorem filterMap_lineText {lines : List (List UInt8)}
    (h : ∀ line ∈ lines, ∃ text, Decodes line text) :
    lines.filterMap lineText = lines.map decodedWord := by
  rw [← List.filterMap_eq_map]
  refine List.filterMap_congr fun line hline => ?_
  obtain ⟨text, htext⟩ := h line hline
  rw [htext.lineText_eq, Function.comp_apply, htext.decodedWord_eq]

/-- What is added for the words of a file never has a zero in it. -/
theorem zero_notMem_decodedWord {contents : List UInt8} {text : List ℕ}
    (h : text ∈ (wordlistScan contents).map decodedWord) : 0 ∉ text := by
  obtain ⟨word, hword, rfl⟩ := List.mem_map.mp h
  exact fun hzero => zero_notMem_wordlistScan hword (zero_mem_of_decodedWord hzero)

/-- A zero byte is in a line that stands for a zero. -/
theorem exists_zero_mem_lineText {contents : List UInt8} (hzero : 0 ∈ contents)
    (h : ∀ line ∈ wordlistLines contents, ∃ text, Decodes line text) :
    ∃ text ∈ (wordlistLines contents).filterMap lineText, 0 ∈ text := by
  obtain ⟨line, hline, hmem⟩ := exists_mem_splitOn hzero (by decide)
  have hline' : line ∈ wordlistLines contents :=
    List.mem_filter.mpr ⟨hline, decide_eq_true (List.ne_nil_of_mem hmem)⟩
  obtain ⟨text, htext⟩ := h line hline'
  refine ⟨text, List.mem_filterMap.mpr ⟨line, hline', htext.lineText_eq⟩, ?_⟩
  rw [← zero_mem_of_utf8EncodeAll htext.scalar, htext.encode]
  exact hmem

/-- A wordlist whose file is read. -/
theorem wordlistParse_init {file : WordlistFile} (hcomplete : file.complete = true)
    (markovLength : ℕ) : wordlistParse (wordlistInit file markovLength) = some (0,
      { wordlistInit file markovLength with
        parsed := true, file := none, words := some (wordlistScan file.contents) }) := by
  rw [wordlistParse, wordlistInit, Option.map_some, if_pos hcomplete]

/-- Nothing is reported of a file that is read, so every line is valid. -/
theorem TrainedAsWritten.decodes {file : WordlistFile} {markovLength : ℕ}
    (h : TrainedAsWritten file markovLength) (hcomplete : file.complete = true) :
    ∀ line ∈ wordlistLines file.contents, ∃ text, Decodes line text := by
  obtain ⟨code, wordlist, trained, hparse, -, -, hreported⟩ := h
  obtain ⟨rfl, -⟩ :=
    Prod.mk.inj (Option.some.inj ((wordlistParse_init hcomplete markovLength).symm.trans hparse))
  intro line hline
  by_contra hbad
  exact hreported ⟨line, hline, dif_neg hbad⟩ rfl

/-- **When the chain is trained on the list as written**: there is no zero byte in it, and every
line is the encoding of at most 256 codepoints. -/
theorem trainedAsWritten_iff (file : WordlistFile) (markovLength : ℕ)
    (hcomplete : file.complete = true) (hlevel : 0 < (UInt8.ofNat markovLength).toNat) :
    TrainedAsWritten file markovLength ↔
      0 ∉ file.contents ∧
        ∀ line ∈ wordlistLines file.contents, ∃ text, Decodes line text := by
  have hparse := wordlistParse_init hcomplete markovLength
  obtain ⟨trained, hanswer, hlog⟩ := @wordlistParseMarkov_returns (wordlistScan file.contents)
    { wordlistInit file markovLength with
      parsed := true, file := none, words := some (wordlistScan file.contents) } rfl _ _
    (counts_init hlevel)
  constructor
  · intro h
    have hlines := h.decodes hcomplete
    obtain ⟨code, wordlist, -, hparse', -, hadded, -⟩ := h
    obtain ⟨rfl, rfl⟩ := Prod.mk.inj (Option.some.inj (hparse.symm.trans hparse'))
    refine ⟨fun hzero => ?_, hlines⟩
    obtain ⟨text, htext, hmem⟩ := exists_zero_mem_lineText hzero hlines
    rw [hlog] at hadded
    have hadded : text ∈ (wordlistScan file.contents).map decodedWord :=
      (Multiset.coe_eq_coe.mp hadded).mem_iff.mpr htext
    exact zero_notMem_decodedWord hadded hmem
  · rintro ⟨hzero, hlines⟩
    refine ⟨0, _, trained, hparse, hanswer, ?_, ?_⟩
    · rw [hlog, wordlistScan_eq hzero, filterMap_lineText hlines]
    · rintro ⟨line, hline, hnone⟩
      obtain ⟨text, htext⟩ := hlines line hline
      exact absurd (hnone.symm.trans htext.lineText_eq) (by simp)

/-- The words `é` and `ab`, with an empty line in between. -/
def linesFile : WordlistFile := ⟨[0xC3, 0xA9, 0x0A, 0x0A, 0x61, 0x62, 0x0A], true, by decide⟩

theorem trainedAsWritten_iff_lines : TrainedAsWritten linesFile 3 ↔
    0 ∉ linesFile.contents ∧
      ∀ line ∈ wordlistLines linesFile.contents, ∃ text, Decodes line text :=
  trainedAsWritten_iff linesFile 3 rfl (by decide)

/-- A list whose only line is half of an `é`. -/
def halfFile : WordlistFile := ⟨[0xC3], true, by decide⟩

/-- The half is added as a word without codepoints, and nothing is reported. -/
theorem not_trainedAsWritten_half :
    ¬ TrainedAsWritten halfFile 3 ∧ (wordlistScan halfFile.contents).map decodedWord = [[]] := by
  refine ⟨fun h => ?_, by decide⟩
  obtain ⟨text, htext⟩ := h.decodes rfl [0xC3] (by decide)
  have hnil : text = [] := htext.decodedWord_eq.symm.trans (by decide)
  exact absurd (hnil ▸ htext.encode) (by decide)

end Passgen
