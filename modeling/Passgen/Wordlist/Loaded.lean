import Mathlib.Algebra.BigOperators.Group.List.Basic
import Mathlib.Algebra.Order.BigOperators.Group.List
import Mathlib.Data.List.Basic
import Mathlib.Tactic.Common
import Passgen.Markov.Sound
import Passgen.Wordlist.Wordlist

/-!
# Wordlist/Loaded — the states a wordlist can be in

    init ─ parse ▸ words ─ parse_markov ▸ chain

A file is shorter than `2 ^ 63`, and each of its words has a byte for every codepoint it adds to the
chain; so no total of the chain wraps, and all its leaves are live.
-/

namespace Passgen

/-- The wordlist has been initialised, and parsed and trained at most once each. -/
inductive Wordlist.Loaded : Wordlist → Prop where
  | init (file : WordlistFile) (markovLength : ℕ) : Loaded (wordlistInit file markovLength)
  | parse {wordlist wordlist' : Wordlist} {code : ℤ} (h : Loaded wordlist)
      (hparsed : wordlist.parsed = false)
      (hparse : wordlistParse wordlist = some (code, wordlist')) : Loaded wordlist'
  | train {wordlist wordlist' : Wordlist} (h : Loaded wordlist)
      (hparsed : wordlist.parsedMarkov = false)
      (htrain : wordlistParseMarkov wordlist = some wordlist') : Loaded wordlist'

/-! ## How much a file adds -/

/-- A codepoint is not written for every byte, but never for less than one. -/
theorem length_utf8DecodeLoop_le (room state codep width : ℕ) (input : List UInt8) :
    (utf8DecodeLoop room state codep width input).2.1.length ≤ input.length := by
  induction input generalizing room state codep width with
  | nil => exact le_rfl
  | cons byte input ih =>
    rw [utf8DecodeLoop]
    split
    · exact Nat.zero_le _
    simp only
    split
    · exact Nat.zero_le _
    split
    · exact Nat.succ_le_succ (ih _ _ _ _)
    · exact (ih _ _ _ _).trans (Nat.le_succ _)

theorem length_decodedWord_le (word : List UInt8) : (decodedWord word).length ≤ word.length := by
  have hloop := length_utf8DecodeLoop_le 256 utf8Accept 0 0 word
  have htake := List.length_take_le (utf8Decode 256 word).advanced (utf8Decode 256 word).written
  have hwritten : (utf8Decode 256 word).written
      = (utf8DecodeLoop 256 utf8Accept 0 0 word).2.1 := by
    rw [utf8Decode]
    split
    split <;> simp_all
  rw [decodedWord, List.length_map, List.length_take]
  exact (min_le_right _ _).trans (hwritten ▸ hloop)

/-- The pieces of a file, each with the separator after it, are the file. -/
theorem sum_splitOn (data : List UInt8) :
    ((data.splitOn 10).map fun piece => piece.length + 1).sum = data.length + 1 := by
  induction data with
  | nil => rfl
  | cons byte data ih =>
    rw [List.splitOn_cons_eq_if_modifyHead]
    split
    · rw [List.map_cons, List.sum_cons, ih, List.length_cons]
      exact Nat.add_comm _ _
    · obtain ⟨piece, pieces, hsplit⟩ := List.exists_cons_of_ne_nil (List.splitOn_ne_nil 10 data)
      rw [hsplit] at ih ⊢
      rw [List.modifyHead_cons]
      simp only [List.map_cons, List.sum_cons, List.length_cons] at ih ⊢
      omega

/-- The words of a file and their separators fit into it. -/
theorem sum_wordlistScan_le (data : List UInt8) :
    ((wordlistScan data).map fun word => word.length + 1).sum ≤ data.length + 1 := by
  have hsub : List.Sublist (wordlistScan data) ((cString data).splitOn 10) :=
    List.filter_sublist
  have hprefix : (cString data).length ≤ data.length := (List.takeWhile_prefix _).length_le
  calc ((wordlistScan data).map fun word => word.length + 1).sum
      ≤ (((cString data).splitOn 10).map fun piece => piece.length + 1).sum :=
        (hsub.map _).sum_le_sum fun _ _ => Nat.zero_le _
    _ = (cString data).length + 1 := sum_splitOn _
    _ ≤ data.length + 1 := Nat.succ_le_succ hprefix

/-- Adding words of total size `n`. -/
theorem Markov.Live.words {k : ℕ} {markov markov' : Markov} (h : markov.Live k)
    {words : List (List UInt8)}
    (hlt : k + (words.map fun word => word.length + 1).sum < 2 ^ 64)
    (hfold : words.foldlM (fun markov word => markovAdd markov (decodedWord word) 1) markov
      = some markov') :
    markov'.Live (k + (words.map fun word => word.length + 1).sum) := by
  induction words generalizing markov k with
  | nil =>
    obtain rfl := Option.some.inj hfold
    exact h
  | cons word words ih =>
    obtain ⟨mid, hmid, hrest⟩ := Option.bind_eq_some_iff.mp hfold
    have hword := length_decodedWord_le word
    rw [List.map_cons, List.sum_cons] at hlt ⊢
    have hadd := (h.add (by decide) (by omega) hmid).mono
      (show k + 1 * ((decodedWord word).length + 1) ≤ k + (word.length + 1) by omega)
    have hlive := ih hadd (by omega) hrest
    rwa [Nat.add_assoc] at hlive

/-! ## Loaded wordlists -/

/-- What holds of a wordlist in every state: before the chain is trained it is empty, and what words
there are come from a file. -/
structure Wordlist.Ready (wordlist : Wordlist) : Prop where
  untrained : wordlist.parsedMarkov = false → wordlist.markov.Live 0
  trained : ∃ k < 2 ^ 64, wordlist.markov.Live k
  words : ∀ words, wordlist.words = some words →
    ∃ file : WordlistFile, words = wordlistScan file.contents

/-- **Every leaf of the chain of a loaded wordlist is live.** -/
theorem Wordlist.Loaded.ready {wordlist : Wordlist} (h : wordlist.Loaded) : wordlist.Ready := by
  induction h with
  | init file markovLength =>
    exact ⟨fun _ => live_markovInit _, ⟨0, by decide, live_markovInit _⟩, fun _ h => nomatch h⟩
  | parse h hparsed hparse ih =>
    obtain ⟨file, -, hparse⟩ := Option.map_eq_some_iff.mp hparse
    split at hparse
    · obtain ⟨-, rfl⟩ := Prod.mk.inj hparse
      exact ⟨ih.untrained, ih.trained, fun words hwords => ⟨file, (Option.some.inj hwords).symm⟩⟩
    · obtain ⟨-, rfl⟩ := Prod.mk.inj hparse
      exact ⟨ih.untrained, ih.trained, ih.words⟩
  | train h hparsed htrain ih =>
    obtain ⟨words, hwords, htrain⟩ := Option.bind_eq_some_iff.mp htrain
    obtain ⟨markov, hfold, ⟨⟩⟩ := Option.bind_eq_some_iff.mp htrain
    obtain ⟨file, rfl⟩ := ih.words words hwords
    have hsize := sum_wordlistScan_le file.contents
    have hfile := file.length_contents
    have hlive := (ih.untrained hparsed).words (by omega) hfold
    exact ⟨fun h => absurd h (by simp), ⟨_, by omega, hlive⟩, ih.words⟩

end Passgen
