import Mathlib.Data.List.Basic
import Mathlib.Tactic.Common
import Passgen.Markov.Chain

/-!
# Wordlist/Wordlist — words from a file

    file ─ read ▸ data ─ scan ▸ words ─ decode ▸ codepoints ─ markovAdd ▸ chain

A wordlist is parsed on first use.  What its file yields is fixed beforehand: the contents, and
whether reading returns all of them.
-/

namespace Passgen

/-- A file of a wordlist: its contents, whose size is a `long`, and whether `fread` returns all of
them. -/
structure WordlistFile where
  contents : List UInt8
  complete : Bool
  length_contents : contents.length < 2 ^ 63

/-- `passgen_wordlist`.  `file` is `none` for `NULL`; `words`, with their count, is `none` as long
as nothing has been written into it. -/
structure Wordlist where
  parsed : Bool
  parsedMarkov : Bool
  file : Option WordlistFile
  words : Option (List (List UInt8))
  markov : Markov

/-- `passgen_wordlist_init`. -/
def wordlistInit (file : WordlistFile) (markovLength : ℕ) : Wordlist :=
  ⟨false, false, some file, none, markovInit (.ofNat markovLength)⟩

/-- A string up to its terminator. -/
def cString (bytes : List UInt8) : List UInt8 := bytes.takeWhile (· ≠ 0)

/-- `passgen_wordlist_scan`: the tokens `strtok_r` yields. -/
def wordlistScan (data : List UInt8) : List (List UInt8) :=
  ((cString data).splitOn 10).filter (· ≠ [])

/-- `passgen_wordlist_parse`, with its result; `none` is the use of a `NULL` file. -/
def wordlistParse (wordlist : Wordlist) : Option (ℤ × Wordlist) :=
  wordlist.file.map fun file =>
    if file.complete then
      (0, { wordlist with
        parsed := true
        file := none
        words := some (wordlistScan file.contents) })
    else (1, { wordlist with parsed := true })

/-- The codepoints a word adds to the chain; the result of decoding is only asserted. -/
def decodedWord (word : List UInt8) : List ℕ :=
  let decoded := utf8Decode 256 word
  (decoded.written.take decoded.advanced).map Prod.fst

/-- `passgen_wordlist_parse_markov`; `none` is a run that goes wrong, in the words or in the
chain. -/
def wordlistParseMarkov (wordlist : Wordlist) : Option Wordlist := do
  let words ← wordlist.words
  let markov ← words.foldlM (fun markov word => markovAdd markov (decodedWord word) 1)
    wordlist.markov
  some { wordlist with parsedMarkov := true, markov }

end Passgen
