import Passgen.Generate.Walk
import Passgen.Wordlist.Loaded

/-!
# Generate/Overrun — the array a word is walked into

    word   0 … level - 1 │ level, level + 1, …, level + n │ … 127
           memset        │ one index for each draw, until the terminator

`passgen_generate_special_markov` clears `level` elements of `word` and writes one more for every
codepoint it draws; neither the level nor the draws stop at the 128 elements there are.
`MarkovWrites` holds of the indices written, as if the array had them.  They all exist **iff** the
level is at most 128 and the terminator comes within the `128 - level` draws there is room for
(`writes_lt_iff`), and for every sequence of draws iff the chain has no longer walk
(`writes_lt_forall_iff`).  The level is what the wordlist is loaded with, as a `uint8_t`.
-/

namespace Passgen

open Effect

variable {σ δ : Type}

/-! ## What is written -/

section Writes

variable (host : Host σ δ)

/-- The index is written by `memset`, or by the loop at the end of a walk that has not drawn the
terminator: one codepoint after the ones before it. -/
inductive MarkovWrites (markov : Markov) (s : GenState σ δ) : ℕ → Prop where
  | clear {i : ℕ} (hi : i < markov.level) : MarkovWrites markov s i
  | loop {word : List ℕ} {t u : GenState σ δ} {c : ℕ} (hw : Walks host markov s word t)
      (hstep : Returns (markovGenerate host markov (walkContext markov.level word)) t c u) :
      MarkovWrites markov s word.length

/-- The chain and the state `passgen_generate_special_markov` starts to walk with. -/
def StartsWalk (special : Special) (s : GenState σ δ) (markov : Markov) (v : GenState σ δ) : Prop :=
  ∃ name parsed wordlist t u, Returns (findWordlist special) s (name, parsed) t ∧
    Returns (trainWordlist parsed) t wordlist u ∧ Returns (storeWordlist name wordlist) u () v ∧
    markov = wordlist.markov

/-- Every index written in the array of a word is one of its 128. -/
def WordFits (special : Special) (s : GenState σ δ) : Prop :=
  ∀ markov v, StartsWalk special s markov v → ∀ i, MarkovWrites host markov v i → i < 128

/-- A walk from `s` fills the array without the terminator, and draws again. -/
def Overruns (markov : Markov) (s : GenState σ δ) : Prop :=
  ∃ word t c u, Walks host markov s word t ∧ word.length = markovWordLength ∧
    Returns (markovGenerate host markov (walkContext markov.level word)) t c u

/-- The level a list was loaded with fits into the array, and the walk that is drawn ends in it. -/
def WalkFits (special : Special) (s : GenState σ δ) (markovLength : ℕ) : Prop :=
  ∀ markov v, StartsWalk special s markov v →
    markovLength % 256 ≤ 128 ∧ ¬Overruns host markov v

end Writes

/-- Some draw chooses the codepoint after the word. -/
def CanDraw (markov : Markov) (word : List ℕ) (c : ℕ) : Prop :=
  markov.level ≠ 0 ∧ ∃ leaf choice count,
    walkNode (markov.level - 1) markov.root (walkContext markov.level word) = some leaf ∧
      choice < leaf.totalCount ∧
      leafChoose leaf (List.range leaf.capacity) choice = some (c, count)

/-- The words the chain can walk, before their terminator. -/
inductive MarkovPath (markov : Markov) : List ℕ → Prop where
  | start : MarkovPath markov (List.replicate markov.level 0)
  | step {word : List ℕ} {c : ℕ} (hp : MarkovPath markov word) (hdraw : CanDraw markov word c)
      (hc : c ≠ 0) : MarkovPath markov (word ++ [c])

variable {host : Host σ δ} {markov : Markov} {s t : GenState σ δ} {word : List ℕ}

/-! ## One run -/

/-- **A longer walk comes past every length on its way**, and draws there. -/
theorem Walks.comes_past {n : ℕ} (hw : Walks host markov s word t) (hn : markov.level ≤ n)
    (hlt : n < word.length) :
    ∃ word' t' c u, Walks host markov s word' t' ∧ word'.length = n ∧
      Returns (markovGenerate host markov (walkContext markov.level word')) t' c u := by
  induction hw with
  | start => exact absurd hn (by rw [List.length_replicate] at hlt; omega)
  | @step word t u c hw hstep hc ih =>
    rw [List.length_append, List.length_singleton] at hlt
    by_cases hlast : word.length = n
    · exact ⟨word, t, c, u, hw, hlast, hstep⟩
    · exact ih (by omega)

/-- **The indices written are those of the array** iff the level fits and the walk ends in time. -/
theorem writes_lt_iff :
    (∀ i, MarkovWrites host markov s i → i < markovWordLength) ↔
      markov.level ≤ markovWordLength ∧ ¬Overruns host markov s := by
  constructor
  · intro h
    constructor
    · by_contra hlevel
      exact absurd (h _ (.clear (not_le.mp hlevel))) (lt_irrefl _)
    · rintro ⟨word, t, c, u, hw, hlength, hstep⟩
      exact absurd (h _ (.loop hw hstep)) (by rw [hlength]; exact lt_irrefl _)
  · rintro ⟨hlevel, hends⟩ i hi
    cases hi with
    | clear hi => exact hi.trans_le hlevel
    | @loop word t u c hw hstep =>
      by_contra hge
      rcases (not_lt.mp hge).eq_or_lt with heq | hlt
      · exact hends ⟨word, t, c, u, hw, heq.symm, hstep⟩
      · obtain ⟨word', t', c', u', hw', hlength, hstep'⟩ := hw.comes_past hlevel hlt
        exact hends ⟨word', t', c', u', hw', hlength, hstep'⟩

/-- **The generator gets as far as the walk does**, with the room that is left. -/
theorem run_markovWord_of_walks (hw : Walks host markov s word t)
    (hlength : word.length ≤ markovWordLength) :
    (markovWord host markov (markovWordLength - markov.level) (List.replicate markov.level 0)).run s
      = (markovWord host markov (markovWordLength - word.length) word).run t := by
  induction hw with
  | start => rw [List.length_replicate]
  | @step word t u c hw hstep hc ih =>
    rw [List.length_append, List.length_singleton] at hlength ⊢
    have hroom : markovWordLength - word.length = markovWordLength - (word.length + 1) + 1 := by
      omega
    rw [ih (by omega), hroom, markovWord, hstep.run_bind, if_neg hc]

/-- A generator that returns has written no index past the array. -/
theorem not_overruns_of_returns {result : List ℕ}
    (h : Returns (markovWord host markov (markovWordLength - markov.level)
      (List.replicate markov.level 0)) s result t) : ¬Overruns host markov s := by
  rintro ⟨word, u, c, v, hw, hlength, -⟩
  rw [Returns, run_markovWord_of_walks hw hlength.le, hlength, Nat.sub_self] at h
  exact returns_throw h

/-! ## Every sequence of draws -/

theorem canDraw_of_returns {c : ℕ}
    (h : Returns (markovGenerate host markov (walkContext markov.level word)) s c t) :
    CanDraw markov word c := by
  rw [markovGenerate] at h
  split at h
  · exact absurd h returns_throw
  rename_i hlevel
  refine ⟨hlevel, ?_⟩
  split at h
  · exact absurd h returns_throw
  rename_i leaf hwalk
  obtain ⟨_, _, -, h⟩ := returns_bind_iff.mp h
  obtain ⟨choice, _, hdraw, h⟩ := returns_bind_iff.mp h
  obtain ⟨_, hdraw, -⟩ := returns_drawBelow_iff.mp hdraw
  split at h
  · exact absurd h returns_throw
  rename_i c' count hchoose
  obtain ⟨_, _, -, h⟩ := returns_bind_iff.mp h
  obtain ⟨rfl, -⟩ := returns_pure_iff.mp h
  exact ⟨leaf, choice, count, hwalk, host.source.u64Max_lt hdraw, hchoose⟩

theorem Walks.path (hw : Walks host markov s word t) : MarkovPath markov word := by
  induction hw with
  | start => exact .start
  | step hw hstep hc ih => exact ih.step (canDraw_of_returns hstep) hc

/-- A draw that is played back. -/
theorem CanDraw.exists_choice {c : ℕ} (h : CanDraw markov word c) :
    ∃ choice, ∀ (s : GenState (List ℕ) Unit) rest, s.random = choice :: rest →
      ∃ t, Returns (markovGenerate drawHost markov (walkContext markov.level word)) s c t ∧
        t.random = rest := by
  obtain ⟨hlevel, leaf, choice, count, hwalk, hlt, hchoose⟩ := h
  refine ⟨choice, fun s rest hrandom => ?_⟩
  have hdraw : drawHost.source.u64Max s.random leaf.totalCount = some (choice, rest) := by
    rw [hrandom]
    exact if_pos hlt
  exact ⟨_, run_markovGenerate drawHost hlevel hwalk hdraw hchoose, rfl⟩

/-- **Every path of the chain is walked**, by the draws that choose its codepoints. -/
theorem MarkovPath.exists_choices (hp : MarkovPath markov word) :
    ∃ choices : List ℕ, ∀ (s : GenState (List ℕ) Unit) rest, s.random = choices ++ rest →
      ∃ t, Walks drawHost markov s word t ∧ t.random = rest := by
  induction hp with
  | start => exact ⟨[], fun s rest hrandom => ⟨s, .start, hrandom⟩⟩
  | step hp hdraw hc ih =>
    obtain ⟨choices, hwalks⟩ := ih
    obtain ⟨choice, hnext⟩ := hdraw.exists_choice
    refine ⟨choices ++ [choice], fun s rest hrandom => ?_⟩
    rw [List.append_assoc] at hrandom
    obtain ⟨t, hw, ht⟩ := hwalks s _ hrandom
    obtain ⟨u, hstep, hu⟩ := hnext t rest ht
    exact ⟨u, hw.step hstep hc, hu⟩

/-- The chain has a walk that fills the array, and a codepoint after it. -/
def Markov.Overlong (markov : Markov) : Prop :=
  ∃ word c, MarkovPath markov word ∧ word.length = markovWordLength ∧ CanDraw markov word c

/-- **The indices written are those of the array, whatever is drawn**, iff the level fits and the
chain has no longer walk. -/
theorem writes_lt_forall_iff (markov : Markov) :
    (∀ {σ δ : Type} (host : Host σ δ) (s : GenState σ δ) i, MarkovWrites host markov s i →
        i < markovWordLength) ↔
      markov.level ≤ markovWordLength ∧ ¬markov.Overlong := by
  constructor
  · intro h
    have hdraws := fun s => writes_lt_iff.mp (h drawHost s)
    refine ⟨(hdraws (GenState.init [] () 1 false [])).1, ?_⟩
    rintro ⟨word, c, hp, hlength, hdraw⟩
    obtain ⟨choices, hwalks⟩ := hp.exists_choices
    obtain ⟨choice, hnext⟩ := hdraw.exists_choice
    obtain ⟨t, hw, ht⟩ := hwalks (GenState.init (choices ++ [choice]) () 1 false []) [choice] rfl
    obtain ⟨u, hstep, -⟩ := hnext t [] ht
    exact (hdraws _).2 ⟨word, t, c, u, hw, hlength, hstep⟩
  · rintro ⟨hlevel, hlong⟩ σ δ host s
    refine writes_lt_iff.mpr ⟨hlevel, ?_⟩
    rintro ⟨word, t, c, u, hw, hlength, hstep⟩
    exact hlong ⟨word, c, hw.path, hlength, canDraw_of_returns hstep⟩

/-! ## The level -/

theorem level_markovAdd {markov markov' : Markov} {word : List ℕ} {weight : ℕ}
    (h : markovAdd markov word weight = some markov') :
    markov'.level = markov.level ∧ markov.level ≠ 0 := by
  refine ⟨foldlM_invariant (P := fun m => m.level = markov.level)
    (fun m _ _ m' hstep hm => (level_markovInsert hstep).1.trans hm) rfl h, ?_⟩
  obtain ⟨sequence, rest, hgrams⟩ := List.exists_cons_of_length_eq_add_one
    (length_markovGrams markov.level word)
  rw [markovAdd, hgrams] at h
  obtain ⟨mid, hinsert, -⟩ := Option.bind_eq_some_iff.mp h
  exact (level_markovInsert hinsert).2

/-- **Training keeps the level**, and returns for no list with a word where it is 0. -/
theorem level_wordlistParseMarkov {wordlist wordlist' : Wordlist}
    (h : wordlistParseMarkov wordlist = some wordlist') :
    wordlist'.markov.level = wordlist.markov.level ∧
      (wordlist.words ≠ some [] → wordlist.markov.level ≠ 0) := by
  obtain ⟨words, hwords, h⟩ := Option.bind_eq_some_iff.mp h
  obtain ⟨markov, hfold, ⟨⟩⟩ := Option.bind_eq_some_iff.mp h
  refine ⟨foldlM_invariant (P := fun m => m.level = wordlist.markov.level)
    (fun m _ _ m' hstep hm => (level_markovAdd hstep).1.trans hm) rfl hfold, fun hne => ?_⟩
  rw [hwords] at hne
  obtain ⟨word, rest, rfl⟩ := List.exists_cons_of_ne_nil fun hnil => hne (congrArg some hnil)
  obtain ⟨mid, hadd, -⟩ := Option.bind_eq_some_iff.mp hfold
  exact (level_markovAdd hadd).2

/-- The wordlist has been initialised with the length, and parsed and trained at most once each. -/
inductive Wordlist.LoadedWith (markovLength : ℕ) : Wordlist → Prop where
  | init (file : WordlistFile) : LoadedWith markovLength (wordlistInit file markovLength)
  | parse {wordlist wordlist' : Wordlist} {code : ℤ} (h : LoadedWith markovLength wordlist)
      (hparsed : wordlist.parsed = false)
      (hparse : wordlistParse wordlist = some (code, wordlist')) :
      LoadedWith markovLength wordlist'
  | train {wordlist wordlist' : Wordlist} (h : LoadedWith markovLength wordlist)
      (hparsed : wordlist.parsedMarkov = false)
      (htrain : wordlistParseMarkov wordlist = some wordlist') :
      LoadedWith markovLength wordlist'

/-- **The level is the length modulo 256.** -/
theorem Wordlist.LoadedWith.level_eq {markovLength : ℕ} {wordlist : Wordlist}
    (h : wordlist.LoadedWith markovLength) : wordlist.markov.level = markovLength % 256 := by
  induction h with
  | init file => exact UInt8.toNat_ofNat'
  | parse h hparsed hparse ih =>
    obtain ⟨file, -, hparse⟩ := Option.map_eq_some_iff.mp hparse
    split at hparse
    · obtain ⟨-, rfl⟩ := Prod.mk.inj hparse
      exact ih
    · obtain ⟨-, rfl⟩ := Prod.mk.inj hparse
      exact ih
  | train h hparsed htrain ih => exact (level_wordlistParseMarkov htrain).1.trans ih

theorem loadedWith_of_findWordlist {markovLength : ℕ} {special : Special} {name : List UInt8}
    {wordlist : Wordlist} (hs : ∀ p ∈ s.wordlists, p.2.LoadedWith markovLength)
    (h : Returns (findWordlist special) s (name, wordlist) t) :
    wordlist.LoadedWith markovLength := by
  obtain ⟨-, string, stored, -, -, hlookup, hfound⟩ := returns_findWordlist_iff.mp h
  obtain ⟨before, after, hsplit, -⟩ := List.lookup_eq_some_iff.mp hlookup
  have hstored : stored.LoadedWith markovLength :=
    hs _ (hsplit ▸ List.mem_append_right before List.mem_cons_self)
  rcases found_eq_some_iff.mp hfound with ⟨-, rfl⟩ | ⟨hparsed, code, hparse⟩
  · exact hstored
  · exact hstored.parse hparsed hparse

theorem loadedWith_of_trainWordlist {markovLength : ℕ} {parsed wordlist : Wordlist}
    (hparsed : parsed.LoadedWith markovLength)
    (h : Returns (trainWordlist parsed) s wordlist t) : wordlist.LoadedWith markovLength := by
  obtain ⟨-, ⟨-, rfl⟩ | ⟨htrained, htrain⟩⟩ := returns_trainWordlist_iff.mp h
  · exact hparsed
  · exact hparsed.train htrained htrain

/-- The chain a walk starts with has the level its wordlist was loaded with. -/
theorem StartsWalk.level_eq {markovLength : ℕ} {special : Special}
    (hs : ∀ p ∈ s.wordlists, p.2.LoadedWith markovLength)
    (h : StartsWalk special s markov t) : markov.level = markovLength % 256 := by
  obtain ⟨_, parsed, wordlist, _, _, hfind, htrain, -, rfl⟩ := h
  exact (loadedWith_of_trainWordlist (loadedWith_of_findWordlist hs hfind) htrain).level_eq

/-- **A word overruns its array** when the level is past 128, or the walk past the room there is: in
every run of the generator the indices written are those of the array iff neither happens, and
whatever is drawn from a chain, iff its level fits and it has no walk that is too long. -/
theorem word_fits_iff {σ δ : Type} (host : Host σ δ) (special : Special) (s : GenState σ δ)
    (markovLength : ℕ) (hs : ∀ p ∈ s.wordlists, p.2.LoadedWith markovLength) :
    (WordFits host special s ↔ WalkFits host special s markovLength) ∧
    ∀ markov : Markov,
      (∀ {σ δ : Type} (host : Host σ δ) (s : GenState σ δ) i, MarkovWrites host markov s i →
          i < 128) ↔
        markov.level ≤ 128 ∧ ¬markov.Overlong := by
  refine ⟨?_, writes_lt_forall_iff⟩
  refine forall_congr' fun markov => forall_congr' fun v => forall_congr' fun hstart => ?_
  rw [← hstart.level_eq hs]
  exact writes_lt_iff

/-- The list of the one word `a`, loaded with level 3 and used for the first time. -/
theorem word_fits_iff_a :
    WordFits drawHost ⟨.markov, 1, 8, [119]⟩
        (GenState.init [0, 0] () 1 false [([119], wordlistInit ⟨[97], true, by decide⟩ 3)]) ↔
      WalkFits drawHost ⟨.markov, 1, 8, [119]⟩
        (GenState.init [0, 0] () 1 false [([119], wordlistInit ⟨[97], true, by decide⟩ 3)]) 3 :=
  (word_fits_iff drawHost _ _ 3 fun p hp => by
    obtain rfl := List.mem_singleton.mp hp
    exact .init _).1

/-- With a level of 129, clearing the context of the only word writes index 128. -/
theorem not_word_fits :
    ∃ parsed wordlist, wordlistParse (wordlistInit ⟨[97], true, by decide⟩ 129) = some (0, parsed) ∧
      wordlistParseMarkov parsed = some wordlist ∧
      MarkovWrites drawHost wordlist.markov (GenState.init [] () 1 false []) 128 := by
  have hword : ∀ c ∈ decodedWord [97], c ≤ maxCodepoint := by decide
  have hpos : 0 < (129 : UInt8).toNat := by decide
  obtain ⟨markov, hadd, hlevel, -⟩ := (counts_init hpos).add hword 1
  let parsed : Wordlist := ⟨true, false, none, some [[97]], markovInit 129⟩
  refine ⟨parsed, { parsed with parsedMarkov := true, markov }, rfl, ?_, .clear ?_⟩
  · have hfold : [[97]].foldlM (fun markov word => markovAdd markov (decodedWord word) 1)
        (markovInit 129) = some markov := by
      rw [List.foldlM_cons, hadd]
      rfl
    rw [wordlistParseMarkov]
    simp only [parsed, Option.bind_eq_bind, Option.bind_some, hfold]
  · rw [hlevel]
    decide

end Passgen
