import Mathlib.Data.List.Basic
import Mathlib.Tactic.Common
import Passgen.Generate.Started
import Passgen.Generate.Walk

/-!
# Generate/Loading — wordlists whose file is not read in whole

    parse ─ parsed := true ─ read ┬ all of it ▸ scan ▸ words
                                  └ less      ▸ 1        no words, and nobody looks

A list is parsed once: when the first `\w` or `\m` that names it starts.  Where its file is not read
in whole it is left marked as parsed and without words, the result of parsing is dropped, and the
special goes on with the words that nobody wrote.  So what is parsed is loaded, in every sequence of
calls, exactly when the specials that are started name lists that are read in whole
(`noHalfLoaded_iff`).
-/

namespace Passgen

open Effect

variable {σ δ : Type}

/-! ## Calls -/

/-- A call of `passgen_generate`. -/
structure Call (σ δ : Type) where
  host : Host σ δ
  pattern : Group
  random : σ
  data : δ
  depthLimit : ℕ
  entropy : Bool

/-- The state a call starts in, with the lists of the environment. -/
def Call.start (call : Call σ δ) (wordlists : List (List UInt8 × Wordlist)) : GenState σ δ :=
  .init call.random call.data call.depthLimit call.entropy wordlists

/-- What a call does to the lists.  One that comes back may be followed by another, whatever it
returns. -/
def Call.run (call : Call σ δ) : EStateM Stop (List (List UInt8 × Wordlist)) Unit :=
  fun wordlists =>
    match (generate call.host call.pattern).run (call.start wordlists) with
    | .ok _ t => .ok () t.wordlists
    | .error (.returned _) t => .ok () t.wordlists
    | .error e t => .error e t.wordlists

/-- `passgen_wordlist_free`, with the file it closes, if any; `none` is a `free` of words that
nobody wrote. -/
def wordlistFree (wordlist : Wordlist) : Option (Option WordlistFile) :=
  if wordlist.parsed then wordlist.words.map fun _ => wordlist.file else some wordlist.file

/-- In the calls from `wordlists`, the special is started in `t`. -/
def StartedIn (calls : List (Call σ δ)) (wordlists : List (List UInt8 × Wordlist))
    (special : Special) (t : GenState σ δ) : Prop :=
  ∃ call mid, Reaches Call.run calls wordlists call mid ∧
    call.pattern.Starts call.host (call.start mid) special t

/-! ## Half-loaded lists -/

/-- The special asks for words of the list. -/
def Special.Names (special : Special) (wordlists : List (List UInt8 × Wordlist))
    (name : List UInt8) : Prop :=
  special.kind ≠ .preset ∧ ∃ string, special.string = some string ∧ cString string = name ∧
    (wordlists.lookup name).isSome

/-- From `s` the special uses words that nobody wrote: `passgen_wordlist_random` draws from the list
it finds, and `passgen_wordlist_parse_markov` reads it on first use. -/
def UsesUnset (special : Special) (s : GenState σ δ) : Prop :=
  special.kind ≠ .preset ∧ ∃ name wordlist t,
    Returns (findWordlist special) s (name, wordlist) t ∧ wordlist.words = none ∧
      (special.kind = .markov → wordlist.parsedMarkov = false)

/-- What is parsed has the words of its file. -/
def Whole (files : List UInt8 → WordlistFile) (wordlists : List (List UInt8 × Wordlist)) : Prop :=
  ∀ p ∈ wordlists, p.2.parsed = true →
    p.2.words = some (wordlistScan (files p.1).contents)

/-- **No list is half loaded** in the calls from `wordlists`. -/
structure NoHalfLoaded (files : List UInt8 → WordlistFile) (calls : List (Call σ δ))
    (wordlists : List (List UInt8 × Wordlist)) : Prop where
  called : ∀ call mid, Reaches Call.run calls wordlists call mid → Whole files mid
  started : ∀ special t, StartedIn calls wordlists special t → Whole files t.wordlists
  left : ∀ mid, Returns (inOrder (calls.map Call.run)) wordlists () mid → Whole files mid
  set : ∀ special t, StartedIn calls wordlists special t → ¬UsesUnset special t
  freed : ∀ mid, Returns (inOrder (calls.map Call.run)) wordlists () mid →
    ∀ p ∈ mid, (wordlistFree p.2).isSome
  fails : ∀ call mid special t name, Reaches Call.run calls wordlists call mid →
    call.pattern.Starts call.host (call.start mid) special t →
      special.Names t.wordlists name → (files name).complete = false →
        ∃ code ≠ 0, ∃ u, Stops (generate call.host call.pattern) (call.start mid) (.returned code) u

/-- The lists the special asks for are read in whole. -/
def ReadWhole (files : List UInt8 → WordlistFile) (special : Special) (t : GenState σ δ) : Prop :=
  ∀ name, special.Names t.wordlists name → (files name).complete = true

/-- The environment as `passgen_env_wordlist_add` fills it. -/
def Added (files : List UInt8 → WordlistFile) (wordlists : List (List UInt8 × Wordlist)) : Prop :=
  ∀ p ∈ wordlists, ∃ markovLength, p.2 = wordlistInit (files p.1) markovLength

/-! ## The lists under the specials -/

/-- What holds of each list, under its name. -/
def Each (P : List UInt8 → Wordlist → Prop) (wordlists : List (List UInt8 × Wordlist)) : Prop :=
  ∀ p ∈ wordlists, P p.1 p.2

section Special

variable {host : Host σ δ} {P : List UInt8 → Wordlist → Prop} {special : Special}
  {s : GenState σ δ}

theorem Each.lookup {wordlists : List (List UInt8 × Wordlist)} {name : List UInt8}
    {wordlist : Wordlist} (h : Each P wordlists) (hlookup : wordlists.lookup name = some wordlist) :
    P name wordlist := by
  obtain ⟨before, after, rfl, -⟩ := List.lookup_eq_some_iff.mp hlookup
  exact h (name, wordlist) (List.mem_append_right before List.mem_cons_self)

theorem kept_findWordlist (special : Special) :
    Kept (findWordlist special : Gen σ δ (List UInt8 × Wordlist)) :=
  kept_of (fun h => by rw [(returns_findWordlist_iff.mp h).1])
    fun h => by rw [stops_findWordlist h]

theorem kept_trainWordlist (wordlist : Wordlist) :
    Kept (trainWordlist wordlist : Gen σ δ Wordlist) := by
  rw [trainWordlist]
  split
  · exact kept_pure _
  split
  · exact kept_throw _
  · exact kept_pure _

/-- A list is stored under its name. -/
theorem holdsAt_storeWordlist {name : List UInt8} {wordlist : Wordlist} (h : P name wordlist) :
    (invariant fun s => Each P s.wordlists).HoldsAt 1
      (storeWordlist name wordlist : Gen σ δ Unit) s := by
  refine Guarantee.holds_modify (fun s hs p hp => ?_) s
  obtain ⟨q, hq, rfl⟩ := List.mem_map.mp hp
  split
  · rename_i hname
    exact hname ▸ h
  · exact hs q hq

/-- **A special keeps what holds of each list**, if parsing the list it asks for does, and
training. -/
theorem each_generateSpecial
    (hfind : ∀ name stored wordlist, special.Names s.wordlists name → P name stored →
      stored.found = some wordlist → P name wordlist)
    (htrain : ∀ name wordlist trained, P name wordlist → wordlist.parsedMarkov = false →
      wordlistParseMarkov wordlist = some trained → P name trained) :
    (invariant fun s => Each P s.wordlists).HoldsAt 1 (generateSpecial host special) s := by
  refine holdsAt_invariant fun hs => ?_
  have hfound : special.kind ≠ .preset → ∀ name wordlist t,
      Returns (findWordlist special) s (name, wordlist) t → P name wordlist := by
    intro hkind name wordlist t h
    obtain ⟨-, string, stored, hstring, hname, hlookup, hfound⟩ := returns_findWordlist_iff.mp h
    have hsome : (s.wordlists.lookup name).isSome := Option.isSome_of_eq_some hlookup
    exact hfind name stored wordlist ⟨hkind, string, hstring, hname, hsome⟩ (hs.lookup hlookup)
      hfound
  rw [generateSpecial]
  cases hkind : special.kind with
  | preset => exact Guarantee.holds_pure () s
  | markov =>
    have hne : special.kind ≠ .preset := by simp [hkind]
    refine (kept_findWordlist special _ s).next fun found t hfind => ?_
    obtain ⟨name, wordlist⟩ := found
    refine (kept_trainWordlist wordlist _ t).next fun trained u htrained => ?_
    have hP : P name trained := by
      have hwordlist := hfound hne name wordlist t hfind
      obtain ⟨-, ⟨-, rfl⟩ | ⟨hparsed, htrain'⟩⟩ := returns_trainWordlist_iff.mp htrained
      · exact hwordlist
      · exact htrain name wordlist trained hwordlist hparsed htrain'
    refine (holdsAt_storeWordlist hP).next fun _ v _ => ?_
    exact ((kept_markovWord _ _ _).bind fun word => kept_emitAll _) _ v
  | wordlist =>
    have hne : special.kind ≠ .preset := by simp [hkind]
    refine (kept_findWordlist special _ s).next fun found t hfind => ?_
    obtain ⟨name, wordlist⟩ := found
    refine (holdsAt_storeWordlist (hfound hne name wordlist t hfind)).next fun _ u _ => ?_
    split
    · exact Guarantee.holds_throw _ u
    refine Kept.bind (kept_drawBelow _ _) (fun index => ?_) _ u
    dsimp only
    split
    · exact kept_throw _
    · exact (kept_emitAll _).bind fun _ => kept_entropy _

end Special

/-! ## The state of a list -/

/-- What is true of a list with this file, whatever happens: it has words when it is parsed, if the
file is read in whole. -/
structure Wordlist.Tracks (file : WordlistFile) (wordlist : Wordlist) : Prop where
  unparsed : wordlist.parsed = false → wordlist.file = some file ∧ wordlist.words = none
  words : wordlist.parsed = true →
    wordlist.words = if file.complete then some (wordlistScan file.contents) else none
  trained : wordlist.parsedMarkov = true → wordlist.words ≠ none

section State

variable {file : WordlistFile} {stored wordlist trained : Wordlist}

theorem tracks_wordlistInit (file : WordlistFile) (markovLength : ℕ) :
    (wordlistInit file markovLength).Tracks file :=
  ⟨fun _ => ⟨rfl, rfl⟩, fun h => absurd h (by simp [wordlistInit]),
    fun h => absurd h (by simp [wordlistInit])⟩

/-- **A list is always found**, and parsed then. -/
theorem Wordlist.Tracks.found (h : stored.Tracks file) :
    ∃ wordlist, stored.found = some wordlist ∧ wordlist.Tracks file ∧ wordlist.parsed = true := by
  by_cases hparsed : stored.parsed = true
  · exact ⟨stored, if_pos hparsed, h, hparsed⟩
  · obtain ⟨hfile, hwords⟩ := h.unparsed (by simpa using hparsed)
    rw [Wordlist.found, if_neg hparsed, wordlistParse, hfile]
    have hmarkov : stored.parsedMarkov ≠ true := fun hmarkov => h.trained hmarkov hwords
    by_cases hcomplete : file.complete = true
    · refine ⟨_, rfl, ⟨?_, ?_, ?_⟩, ?_⟩ <;> simp [hcomplete]
    · refine ⟨_, rfl, ⟨?_, ?_, ?_⟩, ?_⟩ <;> simp [hcomplete, hwords, hmarkov]

theorem Wordlist.Tracks.train (h : wordlist.Tracks file)
    (htrain : wordlistParseMarkov wordlist = some trained) : trained.Tracks file := by
  obtain ⟨words, hwords, htrain⟩ := Option.bind_eq_some_iff.mp htrain
  obtain ⟨markov, -, ⟨⟩⟩ := Option.bind_eq_some_iff.mp htrain
  exact ⟨h.unparsed, h.words, fun _ => by simp [hwords]⟩

end State

/-! ## The lists in a run -/

section Runs

variable {files : List UInt8 → WordlistFile} {calls : List (Call σ δ)}
  {wordlists mid : List (List UInt8 × Wordlist)} {special : Special} {s t : GenState σ δ}

/-- The lists track their files. -/
def Tracked (files : List UInt8 → WordlistFile) : List (List UInt8 × Wordlist) → Prop :=
  Each fun name wordlist => wordlist.Tracks (files name)

/-- The lists track their files, and those that are parsed are read in whole. -/
def Settled (files : List UInt8 → WordlistFile) : List (List UInt8 × Wordlist) → Prop :=
  Each fun name wordlist => wordlist.Tracks (files name) ∧
    (wordlist.parsed = true → (files name).complete = true)

theorem specialsKeep_tracked (files : List UInt8 → WordlistFile) (host : Host σ δ) :
    SpecialsKeep host (Tracked files) fun _ _ => True := by
  refine fun special t _ => each_generateSpecial (fun name stored wordlist _ h hfound => ?_)
    fun name wordlist trained h _ htrain => h.train htrain
  obtain ⟨found, hfound', htracks, -⟩ := h.found
  obtain rfl := Option.some.inj (hfound.symm.trans hfound')
  exact htracks

theorem specialsKeep_settled (files : List UInt8 → WordlistFile) (host : Host σ δ) :
    SpecialsKeep host (Settled files) (ReadWhole files) := by
  refine fun special t hread => each_generateSpecial
    (fun name stored wordlist hnames h hfound => ?_) fun name wordlist trained h _ htrain => ?_
  · obtain ⟨found, hfound', htracks, -⟩ := h.1.found
    obtain rfl := Option.some.inj (hfound.symm.trans hfound')
    exact ⟨htracks, fun _ => hread name hnames⟩
  · refine ⟨h.1.train htrain, fun hparsed => h.2 ?_⟩
    obtain ⟨words, -, htrain⟩ := Option.bind_eq_some_iff.mp htrain
    obtain ⟨markov, -, ⟨⟩⟩ := Option.bind_eq_some_iff.mp htrain
    exact hparsed

/-- **Unset words are used** of a list that is not read in whole. -/
theorem usesUnset_iff (hs : Tracked files s.wordlists) :
    UsesUnset special s ↔ ¬ReadWhole files special s := by
  constructor
  · rintro ⟨hkind, name, wordlist, t, hfind, hwords, -⟩ hread
    obtain ⟨-, string, stored, hstring, hname, hlookup, hfound⟩ :=
      returns_findWordlist_iff.mp hfind
    have hcomplete := hread name ⟨hkind, string, hstring, hname, Option.isSome_of_eq_some hlookup⟩
    obtain ⟨found, hfound', htracks, hparsed⟩ := (hs.lookup hlookup).found
    obtain rfl := Option.some.inj (hfound.symm.trans hfound')
    rw [htracks.words hparsed, if_pos hcomplete] at hwords
    exact absurd hwords (by simp)
  · intro hread
    rw [ReadWhole] at hread
    push Not at hread
    obtain ⟨name, ⟨hkind, string, hstring, hname, hsome⟩, hcomplete⟩ := hread
    obtain ⟨stored, hlookup⟩ := Option.isSome_iff_exists.mp hsome
    obtain ⟨wordlist, hfound, htracks, hparsed⟩ := (hs.lookup hlookup).found
    have hwords := htracks.words hparsed
    rw [if_neg hcomplete] at hwords
    have hfind : Returns (findWordlist special) s (name, wordlist) s :=
      returns_findWordlist_iff.mpr ⟨rfl, string, stored, hstring, hname, hlookup, hfound⟩
    refine ⟨hkind, name, wordlist, s, hfind, hwords, fun _ => ?_⟩
    by_contra hmarkov
    exact htracks.trained (by simpa using hmarkov) hwords

/-- **The program goes wrong** where unset words are used. -/
theorem UsesUnset.stops {host : Host σ δ} (h : UsesUnset special s) :
    ∃ t, Stops (generateSpecial host special) s .fault t := by
  obtain ⟨hkind, name, wordlist, t, hfind, hwords, hmarkov⟩ := h
  rw [generateSpecial]
  cases hspecial : special.kind with
  | preset => exact absurd hspecial hkind
  | markov =>
    have htrain : Stops (trainWordlist wordlist) t .fault t := by
      have hnone : wordlistParseMarkov wordlist = none := by
        rw [wordlistParseMarkov, hwords]
        rfl
      rw [trainWordlist, hmarkov hspecial, hnone]
      exact stops_throw_iff.mpr ⟨rfl, rfl⟩
    exact ⟨t, stops_bind_iff.mpr (.inr ⟨_, t, hfind, stops_bind_iff.mpr (.inl htrain)⟩)⟩
  | wordlist =>
    obtain ⟨u, hstore⟩ : ∃ u, Returns (storeWordlist name wordlist) t () u :=
      ⟨_, returns_modify_iff.mpr rfl⟩
    refine ⟨u, stops_bind_iff.mpr (.inr ⟨_, t, hfind, ?_⟩)⟩
    refine stops_bind_iff.mpr (.inr ⟨_, u, hstore, ?_⟩)
    rw [hwords]
    exact stops_throw_iff.mpr ⟨rfl, rfl⟩

theorem Settled.tracked (h : Settled files wordlists) : Tracked files wordlists :=
  fun p hp => (h p hp).1

theorem Settled.whole (h : Settled files wordlists) : Whole files wordlists := by
  intro p hp hparsed
  have hwords := (h p hp).1.words hparsed
  rwa [if_pos ((h p hp).2 hparsed)] at hwords

theorem Settled.freed (h : Settled files wordlists) :
    ∀ p ∈ wordlists, (wordlistFree p.2).isSome := by
  intro p hp
  rw [wordlistFree]
  split
  · rename_i hparsed
    rw [h.whole p hp hparsed]
    rfl
  · rfl

/-- The lists a call leaves are those its run ends with. -/
theorem final_run (call : Call σ δ) (wordlists : List (List UInt8 × Wordlist)) :
    final call.run wordlists =
      (final (generate call.host call.pattern) (call.start wordlists)).wordlists := by
  rcases returns_or_stops (generate call.host call.pattern) (call.start wordlists) with
    ⟨a, t, h⟩ | ⟨e, t, h⟩
  · rw [final_of_returns h]
    exact final_of_returns (a := ()) (by rw [Returns, EStateM.run, Call.run, h])
  · rw [final_of_stops h]
    cases e with
    | returned code => exact final_of_returns (a := ()) (by rw [Returns, EStateM.run, Call.run, h])
    | looping => exact final_of_stops (e := .looping) (by rw [Stops, EStateM.run, Call.run, h])
    | fault => exact final_of_stops (e := .fault) (by rw [Stops, EStateM.run, Call.run, h])

section Kept

variable {R : List (List UInt8 × Wordlist) → Prop} {Q : Special → GenState σ δ → Prop}

/-- **Each call keeps what the specials keep.** -/
theorem holdsAt_run (hQ : ∀ host, SpecialsKeep host R Q)
    (hstarts : ∀ special t, StartedIn calls wordlists special t → Q special t)
    {call : Call σ δ} (hreach : Reaches Call.run calls wordlists call mid) :
    (invariant R).HoldsAt 1 call.run mid := by
  rw [holdsAt_invariant_iff, final_run]
  have hrun := holdsAt_generate (hQ call.host) fun special t h =>
    hstarts special t ⟨call, mid, hreach, h⟩
  exact holdsAt_invariant_iff.mp hrun

theorem kept_of_called (hQ : ∀ host, SpecialsKeep host R Q)
    (hstarts : ∀ special t, StartedIn calls wordlists special t → Q special t) {call : Call σ δ}
    (hreach : Reaches Call.run calls wordlists call mid) (hs : R wordlists) : R mid :=
  (invariant R).returns_of_reaches hreach (fun _ _ h => holdsAt_run hQ hstarts h) hs

theorem kept_of_started (hQ : ∀ host, SpecialsKeep host R Q)
    (hstarts : ∀ special t, StartedIn calls wordlists special t → Q special t)
    (h : StartedIn calls wordlists special t) (hs : R wordlists) : R t.wordlists := by
  obtain ⟨call, mid, hreach, h⟩ := h
  exact h.kept (hQ call.host) (fun special t h => hstarts special t ⟨call, mid, hreach, h⟩)
    (kept_of_called hQ hstarts hreach hs)

theorem kept_of_left (hQ : ∀ host, SpecialsKeep host R Q)
    (hstarts : ∀ special t, StartedIn calls wordlists special t → Q special t)
    (h : Returns (inOrder (calls.map Call.run)) wordlists () mid) (hs : R wordlists) : R mid :=
  (Guarantee.holdsAt_inOrder fun _ _ hreach => holdsAt_run hQ hstarts hreach).returns h hs

end Kept

end Runs

theorem settled_of_added {files : List UInt8 → WordlistFile}
    {wordlists : List (List UInt8 × Wordlist)} (h : Added files wordlists) :
    Settled files wordlists := by
  intro p hp
  obtain ⟨markovLength, hp⟩ := h p hp
  rw [hp]
  exact ⟨tracks_wordlistInit _ _, fun h => absurd h (by simp [wordlistInit])⟩

/-- **A call goes wrong** where it starts a special that asks for a list not read in whole. -/
theorem stops_of_not_readWhole {files : List UInt8 → WordlistFile}
    {wordlists mid : List (List UInt8 × Wordlist)} {calls : List (Call σ δ)} {call : Call σ δ}
    {special : Special} {t : GenState σ δ} (hadded : Added files wordlists)
    (hreach : Reaches Call.run calls wordlists call mid)
    (hstart : call.pattern.Starts call.host (call.start mid) special t)
    (hread : ¬ReadWhole files special t) :
    ∃ u, Stops (generate call.host call.pattern) (call.start mid) .fault u := by
  have htracked := kept_of_started (specialsKeep_tracked files) (fun _ _ _ => trivial)
    ⟨call, mid, hreach, hstart⟩ (settled_of_added hadded).tracked
  obtain ⟨u, hstops⟩ := ((usesUnset_iff htracked).mpr hread).stops
  exact ⟨u, hstart.stops hstops⟩

/-- **No list is half loaded** in a sequence of calls exactly when every list that a `\w` or a `\m`
asks for, when it is started, is read in whole. -/
theorem noHalfLoaded_iff {files : List UInt8 → WordlistFile}
    {wordlists : List (List UInt8 × Wordlist)} (hadded : Added files wordlists)
    (calls : List (Call σ δ)) :
    NoHalfLoaded files calls wordlists ↔
      ∀ special t, StartedIn calls wordlists special t → ReadWhole files special t := by
  have hinit := settled_of_added hadded
  constructor
  · intro h special t hstart
    have htracked := kept_of_started (specialsKeep_tracked files) (fun _ _ _ => trivial) hstart
      hinit.tracked
    exact not_not.mp fun hread => h.set special t hstart ((usesUnset_iff htracked).mpr hread)
  · intro hread
    have hkeep := specialsKeep_settled (σ := σ) (δ := δ) files
    refine ⟨fun call mid h => ?_, fun special t h => ?_, fun mid h => ?_, fun special t h => ?_,
      fun mid h => ?_, fun call mid special t name hreach h hnames hshort => ?_⟩
    · exact (kept_of_called hkeep hread h hinit).whole
    · exact (kept_of_started hkeep hread h hinit).whole
    · exact (kept_of_left hkeep hread h hinit).whole
    · have hsettled := kept_of_started hkeep hread h hinit
      exact fun hunset => (usesUnset_iff hsettled.tracked).mp hunset (hread special t h)
    · exact (kept_of_left hkeep hread h hinit).freed
    · have hcomplete := hread special t ⟨call, mid, hreach, h⟩ name hnames
      exact absurd (hcomplete.symm.trans hshort) (by simp)

/-- One word of the list `w`, with the first draws all zero. -/
def wordCall : Call (List ℕ) Unit :=
  ⟨drawHost, ⟨[⟨[.mk (.special ⟨.wordlist, 1, 16, [119]⟩) ⟨1, 1⟩ false], 1⟩], 1⟩, [], (), 1, false⟩

/-- A list that is read in whole. -/
theorem noHalfLoaded_whole :
    NoHalfLoaded (fun _ => ⟨[97], true, by decide⟩) [wordCall, wordCall]
      [([119], wordlistInit ⟨[97], true, by decide⟩ 3)] := by
  refine (noHalfLoaded_iff (fun p hp => ⟨3, ?_⟩) _).mpr fun _ _ _ _ _ => rfl
  rw [List.mem_singleton.mp hp]

/-- A list that is not. -/
theorem not_noHalfLoaded_short :
    ¬NoHalfLoaded (fun _ => ⟨[97], false, by decide⟩) [wordCall]
      [([119], wordlistInit ⟨[97], false, by decide⟩ 3)] := by
  intro h
  have hstart : StartedIn [wordCall] [([119], wordlistInit ⟨[97], false, by decide⟩ 3)]
      ⟨.wordlist, 1, 16, [119]⟩ _ :=
    ⟨wordCall, _, .here, _, _, _, _, ⟨_, _, _, 0, 0, rfl, by decide, rfl, rfl, rfl, rfl⟩, .here,
      .special ⟨_, _, 1, rfl, rfl, .here⟩⟩
  exact h.set _ _ hstart ⟨by decide, [119], _, _, rfl, rfl, fun h => nomatch h⟩

end Passgen
