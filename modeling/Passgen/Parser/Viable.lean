import Mathlib.Data.List.Basic
import Mathlib.Order.Bounds.Basic
import Mathlib.Tactic.Common
import Passgen.Parser.Derives
import Passgen.Parser.Positions

/-!
# Parser/Viable — an error is at the first token that no pattern goes on with

    token token … token ▴ token …        in front of ▴ is the start of a pattern
                        └ error.offset

The parser refuses nothing too early and nothing too late.  What it has accepted can always be
completed (`completes_of_run`): a range by its own start, a set by its bracket, a name and a number
by a brace, a group by a parenthesis.  So tokens are the start of a pattern exactly when they are
accepted (`viable_iff`), and the offset of an error is the last place between two tokens up to which
the text is the start of a pattern (`parse_error_greatest`).
-/

namespace Passgen

/-! ## Tokens that can be written -/

/-- There are codepoints that spell the token. -/
def HasSpelling (t : ℕ) : Prop := ∃ piece, (∀ c ∈ piece, IsScalar c) ∧ Spelling piece t

section HasSpelling

variable {cs ts more : List ℕ}

theorem hasSpelling_plain {c : ℕ} (hc : IsScalar c) (hne : c ≠ '\\'.toNat) : HasSpelling c :=
  ⟨[c], List.forall_mem_singleton.mpr hc, .plain hne⟩

theorem Spellings.hasSpelling (h : Spellings cs ts) (hcs : ∀ c ∈ cs, IsScalar c) :
    ∀ t ∈ ts, HasSpelling t := by
  intro t ht
  obtain ⟨before, piece, after, -, rfl, -, hpiece⟩ := h.mem ht
  refine ⟨piece, fun c hc => hcs c ?_, hpiece⟩
  exact List.mem_append_right _ (List.mem_append_left _ hc)

/-- They can be written behind others. -/
theorem Spellings.write (h : Spellings cs ts) (hmore : ∀ t ∈ more, HasSpelling t) :
    ∃ text, (∀ c ∈ text, IsScalar c) ∧ Spellings (cs ++ text) (ts ++ more) := by
  induction more using List.reverseRecOn with
  | nil => exact ⟨[], List.forall_mem_nil _, by simpa using h⟩
  | append_singleton more t ih =>
    obtain ⟨hmore, ht⟩ := List.forall_mem_append.mp hmore
    obtain ⟨text, htext, hspell⟩ := ih hmore
    obtain ⟨piece, hpiece, hspelling⟩ := List.forall_mem_singleton.mp ht
    refine ⟨text ++ piece, List.forall_mem_append.mpr ⟨htext, hpiece⟩, ?_⟩
    rw [← List.append_assoc, ← List.append_assoc]
    exact hspell.snoc hspelling

end HasSpelling

/-! ## Every run can be completed -/

section Completes

variable {g g' : Group} {s s' : Segment} {state : List ParserState} {ts us : List ℕ}
  {top : ParserState}

/-- The start of a range can be its end. -/
theorem SetText.hasSpelling_start {text : List RangeText} {x : RangeText}
    (h : SetText (text ++ [x])) (hx : HasSpelling x.start) :
    rangeStart x.start ≠ ']'.toNat ∧ HasSpelling (rangeStart x.start) := by
  obtain ⟨-, ⟨hend, hesc⟩, -⟩ := setText_concat_iff.mp h
  rw [rangeStart]
  split
  · rename_i hescaped
    rw [hesc hescaped]
    exact ⟨by decide, hasSpelling_plain (by decide) (by decide)⟩
  · exact ⟨hend, hx⟩

/-- **An element that has been begun can be completed.** -/
theorem Begun.completes (h : Begun g s us top g' s') (hus : ∀ t ∈ us, HasSpelling t) :
    ∃ more g'' s'', (∀ t ∈ more, HasSpelling t) ∧ DerivesElem g s (us ++ more) g'' s'' := by
  have hbracket : HasSpelling ']'.toNat := hasSpelling_plain (by decide) (by decide)
  have hbrace : ∀ t ∈ ['}'.toNat], HasSpelling t :=
    List.forall_mem_singleton.mpr (hasSpelling_plain (by decide) (by decide))
  cases h with
  | set ht htext => exact ⟨_, _, _, List.forall_mem_singleton.mpr hbracket, .set ht htext⟩
  | @setRange t text x ht htext =>
    have hmem : x.start ∈ t :: (text ++ [x]).flatMap RangeText.tokens ++ ['-'.toNat] := by
      simp [RangeText.tokens]
    obtain ⟨hend, hspelled⟩ := htext.hasSpelling_start (hus _ hmem)
    obtain ⟨hfront, hx, hdash, hends⟩ := setText_concat_iff.mp htext
    have htext' : SetText (text ++ [x.extend (rangeStart x.start) le_rfl]) :=
      setText_concat_iff.mpr ⟨hfront, hx, hdash, forall_mem_concat hends hend⟩
    have hsplit : t :: (text ++ [x.extend _ le_rfl]).flatMap RangeText.tokens ++ [']'.toNat]
        = t :: (text ++ [x]).flatMap RangeText.tokens ++ ['-'.toNat]
          ++ [rangeStart x.start, ']'.toNat] := by
      rw [flatMap_tokens_extend]
      simp
    have helem := DerivesElem.set (g := g) (s := s) ht htext'
    rw [hsplit] at helem
    exact ⟨_, _, _, List.forall_mem_cons.mpr
      ⟨hspelled, List.forall_mem_singleton.mpr hbracket⟩, helem⟩
  | special ht hkind =>
    have hopen : HasSpelling '{'.toNat := hasSpelling_plain (by decide) (by decide)
    exact ⟨['{'.toNat, '}'.toNat], _, _, List.forall_mem_cons.mpr ⟨hopen, hbrace⟩,
      .special ht hkind List.not_mem_nil⟩
  | specialName ht hkind hname => exact ⟨_, _, _, hbrace, .special ht hkind hname⟩
  | multiplier ht hs hds => exact ⟨_, _, _, hbrace, .multiplier ht hs hds⟩
  | «repeat» ht hs hds => exact ⟨_, _, _, hbrace, .count ht hs hds⟩
  | repeatRange ht hs hds hes => exact ⟨_, _, _, hbrace, .range ht hs hds hes⟩

/-- **Open groups can be closed**, from the topmost on. -/
theorem Opened.completes (h : Opened ts state) :
    ∃ more g s, (∀ t ∈ more, HasSpelling t) ∧ Derives groupOpen segmentInit (ts ++ more) g s := by
  induction hlen : state.length generalizing ts state with
  | zero => cases h <;> cases hlen
  | succ n ih =>
    cases h with
    | @root _ g s h => exact ⟨[], g, s, List.forall_mem_nil _, by rwa [List.append_nil]⟩
    | @paren ts us t g s parent last rest hbelow ht h =>
      have hclose : IsControl ')'.toNat ')' := by decide
      have hopened := hbelow.elem (.group ht hclose h)
      obtain ⟨more, g', s', hmore, hderives⟩ := ih hopened (by simpa using hlen)
      refine ⟨')'.toNat :: more, g', s', List.forall_mem_cons.mpr
        ⟨hasSpelling_plain (by decide) (by decide), hmore⟩, ?_⟩
      simpa using hderives

/-- **What has been accepted is the start of a pattern.** -/
theorem completes_of_run (hrun : parseStates ts parserInit.state = some state)
    (hts : ∀ t ∈ ts, HasSpelling t) :
    ∃ more pattern, (∀ t ∈ more, HasSpelling t) ∧ DerivesPattern (ts ++ more) pattern := by
  cases reached_of_run hrun with
  | between h =>
    obtain ⟨more, g, s, hmore, hderives⟩ := h.completes
    exact ⟨more, _, hmore, g, s, hderives, rfl⟩
  | @inside ts us g s g' s' top rest h hbegun =>
    obtain ⟨more, g'', s'', hmore, helem⟩ :=
      hbegun.completes fun t ht => hts t (List.mem_append_right _ ht)
    obtain ⟨more', g₁, s₁, hmore', hderives⟩ := (h.elem helem).completes
    refine ⟨more ++ more', _, List.forall_mem_append.mpr ⟨hmore, hmore'⟩, g₁, s₁, ?_, rfl⟩
    simpa using hderives

end Completes

/-! ## The start of a pattern -/

/-- Some pattern starts with the codepoints. -/
def Viable (cs : List ℕ) : Prop :=
  ∃ more, (∀ c ∈ more, IsScalar c) ∧ ∃ pattern, parse (utf8EncodeAll (cs ++ more)) = .ok pattern

section Viable

variable {cs rest tokens : List ℕ}

/-- **Tokens are the start of a pattern exactly when they are accepted.** -/
theorem viable_iff (hcs : ∀ c ∈ cs, IsScalar c) (hlex : lex .init cs = some tokens) :
    Viable cs ↔ ∃ state, parseStates tokens parserInit.state = some state := by
  constructor
  · rintro ⟨more, hmore, pattern, hparse⟩
    obtain ⟨ts, state, hts, hrun, -⟩ :=
      (parse_encodeAll_iff (List.forall_mem_append.mpr ⟨hcs, hmore⟩) pattern).mp hparse
    rw [(lex_append hlex more).1] at hts
    obtain ⟨us, -, rfl⟩ := Option.map_eq_some_iff.mp hts
    rw [parseStates_append] at hrun
    obtain ⟨mid, hmid, -⟩ := Option.bind_eq_some_iff.mp hrun
    exact ⟨mid, hmid⟩
  · rintro ⟨state, hrun⟩
    have hspell := spellings_iff.mpr hlex
    obtain ⟨more, pattern, hmore, hderives⟩ := completes_of_run hrun (hspell.hasSpelling hcs)
    obtain ⟨text, htext, hwritten⟩ := hspell.write hmore
    obtain ⟨last, hlast, hfinish⟩ := derivesPattern_iff.mp hderives
    refine ⟨text, htext, pattern, ?_⟩
    exact (parse_encodeAll_iff (List.forall_mem_append.mpr ⟨hcs, htext⟩) pattern).mpr
      ⟨_, last, spellings_iff.mp hwritten, hlast, hfinish⟩

theorem Viable.of_append (hrest : ∀ c ∈ rest, IsScalar c) (h : Viable (cs ++ rest)) :
    Viable cs := by
  obtain ⟨more, hmore, pattern, hparse⟩ := h
  rw [List.append_assoc] at hparse
  exact ⟨rest ++ more, List.forall_mem_append.mpr ⟨hrest, hmore⟩, pattern, hparse⟩

/-- The places between two tokens up to which the text is the start of a pattern. -/
def ViableUpTo (cs : List ℕ) : Set ℕ :=
  {n | n ≤ cs.length ∧ (∃ tokens, Spellings (cs.take n) tokens) ∧ Viable (cs.take n)}

/-- **The last of them**: the text up to there is one, and no tokens behind it go on with it. -/
theorem isGreatest_viable {before : List ℕ} (hlex : lex .init before = some tokens)
    (hviable : Viable before)
    (hstop : ∀ q r qs, rest = q ++ r → q ≠ [] → lex .init q = some qs → ¬Viable (before ++ q)) :
    IsGreatest (ViableUpTo (before ++ rest)) before.length := by
  constructor
  · refine ⟨List.length_append ▸ Nat.le_add_right _ _, ?_, ?_⟩
    · rw [List.take_left]
      exact ⟨tokens, spellings_iff.mpr hlex⟩
    · rwa [List.take_left]
  · rintro n ⟨hn, ⟨ts, hspell⟩, hv⟩
    by_contra hlt
    have htake : (before ++ rest).take n = before ++ rest.take (n - before.length) := by
      rw [List.take_append, List.take_of_length_le (by omega)]
    rw [htake] at hspell hv
    have hts := spellings_iff.mp hspell
    rw [(lex_append hlex _).1] at hts
    obtain ⟨qs, hqs, -⟩ := Option.map_eq_some_iff.mp hts
    refine hstop _ _ qs (List.take_append_drop _ _).symm (fun hnil => ?_) hqs hv
    rw [List.length_append] at hn
    rcases List.take_eq_nil_iff.mp hnil with hzero | hrest
    · omega
    · rw [hrest, List.length_nil] at hn
      omega

end Viable

/-! ## What has been handed over -/

section Handed

variable {run : List Token × FrontEnd} {cs : List ℕ} {tokens : List Token} {e : ParseError}

theorem TokensOf.lex (h : TokensOf cs tokens) :
    Passgen.lex .init cs = some (tokens.map Token.codepoint) := by
  induction h with
  | nil => rfl
  | snoc _ hpiece ih => rw [(lex_append ih _).1, hpiece, Option.map_some, List.map_append]; rfl

/-- The last token. -/
theorem TokensOf.concat {token : Token} (h : TokensOf cs (tokens ++ [token])) :
    ∃ before piece, cs = before ++ piece ∧ TokensOf before tokens ∧
      Passgen.lex .init piece = some [token.codepoint] ∧ token.offset = before.length ∧
        token.byteOffset = (utf8EncodeAll before).length := by
  generalize hlog : tokens ++ [token] = log at h
  cases h with
  | nil => exact absurd hlog (by simp)
  | @snoc before piece log codepoint h hpiece =>
    obtain ⟨rfl, hlast⟩ := List.append_inj' hlog rfl
    obtain rfl := List.singleton_inj.mp hlast
    exact ⟨before, piece, rfl, h, hpiece, rfl, rfl⟩

/-- The parser stands where the tokens handed over lead. -/
structure Handed (run : List Token × FrontEnd) : Prop where
  limit : run.2.parser.limit = 0
  state : parseStates (run.1.map Token.codepoint) parserInit.state = some run.2.parser.state

/-- The parser has accepted the tokens handed over, but for the last one if that is what the error
is about. -/
structure Refused (tokens : List Token) (e : ParseError) : Prop where
  invalid : e.message = "invalid token" → ∃ front token state, tokens = front ++ [token] ∧
    parseStates (front.map Token.codepoint) parserInit.state = some state ∧
      parseState token.codepoint state = none
  other : e.message ≠ "invalid token" →
    ∃ state, parseStates (tokens.map Token.codepoint) parserInit.state = some state

theorem Refused.of_message (hmessage : e.message ≠ "invalid token") (h : Handed run) :
    Refused run.1 e :=
  ⟨fun hinvalid => absurd hinvalid hmessage, fun _ => ⟨_, h.state⟩⟩

theorem TokenState.string_ne_invalid (state : TokenState) : state.string ≠ "invalid token" := by
  cases state <;> decide

/-- What the loop leaves. -/
def HandsOver : Except (List Token × ParseError) (List Token × FrontEnd) → Prop
  | .ok run => Handed run
  | .error (tokens, e) => Refused tokens e

theorem Handed.step (h : Handed run) (input : ℕ × ℕ) : HandsOver (handCodepoint run input) := by
  rw [handCodepoint]
  dsimp only
  split
  · exact .of_message (TokenState.string_ne_invalid _) h
  split
  · rw [parseToken, if_neg fun hlimit => hlimit.1 h.limit]
    cases hstep : parseState (tokenParse run.2.tokenParser run.2.token input.2 input.1).2.codepoint
        run.2.parser.state with
    | none =>
      refine ⟨fun _ => ⟨_, _, _, rfl, h.state, hstep⟩, fun hmessage => absurd rfl hmessage⟩
    | some state =>
      refine ⟨h.limit, ?_⟩
      rw [List.map_append, parseStates_append, h.state, Option.bind_some, List.map_singleton,
        parseStates_cons, hstep]
      rfl
  · exact ⟨h.limit, h.state⟩

theorem Handed.chunk (h : Handed run) (inputs : List (ℕ × ℕ)) :
    HandsOver (inputs.foldlM handCodepoint run) := by
  induction inputs generalizing run with
  | nil => exact h
  | cons input inputs ih =>
    have hstep := h.step input
    rw [List.foldlM_cons]
    cases hrun : handCodepoint run input with
    | error e =>
      rw [hrun] at hstep
      exact hstep
    | ok run' =>
      rw [hrun] at hstep
      exact ih hstep

theorem parseEnd_message_ne {front : FrontEnd} {posTotal rawPos : ℕ}
    (h : parseEnd front posTotal rawPos = .error e) : e.message ≠ "invalid token" := by
  rw [parseEnd] at h
  split at h
  · obtain rfl := Except.error.inj h
    exact TokenState.string_ne_invalid _
  · split at h
    · cases h
    · obtain rfl := Except.error.inj h
      have hmessage : "parsing not finished" ≠ "invalid token" := by decide
      exact hmessage

theorem utf8Error_ne (ret : ℤ) : utf8Error ret ≠ "invalid token" := by
  rw [utf8Error]
  split_ifs <;> decide

/-- **Every failure** comes with its tokens accepted, but for the one it is about. -/
theorem Handed.rounds {rounds posTotal rawPos : ℕ} {input : List UInt8} (h : Handed run)
    (hfails : handRounds rounds run posTotal rawPos input = .error (tokens, e)) :
    Refused tokens e := by
  induction rounds generalizing run posTotal rawPos input with
  | zero =>
    obtain ⟨rfl, rfl⟩ := Prod.mk.inj (Except.error.inj hfails)
    have hmessage : "" ≠ "invalid token" := by decide
    exact .of_message hmessage h
  | succ rounds ih =>
    rw [handRounds] at hfails
    split at hfails
    · obtain ⟨rfl, rfl⟩ := Prod.mk.inj (Except.error.inj hfails)
      exact .of_message (utf8Error_ne _) h
    have hchunk := h.chunk ((utf8Decode patternLen input).written.take
      (utf8Decode patternLen input).advanced)
    cases hfold : ((utf8Decode patternLen input).written.take
        (utf8Decode patternLen input).advanced).foldlM handCodepoint run with
    | error e' =>
      rw [hfold] at hchunk hfails
      obtain rfl := Except.error.inj hfails
      exact hchunk
    | ok run' =>
      rw [hfold] at hchunk hfails
      change (if _ then _ else _) = _ at hfails
      split at hfails
      · exact ih hchunk hfails
      · split at hfails
        · cases hfails
        · rename_i hend
          obtain ⟨rfl, rfl⟩ := Prod.mk.inj (Except.error.inj hfails)
          exact .of_message (parseEnd_message_ne hend) hchunk

end Handed

/-! ## Errors -/

section Errors

variable {cs before rest : List ℕ} {ts : List ℕ}

/-- What lexes to nothing is nothing. -/
theorem eq_nil_of_lex {q : List ℕ} (h : lex .init q = some []) : q = [] := by
  generalize hnil : ([] : List ℕ) = ts at h
  cases spellings_iff.mpr h with
  | nil => rfl
  | snoc => exact absurd hnil (by simp)

/-- Behind the text there is a token that is refused. -/
theorem isGreatest_of_token {piece : List ℕ} {t : ℕ} {state : List ParserState}
    (hcs : ∀ c ∈ before ++ (piece ++ rest), IsScalar c) (hlex : lex .init before = some ts)
    (hrun : parseStates ts parserInit.state = some state) (hpiece : lex .init piece = some [t])
    (hrefused : parseState t state = none) :
    IsGreatest (ViableUpTo (before ++ (piece ++ rest))) before.length := by
  obtain ⟨hbefore, hrest⟩ := List.forall_mem_append.mp hcs
  have hlexed : lex .init (before ++ piece) = some (ts ++ [t]) := by
    rw [(lex_append hlex _).1, hpiece, Option.map_some]
  have hstops : ¬Viable (before ++ piece) := fun h => by
    obtain ⟨last, hlast⟩ := (viable_iff (List.forall_mem_append.mpr
      ⟨hbefore, (List.forall_mem_append.mp hrest).1⟩) hlexed).mp h
    rw [parseStates_append, hrun, Option.bind_some, parseStates_cons, hrefused] at hlast
    cases hlast
  refine isGreatest_viable hlex ((viable_iff hbefore hlex).mpr ⟨state, hrun⟩) ?_
  intro q r qs hsplit hne hqs hviable
  rw [hsplit] at hrest
  have hq : ∀ c ∈ q, IsScalar c := (List.forall_mem_append.mp hrest).1
  rcases List.append_eq_append_iff.mp hsplit with ⟨more, rfl, -⟩ | ⟨more, rfl, -⟩
  · -- the token and more
    rw [← List.append_assoc] at hviable
    exact hstops (hviable.of_append (List.forall_mem_append.mp hq).2)
  · -- no less than the token
    rw [(lex_append hqs more).1] at hpiece
    obtain ⟨rs, hrs, heq⟩ := Option.map_eq_some_iff.mp hpiece
    have hqsne : qs ≠ [] := fun hnil => hne (eq_nil_of_lex (hnil ▸ hqs))
    rcases List.append_eq_singleton_iff.mp heq with ⟨hnil, -⟩ | ⟨-, rfl⟩
    · exact hqsne hnil
    · rw [eq_nil_of_lex hrs, List.append_nil] at hstops
      exact hstops hviable

/-- Behind the text there is the start of an escape that completes no token. -/
theorem isGreatest_of_escape (hbefore : ∀ c ∈ before, IsScalar c)
    (hlex : lex .init before = some ts) {state : List ParserState}
    (hrun : parseStates ts parserInit.state = some state) (hrest : completed .init rest = []) :
    IsGreatest (ViableUpTo (before ++ rest)) before.length := by
  refine isGreatest_viable hlex ((viable_iff hbefore hlex).mpr ⟨state, hrun⟩) ?_
  rintro q r qs rfl hne hqs -
  rw [(lex_append hqs r).2] at hrest
  exact hne (eq_nil_of_lex ((List.append_eq_nil_iff.mp hrest).1 ▸ hqs))

end Errors

theorem handed_init : Handed ([], frontEndInit) := ⟨rfl, rfl⟩

/-- **An error is at the first token that no pattern goes on with.**  Its offset is the last place
between two tokens up to which the text is the start of a pattern, in codepoints and in bytes.
Where the text ends inside of an escape the offset is the end, and that place is in front of the
escape. -/
theorem parse_error_greatest {cs : List ℕ} (hcs : ∀ c ∈ cs, IsScalar c) {e : ParseError}
    (h : parse (utf8EncodeAll cs) = .error e) :
    (IsGreatest (ViableUpTo cs) e.codepoint ∧
        e.byte = (utf8EncodeAll (cs.take e.codepoint)).length) ∨
      ∃ before esc state, cs = before ++ esc ∧ UnfinishedEscape state esc ∧
        IsGreatest (ViableUpTo cs) before.length ∧
          e = ⟨state.string, cs.length, (utf8EncodeAll cs).length⟩ := by
  have hexact : ExactAt cs (handParse (utf8EncodeAll cs)) :=
    between_init.exactAt_rounds hcs (Nat.lt_succ_self _)
  have hlog := unlogged_handParse (utf8EncodeAll cs)
  rw [h] at hlog
  cases hhand : handParse (utf8EncodeAll cs) with
  | ok out =>
    rw [hhand] at hlog
    cases hlog
  | error out =>
    obtain ⟨tokens, e'⟩ := out
    rw [hhand] at hlog
    obtain rfl : e' = e := Except.error.inj hlog
    have hrefused : Refused tokens e' := handed_init.rounds hhand
    cases hexact.2 tokens e' hhand with
    | inside hdone hfails =>
      obtain ⟨rest, rfl⟩ := hdone
      refine .inl ?_
      cases hfails with
      | @token _ front token htokens =>
        obtain ⟨before, piece, rfl, htokens, hpiece, hoffset, hbyte⟩ := htokens.concat
        obtain ⟨front', token', state, hsplit, hrun, hstep⟩ := hrefused.invalid rfl
        obtain ⟨rfl, hlast⟩ := List.append_inj' hsplit rfl
        obtain rfl := List.singleton_inj.mp hlast
        rw [List.append_assoc] at hcs ⊢
        simp only [hoffset, hbyte, List.take_left, and_true]
        exact isGreatest_of_token hcs htokens.lex hrun hpiece hstep
      | @escape before bad _ state htokens hbad hne hstate =>
        obtain ⟨last, hrun⟩ := hrefused.other (TokenState.string_ne_invalid state)
        rw [List.append_assoc] at hcs ⊢
        simp only [List.take_left, and_true]
        exact isGreatest_of_escape (List.forall_mem_append.mp hcs).1 htokens.lex hrun (hbad rest)
    | @unfinished before esc _ state hsplit htokens hesc =>
      obtain ⟨last, hrun⟩ := hrefused.other (TokenState.string_ne_invalid state)
      subst hsplit
      refine .inr ⟨before, esc, state, rfl, hesc, ?_, rfl⟩
      exact isGreatest_of_escape (List.forall_mem_append.mp hcs).1 htokens.lex hrun
        hesc.broken.completes_nothing.2
    | incomplete htokens =>
      have hmessage : "parsing not finished" ≠ "invalid token" := by decide
      obtain ⟨last, hrun⟩ := hrefused.other hmessage
      have hgreatest : IsGreatest (ViableUpTo (cs ++ [])) cs.length :=
        isGreatest_of_escape hcs htokens.lex hrun rfl
      rw [List.append_nil] at hgreatest
      refine .inl ⟨hgreatest, ?_⟩
      rw [List.take_length]

/-- `é)a`. -/
theorem parse_error_greatest_close :
    parse (utf8EncodeAll [0xE9, 0x29, 0x61]) = .error ⟨"invalid token", 1, 2⟩ ∧
      ((IsGreatest (ViableUpTo [0xE9, 0x29, 0x61]) 1 ∧
          2 = (utf8EncodeAll ([0xE9, 0x29, 0x61].take 1)).length) ∨
        ∃ before esc state, [0xE9, 0x29, 0x61] = before ++ esc ∧ UnfinishedEscape state esc ∧
          IsGreatest (ViableUpTo [0xE9, 0x29, 0x61]) before.length ∧
            (⟨"invalid token", 1, 2⟩ : ParseError) =
              ⟨state.string, [0xE9, 0x29, 0x61].length,
                (utf8EncodeAll [0xE9, 0x29, 0x61]).length⟩) :=
  have hparse : parse (utf8EncodeAll [0xE9, 0x29, 0x61]) = .error ⟨"invalid token", 1, 2⟩ := rfl
  ⟨hparse, parse_error_greatest (by decide) hparse⟩

end Passgen
