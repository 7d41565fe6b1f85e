import Mathlib.Data.List.Basic
import Mathlib.Tactic.Common
import Passgen.Parser.Unicode
import Passgen.Util.IllFormed

/-!
# Parser/Positions — where tokens and errors are

    codepoints   t₁ t₁ t₂ t₃ t₃ t₃ │ e e …
    offset       0     2  3        │ 6          tokens handed over, and the escape being read

The position a token is handed over with is the length of what the tokens before it were read from,
in codepoints and in bytes (`TokensOf`).  Three counters carry it: the tokenizer's two run with
every codepoint, and are copied into the token at the first codepoint of each (`Between.step`); the
chunks of the decoder leave no trace on them.
-/

namespace Passgen

/-! ## The tokens handed over -/

/-- The body of the inner loop of `passgen_parse`, with a log of the tokens that are handed to
`passgen_parse_token`. -/
def handCodepoint (run : List Token × FrontEnd) (input : ℕ × ℕ) :
    Except (List Token × ParseError) (List Token × FrontEnd) :=
  let (tokenParser, token) := tokenParse run.2.tokenParser run.2.token input.2 input.1
  if tokenParser.state.IsError then
    .error (run.1, ⟨tokenParser.state.string, token.offset, token.byteOffset⟩)
  else if tokenParser.state = .init then
    match parseToken run.2.parser token with
    | some parser => .ok (run.1 ++ [token], ⟨tokenParser, token, parser⟩)
    | none => .error (run.1 ++ [token], ⟨"invalid token", token.offset, token.byteOffset⟩)
  else .ok (run.1, ⟨tokenParser, token, run.2.parser⟩)

/-- The decoding loop, with the log. -/
def handRounds : ℕ → List Token × FrontEnd → ℕ → ℕ → List UInt8 →
    Except (List Token × ParseError) (List Token × Group)
  | 0, run, posTotal, rawPos, _ => .error (run.1, ⟨"", posTotal, rawPos⟩)
  | rounds + 1, run, posTotal, rawPos, input =>
    let decoded := utf8Decode patternLen input
    let rawPos := rawPos + decoded.consumed
    let posTotal := posTotal + decoded.advanced
    if decoded.ret < utf8Success then .error (run.1, ⟨utf8Error decoded.ret, posTotal, rawPos⟩)
    else do
      let run ← (decoded.written.take decoded.advanced).foldlM handCodepoint run
      if decoded.ret > utf8Success then
        handRounds rounds run posTotal rawPos (input.drop decoded.consumed)
      else
        match parseEnd run.2 posTotal rawPos with
        | .ok group => .ok (run.1, group)
        | .error e => .error (run.1, e)

/-- `passgen_parse`, with the log. -/
def handParse (string : List UInt8) : Except (List Token × ParseError) (List Token × Group) :=
  handRounds (string.length + 1) ([], frontEndInit) 0 0 string

/-- The log. -/
def logged {α β : Type} : Except (List Token × α) (List Token × β) → List Token
  | .ok (tokens, _) => tokens
  | .error (tokens, _) => tokens

/-- What is left without it. -/
def unlogged {α β : Type} : Except (List Token × α) (List Token × β) → Except α β
  | .ok (_, b) => .ok b
  | .error (_, a) => .error a

theorem unlogged_bind {α β γ : Type} {x : Except (List Token × α) (List Token × β)}
    {f : List Token × β → Except (List Token × α) (List Token × γ)} {g : β → Except α γ}
    (h : ∀ run, unlogged (f run) = g run.2) : unlogged (x >>= f) = unlogged x >>= g := by
  cases x with
  | ok run => exact h run
  | error e => rfl

theorem unlogged_handCodepoint (run : List Token × FrontEnd) (input : ℕ × ℕ) :
    unlogged (handCodepoint run input) = parseCodepoint run.2 input := by
  rw [handCodepoint, parseCodepoint]
  dsimp only
  split
  · rfl
  split
  · cases parseToken run.2.parser _ <;> rfl
  · rfl

theorem unlogged_foldlM (inputs : List (ℕ × ℕ)) (run : List Token × FrontEnd) :
    unlogged (inputs.foldlM handCodepoint run) = inputs.foldlM parseCodepoint run.2 := by
  induction inputs generalizing run with
  | nil => rfl
  | cons input inputs ih =>
    rw [List.foldlM_cons, List.foldlM_cons, ← unlogged_handCodepoint]
    exact unlogged_bind ih

theorem unlogged_handRounds (rounds : ℕ) (run : List Token × FrontEnd) (posTotal rawPos : ℕ)
    (input : List UInt8) :
    unlogged (handRounds rounds run posTotal rawPos input)
      = parseRounds rounds run.2 posTotal rawPos input := by
  induction rounds generalizing run posTotal rawPos input with
  | zero => rfl
  | succ rounds ih =>
    rw [handRounds, parseRounds]
    split
    · rfl
    · rw [← unlogged_foldlM]
      refine unlogged_bind fun run' => ?_
      split
      · exact ih _ _ _ _
      · cases parseEnd run'.2 _ _ <;> rfl

/-- **The log changes nothing.** -/
theorem unlogged_handParse (string : List UInt8) : unlogged (handParse string) = parse string :=
  unlogged_handRounds _ _ _ _ _

/-! ## Exact positions -/

/-- Tokens with their exact positions: each was read from the codepoints behind those of the tokens
before it, and its offsets are the lengths of what is in front. -/
inductive TokensOf : List ℕ → List Token → Prop
  | nil : TokensOf [] []
  | snoc {before piece : List ℕ} {tokens : List Token} {codepoint : ℕ} (h : TokensOf before tokens)
      (hpiece : lex .init piece = some [codepoint]) :
      TokensOf (before ++ piece)
        (tokens ++ [⟨codepoint, before.length, (utf8EncodeAll before).length⟩])

/-- What an escape has been read of completes what it leads to. -/
theorem Reading.completed_append {lexer : Lexer} {esc : List ℕ} (h : Reading lexer esc)
    (cs : List ℕ) : completed .init (esc ++ cs) = completed lexer cs := by
  induction h generalizing cs with
  | digit _ hlen hc ih =>
    rw [List.append_assoc, ih, List.singleton_append, completed, if_neg (ne_of_hexDecode hc),
      if_neg (by omega), hc]
  | _ => rfl

/-- Nothing that goes on from here completes a token. -/
def Hopeless (bad : List ℕ) : Prop := ∀ more, completed .init (bad ++ more) = []

/-- What the text can end in of an escape, and the state that leaves the tokenizer in. -/
inductive UnfinishedEscape : TokenState → List ℕ → Prop
  | backslash : UnfinishedEscape .escaped ['\\'.toNat]
  | letter : UnfinishedEscape .unicode ['\\'.toNat, 'u'.toNat]
  | payload {hs : List ℕ} (hhs : ∀ h ∈ hs, (hexDecode h).isSome) (hlen : hs.length ≤ 6) :
      UnfinishedEscape .unicodePayload ('\\'.toNat :: 'u'.toNat :: '{'.toNat :: hs)

theorem UnfinishedEscape.broken {state : TokenState} {esc : List ℕ}
    (h : UnfinishedEscape state esc) : BrokenEscape esc := by
  cases h with
  | backslash => exact .backslash
  | letter => exact .letter
  | payload hhs hlen => exact .payload hhs hlen

section Step

variable {parser : TokenParser} {token : Token} {esc : List ℕ}

/-- An escape is being read when the tokenizer is not in its first state. -/
theorem Reading.eq_nil_iff (hesc : Reading parser.lexer esc) :
    esc = [] ↔ parser.state = .init := by
  rcases parser with ⟨state, offset, byteOffset, length, codepoint⟩
  cases state with
  | init =>
    refine iff_of_true ?_ rfl
    cases hesc
    rfl
  | errorUnicodeStart => cases hesc
  | errorUnicodePayload => cases hesc
  | errorUnicodePayloadLen => cases hesc
  | _ =>
    refine iff_of_false ?_ (by simp)
    cases hesc <;> simp

/-- An escape that is being read when the text ends. -/
theorem Reading.unfinishedEscape (hesc : Reading parser.lexer esc) (hinit : parser.state ≠ .init) :
    UnfinishedEscape parser.state esc := by
  rcases parser with ⟨state, offset, byteOffset, length, codepoint⟩
  cases state with
  | init => exact absurd rfl hinit
  | escaped =>
    cases hesc
    exact .backslash
  | unicode =>
    cases hesc
    exact .letter
  | unicodePayload =>
    obtain ⟨hs, rfl, hhs, hlength, hle, -⟩ := Reading.digits hesc
    exact .payload hhs (by omega)
  | errorUnicodeStart => cases hesc
  | errorUnicodePayload => cases hesc
  | errorUnicodePayloadLen => cases hesc

variable (c width : ℕ)

/-- The counters run with every codepoint that is read. -/
theorem tokenParse_offsets (hesc : Reading parser.lexer esc) :
    (tokenParse parser token width c).1.offset = parser.offset + 1 ∧
      (tokenParse parser token width c).1.byteOffset = parser.byteOffset + width := by
  rcases parser with ⟨state, offset, byteOffset, length, codepoint⟩
  cases state with
  | init =>
    simp only [tokenParse, tokenParseInit]
    split <;> exact ⟨rfl, rfl⟩
  | escaped =>
    simp only [tokenParse, tokenParseEscaped]
    split
    · exact ⟨rfl, rfl⟩
    · split <;> exact ⟨rfl, rfl⟩
  | unicode =>
    simp only [tokenParse, tokenParseUnicode]
    split <;> exact ⟨rfl, rfl⟩
  | unicodePayload =>
    simp only [tokenParse, tokenParseUnicodePayload]
    split
    · exact ⟨rfl, rfl⟩
    · split
      · exact ⟨rfl, rfl⟩
      · cases hexDecode c <;> exact ⟨rfl, rfl⟩
  | errorUnicodeStart => cases hesc
  | errorUnicodePayload => cases hesc
  | errorUnicodePayloadLen => cases hesc

/-- The token takes its position from the counters at its first codepoint, and keeps it. -/
theorem tokenParse_position :
    ((tokenParse parser token width c).2.offset, (tokenParse parser token width c).2.byteOffset)
      = if parser.state = .init then (parser.offset, parser.byteOffset)
        else (token.offset, token.byteOffset) := by
  rcases parser with ⟨state, offset, byteOffset, length, codepoint⟩
  cases state with
  | init =>
    simp only [tokenParse, tokenParseInit]
    split <;> rfl
  | escaped =>
    simp only [tokenParse, tokenParseEscaped]
    split
    · rfl
    · split <;> rfl
  | unicode => rfl
  | unicodePayload =>
    simp only [tokenParse, tokenParseUnicodePayload]
    split
    · rfl
    · split
      · rfl
      · cases hexDecode c <;> rfl
  | errorUnicodeStart => rfl
  | errorUnicodePayload => rfl
  | errorUnicodePayloadLen => rfl

/-- A codepoint that completes a token. -/
theorem Reading.completes (hesc : Reading parser.lexer esc)
    (hinit : (tokenParse parser token width c).1.state = .init) :
    lex .init (esc ++ [c]) = some [(tokenParse parser token width c).2.codepoint] := by
  have hlexer : (tokenParse parser token width c).1.lexer = .init := by
    rw [TokenParser.lexer, hinit]
  rw [hesc.lex_append, lex_tokenParse parser token c width]
  simp only [hinit, if_true, hlexer]
  rfl

/-- A codepoint after which none can. -/
theorem Reading.hopeless (hesc : Reading parser.lexer esc)
    (herror : (tokenParse parser token width c).1.state.IsError) : Hopeless (esc ++ [c]) := by
  intro more
  have hinit : (tokenParse parser token width c).1.state ≠ .init := by
    intro h
    rw [h] at herror
    exact herror
  rw [List.append_assoc, hesc.completed_append, List.singleton_append,
    completed_tokenParse parser token c width]
  simp only [if_neg hinit]
  rw [(TokenParser.lexer_eq_error_iff _).mpr herror, completed_error]

/-- A codepoint inside of an escape. -/
theorem Reading.next (hesc : Reading parser.lexer esc)
    (herror : ¬(tokenParse parser token width c).1.state.IsError)
    (hinit : (tokenParse parser token width c).1.state ≠ .init) :
    Reading (tokenParse parser token width c).1.lexer (esc ++ [c]) := by
  rcases parser with ⟨state, offset, byteOffset, length, codepoint⟩
  cases state with
  | init =>
    obtain rfl : esc = [] := by cases hesc; rfl
    simp only [tokenParse, tokenParseInit] at hinit ⊢
    split at hinit
    · rename_i hc
      rw [if_pos hc, hc]
      exact .escaped
    · exact absurd rfl hinit
  | escaped =>
    obtain rfl : esc = ['\\'.toNat] := by cases hesc; rfl
    simp only [tokenParse, tokenParseEscaped] at hinit ⊢
    split at hinit
    · exact absurd rfl hinit
    · rename_i hsimple
      rw [if_neg hsimple]
      split at hinit
      · rename_i hc
        rw [if_pos hc, hc]
        exact .unicode
      · exact absurd rfl hinit
  | unicode =>
    obtain rfl : esc = ['\\'.toNat, 'u'.toNat] := by cases hesc; rfl
    simp only [tokenParse, tokenParseUnicode] at herror ⊢
    split at herror
    · rename_i hc
      rw [if_pos hc, hc]
      exact .brace
    · exact absurd trivial herror
  | unicodePayload =>
    simp only [tokenParse, tokenParseUnicodePayload] at herror hinit ⊢
    split at hinit
    · exact absurd rfl hinit
    · rename_i hend
      rw [if_neg hend] at herror ⊢
      split at herror
      · exact absurd trivial herror
      · rename_i hlong
        rw [if_neg hlong]
        cases hhex : hexDecode c with
        | none =>
          rw [hhex] at herror
          exact absurd trivial herror
        | some decoded => exact hesc.digit (Nat.le_of_not_gt hlong) hhex
  | errorUnicodeStart => cases hesc
  | errorUnicodePayload => cases hesc
  | errorUnicodePayloadLen => cases hesc

end Step

/-! ## Runs of the loop -/

/-- Between two codepoints: the tokens handed over were read from `before`, and `esc` has been read
of the next one. -/
structure Between (before esc : List ℕ) (run : List Token × FrontEnd) : Prop where
  tokens : TokensOf before run.1
  reading : Reading run.2.tokenParser.lexer esc
  offset : run.2.tokenParser.offset = (before ++ esc).length
  byteOffset : run.2.tokenParser.byteOffset = (utf8EncodeAll (before ++ esc)).length
  token : esc ≠ [] →
    run.2.token.offset = before.length ∧ run.2.token.byteOffset = (utf8EncodeAll before).length

/-- A failure in the loop, after the codepoints `read`: at the start of the last token handed over,
or at that of an escape that no codepoints would complete. -/
inductive FailsInside : List ℕ → List Token → ParseError → Prop
  | token {before : List ℕ} {tokens : List Token} {token : Token}
      (h : TokensOf before (tokens ++ [token])) :
      FailsInside before (tokens ++ [token]) ⟨"invalid token", token.offset, token.byteOffset⟩
  | escape {before bad : List ℕ} {tokens : List Token} {state : TokenState}
      (h : TokensOf before tokens) (hbad : Hopeless bad) (hne : bad ≠ []) (hstate : state.IsError) :
      FailsInside (before ++ bad) tokens
        ⟨state.string, before.length, (utf8EncodeAll before).length⟩

/-- What the loop leaves behind the codepoints `read`. -/
def LeavesAt (read : List ℕ) :
    Except (List Token × ParseError) (List Token × FrontEnd) → Prop
  | .ok run => ∃ before esc, before ++ esc = read ∧ Between before esc run
  | .error (tokens, e) => ∃ done, done <+: read ∧ FailsInside done tokens e

/-- The position of the token being read. -/
theorem Between.position {before esc : List ℕ} {run : List Token × FrontEnd}
    (h : Between before esc run) (c width : ℕ) :
    (tokenParse run.2.tokenParser run.2.token width c).2.offset = before.length ∧
      (tokenParse run.2.tokenParser run.2.token width c).2.byteOffset
        = (utf8EncodeAll before).length := by
  refine Prod.mk.inj ((tokenParse_position c width).trans ?_)
  split
  · rename_i hinit
    rw [h.offset, h.byteOffset, h.reading.eq_nil_iff.mpr hinit, List.append_nil]
  · rename_i hinit
    obtain ⟨hoffset, hbyte⟩ := h.token (h.reading.eq_nil_iff.not.mpr hinit)
    rw [hoffset, hbyte]

/-- **One codepoint**: it completes a token, which is handed over from its start; or it is one more
of an escape; or the loop fails at the start of the token it belongs to. -/
theorem Between.step {before esc : List ℕ} {run : List Token × FrontEnd}
    (h : Between before esc run) (c : ℕ) :
    LeavesAt (before ++ esc ++ [c]) (handCodepoint run (c, (utf8Encode c).length)) := by
  obtain ⟨hoffset, hbyte⟩ := @tokenParse_offsets _ run.2.token _ c (utf8Encode c).length h.reading
  obtain ⟨hstart, hstartByte⟩ := h.position c (utf8Encode c).length
  have hlength : (utf8EncodeAll (before ++ esc ++ [c])).length
      = (utf8EncodeAll (before ++ esc)).length + (utf8Encode c).length := by
    rw [utf8EncodeAll_append, List.length_append, utf8EncodeAll_cons, List.length_append]
    rfl
  have hcount : (before ++ esc ++ [c]).length = (before ++ esc).length + 1 := by
    rw [List.length_append, List.length_singleton]
  rw [handCodepoint]
  dsimp only
  split
  · rename_i herror
    have hfails := FailsInside.escape h.tokens (h.reading.hopeless c _ herror) (by simp) herror
    rw [hstart, hstartByte]
    exact ⟨_, List.prefix_rfl, by rwa [List.append_assoc]⟩
  rename_i herror
  split
  · rename_i hinit
    have htoken := h.tokens.snoc (h.reading.completes c (utf8Encode c).length hinit)
    rw [← hstart, ← hstartByte] at htoken
    cases parseToken run.2.parser _ with
    | none => exact ⟨_, (List.append_assoc before esc [c]).symm ▸ List.prefix_rfl, .token htoken⟩
    | some parser =>
      refine ⟨before ++ (esc ++ [c]), [], by simp, htoken, ?_, ?_, ?_, fun hne => absurd rfl hne⟩
      · dsimp only
        rw [TokenParser.lexer, hinit]
        exact .init
      · rw [hoffset, h.offset, List.append_nil, ← List.append_assoc, hcount]
      · rw [hbyte, h.byteOffset, List.append_nil, ← List.append_assoc, hlength]
  · rename_i hinit
    refine ⟨before, esc ++ [c], (List.append_assoc _ _ _).symm, h.tokens,
      h.reading.next c _ herror hinit, ?_, ?_, fun _ => ⟨hstart, hstartByte⟩⟩
    · rw [hoffset, h.offset, ← List.append_assoc, hcount]
    · rw [hbyte, h.byteOffset, ← List.append_assoc, hlength]

/-- **A chunk.** -/
theorem Between.chunk {before esc : List ℕ} {run : List Token × FrontEnd}
    (h : Between before esc run) (chunk : List ℕ) :
    LeavesAt (before ++ esc ++ chunk) ((withWidths chunk).foldlM handCodepoint run) := by
  induction chunk generalizing before esc run with
  | nil => exact ⟨before, esc, (List.append_nil _).symm, h⟩
  | cons c chunk ih =>
    have hstep := h.step c
    rw [withWidths, List.map_cons, List.foldlM_cons, ← withWidths, List.append_cons]
    cases hrun : handCodepoint run (c, (utf8Encode c).length) with
    | error e =>
      rw [hrun] at hstep
      obtain ⟨done, hdone, hfails⟩ := hstep
      exact ⟨done, hdone.trans (List.prefix_append _ _), hfails⟩
    | ok run' =>
      rw [hrun] at hstep
      obtain ⟨before', esc', heq, hbetween⟩ := hstep
      rw [← heq]
      exact ih hbetween

/-! ## Whole strings -/

/-- How `passgen_parse` fails on the encoding of `cs`: in the loop, or behind the end, inside an
escape or with a pattern that is not complete. -/
inductive FailsAt (cs : List ℕ) : List Token → ParseError → Prop
  | inside {done : List ℕ} {tokens : List Token} {e : ParseError} (hdone : done <+: cs)
      (h : FailsInside done tokens e) : FailsAt cs tokens e
  | unfinished {before esc : List ℕ} {tokens : List Token} {state : TokenState}
      (hsplit : before ++ esc = cs) (h : TokensOf before tokens)
      (hesc : UnfinishedEscape state esc) :
      FailsAt cs tokens ⟨state.string, cs.length, (utf8EncodeAll cs).length⟩
  | incomplete {tokens : List Token} (h : TokensOf cs tokens) :
      FailsAt cs tokens ⟨"parsing not finished", cs.length, (utf8EncodeAll cs).length⟩

/-- The tokens handed over make up a start of the text, and a failure is where it says. -/
def ExactAt (cs : List ℕ) (out : Except (List Token × ParseError) (List Token × Group)) : Prop :=
  (∃ done, done <+: cs ∧ TokensOf done (logged out)) ∧
    ∀ tokens e, out = .error (tokens, e) → FailsAt cs tokens e

theorem FailsInside.tokensOf {done : List ℕ} {tokens : List Token} {e : ParseError}
    (h : FailsInside done tokens e) : ∃ before, before <+: done ∧ TokensOf before tokens := by
  cases h with
  | token h => exact ⟨_, List.prefix_rfl, h⟩
  | escape h => exact ⟨_, List.prefix_append _ _, h⟩

/-- **Behind the end.** -/
theorem Between.exactAt_end {before esc : List ℕ} {run : List Token × FrontEnd}
    (h : Between before esc run) {cs : List ℕ} (hcs : before ++ esc = cs) :
    ExactAt cs (match parseEnd run.2 cs.length (utf8EncodeAll cs).length with
      | .ok group => .ok (run.1, group)
      | .error e => .error (run.1, e)) := by
  have hstart : ∃ done, done <+: cs ∧ TokensOf done run.1 :=
    ⟨before, hcs ▸ List.prefix_append _ _, h.tokens⟩
  rw [parseEnd]
  split
  · rename_i hend
    split at hend
    · exact absurd hend (by simp)
    · split at hend
      · exact ⟨hstart, by simp⟩
      · exact absurd hend (by simp)
  · rename_i e hend
    refine ⟨hstart, ?_⟩
    rintro tokens e' heq
    obtain ⟨rfl, rfl⟩ := Prod.mk.inj (Except.error.inj heq)
    split at hend
    · rename_i hinit
      obtain rfl := Except.error.inj hend
      exact .unfinished hcs h.tokens (h.reading.unfinishedEscape hinit)
    · rename_i hinit
      split at hend
      · exact absurd hend (by simp)
      · obtain rfl := Except.error.inj hend
        obtain rfl := h.reading.eq_nil_iff.mpr (not_not.mp hinit)
        rw [List.append_nil] at hcs
        exact .incomplete (hcs ▸ h.tokens)

/-- What a failed chunk leaves. -/
theorem LeavesAt.exactAt {read cs : List ℕ} {tokens : List Token} {e : ParseError}
    (h : LeavesAt read (.error (tokens, e))) (hread : read <+: cs) :
    ExactAt cs (.error (tokens, e)) := by
  obtain ⟨done, hdone, hfails⟩ := h
  obtain ⟨before, hbefore, htokens⟩ := hfails.tokensOf
  refine ⟨⟨before, hbefore.trans (hdone.trans hread), htokens⟩, ?_⟩
  rintro tokens' e' heq
  obtain ⟨rfl, rfl⟩ := Prod.mk.inj (Except.error.inj heq)
  exact .inside (hdone.trans hread) hfails

/-- **The rounds.** -/
theorem Between.exactAt_rounds {rounds : ℕ} {before esc rest : List ℕ}
    {run : List Token × FrontEnd} (h : Between before esc run) (hrest : ∀ c ∈ rest, IsScalar c)
    (hrounds : (utf8EncodeAll rest).length < rounds) :
    ExactAt (before ++ esc ++ rest) (handRounds rounds run (before ++ esc).length
      (utf8EncodeAll (before ++ esc)).length (utf8EncodeAll rest)) := by
  induction rounds generalizing before esc rest run with
  | zero => exact absurd hrounds (Nat.not_lt_zero _)
  | succ rounds ih =>
    have hsplit : rest.take patternLen ++ rest.drop patternLen = rest :=
      List.take_append_drop _ _
    have hbytes := congrArg List.length (utf8EncodeAll_take_drop patternLen rest)
    have hchunk := h.chunk (rest.take patternLen)
    rw [handRounds, utf8Decode_encodeAll patternLen hrest]
    dsimp only
    rw [if_neg (by split <;> decide),
      List.take_of_length_le (by simp [withWidths])]
    cases hfold : (withWidths (rest.take patternLen)).foldlM handCodepoint run with
    | error e =>
      rw [hfold] at hchunk
      refine LeavesAt.exactAt hchunk ?_
      exact (List.prefix_append_right_inj _).mpr (List.take_prefix _ _)
    | ok run' =>
      rw [hfold] at hchunk
      obtain ⟨before', esc', heq, hbetween⟩ := hchunk
      have hread : before' ++ esc' ++ rest.drop patternLen = before ++ esc ++ rest := by
        rw [heq, List.append_assoc, hsplit]
      have hcount : (before ++ esc).length + (rest.take patternLen).length
          = (before' ++ esc').length := by
        rw [heq]
        exact List.length_append.symm
      have hcountBytes : (utf8EncodeAll (before ++ esc)).length
          + (utf8EncodeAll (rest.take patternLen)).length
          = (utf8EncodeAll (before' ++ esc')).length := by
        rw [heq, utf8EncodeAll_append _ (rest.take patternLen), List.length_append]
      rw [List.length_append] at hbytes
      have hdrop : ∀ c ∈ rest.drop patternLen, IsScalar c :=
        fun c hc => hrest c (List.mem_of_mem_drop hc)
      change ExactAt _ (if _ then _ else _)
      rw [hcount, hcountBytes, drop_utf8EncodeAll, ← hread]
      by_cases hall : (utf8EncodeAll (rest.take patternLen)).length = (utf8EncodeAll rest).length
      · have hbyte := length_le_length_utf8EncodeAll hdrop
        have hnil : rest.drop patternLen = [] := List.length_eq_zero_iff.mp (by omega)
        rw [if_neg (not_not.mpr hall), if_neg (by decide), hnil, List.append_nil]
        exact hbetween.exactAt_end rfl
      · have hpos : 0 < rest.length := by
          refine List.length_pos_iff.mpr ?_
          rintro rfl
          exact hall rfl
        have hbyte := length_le_length_utf8EncodeAll
          (fun c (hc : c ∈ rest.take patternLen) => hrest c (List.mem_of_mem_take hc))
        rw [if_pos hall, if_pos (by decide)]
        refine ih hbetween hdrop ?_
        rw [List.length_take, patternLen] at hbyte
        rw [patternLen] at hbytes ⊢
        omega

theorem between_init : Between [] [] ([], frontEndInit) where
  tokens := .nil
  reading := .init
  offset := rfl
  byteOffset := rfl
  token h := absurd rfl h

/-- **Token positions are exact**: what is handed over are the tokens at the start of the text, each
with the codepoints and bytes in front of it.  A failure in the loop is at the start of the token it
is about; one behind the end is at the end. -/
theorem positions_exact {cs : List ℕ} (hcs : ∀ c ∈ cs, IsScalar c ∧ c ≠ 0) :
    unlogged (handParse (utf8EncodeAll cs)) = parse (utf8EncodeAll cs) ∧
      ExactAt cs (handParse (utf8EncodeAll cs)) :=
  ⟨unlogged_handParse _,
    between_init.exactAt_rounds (fun c hc => (hcs c hc).1) (Nat.lt_succ_self _)⟩

/-- `é\u{41}`. -/
theorem positions_exact_accent :
    ExactAt [0xE9, 0x5C, 0x75, 0x7B, 0x34, 0x31, 0x7D]
      (handParse (utf8EncodeAll [0xE9, 0x5C, 0x75, 0x7B, 0x34, 0x31, 0x7D])) :=
  (positions_exact (by decide)).2

/-- **An escape that the string ends in** is reported at the end: the pattern of one backslash. -/
theorem not_startOfToken_backslash :
    ¬∀ (cs before esc : List ℕ) (tokens : List Token) (e : ParseError),
      (∀ c ∈ cs, IsScalar c ∧ c ≠ 0) → handParse (utf8EncodeAll cs) = .error (tokens, e) →
        cs = before ++ esc → TokensOf before tokens → BrokenEscape esc →
          e.codepoint = before.length ∧ e.byte = (utf8EncodeAll before).length := by
  intro h
  obtain ⟨hcodepoint, -⟩ := h [92] [] [92] [] ⟨"parsing escaped token", 1, 1⟩ (by decide) rfl rfl
    .nil .backslash
  exact absurd hcodepoint (by decide)

end Passgen
