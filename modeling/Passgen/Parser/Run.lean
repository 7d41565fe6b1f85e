import Mathlib.Data.List.Basic
import Mathlib.Tactic.Common
import Passgen.Parser.Parser

/-!
# Parser/Run — a pattern string as a run of the parser

    string ──decodeAll──▸ codepoints ──lex──▸ tokens ──parseStates──▸ [.group _ _] ──finish──▸ Group

`passgen_parse` decodes 256 codepoints at a time and feeds every token to the parser as it is
completed.  Neither the chunks nor the positions the tokenizer keeps leave a trace on an accepted
string: it decodes, its codepoints lex, and its tokens are a run of `parseState` (`parse_ok_iff`).
An invariant of `parseState` is an invariant of every run (`parseStates_invariant`).
-/

namespace Passgen

/-! ## Decoding in chunks -/

/-- The whole of a string, decoded at once: whether it is free of rejections, and the codepoints
with their widths. -/
def decodeAll (string : List UInt8) : Bool × List (ℕ × ℕ) :=
  ((utf8DecodeLoop string.length utf8Accept 0 0 string).1,
    (utf8DecodeLoop string.length utf8Accept 0 0 string).2.1)

/-- More room than the string needs. -/
theorem decodeAll_room (room : ℕ) (string : List UInt8) :
    utf8DecodeLoop string.length utf8Accept 0 0 string
      = utf8DecodeLoop (room + string.length) utf8Accept 0 0 string :=
  utf8DecodeLoop_room _ _ _ _ _ string le_rfl (Nat.le_add_left _ _)

/-- **A chunk of a string**, and what decoding the rest adds to it. -/
theorem decodeAll_chunk {room : ℕ} {string : List UInt8} {written : List (ℕ × ℕ)} {consumed : ℕ}
    (hloop : utf8DecodeLoop room utf8Accept 0 0 string = (true, written, consumed)) :
    decodeAll string =
      ((decodeAll (string.drop consumed)).1,
        written ++ (decodeAll (string.drop consumed)).2) := by
  have happend := utf8DecodeLoop_append room string string.length
    (fun _ => ⟨rfl, rfl, rfl⟩) (congrArg Prod.fst hloop)
  have hrest := utf8DecodeLoop_room string.length (string.drop consumed).length utf8Accept 0 0
    (string.drop consumed) (by rw [List.length_drop]; omega) le_rfl
  rw [decodeAll, decodeAll_room room, happend, hloop]
  simp only [hrest, decodeAll]

/-- A rejected chunk rejects the string. -/
theorem decodeAll_reject {room : ℕ} {string : List UInt8}
    (hloop : (utf8DecodeLoop room utf8Accept 0 0 string).1 = false) :
    (decodeAll string).1 = false := by
  rw [decodeAll, decodeAll_room room]
  exact utf8DecodeLoop_reject string string.length hloop

/-- An encoded string decodes to what it encodes. -/
theorem decodeAll_encodeAll {cs : List ℕ} (hcs : ∀ c ∈ cs, IsScalar c) :
    decodeAll (utf8EncodeAll cs) = (true, withWidths cs) := by
  rw [decodeAll, utf8DecodeLoop_encodeAll _ hcs,
    List.take_of_length_le (length_le_length_utf8EncodeAll hcs)]

/-! ## Acceptance -/

/-- Whether the end of the input is accepted does not depend on the positions reported. -/
theorem parseEnd_ok_iff (front : FrontEnd) (posTotal rawPos : ℕ) (g : Group) :
    parseEnd front posTotal rawPos = .ok g ↔
      front.tokenParser.state = .init ∧ parseFinish front.parser = some g := by
  rw [parseEnd]
  split
  · simp_all
  · cases parseFinish front.parser <;> simp_all

/-- **An accepted string**: it decodes, its codepoints are accepted one by one, and so is its
end. -/
theorem parseRounds_ok_iff {rounds : ℕ} (front : FrontEnd) (posTotal rawPos : ℕ)
    (input : List UInt8) (g : Group) (hrounds : input.length < rounds) :
    parseRounds rounds front posTotal rawPos input = .ok g ↔
      (decodeAll input).1 = true ∧ ∃ front',
        (decodeAll input).2.foldlM parseCodepoint front = .ok front' ∧
          front'.tokenParser.state = .init ∧ parseFinish front'.parser = some g := by
  induction rounds generalizing front posTotal rawPos input with
  | zero => exact absurd hrounds (Nat.not_lt_zero _)
  | succ rounds ih =>
    rw [parseRounds, utf8Decode]
    rcases hloop : utf8DecodeLoop patternLen utf8Accept 0 0 input with ⟨ok, written, consumed⟩
    cases ok with
    | false => simp [decodeAll_reject (congrArg Prod.fst hloop), utf8InvalidChar, utf8Success]
    | true =>
      simp only [if_true, List.take_length]
      rw [if_neg (by split <;> simp), decodeAll_chunk hloop, List.foldlM_append]
      cases written.foldlM parseCodepoint front with
      | error e => simp [bind, Except.bind]
      | ok front' =>
        simp only [bind, Except.bind]
        by_cases hlen : consumed = input.length
        · have hnil : input.drop consumed = [] := by rw [hlen, List.drop_length]
          rw [if_neg (by simp [hlen]), parseEnd_ok_iff, hnil]
          simp [decodeAll, utf8DecodeLoop, pure, Except.pure]
        · have hne : input ≠ [] := by
            rintro rfl
            simp [utf8DecodeLoop] at hloop
            exact hlen hloop.2.symm
          have hroom : patternLen ≠ 0 := by decide
          have hpos := utf8DecodeLoop_consumed_pos hroom hne (congrArg Prod.fst hloop)
          have hlength := List.length_pos_of_ne_nil hne
          rw [hloop] at hpos
          rw [if_pos (by simp [hlen])]
          exact ih front' _ _ _ (by rw [List.length_drop]; simp only at hpos; omega)

/-! ## Lexing

The tokenizer without positions, on a whole sequence of codepoints. -/

/-- What the tokenizer is in the middle of. -/
inductive Lexer where
  | init
  | escaped
  | unicode
  | payload (length codepoint : ℕ)
  | error

/-- Forgetting positions, and the payload outside of its state. -/
def TokenParser.lexer (parser : TokenParser) : Lexer :=
  match parser.state with
  | .init => .init
  | .escaped => .escaped
  | .unicode => .unicode
  | .unicodePayload => .payload parser.payloadLength parser.payloadCodepoint
  | _ => .error

/-- The codepoints of the tokens of a sequence that ends between two tokens. -/
def lex : Lexer → List ℕ → Option (List ℕ)
  | .init, [] => some []
  | _, [] => none
  | .init, c :: cs => if c = '\\'.toNat then lex .escaped cs else (lex .init cs).map (c :: ·)
  | .escaped, c :: cs =>
    if c < simpleEscapedSize ∧ simpleEscaped c ≠ 0 then (lex .init cs).map (simpleEscaped c :: ·)
    else if c = 'u'.toNat then lex .unicode cs
    else (lex .init cs).map (escapedToken c :: ·)
  | .unicode, c :: cs => if c = '{'.toNat then lex (.payload 0 0) cs else lex .error cs
  | .payload length codepoint, c :: cs =>
    if c = '}'.toNat then (lex .init cs).map (codepoint :: ·)
    else if length + 1 > 6 then lex .error cs
    else match hexDecode c with
      | some decoded => lex (.payload (length + 1) (codepoint * 16 + decoded)) cs
      | none => lex .error cs
  | .error, _ :: cs => lex .error cs

@[simp] theorem lex_error (cs : List ℕ) : lex .error cs = none := by
  induction cs with
  | nil => rfl
  | cons c cs ih => rw [lex, ih]

theorem TokenParser.lexer_eq_error_iff (parser : TokenParser) :
    parser.lexer = .error ↔ parser.state.IsError := by
  unfold TokenParser.lexer
  cases parser.state <;> simp [TokenState.IsError]

/-- **The tokenizer lexes**, one codepoint at a time. -/
theorem lex_tokenParse (parser : TokenParser) (token : Token) (c width : ℕ) (cs : List ℕ) :
    lex parser.lexer (c :: cs) =
      (let next := tokenParse parser token width c
       if next.1.state = .init then (lex next.1.lexer cs).map (next.2.codepoint :: ·)
       else lex next.1.lexer cs) := by
  rcases parser with ⟨state, offset, byteOffset, length, codepoint⟩
  cases state with
  | init =>
    simp only [TokenParser.lexer, tokenParse, tokenParseInit, lex]
    split <;> simp
  | escaped =>
    simp only [TokenParser.lexer, tokenParse, tokenParseEscaped, lex]
    split
    · simp
    · split <;> simp
  | unicode =>
    simp only [TokenParser.lexer, tokenParse, tokenParseUnicode, lex]
    split <;> simp
  | unicodePayload =>
    simp only [TokenParser.lexer, tokenParse, tokenParseUnicodePayload, lex]
    split
    · simp
    · split
      · simp
      · cases hexDecode c <;> simp
  | errorUnicodeStart => simp [TokenParser.lexer, tokenParse]
  | errorUnicodePayload => simp [TokenParser.lexer, tokenParse]
  | errorUnicodePayloadLen => simp [TokenParser.lexer, tokenParse]

/-! ## Runs -/

/-- A run of the parser over the codepoints of tokens. -/
def parseStates (tokens : List ℕ) (state : List ParserState) : Option (List ParserState) :=
  tokens.foldlM (fun state codepoint => parseState codepoint state) state

@[simp] theorem parseStates_nil (state : List ParserState) : parseStates [] state = some state :=
  rfl

theorem parseStates_cons (t : ℕ) (ts : List ℕ) (state : List ParserState) :
    parseStates (t :: ts) state = (parseState t state).bind (parseStates ts) := rfl

/-- The first step of a run. -/
theorem parseStates_cons_eq_some_iff {t : ℕ} {ts : List ℕ} {state last : List ParserState} :
    parseStates (t :: ts) state = some last ↔
      ∃ next, parseState t state = some next ∧ parseStates ts next = some last :=
  Option.bind_eq_some_iff

theorem parseStates_append (ts us : List ℕ) (state : List ParserState) :
    parseStates (ts ++ us) state = (parseStates ts state).bind (parseStates us) :=
  List.foldlM_append ..

/-- **The run rule**: what holds initially and is preserved by every step holds after every run. -/
theorem parseStates_invariant {P : List ParserState → Prop}
    (hstep : ∀ t state state', P state → parseState t state = some state' → P state')
    {tokens : List ℕ} {state state' : List ParserState} (hstate : P state)
    (hrun : parseStates tokens state = some state') : P state' := by
  induction tokens generalizing state with
  | nil =>
    obtain rfl : state = state' := by simpa using hrun
    exact hstate
  | cons t ts ih =>
    obtain ⟨next, ht, hts⟩ := parseStates_cons_eq_some_iff.mp hrun
    exact ih (hstep t state next hstate ht) hts

/-- **The run rule with what is read**: an invariant of the state and the tokens read so far, of
which `tokens` is the whole. -/
theorem parseStates_prefix_invariant {tokens : List ℕ} {P : List ℕ → List ParserState → Prop}
    (hstep : ∀ before t after state state', tokens = before ++ t :: after → P before state →
      parseState t state = some state' → P (before ++ [t]) state')
    {state last : List ParserState} (hstate : P [] state)
    (hrun : parseStates tokens state = some last) : P tokens last := by
  suffices h : ∀ before after state, tokens = before ++ after → P before state →
      parseStates after state = some last → P tokens last from h [] tokens state rfl hstate hrun
  intro before after
  induction after generalizing before with
  | nil =>
    intro state htokens hstate hrun
    obtain rfl := Option.some.inj hrun
    rwa [htokens, List.append_nil]
  | cons t after ih =>
    intro state htokens hstate hrun
    obtain ⟨next, ht, hrest⟩ := parseStates_cons_eq_some_iff.mp hrun
    have hnext := hstep before t after state next htokens hstate ht
    exact ih (before ++ [t]) next (by rw [htokens, List.append_assoc]; rfl) hnext hrest

/-- `P` holds in every state of the run over `tokens`. -/
def RunHolds (P : List ParserState → Prop) (tokens : List ℕ) (state : List ParserState) : Prop :=
  ∀ before after state', tokens = before ++ after → parseStates before state = some state' →
    P state'

/-- `K` holds of every step of the run over `tokens`. -/
def RunSteps (K : ℕ → List ParserState → Prop) : List ℕ → List ParserState → Prop
  | [], _ => True
  | t :: ts, state => K t state ∧ (parseState t state).elim True (RunSteps K ts)

instance decidableRunSteps {K : ℕ → List ParserState → Prop} [∀ t state, Decidable (K t state)] :
    ∀ tokens state, Decidable (RunSteps K tokens state)
  | [], _ => isTrue trivial
  | t :: ts, state =>
    have : Decidable ((parseState t state).elim True (RunSteps K ts)) :=
      match parseState t state with
      | none => isTrue trivial
      | some state' => decidableRunSteps ts state'
    inferInstanceAs (Decidable (_ ∧ _))

theorem RunHolds.tail {P : List ParserState → Prop} {t : ℕ} {ts : List ℕ}
    {state next : List ParserState} (h : RunHolds P (t :: ts) state)
    (hnext : parseState t state = some next) : RunHolds P ts next := by
  intro before after state' htokens hrun
  refine h (t :: before) after state' (by rw [htokens, List.cons_append]) ?_
  rw [parseStates_cons, hnext, Option.bind_some, hrun]

/-- **The exact run rule**: what a step preserves exactly when `K` holds of it is preserved by a run
exactly when `K` holds of all its steps. -/
theorem runHolds_iff {P : List ParserState → Prop} {K : ℕ → List ParserState → Prop}
    (hstep : ∀ t state state', P state → parseState t state = some state' → (P state' ↔ K t state))
    {tokens : List ℕ} {state last : List ParserState} (hstate : P state)
    (hrun : parseStates tokens state = some last) :
    RunHolds P tokens state ↔ RunSteps K tokens state := by
  induction tokens generalizing state with
  | nil =>
    refine iff_of_true ?_ trivial
    intro before after state' htokens hbefore
    obtain ⟨rfl, -⟩ := List.append_eq_nil_iff.mp htokens.symm
    obtain rfl : state = state' := by simpa using hbefore
    exact hstate
  | cons t ts ih =>
    obtain ⟨next, ht, hts⟩ := parseStates_cons_eq_some_iff.mp hrun
    have hiff := hstep t state next hstate ht
    rw [RunSteps, ht, Option.elim_some]
    constructor
    · intro h
      have hnext : P next := h [t] ts next rfl (by rw [parseStates_cons, ht]; rfl)
      exact ⟨hiff.mp hnext, (ih hnext hts).mp (h.tail ht)⟩
    · rintro ⟨hkeeps, htail⟩ before after state' htokens hbefore
      have hnext := (ih (hiff.mpr hkeeps) hts).mpr htail
      cases before with
      | nil =>
        obtain rfl : state = state' := by simpa using hbefore
        exact hstate
      | cons u before =>
        obtain ⟨rfl, rfl⟩ : t = u ∧ ts = before ++ after := by simpa using htokens
        rw [parseStates_cons, ht, Option.bind_some] at hbefore
        exact hnext before after state' rfl hbefore

/-- **The inner loop of `passgen_parse`** completes, between two tokens, exactly when the codepoints
lex and the parser accepts the tokens. -/
theorem foldlM_parseCodepoint_iff (inputs : List (ℕ × ℕ)) (front : FrontEnd)
    (hlimit : front.parser.limit = 0) (state : List ParserState) :
    (∃ front', inputs.foldlM parseCodepoint front = .ok front' ∧
        front'.tokenParser.state = .init ∧ front'.parser.state = state) ↔
      ∃ tokens, lex front.tokenParser.lexer (inputs.map Prod.fst) = some tokens ∧
        parseStates tokens front.parser.state = some state := by
  induction inputs generalizing front with
  | nil =>
    rcases front with ⟨parser, token, ⟨stack, limit⟩⟩
    obtain rfl : limit = 0 := hlimit
    rcases hst : parser.state <;>
      simp [pure, Except.pure, lex, TokenParser.lexer, hst]
  | cons input inputs ih =>
    rcases front with ⟨parser, token, ⟨stack, limit⟩⟩
    obtain rfl : limit = 0 := hlimit
    rw [List.map_cons, lex_tokenParse parser token input.1 input.2, List.foldlM_cons,
      parseCodepoint]
    rcases tokenParse parser token input.2 input.1 with ⟨parser', token'⟩
    by_cases herror : parser'.state.IsError
    · have hne : parser'.state ≠ .init := fun h => by rw [h] at herror; exact herror
      have hlex := (TokenParser.lexer_eq_error_iff parser').mpr herror
      simp [herror, hne, hlex, bind, Except.bind]
    · by_cases hinit : parser'.state = .init
      · simp only [if_neg herror, if_pos hinit, parseToken]
        cases hstep : parseState token'.codepoint stack with
        | none => simp [hstep, bind, Except.bind, parseStates_cons]
        | some next =>
          have := ih ⟨parser', token', ⟨next, 0⟩⟩ rfl
          simp only [bind, Except.bind, Option.map_some, ne_eq, not_true_eq_false,
            false_and, if_false] at this ⊢
          rw [this]
          simp [parseStates_cons, hstep]
      · simp only [if_neg herror, if_neg hinit, bind, Except.bind]
        exact ih ⟨parser', token', ⟨stack, 0⟩⟩ rfl

/-- The pattern a complete run leaves. -/
def finish (state : List ParserState) : Option Group := parseFinish ⟨state, 0⟩

/-- A run that can be finished has nothing but the root group on its stack. -/
theorem finish_eq_some_iff {state : List ParserState} {g : Group} :
    finish state = some g ↔
      ∃ group segment, state = [.group group segment] ∧
        { group with segments := group.segments ++ [segmentClean segment] } = g := by
  constructor
  · intro h
    unfold finish parseFinish at h
    split at h
    · rename_i group segment hstate
      exact ⟨group, segment, hstate, Option.some.inj h⟩
    · exact absurd h (by simp)
  · rintro ⟨group, segment, rfl, rfl⟩
    rfl

/-- **An accepted pattern**: the string decodes, the codepoints lex, and the tokens are a run of the
parser that can be finished. -/
theorem parse_ok_iff (string : List UInt8) (g : Group) :
    parse string = .ok g ↔
      (decodeAll string).1 = true ∧ ∃ tokens state,
        lex .init ((decodeAll string).2.map Prod.fst) = some tokens ∧
          parseStates tokens parserInit.state = some state ∧ finish state = some g := by
  rw [parse, parseRounds_ok_iff _ _ _ _ _ (Nat.lt_succ_self _)]
  refine and_congr_right fun _ => ?_
  have hloop := foldlM_parseCodepoint_iff (decodeAll string).2 frontEndInit rfl
  constructor
  · rintro ⟨front, hfold, hinit, hfinish⟩
    obtain ⟨tokens, hlex, hrun⟩ := (hloop front.parser.state).mp ⟨front, hfold, hinit, rfl⟩
    exact ⟨tokens, front.parser.state, hlex, hrun, hfinish⟩
  · rintro ⟨tokens, state, hlex, hrun, hfinish⟩
    obtain ⟨front, hfold, hinit, rfl⟩ := (hloop state).mpr ⟨tokens, hlex, hrun⟩
    exact ⟨front, hfold, hinit, hfinish⟩

/-- The pattern of an encoded string. -/
theorem parse_encodeAll_iff {cs : List ℕ} (hcs : ∀ c ∈ cs, IsScalar c) (g : Group) :
    parse (utf8EncodeAll cs) = .ok g ↔
      ∃ tokens state, lex .init cs = some tokens ∧
        parseStates tokens parserInit.state = some state ∧ finish state = some g := by
  rw [parse_ok_iff, decodeAll_encodeAll hcs, withWidths, List.map_map]
  simp [Function.comp_def]

/-- The bytes of an ASCII pattern. -/
def ascii (string : String) : List UInt8 := string.toList.map fun c => UInt8.ofNat c.toNat

/-- The codepoints of the tokens of a pattern string. -/
def patternTokens (string : List UInt8) : List ℕ :=
  (lex .init ((decodeAll string).2.map Prod.fst)).getD []

/-- An accepted pattern is the run over its tokens. -/
theorem parse_run {string : List UInt8} {g : Group} (h : parse string = .ok g) :
    ∃ state, parseStates (patternTokens string) parserInit.state = some state ∧
      finish state = some g := by
  obtain ⟨-, tokens, state, hlex, hrun, hfinish⟩ := (parse_ok_iff string g).mp h
  refine ⟨state, ?_, hfinish⟩
  rw [patternTokens, hlex, Option.getD_some, hrun]

end Passgen
