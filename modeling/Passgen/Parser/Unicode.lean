import Mathlib.Data.List.Basic
import Mathlib.Tactic.Common
import Passgen.Parser.Run

/-!
# Parser/Unicode — the front end for codepoints

    codepoints ─┬─ passgen_parser_unicode ─▸ completed tokens ─▸ parser
                └─ encode ─▸ passgen_parse ─▸ completed tokens ─▸ parser
                                             └ malformed or unfinished escape ─▸ error

`passgen_parser_unicode` feeds the parser with whatever tokens are completed.  An escape sequence
that is malformed or does not end completes none, and it goes unnoticed: that is where the two
front ends differ.
-/

namespace Passgen

/-! ## The front end -/

/-- The body of the loop of `passgen_parser_unicode`: every codepoint counts as one byte. -/
def unicodeCodepoint (front : FrontEnd) (codepoint : ℕ) : Option FrontEnd :=
  let (tokenParser, token) := tokenParse front.tokenParser front.token 1 codepoint
  if tokenParser.state = .init then
    (parseToken front.parser token).map fun parser => ⟨tokenParser, token, parser⟩
  else some ⟨tokenParser, token, front.parser⟩

/-- `passgen_parser_unicode`; `none` is a nonzero return. -/
def parserUnicode (parser : Parser) (data : List ℕ) : Option Parser :=
  (data.foldlM unicodeCodepoint ⟨.zero, .zero, parser⟩).map FrontEnd.parser

/-- The pattern of a fresh parser that is fed with `data` and finished. -/
def unicodePattern (data : List ℕ) : Option Group :=
  (parserUnicode parserInit data).bind parseFinish

/-- The tokens completed in a sequence, whatever follows the last of them. -/
def completed : Lexer → List ℕ → List ℕ
  | _, [] => []
  | .init, c :: cs => if c = '\\'.toNat then completed .escaped cs else c :: completed .init cs
  | .escaped, c :: cs =>
    if c < simpleEscapedSize ∧ simpleEscaped c ≠ 0 then simpleEscaped c :: completed .init cs
    else if c = 'u'.toNat then completed .unicode cs
    else escapedToken c :: completed .init cs
  | .unicode, c :: cs => if c = '{'.toNat then completed (.payload 0 0) cs else completed .error cs
  | .payload length codepoint, c :: cs =>
    if c = '}'.toNat then codepoint :: completed .init cs
    else if length + 1 > 6 then completed .error cs
    else match hexDecode c with
      | some decoded => completed (.payload (length + 1) (codepoint * 16 + decoded)) cs
      | none => completed .error cs
  | .error, _ :: cs => completed .error cs

@[simp] theorem completed_nil (lexer : Lexer) : completed lexer [] = [] := by
  cases lexer <;> rfl

@[simp] theorem completed_error (cs : List ℕ) : completed .error cs = [] := by
  induction cs with
  | nil => rfl
  | cons c cs ih => rw [completed, ih]

/-- The tokenizer completes the same tokens, one codepoint at a time. -/
theorem completed_tokenParse (parser : TokenParser) (token : Token) (c width : ℕ) (cs : List ℕ) :
    completed parser.lexer (c :: cs) =
      (let next := tokenParse parser token width c
       if next.1.state = .init then next.2.codepoint :: completed next.1.lexer cs
       else completed next.1.lexer cs) := by
  rcases parser with ⟨state, offset, byteOffset, length, codepoint⟩
  cases state with
  | init =>
    simp only [TokenParser.lexer, tokenParse, tokenParseInit, completed]
    split <;> simp
  | escaped =>
    simp only [TokenParser.lexer, tokenParse, tokenParseEscaped, completed]
    split
    · simp
    · split <;> simp
  | unicode =>
    simp only [TokenParser.lexer, tokenParse, tokenParseUnicode, completed]
    split <;> simp
  | unicodePayload =>
    simp only [TokenParser.lexer, tokenParse, tokenParseUnicodePayload, completed]
    split
    · simp
    · split
      · simp
      · cases hexDecode c <;> simp
  | errorUnicodeStart => simp [TokenParser.lexer, tokenParse]
  | errorUnicodePayload => simp [TokenParser.lexer, tokenParse]
  | errorUnicodePayloadLen => simp [TokenParser.lexer, tokenParse]

/-- **The loop runs the parser over the completed tokens.** -/
theorem foldlM_unicodeCodepoint (data : List ℕ) (front : FrontEnd)
    (hlimit : front.parser.limit = 0) :
    (data.foldlM unicodeCodepoint front).map FrontEnd.parser =
      (parseStates (completed front.tokenParser.lexer data) front.parser.state).map
        fun state => ⟨state, 0⟩ := by
  induction data generalizing front with
  | nil =>
    rcases front with ⟨parser, token, ⟨stack, limit⟩⟩
    obtain rfl : limit = 0 := hlimit
    simp
  | cons c data ih =>
    rcases front with ⟨parser, token, ⟨stack, limit⟩⟩
    obtain rfl : limit = 0 := hlimit
    rw [completed_tokenParse parser token c 1, List.foldlM_cons, unicodeCodepoint]
    rcases tokenParse parser token 1 c with ⟨parser', token'⟩
    by_cases hinit : parser'.state = .init
    · simp only [if_pos hinit, parseToken]
      cases hstep : parseState token'.codepoint stack with
      | none => simp [hstep, parseStates_cons]
      | some next =>
        have := ih ⟨parser', token', ⟨next, 0⟩⟩ rfl
        simpa [hstep, parseStates_cons] using this
    · simp only [if_neg hinit]
      exact ih ⟨parser', token', ⟨stack, 0⟩⟩ rfl

/-- A pattern fed as codepoints is the run over the completed tokens. -/
theorem unicodePattern_eq (data : List ℕ) :
    unicodePattern data =
      (parseStates (completed .init data) parserInit.state).bind finish := by
  rw [unicodePattern, parserUnicode, foldlM_unicodeCodepoint _ _ rfl, Option.bind_map]
  rfl

/-! ## Broken escapes -/

/-- An escape sequence that completes no token: it is unfinished, or malformed and followed by
anything. -/
inductive BrokenEscape : List ℕ → Prop
  | backslash : BrokenEscape ['\\'.toNat]
  | letter : BrokenEscape ['\\'.toNat, 'u'.toNat]
  | notBrace {c : ℕ} (hc : c ≠ '{'.toNat) (rest : List ℕ) :
      BrokenEscape ('\\'.toNat :: 'u'.toNat :: c :: rest)
  | payload {hs : List ℕ} (hhs : ∀ h ∈ hs, (hexDecode h).isSome) (hlen : hs.length ≤ 6) :
      BrokenEscape ('\\'.toNat :: 'u'.toNat :: '{'.toNat :: hs)
  | notHex {hs : List ℕ} {c : ℕ} (hhs : ∀ h ∈ hs, (hexDecode h).isSome) (hlen : hs.length ≤ 5)
      (hc : c ≠ '}'.toNat) (hhex : hexDecode c = none) (rest : List ℕ) :
      BrokenEscape ('\\'.toNat :: 'u'.toNat :: '{'.toNat :: hs ++ c :: rest)
  | tooLong {hs : List ℕ} {c : ℕ} (hhs : ∀ h ∈ hs, (hexDecode h).isSome) (hlen : hs.length = 6)
      (hc : c ≠ '}'.toNat) (rest : List ℕ) :
      BrokenEscape ('\\'.toNat :: 'u'.toNat :: '{'.toNat :: hs ++ c :: rest)

/-- The codepoints the tokenizer has read of an escape it is in the middle of. -/
inductive Reading : Lexer → List ℕ → Prop
  | init : Reading .init []
  | escaped : Reading .escaped ['\\'.toNat]
  | unicode : Reading .unicode ['\\'.toNat, 'u'.toNat]
  | brace : Reading (.payload 0 0) ['\\'.toNat, 'u'.toNat, '{'.toNat]
  | digit {n codepoint c decoded : ℕ} {esc : List ℕ} (h : Reading (.payload n codepoint) esc)
      (hlen : n + 1 ≤ 6) (hc : hexDecode c = some decoded) :
      Reading (.payload (n + 1) (codepoint * 16 + decoded)) (esc ++ [c])

/-- A hexadecimal digit is no closing brace. -/
theorem ne_of_hexDecode {c decoded : ℕ} (h : hexDecode c = some decoded) : c ≠ '}'.toNat := by
  rintro rfl
  have hnone : hexDecode '}'.toNat = none := by decide
  exact absurd (hnone.symm.trans h) (by simp)

/-- What has been read leads to where the tokenizer stands. -/
theorem Reading.lex_append {lexer : Lexer} {esc : List ℕ} (h : Reading lexer esc) (cs : List ℕ) :
    lex .init (esc ++ cs) = lex lexer cs := by
  induction h generalizing cs with
  | digit _ hlen hc ih =>
    rw [List.append_assoc, ih, List.singleton_append, lex, if_neg (ne_of_hexDecode hc),
      if_neg (by omega), hc]
  | _ => rfl

/-- The payload with the digits `hs` behind it. -/
def hexFrom (codepoint : ℕ) (hs : List ℕ) : ℕ :=
  hs.foldl (fun value h => value * 16 + (hexDecode h).getD 0) codepoint

theorem hexFrom_concat (codepoint : ℕ) (hs : List ℕ) {c decoded : ℕ}
    (hc : hexDecode c = some decoded) :
    hexFrom codepoint (hs ++ [c]) = hexFrom codepoint hs * 16 + decoded := by
  rw [hexFrom, List.foldl_append, List.foldl_cons, hc]
  rfl

/-- The payload read so far. -/
theorem Reading.digits {n codepoint : ℕ} {esc : List ℕ} (h : Reading (.payload n codepoint) esc) :
    ∃ hs : List ℕ, esc = '\\'.toNat :: 'u'.toNat :: '{'.toNat :: hs ∧
      (∀ h ∈ hs, (hexDecode h).isSome) ∧ hs.length = n ∧ n ≤ 6 ∧ codepoint = hexFrom 0 hs := by
  generalize hlexer : Lexer.payload n codepoint = lexer at h
  induction h generalizing n codepoint with
  | brace =>
    obtain ⟨rfl, rfl⟩ := Lexer.payload.inj hlexer
    exact ⟨[], rfl, by simp, rfl, by omega, rfl⟩
  | @digit m value c decoded esc _ hlen hc ih =>
    obtain ⟨rfl, rfl⟩ := Lexer.payload.inj hlexer
    obtain ⟨hs, rfl, hhs, hlength, -, rfl⟩ := ih rfl
    refine ⟨hs ++ [c], rfl, ?_, by simp [hlength], hlen, (hexFrom_concat 0 hs hc).symm⟩
    intro h hmem
    rcases List.mem_append.mp hmem with hmem | hmem
    · exact hhs h hmem
    · rw [List.mem_singleton.mp hmem, hc]
      rfl
  | _ => exact absurd hlexer (by simp)

/-- What is read of an escape that ends here is broken. -/
theorem Reading.unfinished {lexer : Lexer} {esc : List ℕ} (h : Reading lexer esc)
    (hinit : lexer ≠ .init) : BrokenEscape esc := by
  cases h with
  | init => exact absurd rfl hinit
  | escaped => exact .backslash
  | unicode => exact .letter
  | brace => exact .payload (List.forall_mem_nil _) (Nat.zero_le 6)
  | digit h hlen hc =>
    obtain ⟨hs, hesc, hhs, hlength, hle, -⟩ := (h.digit hlen hc).digits
    rw [hesc]
    exact .payload hhs (by omega)

/-- The sequence lexes from where the tokenizer stands, or up to a broken escape. -/
def LexesOrBreaks (lexer : Lexer) (esc cs : List ℕ) : Prop :=
  lex lexer cs = some (completed lexer cs) ∨
    lex lexer cs = none ∧ ∃ pre rest, esc ++ cs = pre ++ rest ∧
      lex .init pre = some (completed lexer cs) ∧ BrokenEscape rest

section Step

variable {lexer lexer' : Lexer} {esc cs : List ℕ} {c t : ℕ}

/-- A codepoint that completes a token. -/
theorem LexesOrBreaks.token (h : LexesOrBreaks .init [] cs) (hread : Reading lexer esc)
    (hlex : ∀ cs, lex lexer (c :: cs) = (lex .init cs).map (t :: ·))
    (hcompleted : completed lexer (c :: cs) = t :: completed .init cs) :
    LexesOrBreaks lexer esc (c :: cs) := by
  rw [LexesOrBreaks, hlex, hcompleted]
  rcases h with hsome | ⟨hnone, pre, rest, hsplit, hpre, hbroken⟩
  · exact .inl (by rw [hsome, Option.map_some])
  · refine .inr ⟨by rw [hnone, Option.map_none], esc ++ c :: pre, rest, ?_, ?_, hbroken⟩
    · rw [List.append_assoc, List.cons_append, ← hsplit, List.nil_append]
    · rw [hread.lex_append, hlex, hpre, Option.map_some]

/-- A codepoint inside of an escape. -/
theorem LexesOrBreaks.advance (h : LexesOrBreaks lexer' (esc ++ [c]) cs)
    (hlex : lex lexer (c :: cs) = lex lexer' cs)
    (hcompleted : completed lexer (c :: cs) = completed lexer' cs) :
    LexesOrBreaks lexer esc (c :: cs) := by
  rw [LexesOrBreaks, List.append_cons, hlex, hcompleted]
  exact h

/-- A codepoint that breaks an escape. -/
theorem LexesOrBreaks.broken (hbroken : BrokenEscape (esc ++ c :: cs))
    (hlex : lex lexer (c :: cs) = lex .error cs)
    (hcompleted : completed lexer (c :: cs) = completed .error cs) :
    LexesOrBreaks lexer esc (c :: cs) := by
  rw [LexesOrBreaks, hlex, hcompleted, lex_error, completed_error]
  exact .inr ⟨rfl, [], _, rfl, rfl, hbroken⟩

/-- A codepoint inside of a payload. -/
theorem Reading.payload {n codepoint : ℕ} (h : Reading (.payload n codepoint) esc)
    (ih : ∀ {lexer esc}, Reading lexer esc → LexesOrBreaks lexer esc cs) (c : ℕ) :
    LexesOrBreaks (.payload n codepoint) esc (c :: cs) := by
  obtain ⟨hs, hesc, hhs, hlength, hle, -⟩ := h.digits
  by_cases hend : c = '}'.toNat
  · exact (ih .init).token h (fun _ => if_pos hend) (if_pos hend)
  · by_cases hlong : n + 1 > 6
    · refine .broken ?_ ?_ ?_
      · rw [hesc]
        exact .tooLong hhs (by omega) hend cs
      · rw [lex, if_neg hend, if_pos hlong]
      · rw [completed, if_neg hend, if_pos hlong]
    · cases hhex : hexDecode c with
      | none =>
        refine .broken ?_ ?_ ?_
        · rw [hesc]
          exact .notHex hhs (by omega) hend hhex cs
        · rw [lex, if_neg hend, if_neg hlong, hhex]
        · rw [completed, if_neg hend, if_neg hlong, hhex]
      | some decoded =>
        refine (ih (h.digit (by omega) hhex)).advance ?_ ?_
        · rw [lex, if_neg hend, if_neg hlong, hhex]
        · rw [completed, if_neg hend, if_neg hlong, hhex]

end Step

/-- **Every sequence lexes, or lexes up to a broken escape.** -/
theorem lexesOrBreaks {lexer : Lexer} {esc : List ℕ} (h : Reading lexer esc) (cs : List ℕ) :
    LexesOrBreaks lexer esc cs := by
  induction cs generalizing lexer esc with
  | nil =>
    by_cases hinit : lexer = .init
    · subst hinit
      exact .inl rfl
    · refine .inr ⟨by cases h <;> first | exact absurd rfl hinit | rfl, [], esc, by simp, ?_,
        h.unfinished hinit⟩
      rw [completed_nil]
      rfl
  | cons c cs ih =>
    have hread := h
    cases h with
    | init =>
      by_cases hc : c = '\\'.toNat
      · subst hc
        exact (ih .escaped).advance rfl rfl
      · exact (ih .init).token hread (fun _ => if_neg hc) (if_neg hc)
    | escaped =>
      by_cases hsimple : c < simpleEscapedSize ∧ simpleEscaped c ≠ 0
      · exact (ih .init).token hread (fun _ => if_pos hsimple) (if_pos hsimple)
      · by_cases hu : c = 'u'.toNat
        · subst hu
          exact (ih .unicode).advance rfl rfl
        · refine (ih .init).token hread (t := escapedToken c) (fun _ => ?_) ?_
          · rw [lex, if_neg hsimple, if_neg hu]
          · rw [completed, if_neg hsimple, if_neg hu]
    | unicode =>
      by_cases hc : c = '{'.toNat
      · subst hc
        exact (ih .brace).advance rfl rfl
      · exact .broken (.notBrace hc cs) (if_neg hc) (if_neg hc)
    | brace => exact hread.payload (fun h => ih h) c
    | digit hprev hlen hc => exact hread.payload (fun h => ih h) c

/-! ## A broken escape completes nothing -/

theorem lex_payload_digits {n codepoint : ℕ} {hs : List ℕ}
    (hhs : ∀ h ∈ hs, (hexDecode h).isSome) (hlen : n + hs.length ≤ 6) (cs : List ℕ) :
    lex (.payload n codepoint) (hs ++ cs)
        = lex (.payload (n + hs.length) (hexFrom codepoint hs)) cs ∧
      completed (.payload n codepoint) (hs ++ cs)
        = completed (.payload (n + hs.length) (hexFrom codepoint hs)) cs := by
  induction hs generalizing n codepoint with
  | nil => exact ⟨rfl, rfl⟩
  | cons h hs ih =>
    rw [List.forall_mem_cons] at hhs
    rw [List.length_cons] at hlen
    obtain ⟨decoded, hdecoded⟩ := Option.isSome_iff_exists.mp hhs.1
    obtain ⟨hlex, hcompleted⟩ := @ih (n + 1) (codepoint * 16 + decoded) hhs.2 (by omega)
    have hfrom : hexFrom codepoint (h :: hs) = hexFrom (codepoint * 16 + decoded) hs := by
      rw [hexFrom, List.foldl_cons, hdecoded]
      rfl
    rw [hfrom, List.length_cons, ← Nat.add_assoc, Nat.add_right_comm]
    constructor
    · rw [List.cons_append, lex, if_neg (ne_of_hexDecode hdecoded), if_neg (by omega), hdecoded]
      exact hlex
    · rw [List.cons_append, completed, if_neg (ne_of_hexDecode hdecoded), if_neg (by omega),
        hdecoded]
      exact hcompleted

theorem BrokenEscape.completes_nothing {rest : List ℕ} (h : BrokenEscape rest) :
    lex .init rest = none ∧ completed .init rest = [] := by
  cases h with
  | backslash => exact ⟨rfl, rfl⟩
  | letter => exact ⟨rfl, rfl⟩
  | notBrace hc rest =>
    constructor
    · exact (if_neg hc).trans (lex_error rest)
    · exact (if_neg hc).trans (completed_error rest)
  | @payload hs hhs hlen =>
    obtain ⟨hlex, hcompleted⟩ := @lex_payload_digits 0 0 hs hhs (by omega) []
    rw [List.append_nil] at hlex hcompleted
    exact ⟨hlex, hcompleted⟩
  | @notHex hs c hhs hlen hc hhex rest =>
    obtain ⟨hlex, hcompleted⟩ := @lex_payload_digits 0 0 hs hhs (by omega) (c :: rest)
    constructor
    · refine hlex.trans ?_
      rw [lex, if_neg hc, if_neg (by omega), hhex]
      exact lex_error rest
    · refine hcompleted.trans ?_
      rw [completed, if_neg hc, if_neg (by omega), hhex]
      exact completed_error rest
  | @tooLong hs c hhs hlen hc rest =>
    obtain ⟨hlex, hcompleted⟩ := @lex_payload_digits 0 0 hs hhs (by omega) (c :: rest)
    constructor
    · refine hlex.trans ?_
      rw [lex, if_neg hc, if_pos (by omega)]
      exact lex_error rest
    · refine hcompleted.trans ?_
      rw [completed, if_neg hc, if_pos (by omega)]
      exact completed_error rest

/-- What lexes is followed by what lexes next. -/
theorem lex_append {lexer : Lexer} {pre tokens : List ℕ} (h : lex lexer pre = some tokens)
    (rest : List ℕ) :
    lex lexer (pre ++ rest) = (lex .init rest).map (tokens ++ ·) ∧
      completed lexer (pre ++ rest) = tokens ++ completed .init rest := by
  induction pre generalizing lexer tokens with
  | nil =>
    cases lexer with
    | init =>
      obtain rfl : [] = tokens := by simpa [lex] using h
      simp
    | _ => simp [lex] at h
  | cons c pre ih =>
    -- a codepoint that completes the token `t`
    have htoken : ∀ t, (lex .init pre).map (t :: ·) = some tokens →
        (lex .init (pre ++ rest)).map (t :: ·) = (lex .init rest).map (tokens ++ ·) ∧
          t :: completed .init (pre ++ rest) = tokens ++ completed .init rest := fun t ht => by
      obtain ⟨tokens', htokens', rfl⟩ := Option.map_eq_some_iff.mp ht
      obtain ⟨hlex, hcompleted⟩ := ih htokens'
      rw [hlex, hcompleted, Option.map_map]
      exact ⟨rfl, rfl⟩
    rw [List.cons_append]
    cases lexer with
    | init =>
      rw [lex] at h ⊢
      rw [completed]
      split_ifs at h ⊢
      · exact ih h
      · exact htoken c h
    | escaped =>
      rw [lex] at h ⊢
      rw [completed]
      split_ifs at h ⊢
      · exact htoken _ h
      · exact ih h
      · exact htoken _ h
    | unicode =>
      rw [lex] at h ⊢
      rw [completed]
      split_ifs at h ⊢
      · exact ih h
      · simp at h
    | payload n codepoint =>
      rw [lex] at h ⊢
      rw [completed]
      split_ifs at h ⊢
      · exact htoken _ h
      · simp at h
      · cases hhex : hexDecode c with
        | none => simp [hhex] at h
        | some decoded =>
          rw [hhex] at h
          exact ih h
    | error => simp at h

/-! ## Where the front ends agree -/

/-- The codepoints are those of an accepted pattern. -/
def Accepted (pre : List ℕ) : Prop :=
  ∃ tokens state g, lex .init pre = some tokens ∧
    parseStates tokens parserInit.state = some state ∧ finish state = some g

/-- Both front ends accept, or neither does, and they give one pattern. -/
def FrontEndsAgree (cps : List ℕ) : Prop :=
  ((∃ g, unicodePattern cps = some g) ↔ ∃ g, parse (utf8EncodeAll cps) = .ok g) ∧
    ∀ g g', unicodePattern cps = some g → parse (utf8EncodeAll cps) = .ok g' → g = g'

/-- A pattern with a broken escape after it is accepted as codepoints only. -/
theorem not_frontEndsAgree {cps pre rest : List ℕ} (hcps : ∀ c ∈ cps, IsScalar c)
    (hsplit : cps = pre ++ rest) (hpre : Accepted pre) (hrest : BrokenEscape rest) :
    ¬ FrontEndsAgree cps := by
  rintro ⟨hiff, -⟩
  obtain ⟨tokens, state, g, hlex, hrun, hfinish⟩ := hpre
  obtain ⟨hnone, hnothing⟩ := hrest.completes_nothing
  obtain ⟨happend, hcompleted⟩ := lex_append hlex rest
  have hunicode : unicodePattern cps = some g := by
    rw [unicodePattern_eq, hsplit, hcompleted, hnothing, List.append_nil, hrun]
    exact hfinish
  obtain ⟨g', hparse⟩ := hiff.mp ⟨g, hunicode⟩
  obtain ⟨tokens', -, hlex', -⟩ := (parse_encodeAll_iff hcps g').mp hparse
  rw [hsplit, happend, hnone] at hlex'
  exact absurd hlex' (by simp)

/-- **The two front ends agree, but for patterns with a broken escape after them.** -/
theorem frontEndsAgree_iff {cps : List ℕ} (hcps : ∀ c ∈ cps, IsScalar c ∧ c ≠ 0) :
    FrontEndsAgree cps ↔ ¬ ∃ pre rest, cps = pre ++ rest ∧ Accepted pre ∧ BrokenEscape rest := by
  have hscalar : ∀ c ∈ cps, IsScalar c := fun c hc => (hcps c hc).1
  constructor
  · rintro hagree ⟨pre, rest, hsplit, hpre, hrest⟩
    exact not_frontEndsAgree hscalar hsplit hpre hrest hagree
  · intro hbroken
    have heq : ∀ g, unicodePattern cps = some g ↔ parse (utf8EncodeAll cps) = .ok g := by
      intro g
      rw [unicodePattern_eq, parse_encodeAll_iff hscalar, Option.bind_eq_some_iff]
      rcases lexesOrBreaks .init cps with hlex | ⟨hnone, pre, rest, hsplit, hpre, hrest⟩
      · simp [hlex]
      · refine ⟨?_, ?_⟩
        · rintro ⟨state, hrun, hfinish⟩
          exact absurd ⟨pre, rest, hsplit, ⟨_, state, g, hpre, hrun, hfinish⟩, hrest⟩ hbroken
        · rintro ⟨tokens, state, hlex, -⟩
          exact absurd (hnone.symm.trans hlex) (by simp)
    refine ⟨exists_congr heq, fun g g' hg hg' => ?_⟩
    exact Except.ok.inj (((heq g).mp hg).symm.trans hg')

/-- `é\u{41}€`. -/
theorem frontEndsAgree_iff_escape :
    FrontEndsAgree [0xE9, 0x5C, 0x75, 0x7B, 0x34, 0x31, 0x7D, 0x20AC] ↔
      ¬ ∃ pre rest, [0xE9, 0x5C, 0x75, 0x7B, 0x34, 0x31, 0x7D, 0x20AC] = pre ++ rest ∧
        Accepted pre ∧ BrokenEscape rest :=
  frontEndsAgree_iff (by decide)

/-- A backslash at the end of a pattern. -/
theorem not_frontEndsAgree_backslash :
    ¬ ∀ cps : List ℕ, (∀ c ∈ cps, IsScalar c ∧ c ≠ 0) → FrontEndsAgree cps := by
  intro h
  have haccepted : Accepted [97] := ⟨[97], _, _, rfl, rfl, rfl⟩
  exact @not_frontEndsAgree [97, 92] _ _ (by decide) rfl haccepted .backslash
    (h [97, 92] (by decide))

end Passgen
