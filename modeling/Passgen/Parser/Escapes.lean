import Mathlib.Data.List.Basic
import Mathlib.Tactic.Common
import Passgen.Parser.Unicode

/-!
# Parser/Escapes — the codepoints of tokens

    token ▸ c │ \c │ \u{h … h}             a codepoint, marked or not, or the value of the digits

What lexes is one spelling of a token behind the other (`spellings_iff`).  Six hexadecimal digits
reach beyond the last codepoint, and the tokenizer hands their value on as it is: tokens are
codepoints exactly when no escape is written for more (`yieldsUnicode_iff`).
-/

namespace Passgen

/-! ## Spellings -/

/-- `\u{hs}`. -/
def unicodeEscape (hs : List ℕ) : List ℕ :=
  '\\'.toNat :: 'u'.toNat :: '{'.toNat :: (hs ++ ['}'.toNat])

/-- The spellings of a token. -/
inductive Spelling : List ℕ → ℕ → Prop
  | plain {c : ℕ} (h : c ≠ '\\'.toNat) : Spelling [c] c
  | simple {c : ℕ} (h : c < simpleEscapedSize ∧ simpleEscaped c ≠ 0) :
      Spelling ['\\'.toNat, c] (simpleEscaped c)
  | escaped {c : ℕ} (h : ¬(c < simpleEscapedSize ∧ simpleEscaped c ≠ 0)) (hu : c ≠ 'u'.toNat) :
      Spelling ['\\'.toNat, c] (escapedToken c)
  | unicode {hs : List ℕ} (hhs : ∀ h ∈ hs, (hexDecode h).isSome) (hlen : hs.length ≤ 6) :
      Spelling (unicodeEscape hs) (hexFrom 0 hs)

/-- Tokens spelled one behind the other. -/
inductive Spellings : List ℕ → List ℕ → Prop
  | nil : Spellings [] []
  | snoc {cs ts piece : List ℕ} {t : ℕ} (h : Spellings cs ts) (hpiece : Spelling piece t) :
      Spellings (cs ++ piece) (ts ++ [t])

/-- A spelling lexes as its token. -/
theorem Spelling.lex {piece : List ℕ} {t : ℕ} (h : Spelling piece t) :
    Passgen.lex .init piece = some [t] := by
  cases h with
  | plain h => exact if_neg h
  | simple h => exact if_pos h
  | escaped h hu => exact (if_neg h).trans (if_neg hu)
  | @unicode hs hhs hlen =>
    refine (@lex_payload_digits 0 0 hs hhs (by omega) ['}'.toNat]).1.trans ?_
    exact if_pos rfl

theorem Spellings.lex {cs ts : List ℕ} (h : Spellings cs ts) :
    Passgen.lex .init cs = some ts := by
  induction h with
  | nil => rfl
  | snoc _ hpiece ih => rw [(lex_append ih _).1, hpiece.lex, Option.map_some]

/-- Where the codepoint `c` takes the tokenizer: it completes the spelling of a token, or it is one
more of an escape. -/
def Advances (esc : List ℕ) (c : ℕ) (cs ts : List ℕ) : Prop :=
  (∃ t ts', Spelling (esc ++ [c]) t ∧ lex .init cs = some ts' ∧ ts = t :: ts') ∨
    ∃ lexer', Reading lexer' (esc ++ [c]) ∧ lex lexer' cs = some ts

section Advances

variable {esc cs ts : List ℕ} {c t : ℕ} {lexer : Lexer}

theorem Advances.token (hspelling : Spelling (esc ++ [c]) t)
    (hlex : (lex .init cs).map (t :: ·) = some ts) : Advances esc c cs ts := by
  obtain ⟨ts', hts', rfl⟩ := Option.map_eq_some_iff.mp hlex
  exact .inl ⟨t, ts', hspelling, hts', rfl⟩

theorem Advances.payload {n codepoint : ℕ} (h : Reading (.payload n codepoint) esc)
    (hlex : lex (.payload n codepoint) (c :: cs) = some ts) :
    Advances esc c cs ts := by
  rw [lex] at hlex
  split at hlex
  · rename_i hend
    obtain ⟨hs, rfl, hhs, hlength, hle, rfl⟩ := h.digits
    refine .token ?_ hlex
    rw [hend]
    exact .unicode hhs (by omega)
  split at hlex
  · exact absurd hlex (by simp)
  · rename_i hlong
    cases hhex : hexDecode c with
    | none =>
      rw [hhex] at hlex
      exact absurd hlex (by simp)
    | some decoded =>
      rw [hhex] at hlex
      exact .inr ⟨_, h.digit (Nat.le_of_not_gt hlong) hhex, hlex⟩

/-- **One codepoint of what lexes.** -/
theorem Reading.advances (h : Reading lexer esc) (hlex : lex lexer (c :: cs) = some ts) :
    Advances esc c cs ts := by
  have hread := h
  cases h with
  | init =>
    rw [lex] at hlex
    split at hlex
    · rename_i hc
      rw [hc]
      exact .inr ⟨.escaped, .escaped, hlex⟩
    · rename_i hc
      exact .token (.plain hc) hlex
  | escaped =>
    rw [lex] at hlex
    split at hlex
    · rename_i hsimple
      exact .token (.simple hsimple) hlex
    rename_i hsimple
    split at hlex
    · rename_i hc
      rw [hc]
      exact .inr ⟨.unicode, .unicode, hlex⟩
    · rename_i hc
      exact .token (.escaped hsimple hc) hlex
  | unicode =>
    rw [lex] at hlex
    split at hlex
    · rename_i hc
      rw [hc]
      exact .inr ⟨_, .brace, hlex⟩
    · exact absurd hlex (by simp)
  | brace => exact .payload hread hlex
  | digit => exact .payload hread hlex

end Advances

/-- What lexes is spelled. -/
theorem spellings_of_lex {lexer : Lexer} {pre ts₀ esc cs ts : List ℕ} (hpre : Spellings pre ts₀)
    (h : Reading lexer esc) (hlex : lex lexer cs = some ts) :
    Spellings (pre ++ (esc ++ cs)) (ts₀ ++ ts) := by
  induction cs generalizing lexer pre ts₀ esc ts with
  | nil =>
    cases h with
    | init =>
      obtain rfl := Option.some.inj hlex
      rwa [List.append_nil, List.append_nil, List.append_nil]
    | _ => exact absurd hlex (by simp [lex])
  | cons c cs ih =>
    rcases h.advances hlex with ⟨t, ts', hspelling, hrest, rfl⟩ | ⟨lexer', hreading, hrest⟩
    · simpa using ih (hpre.snoc hspelling) .init hrest
    · simpa using ih hpre hreading hrest

/-- **Lexing is reading spellings.** -/
theorem spellings_iff {cs ts : List ℕ} : Spellings cs ts ↔ lex .init cs = some ts :=
  ⟨Spellings.lex, spellings_of_lex .nil .init⟩

/-- Each token stands behind others, and is spelled there. -/
theorem Spellings.mem {cs ts : List ℕ} (h : Spellings cs ts) {t : ℕ} (ht : t ∈ ts) :
    ∃ before piece after ts', cs = before ++ (piece ++ after) ∧ Spellings before ts' ∧
      Spelling piece t := by
  induction h with
  | nil => exact absurd ht List.not_mem_nil
  | @snoc cs ts piece u h hpiece ih =>
    rcases List.mem_append.mp ht with ht | ht
    · obtain ⟨before, piece', after, ts', rfl, hbefore, hpiece'⟩ := ih ht
      exact ⟨before, piece', after ++ piece, ts', by simp, hbefore, hpiece'⟩
    · obtain rfl := List.mem_singleton.mp ht
      exact ⟨cs, piece, [], ts, by simp, h, hpiece⟩

/-! ## The tokenizer, fed -/

/-- What the tokenizer and the token are after `inputs`, codepoints with their widths. -/
def tokenAfter (s : TokenParser × Token) (inputs : List (ℕ × ℕ)) : TokenParser × Token :=
  inputs.foldl (fun s input => tokenParse s.1 s.2 input.2 input.1) s

/-- The tokens that `passgen_token_parse` returns `PASSGEN_TOKEN_INIT` with. -/
def tokensOut (s : TokenParser × Token) : List (ℕ × ℕ) → List Token
  | [] => []
  | input :: inputs =>
    let s := tokenParse s.1 s.2 input.2 input.1
    if s.1.state = .init then s.2 :: tokensOut s inputs else tokensOut s inputs

section Fed

variable {s : TokenParser × Token}

theorem tokensOut_append (a b : List (ℕ × ℕ)) :
    tokensOut s (a ++ b) = tokensOut s a ++ tokensOut (tokenAfter s a) b := by
  induction a generalizing s with
  | nil => rfl
  | cons input a ih =>
    rw [List.cons_append, tokensOut, tokensOut, tokenAfter, List.foldl_cons, ← tokenAfter]
    split
    · rw [ih, List.cons_append]
    · exact ih

/-- **What is fed is lexed**: tokens are completed, and none is being read at the end exactly when
all of it lexes. -/
theorem lex_tokenAfter (inputs : List (ℕ × ℕ)) :
    (tokensOut s inputs).map Token.codepoint = completed s.1.lexer (inputs.map Prod.fst) ∧
      ((tokenAfter s inputs).1.state = .init ↔
        (lex s.1.lexer (inputs.map Prod.fst)).isSome) := by
  induction inputs generalizing s with
  | nil =>
    refine ⟨(completed_nil _).symm, ?_⟩
    rcases s with ⟨⟨state, offset, byteOffset, length, codepoint⟩, token⟩
    cases state <;> simp [tokenAfter, TokenParser.lexer, lex]
  | cons input inputs ih =>
    obtain ⟨htokens, hinit⟩ := @ih (tokenParse s.1 s.2 input.2 input.1)
    rw [List.map_cons, completed_tokenParse s.1 s.2 input.1 input.2,
      lex_tokenParse s.1 s.2 input.1 input.2, tokensOut, tokenAfter, List.foldl_cons, ← tokenAfter]
    dsimp only
    split
    · rw [List.map_cons, htokens]
      exact ⟨rfl, by rwa [Option.isSome_map]⟩
    · exact ⟨htokens, hinit⟩

end Fed

/-! ## Unicode -/

/-- The tokenizer in its initial state. -/
abbrev tokenStart : TokenParser × Token := (.zero, .zero)

/-- The sequence yields only Unicode: every token is a codepoint once its mark is removed; an escape
for a codepoint yields it, and one for more an error; and no token is yielded after an error. -/
structure YieldsUnicode (inputs : List (ℕ × ℕ)) : Prop where
  codepoints : ∀ token ∈ tokensOut tokenStart inputs, clearEscaped token.codepoint ≤ 0x10FFFF
  escapes : ∀ before esc after hs, inputs = before ++ esc ++ after →
    (tokenAfter tokenStart before).1.state = .init → esc.map Prod.fst = unicodeEscape hs →
    (∀ h ∈ hs, (hexDecode h).isSome) → 1 ≤ hs.length → hs.length ≤ 6 →
      if hexFrom 0 hs ≤ 0x10FFFF then
        (tokensOut (tokenAfter tokenStart before) esc).map Token.codepoint = [hexFrom 0 hs] ∧
          (tokenAfter tokenStart (before ++ esc)).1.state = .init
      else (tokenAfter tokenStart (before ++ esc)).1.state.IsError
  stopped : ∀ before after, inputs = before ++ after →
    (tokenAfter tokenStart before).1.state.IsError →
      tokensOut tokenStart inputs = tokensOut tokenStart before

/-- Behind complete tokens stands a complete escape for more than the last codepoint. -/
def Exceeds (cs : List ℕ) : Prop :=
  ∃ before hs after ts, cs = before ++ (unicodeEscape hs ++ after) ∧ Spellings before ts ∧
    (∀ h ∈ hs, (hexDecode h).isSome) ∧ 1 ≤ hs.length ∧ hs.length ≤ 6 ∧ 0x10FFFF < hexFrom 0 hs

/-! ### The tokens of what does not exceed -/

theorem simpleEscaped_le (c : ℕ) : simpleEscaped c ≤ '\\'.toNat := by
  unfold simpleEscaped
  repeat' split
  all_goals decide

/-- The codepoint of a token that is spelled with codepoints, and not for more. -/
theorem Spelling.clearEscaped_le {piece : List ℕ} {t : ℕ} (h : Spelling piece t)
    (hmax : ∀ c ∈ piece, c ≤ 0x10FFFF)
    (hvalue : ∀ hs, piece = unicodeEscape hs → (∀ h ∈ hs, (hexDecode h).isSome) →
      hs.length ≤ 6 → hexFrom 0 hs ≤ 0x10FFFF) :
    clearEscaped t ≤ 0x10FFFF := by
  cases h with
  | plain =>
    have hc := hmax t (by simp)
    rwa [clearEscaped_of_lt (by omega)]
  | @simple c =>
    have hle := simpleEscaped_le c
    have hslash : '\\'.toNat = 92 := rfl
    rw [clearEscaped_of_lt (by omega)]
    omega
  | @escaped c =>
    have hc := hmax c (by simp)
    rwa [clearEscaped_escapedToken (by omega)]
  | unicode hhs hlen =>
    have hle := hvalue _ rfl hhs hlen
    rwa [clearEscaped_of_lt (by omega)]

/-- An escape takes the tokenizer from one token to the next. -/
theorem tokenAfter_escape {before esc : List (ℕ × ℕ)} {hs : List ℕ}
    (hinit : (tokenAfter tokenStart before).1.state = .init)
    (hesc : esc.map Prod.fst = unicodeEscape hs) (hhs : ∀ h ∈ hs, (hexDecode h).isSome)
    (hlen : hs.length ≤ 6) :
    (tokensOut (tokenAfter tokenStart before) esc).map Token.codepoint = [hexFrom 0 hs] ∧
      (tokenAfter tokenStart (before ++ esc)).1.state = .init := by
  have hlexer : (tokenAfter tokenStart before).1.lexer = .init := by
    rw [TokenParser.lexer, hinit]
  have hlex := (Spelling.unicode hhs hlen).lex
  obtain ⟨htokens, hstate⟩ := @lex_tokenAfter (tokenAfter tokenStart before) esc
  have hcompleted := (lex_append hlex []).2
  rw [List.append_nil, completed_nil, List.append_nil] at hcompleted
  rw [hlexer, hesc] at htokens hstate
  refine ⟨htokens.trans hcompleted, ?_⟩
  rw [tokenAfter, List.foldl_append, ← tokenAfter, ← tokenAfter, hstate, hlex]
  rfl

/-- Nothing is yielded after an error. -/
theorem tokensOut_error {s : TokenParser × Token} (herror : s.1.state.IsError)
    (inputs : List (ℕ × ℕ)) : tokensOut s inputs = [] := by
  have htokens := (@lex_tokenAfter s inputs).1
  rw [(TokenParser.lexer_eq_error_iff _).mpr herror, completed_error] at htokens
  exact List.map_eq_nil_iff.mp htokens

/-- The codepoints that complete tokens come first. -/
theorem exists_spellings (cs : List ℕ) :
    ∃ pre rest, cs = pre ++ rest ∧ Spellings pre (completed .init cs) := by
  rcases lexesOrBreaks .init cs with hlex | ⟨-, pre, rest, hsplit, hpre, -⟩
  · exact ⟨cs, [], (List.append_nil cs).symm, spellings_iff.mpr hlex⟩
  · exact ⟨pre, rest, hsplit, spellings_iff.mpr hpre⟩

theorem yieldsUnicode_of_not_exceeds {inputs : List (ℕ × ℕ)}
    (hmax : ∀ input ∈ inputs, input.1 ≤ 0x10FFFF) (h : ¬Exceeds (inputs.map Prod.fst)) :
    YieldsUnicode inputs where
  codepoints token htoken := by
    have hmem := List.mem_map_of_mem (f := Token.codepoint) htoken
    rw [(@lex_tokenAfter tokenStart inputs).1] at hmem
    obtain ⟨pre, rest, hsplit, hpre⟩ := exists_spellings (inputs.map Prod.fst)
    obtain ⟨before, piece, after, ts, rfl, hbefore, hpiece⟩ := hpre.mem hmem
    refine hpiece.clearEscaped_le (fun c hc => ?_) fun hs heq hhs hlen => ?_
    · have hc' : c ∈ inputs.map Prod.fst := by simp [hsplit, hc]
      obtain ⟨input, hinput, rfl⟩ := List.mem_map.mp hc'
      exact hmax input hinput
    · by_contra hlong
      have hne : hs ≠ [] := by
        rintro rfl
        exact hlong (by decide)
      rw [heq, List.append_assoc, List.append_assoc] at hsplit
      exact h ⟨before, hs, after ++ rest, ts, hsplit, hbefore, hhs, List.length_pos_iff.mpr hne,
        hlen, Nat.lt_of_not_le hlong⟩
  escapes before esc after hs hsplit hinit hesc hhs hlo hhi := by
    split
    · exact tokenAfter_escape hinit hesc hhs hhi
    · rename_i hlong
      obtain ⟨ts, hts⟩ := Option.isSome_iff_exists.mp ((lex_tokenAfter before).2.mp hinit)
      refine absurd ⟨before.map Prod.fst, hs, after.map Prod.fst, ts, ?_, spellings_iff.mpr hts,
        hhs, hlo, hhi, Nat.lt_of_not_le hlong⟩ h
      rw [hsplit, List.map_append, List.map_append, hesc, List.append_assoc]
  stopped before after hsplit herror := by
    rw [hsplit, tokensOut_append, tokensOut_error herror, List.append_nil]

theorem not_exceeds_of_yieldsUnicode {inputs : List (ℕ × ℕ)} (h : YieldsUnicode inputs) :
    ¬Exceeds (inputs.map Prod.fst) := by
  rintro ⟨_, hs, _, ts, hsplit, hbefore, hhs, hlo, hhi, hvalue⟩
  obtain ⟨before, rest, rfl, rfl, hrest⟩ := List.map_eq_append_iff.mp hsplit
  obtain ⟨esc, after, rfl, hesc, -⟩ := List.map_eq_append_iff.mp hrest
  have hinit : (tokenAfter tokenStart before).1.state = .init :=
    (lex_tokenAfter before).2.mpr (Option.isSome_iff_exists.mpr ⟨ts, hbefore.lex⟩)
  have herror := h.escapes before esc after hs (List.append_assoc _ _ _).symm hinit hesc hhs hlo hhi
  rw [if_neg (Nat.not_le_of_lt hvalue), (tokenAfter_escape hinit hesc hhs hhi).2] at herror
  exact herror

/-- **The tokenizer yields only Unicode exactly when no escape is written for more.** -/
theorem yieldsUnicode_iff {inputs : List (ℕ × ℕ)} (hmax : ∀ input ∈ inputs, input.1 ≤ 0x10FFFF) :
    YieldsUnicode inputs ↔ ¬Exceeds (inputs.map Prod.fst) :=
  ⟨not_exceeds_of_yieldsUnicode, yieldsUnicode_of_not_exceeds hmax⟩

/-- `é\[`. -/
theorem yieldsUnicode_iff_bracket : YieldsUnicode [(0xE9, 2), (0x5C, 1), (0x5B, 1)] ↔
    ¬Exceeds ([(0xE9, 2), (0x5C, 1), (0x5B, 1)].map Prod.fst) :=
  yieldsUnicode_iff (by decide)

/-- **One more than the last codepoint**: `\u{110000}`. -/
theorem not_yieldsUnicode_exceeds : ¬∀ inputs : List (ℕ × ℕ),
    (∀ input ∈ inputs, input.1 ≤ 0x10FFFF) → YieldsUnicode inputs := by
  intro h
  have hyields := h ((unicodeEscape [49, 49, 48, 48, 48, 48]).map (·, 1)) (by decide)
  exact absurd (hyields.codepoints ⟨0x110000, 0, 0⟩ (by decide)) (by decide)

end Passgen
