import Mathlib.Data.List.Basic
import Mathlib.Tactic.Common
import Passgen.Parser.Positions

/-!
# Parser/Located — where UTF-8 errors are reported

    ├─ 256 ─┼─ 256 ─┼─ text, then something ill-formed ─▸
                    ▪ reported here

The decoder returns before it moves a pointer, so nothing that a failing call has decoded is
counted.  `passgen_parse` decodes 256 codepoints at a time, and reports the start of the chunk the
ill-formed sequence is in (`parseRounds_invalid`): its own place only if it starts a chunk.
-/

namespace Passgen

/-- The message of `PASSGEN_UTF8_INVALID_CHAR`. -/
abbrev invalidCharacter : String := utf8Error utf8InvalidChar

/-- The error is at the first ill-formed sequence, behind `text`. -/
def Locates (e : ParseError) (text : List ℕ) : Prop :=
  e.codepoint = text.length ∧ e.byte = (utf8EncodeAll text).length

/-- The pointers are moved past what was decoded. -/
def AdvancesPast (call : Utf8Decoded) (text : List ℕ) : Prop :=
  call.advanced = text.length ∧ call.consumed = (utf8EncodeAll text).length

/-! ## The other messages -/

theorem TokenState.string_ne (state : TokenState) : state.string ≠ invalidCharacter := by
  cases state <;> decide

theorem parseCodepoint_message {front : FrontEnd} {input : ℕ × ℕ} {e : ParseError}
    (h : parseCodepoint front input = .error e) : e.message ≠ invalidCharacter := by
  rw [parseCodepoint] at h
  dsimp only at h
  split at h
  · obtain rfl := Except.error.inj h
    exact TokenState.string_ne _
  split at h
  · split at h
    · exact absurd h (by simp)
    · obtain rfl := Except.error.inj h
      exact (by decide : "invalid token" ≠ invalidCharacter)
  · exact absurd h (by simp)

theorem foldlM_message {inputs : List (ℕ × ℕ)} {front : FrontEnd} {e : ParseError}
    (h : inputs.foldlM parseCodepoint front = .error e) : e.message ≠ invalidCharacter := by
  induction inputs generalizing front with
  | nil => exact absurd h (by simp [pure, Except.pure])
  | cons input inputs ih =>
    rw [List.foldlM_cons] at h
    cases hfront : parseCodepoint front input with
    | error e' =>
      rw [hfront] at h
      exact Except.error.inj h ▸ parseCodepoint_message hfront
    | ok front' =>
      rw [hfront] at h
      exact ih h

theorem parseEnd_message {front : FrontEnd} {posTotal rawPos : ℕ} {e : ParseError}
    (h : parseEnd front posTotal rawPos = .error e) : e.message ≠ invalidCharacter := by
  rw [parseEnd] at h
  split at h
  · obtain rfl := Except.error.inj h
    exact TokenState.string_ne _
  split at h
  · exact absurd h (by simp)
  · obtain rfl := Except.error.inj h
    exact (by decide : "parsing not finished" ≠ invalidCharacter)

/-! ## The rounds -/

section Rounds

variable {rounds : ℕ} {front : FrontEnd} {posTotal rawPos : ℕ} {input : List UInt8} {text : List ℕ}
  {e : ParseError}

/-- **The start of the chunk is reported.** -/
theorem parseRounds_invalid (htext : FirstIllFormed input text)
    (h : parseRounds rounds front posTotal rawPos input = .error e)
    (hinvalid : e.message = invalidCharacter) :
    e.codepoint = posTotal + text.length / patternLen * patternLen ∧
      e.byte = rawPos
        + (utf8EncodeAll (text.take (text.length / patternLen * patternLen))).length := by
  induction rounds generalizing front posTotal rawPos input text with
  | zero =>
    obtain rfl := Except.error.inj h
    exact absurd hinvalid (by decide : "" ≠ invalidCharacter)
  | succ rounds ih =>
    rw [parseRounds] at h
    rcases Nat.lt_or_ge text.length patternLen with hlt | hge
    · obtain ⟨hret, hadvanced, hconsumed⟩ := htext.utf8Decode_invalid hlt
      rw [hret, if_pos (by decide), hadvanced, hconsumed] at h
      obtain rfl := Except.error.inj h
      rw [Nat.div_eq_of_lt hlt, Nat.zero_mul]
      exact ⟨rfl, rfl⟩
    · obtain ⟨hmore, hnext⟩ := htext.utf8Decode_more hge
      rw [hmore] at h
      dsimp only at h
      rw [if_neg (by decide)] at h
      cases hfold : ((withWidths (text.take patternLen)).take patternLen).foldlM parseCodepoint
          front with
      | error e' =>
        rw [hfold] at h
        exact absurd hinvalid (Except.error.inj h ▸ foldlM_message hfold)
      | ok front' =>
        rw [hfold] at h
        obtain ⟨hcodepoint, hbyte⟩ := ih hnext h
        have hlength : text.length / patternLen * patternLen
            = patternLen + (text.length - patternLen) / patternLen * patternLen := by
          rw [patternLen] at hge ⊢
          omega
        rw [List.length_drop] at hcodepoint hbyte
        constructor
        · rw [hcodepoint, hlength, Nat.add_assoc]
        · rw [hbyte, hlength, List.take_add, utf8EncodeAll_append, List.length_append,
            Nat.add_assoc]

/-- A string rejected for its encoding does not decode. -/
theorem decodeAll_of_invalid
    (h : parseRounds rounds front posTotal rawPos input = .error e)
    (hinvalid : e.message = invalidCharacter) : (decodeAll input).1 = false := by
  induction rounds generalizing front posTotal rawPos input with
  | zero =>
    obtain rfl := Except.error.inj h
    exact absurd hinvalid (by decide : "" ≠ invalidCharacter)
  | succ rounds ih =>
    rw [parseRounds, utf8Decode] at h
    rcases hloop : utf8DecodeLoop patternLen utf8Accept 0 0 input with ⟨ok, written, consumed⟩
    rw [hloop] at h
    cases ok with
    | false => exact decodeAll_reject (congrArg Prod.fst hloop)
    | true =>
      simp only [if_true] at h
      rw [if_neg (by split <;> simp)] at h
      rw [decodeAll_chunk hloop]
      cases hfold : (written.take written.length).foldlM parseCodepoint front with
      | error e' =>
        rw [hfold] at h
        exact absurd hinvalid (Except.error.inj h ▸ foldlM_message hfold)
      | ok front' =>
        rw [hfold] at h
        change (if _ then _ else _) = Except.error e at h
        split at h
        · exact ih h
        · exact absurd hinvalid (parseEnd_message h)

end Rounds

/-! ## Errors located -/

/-- **UTF-8 errors are located exactly when the ill-formed sequence starts a chunk**: a string that
is rejected for one has a first one, and the error is there exactly when a multiple of 256
codepoints is in front.  The decoder, on an input it rejects, moves its pointers past what is in
front of the ill-formed sequence exactly when nothing is. -/
theorem located_iff {string : List UInt8} {e : ParseError} (h : parse string = .error e)
    (hinvalid : e.message = invalidCharacter) :
    (∃ text, FirstIllFormed string text) ∧
    (∀ text, FirstIllFormed string text → (Locates e text ↔ patternLen ∣ text.length)) ∧
    ∀ (outputLen : ℕ) (input : List UInt8) (text : List ℕ),
      (utf8Decode outputLen input).ret = utf8InvalidChar → FirstIllFormed input text →
        (AdvancesPast (utf8Decode outputLen input) text ↔ text = []) := by
  refine ⟨?_, fun text htext => ?_, fun outputLen input text hret htext => ?_⟩
  · have hreject := decodeAll_of_invalid h hinvalid
    obtain ⟨text, htext, -⟩ := exists_firstIllFormed hreject
    exact ⟨text, htext⟩
  · obtain ⟨hcodepoint, hbyte⟩ := parseRounds_invalid htext h hinvalid
    rw [Nat.zero_add] at hcodepoint hbyte
    rw [Locates, hcodepoint, hbyte]
    constructor
    · rintro ⟨hmul, -⟩
      exact ⟨_, by rw [Nat.mul_comm]; exact hmul.symm⟩
    · intro hdvd
      rw [Nat.div_mul_cancel hdvd, List.take_length]
      exact ⟨rfl, rfl⟩
  · have hroom : text.length < outputLen := by
      by_contra hle
      rw [(htext.utf8Decode_more (Nat.le_of_not_lt hle)).1] at hret
      exact absurd hret (by decide : utf8OutputSize ≠ utf8InvalidChar)
    obtain ⟨-, hadvanced, hconsumed⟩ := htext.utf8Decode_invalid hroom
    rw [AdvancesPast, hadvanced, hconsumed]
    constructor
    · rintro ⟨hlength, -⟩
      exact List.length_eq_zero_iff.mp hlength.symm
    · rintro rfl
      exact ⟨rfl, rfl⟩

/-- `éaa`, and a byte no encoding has. -/
theorem located_accent :
    Locates ⟨invalidCharacter, 0, 0⟩ [0xE9, 0x61, 0x61] ↔
      patternLen ∣ [0xE9, 0x61, 0x61].length :=
  (@located_iff [0xC3, 0xA9, 0x61, 0x61, 0xFF] _ rfl rfl).2.1 [0xE9, 0x61, 0x61]
    ⟨by decide, [0xFF], by decide, illFormed_of_reject (by decide)⟩

/-- **Reported at the start of its chunk**: in `aa` and a byte no encoding has, offset 0 is given.
-/
theorem not_located_third :
    ¬∀ (string : List UInt8) (e : ParseError) (text : List ℕ), parse string = .error e →
      e.message = invalidCharacter → FirstIllFormed string text → Locates e text := by
  intro h
  have htext : FirstIllFormed [0x61, 0x61, 0xFF] [0x61, 0x61] :=
    ⟨by decide, [0xFF], by decide, illFormed_of_reject (by decide)⟩
  exact absurd (h _ ⟨invalidCharacter, 0, 0⟩ _ rfl rfl htext).1 (by decide)

end Passgen
