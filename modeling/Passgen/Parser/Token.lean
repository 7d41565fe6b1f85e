import Mathlib.Data.Nat.Bitwise
import Mathlib.Data.List.Basic
import Mathlib.Tactic.Common

/-!
# Parser/Token — the tokenizer

A token is a codepoint, or an escape sequence read as one.  An escaped codepoint that is not a
control character of its own keeps a mark, the escape bit.
-/

namespace Passgen

/-- `PASSGEN_TOKEN_ESCAPED_BIT`. -/
def tokenEscapedBit : ℕ := 1 <<< 30

/-- `~PASSGEN_TOKEN_ESCAPED_BIT`, as a `uint32_t`. -/
def tokenEscapedMask : ℕ := 0xFFFFFFFF - tokenEscapedBit

/-- `codepoint | PASSGEN_TOKEN_ESCAPED_BIT`: the codepoint of an escaped token. -/
def escapedToken (c : ℕ) : ℕ := c ||| tokenEscapedBit

/-- `passgen_token_state`. -/
inductive TokenState where
  | init
  | escaped
  | unicode
  | unicodePayload
  | errorUnicodeStart
  | errorUnicodePayload
  | errorUnicodePayloadLen
  deriving DecidableEq, Repr

namespace TokenState

/-- The negative states. -/
def IsError : TokenState → Prop
  | errorUnicodeStart | errorUnicodePayload | errorUnicodePayloadLen => True
  | _ => False

instance : DecidablePred IsError := fun s => by cases s <;> unfold IsError <;> infer_instance

/-- `passgen_token_state_string`. -/
def string : TokenState → String
  | init => "ready for parsing"
  | escaped => "parsing escaped token"
  | unicode => "parsing unicode token"
  | unicodePayload => "parsing unicode token payload"
  | errorUnicodeStart => "unexpected character while parsing unicode literal"
  | errorUnicodePayload => "unexpected character while parsing unicode literal"
  | errorUnicodePayloadLen => "unicode literal payload too long"

end TokenState

/-- `passgen_token_parser`; the payload fields mean something in state `unicodePayload` only. -/
structure TokenParser where
  state : TokenState
  offset : ℕ
  byteOffset : ℕ
  payloadLength : ℕ
  payloadCodepoint : ℕ
  deriving DecidableEq, Repr

/-- The zeroed tokenizer both front ends start from. -/
def TokenParser.zero : TokenParser := ⟨.init, 0, 0, 0, 0⟩

/-- `passgen_token`. -/
structure Token where
  codepoint : ℕ
  offset : ℕ
  byteOffset : ℕ
  deriving DecidableEq, Repr

/-- The zeroed token both front ends start from. -/
def Token.zero : Token := ⟨0, 0, 0⟩

/-- `hex_decode`; `none` is the negative result. -/
def hexDecode (c : ℕ) : Option ℕ :=
  if '0'.toNat ≤ c ∧ c ≤ '9'.toNat then some (c - '0'.toNat)
  else if 'A'.toNat ≤ c ∧ c ≤ 'F'.toNat then some (10 + c - 'A'.toNat)
  else if 'a'.toNat ≤ c ∧ c ≤ 'f'.toNat then some (10 + c - 'a'.toNat)
  else none

/-- `token_parse_init`. -/
def tokenParseInit (parser : TokenParser) (token : Token) (codepoint : ℕ) : TokenParser × Token :=
  let token := { token with offset := parser.offset, byteOffset := parser.byteOffset }
  if codepoint = '\\'.toNat then ({ parser with state := .escaped }, token)
  else ({ parser with state := .init }, { token with codepoint := codepoint })

/-- `simple_escaped`; zero where the table has no entry. -/
def simpleEscaped (codepoint : ℕ) : ℕ :=
  if codepoint = 'a'.toNat then 7
  else if codepoint = 'b'.toNat then 8
  else if codepoint = 'e'.toNat then 27
  else if codepoint = 'f'.toNat then 12
  else if codepoint = 'n'.toNat then 10
  else if codepoint = 'r'.toNat then 13
  else if codepoint = 't'.toNat then 9
  else if codepoint = 'v'.toNat then 11
  else if codepoint = '\\'.toNat then '\\'.toNat
  else 0

/-- `sizeof(simple_escaped)`: the largest designated index is that of `'v'`. -/
def simpleEscapedSize : ℕ := 'v'.toNat + 1

/-- `token_parse_escaped`. -/
def tokenParseEscaped (parser : TokenParser) (token : Token) (codepoint : ℕ) :
    TokenParser × Token :=
  if codepoint < simpleEscapedSize ∧ simpleEscaped codepoint ≠ 0 then
    ({ parser with state := .init }, { token with codepoint := simpleEscaped codepoint })
  else if codepoint = 'u'.toNat then
    ({ parser with state := .unicode }, token)
  else
    ({ parser with state := .init }, { token with codepoint := escapedToken codepoint })

/-- `token_parse_unicode`. -/
def tokenParseUnicode (parser : TokenParser) (codepoint : ℕ) : TokenParser :=
  if codepoint = '{'.toNat then
    { parser with state := .unicodePayload, payloadLength := 0, payloadCodepoint := 0 }
  else { parser with state := .errorUnicodeStart }

/-- `token_parse_unicode_payload`. -/
def tokenParseUnicodePayload (parser : TokenParser) (token : Token) (codepoint : ℕ) :
    TokenParser × Token :=
  if codepoint = '}'.toNat then
    ({ parser with state := .init }, { token with codepoint := parser.payloadCodepoint })
  else
    let parser := { parser with payloadLength := parser.payloadLength + 1 }
    if parser.payloadLength > 6 then ({ parser with state := .errorUnicodePayloadLen }, token)
    else match hexDecode codepoint with
      | none => ({ parser with state := .errorUnicodePayload }, token)
      | some decoded =>
        ({ parser with payloadCodepoint := parser.payloadCodepoint * 16 + decoded }, token)

/-- `passgen_token_parse`; the state it returns is the state of the parser it leaves. -/
def tokenParse (parser : TokenParser) (token : Token) (width codepoint : ℕ) :
    TokenParser × Token :=
  let step (r : TokenParser × Token) : TokenParser × Token :=
    ({ r.1 with offset := r.1.offset + 1, byteOffset := r.1.byteOffset + width }, r.2)
  match parser.state with
  | .init => step (tokenParseInit parser token codepoint)
  | .escaped => step (tokenParseEscaped parser token codepoint)
  | .unicode => step (tokenParseUnicode parser codepoint, token)
  | .unicodePayload => step (tokenParseUnicodePayload parser token codepoint)
  | _ => (parser, token)

/-! ## The escape bit

Below `2 ^ 30` the bit is an addend. -/

/-- `codepoint & PASSGEN_TOKEN_ESCAPED_BIT`. -/
def isEscaped (codepoint : ℕ) : Bool := codepoint &&& tokenEscapedBit ≠ 0

/-- `codepoint & ~PASSGEN_TOKEN_ESCAPED_BIT`. -/
def clearEscaped (codepoint : ℕ) : ℕ := codepoint &&& tokenEscapedMask

theorem isEscaped_iff_testBit (c : ℕ) : isEscaped c = c.testBit 30 := by
  rw [isEscaped, tokenEscapedBit, Nat.one_shiftLeft, Nat.and_two_pow]
  cases c.testBit 30 <;> simp

@[simp] theorem isEscaped_escapedToken (c : ℕ) : isEscaped (escapedToken c) = true := by
  have hbit : tokenEscapedBit.testBit 30 = true := by decide
  rw [isEscaped_iff_testBit, escapedToken, Nat.testBit_or, hbit, Bool.or_true]

theorem isEscaped_of_lt {c : ℕ} (hc : c < 2 ^ 30) : isEscaped c = false := by
  rw [isEscaped_iff_testBit, Nat.testBit_lt_two_pow hc]

theorem clearEscaped_of_lt {c : ℕ} (hc : c < 2 ^ 30) : clearEscaped c = c := by
  refine Nat.eq_of_testBit_eq fun i => ?_
  rw [clearEscaped, Nat.testBit_and]
  by_cases hi : i < 30
  · have : tokenEscapedMask.testBit i = true := by
      have hall : ∀ j < 30, tokenEscapedMask.testBit j = true := by decide
      exact hall i hi
    rw [this, Bool.and_true]
  · have : c.testBit i = false :=
      Nat.testBit_lt_two_pow (hc.trans_le (Nat.pow_le_pow_right (by decide) (not_lt.mp hi)))
    rw [this, Bool.false_and]

@[simp] theorem clearEscaped_escapedToken {c : ℕ} (hc : c < 2 ^ 30) :
    clearEscaped (escapedToken c) = c := by
  have hbit : tokenEscapedBit &&& tokenEscapedMask = 0 := by decide
  have hand : clearEscaped (escapedToken c) = clearEscaped c := by
    rw [clearEscaped, escapedToken, Nat.and_or_distrib_right, hbit, Nat.or_zero, ← clearEscaped]
  rw [hand, clearEscaped_of_lt hc]

end Passgen
