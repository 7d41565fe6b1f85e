import Mathlib.Data.Nat.Bitwise
import Mathlib.Data.List.Basic
import Mathlib.Tactic.Common
import Mathlib.Tactic.Ring

/-!
# Util/Utf8 — the UTF-8 decoder and encoder

The decoder is a table-driven automaton over nine states; the encoder decides by magnitude.
`utf8DecodeLoop_encode` joins them: the encoding of a scalar value takes the automaton from its
accepting state back to it, and writes that value and its width.
-/

namespace Passgen

/-! ## The automaton -/

/-- `utf8d`: the class of each byte, then the transition of each state on each class. -/
def utf8d : List ℕ :=
  [0, 0, 0, 0, 0, 0, 0, 0, 0, 0, 0, 0, 0, 0, 0, 0, 0, 0, 0, 0, 0, 0, 0, 0, 0, 0, 0, 0, 0, 0, 0, 0,
   0, 0, 0, 0, 0, 0, 0, 0, 0, 0, 0, 0, 0, 0, 0, 0, 0, 0, 0, 0, 0, 0, 0, 0, 0, 0, 0, 0, 0, 0, 0, 0,
   0, 0, 0, 0, 0, 0, 0, 0, 0, 0, 0, 0, 0, 0, 0, 0, 0, 0, 0, 0, 0, 0, 0, 0, 0, 0, 0, 0, 0, 0, 0, 0,
   0, 0, 0, 0, 0, 0, 0, 0, 0, 0, 0, 0, 0, 0, 0, 0, 0, 0, 0, 0, 0, 0, 0, 0, 0, 0, 0, 0, 0, 0, 0, 0,
   1, 1, 1, 1, 1, 1, 1, 1, 1, 1, 1, 1, 1, 1, 1, 1, 9, 9, 9, 9, 9, 9, 9, 9, 9, 9, 9, 9, 9, 9, 9, 9,
   7, 7, 7, 7, 7, 7, 7, 7, 7, 7, 7, 7, 7, 7, 7, 7, 7, 7, 7, 7, 7, 7, 7, 7, 7, 7, 7, 7, 7, 7, 7, 7,
   8, 8, 2, 2, 2, 2, 2, 2, 2, 2, 2, 2, 2, 2, 2, 2, 2, 2, 2, 2, 2, 2, 2, 2, 2, 2, 2, 2, 2, 2, 2, 2,
   0xa, 0x3, 0x3, 0x3, 0x3, 0x3, 0x3, 0x3, 0x3, 0x3, 0x3, 0x3, 0x3, 0x4, 0x3, 0x3,
   0xb, 0x6, 0x6, 0x6, 0x5, 0x8, 0x8, 0x8, 0x8, 0x8, 0x8, 0x8, 0x8, 0x8, 0x8, 0x8,
   0x0, 0x1, 0x2, 0x3, 0x5, 0x8, 0x7, 0x1, 0x1, 0x1, 0x4, 0x6, 0x1, 0x1, 0x1, 0x1,
   1, 1, 1, 1, 1, 1, 1, 1, 1, 1, 1, 1, 1, 1, 1, 1, 1, 0, 1, 1, 1, 1, 1, 0, 1, 0, 1, 1, 1, 1, 1, 1,
   1, 2, 1, 1, 1, 1, 1, 2, 1, 2, 1, 1, 1, 1, 1, 1, 1, 1, 1, 1, 1, 1, 1, 2, 1, 1, 1, 1, 1, 1, 1, 1,
   1, 2, 1, 1, 1, 1, 1, 1, 1, 2, 1, 1, 1, 1, 1, 1, 1, 1, 1, 1, 1, 1, 1, 3, 1, 3, 1, 1, 1, 1, 1, 1,
   1, 3, 1, 1, 1, 1, 1, 3, 1, 3, 1, 1, 1, 1, 1, 1, 1, 3, 1, 1, 1, 1, 1, 1, 1, 1, 1, 1, 1, 1, 1, 1]

/-- `UTF8_ACCEPT`: between two codepoints. -/
abbrev utf8Accept : ℕ := 0

/-- `UTF8_REJECT`. -/
abbrev utf8Reject : ℕ := 1

/-- `utf8_decode`: from the state and the codepoint gathered so far, the next of each. -/
def utf8DecodeByte (state codep : ℕ) (byte : UInt8) : ℕ × ℕ :=
  let type := utf8d.getD byte.toNat 0
  (utf8d.getD (256 + state * 16 + type) 0,
    if state ≠ utf8Accept then (byte.toNat &&& 0x3f) ||| (codep <<< 6)
    else (0xff >>> type) &&& byte.toNat)

/-- What a call of `passgen_utf8_decode` did: its return value, the codepoints and widths it wrote,
and how far it moved the input pointer.  `*output` moves by `advanced`. -/
structure Utf8Decoded where
  ret : ℤ
  written : List (ℕ × ℕ)
  advanced : ℕ
  consumed : ℕ

/-- `PASSGEN_UTF8_OUTPUT_SIZE`. -/
abbrev utf8OutputSize : ℤ := 1

/-- `PASSGEN_UTF8_SUCCESS`. -/
abbrev utf8Success : ℤ := 0

/-- `PASSGEN_UTF8_INVALID_CHAR`. -/
abbrev utf8InvalidChar : ℤ := -1

/-- The loop of `passgen_utf8_decode`: whether it ended without a rejection, the codepoints it wrote
with their widths, and the bytes it went over.  `room` is what is left of the output. -/
def utf8DecodeLoop : ℕ → ℕ → ℕ → ℕ → List UInt8 → Bool × List (ℕ × ℕ) × ℕ
  | _, _, _, _, [] => (true, [], 0)
  | room, state, codep, width, byte :: input =>
    if room = 0 then (true, [], 0)
    else
      let (state', codep') := utf8DecodeByte state codep byte
      if state' = utf8Reject then (false, [], 0)
      else if state' = utf8Accept then
        let (ok, written, consumed) := utf8DecodeLoop (room - 1) utf8Accept 0 0 input
        (ok, (codep', width + 1) :: written, consumed + 1)
      else
        let (ok, written, consumed) := utf8DecodeLoop room state' codep' (width + 1) input
        (ok, written, consumed + 1)

/-- `passgen_utf8_decode`.  A rejection returns before either pointer is moved. -/
def utf8Decode (outputLen : ℕ) (input : List UInt8) : Utf8Decoded :=
  let (ok, written, consumed) := utf8DecodeLoop outputLen utf8Accept 0 0 input
  if ok then
    { ret := if consumed ≠ input.length then utf8OutputSize else utf8Success
      written := written
      advanced := written.length
      consumed := consumed }
  else { ret := utf8InvalidChar, written := written, advanced := 0, consumed := 0 }

/-- `passgen_utf8_error`. -/
def utf8Error (ret : ℤ) : String :=
  if ret = utf8InvalidChar then "invalid character"
  else if ret = utf8Success then "success"
  else if ret = utf8OutputSize then "output size too small"
  else "unknown"

/-- `passgen_utf8_encode_codepoint`: the bytes written, or `none` for
`PASSGEN_UTF8_INVALID_CHAR`. -/
def utf8EncodeCodepoint (utf : ℕ) : Option (List UInt8) :=
  if utf ≤ 0x7F then
    some [.ofNat utf]
  else if utf ≤ 0x07FF then
    some [.ofNat (((utf >>> 6) &&& 0x1F) ||| 0xC0), .ofNat (((utf >>> 0) &&& 0x3F) ||| 0x80)]
  else if utf ≤ 0xFFFF then
    some [.ofNat (((utf >>> 12) &&& 0x0F) ||| 0xE0), .ofNat (((utf >>> 6) &&& 0x3F) ||| 0x80),
      .ofNat (((utf >>> 0) &&& 0x3F) ||| 0x80)]
  else if utf ≤ 0x10FFFF then
    some [.ofNat (((utf >>> 18) &&& 0x07) ||| 0xF0), .ofNat (((utf >>> 12) &&& 0x3F) ||| 0x80),
      .ofNat (((utf >>> 6) &&& 0x3F) ||| 0x80), .ofNat (((utf >>> 0) &&& 0x3F) ||| 0x80)]
  else none

/-! ## The encoding, in arithmetic -/

/-- A Unicode scalar value: a codepoint that is not a surrogate. -/
def IsScalar (c : ℕ) : Prop := c ≤ 0x10FFFF ∧ ¬ (0xD800 ≤ c ∧ c ≤ 0xDFFF)

instance : DecidablePred IsScalar := fun _ => inferInstanceAs (Decidable (_ ∧ _))

/-- The continuation byte carrying the six bits `x`. -/
def contByte (x : ℕ) : UInt8 := .ofNat (0x80 + x % 64)

theorem and_shiftRight_mod (utf s k : ℕ) : (utf >>> s) &&& (2 ^ k - 1) = utf / 2 ^ s % 2 ^ k := by
  rw [Nat.shiftRight_eq_div_pow, Nat.and_two_pow_sub_one_eq_mod]

theorem contByte_eq (utf s : ℕ) :
    UInt8.ofNat (((utf >>> s) &&& 0x3F) ||| 0x80) = contByte (utf / 2 ^ s) := by
  have hor : ∀ x < 64, x ||| 0x80 = 0x80 + x := by decide
  have hand := and_shiftRight_mod utf s 6
  simp only [Nat.reducePow, Nat.reduceSub] at hand
  rw [hand, hor _ (Nat.mod_lt _ (by decide)), contByte]

/-- The leading bytes, as the sums the encoder's masks amount to. -/
theorem leadByte_eq (utf s k : ℕ) {lead : ℕ} (hk : utf / 2 ^ s < 2 ^ k)
    (hor : ∀ x < 2 ^ k, x ||| lead = lead + x) :
    ((utf >>> s) &&& (2 ^ k - 1)) ||| lead = lead + utf / 2 ^ s := by
  rw [and_shiftRight_mod, Nat.mod_eq_of_lt hk, hor _ hk]

theorem encode_one {c : ℕ} (h : c ≤ 0x7F) : utf8EncodeCodepoint c = some [.ofNat c] := by
  rw [utf8EncodeCodepoint, if_pos h]

theorem encode_two {c : ℕ} (h₁ : 0x7F < c) (h₂ : c ≤ 0x7FF) :
    utf8EncodeCodepoint c = some [.ofNat (0xC0 + c / 2 ^ 6), contByte c] := by
  have hor : ∀ x < 2 ^ 5, x ||| 0xC0 = 0xC0 + x := by decide
  have hlead := leadByte_eq c 6 5 (by omega) hor
  have hcont := contByte_eq c 0
  simp only [Nat.reducePow, Nat.reduceSub, Nat.div_one] at hlead hcont
  rw [utf8EncodeCodepoint, if_neg (by omega), if_pos h₂, hlead, hcont]
  rfl

theorem encode_three {c : ℕ} (h₁ : 0x7FF < c) (h₂ : c ≤ 0xFFFF) :
    utf8EncodeCodepoint c
      = some [.ofNat (0xE0 + c / 2 ^ 12), contByte (c / 2 ^ 6), contByte c] := by
  have hor : ∀ x < 2 ^ 4, x ||| 0xE0 = 0xE0 + x := by decide
  have hlead := leadByte_eq c 12 4 (by omega) hor
  have hcont := contByte_eq c 0
  simp only [Nat.reducePow, Nat.reduceSub, Nat.div_one] at hlead hcont
  rw [utf8EncodeCodepoint, if_neg (by omega), if_neg (by omega), if_pos h₂, hlead, contByte_eq,
    hcont]
  rfl

theorem encode_four {c : ℕ} (h₁ : 0xFFFF < c) (h₂ : c ≤ 0x10FFFF) :
    utf8EncodeCodepoint c
      = some [.ofNat (0xF0 + c / 2 ^ 18), contByte (c / 2 ^ 12), contByte (c / 2 ^ 6),
          contByte c] := by
  have hor : ∀ x < 2 ^ 3, x ||| 0xF0 = 0xF0 + x := by decide
  have hlead := leadByte_eq c 18 3 (by omega) hor
  have hcont := contByte_eq c 0
  simp only [Nat.reducePow, Nat.reduceSub, Nat.div_one] at hlead hcont
  rw [utf8EncodeCodepoint, if_neg (by omega), if_neg (by omega), if_neg (by omega), if_pos h₂,
    hlead, contByte_eq, contByte_eq, hcont]
  rfl

/-- The UTF-8 encoding of a scalar value. -/
def utf8Encode (c : ℕ) : List UInt8 := (utf8EncodeCodepoint c).getD []

/-! ## The automaton on encoded scalar values -/

theorem toNat_contByte (x : ℕ) : (contByte x).toNat = 0x80 + x % 64 := by
  have : x % 64 < 64 := Nat.mod_lt _ (by decide)
  rw [contByte, UInt8.toNat_ofNat', Nat.mod_eq_of_lt (by omega)]

/-- **A continuation byte appends six bits**, in the state the table prescribes. -/
theorem utf8DecodeByte_cont {state state' codep x : ℕ} (hs : state ≠ utf8Accept)
    (htable : utf8d.getD (256 + state * 16 + utf8d.getD (0x80 + x % 64) 0) 0 = state') :
    utf8DecodeByte state codep (contByte x) = (state', codep * 64 + x % 64) := by
  have hx : x % 64 < 2 ^ 6 := Nat.mod_lt _ (by decide)
  have hand : ∀ y < 64, (0x80 + y) &&& 0x3f = y := by decide
  rw [utf8DecodeByte, toNat_contByte, htable, if_pos hs, hand _ hx, Nat.lor_comm,
    ← Nat.shiftLeft_add_eq_or_of_lt hx, Nat.shiftLeft_eq]

/-- One more byte of a codepoint that is not finished yet. -/
theorem utf8DecodeLoop_more {room state codep width state' codep' : ℕ} {byte : UInt8}
    (input : List UInt8) (hroom : room ≠ 0)
    (hstep : utf8DecodeByte state codep byte = (state', codep')) (h₀ : state' ≠ utf8Accept)
    (h₁ : state' ≠ utf8Reject) :
    utf8DecodeLoop room state codep width (byte :: input)
      = ((utf8DecodeLoop room state' codep' (width + 1) input).1,
          (utf8DecodeLoop room state' codep' (width + 1) input).2.1,
          (utf8DecodeLoop room state' codep' (width + 1) input).2.2 + 1) := by
  rw [utf8DecodeLoop, if_neg hroom, hstep]
  simp only [if_neg h₁, if_neg h₀]

/-- The last byte of a codepoint. -/
theorem utf8DecodeLoop_last {room state codep width codep' : ℕ} {byte : UInt8}
    (input : List UInt8) (hroom : room ≠ 0)
    (hstep : utf8DecodeByte state codep byte = (utf8Accept, codep')) :
    utf8DecodeLoop room state codep width (byte :: input)
      = ((utf8DecodeLoop (room - 1) utf8Accept 0 0 input).1,
          (codep', width + 1) :: (utf8DecodeLoop (room - 1) utf8Accept 0 0 input).2.1,
          (utf8DecodeLoop (room - 1) utf8Accept 0 0 input).2.2 + 1) := by
  rw [utf8DecodeLoop, if_neg hroom, hstep]
  simp only [utf8Accept, utf8Reject, Nat.zero_ne_one, if_false, if_true]

/-! ### The rows of the table

One continuation byte is owed in state 2, two in state 3, three in state 7; states 4, 5, 6 and 8
follow `E0`, `ED`, `F0` and `F4` and restrict the byte after it. -/

theorem utf8d_owed : ∀ x < 64,
    utf8d.getD (256 + 2 * 16 + utf8d.getD (0x80 + x) 0) 0 = utf8Accept ∧
    utf8d.getD (256 + 3 * 16 + utf8d.getD (0x80 + x) 0) 0 = 2 ∧
    utf8d.getD (256 + 7 * 16 + utf8d.getD (0x80 + x) 0) 0 = 3 := by decide +kernel

theorem utf8d_restricted : ∀ x < 64,
    (32 ≤ x → utf8d.getD (256 + 4 * 16 + utf8d.getD (0x80 + x) 0) 0 = 2) ∧
    (x < 32 → utf8d.getD (256 + 5 * 16 + utf8d.getD (0x80 + x) 0) 0 = 2) ∧
    (16 ≤ x → utf8d.getD (256 + 6 * 16 + utf8d.getD (0x80 + x) 0) 0 = 3) ∧
    (x < 16 → utf8d.getD (256 + 8 * 16 + utf8d.getD (0x80 + x) 0) 0 = 3) := by decide +kernel

/-- Leading bytes of two-byte encodings. -/
theorem utf8d_lead_two : ∀ x < 32, 2 ≤ x →
    utf8DecodeByte utf8Accept 0 (.ofNat (0xC0 + x)) = (2, x) := by decide +kernel

/-- Leading bytes of three-byte encodings; `E0` and `ED` have states of their own. -/
theorem utf8d_lead_three : ∀ x < 16,
    utf8DecodeByte utf8Accept 0 (.ofNat (0xE0 + x))
      = (if x = 0 then 4 else if x = 13 then 5 else 3, x) := by decide +kernel

/-- Leading bytes of four-byte encodings; `F0` and `F4` have states of their own. -/
theorem utf8d_lead_four : ∀ x < 5,
    utf8DecodeByte utf8Accept 0 (.ofNat (0xF0 + x))
      = (if x = 0 then 6 else if x = 4 then 8 else 7, x) := by decide +kernel

theorem utf8d_ascii : ∀ x < 128,
    utf8DecodeByte utf8Accept 0 (.ofNat x) = (utf8Accept, x) := by decide +kernel

section Tails

variable {room codep width x : ℕ} (input : List UInt8) (hroom : room ≠ 0)
include hroom

/-- One owed continuation byte completes the codepoint. -/
theorem utf8DecodeLoop_tail_one :
    utf8DecodeLoop room 2 codep width (contByte x :: input)
      = ((utf8DecodeLoop (room - 1) utf8Accept 0 0 input).1,
          (codep * 64 + x % 64, width + 1)
            :: (utf8DecodeLoop (room - 1) utf8Accept 0 0 input).2.1,
          (utf8DecodeLoop (room - 1) utf8Accept 0 0 input).2.2 + 1) :=
  utf8DecodeLoop_last input hroom
    (utf8DecodeByte_cont (by decide) (utf8d_owed _ (Nat.mod_lt _ (by decide))).1)

/-- Two continuation bytes, the first of them accepted in state `s`. -/
theorem utf8DecodeLoop_tail_two {s y : ℕ} (hs : s ≠ utf8Accept)
    (htable : utf8d.getD (256 + s * 16 + utf8d.getD (0x80 + y % 64) 0) 0 = 2) :
    utf8DecodeLoop room s codep width (contByte y :: contByte x :: input)
      = ((utf8DecodeLoop (room - 1) utf8Accept 0 0 input).1,
          ((codep * 64 + y % 64) * 64 + x % 64, width + 2)
            :: (utf8DecodeLoop (room - 1) utf8Accept 0 0 input).2.1,
          (utf8DecodeLoop (room - 1) utf8Accept 0 0 input).2.2 + 2) := by
  rw [utf8DecodeLoop_more _ hroom (utf8DecodeByte_cont hs htable) (by decide) (by decide),
    utf8DecodeLoop_tail_one input hroom]

/-- Three continuation bytes, the first of them accepted in state `s`. -/
theorem utf8DecodeLoop_tail_three {s y z : ℕ} (hs : s ≠ utf8Accept)
    (htable : utf8d.getD (256 + s * 16 + utf8d.getD (0x80 + z % 64) 0) 0 = 3) :
    utf8DecodeLoop room s codep width (contByte z :: contByte y :: contByte x :: input)
      = ((utf8DecodeLoop (room - 1) utf8Accept 0 0 input).1,
          (((codep * 64 + z % 64) * 64 + y % 64) * 64 + x % 64, width + 3)
            :: (utf8DecodeLoop (room - 1) utf8Accept 0 0 input).2.1,
          (utf8DecodeLoop (room - 1) utf8Accept 0 0 input).2.2 + 3) := by
  rw [utf8DecodeLoop_more _ hroom (utf8DecodeByte_cont hs htable) (by decide) (by decide),
    utf8DecodeLoop_tail_two input hroom (by decide)
      (utf8d_owed _ (Nat.mod_lt _ (by decide))).2.1]

end Tails

/-- The loop reads the encoding of `c`, with its width, and is back in its accepting state for what
follows. -/
def ReadsEncoding (room c : ℕ) (input : List UInt8) : Prop :=
  utf8DecodeLoop room utf8Accept 0 0 (utf8Encode c ++ input)
    = ((utf8DecodeLoop (room - 1) utf8Accept 0 0 input).1,
        (c, (utf8Encode c).length)
          :: (utf8DecodeLoop (room - 1) utf8Accept 0 0 input).2.1,
        (utf8DecodeLoop (room - 1) utf8Accept 0 0 input).2.2 + (utf8Encode c).length)

section Encoding

variable {room c : ℕ} (hroom : room ≠ 0) (input : List UInt8)
include hroom

theorem readsEncoding_one (h : c ≤ 0x7F) : ReadsEncoding room c input := by
  rw [ReadsEncoding, utf8Encode, encode_one h]
  exact utf8DecodeLoop_last input hroom (utf8d_ascii c (by omega))

theorem readsEncoding_two (h₁ : 0x7F < c) (h₂ : c ≤ 0x7FF) : ReadsEncoding room c input := by
  rw [ReadsEncoding, utf8Encode, encode_two h₁ h₂]
  have hlead := utf8d_lead_two (c / 2 ^ 6) (by omega) (by omega)
  have hval : c / 2 ^ 6 * 64 + c % 64 = c := by omega
  simp only [Option.getD_some, List.cons_append, List.nil_append, List.length_cons,
    List.length_nil]
  rw [utf8DecodeLoop_more _ hroom hlead (by decide) (by decide),
    utf8DecodeLoop_tail_one _ hroom, hval]

/-- Three bytes: after `E0` and `ED` the second one is restricted. -/
theorem readsEncoding_three (h₂ : 0x7FF < c) (h₃ : c ≤ 0xFFFF)
    (hsurr : ¬ (0xD800 ≤ c ∧ c ≤ 0xDFFF)) : ReadsEncoding room c input := by
  rw [ReadsEncoding, utf8Encode, encode_three h₂ h₃]
  have hlead := utf8d_lead_three (c / 2 ^ 12) (by omega)
  have htable := utf8d_restricted (c / 2 ^ 6 % 64) (Nat.mod_lt _ (by decide))
  have howed := utf8d_owed (c / 2 ^ 6 % 64) (Nat.mod_lt _ (by decide))
  have hval : (c / 2 ^ 12 * 64 + c / 2 ^ 6 % 64) * 64 + c % 64 = c := by omega
  simp only [Option.getD_some, List.cons_append, List.nil_append, List.length_cons,
    List.length_nil]
  by_cases h0 : c / 2 ^ 12 = 0
  · rw [if_pos h0] at hlead
    rw [utf8DecodeLoop_more _ hroom hlead (by decide) (by decide),
      utf8DecodeLoop_tail_two _ hroom (by decide) (htable.1 (by omega)), hval]
  · by_cases hd : c / 2 ^ 12 = 13
    · rw [if_neg h0, if_pos hd] at hlead
      rw [utf8DecodeLoop_more _ hroom hlead (by decide) (by decide),
        utf8DecodeLoop_tail_two _ hroom (by decide) (htable.2.1 (by omega)), hval]
    · rw [if_neg h0, if_neg hd] at hlead
      rw [utf8DecodeLoop_more _ hroom hlead (by decide) (by decide),
        utf8DecodeLoop_tail_two _ hroom (by decide) howed.2.1, hval]

/-- Four bytes: after `F0` and `F4` the second one is restricted. -/
theorem readsEncoding_four (h₃ : 0xFFFF < c) (hmax : c ≤ 0x10FFFF) :
    ReadsEncoding room c input := by
  rw [ReadsEncoding, utf8Encode, encode_four h₃ hmax]
  have hlead := utf8d_lead_four (c / 2 ^ 18) (by omega)
  have htable := utf8d_restricted (c / 2 ^ 12 % 64) (Nat.mod_lt _ (by decide))
  have howed := utf8d_owed (c / 2 ^ 12 % 64) (Nat.mod_lt _ (by decide))
  have hval : ((c / 2 ^ 18 * 64 + c / 2 ^ 12 % 64) * 64 + c / 2 ^ 6 % 64) * 64 + c % 64
      = c := by omega
  simp only [Option.getD_some, List.cons_append, List.nil_append, List.length_cons,
    List.length_nil]
  by_cases h0 : c / 2 ^ 18 = 0
  · rw [if_pos h0] at hlead
    rw [utf8DecodeLoop_more _ hroom hlead (by decide) (by decide),
      utf8DecodeLoop_tail_three _ hroom (by decide) (htable.2.2.1 (by omega)), hval]
  · by_cases h4 : c / 2 ^ 18 = 4
    · rw [if_neg h0, if_pos h4] at hlead
      rw [utf8DecodeLoop_more _ hroom hlead (by decide) (by decide),
        utf8DecodeLoop_tail_three _ hroom (by decide) (htable.2.2.2 (by omega)), hval]
    · rw [if_neg h0, if_neg h4] at hlead
      rw [utf8DecodeLoop_more _ hroom hlead (by decide) (by decide),
        utf8DecodeLoop_tail_three _ hroom (by decide) howed.2.2, hval]

end Encoding

/-- **The encoding of a scalar value decodes to it.** -/
theorem utf8DecodeLoop_encode {room c : ℕ} (hroom : room ≠ 0) (hc : IsScalar c)
    (input : List UInt8) : ReadsEncoding room c input := by
  obtain ⟨hmax, hsurr⟩ := hc
  rcases Nat.lt_or_ge 0x7F c with h₁ | h₁
  · rcases Nat.lt_or_ge 0x7FF c with h₂ | h₂
    · rcases Nat.lt_or_ge 0xFFFF c with h₃ | h₃
      · exact readsEncoding_four hroom input h₃ hmax
      · exact readsEncoding_three hroom input h₂ h₃ hsurr
    · exact readsEncoding_two hroom input h₁ h₂
  · exact readsEncoding_one hroom input h₁

/-! ## Chunks of the input -/

section Decode

variable {room state codep width : ℕ}

theorem utf8DecodeLoop_zero (input : List UInt8) :
    utf8DecodeLoop 0 state codep width input = (true, [], 0) := by
  cases input with
  | nil => rfl
  | cons byte input => rw [utf8DecodeLoop, if_pos rfl]

/-- One byte of the loop. -/
theorem utf8DecodeLoop_cons (byte : UInt8) (input : List UInt8) (hroom : room ≠ 0) :
    utf8DecodeLoop room state codep width (byte :: input) =
      if (utf8DecodeByte state codep byte).1 = utf8Reject then (false, [], 0)
      else if (utf8DecodeByte state codep byte).1 = utf8Accept then
        ((utf8DecodeLoop (room - 1) utf8Accept 0 0 input).1,
          ((utf8DecodeByte state codep byte).2, width + 1)
            :: (utf8DecodeLoop (room - 1) utf8Accept 0 0 input).2.1,
          (utf8DecodeLoop (room - 1) utf8Accept 0 0 input).2.2 + 1)
      else
        ((utf8DecodeLoop room (utf8DecodeByte state codep byte).1
            (utf8DecodeByte state codep byte).2 (width + 1) input).1,
          (utf8DecodeLoop room (utf8DecodeByte state codep byte).1
            (utf8DecodeByte state codep byte).2 (width + 1) input).2.1,
          (utf8DecodeLoop room (utf8DecodeByte state codep byte).1
            (utf8DecodeByte state codep byte).2 (width + 1) input).2.2 + 1) := by
  rw [utf8DecodeLoop, if_neg hroom]

/-- More room than bytes makes no difference. -/
theorem utf8DecodeLoop_room (room room' state codep width : ℕ) (input : List UInt8)
    (h : input.length ≤ room) (h' : input.length ≤ room') :
    utf8DecodeLoop room state codep width input = utf8DecodeLoop room' state codep width input := by
  induction input generalizing room room' state codep width with
  | nil => rfl
  | cons byte input ih =>
    rw [List.length_cons] at h h'
    rw [utf8DecodeLoop_cons _ _ (by omega), utf8DecodeLoop_cons _ _ (by omega),
      ih (room - 1) (room' - 1) _ _ _ (by omega) (by omega),
      ih room room' _ _ _ (by omega) (by omega)]

/-- **A chunk and the rest of the input decode as the input does**, with room for both. -/
theorem utf8DecodeLoop_append (room : ℕ) {state codep width : ℕ} (input : List UInt8) (more : ℕ)
    (hstart : room = 0 → state = utf8Accept ∧ codep = 0 ∧ width = 0)
    (hok : (utf8DecodeLoop room state codep width input).1 = true) :
    utf8DecodeLoop (room + more) state codep width input
      = (let chunk := utf8DecodeLoop room state codep width input
         let rest := utf8DecodeLoop more utf8Accept 0 0 (input.drop chunk.2.2)
         (rest.1, chunk.2.1 ++ rest.2.1, chunk.2.2 + rest.2.2)) := by
  induction input generalizing room state codep width with
  | nil => simp [utf8DecodeLoop]
  | cons byte input ih =>
    by_cases hroom : room = 0
    · obtain ⟨rfl, rfl, rfl⟩ := hstart hroom
      subst hroom
      simp [utf8DecodeLoop_zero]
    · rw [utf8DecodeLoop_cons _ _ hroom] at hok ⊢
      rw [utf8DecodeLoop_cons _ _ (by omega)]
      by_cases h₁ : (utf8DecodeByte state codep byte).1 = utf8Reject
      · rw [if_pos h₁] at hok
        exact absurd hok (by decide)
      · by_cases h₀ : (utf8DecodeByte state codep byte).1 = utf8Accept
        · simp only [if_neg h₁, if_pos h₀] at hok ⊢
          have := ih (room - 1) (fun _ => ⟨rfl, rfl, rfl⟩) hok
          rw [show room + more - 1 = room - 1 + more by omega, this]
          simp [Nat.add_right_comm]
        · simp only [if_neg h₁, if_neg h₀] at hok ⊢
          rw [ih room (fun h => absurd h hroom) hok]
          simp [Nat.add_right_comm]

/-- A rejection is not a matter of room. -/
theorem utf8DecodeLoop_reject (input : List UInt8) (more : ℕ)
    (hbad : (utf8DecodeLoop room state codep width input).1 = false) :
    (utf8DecodeLoop (room + more) state codep width input).1 = false := by
  induction input generalizing room state codep width with
  | nil => exact absurd hbad (by simp [utf8DecodeLoop])
  | cons byte input ih =>
    by_cases hroom : room = 0
    · rw [hroom, utf8DecodeLoop_zero] at hbad
      exact absurd hbad (by decide)
    · rw [utf8DecodeLoop_cons _ _ hroom] at hbad
      rw [utf8DecodeLoop_cons _ _ (by omega)]
      by_cases h₁ : (utf8DecodeByte state codep byte).1 = utf8Reject
      · rw [if_pos h₁]
      · by_cases h₀ : (utf8DecodeByte state codep byte).1 = utf8Accept
        · simp only [if_neg h₁, if_pos h₀] at hbad ⊢
          rw [show room + more - 1 = room - 1 + more by omega]
          exact ih hbad
        · simp only [if_neg h₁, if_neg h₀] at hbad ⊢
          exact ih hbad

/-- An accepting loop with room and input passes a byte. -/
theorem utf8DecodeLoop_consumed_pos {input : List UInt8} (hroom : room ≠ 0) (hne : input ≠ [])
    (hok : (utf8DecodeLoop room state codep width input).1 = true) :
    0 < (utf8DecodeLoop room state codep width input).2.2 := by
  cases input with
  | nil => exact absurd rfl hne
  | cons byte input =>
    rw [utf8DecodeLoop_cons _ _ hroom] at hok ⊢
    split at hok
    · exact absurd hok (by decide)
    · rw [if_neg (by assumption)]
      split <;> exact Nat.succ_pos _

end Decode

/-! ## Whole strings -/

/-- The UTF-8 encoding of a sequence of scalar values. -/
def utf8EncodeAll (cs : List ℕ) : List UInt8 := cs.flatMap utf8Encode

/-- The codepoints with their encoded widths, as the decoder reports them. -/
def withWidths (cs : List ℕ) : List (ℕ × ℕ) := cs.map fun c => (c, (utf8Encode c).length)

theorem length_utf8EncodeCodepoint {c : ℕ} {w : List UInt8} (h : utf8EncodeCodepoint c = some w) :
    1 ≤ w.length ∧ w.length ≤ 4 := by
  unfold utf8EncodeCodepoint at h
  split_ifs at h <;> obtain rfl := Option.some.inj h <;> simp

theorem utf8EncodeCodepoint_eq_none_iff {c : ℕ} : utf8EncodeCodepoint c = none ↔ 0x10FFFF < c := by
  unfold utf8EncodeCodepoint
  split_ifs <;> simp <;> omega

theorem utf8EncodeCodepoint_eq {c : ℕ} (h : c ≤ 0x10FFFF) :
    utf8EncodeCodepoint c = some (utf8Encode c) := by
  cases hc : utf8EncodeCodepoint c with
  | none => exact absurd (utf8EncodeCodepoint_eq_none_iff.mp hc) (Nat.not_lt_of_le h)
  | some w => rw [utf8Encode, hc, Option.getD_some]

theorem utf8Encode_ne_nil {c : ℕ} (hc : c ≤ 0x10FFFF) : utf8Encode c ≠ [] := by
  have hlength := (length_utf8EncodeCodepoint (utf8EncodeCodepoint_eq hc)).1
  exact List.ne_nil_of_length_pos hlength

/-- A scalar value takes a byte at least. -/
theorem length_le_length_utf8EncodeAll {cs : List ℕ} (hcs : ∀ c ∈ cs, IsScalar c) :
    cs.length ≤ (utf8EncodeAll cs).length := by
  induction cs with
  | nil => exact le_rfl
  | cons c cs ih =>
    have hpos := List.length_pos_iff.mpr (utf8Encode_ne_nil (hcs c (by simp)).1)
    have hrest := ih fun d hd => hcs d (by simp [hd])
    rw [utf8EncodeAll, List.flatMap_cons, List.length_append, List.length_cons, Nat.add_comm]
    exact Nat.add_le_add hpos hrest

/-- A scalar value leaves the escape bit alone. -/
theorem IsScalar.lt_escaped {c : ℕ} (hc : IsScalar c) : c < 2 ^ 30 := by
  have := hc.1
  omega

/-- **The decoder on an encoded string** takes the first `room` codepoints, whole. -/
theorem utf8DecodeLoop_encodeAll (room : ℕ) {cs : List ℕ} (hcs : ∀ c ∈ cs, IsScalar c) :
    utf8DecodeLoop room utf8Accept 0 0 (utf8EncodeAll cs)
      = (true, withWidths (cs.take room), (utf8EncodeAll (cs.take room)).length) := by
  induction cs generalizing room with
  | nil => simp [utf8EncodeAll, utf8DecodeLoop, withWidths]
  | cons c cs ih =>
    by_cases hroom : room = 0
    · subst hroom
      cases h : utf8EncodeAll (c :: cs) with
      | nil => simp [utf8DecodeLoop, withWidths, utf8EncodeAll]
      | cons b bs => simp [utf8DecodeLoop, withWidths, utf8EncodeAll]
    · obtain ⟨r, rfl⟩ := Nat.exists_eq_succ_of_ne_zero hroom
      rw [utf8EncodeAll, List.flatMap_cons, utf8DecodeLoop_encode hroom (hcs c (by simp)),
        ← utf8EncodeAll, Nat.succ_sub_one, ih r fun d hd => hcs d (by simp [hd])]
      simp only [List.take_succ_cons, withWidths, List.map_cons, utf8EncodeAll,
        List.flatMap_cons, List.length_append, Nat.add_comm]

/-- **One decoding step of an encoded string**: the codepoints that fit are written and passed, and
the return value says whether anything is left. -/
theorem utf8Decode_encodeAll (outputLen : ℕ) {cs : List ℕ} (hcs : ∀ c ∈ cs, IsScalar c) :
    utf8Decode outputLen (utf8EncodeAll cs)
      = { ret := if (utf8EncodeAll (cs.take outputLen)).length ≠ (utf8EncodeAll cs).length
            then utf8OutputSize else utf8Success
          written := withWidths (cs.take outputLen)
          advanced := (cs.take outputLen).length
          consumed := (utf8EncodeAll (cs.take outputLen)).length } := by
  rw [utf8Decode, utf8DecodeLoop_encodeAll outputLen hcs]
  simp [withWidths]

/-- Only the codepoint zero is encoded with a zero byte. -/
theorem zero_mem_utf8EncodeCodepoint {c : ℕ} {w : List UInt8} (h : utf8EncodeCodepoint c = some w) :
    0 ∈ w ↔ c = 0 := by
  have hcont : ∀ x, (0 : UInt8) ≠ contByte x := fun x h => by
    have hbyte : 0 = (contByte x).toNat := congrArg UInt8.toNat h
    rw [toNat_contByte] at hbyte
    omega
  have hlead : ∀ {b : ℕ}, 0 < b → b < 256 → (0 : UInt8) ≠ .ofNat b := fun hpos hlt h => by
    have hbyte := congrArg UInt8.toNat h
    rw [UInt8.toNat_ofNat', Nat.mod_eq_of_lt hlt] at hbyte
    exact absurd hbyte hpos.ne
  by_cases h₁ : c ≤ 0x7F
  · obtain rfl := Option.some.inj ((encode_one h₁).symm.trans h)
    rw [List.mem_singleton]
    refine ⟨fun hzero => ?_, by rintro rfl; rfl⟩
    by_contra hne
    exact hlead (Nat.pos_of_ne_zero hne) (by omega) hzero
  have hmax : c ≤ 0x10FFFF := by
    by_contra hlong
    exact absurd (h.symm.trans (utf8EncodeCodepoint_eq_none_iff.mpr (by omega))) (by simp)
  refine iff_of_false (fun hzero => ?_) (by omega)
  by_cases h₂ : c ≤ 0x7FF
  · obtain rfl := Option.some.inj ((encode_two (by omega) h₂).symm.trans h)
    simp only [List.mem_cons, hlead (b := 0xC0 + c / 2 ^ 6) (by omega) (by omega), hcont,
      List.not_mem_nil, or_false] at hzero
  by_cases h₃ : c ≤ 0xFFFF
  · obtain rfl := Option.some.inj ((encode_three (by omega) h₃).symm.trans h)
    simp only [List.mem_cons, hlead (b := 0xE0 + c / 2 ^ 12) (by omega) (by omega), hcont,
      List.not_mem_nil, or_false] at hzero
  · obtain rfl := Option.some.inj ((encode_four (by omega) hmax).symm.trans h)
    simp only [List.mem_cons, hlead (b := 0xF0 + c / 2 ^ 18) (by omega) (by omega), hcont,
      List.not_mem_nil, or_false] at hzero

end Passgen
