import Mathlib.Data.List.Basic
import Mathlib.Tactic.Common
import Mathlib.Tactic.Ring
import Passgen.Util.Utf8

/-!
# Util/WellFormed — what the decoder accepts

    input ─▸ encoded characters ++ the start of one more
                                   └─ empty: well-formed
                                   └─ a state that still owes bytes: accepted all the same

Each state of the automaton but the accepting one stands for the continuation bytes it owes
(`owed`); whatever they are, they complete one encoding (`Awaits`).  The loop ends with the input
and does not look at the state it ends in, so an input may stop in the middle of an encoding.
-/

namespace Passgen

/-! ## The bytes a state owes -/

/-- The states between the bytes of one encoding. -/
def owingStates : List ℕ := [2, 3, 4, 5, 6, 7, 8]

/-- The bounds on the six bits of each continuation byte a state still owes. -/
def owed : ℕ → List (ℕ × ℕ)
  | 2 => [(0, 64)]
  | 3 => [(0, 64), (0, 64)]
  | 4 => [(32, 64), (0, 64)]
  | 5 => [(0, 32), (0, 64)]
  | 6 => [(16, 64), (0, 64), (0, 64)]
  | 7 => [(0, 64), (0, 64), (0, 64)]
  | 8 => [(0, 16), (0, 64), (0, 64)]
  | _ => []

/-- Six bits for each continuation byte, within its bounds. -/
abbrev Fits (xs : List ℕ) (bounds : List (ℕ × ℕ)) : Prop :=
  List.Forall₂ (fun x b => b.1 ≤ x ∧ x < b.2) xs bounds

/-- A codepoint with six more bits for each continuation byte. -/
def gather (codep : ℕ) (xs : List ℕ) : ℕ := xs.foldl (fun c x => c * 64 + x) codep

/-- **What a state means**: any bytes it owes complete an encoding that starts with `q`. -/
structure Awaits (state codep : ℕ) (q : List UInt8) : Prop where
  owing : state ∈ owingStates
  completes : ∀ xs, Fits xs (owed state) →
    IsScalar (gather codep xs) ∧ utf8Encode (gather codep xs) = q ++ xs.map contByte

/-- The classes of the continuation bytes, and the bits they span. -/
def classBits : ℕ → ℕ × ℕ
  | 1 => (0, 16)
  | 9 => (16, 32)
  | 7 => (32, 64)
  | _ => (0, 0)

theorem utf8d_class : ∀ b < 256, utf8d.getD b 0 < 12 ∧
    (utf8d.getD b 0 ∈ [1, 7, 9] →
      0x80 + (classBits (utf8d.getD b 0)).1 ≤ b ∧ b < 0x80 + (classBits (utf8d.getD b 0)).2) := by
  decide +kernel

/-- **The transitions between owing states**: a byte that is not rejected is a continuation byte,
and the next state owes the rest… -/
theorem utf8d_owing : ∀ type < 12, ∀ state ∈ owingStates,
    utf8d.getD (256 + state * 16 + type) 0 ≠ utf8Reject →
      type ∈ [1, 7, 9] ∧
      owed state = (owed state).headD (0, 0) :: owed (utf8d.getD (256 + state * 16 + type) 0) ∧
      utf8d.getD (256 + state * 16 + type) 0 ∈ utf8Accept :: owingStates := by
  decide +kernel

/-- …and its bits are within their bounds. -/
theorem utf8d_owing_bounds : ∀ type < 12, ∀ state ∈ owingStates,
    utf8d.getD (256 + state * 16 + type) 0 ≠ utf8Reject →
      ((owed state).headD (0, 0)).1 ≤ (classBits type).1 ∧
      (classBits type).2 ≤ ((owed state).headD (0, 0)).2 ∧ (classBits type).2 ≤ 64 := by
  decide +kernel

/-- The leading bytes that are not rejected. -/
theorem utf8d_leading : ∀ b < 256, utf8d.getD (256 + utf8d.getD b 0) 0 ≠ utf8Reject →
    b < 0x80 ∨ (0xC2 ≤ b ∧ b < 0xE0) ∨ (0xE0 ≤ b ∧ b < 0xF5) := by
  decide +kernel

theorem contByte_congr {x y : ℕ} (h : x % 64 = y % 64) : contByte x = contByte y := by
  rw [contByte, contByte, h]

theorem eq_contByte {byte : UInt8} {x : ℕ} (hx : x < 64) (h : byte.toNat = 0x80 + x) :
    byte = contByte x := by
  rw [← UInt8.toNat_inj, toNat_contByte, Nat.mod_eq_of_lt hx, h]

/-- **One owed byte.** -/
theorem utf8DecodeByte_owing {state codep : ℕ} {byte : UInt8} (hs : state ∈ owingStates)
    (hok : (utf8DecodeByte state codep byte).1 ≠ utf8Reject) :
    ∃ x bounds, x < 64 ∧ byte = contByte x ∧ bounds.1 ≤ x ∧ x < bounds.2 ∧
      owed state = bounds :: owed (utf8DecodeByte state codep byte).1 ∧
      (utf8DecodeByte state codep byte).2 = codep * 64 + x ∧
      (utf8DecodeByte state codep byte).1 ∈ utf8Accept :: owingStates := by
  have hbyte := byte.toNat_lt
  obtain ⟨htype, hclass⟩ := utf8d_class byte.toNat hbyte
  obtain ⟨hcont, howed, hnext⟩ := utf8d_owing _ htype state hs hok
  obtain ⟨hlo, hhi, h64⟩ := utf8d_owing_bounds _ htype state hs hok
  obtain ⟨hlb, hub⟩ := hclass hcont
  obtain ⟨x, hx⟩ : ∃ x, byte.toNat = 0x80 + x := ⟨byte.toNat - 0x80, by omega⟩
  have hx64 : x < 64 := by omega
  have hne : state ≠ utf8Accept := by
    rintro rfl
    exact absurd hs (by decide)
  have hstep := @utf8DecodeByte_cont state _ codep x hne rfl
  rw [Nat.mod_eq_of_lt hx64, ← eq_contByte hx64 hx] at hstep
  exact ⟨x, _, hx64, eq_contByte hx64 hx, by omega, by omega, howed, by rw [hstep], hnext⟩

/-- An awaited byte is taken, and the rest is awaited. -/
theorem Awaits.step {state codep : ℕ} {q : List UInt8} {byte : UInt8} (h : Awaits state codep q)
    (hok : (utf8DecodeByte state codep byte).1 ≠ utf8Reject) :
    ((utf8DecodeByte state codep byte).1 = utf8Accept ∧
      IsScalar (utf8DecodeByte state codep byte).2 ∧
      utf8Encode (utf8DecodeByte state codep byte).2 = q ++ [byte]) ∨
    Awaits (utf8DecodeByte state codep byte).1 (utf8DecodeByte state codep byte).2
      (q ++ [byte]) := by
  obtain ⟨x, bounds, hx, hbyte, hlo, hhi, howed, hcodep, hnext⟩ :=
    utf8DecodeByte_owing h.owing hok
  have hrest : ∀ xs, Fits xs (owed (utf8DecodeByte state codep byte).1) →
      IsScalar (gather (codep * 64 + x) xs) ∧
        utf8Encode (gather (codep * 64 + x) xs) = (q ++ [byte]) ++ xs.map contByte :=
    fun xs hxs => by
    have := h.completes (x :: xs) (howed ▸ .cons ⟨hlo, hhi⟩ hxs)
    rwa [List.map_cons, ← hbyte, List.append_cons] at this
  rcases List.mem_cons.mp hnext with haccept | howing
  · left
    obtain ⟨hscalar, hencode⟩ := hrest [] (by rw [haccept]; exact .nil)
    rw [List.map_nil, List.append_nil] at hencode
    rw [hcodep]
    exact ⟨haccept, hscalar, hencode⟩
  · right
    exact ⟨howing, by rwa [hcodep]⟩

/-! ## Leading bytes -/

theorem utf8Encode_two {x y : ℕ} (hx : 2 ≤ x) (hx' : x < 32) (hy : y < 64) :
    IsScalar (x * 64 + y) ∧ utf8Encode (x * 64 + y) = [.ofNat (0xC0 + x), contByte y] := by
  refine ⟨⟨by omega, by omega⟩, ?_⟩
  rw [utf8Encode, encode_two (by omega) (by omega), Option.getD_some,
    show (x * 64 + y) / 2 ^ 6 = x by omega,
    contByte_congr (show (x * 64 + y) % 64 = y % 64 by omega)]

theorem utf8Encode_three {x y z : ℕ} (hx : x < 16) (hy : y < 64) (hz : z < 64)
    (hlow : x = 0 → 32 ≤ y) (hsurr : x = 13 → y < 32) :
    IsScalar ((x * 64 + y) * 64 + z) ∧
      utf8Encode ((x * 64 + y) * 64 + z) = [.ofNat (0xE0 + x), contByte y, contByte z] := by
  refine ⟨⟨by omega, by omega⟩, ?_⟩
  rw [utf8Encode, encode_three (by omega) (by omega), Option.getD_some,
    show ((x * 64 + y) * 64 + z) / 2 ^ 12 = x by omega,
    contByte_congr (show ((x * 64 + y) * 64 + z) / 2 ^ 6 % 64 = y % 64 by omega),
    contByte_congr (show ((x * 64 + y) * 64 + z) % 64 = z % 64 by omega)]

theorem utf8Encode_four {x y z w : ℕ} (hx : x < 5) (hy : y < 64) (hz : z < 64) (hw : w < 64)
    (hlow : x = 0 → 16 ≤ y) (hhigh : x = 4 → y < 16) :
    IsScalar (((x * 64 + y) * 64 + z) * 64 + w) ∧
      utf8Encode (((x * 64 + y) * 64 + z) * 64 + w) =
        [.ofNat (0xF0 + x), contByte y, contByte z, contByte w] := by
  refine ⟨⟨by omega, by omega⟩, ?_⟩
  rw [utf8Encode, encode_four (by omega) (by omega), Option.getD_some,
    show (((x * 64 + y) * 64 + z) * 64 + w) / 2 ^ 18 = x by omega,
    contByte_congr (show (((x * 64 + y) * 64 + z) * 64 + w) / 2 ^ 12 % 64 = y % 64 by omega),
    contByte_congr (show (((x * 64 + y) * 64 + z) * 64 + w) / 2 ^ 6 % 64 = z % 64 by omega),
    contByte_congr (show (((x * 64 + y) * 64 + z) * 64 + w) % 64 = w % 64 by omega)]

/-- A leading byte of two awaits one more, -/
theorem awaits_two {x : ℕ} (hx : 2 ≤ x) (hx' : x < 32) : Awaits 2 x [.ofNat (0xC0 + x)] where
  owing := by decide
  completes := by
    rintro _ (_ | @⟨y, _, _, _, ⟨-, hy⟩, ⟨⟩⟩)
    exact utf8Encode_two hx hx' hy

/-- one of three awaits two more, -/
theorem awaits_three {x state lo hi : ℕ} (hstate : state ∈ owingStates)
    (howed : owed state = [(lo, hi), (0, 64)]) (hx : x < 16) (hhi : hi ≤ 64)
    (hlow : x = 0 → 32 ≤ lo) (hsurr : x = 13 → hi ≤ 32) : Awaits state x [.ofNat (0xE0 + x)] where
  owing := hstate
  completes := by
    rw [howed]
    rintro _ (_ | @⟨y, _, _, _, ⟨hlo, hy⟩, (_ | @⟨z, _, _, _, ⟨-, hz⟩, ⟨⟩⟩)⟩)
    exact utf8Encode_three hx (by omega) hz (by omega) (by omega)

/-- and one of four awaits three more. -/
theorem awaits_four {x state lo hi : ℕ} (hstate : state ∈ owingStates)
    (howed : owed state = [(lo, hi), (0, 64), (0, 64)]) (hx : x < 5) (hhi : hi ≤ 64)
    (hlow : x = 0 → 16 ≤ lo) (hhigh : x = 4 → hi ≤ 16) : Awaits state x [.ofNat (0xF0 + x)] where
  owing := hstate
  completes := by
    rw [howed]
    rintro _ (_ | @⟨y, _, _, _, ⟨hlo, hy⟩,
      (_ | @⟨z, _, _, _, ⟨-, hz⟩, (_ | @⟨w, _, _, _, ⟨-, hw⟩, ⟨⟩⟩)⟩)⟩)
    exact utf8Encode_four hx (by omega) hz hw (by omega) (by omega)

theorem ofNat_of_toNat_eq {byte : UInt8} {b : ℕ} (h : byte.toNat = b) : byte = .ofNat b := by
  rw [← h, UInt8.ofNat_toNat]

/-- **A byte at the start of a codepoint** is one by itself, or others complete it. -/
theorem utf8DecodeByte_leading {byte : UInt8}
    (hok : (utf8DecodeByte utf8Accept 0 byte).1 ≠ utf8Reject) :
    ((utf8DecodeByte utf8Accept 0 byte).1 = utf8Accept ∧
      IsScalar (utf8DecodeByte utf8Accept 0 byte).2 ∧
      utf8Encode (utf8DecodeByte utf8Accept 0 byte).2 = [byte]) ∨
    Awaits (utf8DecodeByte utf8Accept 0 byte).1 (utf8DecodeByte utf8Accept 0 byte).2 [byte] := by
  have hreject : utf8d.getD (256 + utf8d.getD byte.toNat 0) 0 ≠ utf8Reject := by
    simpa [utf8DecodeByte] using hok
  rcases utf8d_leading byte.toNat byte.toNat_lt hreject with h₁ | ⟨h₂, h₂'⟩ | ⟨h₃, h₃'⟩
  · left
    have hlead := utf8d_ascii byte.toNat h₁
    rw [UInt8.ofNat_toNat] at hlead
    rw [hlead]
    refine ⟨rfl, ⟨by omega, by omega⟩, ?_⟩
    rw [utf8Encode, encode_one (by omega), Option.getD_some, UInt8.ofNat_toNat]
  · right
    obtain ⟨x, hx⟩ : ∃ x, byte.toNat = 0xC0 + x := ⟨byte.toNat - 0xC0, by omega⟩
    rw [ofNat_of_toNat_eq hx, utf8d_lead_two x (by omega) (by omega)]
    exact awaits_two (by omega) (by omega)
  · right
    rcases Nat.lt_or_ge byte.toNat 0xF0 with hlt | hge
    · obtain ⟨x, hx⟩ : ∃ x, byte.toNat = 0xE0 + x := ⟨byte.toNat - 0xE0, by omega⟩
      rw [ofNat_of_toNat_eq hx, utf8d_lead_three x (by omega)]
      split_ifs with h0 h13
      · change Awaits 4 x _
        exact awaits_three (by decide) rfl (by omega) (by decide) (by omega) (by omega)
      · change Awaits 5 x _
        exact awaits_three (by decide) rfl (by omega) (by decide) (by omega) (by omega)
      · change Awaits 3 x _
        exact awaits_three (by decide) rfl (by omega) (by decide) (by omega) (by omega)
    · obtain ⟨x, hx⟩ : ∃ x, byte.toNat = 0xF0 + x := ⟨byte.toNat - 0xF0, by omega⟩
      rw [ofNat_of_toNat_eq hx, utf8d_lead_four x (by omega)]
      split_ifs with h0 h4
      · change Awaits 6 x _
        exact awaits_four (by decide) rfl (by omega) (by decide) (by omega) (by omega)
      · change Awaits 8 x _
        exact awaits_four (by decide) rfl (by omega) (by decide) (by omega) (by omega)
      · change Awaits 7 x _
        exact awaits_four (by decide) rfl (by omega) (by decide) (by omega) (by omega)

/-! ## The loop -/

/-- The start of an encoding, possibly nothing, and not all of it. -/
def Partial (pend : List UInt8) : Prop :=
  ∃ c, IsScalar c ∧ ∃ rest ≠ [], utf8Encode c = pend ++ rest

/-- Bytes the lowest of which complete what is awaited. -/
theorem exists_fits : ∀ state ∈ owingStates,
    Fits ((owed state).map Prod.fst) (owed state) ∧ owed state ≠ [] := by
  decide

theorem Awaits.partial {state codep : ℕ} {q : List UInt8} (h : Awaits state codep q) :
    Partial q := by
  obtain ⟨hfits, hne⟩ := exists_fits state h.owing
  obtain ⟨hscalar, hencode⟩ := h.completes _ hfits
  exact ⟨_, hscalar, _, by simpa using hne, hencode⟩

theorem partial_nil : Partial [] :=
  ⟨0, by decide, utf8Encode 0, utf8Encode_ne_nil (by decide), rfl⟩

/-- Where the automaton stands with the bytes `q` of the codepoint it is in. -/
inductive Standing : ℕ → ℕ → List UInt8 → Prop
  | accept : Standing utf8Accept 0 []
  | awaits {state codep : ℕ} {q : List UInt8} : Awaits state codep q → Standing state codep q

theorem Awaits.ne_accept {state codep : ℕ} {q : List UInt8} (h : Awaits state codep q) :
    state ≠ utf8Accept := by
  rintro rfl
  exact absurd h.owing (by decide)

/-- **One byte**: it completes a codepoint, or more are awaited. -/
theorem Standing.step {state codep : ℕ} {q : List UInt8} {byte : UInt8}
    (hs : Standing state codep q) (hok : (utf8DecodeByte state codep byte).1 ≠ utf8Reject) :
    ((utf8DecodeByte state codep byte).1 = utf8Accept ∧
      IsScalar (utf8DecodeByte state codep byte).2 ∧
      utf8Encode (utf8DecodeByte state codep byte).2 = q ++ [byte]) ∨
    Awaits (utf8DecodeByte state codep byte).1 (utf8DecodeByte state codep byte).2
      (q ++ [byte]) := by
  cases hs with
  | accept => exact utf8DecodeByte_leading hok
  | awaits h => exact h.step hok

/-- **What the loop went over**: encodings, one for each codepoint it wrote, and the start of one
more. -/
theorem utf8DecodeLoop_sound {room state codep width : ℕ} {q input : List UInt8}
    (hs : Standing state codep q) (hroom : input.length ≤ room)
    (hok : (utf8DecodeLoop room state codep width input).1 = true) :
    ∃ text pend, (∀ c ∈ text, IsScalar c) ∧ Partial pend ∧
      q ++ input = utf8EncodeAll text ++ pend ∧
      (utf8DecodeLoop room state codep width input).2.1.map Prod.fst = text ∧
      (utf8DecodeLoop room state codep width input).2.2 = input.length := by
  induction input generalizing room state codep width q with
  | nil =>
    refine ⟨[], q, by simp, ?_, by simp [utf8EncodeAll], rfl, rfl⟩
    cases hs with
    | accept => exact partial_nil
    | awaits h => exact h.partial
  | cons byte input ih =>
    rw [List.length_cons] at hroom
    rw [utf8DecodeLoop_cons _ _ (by omega)] at hok ⊢
    by_cases hreject : (utf8DecodeByte state codep byte).1 = utf8Reject
    · rw [if_pos hreject] at hok
      exact absurd hok (by decide)
    · rcases hs.step hreject with ⟨haccept, hscalar, hencode⟩ | hawaits
      · simp only [if_neg hreject, if_pos haccept] at hok ⊢
        obtain ⟨text, pend, htext, hpend, hsplit, hwritten, hlen⟩ :=
          ih Standing.accept (by omega) hok
        refine ⟨_ :: text, pend, by simpa using ⟨hscalar, htext⟩, hpend, ?_,
          by rw [List.map_cons, hwritten], by rw [hlen, List.length_cons]⟩
        rw [utf8EncodeAll, List.flatMap_cons, hencode, ← utf8EncodeAll, List.append_assoc,
          ← hsplit, List.nil_append, List.append_cons]
      · simp only [if_neg hreject, if_neg hawaits.ne_accept] at hok ⊢
        obtain ⟨text, pend, htext, hpend, hsplit, hwritten, hlen⟩ :=
          ih (.awaits hawaits) (by omega) hok
        exact ⟨text, pend, htext, hpend, by rw [← hsplit, List.append_cons], hwritten,
          by rw [hlen, List.length_cons]⟩

/-- The start of what the loop accepts is accepted. -/
theorem utf8DecodeLoop_of_append {room state codep width : ℕ} {input rest : List UInt8}
    (hroom : input.length ≤ room)
    (hok : (utf8DecodeLoop room state codep width (input ++ rest)).1 = true) :
    (utf8DecodeLoop room state codep width input).1 = true := by
  induction input generalizing room state codep width with
  | nil => rfl
  | cons byte input ih =>
    rw [List.length_cons] at hroom
    rw [List.cons_append, utf8DecodeLoop_cons _ _ (by omega)] at hok
    rw [utf8DecodeLoop_cons _ _ (by omega)]
    by_cases hreject : (utf8DecodeByte state codep byte).1 = utf8Reject
    · rw [if_pos hreject] at hok
      exact absurd hok (by decide)
    · by_cases haccept : (utf8DecodeByte state codep byte).1 = utf8Accept
      · simp only [if_neg hreject, if_pos haccept] at hok ⊢
        exact ih (by omega) hok
      · simp only [if_neg hreject, if_neg haccept] at hok ⊢
        exact ih (by omega) hok

theorem Partial.accepted {pend : List UInt8} (h : Partial pend) {room : ℕ}
    (hroom : pend.length ≤ room) : (utf8DecodeLoop room utf8Accept 0 0 pend).1 = true := by
  obtain ⟨c, hc, rest, -, hencode⟩ := h
  rw [utf8DecodeLoop_room room ((pend ++ rest).length + 1) _ _ _ _ hroom (by simp; omega)]
  refine @utf8DecodeLoop_of_append _ _ _ _ pend rest (by simp; omega) ?_
  rw [← hencode, ← List.append_nil (utf8Encode c), utf8DecodeLoop_encode (by omega) hc]
  rfl

/-- **Encodings and the start of one more are accepted.** -/
theorem utf8DecodeLoop_complete {text : List ℕ} (htext : ∀ c ∈ text, IsScalar c)
    {pend : List UInt8} (hpend : Partial pend) {room : ℕ}
    (hroom : (utf8EncodeAll text ++ pend).length ≤ room) :
    (utf8DecodeLoop room utf8Accept 0 0 (utf8EncodeAll text ++ pend)).1 = true := by
  induction text generalizing room with
  | nil => exact hpend.accepted hroom
  | cons c text ih =>
    have hc := htext c (by simp)
    have hpos := List.length_pos_iff.mpr (utf8Encode_ne_nil hc.1)
    rw [utf8EncodeAll, List.flatMap_cons, ← utf8EncodeAll, List.append_assoc] at hroom ⊢
    rw [List.length_append] at hroom
    rw [utf8DecodeLoop_encode (by omega) hc]
    exact ih (fun d hd => htext d (by simp [hd])) (by omega)

/-! ## One reading only -/

/-- The codepoint the first byte and those it announces stand for. -/
def leadingCodepoint (input : List UInt8) : ℕ :=
  let byte (i : ℕ) : ℕ := (input.getD i 0).toNat
  if byte 0 < 0x80 then byte 0
  else if byte 0 < 0xE0 then (byte 0 - 0xC0) * 64 + (byte 1 - 0x80)
  else if byte 0 < 0xF0 then (byte 0 - 0xE0) * 4096 + (byte 1 - 0x80) * 64 + (byte 2 - 0x80)
  else (byte 0 - 0xF0) * 262144 + (byte 1 - 0x80) * 4096 + (byte 2 - 0x80) * 64 + (byte 3 - 0x80)

/-- **An encoding is read back**, a surrogate's too. -/
theorem leadingCodepoint_encode {c : ℕ} (hc : c ≤ 0x10FFFF) (rest : List UInt8) :
    leadingCodepoint (utf8Encode c ++ rest) = c := by
  have hlead : ∀ {n : ℕ}, n < 256 → (UInt8.ofNat n).toNat = n := fun h => Nat.mod_eq_of_lt h
  rcases Nat.lt_or_ge 0x7F c with h₁ | h₁
  · rcases Nat.lt_or_ge 0x7FF c with h₂ | h₂
    · rcases Nat.lt_or_ge 0xFFFF c with h₃ | h₃
      · rw [utf8Encode, encode_four h₃ hc]
        simp only [leadingCodepoint, Option.getD_some, List.cons_append, List.getD_cons_zero,
          List.getD_cons_succ, toNat_contByte]
        rw [hlead (by omega), if_neg (by omega), if_neg (by omega), if_neg (by omega)]
        omega
      · rw [utf8Encode, encode_three h₂ h₃]
        simp only [leadingCodepoint, Option.getD_some, List.cons_append, List.getD_cons_zero,
          List.getD_cons_succ, toNat_contByte]
        rw [hlead (by omega), if_neg (by omega), if_neg (by omega), if_pos (by omega)]
        omega
    · rw [utf8Encode, encode_two h₁ h₂]
      simp only [leadingCodepoint, Option.getD_some, List.cons_append, List.getD_cons_zero,
        List.getD_cons_succ, toNat_contByte]
      rw [hlead (by omega), if_neg (by omega), if_pos (by omega)]
      omega
  · rw [utf8Encode, encode_one h₁]
    simp only [leadingCodepoint, Option.getD_some, List.cons_append, List.getD_cons_zero]
    rw [hlead (by omega), if_pos (by omega)]

/-- Encodings that agree from the start are one. -/
theorem utf8Encode_append_inj {c d : ℕ} (hc : c ≤ 0x10FFFF) (hd : d ≤ 0x10FFFF)
    {rest rest' : List UInt8} (h : utf8Encode c ++ rest = utf8Encode d ++ rest') :
    c = d ∧ rest = rest' := by
  obtain rfl : c = d := by
    rw [← leadingCodepoint_encode hc rest, h, leadingCodepoint_encode hd]
  exact ⟨rfl, List.append_cancel_left h⟩

/-- What stops inside an encoding is not well-formed. -/
theorem Partial.eq_nil {pend : List UInt8} (h : Partial pend) {text : List ℕ}
    (htext : ∀ c ∈ text, IsScalar c) (heq : pend = utf8EncodeAll text) : text = [] := by
  obtain ⟨c, hc, rest, hrest, hencode⟩ := h
  cases text with
  | nil => rfl
  | cons d text =>
    rw [heq, utf8EncodeAll, List.flatMap_cons, List.append_assoc, ← List.append_nil (utf8Encode c)]
      at hencode
    have := (utf8Encode_append_inj hc.1 (htext d (by simp)).1 hencode).2
    exact absurd (List.append_eq_nil_iff.mp this.symm).2 hrest

/-- **A well-formed input has one reading**, and nothing is pending after it. -/
theorem utf8EncodeAll_append_inj {text text' : List ℕ} (htext : ∀ c ∈ text, IsScalar c)
    (htext' : ∀ c ∈ text', IsScalar c) {pend : List UInt8} (hpend : Partial pend)
    (h : utf8EncodeAll text ++ pend = utf8EncodeAll text') : text = text' ∧ pend = [] := by
  induction text generalizing text' with
  | nil =>
    obtain rfl := hpend.eq_nil htext' h
    exact ⟨rfl, h⟩
  | cons c text ih =>
    have hc := htext c (by simp)
    cases text' with
    | nil =>
      rw [utf8EncodeAll, List.flatMap_cons, List.append_assoc] at h
      exact absurd (List.append_eq_nil_iff.mp h).1 (utf8Encode_ne_nil hc.1)
    | cons d text' =>
      rw [utf8EncodeAll, utf8EncodeAll, List.flatMap_cons, List.flatMap_cons, List.append_assoc]
        at h
      obtain ⟨rfl, hrest⟩ := utf8Encode_append_inj hc.1 (htext' d (by simp)).1 h
      obtain ⟨rfl, hpend⟩ := ih (fun e he => htext e (by simp [he]))
        (fun e he => htext' e (by simp [he])) hrest
      exact ⟨rfl, hpend⟩

/-- Codepoints are read back from their encodings, surrogates among them too. -/
theorem utf8EncodeAll_inj {text text' : List ℕ} (h : ∀ c ∈ text, c ≤ 0x10FFFF)
    (h' : ∀ c ∈ text', c ≤ 0x10FFFF) (heq : utf8EncodeAll text = utf8EncodeAll text') :
    text = text' := by
  induction text generalizing text' with
  | nil =>
    cases text' with
    | nil => rfl
    | cons d text' =>
      have hd := utf8Encode_ne_nil (h' d List.mem_cons_self)
      rw [utf8EncodeAll, utf8EncodeAll, List.flatMap_cons] at heq
      exact absurd (List.append_eq_nil_iff.mp heq.symm).1 hd
  | cons c text ih =>
    obtain ⟨hc, htext⟩ := List.forall_mem_cons.mp h
    cases text' with
    | nil =>
      rw [utf8EncodeAll, utf8EncodeAll, List.flatMap_cons] at heq
      exact absurd (List.append_eq_nil_iff.mp heq).1 (utf8Encode_ne_nil hc)
    | cons d text' =>
      obtain ⟨hd, htext'⟩ := List.forall_mem_cons.mp h'
      rw [utf8EncodeAll, utf8EncodeAll, List.flatMap_cons, List.flatMap_cons] at heq
      obtain ⟨rfl, hrest⟩ := utf8Encode_append_inj hc hd heq
      rw [ih htext htext' hrest]

/-! ## Characters -/

theorem isScalar_char (c : Char) : IsScalar c.toNat := by
  have := c.valid
  simp only [UInt32.isValidChar, Nat.isValidChar] at this
  change IsScalar c.val.toNat
  exact ⟨by omega, by omega⟩

theorem exists_char {c : ℕ} (hc : IsScalar c) : ∃ ch : Char, ch.toNat = c := by
  obtain ⟨hmax, hsurr⟩ := hc
  have hvalid : c.isValidChar := by
    rw [Nat.isValidChar]
    omega
  refine ⟨Char.ofNat c, ?_⟩
  rw [Char.ofNat, dif_pos hvalid]
  rfl

/-- **The encoder writes what the standard does.** -/
theorem utf8Encode_char (c : Char) : utf8Encode c.toNat = String.utf8EncodeChar c := by
  have hmax := (isScalar_char c).1
  have hval : c.val.toNat = c.toNat := rfl
  rw [String.utf8EncodeChar, hval]
  rcases Nat.lt_or_ge 0x7F c.toNat with h₁ | h₁
  · rcases Nat.lt_or_ge 0x7FF c.toNat with h₂ | h₂
    · rcases Nat.lt_or_ge 0xFFFF c.toNat with h₃ | h₃
      · rw [utf8Encode, encode_four h₃ hmax, Option.getD_some, if_neg (by omega), if_neg (by omega),
          if_neg (by omega), Nat.mod_eq_of_lt (show c.toNat / 262144 < 8 by omega)]
        simp only [contByte, Nat.reducePow, Nat.add_comm]
      · rw [utf8Encode, encode_three h₂ h₃, Option.getD_some, if_neg (by omega), if_neg (by omega),
          if_pos h₃, Nat.mod_eq_of_lt (show c.toNat / 4096 < 16 by omega)]
        simp only [contByte, Nat.reducePow, Nat.add_comm]
    · rw [utf8Encode, encode_two h₁ h₂, Option.getD_some, if_neg (by omega), if_pos h₂,
        Nat.mod_eq_of_lt (show c.toNat / 64 < 32 by omega)]
      simp only [contByte, Nat.reducePow, Nat.add_comm]
  · rw [utf8Encode, encode_one h₁, Option.getD_some, if_pos h₁]

theorem utf8EncodeAll_chars (text : List Char) :
    utf8EncodeAll (text.map Char.toNat) = text.flatMap String.utf8EncodeChar := by
  rw [utf8EncodeAll, List.flatMap_map]
  exact List.flatMap_congr fun c _ => utf8Encode_char c

theorem exists_chars {text : List ℕ} (htext : ∀ c ∈ text, IsScalar c) :
    ∃ chars : List Char, chars.map Char.toNat = text := by
  induction text with
  | nil => exact ⟨[], rfl⟩
  | cons c text ih =>
    obtain ⟨ch, rfl⟩ := exists_char (htext c (by simp))
    obtain ⟨chars, rfl⟩ := ih fun d hd => htext d (by simp [hd])
    exact ⟨ch :: chars, rfl⟩

/-! ## What the decoder accepts -/

/-- Well-formed UTF-8: the encoding of a string of characters. -/
def IsUtf8 (input : List UInt8) : Prop :=
  ∃ text : List Char, text.flatMap String.utf8EncodeChar = input

/-- The input is well-formed up to an encoding that it stops inside of. -/
def StopsInside (input : List UInt8) : Prop :=
  ∃ (text : List Char) (c : Char) (k : ℕ), 0 < k ∧ k < (String.utf8EncodeChar c).length ∧
    input = text.flatMap String.utf8EncodeChar ++ (String.utf8EncodeChar c).take k

/-- Success on well-formed input and no other, with the encoded codepoints written. -/
def DecodesExactly (outputLen : ℕ) (input : List UInt8) : Prop :=
  ((utf8Decode outputLen input).ret = utf8Success ↔ IsUtf8 input) ∧
    ∀ text : List Char, text.flatMap String.utf8EncodeChar = input →
      (utf8Decode outputLen input).written.map Prod.fst = text.map Char.toNat

theorem stopsInside_iff {input : List UInt8} :
    StopsInside input ↔ ∃ text pend, (∀ c ∈ text, IsScalar c) ∧ Partial pend ∧ pend ≠ [] ∧
      input = utf8EncodeAll text ++ pend := by
  constructor
  · rintro ⟨text, c, k, hpos, hlt, rfl⟩
    refine ⟨text.map Char.toNat, (String.utf8EncodeChar c).take k, ?_, ?_, ?_, ?_⟩
    · simpa using fun c _ => isScalar_char c
    · refine ⟨c.toNat, isScalar_char c, (String.utf8EncodeChar c).drop k, ?_, ?_⟩
      · exact List.drop_eq_nil_iff.not.mpr (by omega)
      · rw [List.take_append_drop, utf8Encode_char]
    · intro h
      have := congrArg List.length h
      rw [List.length_take, List.length_nil] at this
      omega
    · rw [utf8EncodeAll_chars]
  · rintro ⟨text, pend, htext, ⟨c, hc, rest, hrest, hencode⟩, hne, rfl⟩
    obtain ⟨chars, rfl⟩ := exists_chars htext
    obtain ⟨ch, rfl⟩ := exists_char hc
    rw [utf8Encode_char] at hencode
    have hlen := congrArg List.length hencode
    have hpos := List.length_pos_iff.mpr hne
    have hpos' := List.length_pos_iff.mpr hrest
    rw [List.length_append] at hlen
    refine ⟨chars, ch, pend.length, hpos, by omega, ?_⟩
    rw [hencode, List.take_left, utf8EncodeAll_chars]

/-- The decoder's success is the loop's. -/
theorem utf8Decode_success_iff {outputLen : ℕ} {input : List UInt8} (h : input.length ≤ outputLen) :
    (utf8Decode outputLen input).ret = utf8Success ↔
      ∃ text pend, (∀ c ∈ text, IsScalar c) ∧ Partial pend ∧
        input = utf8EncodeAll text ++ pend := by
  constructor
  · intro hret
    have hok : (utf8DecodeLoop outputLen utf8Accept 0 0 input).1 = true := by
      by_contra hfalse
      rw [utf8Decode] at hret
      simp [hfalse] at hret
    obtain ⟨text, pend, htext, hpend, hsplit, -⟩ := utf8DecodeLoop_sound .accept h hok
    exact ⟨text, pend, htext, hpend, hsplit⟩
  · rintro ⟨text, pend, htext, hpend, rfl⟩
    have hok := utf8DecodeLoop_complete htext hpend h
    obtain ⟨-, -, -, -, -, -, hlen⟩ := utf8DecodeLoop_sound .accept h hok
    rw [utf8Decode]
    simp [hok, hlen]

/-- What is written for a well-formed input. -/
theorem utf8Decode_written {outputLen : ℕ} {text : List ℕ} (htext : ∀ c ∈ text, IsScalar c)
    (h : (utf8EncodeAll text).length ≤ outputLen) :
    (utf8Decode outputLen (utf8EncodeAll text)).written.map Prod.fst = text := by
  have hok := @utf8DecodeLoop_complete text htext [] partial_nil outputLen
    (by rwa [List.append_nil])
  rw [List.append_nil] at hok
  obtain ⟨text', pend, htext', hpend, hsplit, hwritten, -⟩ := utf8DecodeLoop_sound .accept h hok
  obtain ⟨rfl, -⟩ := utf8EncodeAll_append_inj htext' htext hpend hsplit.symm
  rw [utf8Decode]
  simpa [hok] using hwritten

theorem not_isUtf8 {input : List UInt8} (h : StopsInside input) : ¬ IsUtf8 input := by
  obtain ⟨text, pend, htext, hpend, hne, rfl⟩ := stopsInside_iff.mp h
  rintro ⟨chars, hchars⟩
  rw [← utf8EncodeAll_chars] at hchars
  exact hne (utf8EncodeAll_append_inj htext (by simpa using fun c _ => isScalar_char c) hpend
    hchars.symm).2

/-- **The decoder accepts exactly well-formed UTF-8, unless the input stops inside an encoding.** -/
theorem decodesExactly_iff {outputLen : ℕ} {input : List UInt8} (h : input.length ≤ outputLen) :
    DecodesExactly outputLen input ↔ ¬ StopsInside input := by
  constructor
  · rintro ⟨hret, -⟩ hstops
    obtain ⟨text, pend, htext, hpend, -, hinput⟩ := stopsInside_iff.mp hstops
    exact not_isUtf8 hstops
      (hret.mp ((utf8Decode_success_iff h).mpr ⟨text, pend, htext, hpend, hinput⟩))
  · intro hstops
    refine ⟨?_, ?_⟩
    · rw [utf8Decode_success_iff h]
      constructor
      · rintro ⟨text, pend, htext, hpend, rfl⟩
        have hnil : pend = [] := by
          by_contra hne
          exact hstops (stopsInside_iff.mpr ⟨text, pend, htext, hpend, hne, rfl⟩)
        obtain ⟨chars, rfl⟩ := exists_chars htext
        exact ⟨chars, by rw [hnil, List.append_nil, utf8EncodeAll_chars]⟩
      · rintro ⟨chars, rfl⟩
        exact ⟨chars.map Char.toNat, [], by simpa using fun c _ => isScalar_char c, partial_nil,
          by rw [List.append_nil, utf8EncodeAll_chars]⟩
    · rintro chars rfl
      rw [← utf8EncodeAll_chars] at h ⊢
      exact utf8Decode_written (by simpa using fun c _ => isScalar_char c) h

/-- `aé€𝄞`. -/
theorem decodesExactly_iff_widths :
    DecodesExactly 10 [0x61, 0xC3, 0xA9, 0xE2, 0x82, 0xAC, 0xF0, 0x9D, 0x84, 0x9E] ↔
      ¬ StopsInside [0x61, 0xC3, 0xA9, 0xE2, 0x82, 0xAC, 0xF0, 0x9D, 0x84, 0x9E] :=
  decodesExactly_iff (by decide)

/-- A string that ends in half of an `é` is a success. -/
theorem not_decodesExactly_half : ¬ ∀ (outputLen : ℕ) (input : List UInt8),
    input.length ≤ outputLen → DecodesExactly outputLen input := by
  intro h
  have hstops : StopsInside [0x61, 0xC3] := ⟨['a'], 'é', 1, by decide, by decide, by decide⟩
  exact not_isUtf8 hstops ((h 2 [0x61, 0xC3] le_rfl).1.mp (by decide))

end Passgen
