import Mathlib.Data.List.Basic
import Mathlib.Tactic.Common

/-!
# Json/Text — strings of RFC 8259

    "  a  \ n  \ u 0 0 e 9  "
    ▸ inside ─ \ ▸ escaped ─ u ▸ unicode ─ four digits ▸ inside ─ " ▸ closed

A string is read by a scanner over its codepoints, quotes included: inside, everything from U+0020
on stands for itself, but for the quote and the backslash.  What `\u` gives is a UTF-16 unit, and a
high surrogate joins with a low one behind it.
-/

namespace Json

/-- Where the scanner is. -/
inductive Mode where
  | start
  | inside
  | escaped
  /-- After `\u`, with so many digits to come after the next one. -/
  | unicode (left value : ℕ)
  | closed

/-- The codepoint of an escape of one letter. -/
def shortEscape (letter : ℕ) : Option ℕ :=
  if letter = '"'.toNat then some 0x22
  else if letter = '\\'.toNat then some 0x5C
  else if letter = '/'.toNat then some 0x2F
  else if letter = 'b'.toNat then some 0x08
  else if letter = 'f'.toNat then some 0x0C
  else if letter = 'n'.toNat then some 0x0A
  else if letter = 'r'.toNat then some 0x0D
  else if letter = 't'.toNat then some 0x09
  else none

/-- The value of a hexadecimal digit. -/
def hexDigit (c : ℕ) : Option ℕ :=
  if '0'.toNat ≤ c ∧ c ≤ '9'.toNat then some (c - '0'.toNat)
  else if 'A'.toNat ≤ c ∧ c ≤ 'F'.toNat then some (c - 'A'.toNat + 10)
  else if 'a'.toNat ≤ c ∧ c ≤ 'f'.toNat then some (c - 'a'.toNat + 10)
  else none

/-- One codepoint: where the scanner goes, and what it has read with it. -/
def step : Mode → ℕ → Option (Mode × List ℕ)
  | .start, c => if c = '"'.toNat then some (.inside, []) else none
  | .inside, c =>
    if c = '"'.toNat then some (.closed, [])
    else if c = '\\'.toNat then some (.escaped, [])
    else if 0x20 ≤ c ∧ c ≤ 0x10FFFF then some (.inside, [c])
    else none
  | .escaped, c =>
    if c = 'u'.toNat then some (.unicode 3 0, [])
    else (shortEscape c).map fun v => (.inside, [v])
  | .unicode left value, c =>
    (hexDigit c).map fun d =>
      if left = 0 then (.inside, [value * 16 + d]) else (.unicode (left - 1) (value * 16 + d), [])
  | .closed, _ => none

/-- What the scanner reads, where it gets to the end and the string is closed there. -/
def scan : Mode → List ℕ → Option (List ℕ)
  | .closed, [] => some []
  | _, [] => none
  | mode, c :: text => (step mode c).bind fun p => (scan p.1 text).map (p.2 ++ ·)

/-- The surrogate pairs joined. -/
def joinSurrogates : List ℕ → List ℕ
  | high :: low :: units =>
    if 0xD800 ≤ high ∧ high ≤ 0xDBFF ∧ 0xDC00 ≤ low ∧ low ≤ 0xDFFF then
      (0x10000 + (high - 0xD800) * 0x400 + (low - 0xDC00)) :: joinSurrogates units
    else high :: joinSurrogates (low :: units)
  | units => units

/-- **The value of a string**; `none` where the text is not a string. -/
def decode (text : List ℕ) : Option (List ℕ) := (scan .start text).map joinSurrogates

theorem scan_cons (mode : Mode) (c : ℕ) (text : List ℕ) :
    scan mode (c :: text) = (step mode c).bind fun p => (scan p.1 text).map (p.2 ++ ·) := by
  cases mode <;> rfl

/-! ## What is accepted -/

theorem shortEscape_lt {letter c : ℕ} (h : shortEscape letter = some c) : 0x20 ≤ letter := by
  unfold shortEscape at h
  split_ifs at h
  all_goals subst letter; decide

theorem hexDigit_lt {c d : ℕ} (h : hexDigit c = some d) : 0x20 ≤ c := by
  unfold hexDigit at h
  split_ifs at h with h₁ h₂ h₃
  · exact Nat.le_trans (by decide) h₁.1
  · exact Nat.le_trans (by decide) h₂.1
  · exact Nat.le_trans (by decide) h₃.1

/-- **No control character is accepted**, anywhere. -/
theorem le_of_step {mode : Mode} {c : ℕ} {p : Mode × List ℕ} (h : step mode c = some p) :
    0x20 ≤ c := by
  cases mode with
  | start =>
    rw [step] at h
    split_ifs at h with hquote
    exact hquote ▸ by decide
  | inside =>
    rw [step] at h
    split_ifs at h with hquote hback hplain
    · exact hquote ▸ by decide
    · exact hback ▸ by decide
    · exact hplain.1
  | escaped =>
    rw [step] at h
    split_ifs at h with hunicode
    · exact hunicode ▸ by decide
    · obtain ⟨v, hv, -⟩ := Option.map_eq_some_iff.mp h
      exact shortEscape_lt hv
  | unicode left value =>
    obtain ⟨d, hd, -⟩ := Option.map_eq_some_iff.mp h
    exact hexDigit_lt hd
  | closed => exact absurd h (by simp [step])

theorem le_of_scan {mode : Mode} {text value : List ℕ} (h : scan mode text = some value) :
    ∀ c ∈ text, 0x20 ≤ c := by
  induction text generalizing mode value with
  | nil => exact fun _ hc => absurd hc List.not_mem_nil
  | cons c text ih =>
    rw [scan_cons] at h
    obtain ⟨p, hstep, hrest⟩ := Option.bind_eq_some_iff.mp h
    obtain ⟨rest, hrest, -⟩ := Option.map_eq_some_iff.mp hrest
    exact List.forall_mem_cons.mpr ⟨le_of_step hstep, ih hrest⟩

theorem le_of_decode {text value : List ℕ} (h : decode text = some value) :
    ∀ c ∈ text, 0x20 ≤ c := by
  obtain ⟨units, hscan, -⟩ := Option.map_eq_some_iff.mp h
  exact le_of_scan hscan

/-! ## What is read -/

/-- A codepoint that stands for itself. -/
def Plain (c : ℕ) : Prop := (0x20 ≤ c ∧ c ≤ 0x10FFFF) ∧ c ≠ '"'.toNat ∧ c ≠ '\\'.toNat

theorem scan_plain {c : ℕ} (h : Plain c) (text : List ℕ) :
    scan .inside (c :: text) = (scan .inside text).map (c :: ·) := by
  obtain ⟨hplain, hquote, hback⟩ := h
  rw [scan_cons, step, if_neg hquote, if_neg hback, if_pos hplain]
  rfl

theorem scan_shortEscape {letter c : ℕ} (h : shortEscape letter = some c) (text : List ℕ) :
    scan .inside ('\\'.toNat :: letter :: text) = (scan .inside text).map (c :: ·) := by
  have hletter : letter ≠ 'u'.toNat := by
    rintro rfl
    have hnone : shortEscape 'u'.toNat = none := rfl
    exact absurd (hnone.symm.trans h) (by simp)
  have hback : step .inside '\\'.toNat = some (.escaped, []) := rfl
  rw [scan_cons, hback, Option.bind_some, scan_cons, step, if_neg hletter, h]
  cases hrest : scan .inside text with
  | none => simp [hrest]
  | some value => simp [hrest]

/-- What is no surrogate stays as it is. -/
theorem joinSurrogates_eq_self {units : List ℕ} (h : ∀ c ∈ units, ¬(0xD800 ≤ c ∧ c ≤ 0xDBFF)) :
    joinSurrogates units = units := by
  induction units with
  | nil => rfl
  | cons high units ih =>
    obtain ⟨hhigh, hrest⟩ := List.forall_mem_cons.mp h
    cases units with
    | nil => rfl
    | cons low units =>
      rw [joinSurrogates, if_neg fun hpair => hhigh ⟨hpair.1, hpair.2.1⟩, ih hrest]

end Json
