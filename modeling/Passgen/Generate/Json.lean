import Mathlib.Data.List.Basic
import Mathlib.Tactic.Common
import Passgen.Generate.Fill
import Passgen.Json.Text
import Passgen.Parser.Run
import Passgen.Util.WellFormed

/-!
# Generate/Json — output for JSON

    "  ▸ \ "     \  ▸ \ \     U+0008 … U+000D, but for U+000B  ▸ \ b, t, n, f, r
    any other codepoint  ▸ its encoding

What is written is the encoding of a text (`jsonText`), which is read back as a string of JSON
exactly when no codepoint is passed on that JSON does not allow: the other control characters, and
surrogates.
-/

namespace Passgen

/-- The letter a codepoint is escaped with. -/
def jsonLetter (c : ℕ) : Option ℕ :=
  if c = 0x22 then some '"'.toNat
  else if c = 0x5C then some '\\'.toNat
  else if c = 0x08 then some 'b'.toNat
  else if c = 0x0C then some 'f'.toNat
  else if c = 0x0D then some 'r'.toNat
  else if c = 0x0A then some 'n'.toNat
  else if c = 0x09 then some 't'.toNat
  else none

/-- The text that is written for a codepoint. -/
def jsonText (c : ℕ) : List ℕ :=
  match jsonLetter c with
  | some letter => ['\\'.toNat, letter]
  | none => [c]

/-- A codepoint that is written as it is, and that no string of JSON holds. -/
def Stray (c : ℕ) : Prop := c < 0x20 ∧ jsonLetter c = none ∨ 0xD800 ≤ c ∧ c ≤ 0xDFFF

instance : DecidablePred Stray := fun _ => inferInstanceAs (Decidable (_ ∨ _))

/-- Between quotes, the bytes are a string of JSON whose value is `s`. -/
def IsJson (bytes : List UInt8) (s : List ℕ) : Prop :=
  ∃ text : List Char, ['"'.toUInt8] ++ bytes ++ ['"'.toUInt8] = text.flatMap String.utf8EncodeChar ∧
    Json.decode (text.map Char.toNat) = some s

/-! ## What is written -/

theorem jsonLetter_spec {c letter : ℕ} (h : jsonLetter c = some letter) :
    letter < 0x80 ∧ Json.shortEscape letter = some c ∧
      jsonEscape c = some (utf8EncodeAll ['\\'.toNat, letter]) := by
  unfold jsonLetter at h
  split_ifs at h
  all_goals
    subst c
    obtain rfl := Option.some.inj h
    exact ⟨by decide, rfl, rfl⟩

theorem jsonEscape_of_none {c : ℕ} (h : jsonLetter c = none) :
    jsonEscape c = utf8EncodeCodepoint c := by
  unfold jsonLetter at h
  split_ifs at h
  simp only [jsonEscape]
  repeat rw [if_neg (by assumption)]

theorem jsonEscape_eq {c : ℕ} (hc : c ≤ 0x10FFFF) :
    jsonEscape c = some (utf8EncodeAll (jsonText c)) := by
  rw [jsonText]
  cases h : jsonLetter c with
  | none =>
    rw [jsonEscape_of_none h, utf8EncodeCodepoint_eq hc, utf8EncodeAll, List.flatMap_singleton]
  | some letter => exact (jsonLetter_spec h).2.2

theorem jsonEscape_eq_none {c : ℕ} (hc : 0x10FFFF < c) : jsonEscape c = none := by
  cases h : jsonLetter c with
  | none => rw [jsonEscape_of_none h, utf8EncodeCodepoint_eq_none_iff.mpr hc]
  | some letter =>
    unfold jsonLetter at h
    split_ifs at h <;> omega

/-- **What is written is the encoding of the text.** -/
theorem of_encodeAll_jsonEscape {cs : List ℕ} {w : List UInt8}
    (h : encodeAll jsonEscape cs = some w) :
    (∀ c ∈ cs, c ≤ 0x10FFFF) ∧ w = utf8EncodeAll (cs.flatMap jsonText) := by
  have hmax : ∀ c ∈ cs, c ≤ 0x10FFFF := fun c hc => by
    by_contra hlong
    exact absurd (h.symm.trans (encodeAll_eq_none (jsonEscape_eq_none (by omega)) hc)) (by simp)
  refine ⟨hmax, ?_⟩
  induction cs generalizing w with
  | nil => exact (Option.some.inj h).symm
  | cons c cs ih =>
    obtain ⟨hc, hcs⟩ := List.forall_mem_cons.mp hmax
    rw [encodeAll, jsonEscape_eq hc] at h
    obtain ⟨v, hv, rfl⟩ := Option.map_eq_some_iff.mp h
    rw [ih hv hcs, List.flatMap_cons, utf8EncodeAll, utf8EncodeAll, utf8EncodeAll,
      List.flatMap_append]

/-! ## What is read -/

theorem scan_jsonText {c : ℕ} (hc : c ≤ 0x10FFFF) (hstray : ¬Stray c) (text : List ℕ) :
    Json.scan .inside (jsonText c ++ text) = (Json.scan .inside text).map (c :: ·) := by
  rw [jsonText]
  cases h : jsonLetter c with
  | some letter => exact Json.scan_shortEscape (jsonLetter_spec h).2.1 text
  | none =>
    have hlow : ¬c < 0x20 := fun hlow => hstray (.inl ⟨hlow, h⟩)
    refine Json.scan_plain ⟨⟨Nat.le_of_not_lt hlow, hc⟩, ?_, ?_⟩ text
    · rintro rfl
      exact absurd h (by decide)
    · rintro rfl
      exact absurd h (by decide)

theorem scan_flatMap_jsonText {cs : List ℕ} (hmax : ∀ c ∈ cs, c ≤ 0x10FFFF)
    (h : ∀ c ∈ cs, ¬Stray c) :
    Json.scan .inside (cs.flatMap jsonText ++ ['"'.toNat]) = some cs := by
  induction cs with
  | nil => rfl
  | cons c cs ih =>
    obtain ⟨hc, hcs⟩ := List.forall_mem_cons.mp hmax
    obtain ⟨hstray, hrest⟩ := List.forall_mem_cons.mp h
    rw [List.flatMap_cons, List.append_assoc, scan_jsonText hc hstray, ih hcs hrest,
      Option.map_some]

/-- The codepoints of a text that is written. -/
theorem forall_jsonText {P : ℕ → Prop} (hascii : ∀ c < 0x80, P c) {cs : List ℕ}
    (h : ∀ c ∈ cs, P c) : ∀ c ∈ cs.flatMap jsonText, P c := by
  intro d hd
  obtain ⟨c, hc, hd⟩ := List.mem_flatMap.mp hd
  rw [jsonText] at hd
  cases hletter : jsonLetter c with
  | none =>
    rw [hletter] at hd
    exact List.mem_singleton.mp hd ▸ h c hc
  | some letter =>
    rw [hletter] at hd
    simp only [List.mem_cons, List.not_mem_nil, or_false] at hd
    rcases hd with rfl | rfl
    · exact hascii _ (by decide)
    · exact hascii _ (jsonLetter_spec hletter).1

/-- The codepoints of a text, between quotes. -/
def quotedText (cs : List ℕ) : List ℕ := ['"'.toNat] ++ cs.flatMap jsonText ++ ['"'.toNat]

theorem utf8EncodeAll_quotedText (cs : List ℕ) :
    ['"'.toUInt8] ++ utf8EncodeAll (cs.flatMap jsonText) ++ ['"'.toUInt8] =
      utf8EncodeAll (quotedText cs) := by
  rw [quotedText, utf8EncodeAll, utf8EncodeAll, List.flatMap_append, List.flatMap_append]
  rfl

theorem forall_quotedText {P : ℕ → Prop} (hascii : ∀ c < 0x80, P c) {cs : List ℕ}
    (h : ∀ c ∈ cs, P c) : ∀ c ∈ quotedText cs, P c := by
  intro c hc
  rcases List.mem_append.mp hc with hc | hc
  · rcases List.mem_append.mp hc with hc | hc
    · exact List.mem_singleton.mp hc ▸ hascii _ (by decide)
    · exact forall_jsonText hascii h c hc
  · exact List.mem_singleton.mp hc ▸ hascii _ (by decide)

/-- A codepoint that is not escaped stands in the text. -/
theorem mem_quotedText {cs : List ℕ} {c : ℕ} (hc : c ∈ cs) (hnone : jsonLetter c = none) :
    c ∈ quotedText cs := by
  have hself : c ∈ jsonText c := by
    rw [jsonText, hnone]
    exact List.mem_singleton_self c
  exact List.mem_append_left _ (List.mem_append_right _ (List.mem_flatMap.mpr ⟨c, hc, hself⟩))

/-- A string of JSON has nothing stray for its value. -/
theorem not_stray_of_isJson {cs : List ℕ} (hmax : ∀ c ∈ cs, c ≤ 0x10FFFF)
    (h : IsJson (utf8EncodeAll (cs.flatMap jsonText)) cs) {c : ℕ} (hc : c ∈ cs) : ¬Stray c := by
  obtain ⟨text, htext, hdecode⟩ := h
  rw [utf8EncodeAll_quotedText, ← utf8EncodeAll_chars] at htext
  have hscalar : ∀ d ∈ text.map Char.toNat, IsScalar d := by simpa using fun d _ => isScalar_char d
  have heq := utf8EncodeAll_inj (forall_quotedText (fun d hd => by omega) hmax)
    (fun d hd => (hscalar d hd).1) htext
  have hmem : jsonLetter c = none → c ∈ text.map Char.toNat := fun hnone =>
    heq ▸ mem_quotedText hc hnone
  rintro (⟨hlow, hnone⟩ | hsurrogate)
  · exact absurd (Json.le_of_decode hdecode c (hmem hnone)) (by omega)
  · have hnone : jsonLetter c = none := by
      unfold jsonLetter
      repeat rw [if_neg (by omega)]
    exact (hscalar c (hmem hnone)).2 hsurrogate

/-- A text that holds nothing stray is read back. -/
theorem isJson_of_not_stray {cs : List ℕ} (hmax : ∀ c ∈ cs, c ≤ 0x10FFFF)
    (h : ∀ c ∈ cs, ¬Stray c) : IsJson (utf8EncodeAll (cs.flatMap jsonText)) cs := by
  have hscalar : ∀ c ∈ cs, IsScalar c := fun c hc =>
    ⟨hmax c hc, fun hsurrogate => h c hc (.inr hsurrogate)⟩
  obtain ⟨text, htext⟩ := exists_chars
    (forall_quotedText (fun c hc => ⟨by omega, by omega⟩) hscalar)
  refine ⟨text, ?_, ?_⟩
  · rw [utf8EncodeAll_quotedText, ← utf8EncodeAll_chars, htext]
  · have hopen : Json.scan .start (quotedText cs) = some cs := by
      rw [quotedText, List.append_assoc, List.singleton_append, Json.scan_cons]
      change ((Json.scan .inside _).map _) = _
      rw [scan_flatMap_jsonText hmax h]
      rfl
    rw [htext, Json.decode, hopen, Option.map_some, Json.joinSurrogates_eq_self]
    exact fun c hc hhigh => (hscalar c hc).2 ⟨hhigh.1, by omega⟩

/-- **The text is read back exactly when it holds nothing stray.** -/
theorem isJson_iff {cs : List ℕ} (hmax : ∀ c ∈ cs, c ≤ 0x10FFFF) :
    IsJson (utf8EncodeAll (cs.flatMap jsonText)) cs ↔ ∀ c ∈ cs, ¬Stray c :=
  ⟨fun h _ hc => not_stray_of_isJson hmax h hc, isJson_of_not_stray hmax⟩

/-! ## What is filled -/

variable {σ : Type} {source : Source σ} {pattern : Group} {env : Env σ} {entropy : Bool}
  {dest : Dest UInt8} {n : ℕ} {t : GenState σ (Fillpos UInt8)}

/-- **The output is a string of JSON, with what was emitted for its value**, exactly when nothing
stray was emitted. -/
theorem isJson_filled_iff
    (h : generateFillJsonUtf8 source pattern env entropy dest = some (n, t)) (hn : 0 < n) :
    IsJson (t.data.buffer.first n) t.emitted ↔ ∀ c ∈ t.emitted, ¬Stray c := by
  obtain ⟨w, hw, rfl, hholds⟩ := holds_of_generateFill writes_writeBufferJsonUtf8 h hn
  obtain ⟨hmax, rfl⟩ := of_encodeAll_jsonEscape hw
  rw [hholds.first_eq]
  exact isJson_iff hmax

/-- A buffer of eight bytes. -/
def eightBytes : Dest UInt8 := ⟨fun _ => 0, 8, by decide⟩

/-- The pattern `"é`. -/
def quoteAccent : Group := ⟨[⟨[.init (.literal ⟨[0x22, 0xE9], false⟩)], 1⟩], 1⟩

theorem isJson_filled_quoteAccent :
    IsJson ['\\'.toUInt8, '"'.toUInt8, 0xC3, 0xA9] [0x22, 0xE9] ↔ ∀ c ∈ [0x22, 0xE9], ¬Stray c := by
  have hfill : generateFillJsonUtf8 drawSource quoteAccent ⟨[], 1, []⟩ false eightBytes =
      some (4, ⟨[], ⟨_, 4, 8⟩, 1, none, [], [0x22, 0xE9], _⟩) := rfl
  exact isJson_filled_iff hfill (by decide)

/-- **A control character passed on**: the pattern `\a` writes U+0007 as it is. -/
theorem not_isJson_filled_bell :
    ¬∀ (string : List UInt8) (pattern : Group), parse string = .ok pattern →
      ∀ {σ : Type} (source : Source σ) (env : Env σ) (entropy : Bool) (dest : Dest UInt8) (n : ℕ)
        (t : GenState σ (Fillpos UInt8)),
        generateFillJsonUtf8 source pattern env entropy dest = some (n, t) → 0 < n →
          IsJson (t.data.buffer.first n) t.emitted := by
  intro h
  have hparse : parse (ascii "\\a") = .ok ⟨[⟨[.init (.literal ⟨[0x07], false⟩)], 1⟩], 1⟩ := rfl
  have hfill : generateFillJsonUtf8 drawSource ⟨[⟨[.init (.literal ⟨[0x07], false⟩)], 1⟩], 1⟩
      ⟨[], 1, []⟩ false eightBytes = some (1, ⟨[], ⟨_, 1, 8⟩, 1, none, [], [0x07], _⟩) := rfl
  have hjson : IsJson (utf8EncodeAll ([0x07].flatMap jsonText)) [0x07] :=
    h _ _ hparse drawSource ⟨[], 1, []⟩ false eightBytes _ _ hfill (by decide)
  exact (isJson_iff (by decide)).mp hjson 0x07 (by decide) (by decide)

end Passgen
