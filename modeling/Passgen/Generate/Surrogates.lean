import Mathlib.Data.List.Basic
import Mathlib.Tactic.Common
import Passgen.Generate.Fill
import Passgen.Generate.Language
import Passgen.Parser.Run
import Passgen.Util.WellFormed

/-!
# Generate/Surrogates — what is encoded and not decoded

    codepoints ── encoder, by magnitude ─▸ bytes ── decoder, by table ─▸ codepoints
      D800–DFFF ─────────▸ ED A0 80 … ED BF BF ─────▸ rejected

The encoder takes every codepoint up to U+10FFFF, surrogates among them; the decoder's table has no
path for the encoding of a surrogate.  So what is encoded decodes back exactly when no surrogate is
in it (`roundTrips_iff`), and a filled buffer is well-formed exactly when none was emitted.
-/

namespace Passgen

/-- A surrogate: a codepoint that is encoded, and not decoded. -/
def Surrogate (c : ℕ) : Prop := 0xD800 ≤ c ∧ c ≤ 0xDFFF

instance : DecidablePred Surrogate := fun _ => inferInstanceAs (Decidable (_ ∧ _))

theorem isScalar_iff {c : ℕ} : IsScalar c ↔ c ≤ 0x10FFFF ∧ ¬Surrogate c := Iff.rfl

/-! ## Encoded and decoded -/

/-- The encoding of `cs` is accepted in full and decodes to `cs`, in any output with the room. -/
def DecodesBack (cs : List ℕ) : Prop :=
  ∀ outputLen, cs.length ≤ outputLen →
    (utf8Decode outputLen (utf8EncodeAll cs)).ret = utf8Success ∧
    (utf8Decode outputLen (utf8EncodeAll cs)).consumed = (utf8EncodeAll cs).length ∧
    (utf8Decode outputLen (utf8EncodeAll cs)).written.map Prod.fst = cs

/-- What a successful call wrote, given the room, are scalar values. -/
theorem isScalar_of_written {outputLen : ℕ} {input : List UInt8} (h : input.length ≤ outputLen)
    (hret : (utf8Decode outputLen input).ret = utf8Success) :
    ∀ c ∈ (utf8Decode outputLen input).written.map Prod.fst, IsScalar c := by
  have hok : (utf8DecodeLoop outputLen utf8Accept 0 0 input).1 = true := by
    by_contra hfalse
    rw [utf8Decode] at hret
    simp [hfalse] at hret
  obtain ⟨text, -, htext, -, -, hwritten, -⟩ := utf8DecodeLoop_sound .accept h hok
  rw [utf8Decode]
  simpa [hok, hwritten] using htext

/-- **Scalar values decode back, and they alone.** -/
theorem decodesBack_iff_isScalar {cs : List ℕ} : DecodesBack cs ↔ ∀ c ∈ cs, IsScalar c := by
  constructor
  · intro h
    obtain ⟨hret, -, hwritten⟩ := h _ (le_max_left cs.length (utf8EncodeAll cs).length)
    have hscalar := isScalar_of_written (le_max_right _ _) hret
    rwa [hwritten] at hscalar
  · intro hcs outputLen hroom
    rw [utf8Decode_encodeAll outputLen hcs, List.take_of_length_le hroom]
    simp [withWidths, Function.comp_def]

/-- **An encoding is well-formed exactly when no surrogate is in it.** -/
theorem isUtf8_encodeAll_iff {cs : List ℕ} (hmax : ∀ c ∈ cs, c ≤ 0x10FFFF) :
    IsUtf8 (utf8EncodeAll cs) ↔ ∀ c ∈ cs, IsScalar c := by
  constructor
  · rintro ⟨text, htext⟩
    have hscalar : ∀ c ∈ text.map Char.toNat, IsScalar c := by
      simpa using fun c _ => isScalar_char c
    rw [← utf8EncodeAll_chars] at htext
    rwa [← utf8EncodeAll_inj (fun c hc => (hscalar c hc).1) hmax htext]
  · intro hcs
    obtain ⟨text, rfl⟩ := exists_chars hcs
    exact ⟨text, (utf8EncodeAll_chars text).symm⟩

theorem forall_isScalar_iff {cs : List ℕ} (hmax : ∀ c ∈ cs, c ≤ 0x10FFFF) :
    (∀ c ∈ cs, IsScalar c) ↔ ∀ c ∈ cs, ¬Surrogate c :=
  forall₂_congr fun c hc => isScalar_iff.trans (and_iff_right (hmax c hc))

/-- The codepoints that are encoded. -/
theorem le_of_encodeAll {cs : List ℕ} {w : List UInt8}
    (h : encodeAll utf8EncodeCodepoint cs = some w) :
    (∀ c ∈ cs, c ≤ 0x10FFFF) ∧ w = utf8EncodeAll cs := by
  have hmax : ∀ c ∈ cs, c ≤ 0x10FFFF := by
    intro c hc
    by_contra hlong
    have hnone := utf8EncodeCodepoint_eq_none_iff.mpr (Nat.lt_of_not_le hlong)
    exact absurd (h.symm.trans (encodeAll_eq_none hnone hc)) (by simp)
  exact ⟨hmax, Option.some.inj (h.symm.trans (encodeAll_utf8 hmax))⟩

/-! ## Filled buffers -/

section Filled

variable {σ : Type} {source : Source σ} {pattern : Group} {env : Env σ} {entropy : Bool}
  {dest : Dest UInt8} {n : ℕ} {t : GenState σ (Fillpos UInt8)}

/-- A non-zero result is the encoding of what was emitted. -/
theorem first_of_generateFillUtf8
    (h : generateFillUtf8 source pattern env entropy dest = some (n, t)) (hn : 0 < n) :
    t.data.buffer.first n = utf8EncodeAll t.emitted ∧ ∀ c ∈ t.emitted, c ≤ 0x10FFFF := by
  obtain ⟨w, hw, rfl, hholds⟩ := holds_of_generateFill writes_writeBufferUtf8 h hn
  obtain ⟨hmax, rfl⟩ := le_of_encodeAll hw
  exact ⟨hholds.first_eq, hmax⟩

/-- **A non-zero result is well-formed exactly when no surrogate was emitted.** -/
theorem isUtf8_first_iff
    (h : generateFillUtf8 source pattern env entropy dest = some (n, t)) (hn : 0 < n) :
    IsUtf8 (t.data.buffer.first n) ↔ ∀ c ∈ t.emitted, ¬Surrogate c := by
  obtain ⟨hfirst, hmax⟩ := first_of_generateFillUtf8 h hn
  rw [hfirst, isUtf8_encodeAll_iff hmax, forall_isScalar_iff hmax]

/-- A word some buffer has room for the encoding of. -/
def Storable (w : List ℕ) : Prop :=
  (∀ c ∈ w, c ≤ 0x10FFFF) ∧ (utf8EncodeAll w).length < 2 ^ 63

/-- A non-zero result is the encoding of a word of the pattern. -/
theorem emitted_mem_language (hpattern : pattern.Valid)
    (h : generateFillUtf8 source pattern env entropy dest = some (n, t)) (hn : 0 < n) :
    t.emitted ∈ pattern.language ∧ Storable t.emitted := by
  obtain ⟨u, w, hyields, hfilled⟩ :=
    (generateFill_cases writes_writeBufferUtf8 h).resolve_right fun hzero => hn.ne' hzero.1
  obtain ⟨v, hv, hemitted⟩ := (generate_language hpattern).1 _ _ _ hyields.returns
  obtain ⟨hmax, rfl⟩ := le_of_encodeAll hyields.encodes
  rw [hfilled.emitted]
  refine ⟨?_, hmax, hyields.fits.trans_lt dest.len_lt⟩
  rwa [hemitted]

end Filled

/-- Every non-zero result of `passgen_generate_fill_utf8` for the pattern is well-formed. -/
def AlwaysUtf8 (pattern : Group) : Prop :=
  ∀ {σ : Type} (source : Source σ) (env : Env σ) (entropy : Bool) (dest : Dest UInt8) (n : ℕ)
    (t : GenState σ (Fillpos UInt8)),
    generateFillUtf8 source pattern env entropy dest = some (n, t) → 0 < n →
      IsUtf8 (t.data.buffer.first n)

/-- **Every word that can be stored is filled in**, for some draws. -/
theorem exists_filled {pattern : Group} (hpattern : pattern.Valid) {w : List ℕ}
    (hw : w ∈ pattern.language) (hstorable : Storable w) :
    ∃ (env : Env (List ℕ)) (dest : Dest UInt8) (t : GenState (List ℕ) (Fillpos UInt8)),
      generateFillUtf8 drawSource pattern env false dest = some ((utf8EncodeAll w).length, t) ∧
        t.data.buffer.first (utf8EncodeAll w).length = utf8EncodeAll w := by
  obtain ⟨draws, u, hreturns, rfl⟩ := (generate_language hpattern).2 anySink (fun _ _ => rfl) ()
    pattern.depth false [] le_rfl w hw
  let dest : Dest UInt8 := ⟨fun _ => 0, (utf8EncodeAll u.emitted).length, hstorable.2⟩
  have henv : Effect.Returns (generate ⟨drawSource, anySink⟩ pattern)
      (Env.start ⟨draws, pattern.depth, []⟩ () false) () u := hreturns
  obtain ⟨ret, t, hfill, -, hroom, -⟩ :=
    ((fill_agree henv ⟨fun _ => 0, 0, by decide⟩ dest).1 false).2
  obtain ⟨rfl, hholds⟩ := hroom ⟨hstorable.1, le_rfl⟩
  exact ⟨_, dest, t, hfill, hholds.first_eq⟩

/-- **A special-free pattern always gives well-formed results** exactly when no word of it that can
be stored has a surrogate. -/
theorem alwaysUtf8_iff {pattern : Group} (hpattern : pattern.Valid) :
    AlwaysUtf8 pattern ↔
      ∀ w ∈ pattern.language, Storable w → ∀ c ∈ w, ¬Surrogate c := by
  constructor
  · intro h w hw hstorable c hc
    obtain ⟨env, dest, t, hfill, hfirst⟩ := exists_filled hpattern hw hstorable
    have hne : utf8EncodeAll w ≠ [] := by
      intro hnil
      exact utf8Encode_ne_nil (hstorable.1 c hc) (List.flatMap_eq_nil_iff.mp hnil c hc)
    have hutf8 := h drawSource env false dest _ t hfill (List.length_pos_iff.mpr hne)
    rw [hfirst, isUtf8_encodeAll_iff hstorable.1, forall_isScalar_iff hstorable.1] at hutf8
    exact hutf8 c hc
  · intro h σ source env entropy dest n t hfill hn
    obtain ⟨hmem, hstorable⟩ := emitted_mem_language hpattern hfill hn
    exact (isUtf8_first_iff hfill hn).mpr (h _ hmem hstorable)

/-! ## What is encoded decodes back -/

/-- **What is encoded decodes back exactly when no surrogate is in it.**  A run that emits `cs` then
fills its buffer with the encoding of `cs`, and it is well-formed on the same condition; for a
special-free pattern that is a condition on its words. -/
theorem roundTrips_iff {cs : List ℕ} (hcs : ∀ c ∈ cs, utf8EncodeCodepoint c ≠ none) :
    (DecodesBack cs ↔ ∀ c ∈ cs, ¬Surrogate c) ∧
    (∀ {σ : Type} (source : Source σ) (pattern : Group) (env : Env σ) (entropy : Bool)
      (dest : Dest UInt8) (n : ℕ) (t : GenState σ (Fillpos UInt8)),
      generateFillUtf8 source pattern env entropy dest = some (n, t) → 0 < n → t.emitted = cs →
        t.data.buffer.first n = utf8EncodeAll cs ∧
        (IsUtf8 (t.data.buffer.first n) ↔ ∀ c ∈ cs, ¬Surrogate c)) ∧
    ∀ pattern : Group, pattern.Valid →
      (AlwaysUtf8 pattern ↔ ∀ w ∈ pattern.language, Storable w → ∀ c ∈ w, ¬Surrogate c) := by
  have hmax : ∀ c ∈ cs, c ≤ 0x10FFFF := fun c hc =>
    Nat.le_of_not_lt fun hlong => hcs c hc (utf8EncodeCodepoint_eq_none_iff.mpr hlong)
  refine ⟨?_, ?_, fun pattern hpattern => alwaysUtf8_iff hpattern⟩
  · rw [decodesBack_iff_isScalar, forall_isScalar_iff hmax]
  · rintro σ source pattern env entropy dest n t hfill hn rfl
    exact ⟨(first_of_generateFillUtf8 hfill hn).1, isUtf8_first_iff hfill hn⟩

/-- `é€` and its bytes. -/
theorem roundTrips_accentEuro : DecodesBack [0xE9, 0x20AC] ↔ ∀ c ∈ [0xE9, 0x20AC], ¬Surrogate c :=
  (roundTrips_iff (by decide)).1

/-- **A surrogate**: the pattern `\u{D800}` is accepted and fills in three bytes that are no UTF-8;
the decoder rejects them. -/
theorem not_roundTrips_surrogate :
    (¬∀ cs : List ℕ, (∀ c ∈ cs, utf8EncodeCodepoint c ≠ none) → DecodesBack cs) ∧
    ¬∀ (string : List UInt8) (pattern : Group), parse string = .ok pattern →
      AlwaysUtf8 pattern := by
  constructor
  · intro h
    obtain ⟨hret, -⟩ := h [0xD800] (by decide) 1 le_rfl
    exact absurd hret (by decide)
  · intro h
    have hparse : parse (ascii "\\u\x7bD800\x7d") =
        .ok ⟨[⟨[.init (.literal ⟨[0xD800], false⟩)], 1⟩], 1⟩ := rfl
    have hfill : generateFillUtf8 drawSource ⟨[⟨[.init (.literal ⟨[0xD800], false⟩)], 1⟩], 1⟩
        ⟨[], 1, []⟩ false ⟨fun _ => 0, 8, by decide⟩ =
          some (3, ⟨[], ⟨_, 3, 8⟩, 1, none, [], [0xD800], _⟩) := rfl
    have hutf8 : IsUtf8 (utf8EncodeAll [0xD800]) :=
      h _ _ hparse drawSource ⟨[], 1, []⟩ false _ _ _ hfill (by decide)
    exact ((isUtf8_encodeAll_iff (by decide)).mp hutf8 0xD800 (by decide)).2 (by decide)

end Passgen
