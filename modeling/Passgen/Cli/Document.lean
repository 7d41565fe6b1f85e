import Mathlib.Data.List.Basic
import Mathlib.Tactic.Common
import Passgen.Cli.Generate
import Passgen.Generate.Json
import Passgen.Json.Value
import Passgen.Util.Chunks

/-!
# Cli/Document — the document that is printed

    [{"output":"…","entropy":…},{"output":"…","entropy":…}]

With the option for JSON, everything that is printed is one document: a list with what was generated
each time.  It is read back so exactly when nothing was generated that a string of JSON does not
hold, and every entropy is printed as a number.
-/

namespace Passgen

/-! ## What is generated -/

/-- What one turn of the loop generates: the codepoints, none where it fails, and the entropy. -/
structure Output where
  text : List ℕ
  entropy : Option ℚ

section Document

variable {σ : Type} {source : Source σ} {pattern : Group} {entropy : Bool}
  (bits : ℕ → ℚ → List UInt8)

/-- What is generated, time after time. -/
inductive Outputs (source : Source σ) (pattern : Group) (entropy : Bool) :
    ℕ → Env σ → List Output → Prop where
  | nil {env : Env σ} : Outputs source pattern entropy 0 env []
  | cons {n ret : ℕ} {env : Env σ} {dest : Dest UInt8} {t : GenState σ (Fillpos UInt8)}
      {outs : List Output} (hlen : dest.len = passLen)
      (hfill : generateFillJsonUtf8 source pattern env entropy dest = some (ret, t))
      (hrest : Outputs source pattern entropy n (env.after t) outs) :
      Outputs source pattern entropy (n + 1) env
        (⟨if ret = 0 then [] else t.emitted, t.entropy⟩ :: outs)

/-! ## What is printed for it -/

/-- The codepoints of a string. -/
def codes (string : String) : List ℕ := string.toList.map Char.toNat

/-- The object of an output. -/
def Output.value (o : Output) : Json.Value :=
  .object ((codes "output", .string o.text) :: match o.entropy with
    | some entropy => [(codes "entropy", .number ((bits 6 entropy).map UInt8.toNat))]
    | none => [])

/-- How it is spelled. -/
def Output.spelled (o : Output) : List ℕ :=
  codes "\x7b\"output\":" ++ quotedText o.text ++ (match o.entropy with
    | some entropy => codes ",\"entropy\":" ++ (bits 6 entropy).map UInt8.toNat
    | none => []) ++ codes "\x7d"

/-- What is printed of an output: a string ends at its first zero. -/
def Output.shown (o : Output) : Output := ⟨o.text.takeWhile (· ≠ 0), o.entropy⟩

/-- The bytes that are printed of an output. -/
def Output.printed (o : Output) : List UInt8 :=
  ascii "\x7b\"output\":\"" ++ utf8EncodeAll (o.text.flatMap jsonText) ++ ascii "\"" ++
    (match o.entropy with
    | some entropy => ascii ",\"entropy\":" ++ bits 6 entropy
    | none => []) ++ ascii "\x7d"

/-- The entropy is printed as a number. -/
def Output.Numeric (o : Output) : Prop :=
  ∀ e ∈ o.entropy, Json.IsNumber ((bits 6 e).map UInt8.toNat)

/-- The bytes of the document. -/
def documentBytes (outs : List Output) : List UInt8 :=
  ascii "[" ++ joinFrom ','.toUInt8 0 (outs.map (Output.printed bits)) ++ ascii "]\n"

/-- The codepoints of the document. -/
def documentText (outs : List Output) : List ℕ :=
  '['.toNat :: [','.toNat].intercalate (outs.map (Output.spelled bits)) ++ [']'.toNat]

/-- The bytes are a text of JSON with that value. -/
def IsDocument (bytes : List UInt8) (value : Json.Value) : Prop :=
  ∃ text : List Char, bytes = text.flatMap String.utf8EncodeChar ∧
    Json.read (text.map Char.toNat) = some value

variable {bits}

/-! ## Spelling -/

theorem not_stray_le {c : ℕ} (h : ¬Stray c) : ¬(0xD800 ≤ c ∧ c ≤ 0xDBFF) :=
  fun hhigh => h (.inr ⟨hhigh.1, by omega⟩)

theorem says_text {text : List ℕ} (hmax : ∀ c ∈ text, c ≤ 0x10FFFF) (h : ∀ c ∈ text, ¬Stray c) :
    Json.Says (text.flatMap jsonText) text :=
  ⟨text, scan_flatMap_jsonText hmax h,
    (Json.joinSurrogates_eq_self fun c hc => not_stray_le (h c hc)).symm⟩

/-- **An output is spelled** where nothing in it is stray. -/
theorem Output.spells {o : Output} (hbits : o.Numeric bits)
    (hmax : ∀ c ∈ o.text, c ≤ 0x10FFFF) (h : ∀ c ∈ o.text, ¬Stray c) :
    Json.Spells (o.value bits) (o.spelled bits) := by
  have houtput : Json.Says (codes "output") (codes "output") := ⟨_, rfl, rfl⟩
  have hentropy : Json.Says (codes "entropy") (codes "entropy") := ⟨_, rfl, rfl⟩
  have htext : Json.Spells (.string o.text) (quotedText o.text) := .string (says_text hmax h)
  have hopen : codes "\x7b\"output\":"
      = '\x7b'.toNat :: Json.quoted (codes "output") ++ [':'.toNat] := rfl
  have hcomma : codes ",\"entropy\":"
      = ','.toNat :: Json.quoted (codes "entropy") ++ [':'.toNat] := rfl
  have hclose : codes "\x7d" = ['\x7d'.toNat] := rfl
  rw [Output.value, Output.spelled, hopen, hcomma, hclose]
  rw [Output.Numeric] at hbits
  cases hentropies : o.entropy with
  | none =>
    have hmembers := Json.Spells.members (.last houtput htext)
    simp only [List.append_assoc, List.cons_append, List.nil_append] at hmembers ⊢
    exact hmembers
  | some e =>
    have hmembers := Json.Spells.members
      (.more houtput htext (.last hentropy (.number (hbits e hentropies))))
    simp only [List.append_assoc, List.cons_append, List.nil_append] at hmembers ⊢
    exact hmembers

/-- **The document is read** as the list of its outputs, where nothing in them is stray. -/
theorem read_documentText {outs : List Output} (hbits : ∀ o ∈ outs, o.Numeric bits)
    (hmax : ∀ o ∈ outs, ∀ c ∈ o.text, c ≤ 0x10FFFF)
    (h : ∀ o ∈ outs, ∀ c ∈ o.text, ¬Stray c) :
    Json.read (documentText bits outs ++ [10]) = some (.array (outs.map (Output.value bits))) := by
  refine Json.read_of_spells (Json.spells_array fun o ho => ?_) fun c hc => ?_
  · exact Output.spells (hbits o ho) (hmax o ho) (h o ho)
  · rw [List.mem_singleton.mp hc]
    decide

/-! ## What is in the document -/

/-- The codepoints of an output are in the document. -/
theorem mem_documentText {outs : List Output} {o : Output} (ho : o ∈ outs) {c : ℕ}
    (hc : c ∈ o.spelled bits) : c ∈ documentText bits outs := by
  rw [documentText]
  refine List.mem_append_left _ (List.mem_cons_of_mem _ ?_)
  cases outs with
  | nil => exact absurd ho List.not_mem_nil
  | cons p outs =>
    rw [List.map_cons, Json.intercalate_cons, List.mem_append]
    rcases List.mem_cons.mp ho with rfl | ho
    · exact .inl hc
    · exact .inr (List.mem_flatMap.mpr
        ⟨_, List.mem_map_of_mem ho, List.mem_cons_of_mem _ hc⟩)

/-- Those of the document are its own, or in an output. -/
theorem forall_documentText {P : ℕ → Prop} (hascii : ∀ c < 0x80, P c) {outs : List Output}
    (h : ∀ o ∈ outs, ∀ c ∈ o.spelled bits, P c) : ∀ c ∈ documentText bits outs, P c := by
  have hjoin : ∀ c ∈ [','.toNat].intercalate (outs.map (Output.spelled bits)), P c := by
    cases outs with
    | nil => exact fun c hc => absurd hc List.not_mem_nil
    | cons o outs =>
      obtain ⟨ho, hrest⟩ := List.forall_mem_cons.mp h
      rw [List.map_cons, Json.intercalate_cons]
      refine List.forall_mem_append.mpr ⟨ho, fun c hc => ?_⟩
      obtain ⟨text, htext, hc⟩ := List.mem_flatMap.mp hc
      obtain ⟨p, hp, rfl⟩ := List.mem_map.mp htext
      rcases List.mem_cons.mp hc with rfl | hc
      · exact hascii _ (by decide)
      · exact hrest p hp c hc
  refine List.forall_mem_append.mpr ⟨List.forall_mem_cons.mpr ⟨hascii _ (by decide), hjoin⟩, ?_⟩
  exact fun c hc => List.mem_singleton.mp hc ▸ hascii _ (by decide)

theorem forall_spelled {P : ℕ → Prop} (hascii : ∀ c < 0x80, P c) {o : Output}
    (hbits : o.Numeric bits) (h : ∀ c ∈ o.text, P c) : ∀ c ∈ o.spelled bits, P c := by
  have hcodes : ∀ string, (∀ c ∈ codes string, c < 0x80) → ∀ c ∈ codes string, P c :=
    fun _ hlt c hc => hascii c (hlt c hc)
  have hentropy : ∀ c ∈ (match o.entropy with
      | some entropy => codes ",\"entropy\":" ++ (bits 6 entropy).map UInt8.toNat
      | none => []), P c := by
    cases hentropies : o.entropy with
    | none => exact fun c hc => absurd hc List.not_mem_nil
    | some e =>
      refine List.forall_mem_append.mpr ⟨hcodes _ (by decide), fun c hc => hascii c ?_⟩
      exact ((hbits e hentropies).mem c hc).lt
  refine List.forall_mem_append.mpr ⟨List.forall_mem_append.mpr
    ⟨List.forall_mem_append.mpr ⟨hcodes _ (by decide), ?_⟩, hentropy⟩, hcodes _ (by decide)⟩
  exact forall_quotedText hascii h

/-! ## The bytes -/

theorem utf8EncodeAll_toNat {w : List UInt8} (h : ∀ b ∈ w, b.toNat < 0x80) :
    utf8EncodeAll (w.map UInt8.toNat) = w := by
  rw [utf8EncodeAll, List.flatMap_map]
  refine (List.flatMap_congr fun b hb => ?_).trans (List.flatMap_singleton' w)
  rw [utf8Encode, utf8EncodeCodepoint, if_pos (Nat.le_of_lt_succ (h b hb)), UInt8.ofNat_toNat,
    Option.getD_some]

/-- **An output is printed as it is spelled** where its entropy is a number. -/
theorem utf8EncodeAll_spelled {o : Output} (hbits : o.Numeric bits) :
    utf8EncodeAll (o.spelled bits) = o.printed bits := by
  have hquoted : utf8EncodeAll (quotedText o.text)
      = ascii "\"" ++ utf8EncodeAll (o.text.flatMap jsonText) ++ ascii "\"" :=
    (utf8EncodeAll_quotedText o.text).symm
  have hopen : ascii "\x7b\"output\":\""
      = utf8EncodeAll (codes "\x7b\"output\":") ++ ascii "\"" := rfl
  have hcomma : ascii ",\"entropy\":" = utf8EncodeAll (codes ",\"entropy\":") := rfl
  have hclose : ascii "\x7d" = utf8EncodeAll (codes "\x7d") := rfl
  have hentropy : utf8EncodeAll (match o.entropy with
      | some entropy => codes ",\"entropy\":" ++ (bits 6 entropy).map UInt8.toNat
      | none => []) = match o.entropy with
      | some entropy => ascii ",\"entropy\":" ++ bits 6 entropy
      | none => [] := by
    cases hentropies : o.entropy with
    | none => rfl
    | some e =>
      have hnumber : utf8EncodeAll ((bits 6 e).map UInt8.toNat) = bits 6 e :=
        utf8EncodeAll_toNat fun b hb =>
          ((hbits e hentropies).mem _ (List.mem_map_of_mem hb)).lt
      simp only [utf8EncodeAll_append, hnumber, hcomma]
  rw [Output.spelled, Output.printed, utf8EncodeAll_append, utf8EncodeAll_append,
    utf8EncodeAll_append, hquoted, hentropy, hopen, hclose]
  simp only [List.append_assoc]

/-- What is printed of an output, behind a comma but for the first. -/
theorem printJson_eq (bits : ℕ → ℚ → List UInt8) (i : ℕ) (o : Output) :
    printJson bits i (utf8EncodeAll (o.text.flatMap jsonText)) o.entropy =
      (if i = 0 then o.printed bits else ','.toUInt8 :: o.printed bits, []) := by
  cases i with
  | zero => rfl
  | succ i => rfl

/-- The document is printed, output after output. -/
theorem utf8EncodeAll_documentText {outs : List Output} (hbits : ∀ o ∈ outs, o.Numeric bits) :
    utf8EncodeAll (documentText bits outs ++ [10]) = documentBytes bits outs := by
  have hprinted : outs.map (fun o => utf8EncodeAll (o.spelled bits))
      = outs.map (Output.printed bits) :=
    List.map_congr_left fun o ho => utf8EncodeAll_spelled (hbits o ho)
  have hjoin : utf8EncodeAll ([','.toNat].intercalate (outs.map (Output.spelled bits)))
      = joinFrom ','.toUInt8 0 (outs.map (Output.printed bits)) := by
    rw [joinFrom_zero, ← hprinted]
    cases outs with
    | nil => rfl
    | cons o outs =>
      rw [List.map_cons, List.map_cons, Json.intercalate_cons, Json.intercalate_cons,
        utf8EncodeAll_append, List.flatMap_map, List.flatMap_map, utf8EncodeAll, utf8EncodeAll,
        List.flatMap_assoc]
      rfl
  have hopen : utf8EncodeAll ['['.toNat] = ascii "[" := rfl
  have hclose : utf8EncodeAll [']'.toNat, 10] = ascii "]\n" := rfl
  have hsplit : documentText bits outs ++ [10] = ['['.toNat]
      ++ [','.toNat].intercalate (outs.map (Output.spelled bits)) ++ [']'.toNat, 10] := by
    rw [documentText, List.append_assoc]
    rfl
  rw [hsplit, utf8EncodeAll_append, utf8EncodeAll_append, hjoin, hopen, hclose, documentBytes]

/-! ## The loop -/

/-- A string of codepoints ends at the first zero of them. -/
theorem cString_utf8EncodeAll {cs : List ℕ} (hmax : ∀ c ∈ cs, c ≤ 0x10FFFF) :
    cString (utf8EncodeAll cs) = utf8EncodeAll (cs.takeWhile (· ≠ 0)) := by
  induction cs with
  | nil => rfl
  | cons c cs ih =>
    obtain ⟨hc, hcs⟩ := List.forall_mem_cons.mp hmax
    by_cases hzero : c = 0
    · rw [hzero, List.takeWhile_cons_of_neg (by decide)]
      rfl
    · have hbytes : ∀ b ∈ utf8Encode c, decide (b ≠ 0) = true := fun b hb =>
        decide_eq_true fun hb0 =>
          hzero ((zero_mem_utf8EncodeCodepoint (utf8EncodeCodepoint_eq hc)).mp (hb0 ▸ hb))
      rw [List.takeWhile_cons_of_pos (p := fun d => decide (d ≠ 0)) (decide_eq_true hzero),
        utf8EncodeAll, utf8EncodeAll, List.flatMap_cons, List.flatMap_cons, cString,
        List.takeWhile_append_of_pos hbytes]
      exact congrArg _ (ih hcs)

/-- Nothing is escaped as a zero, or with one. -/
theorem ne_zero_of_mem_jsonText {c d : ℕ} (hc : c ≠ 0) (hd : d ∈ jsonText c) : d ≠ 0 := by
  rw [jsonText] at hd
  cases h : jsonLetter c with
  | none =>
    rw [h] at hd
    exact List.mem_singleton.mp hd ▸ hc
  | some letter =>
    rw [h] at hd
    simp only [List.mem_cons, List.not_mem_nil, or_false] at hd
    rcases hd with rfl | rfl
    · decide
    · have := Json.shortEscape_lt (jsonLetter_spec h).2.1
      omega

theorem takeWhile_flatMap_jsonText (cs : List ℕ) :
    (cs.flatMap jsonText).takeWhile (· ≠ 0) = (cs.takeWhile (· ≠ 0)).flatMap jsonText := by
  induction cs with
  | nil => rfl
  | cons c cs ih =>
    by_cases hzero : c = 0
    · rw [hzero, List.takeWhile_cons_of_neg (by decide)]
      rfl
    · have htext : ∀ d ∈ jsonText c, decide (d ≠ 0) = true := fun d hd =>
        decide_eq_true (ne_zero_of_mem_jsonText hzero hd)
      rw [List.takeWhile_cons_of_pos (p := fun d => decide (d ≠ 0)) (decide_eq_true hzero),
        List.flatMap_cons, List.flatMap_cons, List.takeWhile_append_of_pos htext, ih]

/-- **What is in the buffer** is the output, escaped. -/
theorem holds_output {env : Env σ} {dest : Dest UInt8} {ret : ℕ} {t : GenState σ (Fillpos UInt8)}
    (hfill : generateFillJsonUtf8 source pattern env entropy dest = some (ret, t)) :
    ∃ w, ret = w.length ∧ t.data.buffer.Holds w ∧ w.length ≤ dest.len ∧
      (∀ c ∈ (if ret = 0 then [] else t.emitted), c ≤ 0x10FFFF) ∧
      w = utf8EncodeAll ((if ret = 0 then [] else t.emitted).flatMap jsonText) := by
  have hnone : ∀ c ∈ ([] : List ℕ), c ≤ 0x10FFFF := fun _ hc => absurd hc List.not_mem_nil
  rcases generateFill_cases writes_writeBufferJsonUtf8 hfill with
    ⟨u, w, hyields, hfilled⟩ | ⟨rfl, -⟩
  · obtain ⟨hmax, hw⟩ := of_encodeAll_jsonEscape hyields.encodes
    rw [← hfilled.emitted] at hmax hw
    refine ⟨w, hfilled.length, hfilled.holds, hyields.fits, ?_⟩
    by_cases hret : ret = 0
    · rw [if_pos hret]
      exact ⟨hnone, List.length_eq_zero_iff.mp (hfilled.length.symm.trans hret)⟩
    · rw [if_neg hret]
      exact ⟨hmax, hw⟩
  · exact ⟨[], rfl, Memory.Store.holds_nil _, Nat.zero_le _, hnone, rfl⟩

/-- **The loop prints what is generated**, output after output. -/
theorem cliLoop_json {n i : ℕ} {pass : ℕ → UInt8} {env env' : Env σ} {out err : List UInt8}
    (hloop : cliLoop (fun env dest => generateFillJsonUtf8 source pattern env entropy dest)
      (printJson bits) n i pass env = some (out, err, env')) :
    ∃ outs, Outputs source pattern entropy n env outs ∧
      (∀ o ∈ outs, ∀ c ∈ o.text, c ≤ 0x10FFFF) ∧
      out = joinFrom ','.toUInt8 i (outs.map fun o => o.shown.printed bits) := by
  induction n generalizing i pass env env' out err with
  | zero =>
    obtain ⟨rfl, -⟩ := Prod.mk.inj (Option.some.inj hloop)
    exact ⟨[], .nil, fun o ho => absurd ho List.not_mem_nil, rfl⟩
  | succ n ih =>
    obtain ⟨⟨ret, t⟩, hfill, hloop⟩ := Option.bind_eq_some_iff.mp hloop
    dsimp only [Option.bind_eq_bind] at hloop
    obtain ⟨⟨outs, errs, env''⟩, hlater, hout⟩ := Option.bind_eq_some_iff.mp hloop
    obtain ⟨later, hgenerated, hmax, rfl⟩ := ih hlater
    obtain ⟨w, hret, hholds, hfits, htext, hw⟩ := holds_output hfill
    let o : Output := ⟨if ret = 0 then [] else t.emitted, t.entropy⟩
    have hprinted : cString ((t.data.buffer.set ret 0).first (passLen + 1))
        = utf8EncodeAll (o.shown.text.flatMap jsonText) := by
      rw [hret, cString_first hholds hfits, hw,
        cString_utf8EncodeAll (forall_jsonText (fun c hc => by omega) htext),
        takeWhile_flatMap_jsonText]
      rfl
    have hprint := printJson_eq bits i o.shown
    rw [← hprinted] at hprint
    refine ⟨o :: later, .cons rfl hfill hgenerated, List.forall_mem_cons.mpr ⟨htext, hmax⟩, ?_⟩
    obtain ⟨hout, -⟩ := Prod.mk.inj (Option.some.inj hout)
    rw [← hout, List.map_cons, joinFrom]
    exact congrArg (·.1 ++ _) hprint

/-! ## The document -/

theorem jsonLetter_of_stray {c : ℕ} (h : Stray c) : jsonLetter c = none := by
  rcases h with ⟨-, hnone⟩ | hsurrogate
  · exact hnone
  · unfold jsonLetter
    repeat rw [if_neg (by omega)]

/-- What is stray is in no text of JSON. -/
theorem not_stray_of_mem {text : List Char} {value : Json.Value}
    (hread : Json.read (text.map Char.toNat) = some value) {c : ℕ} (hc : c ∈ text.map Char.toNat) :
    ¬Stray c := by
  rintro (⟨hlow, hnone⟩ | hsurrogate)
  · rcases Json.le_or_isSpace_of_read hread c hc with hle | rfl | rfl | rfl | rfl
    · omega
    · omega
    all_goals exact absurd hnone (by decide)
  · obtain ⟨char, -, rfl⟩ := List.mem_map.mp hc
    exact (isScalar_char char).2 hsurrogate

theorem Output.numeric_of_value {outs : List Output}
    (h : (Json.Value.array (outs.map (Output.value bits))).Numeric) {o : Output} (ho : o ∈ outs) :
    o.Numeric bits := by
  intro e he
  cases h with
  | array hitems =>
    have hvalue := hitems _ (List.mem_map_of_mem ho)
    rw [Output.value, he] at hvalue
    cases hvalue with
    | object hmembers =>
      cases hmembers _ (List.mem_cons_of_mem _ List.mem_cons_self) with
      | number h => exact h

theorem Output.text_eq {o p : Output} (h : o.value bits = p.value bits) : o.text = p.text := by
  rw [Output.value, Output.value] at h
  have hmembers := List.cons.inj (Json.Value.object.inj h)
  exact Json.Value.string.inj (Prod.mk.inj hmembers.1).2

/-- An output without zeros is shown in full. -/
theorem Output.shown_eq {o : Output} (h : 0 ∉ o.text) : o.shown = o := by
  have htext : o.text.takeWhile (· ≠ 0) = o.text :=
    List.takeWhile_eq_self_iff.mpr fun c hc => decide_eq_true fun hzero => h (hzero ▸ hc)
  rw [Output.shown, htext]

/-- **The document is read as what was generated** exactly when nothing in it is stray, and every
entropy is a number. -/
theorem isDocument_iff {outs : List Output} (hmax : ∀ o ∈ outs, ∀ c ∈ o.text, c ≤ 0x10FFFF) :
    IsDocument (documentBytes bits (outs.map Output.shown))
        (.array (outs.map (Output.value bits))) ↔
      ∀ o ∈ outs, (∀ c ∈ o.text, ¬Stray c) ∧ o.Numeric bits := by
  have hshown : ∀ o ∈ outs.map Output.shown, ∀ c ∈ o.text, c ≤ 0x10FFFF := by
    intro p hp c hc
    obtain ⟨o, ho, rfl⟩ := List.mem_map.mp hp
    exact hmax o ho c ((List.takeWhile_prefix _).subset hc)
  have hnewline : ∀ {P : ℕ → Prop}, P 10 → ∀ c ∈ [10], P c := fun h c hc =>
    List.mem_singleton.mp hc ▸ h
  constructor
  · rintro ⟨text, hbytes, hread⟩
    have hnumeric : ∀ o ∈ outs, o.Numeric bits := fun o ho =>
      Output.numeric_of_value (Json.numeric_of_read hread) ho
    have hprinted : ∀ o ∈ outs.map Output.shown, o.Numeric bits := by
      intro p hp
      obtain ⟨o, ho, rfl⟩ := List.mem_map.mp hp
      exact hnumeric o ho
    rw [← utf8EncodeAll_chars, ← utf8EncodeAll_documentText hprinted] at hbytes
    have hlong : ∀ c ∈ documentText bits (outs.map Output.shown) ++ [10], c ≤ 0x10FFFF :=
      List.forall_mem_append.mpr ⟨forall_documentText (fun c hc => by omega) fun o ho =>
        forall_spelled (fun c hc => by omega) (hprinted o ho) (hshown o ho), hnewline (by decide)⟩
    have hchars : ∀ c ∈ text.map Char.toNat, c ≤ 0x10FFFF := by
      intro c hc
      obtain ⟨char, -, rfl⟩ := List.mem_map.mp hc
      exact (isScalar_char char).1
    have heq := utf8EncodeAll_inj hlong hchars hbytes
    have hclean : ∀ o ∈ outs.map Output.shown, ∀ c ∈ o.text, ¬Stray c := by
      intro o ho c hc hstray
      refine not_stray_of_mem hread (c := c) (heq ▸ List.mem_append_left _ ?_) hstray
      refine mem_documentText ho (List.mem_append_left _ (List.mem_append_left _
        (List.mem_append_right _ ?_)))
      exact mem_quotedText hc (jsonLetter_of_stray hstray)
    have hvalues : Json.read (documentText bits (outs.map Output.shown) ++ [10]) = _ :=
      heq ▸ hread
    rw [read_documentText hprinted hshown hclean, Option.some_inj, Json.Value.array.injEq,
      List.map_map] at hvalues
    intro o ho
    have htext := Output.text_eq (List.map_inj_left.mp hvalues o ho)
    have := hclean o.shown (List.mem_map_of_mem ho)
    exact ⟨by rwa [htext] at this, hnumeric o ho⟩
  · intro h
    have hself : outs.map Output.shown = outs :=
      (List.map_congr_left fun o ho => Output.shown_eq fun hzero =>
        (h o ho).1 0 hzero (.inl (by decide))).trans (List.map_id outs)
    have hnumeric : ∀ o ∈ outs, o.Numeric bits := fun o ho => (h o ho).2
    have hscalar : ∀ c ∈ documentText bits outs ++ [10], IsScalar c :=
      List.forall_mem_append.mpr ⟨forall_documentText (fun c hc => ⟨by omega, by omega⟩) fun o ho =>
        forall_spelled (fun c hc => ⟨by omega, by omega⟩) (hnumeric o ho) fun c hc =>
          ⟨hmax o ho c hc, fun hsurrogate => (h o ho).1 c hc (.inr hsurrogate)⟩,
        hnewline (by decide)⟩
    obtain ⟨text, htext⟩ := exists_chars hscalar
    rw [hself]
    refine ⟨text, ?_, ?_⟩
    · rw [← utf8EncodeAll_chars, htext, utf8EncodeAll_documentText hnumeric]
    · rw [htext]
      exact read_documentText hnumeric hmax fun o ho => (h o ho).1

/-- **With the option for JSON one document is printed**, and it is read as the list of what was
generated, turn by turn, exactly when nothing stray was generated and every entropy was printed as a
number. -/
theorem json_document {opts : CliOpts σ} (hjson : opts.json = true) {pass : ℕ → UInt8}
    {run : CliRun σ} (h : cliGenerate source bits opts pattern (some pass) = some run) :
    ∃ outs, Outputs source pattern opts.entropy opts.amount opts.env outs ∧
      (IsDocument run.stdout (.array (outs.map (Output.value bits))) ↔
        ∀ o ∈ outs, (∀ c ∈ o.text, ¬Stray c) ∧ o.Numeric bits) := by
  rw [cliGenerate, if_pos hjson] at h
  obtain ⟨⟨out, err, env⟩, hloop, rfl⟩ := Option.map_eq_some_iff.mp h
  obtain ⟨outs, hgenerated, hmax, rfl⟩ := cliLoop_json hloop
  refine ⟨outs, hgenerated, ?_⟩
  rw [← isDocument_iff hmax, documentBytes, List.map_map]
  rfl

/-- Zeros, as they are printed of a number. -/
def zeroBits (decimals : ℕ) : List UInt8 := ascii "0." ++ List.replicate decimals 48

theorem json_document_accentTwice :
    ∃ run, cliGenerate zeroSource (fun decimals _ => zeroBits decimals)
        ⟨2, false, true, true, ⟨(), 32, []⟩⟩ accentTwice (some fun _ => 255) = some run ∧
      ∃ outs, Outputs zeroSource accentTwice true 2 ⟨(), 32, []⟩ outs ∧
        (IsDocument run.stdout
            (.array (outs.map (Output.value fun decimals _ => zeroBits decimals))) ↔
          ∀ o ∈ outs, (∀ c ∈ o.text, ¬Stray c) ∧
            o.Numeric fun decimals _ => zeroBits decimals) := by
  obtain ⟨run, hrun⟩ : ∃ run, cliGenerate zeroSource (fun decimals _ => zeroBits decimals)
      ⟨2, false, true, true, ⟨(), 32, []⟩⟩ accentTwice (some fun _ => 255) = some run :=
    Option.isSome_iff_exists.mp (by decide +kernel)
  exact ⟨run, hrun, json_document rfl hrun⟩

end Document

end Passgen
