import Mathlib.Data.List.Basic
import Mathlib.Data.List.Forall2
import Mathlib.Tactic.Common
import Passgen.Generate.Width
import Passgen.Parser.Print

/-!
# Generate/Literal — text that is to be produced as it is

    s ─ escape ▸ pattern ─ parse ▸ tree ─ generate ▸ s

Escaping protects the control characters, but the parser compares codepoints as `char`, modulo 256:
`U+0128` is read as `(`.  Without such codepoints the tree always emits `s` (`Spells`).  With one,
whatever tree results emits less than the length of `s` (`Spent`).
-/

namespace Passgen

/-! ## Escaping -/

/-- The characters that are written after a backslash. -/
def bracketing : List ℕ := ['|', '(', ')', '{', '}', '[', ']'].map Char.toNat

/-- How a codepoint is written to be taken literally. -/
def escapeChar (c : ℕ) : List ℕ :=
  if c ∈ bracketing then ['\\'.toNat, c]
  else if c = '\\'.toNat then ['\\'.toNat, '\\'.toNat]
  else if c = '?'.toNat then ['['.toNat, '?'.toNat, ']'.toNat]
  else [c]

/-- A text, written to be taken literally. -/
def escape (s : List ℕ) : List ℕ := s.flatMap escapeChar

/-- The tokens of an escaped codepoint. -/
def escapedTokens (c : ℕ) : List ℕ :=
  if c ∈ bracketing then [escapedToken c]
  else if c = '?'.toNat then ['['.toNat, '?'.toNat, ']'.toNat]
  else [c]

/-- A codepoint that is no ASCII character, and is a control character modulo 256. -/
def Mistaken (c : ℕ) : Prop := 256 ≤ c ∧ ∃ d ∈ controls, asChar c = d.toNat

instance : DecidablePred Mistaken := fun c =>
  decidable_of_iff (256 ≤ c ∧ asChar c ∈ controls.map Char.toNat) (by simp [Mistaken, eq_comm])

theorem lt_of_mem_bracketing {c : ℕ} (hc : c ∈ bracketing) : c < 128 ∧ 0 < c := by
  have hall : ∀ d ∈ bracketing, d < 128 ∧ 0 < d := by decide
  exact hall c hc

theorem spellable_of_lt {c : ℕ} (hc : c < 2 ^ 30) : Spellable c := .inl hc

theorem spellable_of_mem_bracketing {c : ℕ} (hc : c ∈ bracketing) :
    Spellable (escapedToken c) := by
  have hall : ∀ d ∈ bracketing, ¬(d < simpleEscapedSize ∧ simpleEscaped d ≠ 0) ∧ d ≠ 'u'.toNat := by
    decide
  obtain ⟨hsimple, hu⟩ := hall c hc
  exact .inr ⟨c, (lt_of_mem_bracketing hc).1.trans (by decide), rfl, hsimple, hu⟩

/-- An escaped codepoint is its tokens, spelled. -/
theorem escapeChar_eq {c : ℕ} (hc : IsScalar c) :
    escapeChar c = (escapedTokens c).flatMap spell := by
  have hlt := hc.lt_escaped
  have hesc : ¬isEscaped c = true := by
    rw [isEscaped_of_lt hlt]
    exact Bool.false_ne_true
  rw [escapeChar, escapedTokens]
  by_cases hmem : c ∈ bracketing
  · rw [if_pos hmem, if_pos hmem, List.flatMap_singleton, spell,
      if_pos (isEscaped_escapedToken c), clearEscaped_escapedToken hlt]
  rw [if_neg hmem, if_neg hmem]
  by_cases hback : c = '\\'.toNat
  · subst hback
    decide
  rw [if_neg hback]
  by_cases hmark : c = '?'.toNat
  · subst hmark
    decide
  · rw [if_neg hmark, List.flatMap_singleton, spell, if_neg hesc, if_neg hback]

theorem spellable_escapedTokens {c t : ℕ} (hc : IsScalar c) (ht : t ∈ escapedTokens c) :
    Spellable t := by
  rw [escapedTokens] at ht
  split at ht
  · rename_i hmem
    rw [List.mem_singleton.mp ht]
    exact spellable_of_mem_bracketing hmem
  split at ht
  · have hall : ∀ d ∈ ['['.toNat, '?'.toNat, ']'.toNat], d < 2 ^ 30 := by decide
    exact spellable_of_lt (hall t ht)
  · rw [List.mem_singleton.mp ht]
    exact spellable_of_lt hc.lt_escaped

theorem isScalar_of_mem_escape {s : List ℕ} (hs : ∀ c ∈ s, IsScalar c) {c : ℕ}
    (hc : c ∈ escape s) : IsScalar c := by
  have hascii : ∀ d ∈ ['\\'.toNat, '['.toNat, '?'.toNat, ']'.toNat], IsScalar d := by
    have hall : ∀ d ∈ ['\\'.toNat, '['.toNat, '?'.toNat, ']'.toNat], d < 128 := by decide
    exact fun d hd => ⟨by have := hall d hd; omega, by have := hall d hd; omega⟩
  obtain ⟨d, hd, hc⟩ := List.mem_flatMap.mp hc
  rw [escapeChar] at hc
  split at hc
  · rcases List.mem_cons.mp hc with rfl | hc
    · exact hascii _ (by simp)
    · exact List.mem_singleton.mp hc ▸ hs d hd
  split at hc
  · exact hascii c (by simp at hc ⊢; omega)
  split at hc
  · exact hascii c (by simp at hc ⊢; omega)
  · exact List.mem_singleton.mp hc ▸ hs d hd

/-- **The parser runs over the escaped codepoints one after the other.** -/
theorem parse_escape_iff {s : List ℕ} (hs : ∀ c ∈ s, IsScalar c) (g : Group) :
    parse (utf8EncodeAll (escape s)) = .ok g ↔
      ∃ state, parseStates (s.flatMap escapedTokens) parserInit.state = some state ∧
        finish state = some g := by
  have hspell : escape s = (s.flatMap escapedTokens).flatMap spell := by
    rw [escape, List.flatMap_assoc]
    exact List.flatMap_congr fun c hc => escapeChar_eq (hs c hc)
  have hlex : lex .init (escape s) = some (s.flatMap escapedTokens) := by
    rw [hspell]
    refine lex_flatMap_spell fun t ht => ?_
    obtain ⟨c, hc, ht⟩ := List.mem_flatMap.mp ht
    exact spellable_escapedTokens (hs c hc) ht
  rw [parse_encodeAll_iff fun c hc => isScalar_of_mem_escape hs hc, hlex]
  constructor
  · rintro ⟨_, state, ⟨⟩, hrun, hfinish⟩
    exact ⟨state, hrun, hfinish⟩
  · rintro ⟨state, hrun, hfinish⟩
    exact ⟨_, state, rfl, hrun, hfinish⟩

/-! ## Text without mistaken codepoints -/

/-- The set `[?]`. -/
def markSet : PatternSet := ⟨[⟨'?'.toNat, '?'.toNat⟩], [1]⟩

/-- The items that always emit the same. -/
inductive Fixed : Item → Prop where
  | literal (literal : Literal) : Fixed (.mk (.literal literal) ⟨1, 1⟩ false)
  | mark : Fixed (.mk (.set markSet) ⟨1, 1⟩ false)

/-- What such an item emits. -/
def Item.fixedWord : Item → List ℕ
  | .mk (.literal literal) _ _ => literal.codepoints
  | .mk (.set _) _ _ => ['?'.toNat]
  | _ => []

/-- The segment always emits `s`. -/
structure Spells (segment : Segment) (s : List ℕ) : Prop where
  multiplier : segment.multiplier = 1
  items : ∀ item ∈ segment.items, Fixed item
  word : segment.items.flatMap Item.fixedWord = s

namespace Spells

variable {segment : Segment} {s : List ℕ}

theorem clean (h : Spells segment s) : segmentClean segment = segment := by
  rw [segmentClean]
  split
  · rename_i hlast
    have hitem := h.items _ (List.mem_of_getLast? hlast)
    cases hitem
  · rfl

/-- An item that is pushed. -/
theorem push (h : Spells segment s) {item : Item} (hitem : Fixed item) :
    Spells (segment.push item) (s ++ item.fixedWord) := by
  refine ⟨h.multiplier, fun i hi => ?_, ?_⟩
  · rcases List.mem_append.mp hi with hi | hi
    · exact h.items i hi
    · exact List.mem_singleton.mp hi ▸ hitem
  · rw [SegmentOf.push, List.flatMap_append, List.flatMap_singleton, h.word]

/-- **A codepoint is appended**, packed or not. -/
theorem appendChar (h : Spells segment s) (c : ℕ) : Spells (appendChar segment c) (s ++ [c]) := by
  have hfresh : Spells (segment.push (.init (.literal ⟨[c], false⟩))) (s ++ [c]) :=
    h.push (.literal ⟨[c], false⟩)
  rcases List.eq_nil_or_concat segment.items with hnil | ⟨init, last, hconcat⟩
  · rw [Passgen.appendChar, hnil]
    exact hfresh
  rw [List.concat_eq_append] at hconcat
  have hlast := h.items last (by rw [hconcat]; simp)
  rw [Passgen.appendChar, hconcat, List.getLast?_concat]
  cases hlast with
  | mark => exact hfresh
  | literal literal =>
    simp only [literalAppend]
    split
    · rename_i packed happend
      split at happend
      · exact absurd happend (by simp)
      obtain rfl := Option.some.inj happend
      have hword := h.word
      rw [hconcat, List.flatMap_append, List.flatMap_singleton] at hword
      refine ⟨h.multiplier, fun i hi => ?_, ?_⟩
      · rw [SegmentOf.modifyLast, hconcat, List.modifyLast_concat, List.mem_append,
          List.mem_singleton] at hi
        rcases hi with hi | rfl
        · exact h.items i (by rw [hconcat]; exact List.mem_append_left _ hi)
        · exact .literal _
      · rw [SegmentOf.modifyLast, hconcat, List.modifyLast_concat, List.flatMap_append,
          List.flatMap_singleton, ← hword, List.append_assoc]
        rfl
    · exact hfresh

end Spells

/-- **A question mark in brackets is a set of its own.** -/
theorem parseStates_mark (g : Group) (segment : Segment) (rest : List ParserState) :
    parseStates ['['.toNat, '?'.toNat, ']'.toNat] (.group g segment :: rest)
      = some (.group g ((segmentClean segment).push (.init (.set markSet))) :: rest) := by
  have hopen : parseState '['.toNat (.group g segment :: rest)
      = some (.set false
        :: .group g ((segmentClean segment).push (.init (.set setInit))) :: rest) :=
    rfl
  rw [parseStates_cons, hopen, Option.bind_some, parseStates_cons, parseState, parseSet,
    if_neg (by decide), if_neg (by decide), if_neg (by decide), SegmentOf.modifyLast_push,
    Option.bind_some, parseStates_cons, parseState, parseSet, if_pos rfl,
    SegmentOf.modifyLast_push]
  rfl

/-- The state of a parser that has only seen text. -/
def textState (segment : Segment) : List ParserState := [.group ⟨[], 1⟩ segment]

/-- **An escaped codepoint that is not mistaken is text.** -/
theorem parseStates_escapedTokens {segment : Segment} {s : List ℕ} (h : Spells segment s) {c : ℕ}
    (hc : IsScalar c) (hne : ¬Mistaken c) :
    ∃ segment', parseStates (escapedTokens c) (textState segment) = some (textState segment') ∧
      Spells segment' (s ++ [c]) := by
  have hlt := hc.lt_escaped
  rw [escapedTokens]
  split
  · rename_i hmem
    refine ⟨appendChar segment c, ?_, h.appendChar c⟩
    have htext : isEscapedText c := by
      have hall : ∀ d ∈ bracketing, isEscapedText d := by decide
      exact hall c hmem
    rw [parseStates_cons, textState, parseState, parseGroup, h.clean,
      if_pos (isEscaped_escapedToken c), clearEscaped_escapedToken hlt, if_pos htext]
    rfl
  split
  · rename_i hmark
    have hset := parseStates_mark ⟨[], 1⟩ segment []
    rw [h.clean] at hset
    exact ⟨_, hset, hmark ▸ h.push .mark⟩
  · rename_i hmem hmark
    refine ⟨appendChar segment c, ?_, h.appendChar c⟩
    have hchar : ∀ d ∈ controls, asChar c ≠ d.toNat := by
      intro d hd heq
      by_cases hlarge : 256 ≤ c
      · exact hne ⟨hlarge, d, hd, heq⟩
      · rw [asChar, Nat.mod_eq_of_lt (by omega)] at heq
        have hall : ∀ d ∈ controls.map Char.toNat, d ∈ bracketing ∨ d = '?'.toNat := by decide
        rcases hall d.toNat (List.mem_map_of_mem hd) with hbracket | hd'
        · exact hmem (heq ▸ hbracket)
        · exact hmark (heq.trans hd')
    have hesc : ¬isEscaped c = true := by
      rw [isEscaped_of_lt hlt]
      exact Bool.false_ne_true
    simp only [controls, List.forall_mem_cons] at hchar
    obtain ⟨hbar, hclose, hopen, hset, hbrace, hmaybe, -⟩ := hchar
    rw [parseStates_cons, textState, parseState, parseGroup, h.clean, if_neg hesc, if_neg hbar,
      if_neg hclose, if_neg hopen, if_neg hset, if_neg hbrace, if_neg hmaybe]
    rfl

theorem spells_segmentInit : Spells segmentInit [] :=
  ⟨rfl, fun _ h => absurd h List.not_mem_nil, rfl⟩

/-- **Text without mistaken codepoints parses to a segment that spells it.** -/
theorem parseStates_text {segment : Segment} {done s : List ℕ} (h : Spells segment done)
    (hs : ∀ c ∈ s, IsScalar c) (hne : ∀ c ∈ s, ¬Mistaken c) :
    ∃ segment', parseStates (s.flatMap escapedTokens) (textState segment)
        = some (textState segment') ∧ Spells segment' (done ++ s) := by
  induction s generalizing segment done with
  | nil => exact ⟨segment, rfl, by rwa [List.append_nil]⟩
  | cons c s ih =>
    obtain ⟨mid, hrun, hmid⟩ := parseStates_escapedTokens h (hs c List.mem_cons_self)
      (hne c List.mem_cons_self)
    obtain ⟨segment', hrest, hsegment'⟩ := ih hmid (fun d hd => hs d (List.mem_cons_of_mem c hd))
      fun d hd => hne d (List.mem_cons_of_mem c hd)
    refine ⟨segment', ?_, by rwa [List.append_assoc, List.singleton_append] at hsegment'⟩
    rw [List.flatMap_cons, parseStates_append, hrun, Option.bind_some, hrest]

section Always

variable {σ δ : Type} {host : Host σ δ}

/-- The computation returns and emits `w`, from every state. -/
def Always (x : Gen σ δ Unit) (w : List ℕ) : Prop :=
  ∀ s, ∃ t, Effect.Returns x s () t ∧ t.emitted = s.emitted ++ w

theorem always_pure : Always (pure () : Gen σ δ Unit) [] :=
  fun s => ⟨s, Effect.returns_pure_iff.mpr ⟨rfl, rfl⟩, (List.append_nil _).symm⟩

theorem Always.seq {x y : Gen σ δ Unit} {v w : List ℕ} (hx : Always x v) (hy : Always y w) :
    Always (x >>= fun _ => y) (v ++ w) := by
  intro s
  obtain ⟨t, ht, hemitted⟩ := hx s
  obtain ⟨u, hu, hemitted'⟩ := hy t
  exact ⟨u, Effect.returns_bind_iff.mpr ⟨(), t, ht, hu⟩,
    by rw [hemitted', hemitted, List.append_assoc]⟩

/-- A draw below one is zero. -/
theorem exists_draw_one (hexits : host.source.Exits) (site : Site) (s : GenState σ δ) :
    ∃ t, Effect.Returns (drawBelow host site 1) s 0 t ∧ t.emitted = s.emitted := by
  obtain ⟨⟨v, random⟩, hdraw⟩ := Option.isSome_iff_exists.mp (hexits s.random 1 (by decide))
  obtain rfl := Nat.lt_one_iff.mp (host.source.u64Max_lt hdraw)
  exact ⟨_, returns_drawBelow_iff.mpr ⟨random, hdraw, rfl⟩, rfl⟩

/-- What follows a draw below one. -/
theorem Always.draw (hexits : host.source.Exits) {site : Site} {f : ℕ → Gen σ δ Unit} {w : List ℕ}
    (hf : Always (f 0) w) : Always (drawBelow host site 1 >>= f) w := by
  intro s
  obtain ⟨t, ht, hemitted⟩ := exists_draw_one hexits site s
  obtain ⟨u, hu, hemitted'⟩ := hf t
  exact ⟨u, Effect.returns_bind_iff.mpr ⟨0, t, ht, hu⟩, by rw [hemitted', hemitted]⟩

/-- What follows the step down into a group, while there is depth left. -/
theorem exists_returns_descend {s : GenState σ δ} (hdepth : 1 ≤ s.depth) {x : Gen σ δ Unit}
    {P : GenState σ δ → Prop}
    (h : ∃ t, Effect.Returns x { s with depth := s.depth - 1 } () t ∧ P t) :
    ∃ t, Effect.Returns (descend >>= fun _ => x) s () t ∧ P t := by
  obtain ⟨t, ht, hP⟩ := h
  exact ⟨t, Effect.returns_bind_iff.mpr ⟨(), _, returns_descend_iff.mpr ⟨by omega, rfl⟩, ht⟩, hP⟩

theorem Always.scale {f : ℚ → ℚ} {x : Gen σ δ Unit} {w : List ℕ} (hx : Always x w) :
    Always ((modify fun s => { s with entropy := s.entropy.map f }) >>= fun _ => x) w := by
  intro s
  obtain ⟨t, ht, hemitted⟩ := hx { s with entropy := s.entropy.map f }
  exact ⟨t, Effect.returns_bind_iff.mpr ⟨(), _, Effect.returns_modify_iff.mpr rfl, ht⟩, hemitted⟩

variable (hfunc : ∀ d c, (host.func d c).1 = 0)
include hfunc

theorem always_emit (codepoint : ℕ) : Always (emit host codepoint) [codepoint] :=
  fun _ => ⟨_, returns_emit_iff.mpr ⟨hfunc _ _, rfl⟩, rfl⟩

theorem always_emitAll (codepoints : List ℕ) : Always (emitAll host codepoints) codepoints := by
  induction codepoints with
  | nil => exact always_pure
  | cons c codepoints ih => exact (always_emit hfunc c).seq ih

variable (hexits : host.source.Exits)
include hexits

/-- **A fixed item emits its word**, whatever is drawn. -/
theorem Fixed.always {item : Item} (h : Fixed item) :
    Always (item.generate host) item.fixedWord := by
  have hcopy : ∀ {x : Gen σ δ Unit} {w : List ℕ}, Always x w → Always (Effect.times 1 x) w := by
    intro x w hx
    have hseq := hx.seq always_pure
    rwa [List.append_nil] at hseq
  cases h with
  | literal literal =>
    rw [Item.generate_mk]
    exact hcopy (always_emitAll hfunc literal.codepoints)
  | mark =>
    rw [Item.generate_mk]
    exact hcopy (Always.draw hexits (Always.scale (always_emit hfunc _)))

/-- **A segment that spells a text emits it**, from every state that admits one level. -/
theorem Spells.generate {segment : Segment} {text : List ℕ} (h : Spells segment text)
    {s : GenState σ δ} (hdepth : 1 ≤ s.depth) :
    ∃ t, Effect.Returns (generate host ⟨[segment], 1⟩) s () t ∧
      t.emitted = s.emitted ++ text := by
  have hitems : ∀ items : List Item, (∀ item ∈ items, Fixed item) →
      Always (Effect.inOrder (items.map (Item.generate host))) (items.flatMap Item.fixedWord) := by
    intro items hall
    induction items with
    | nil => exact always_pure
    | cons item items ih =>
      exact ((hall item List.mem_cons_self).always hfunc hexits).seq
        (ih fun i hi => hall i (List.mem_cons_of_mem item hi))
  have hascend : Always (ascend : Gen σ δ Unit) [] :=
    fun s => ⟨_, Effect.returns_modify_iff.mpr rfl, (List.append_nil _).symm⟩
  have hsegment := (hitems segment.items h.items).seq hascend
  rw [h.word, List.append_nil] at hsegment
  have hchoose : chooseSegment (GroupOf.map (Item.generate host) ⟨[segment], 1⟩).segments 0
      = some (0, segment.map (Item.generate host)) := by
    change chooseSegment [segment.map (Item.generate host)] 0 = _
    rw [chooseSegment, SegmentOf.multiplier_map, h.multiplier]
    rfl
  refine exists_returns_descend hdepth ?_
  refine Always.draw hexits ?_ { s with depth := s.depth - 1 }
  rw [hchoose]
  exact hsegment.scale.scale

end Always

/-! ## Text with a mistaken codepoint

Once a codepoint was mistaken there is one codepoint more read than can be emitted.  A mistaken
brace starts a repeat or a multiplier, which no unescaped brace will end. -/

/-- The account of a run over escaped text: `mistaken` of the `consumed` codepoints are missing. -/
def Spent (consumed mistaken : ℕ) : List ParserState → Prop
  | .group g last :: rest =>
    mistaken ≤ consumed ∧ Within (consumed - mistaken) (.group g last :: rest)
  | .set _ :: rest | .setRange :: rest => Within consumed rest
  | .multiplier :: _ | .repeat :: _ | .repeatRange :: _ => True
  | _ => False

/-- **What a token spends**, when it neither ends a set nor a brace nor starts a special. -/
theorem Step.spent {t : ℕ} {state state' : List ParserState} (hstep : Step t state state')
    {consumed mistaken mistaken' : ℕ} (h : Spent consumed mistaken state)
    (hbrace : t ≠ '}'.toNat) (hset : t ≠ ']'.toNat)
    (hkind : isEscaped t = true → specialKind (clearEscaped t) = none)
    (hone : mistaken' ≤ 1) (htext : ∀ c, IsText t c → mistaken' = mistaken) :
    Spent (consumed + 1) mistaken' state' := by
  have hless : ∀ {g last rest}, mistaken ≤ consumed →
      Within (consumed - mistaken) (.group g last :: rest) →
      Within (consumed + 1 - mistaken') (.group g last :: rest) :=
    fun hle hwithin => hwithin.mono (by omega)
  cases hstep with
  | @text g s rest c ht =>
    obtain ⟨hle, hwithin⟩ := h
    obtain rfl := htext c ht
    have honce := (within_group_iff.mp hwithin.clean).1.2
    have happend := hwithin.clean.last (honce.appendChar ignoresText_once c)
      (SegmentOf.width_appendChar_le _ c)
    exact ⟨by omega, happend.mono (by omega)⟩
  | special kind ht hkind' => exact absurd ((hkind ht).symm.trans hkind') (by simp)
  | bar => exact ⟨by omega, hless h.1 (h.2.clean.bar _)⟩
  | recycle => exact ⟨by omega, hless h.1 h.2.recycle⟩
  | close => exact ⟨by omega, hless h.1 h.2.clean.close⟩
  | openGroup =>
    refine ⟨by omega, within_cons_iff.mpr ⟨⟨?_, ?_⟩, (hless h.1 h.2.clean).once, ?_⟩⟩
    · exact fun _ hi => absurd hi List.not_mem_nil
    · exact fun _ hi => absurd hi List.not_mem_nil
    · exact (Nat.zero_add _).trans_le (hless h.1 h.2.clean).width_le
  | openSet =>
    have honce : (Item.init (.set setInit)).Once := Item.once_mk.mpr ⟨trivial, rfl⟩
    have hwidth : (Item.init (.set setInit)).width = 1 := rfl
    exact (h.2.clean.push honce).mono (by omega)
  | openRepeat => trivial
  | openMultiplier => trivial
  | maybe ht hlast => exact ⟨by omega, hless h.1 (h.2.clean.maybe hlast)⟩
  | multiplierEnd ht => exact absurd ht hbrace
  | multiplierDigit => trivial
  | setEnd ht => exact absurd ht hset
  | setRange => exact h.mono (Nat.le_succ _)
  | setEscaped => exact (h.modifySet _).mono (Nat.le_succ _)
  | setPush => exact (h.modifySet _).mono (Nat.le_succ _)
  | setExtend => exact (h.modifySet _).mono (Nat.le_succ _)
  | repeatEnd ht => exact absurd ht hbrace
  | repeatComma => trivial
  | repeatDigit => trivial
  | repeatRangeEnd ht => exact absurd ht hbrace
  | repeatRangeDigit => trivial
  | nameOpen => exact h.elim
  | nameEnd => exact h.elim
  | namePush => exact h.elim

/-- What a question mark in brackets spends: in a set, it ends the set. -/
theorem spent_mark {state state' : List ParserState} {consumed mistaken : ℕ}
    (h : Spent consumed mistaken state) (hone : mistaken ≤ 1)
    (hrun : parseStates ['['.toNat, '?'.toNat, ']'.toNat] state = some state') :
    Spent (consumed + 1) mistaken state' := by
  obtain ⟨next, hopen, hrest⟩ := parseStates_cons_eq_some_iff.mp hrun
  have hinside : ∀ {g s rest}, Within consumed (.group g s :: rest) →
      next = .set true :: .group g s :: rest → Spent (consumed + 1) mistaken state' := by
    rintro g s rest hwithin rfl
    have hclose : parseStates ['?'.toNat, ']'.toNat] (.set true :: .group g s :: rest)
        = some (.group g ((s.modifyLast (Item.modifySet (setPush '?'.toNat))).modifyLast
          (Item.modifySet setClose)) :: rest) := rfl
    obtain rfl := Option.some.inj (hclose.symm.trans hrest)
    exact ⟨by omega, ((hwithin.modifySet _).modifySet _).mono (by omega)⟩
  match state, h with
  | .group g s :: rest, h =>
    obtain rfl := Option.some.inj ((parseStates_mark g s rest).symm.trans hrun)
    have hwidth : (Item.init (.set markSet)).width = 1 := rfl
    have honce : (Item.init (.set markSet)).Once := Item.once_mk.mpr ⟨trivial, rfl⟩
    have hle := h.1
    exact ⟨by omega, (h.2.clean.push honce).mono (by omega)⟩
  | .set range :: rest, h =>
    cases step_of_parseState hopen with
    | setEnd ht => exact absurd ht (by decide)
    | setRange ht => exact absurd ht (by decide)
    | setEscaped ht => exact absurd ht (by decide)
    | setPush => exact hinside (h.modifySet _) rfl
  | .setRange :: rest, h =>
    cases step_of_parseState hopen with
    | setExtend => exact hinside (h.modifySet _) rfl
  | .multiplier :: rest, _ =>
    cases step_of_parseState hopen with
    | multiplierEnd ht => exact absurd ht (by decide)
    | multiplierDigit ht => exact absurd ht (by decide)
  | .repeat :: rest, _ =>
    cases step_of_parseState hopen with
    | repeatEnd ht => exact absurd ht (by decide)
    | repeatComma ht => exact absurd ht (by decide)
    | repeatDigit ht => exact absurd ht (by decide)
  | .repeatRange :: rest, _ =>
    cases step_of_parseState hopen with
    | repeatRangeEnd ht => exact absurd ht (by decide)
    | repeatRangeDigit ht => exact absurd ht (by decide)

/-- What an escaped codepoint spends. -/
theorem spent_escapedTokens {c : ℕ} (hc : IsScalar c) {state state' : List ParserState}
    {consumed mistaken : ℕ} (h : Spent consumed mistaken state) (hone : mistaken ≤ 1)
    (hrun : parseStates (escapedTokens c) state = some state') :
    Spent (consumed + 1) (if Mistaken c then 1 else mistaken) state' := by
  have hlt := hc.lt_escaped
  rw [escapedTokens] at hrun
  split at hrun
  · rename_i hmem
    have hnot : ¬Mistaken c := fun h => by have := lt_of_mem_bracketing hmem; have := h.1; omega
    obtain ⟨next, hstep, ⟨⟩⟩ := parseStates_cons_eq_some_iff.mp hrun
    have hplain : ∀ d : Char, d.toNat < 2 ^ 30 → escapedToken c ≠ d.toNat := by
      intro d hd heq
      have := isEscaped_of_lt hd
      rw [← heq, isEscaped_escapedToken] at this
      exact absurd this (by decide)
    rw [if_neg hnot]
    refine (step_of_parseState hstep).spent h (hplain '}' (by decide)) (hplain ']' (by decide))
      (fun _ => ?_) hone fun _ _ => rfl
    have hall : ∀ d ∈ bracketing, specialKind d = none := by decide
    rw [clearEscaped_escapedToken hlt]
    exact hall c hmem
  split at hrun
  · rename_i hmark
    have hnot : ¬Mistaken c := by
      rw [hmark]
      decide
    rw [if_neg hnot]
    exact spent_mark h hone hrun
  · rename_i hmem hmark
    obtain ⟨next, hstep, ⟨⟩⟩ := parseStates_cons_eq_some_iff.mp hrun
    have hesc := isEscaped_of_lt hlt
    refine (step_of_parseState hstep).spent h ?_ ?_
      (fun h => absurd (h.symm.trans hesc) (by decide)) (by split <;> omega) fun d ht => if_neg ?_
    · rintro rfl
      exact hmem (by decide)
    · rintro rfl
      exact hmem (by decide)
    · rintro ⟨-, e, he, hchar⟩
      exact ht.not_isControl he ⟨hesc, hchar⟩

/-- **What a text spends.** -/
theorem spent_text {s : List ℕ} (hs : ∀ c ∈ s, IsScalar c) {state state' : List ParserState}
    {consumed mistaken : ℕ} (h : Spent consumed mistaken state) (hone : mistaken ≤ 1)
    (hrun : parseStates (s.flatMap escapedTokens) state = some state') :
    Spent (consumed + s.length) (if ∃ c ∈ s, Mistaken c then 1 else mistaken) state' := by
  induction s generalizing state consumed mistaken with
  | nil =>
    obtain rfl := Option.some.inj hrun
    simpa using h
  | cons c s ih =>
    rw [List.flatMap_cons, parseStates_append] at hrun
    obtain ⟨next, hfirst, hrest⟩ := Option.bind_eq_some_iff.mp hrun
    have hnext := spent_escapedTokens (hs c List.mem_cons_self) h hone hfirst
    have hspent := ih (fun d hd => hs d (List.mem_cons_of_mem c hd)) hnext
      (by split <;> omega) hrest
    have hcount : (if ∃ d ∈ c :: s, Mistaken d then 1 else mistaken)
        = if ∃ d ∈ s, Mistaken d then 1 else if Mistaken c then 1 else mistaken := by
      simp only [List.mem_cons, or_and_right, exists_or, exists_eq_left]
      by_cases hc : Mistaken c <;> simp [hc]
    rw [hcount, List.length_cons, Nat.add_comm s.length 1, ← Nat.add_assoc]
    exact hspent

/-- **A text with a mistaken codepoint parses, if at all, to a pattern that is too short.** -/
theorem width_lt_of_mistaken {s : List ℕ} (hs : ∀ c ∈ s, IsScalar c) (hbad : ∃ c ∈ s, Mistaken c)
    {g : Group} (hparse : parse (utf8EncodeAll (escape s)) = .ok g) :
    (∀ segment ∈ g.segments, segment.All Item.Once) ∧ Group.width g < s.length := by
  obtain ⟨state, hrun, hfinish⟩ := (parse_escape_iff hs g).mp hparse
  have hinit : Spent 0 0 parserInit.state :=
    ⟨le_rfl, within_group_iff.mpr ⟨⟨fun _ h => absurd h List.not_mem_nil,
      fun _ h => absurd h List.not_mem_nil⟩, fun _ h => absurd h List.not_mem_nil, le_rfl⟩⟩
  have hspent := spent_text hs hinit (by decide) hrun
  rw [if_pos hbad] at hspent
  obtain ⟨group, segment, rfl, rfl⟩ := finish_eq_some_iff.mp hfinish
  obtain ⟨hle, hwithin⟩ := hspent
  obtain ⟨⟨hgroup, -⟩, -, hwidth⟩ :=
    within_group_iff.mp (hwithin.clean.bar group.multiplierSum)
  refine ⟨hgroup, ?_⟩
  have : SegmentOf.width segmentInit = 0 := rfl
  simp only [List.map_nil, List.sum_nil] at hwidth
  omega

/-! ## Literal text -/

/-- The text can be produced literally: escaped, it parses to a pattern that always emits it. -/
def Literally (s : List ℕ) : Prop :=
  ∃ pattern, parse (utf8EncodeAll (escape s)) = .ok pattern ∧
    ∀ {σ δ : Type} (host : Host σ δ), host.source.Exits → (∀ d c, (host.func d c).1 = 0) →
      ∀ (random : σ) (data : δ) (depthLimit : ℕ) (entropy : Bool)
        (wordlists : List (List UInt8 × Wordlist)), 1 ≤ depthLimit →
        ∃ t, Effect.Returns (generate host pattern)
            (GenState.init random data depthLimit entropy wordlists) () t ∧
          t.emitted = s

/-- **A text can be produced literally exactly when no codepoint is mistaken for a control
character.** -/
theorem literally_iff {s : List ℕ} (hs : ∀ c ∈ s, IsScalar c) :
    Literally s ↔ ∀ c ∈ s, ¬Mistaken c := by
  constructor
  · rintro ⟨pattern, hparse, hemits⟩ c hc hbad
    obtain ⟨honce, hwidth⟩ := width_lt_of_mistaken hs ⟨c, hc, hbad⟩ hparse
    obtain ⟨t, ht, hemitted⟩ := hemits ⟨zeroSource, fun d _ => (0, d)⟩ zeroSource_exits
      (fun _ _ => rfl) () () 1 false [] le_rfl
    obtain ⟨w, hw, heq⟩ := emits_generateGroup_atMost
      (fun segment hsegment item hitem =>
        emits_item_atMost item (honce segment hsegment item hitem)) _ _ ht
    have hlength := mem_atMost.mp hw
    rw [show w = s from heq.symm.trans hemitted] at hlength
    omega
  · intro hne
    obtain ⟨segment, hrun, hspells⟩ := parseStates_text spells_segmentInit hs hne
    rw [List.nil_append] at hspells
    refine ⟨⟨[segment], 1⟩, (parse_escape_iff hs _).mpr ⟨_, hrun, ?_⟩, ?_⟩
    · have hfinish : finish (textState segment) = some ⟨[segmentClean segment], 1⟩ := rfl
      rw [hfinish, hspells.clean]
    · intro σ δ host hexits hfunc random data depthLimit entropy wordlists hdepth
      exact hspells.generate hfunc hexits hdepth

/-- Control characters, a question mark and a letter of another script. -/
theorem literally_sample : Literally [40, 63, 92, 0x3B1] :=
  (literally_iff (s := [40, 63, 92, 0x3B1]) (by decide)).mpr (by decide)

/-- `U+0128`, alone, is read as an open parenthesis. -/
theorem not_literally_openGroup : ¬Literally [0x128] := by
  rintro ⟨pattern, hparse, -⟩
  have hrejected : ∀ state, parseStates ([0x128].flatMap escapedTokens) parserInit.state
      = some state → finish state = none := by
    rintro _ ⟨⟩
    rfl
  obtain ⟨state, hrun, hfinish⟩ := (parse_escape_iff (by decide) pattern).mp hparse
  exact absurd ((hrejected state hrun).symm.trans hfinish) (by simp)

end Passgen
