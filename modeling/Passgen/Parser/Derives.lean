import Mathlib.Data.List.Basic
import Mathlib.Tactic.Common
import Passgen.Parser.Escapes
import Passgen.Parser.Grammar
import Passgen.Parser.Modifiers
import Passgen.Parser.Names
import Passgen.Parser.Reading
import Passgen.Util.IllFormed

/-!
# Parser/Derives — the patterns that are accepted, with their trees

    string    bytes of codepoints, and of the start of one more
    codepoints    spelling spelling …
    tokens    elem*
    elem := text | special | '(' elem* ')' | '[' range* ']' | '{' … '}' | '?' | '|'

A grammar with attributes: an element makes of an open group and its last segment another group and
segment, and says nothing of the stack.  What is derivable is a run of the parser (`Derives.run`),
and a run that can be finished is derivable: the tokens read so far are elements between the
parentheses that are still open, and at most one element that has been begun (`Reached`).  So the
accepted patterns are those of the grammar, and the tree is its attribute (`parse_iff_derives`).
-/

namespace Passgen

/-! ## The grammar -/

/-- Ranges a set can have written in it: a start is not escaped, but for a dash; a dash that is not
escaped is the start of the first range only. -/
structure SetText (text : List RangeText) : Prop where
  start : ∀ x ∈ text, x.start ≠ ']'.toNat ∧
    (isEscaped x.start = true → clearEscaped x.start = '-'.toNat)
  dash : ∀ x ∈ text.tail, x.start ≠ '-'.toNat
  ends : ∀ x ∈ text, ∀ e ∈ x.ends, e ≠ ']'.toNat

theorem SetText.nil : SetText [] :=
  ⟨fun _ h => absurd h List.not_mem_nil, fun _ h => absurd h List.not_mem_nil,
    fun _ h => absurd h List.not_mem_nil⟩

theorem setText_concat_iff {text : List RangeText} {x : RangeText} :
    SetText (text ++ [x]) ↔ SetText text ∧
      (x.start ≠ ']'.toNat ∧ (isEscaped x.start = true → clearEscaped x.start = '-'.toNat)) ∧
        ((!text.isEmpty) = true → x.start ≠ '-'.toNat) ∧ ∀ e ∈ x.ends, e ≠ ']'.toNat := by
  constructor
  · rintro ⟨hstart, hdash, hends⟩
    rw [List.forall_mem_append, List.forall_mem_singleton] at hstart hends
    cases text with
    | nil => exact ⟨.nil, hstart.2, fun h => absurd h Bool.false_ne_true, hends.2⟩
    | cons y text =>
      rw [List.cons_append, List.tail_cons, List.forall_mem_append, List.forall_mem_singleton]
        at hdash
      exact ⟨⟨hstart.1, hdash.1, hends.1⟩, hstart.2, fun _ => hdash.2, hends.2⟩
  · rintro ⟨⟨hstart, hdash, hends⟩, hx, hx', hx''⟩
    refine ⟨?_, ?_, ?_⟩
    · exact List.forall_mem_append.mpr ⟨hstart, List.forall_mem_singleton.mpr hx⟩
    · cases text with
      | nil => exact fun _ h => absurd h List.not_mem_nil
      | cons y text =>
        exact List.forall_mem_append.mpr ⟨hdash, List.forall_mem_singleton.mpr (hx' rfl)⟩
    · exact List.forall_mem_append.mpr ⟨hends, List.forall_mem_singleton.mpr hx''⟩

/-- The item of an open set. -/
def openSet (text : List RangeText) : Item := .init (.set ⟨text.map RangeText.range, []⟩)

/-- The group of an opening parenthesis. -/
def groupOpen : Group := { groupInit with multiplierSum := 1 }

mutual

/-- Elements one behind the other: what they make of the group `g` and its last segment `s`. -/
inductive Derives : Group → Segment → List ℕ → Group → Segment → Prop
  | nil {g s} : Derives g s [] g s
  | snoc {g s ts g' s' e g'' s''} (h : Derives g s ts g' s') (he : DerivesElem g' s' e g'' s'') :
      Derives g s (ts ++ e) g'' s''

/-- The elements. -/
inductive DerivesElem : Group → Segment → List ℕ → Group → Segment → Prop
  | text {g s t} (c : ℕ) (ht : IsText t c) :
      DerivesElem g s [t] g (appendChar (segmentClean s) c)
  | bar {g s t} (ht : IsControl t '|') (hs : 0 < (segmentClean s).multiplier) :
      DerivesElem g s [t] ⟨g.segments ++ [segmentClean s], sizeT (g.multiplierSum + 1)⟩ segmentInit
  | recycle {g s t} (ht : IsControl t '|') (hs : (segmentClean s).multiplier = 0) :
      DerivesElem g s [t] g segmentInit
  | group {g s t ts u inner last} (ht : IsControl t '(') (hu : IsControl u ')')
      (h : Derives groupOpen segmentInit ts inner last) :
      DerivesElem g s (t :: ts ++ [u]) g ((segmentClean s).push (.init (.group
        (groupFinish { inner with segments := keptSegments inner (segmentClean last) }))))
  | set {g s t text} (ht : IsControl t '[') (htext : SetText text) :
      DerivesElem g s (t :: text.flatMap RangeText.tokens ++ [']'.toNat]) g
        ((segmentClean s).push ((openSet text).modifySet setClose))
  | special {g s t kind name} (ht : isEscaped t = true)
      (hkind : specialKind (clearEscaped t) = some kind) (hname : '}'.toNat ∉ name) :
      DerivesElem g s (t :: '{'.toNat :: name ++ ['}'.toNat]) g
        ((segmentClean s).push (.init (.special (storedAs kind name))))
  | multiplier {g s t ds} (ht : IsControl t '{') (hs : (segmentClean s).items = [])
      (hds : ∀ d ∈ ds, isDigit d) :
      DerivesElem g s (t :: ds ++ ['}'.toNat])
        { g with multiplierSum := sizeT (sizeSub g.multiplierSum 1 + sizeT (decimal ds)) }
        { segmentClean s with multiplier := sizeT (decimal ds) }
  | count {g s s' t ds} (ht : IsControl t '{')
      (hs : lastSingleItemTaint (segmentClean s) = some s') (hds : ∀ d ∈ ds, isDigit d) :
      DerivesElem g s (t :: ds ++ ['}'.toNat]) g
        (s'.withBounds ⟨sizeT (decimal ds), sizeT (decimal ds)⟩)
  | range {g s s' t ds es} (ht : IsControl t '{')
      (hs : lastSingleItemTaint (segmentClean s) = some s') (hds : ∀ d ∈ ds, isDigit d)
      (hes : ∀ e ∈ es, isDigit e) :
      DerivesElem g s (t :: ds ++ ','.toNat :: es ++ ['}'.toNat]) g
        (s'.withBounds ⟨sizeT (decimal ds), sizeT (decimal es)⟩)
  | maybe {g s s' t} (ht : IsControl t '?')
      (hs : lastSingleItemTaint (segmentClean s) = some s') :
      DerivesElem g s [t] g (s'.modifyLast fun item => .mk item.data item.rep true)

end

/-- The tokens of a pattern, with its tree. -/
def DerivesPattern (tokens : List ℕ) (pattern : Group) : Prop :=
  ∃ g s, Derives groupOpen segmentInit tokens g s ∧
    { g with segments := g.segments ++ [segmentClean s] } = pattern

/-! ## What is derivable is read -/

section Run

variable {g g' : Group} {s s' : Segment} {rest : List ParserState}

theorem parseState_text {t c : ℕ} (ht : IsText t c) (s : Segment) :
    parseState t (.group g s :: rest) =
      some (.group g (appendChar (segmentClean s) c) :: rest) := by
  rw [parseState, parseGroup]
  rcases ht with ⟨hesc, hne, rfl⟩ | ⟨hesc, htext, rfl⟩
  · simp only [controls, List.forall_mem_cons] at hne
    obtain ⟨hbar, hclose, hopen, hset, hbrace, hmaybe, -⟩ := hne
    rw [hesc, if_neg Bool.false_ne_true, if_neg hbar, if_neg hclose, if_neg hopen, if_neg hset,
      if_neg hbrace, if_neg hmaybe]
  · rw [if_pos hesc, if_pos htext]

theorem parseState_special {t : ℕ} {kind : SpecialKind} (ht : isEscaped t = true)
    (hkind : specialKind (clearEscaped t) = some kind) (s : Segment) :
    parseState t (.group g s :: rest) = some (.special
      :: .group g ((segmentClean s).push (.init (.special (storedAs kind [])))) :: rest) := by
  have htext : ¬isEscapedText (clearEscaped t) := fun htext => by
    have hnone := textOf_of_specialKind ht hkind
    rw [textOf, if_pos ht, if_pos htext] at hnone
    cases hnone
  rw [parseState, parseGroup, if_pos ht, if_neg htext, hkind]
  rfl

theorem parseState_control_set {t : ℕ} (ht : IsControl t '[') (s : Segment) :
    parseState t (.group g s :: rest) =
      some (.set false :: .group g ((segmentClean s).push (openSet [])) :: rest) :=
  parseState_control g rest ht (by decide) s

/-- A set that is read, with ranges so far. -/
def readingSet (g : Group) (s : Segment) (rest : List ParserState) (range : Bool)
    (text : List RangeText) : List ParserState :=
  .set range :: .group g (s.push (openSet text)) :: rest

theorem modifyLast_openSet (text : List RangeText) (t : ℕ) :
    (s.push (openSet text)).modifyLast (Item.modifySet (setPush (rangeStart t)))
      = s.push (openSet (text ++ [.single t])) := by
  rw [SegmentOf.modifyLast_push, openSet, openSet, List.map_append]
  rfl

/-- The start of a range. -/
theorem parseState_start {x : RangeText} {range : Bool} {text : List RangeText}
    (hend : x.start ≠ ']'.toNat)
    (hesc : isEscaped x.start = true → clearEscaped x.start = '-'.toNat)
    (hdash : range = true → x.start ≠ '-'.toNat) :
    parseState x.start (readingSet g s rest range text) =
      some (readingSet g s rest true (text ++ [.single x.start])) := by
  rw [readingSet, parseState, parseSet, if_neg hend, if_neg fun h => hdash h.1 h.2, readingSet,
    ← modifyLast_openSet, rangeStart]
  cases hescaped : isEscaped x.start with
  | true => rw [if_pos rfl, if_pos (hesc hescaped), if_pos rfl]
  | false => rw [if_neg Bool.false_ne_true, if_neg Bool.false_ne_true]

theorem lastSet_openSet (text : List RangeText) :
    lastSet (s.push (openSet text)) = some ⟨text.map RangeText.range, []⟩ := by
  rw [lastSet, SegmentOf.push, List.getLast?_concat]
  rfl

theorem getLast?_ranges (text : List RangeText) (x : RangeText) :
    ((text ++ [x]).map RangeText.range).getLast? = some x.range := by
  rw [List.map_append, List.map_singleton, List.getLast?_concat]

theorem modifyLast_extend {text : List RangeText} {x : RangeText} {e : ℕ}
    (hle : rangeStart x.start ≤ e) :
    (s.push (openSet (text ++ [x]))).modifyLast (Item.modifySet (setExtend e))
      = s.push (openSet (text ++ [x.extend e hle])) := by
  rw [SegmentOf.modifyLast_push, openSet, openSet, List.map_append, List.map_append,
    List.map_singleton, List.map_singleton, RangeText.range_extend]
  simp only [Item.init, Item.modifySet, setExtend, List.modifyLast_concat]

theorem flatMap_tokens_extend (text : List RangeText) (x : RangeText) {e : ℕ}
    (hle : rangeStart x.start ≤ e) :
    (text ++ [x.extend e hle]).flatMap RangeText.tokens
      = (text ++ [x]).flatMap RangeText.tokens ++ ['-'.toNat, e] := by
  rw [List.flatMap_append, List.flatMap_append, List.flatMap_singleton, List.flatMap_singleton,
    RangeText.tokens_extend, List.append_assoc]

/-- One more end of the last range. -/
theorem parseStates_end {x : RangeText} {text : List RangeText} {e : ℕ} (hend : e ≠ ']'.toNat)
    (hle : rangeStart x.start ≤ e) :
    parseStates ['-'.toNat, e] (readingSet g s rest true (text ++ [x])) =
      some (readingSet g s rest true (text ++ [x.extend e hle])) := by
  have hdash : parseState '-'.toNat (readingSet g s rest true (text ++ [x])) =
      some (.setRange :: .group g (s.push (openSet (text ++ [x]))) :: rest) := rfl
  have hnot : ¬e < x.range.start := Nat.not_lt.mpr hle
  rw [parseStates_cons, hdash, Option.bind_some, parseStates_cons, parseState, parseSetRange,
    if_neg hend, lastSet_openSet, Option.bind_some, getLast?_ranges]
  simp only [if_neg hnot, Option.bind_some, modifyLast_extend hle, parseStates_nil, readingSet]

/-- **A range is read.** -/
theorem parseStates_range_text {x : RangeText} {range : Bool} {text : List RangeText}
    (hend : x.start ≠ ']'.toNat)
    (hesc : isEscaped x.start = true → clearEscaped x.start = '-'.toNat)
    (hdash : range = true → x.start ≠ '-'.toNat) (hends : ∀ e ∈ x.ends, e ≠ ']'.toNat) :
    parseStates x.tokens (readingSet g s rest range text) =
      some (readingSet g s rest true (text ++ [x])) := by
  obtain ⟨start, ends, hle⟩ := x
  induction ends using List.reverseRecOn with
  | nil =>
    rw [RangeText.tokens, List.flatMap_nil, parseStates_cons, parseState_start hend hesc hdash]
    rfl
  | append_singleton ends e ih =>
    obtain ⟨hle', he⟩ := List.forall_mem_append.mp hle
    have hlast := List.forall_mem_singleton.mp he
    have hread := ih hle' hend hesc hdash fun e' he' => hends e' (List.mem_append_left _ he')
    have htokens := RangeText.tokens_extend ⟨start, ends, hle'⟩ e hlast
    have hlast' := hends e (List.mem_append_right _ (List.mem_singleton_self e))
    have hstep : parseStates ['-'.toNat, e]
        (readingSet g s rest true (text ++ [⟨start, ends, hle'⟩])) = _ :=
      parseStates_end hlast' hlast
    calc parseStates (RangeText.tokens ⟨start, ends ++ [e], hle⟩) _
        = parseStates (RangeText.tokens ⟨start, ends, hle'⟩ ++ ['-'.toNat, e])
            (readingSet g s rest range text) := by rw [← htokens]; rfl
      _ = some (readingSet g s rest true (text ++ [⟨start, ends ++ [e], hle⟩])) := by
        rw [parseStates_append, hread, Option.bind_some, hstep]
        rfl

/-- **The ranges of a set are read.** -/
theorem SetText.run {text : List RangeText} (h : SetText text) :
    parseStates (text.flatMap RangeText.tokens) (readingSet g s rest false []) =
      some (readingSet g s rest (!text.isEmpty) text) := by
  induction text using List.reverseRecOn with
  | nil => rfl
  | append_singleton text x ih =>
    obtain ⟨hfront, ⟨hend, hesc⟩, hdash, hends⟩ := setText_concat_iff.mp h
    rw [List.flatMap_append, List.flatMap_singleton, parseStates_append, ih hfront,
      Option.bind_some, parseStates_range_text hend hesc hdash hends]
    cases text <;> rfl

/-- A name that is read, with tokens so far. -/
def readingName (g : Group) (s : Segment) (rest : List ParserState) (kind : SpecialKind)
    (name : List ℕ) : List ParserState :=
  .specialName :: .group g (s.push (.init (.special (storedAs kind name)))) :: rest

/-- The tokens of a name. -/
theorem parseStates_name {name : List ℕ} (hname : '}'.toNat ∉ name) (kind : SpecialKind) :
    parseStates name (readingName g s rest kind []) = some (readingName g s rest kind name) := by
  induction name using List.reverseRecOn with
  | nil => rfl
  | append_singleton name t ih =>
    obtain ⟨hname, ht⟩ := not_or.mp (mt List.mem_append.mpr hname)
    have hne : t ≠ '}'.toNat := fun heq => ht (heq ▸ List.mem_singleton_self t)
    rw [parseStates_append, ih hname, Option.bind_some, readingName, parseStates_cons, parseState,
      parseSpecialName, if_neg hne, SegmentOf.modifyLast_push, readingName, storedAs_concat]
    rfl

mutual

/-- **What is derivable is a run of the parser**, on any stack. -/
theorem Derives.run : ∀ {g s ts g' s'}, Derives g s ts g' s' → ∀ rest,
    parseStates ts (.group g s :: rest) = some (.group g' s' :: rest)
  | _, _, _, _, _, .nil, _ => rfl
  | _, _, _, _, _, .snoc h he, rest => by
    rw [parseStates_append, h.run rest, Option.bind_some, he.run rest]

theorem DerivesElem.run : ∀ {g s e g' s'}, DerivesElem g s e g' s' → ∀ rest,
    parseStates e (.group g s :: rest) = some (.group g' s' :: rest)
  | _, _, _, _, _, .text c ht, rest => by
    rw [parseStates_cons, parseState_text ht]
    rfl
  | _, s, _, _, _, .bar ht hs, rest => by
    rw [parseStates_cons, parseState_control_bar _ _ ht, parseBar, if_pos hs]
    rfl
  | _, _, _, _, _, .recycle ht hs, rest => by
    rw [parseStates_cons, parseState_control_bar _ _ ht, parseBar, if_neg (by omega)]
    rfl
  | g, s, _, _, _, .group ht hu h, rest => by
    rw [List.cons_append, parseStates_cons, parseState_control_open ht, Option.bind_some,
      parseStates_append]
    have hinner := h.run (.group g (segmentClean s) :: rest)
    rw [groupOpen] at hinner
    rw [hinner, Option.bind_some, parseStates_cons, parseState_control_close hu]
    rfl
  | g, s, _, _, _, .set ht htext, rest => by
    rw [List.cons_append, parseStates_cons, parseState_control_set ht, Option.bind_some,
      parseStates_append]
    have hset : parseStates _ (readingSet g (segmentClean s) rest false []) = _ := htext.run
    rw [readingSet] at hset
    rw [hset, Option.bind_some, readingSet, parseStates_cons, parseState, parseSet, if_pos rfl,
      SegmentOf.modifyLast_push]
    rfl
  | g, s, _, _, _, @DerivesElem.special _ _ _ kind _ ht hkind hname, rest => by
    rw [List.cons_append, List.cons_append, parseStates_cons, parseState_special ht hkind,
      Option.bind_some, parseStates_cons, parseState, parseSpecial, if_pos rfl, Option.bind_some,
      parseStates_append]
    have hread : parseStates _ (readingName g (segmentClean s) rest kind []) = _ :=
      parseStates_name hname kind
    rw [readingName] at hread
    rw [hread]
    rfl
  | g, s, _, _, _, .multiplier ht hs hds, rest => by
    rw [List.cons_append, parseStates_cons, parseState_control_brace _ _ ht, parseBrace,
      (lastSingleItemTaint_eq_none_iff _).mpr hs, Option.bind_some,
      parseStates_multiplier _ _ hds]
  | _, _, _, _, _, .count ht hs hds, rest => parseStates_count ht hs hds
  | _, _, _, _, _, .range ht hs hds hes, rest => parseStates_range ht hs hds hes
  | _, s, _, _, _, .maybe ht hs, rest => by
    rw [parseStates_cons, parseState_control_maybe ht, parseMaybe, hs]
    rfl

end

end Run

/-! ## What is read is derivable -/

/-- An element that has been begun: what is read of it, the state that reads it, and the group and
the segment below that state. -/
inductive Begun (g : Group) (s : Segment) : List ℕ → ParserState → Group → Segment → Prop
  | set {t text range} (ht : IsControl t '[') (htext : SetText text)
      (hrange : (!text.isEmpty) = range) :
      Begun g s (t :: text.flatMap RangeText.tokens) (.set range) g
        ((segmentClean s).push (openSet text))
  | setRange {t text x} (ht : IsControl t '[') (htext : SetText (text ++ [x])) :
      Begun g s (t :: (text ++ [x]).flatMap RangeText.tokens ++ ['-'.toNat]) .setRange g
        ((segmentClean s).push (openSet (text ++ [x])))
  | special {t kind} (ht : isEscaped t = true)
      (hkind : specialKind (clearEscaped t) = some kind) :
      Begun g s [t] .special g ((segmentClean s).push (.init (.special (storedAs kind []))))
  | specialName {t kind name} (ht : isEscaped t = true)
      (hkind : specialKind (clearEscaped t) = some kind) (hname : '}'.toNat ∉ name) :
      Begun g s (t :: '{'.toNat :: name) .specialName g
        ((segmentClean s).push (.init (.special (storedAs kind name))))
  | multiplier {t ds} (ht : IsControl t '{') (hs : (segmentClean s).items = [])
      (hds : ∀ d ∈ ds, isDigit d) :
      Begun g s (t :: ds) .multiplier { g with multiplierSum := sizeSub g.multiplierSum 1 }
        { segmentClean s with multiplier := sizeT (decimal ds) }
  | repeat {s' t ds} (ht : IsControl t '{') (hs : lastSingleItemTaint (segmentClean s) = some s')
      (hds : ∀ d ∈ ds, isDigit d) :
      Begun g s (t :: ds) .repeat g (s'.withBounds ⟨sizeT (decimal ds), 0⟩)
  | repeatRange {s' t ds es} (ht : IsControl t '{')
      (hs : lastSingleItemTaint (segmentClean s) = some s') (hds : ∀ d ∈ ds, isDigit d)
      (hes : ∀ e ∈ es, isDigit e) :
      Begun g s (t :: ds ++ ','.toNat :: es) .repeatRange g
        (s'.withBounds ⟨sizeT (decimal ds), sizeT (decimal es)⟩)

/-- The open groups, with derivable pieces between the parentheses that open them. -/
inductive Opened : List ℕ → List ParserState → Prop
  | root {ts g s} (h : Derives groupOpen segmentInit ts g s) : Opened ts [.group g s]
  | paren {ts us t g s parent last rest} (hbelow : Opened ts (.group parent last :: rest))
      (ht : IsControl t '(') (h : Derives groupOpen segmentInit us g s) :
      Opened (ts ++ t :: us) (.group g s :: .group parent (segmentClean last) :: rest)

/-- **The invariant of the parser**: what the tokens read so far have made of the stack. -/
inductive Reached : List ℕ → List ParserState → Prop
  | between {ts state} (h : Opened ts state) : Reached ts state
  | inside {ts us g s g' s' top rest} (h : Opened ts (.group g s :: rest))
      (hbegun : Begun g s us top g' s') : Reached (ts ++ us) (top :: .group g' s' :: rest)

section Reached

variable {g g' : Group} {s s' : Segment} {rest state state' : List ParserState} {ts us e : List ℕ}
  {t : ℕ} {top : ParserState}

/-- An element of the topmost group. -/
theorem Opened.elem (h : Opened ts (.group g s :: rest)) (he : DerivesElem g s e g' s') :
    Opened (ts ++ e) (.group g' s' :: rest) := by
  cases h with
  | root h => exact .root (h.snoc he)
  | paren hbelow ht h =>
    rw [List.append_assoc, List.cons_append]
    exact .paren hbelow ht (h.snoc he)

/-- An element is completed. -/
theorem Opened.complete (h : Opened ts (.group g s :: rest))
    (he : DerivesElem g s (us ++ [t]) g' s') :
    Reached (ts ++ us ++ [t]) (.group g' s' :: rest) := by
  rw [List.append_assoc]
  exact .between (h.elem he)

/-- An element goes on. -/
theorem Opened.goesOn (h : Opened ts (.group g s :: rest)) (hb : Begun g s (us ++ [t]) top g' s') :
    Reached (ts ++ us ++ [t]) (top :: .group g' s' :: rest) := by
  rw [List.append_assoc]
  exact .inside h hb

/-- **A token between elements.** -/
theorem Opened.step (h : Opened ts state) (hstep : Step t state state') :
    Reached (ts ++ [t]) state' := by
  cases hstep with
  | text c ht => exact .between (h.elem (.text c ht))
  | special kind ht hkind => exact .inside h (.special ht hkind)
  | bar ht hs => exact .between (h.elem (.bar ht hs))
  | recycle ht hs => exact .between (h.elem (.recycle ht hs))
  | close ht =>
    cases h with
    | paren hbelow hopen h =>
      rw [List.append_assoc]
      exact .between (hbelow.elem (.group hopen ht h))
  | openGroup ht => exact .between (.paren h ht .nil)
  | openSet ht =>
    exact .inside h (.set ht .nil rfl)
  | openRepeat ht hs => exact .inside h (.repeat ht hs (List.forall_mem_nil _))
  | openMultiplier ht hs => exact .inside h (.multiplier ht hs (List.forall_mem_nil _))
  | maybe ht hs => exact .between (h.elem (.maybe ht hs))
  | _ => cases h

/-- One more digit. -/
theorem sizeT_decimal_concat (ds : List ℕ) (d : ℕ) :
    sizeT (decimal (ds ++ [d])) = pushDigit (sizeT (decimal ds)) d := by
  rw [← foldl_pushDigit, ← foldl_pushDigit, List.foldl_append]
  rfl

/-- The start of a range. -/
theorem Opened.start {text : List RangeText} {u : ℕ} (h : Opened ts (.group g s :: rest))
    (hu : IsControl u '[') (htext : SetText text)
    (ht : t ≠ ']'.toNat ∧ (isEscaped t = true → clearEscaped t = '-'.toNat))
    (hdash : (!text.isEmpty) = true → t ≠ '-'.toNat) :
    Reached (ts ++ u :: text.flatMap RangeText.tokens ++ [t])
      (.set true :: .group g (((segmentClean s).push (openSet text)).modifyLast
        (Item.modifySet (setPush (rangeStart t)))) :: rest) := by
  have htext' : SetText (text ++ [.single t]) :=
    setText_concat_iff.mpr ⟨htext, ht, hdash, fun _ h => absurd h List.not_mem_nil⟩
  have hbegun : Begun g s (u :: (text ++ [RangeText.single t]).flatMap RangeText.tokens)
      (.set true) g ((segmentClean s).push (openSet (text ++ [.single t]))) :=
    .set hu htext' (by cases text <;> rfl)
  rw [List.flatMap_append, ← List.cons_append] at hbegun
  rw [modifyLast_openSet]
  exact h.goesOn hbegun

/-- One more end of the last range. -/
theorem Opened.extend {text : List RangeText} {x : RangeText} {u : ℕ}
    (h : Opened ts (.group g s :: rest)) (hu : IsControl u '[') (htext : SetText (text ++ [x]))
    (hend : t ≠ ']'.toNat) (hle : rangeStart x.start ≤ t) :
    Reached (ts ++ (u :: (text ++ [x]).flatMap RangeText.tokens ++ ['-'.toNat]) ++ [t])
      (.set true :: .group g (((segmentClean s).push (openSet (text ++ [x]))).modifyLast
        (Item.modifySet (setExtend t))) :: rest) := by
  obtain ⟨hfront, hx, hdash, hends⟩ := setText_concat_iff.mp htext
  have htext' : SetText (text ++ [x.extend t hle]) :=
    setText_concat_iff.mpr ⟨hfront, hx, hdash, forall_mem_concat hends hend⟩
  have hbegun : Begun g s (u :: (text ++ [x.extend t hle]).flatMap RangeText.tokens)
      (.set true) g ((segmentClean s).push (openSet (text ++ [x.extend t hle]))) :=
    .set hu htext' (by cases text <;> rfl)
  rw [flatMap_tokens_extend, ← List.cons_append, List.append_cons] at hbegun
  rw [modifyLast_extend hle]
  exact h.goesOn hbegun

/-- A token inside of a set. -/
theorem Opened.set {text : List RangeText} {range : Bool} {u : ℕ}
    (h : Opened ts (.group g s :: rest)) (hu : IsControl u '[') (htext : SetText text)
    (hrange : (!text.isEmpty) = range)
    (hparse : parseState t (.set range :: .group g ((segmentClean s).push (openSet text)) :: rest)
      = some state') :
    Reached (ts ++ u :: text.flatMap RangeText.tokens ++ [t]) state' := by
  have hstep := step_of_parseState hparse
  cases hstep with
  | setEnd hend =>
    rw [SegmentOf.modifyLast_push, hend]
    exact h.complete (.set hu htext)
  | setRange hdash =>
    rcases List.eq_nil_or_concat text with rfl | ⟨text, x, rfl⟩
    · exact absurd hrange Bool.false_ne_true
    · rw [List.concat_eq_append] at htext ⊢
      rw [hdash]
      exact h.goesOn (.setRange hu htext)
  | setEscaped hesc hc =>
    have hend : t ≠ ']'.toNat := escaped_ne hesc (by decide)
    have hdash : t ≠ '-'.toNat := escaped_ne hesc (by decide)
    have hread := h.start hu htext ⟨hend, fun _ => hc⟩ fun _ => hdash
    rwa [rangeStart, if_pos hesc] at hread
  | setPush hesc hend =>
    have hplain : ¬isEscaped t = true := fun h => absurd (hesc.symm.trans h) Bool.false_ne_true
    have hdash : (!text.isEmpty) = true → t ≠ '-'.toNat := by
      -- a dash after a range goes on with it
      intro hne hdash
      rw [← hrange, hne, hdash] at hparse
      simp [parseState, parseSet] at hparse
    have hread := h.start hu htext ⟨hend, fun h => absurd h hplain⟩ hdash
    rwa [rangeStart, if_neg hplain] at hread

/-- **A token inside of an element.** -/
theorem Begun.step (hb : Begun g s us top g' s') (h : Opened ts (.group g s :: rest))
    (hparse : parseState t (top :: .group g' s' :: rest) = some state') :
    Reached (ts ++ us ++ [t]) state' := by
  have hstep := step_of_parseState hparse
  cases hb with
  | set hu htext hrange => exact h.set hu htext hrange hparse
  | @setRange u text x hu htext =>
    cases hstep with
    | setExtend hend hset hrange hle =>
      rw [lastSet_openSet] at hset
      obtain rfl := Option.some.inj hset
      rw [getLast?_ranges] at hrange
      obtain rfl := Option.some.inj hrange
      exact h.extend hu htext hend hle
  | special hu hkind =>
    cases hstep with
    | nameOpen hopen =>
      rw [hopen]
      exact h.goesOn (.specialName hu hkind List.not_mem_nil)
  | specialName hu hkind hname =>
    cases hstep with
    | nameEnd hend =>
      rw [hend]
      exact h.complete (.special hu hkind hname)
    | namePush hend =>
      rw [SegmentOf.modifyLast_push]
      have hbegun : Begun g s _ .specialName g _ := .specialName hu hkind
        (mt List.mem_append.mp (not_or.mpr ⟨hname, fun h => hend (List.mem_singleton.mp h).symm⟩))
      rw [storedAs_concat] at hbegun
      exact h.goesOn hbegun
  | multiplier hu hs hds =>
    cases hstep with
    | multiplierEnd hend =>
      rw [hend]
      exact h.complete (.multiplier hu hs hds)
    | multiplierDigit hdigit =>
      rw [← sizeT_decimal_concat]
      exact h.goesOn (.multiplier hu hs (forall_mem_concat hds hdigit))
  | «repeat» hu hs hds =>
    cases hstep with
    | repeatEnd hend =>
      rw [hend, SegmentOf.withBounds_modifyRepeat]
      exact h.complete (.count hu hs hds)
    | repeatComma hcomma =>
      rw [hcomma, SegmentOf.withBounds_modifyRepeat]
      exact h.goesOn (.repeatRange hu hs hds (List.forall_mem_nil _))
    | repeatDigit hdigit =>
      rw [SegmentOf.withBounds_modifyRepeat, ← sizeT_decimal_concat]
      exact h.goesOn (.repeat hu hs (forall_mem_concat hds hdigit))
  | repeatRange hu hs hds hes =>
    cases hstep with
    | repeatRangeEnd hend =>
      rw [hend]
      exact h.complete (.range hu hs hds hes)
    | repeatRangeDigit hdigit =>
      rw [SegmentOf.withBounds_modifyRepeat, ← sizeT_decimal_concat]
      have hbegun : Begun g s _ .repeatRange g _ :=
        .repeatRange hu hs hds (forall_mem_concat hes hdigit)
      rw [← List.cons_append, ← List.append_assoc] at hbegun
      exact h.goesOn hbegun

/-- **A token.** -/
theorem Reached.step (h : Reached ts state) (hparse : parseState t state = some state') :
    Reached (ts ++ [t]) state' := by
  cases h with
  | between h => exact h.step (step_of_parseState hparse)
  | inside h hbegun => exact hbegun.step h hparse

/-- **Every run reaches what its tokens derive.** -/
theorem reached_of_run (hrun : parseStates ts parserInit.state = some state) :
    Reached ts state := by
  refine parseStates_prefix_invariant (fun before t _ state state' _ h hparse => h.step hparse)
    (.between (.root ?_)) hrun
  exact .nil

end Reached

/-! ## Accepted patterns -/

/-- **The tokens of a pattern** are those the grammar derives, with their tree. -/
theorem derivesPattern_iff {tokens : List ℕ} {pattern : Group} :
    DerivesPattern tokens pattern ↔ ∃ state, parseStates tokens parserInit.state = some state ∧
      finish state = some pattern := by
  constructor
  · rintro ⟨g, s, h, rfl⟩
    exact ⟨_, h.run [], rfl⟩
  · rintro ⟨state, hrun, hfinish⟩
    obtain ⟨g, s, rfl, rfl⟩ := finish_eq_some_iff.mp hfinish
    have hreached := reached_of_run hrun
    generalize hstate : [ParserState.group g s] = state at hreached
    cases hreached with
    | between h =>
      cases h with
      | root h =>
        obtain ⟨rfl, rfl⟩ := ParserState.group.inj (List.cons.inj hstate).1
        exact ⟨g, s, h, rfl⟩
      | paren => cases hstate
    | inside h hbegun => cases hstate

end Passgen
