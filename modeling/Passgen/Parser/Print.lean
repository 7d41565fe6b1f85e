import Mathlib.Data.List.Basic
import Mathlib.Data.List.ModifyLast
import Mathlib.Tactic.Common
import Passgen.Parser.Balance
import Passgen.Parser.Step
import Passgen.Pattern.Ast
import Passgen.Pattern.Special

/-!
# Parser/Print — parsing undoes writing

Reading the tokens of an item in a group state appends the item to the last segment
(`Ast.Valid.reads`): everything below that state, and the group itself, is untouched.  The induction
is on the item; what it carries through the packing of characters into literals is `EndsIn`, a
segment that ends in a known item which a following modifier would find alone.
-/

namespace Passgen

/-! ## Numbers -/

theorem numberTokens_eq (n : ℕ) :
    numberTokens n = if n < 10 then ['0'.toNat + n]
      else numberTokens (n / 10) ++ ['0'.toNat + n % 10] := by
  have hdigit : ∀ d < 10, (Nat.digitChar d).toNat = '0'.toNat + d := by decide
  unfold numberTokens
  split
  · rename_i h
    rw [Nat.toDigits_of_lt_base h, List.map_singleton, hdigit n h]
  · rename_i h
    rw [Nat.toDigits_of_base_le (by decide) (not_lt.mp h), List.map_append, List.map_singleton,
      hdigit _ (Nat.mod_lt _ (by decide))]

theorem isDigit_of_mem_numberTokens {n t : ℕ} (ht : t ∈ numberTokens n) : isDigit t := by
  induction n using Nat.strongRecOn with
  | ind n ih =>
    rw [numberTokens_eq] at ht
    split at ht
    · rw [List.mem_singleton.mp ht, isDigit]
      exact ⟨Nat.le_add_right _ _, by simp only [Char.reduceToNat]; omega⟩
    · rcases List.mem_append.mp ht with hmem | hmem
      · exact ih (n / 10) (by omega) hmem
      · rw [List.mem_singleton.mp hmem, isDigit]
        exact ⟨Nat.le_add_right _ _, by simp only [Char.reduceToNat]; omega⟩

theorem isDigit.ne_close {t : ℕ} (h : isDigit t) : t ≠ '}'.toNat := by
  rintro rfl
  exact absurd h (by decide)

theorem isDigit.ne_comma {t : ℕ} (h : isDigit t) : t ≠ ','.toNat := by
  rintro rfl
  exact absurd h (by decide)

/-- **A number is read back**, as long as it is a `size_t`. -/
theorem foldl_pushDigit_numberTokens {n : ℕ} (hn : n < 2 ^ 64) :
    (numberTokens n).foldl pushDigit 0 = n := by
  induction n using Nat.strongRecOn with
  | ind n ih =>
    rw [numberTokens_eq]
    split
    · rw [List.foldl_cons, List.foldl_nil, pushDigit, Nat.zero_mul, Nat.add_sub_cancel_left]
      simp only [sizeT, Nat.zero_mod, Nat.zero_add]
      exact Nat.mod_eq_of_lt hn
    · have hten : sizeT (n / 10 * 10) = n / 10 * 10 := sizeT_of_lt (by omega)
      rw [List.foldl_append, ih (n / 10) (by omega) (by omega), List.foldl_cons, List.foldl_nil,
        pushDigit, Nat.add_sub_cancel_left, hten, sizeT_of_lt (by omega)]
      omega

/-- **Reading digits**: a state that takes a digit into its value takes a whole number. -/
theorem parseStates_digits (state : ℕ → List ParserState)
    (hstep : ∀ v t, isDigit t → parseState t (state v) = some (state (pushDigit v t)))
    {ts : List ℕ} (hts : ∀ t ∈ ts, isDigit t) (v : ℕ) :
    parseStates ts (state v) = some (state (ts.foldl pushDigit v)) := by
  induction ts generalizing v with
  | nil => rfl
  | cons t ts ih =>
    rw [parseStates_cons, hstep v t (hts t List.mem_cons_self), Option.bind_some,
      ih fun u hu => hts u (List.mem_cons_of_mem t hu)]
    rfl

theorem parseStates_number (state : ℕ → List ParserState)
    (hstep : ∀ v t, isDigit t → parseState t (state v) = some (state (pushDigit v t)))
    {n : ℕ} (hn : n < 2 ^ 64) : parseStates (numberTokens n) (state 0) = some (state n) := by
  rw [parseStates_digits state hstep (fun t => isDigit_of_mem_numberTokens),
    foldl_pushDigit_numberTokens hn]

/-! ## The last item of a segment -/

/-- Item data that a modifier finds alone, and what it says. -/
inductive Frozen : ItemData Item → AstData Ast → Prop where
  | char (c : ℕ) : Frozen (.literal ⟨[c], true⟩) (.char c)
  | set (s : PatternSet) : Frozen (.set s) (.set s.items)
  | special (s : Special) : Frozen (.special s) (.special s.kind s.name)
  | group {g : Group} (hg : g.multiplierSum ≠ 0) : Frozen (.group g) (.group g.ast)

theorem Frozen.asts {data : ItemData Item} {d : AstData Ast} (h : Frozen data d) (rep : Repeat)
    (maybe : Bool) : (Item.mk data rep maybe).asts = [.mk d rep maybe] := by
  cases h <;> simp

theorem Frozen.singleItemTaint {data : ItemData Item} {d : AstData Ast} (h : Frozen data d)
    (rep : Repeat) (maybe : Bool) :
    singleItemTaint (.mk data rep maybe) = [.mk data rep maybe] := by
  cases h <;> rfl

/-- A segment whose items say `front` and then one item, which a following modifier finds alone:
either it is alone already, or it is the last character of a literal that can be split. -/
inductive EndsIn (s : Segment) (front : List Ast) (d : AstData Ast) (rep : Repeat)
    (maybe : Bool) : Prop where
  | frozen (init : List Item) (data : ItemData Item) (hdata : Frozen data d)
      (hitems : s.items = init ++ [.mk data rep maybe]) (hfront : init.flatMap Item.asts = front)
  | packed (init : List Item) (cs : List ℕ) (c : ℕ) (hd : d = .char c) (hrep : rep = ⟨1, 1⟩)
      (hmaybe : maybe = false)
      (hitems : s.items = init ++ [.mk (.literal ⟨cs ++ [c], false⟩) rep maybe])
      (hfront : init.flatMap Item.asts ++ cs.map (fun c => .mk (.char c) rep maybe) = front)

/-- Segments an item can be appended to. -/
def Ready (s : Segment) : Prop := s.items = [] ∨ ∃ front d rep maybe, EndsIn s front d rep maybe

namespace EndsIn

variable {s : Segment} {front : List Ast} {d : AstData Ast} {rep : Repeat} {maybe : Bool}

theorem ready (h : EndsIn s front d rep maybe) : Ready s := .inr ⟨front, d, rep, maybe, h⟩

/-- What the segment says. -/
theorem flatMap_asts (h : EndsIn s front d rep maybe) :
    s.items.flatMap Item.asts = front ++ [.mk d rep maybe] := by
  cases h with
  | frozen init data hdata hitems hfront =>
    rw [hitems, List.flatMap_append, List.flatMap_singleton, hdata.asts, hfront]
  | packed init cs c hd hrep hmaybe hitems hfront =>
    rw [hitems, List.flatMap_append, List.flatMap_singleton, asts_literal, ← hfront, hd,
      List.map_append, List.map_singleton, List.append_assoc]

/-- **What a modifier finds**: the item, alone. -/
theorem taint (h : EndsIn s front d rep maybe) :
    ∃ init data, lastSingleItemTaint s = some ⟨init ++ [.mk data rep maybe], s.multiplier⟩ ∧
      Frozen data d ∧ init.flatMap Item.asts = front := by
  cases h with
  | frozen init data hdata hitems hfront =>
    refine ⟨init, data, ?_, hdata, hfront⟩
    rw [lastSingleItemTaint, hitems, List.getLast?_concat, List.dropLast_concat, Option.map_some,
      hdata.singleItemTaint]
  | packed init cs c hd hrep hmaybe hitems hfront =>
    subst hd hrep hmaybe
    rcases List.eq_nil_or_concat cs with rfl | ⟨ds, e, rfl⟩
    · refine ⟨init, .literal ⟨[c], true⟩, ?_, .char c, by simpa using hfront⟩
      rw [lastSingleItemTaint, hitems, List.getLast?_concat, List.dropLast_concat, Option.map_some]
      rfl
    · refine ⟨init ++ [.mk (.literal ⟨ds.concat e, false⟩) ⟨1, 1⟩ false], .literal ⟨[c], true⟩, ?_,
        .char c, ?_⟩
      · rw [lastSingleItemTaint, hitems, List.getLast?_concat, List.dropLast_concat,
          Option.map_some, singleItemTaint, if_pos (by simp [Literal.count])]
        simp [Item.init, literalTaint]
      · rw [← hfront, List.flatMap_append, List.flatMap_singleton, asts_literal]

/-- The item is not a group waiting to be removed. -/
theorem clean (h : EndsIn s front d rep maybe) : segmentClean s = s := by
  cases h with
  | frozen init data hdata hitems hfront =>
    rw [segmentClean, hitems, List.getLast?_concat]
    cases hdata with
    | group hg => simp only [if_neg hg]
    | _ => rfl
  | packed init cs c hd hrep hmaybe hitems hfront =>
    rw [segmentClean, hitems, List.getLast?_concat]

end EndsIn

theorem Ready.clean {s : Segment} (h : Ready s) : segmentClean s = s := by
  rcases h with hnil | ⟨front, d, rep, maybe, hends⟩
  · rw [segmentClean, hnil]
    rfl
  · exact hends.clean

theorem ready_segmentInit : Ready segmentInit := .inl rfl

/-- A pushed item is the last one. -/
theorem endsIn_push (s : Segment) {data : ItemData Item} {d : AstData Ast} (h : Frozen data d) :
    EndsIn (s.push (.init data)) (s.items.flatMap Item.asts) d ⟨1, 1⟩ false :=
  .frozen s.items data h rfl rfl

/-- **A character becomes the last item**, whether it is packed or starts a literal. -/
theorem endsIn_appendChar {s : Segment} (hs : Ready s) (c : ℕ) :
    EndsIn (appendChar s c) (s.items.flatMap Item.asts) (.char c) ⟨1, 1⟩ false := by
  have hfresh : EndsIn (s.push (.init (.literal ⟨[c], false⟩))) (s.items.flatMap Item.asts)
      (.char c) ⟨1, 1⟩ false :=
    .packed s.items [] c rfl rfl rfl rfl (List.append_nil _)
  rcases hs with hnil | ⟨front, d, rep, maybe, hends⟩
  · have hchar : appendChar s c = s.push (.init (.literal ⟨[c], false⟩)) := by
      rw [appendChar, hnil]
      rfl
    rw [hchar]
    exact hfresh
  · cases hends with
    | frozen init data hdata hitems hfront =>
      rw [appendChar, hitems, List.getLast?_concat, ← hitems]
      cases hdata <;> exact hfresh
    | packed init cs e hd hrep hmaybe hitems hfront =>
      subst hd hrep hmaybe
      rw [appendChar, hitems, List.getLast?_concat, ← hitems]
      simp only [literalAppend]
      by_cases hfull : (cs ++ [e]).length ≥ 7
      · rw [if_pos (.inl hfull)]
        exact hfresh
      · rw [if_neg (by simpa [Literal.count] using hfull)]
        refine .packed init (cs ++ [e]) c rfl rfl rfl ?_ ?_
        · simp only [SegmentOf.modifyLast, hitems, List.modifyLast_concat]
        · rw [hitems, List.flatMap_append, List.flatMap_singleton, asts_literal]

/-! ## Reading an item -/

@[simp] theorem SegmentOf.modifyLast_concat (init : List Item) (item : Item) (m : ℕ)
    (f : Item → Item) :
    SegmentOf.modifyLast ⟨init ++ [item], m⟩ f = ⟨init ++ [f item], m⟩ := by
  simp only [SegmentOf.modifyLast, List.modifyLast_concat]

section Reads

variable (g : Group) {s : Segment} (rest : List ParserState) {front : List Ast}
  {d : AstData Ast}

/-- A brace after an item. -/
theorem parseState_brace (h : EndsIn s front d ⟨1, 1⟩ false) :
    ∃ init data, parseState '{'.toNat (.group g s :: rest)
        = some (.repeat :: .group g ⟨init ++ [.mk data ⟨0, 0⟩ false], s.multiplier⟩ :: rest) ∧
      Frozen data d ∧ init.flatMap Item.asts = front := by
  obtain ⟨init, data, htaint, hdata, hfront⟩ := h.taint
  refine ⟨init, data, ?_, hdata, hfront⟩
  have hbrace : parseState '{'.toNat (.group g s :: rest)
      = some (parseBrace g (segmentClean s) rest) := rfl
  rw [hbrace, h.clean, parseBrace, htaint]
  simp only [SegmentOf.modifyLast_concat]
  rfl

/-- **A repeat is read back.** -/
theorem reads_repeat {rep : Repeat} (hrep : rep.Valid) (h : EndsIn s front d ⟨1, 1⟩ false) :
    ∃ s', parseStates (repeatTokens rep) (.group g s :: rest) = some (.group g s' :: rest) ∧
      s'.multiplier = s.multiplier ∧ EndsIn s' front d rep false := by
  rcases rep with ⟨min, max⟩
  obtain ⟨hle, hmax⟩ : min ≤ max ∧ max < 2 ^ 64 := hrep
  rw [repeatTokens]
  split
  · rename_i hone
    exact ⟨s, rfl, rfl, by rwa [hone]⟩
  obtain ⟨init, data, hbrace, hdata, hfront⟩ := parseState_brace g rest h
  have hmin : parseStates (numberTokens min)
      (.repeat :: .group g ⟨init ++ [.mk data ⟨0, 0⟩ false], s.multiplier⟩ :: rest)
      = some (.repeat :: .group g ⟨init ++ [.mk data ⟨min, 0⟩ false], s.multiplier⟩ :: rest) := by
    refine parseStates_number (fun v =>
      .repeat :: .group g ⟨init ++ [.mk data ⟨v, 0⟩ false], s.multiplier⟩ :: rest)
      (fun v t ht => ?_) (hle.trans_lt hmax)
    rw [parseState, parseRepeat, if_neg ht.ne_close, if_neg ht.ne_comma, if_pos ht,
      SegmentOf.modifyLast_concat]
    rfl
  have hmax : parseStates (numberTokens max)
      (.repeatRange :: .group g ⟨init ++ [.mk data ⟨min, 0⟩ false], s.multiplier⟩ :: rest)
      = some (.repeatRange
        :: .group g ⟨init ++ [.mk data ⟨min, max⟩ false], s.multiplier⟩ :: rest) := by
    refine parseStates_number (fun v =>
      .repeatRange :: .group g ⟨init ++ [.mk data ⟨min, v⟩ false], s.multiplier⟩ :: rest)
      (fun v t ht => ?_) hmax
    rw [parseState, parseRepeatRange, if_neg ht.ne_close, if_pos ht, SegmentOf.modifyLast_concat]
    rfl
  split
  · rename_i heq
    obtain rfl : min = max := heq
    refine ⟨⟨init ++ [.mk data ⟨min, min⟩ false], s.multiplier⟩, ?_, rfl,
      .frozen init data hdata rfl hfront⟩
    rw [List.cons_append, parseStates_cons, hbrace, Option.bind_some, parseStates_append, hmin,
      Option.bind_some, parseStates_cons, parseState, parseRepeat, if_pos rfl,
      SegmentOf.modifyLast_concat]
    rfl
  · refine ⟨⟨init ++ [.mk data ⟨min, max⟩ false], s.multiplier⟩, ?_, rfl,
      .frozen init data hdata rfl hfront⟩
    rw [List.cons_append, List.cons_append, parseStates_cons, hbrace, Option.bind_some,
      List.append_assoc, parseStates_append, hmin, Option.bind_some, List.cons_append,
      parseStates_cons, parseState, parseRepeat, if_neg (by decide), if_pos rfl,
      SegmentOf.modifyLast_concat, Option.bind_some, parseStates_append]
    simp only [Item.modifyRepeat, Item.data_mk, Item.rep_mk, Item.maybe_mk]
    rw [hmax]
    rfl

/-- **A question mark is read back.** -/
theorem reads_maybe {rep : Repeat} (maybe : Bool) (h : EndsIn s front d rep false) :
    ∃ s', parseStates (maybeTokens maybe) (.group g s :: rest) = some (.group g s' :: rest) ∧
      s'.multiplier = s.multiplier ∧ EndsIn s' front d rep maybe := by
  cases maybe with
  | false => exact ⟨s, rfl, rfl, h⟩
  | true =>
    obtain ⟨init, data, htaint, hdata, hfront⟩ := h.taint
    refine ⟨⟨init ++ [.mk data rep true], s.multiplier⟩, ?_, rfl,
      .frozen init data hdata rfl hfront⟩
    have hmaybe : parseState '?'.toNat (.group g s :: rest)
        = parseMaybe g (segmentClean s) rest := rfl
    rw [maybeTokens, if_pos rfl, parseStates_cons, hmaybe, h.clean, parseMaybe, htaint,
      Option.map_some, SegmentOf.modifyLast_concat]
    rfl

/-- **A character is read back.** -/
theorem reads_char (hs : Ready s) {c : ℕ} (hpos : 1 ≤ c) (hle : c ≤ 127) (hne : c ≠ '?'.toNat) :
    ∃ s', parseStates [charToken c] (.group g s :: rest) = some (.group g s' :: rest) ∧
      s'.multiplier = s.multiplier ∧
      EndsIn s' (s.items.flatMap Item.asts) (.char c) ⟨1, 1⟩ false := by
  refine ⟨appendChar s c, ?_, multiplier_appendChar s c, endsIn_appendChar hs c⟩
  have hchar : asChar c = c := Nat.mod_eq_of_lt (by omega)
  rw [parseStates_cons, parseState, charToken, parseGroup, hs.clean]
  split
  · rename_i htext
    rw [if_pos (isEscaped_escapedToken c), clearEscaped_escapedToken (by omega), if_pos htext]
    rfl
  · rename_i htext
    simp only [isEscapedText, hchar, not_or] at htext
    rw [if_neg (by rw [isEscaped_of_lt (by omega)]; exact Bool.false_ne_true)]
    simp only [hchar]
    rw [if_neg htext.1, if_neg htext.2.2.1, if_neg htext.2.1, if_neg htext.2.2.2.2.2.1,
      if_neg htext.2.2.2.1, if_neg hne]
    rfl

/-- The state in the middle of a set. -/
def inSet (g : Group) (s : Segment) (rest : List ParserState) (range : Bool) (items : List Range) :
    List ParserState :=
  .set range
    :: .group g ⟨s.items ++ [.mk (.set ⟨items, []⟩) ⟨1, 1⟩ false], s.multiplier⟩ :: rest

/-- One range of a set, whose end may be escaped. -/
theorem reads_range {range : Bool} {items : List Range} {r : Range} (hstart : RangeEnd r.start)
    (hstop : r.stop ≠ ']'.toNat) (hle : r.start ≤ r.stop) :
    parseStates (rangeTokens r) (inSet g s rest range items)
      = some (inSet g s rest true (items ++ [r])) := by
  rcases r with ⟨start, stop⟩
  have hesc : ¬isEscaped start = true := by
    rw [isEscaped_of_lt hstart.1.lt_escaped]
    exact Bool.false_ne_true
  have hpush : parseState start (inSet g s rest range items)
      = some (inSet g s rest true (items ++ [⟨start, start⟩])) := by
    rw [inSet, parseState, parseSet, if_neg hstart.2.2.1, if_neg fun h => hstart.2.2.2 h.2,
      if_neg hesc, SegmentOf.modifyLast_concat]
    rfl
  rw [rangeTokens]
  split
  · rename_i heq
    obtain rfl : start = stop := heq
    rw [parseStates_cons, hpush]
    rfl
  · have hdash : parseState '-'.toNat (inSet g s rest true (items ++ [⟨start, start⟩]))
        = some (.setRange :: (inSet g s rest true (items ++ [⟨start, start⟩])).tail) := rfl
    have hextend : parseState stop
        (.setRange :: (inSet g s rest true (items ++ [⟨start, start⟩])).tail)
        = some (inSet g s rest true (items ++ [⟨start, stop⟩])) := by
      simp only [inSet, List.tail_cons]
      rw [parseState, parseSetRange, if_neg hstop, lastSet, List.getLast?_concat]
      simp only [Option.bind_some, List.getLast?_concat]
      rw [if_neg (not_lt.mpr hle), SegmentOf.modifyLast_concat]
      simp only [Item.modifySet, setExtend, List.modifyLast_concat]
    rw [parseStates_cons, hpush, Option.bind_some, parseStates_cons, hdash, Option.bind_some,
      parseStates_cons, hextend]
    rfl

theorem reads_ranges {ranges : List Range}
    (hranges : ∀ r ∈ ranges, RangeEnd r.start ∧ r.stop ≠ ']'.toNat ∧ r.start ≤ r.stop)
    (range : Bool) (items : List Range) :
    ∃ range', parseStates (ranges.flatMap rangeTokens) (inSet g s rest range items)
      = some (inSet g s rest range' (items ++ ranges)) := by
  induction ranges generalizing range items with
  | nil => exact ⟨range, by rw [List.append_nil]; rfl⟩
  | cons r ranges ih =>
    obtain ⟨hstart, hstop, hle⟩ := hranges r List.mem_cons_self
    obtain ⟨range', hrest⟩ :=
      ih (fun r' hr' => hranges r' (List.mem_cons_of_mem r hr')) true (items ++ [r])
    refine ⟨range', ?_⟩
    rw [List.flatMap_cons, parseStates_append, reads_range g rest hstart hstop hle,
      Option.bind_some, hrest, List.append_assoc, List.singleton_append]

/-- **A set is read**, and closed. -/
theorem parseStates_set (hs : Ready s) {ranges : List Range}
    (hranges : ∀ r ∈ ranges, RangeEnd r.start ∧ r.stop ≠ ']'.toNat ∧ r.start ≤ r.stop) :
    parseStates (dataTokens (.set ranges)) (.group g s :: rest)
      = some (.group g (s.push (.init (.set (setClose ⟨ranges, []⟩)))) :: rest) := by
  have hopen : parseState '['.toNat (.group g s :: rest)
      = some (.set false :: .group g ((segmentClean s).push (.init (.set setInit))) :: rest) := rfl
  have hopen' : parseState '['.toNat (.group g s :: rest) = some (inSet g s rest false []) := by
    rw [hopen, hs.clean]
    rfl
  obtain ⟨range, hrun⟩ := reads_ranges g rest hranges false []
  rw [dataTokens, List.cons_append, parseStates_cons, hopen', Option.bind_some,
    parseStates_append, hrun, Option.bind_some, parseStates_cons, inSet, parseState, parseSet,
    if_pos rfl, SegmentOf.modifyLast_concat]
  rfl

/-- **A set is read back.** -/
theorem reads_set (hs : Ready s) {ranges : List Range}
    (hranges : ∀ r ∈ ranges, RangeEnd r.start ∧ RangeEnd r.stop ∧ r.start ≤ r.stop) :
    ∃ s', parseStates (dataTokens (.set ranges)) (.group g s :: rest)
        = some (.group g s' :: rest) ∧ s'.multiplier = s.multiplier ∧
      EndsIn s' (s.items.flatMap Item.asts) (.set ranges) ⟨1, 1⟩ false :=
  ⟨s.push (.init (.set (setClose ⟨ranges, []⟩))),
    parseStates_set g rest hs fun r hr =>
      have ⟨hstart, hstop, hle⟩ := hranges r hr
      ⟨hstart, hstop.2.2.1, hle⟩,
    rfl, endsIn_push s (.set _)⟩

/-- The state in the middle of a name. -/
def inName (g : Group) (s : Segment) (rest : List ParserState) (special : Special) :
    List ParserState :=
  .specialName
    :: .group g ⟨s.items ++ [.mk (.special special) ⟨1, 1⟩ false], s.multiplier⟩ :: rest

theorem reads_name {name : List ℕ} (hname : ∀ c ∈ name, IsScalar c ∧ c ≠ 0) (special : Special) :
    parseStates (name.map nameToken) (inName g s rest special)
      = some (inName g s rest (name.foldl specialPush special)) := by
  induction name generalizing special with
  | nil => rfl
  | cons c name ih =>
    have hlt : c < 2 ^ 30 := (hname c List.mem_cons_self).1.lt_escaped
    have hne : nameToken c ≠ '}'.toNat := by
      rw [nameToken]
      split
      · rename_i h
        rw [h]
        decide
      · assumption
    have hclear : clearEscaped (nameToken c) = c := by
      rw [nameToken]
      split
      · exact clearEscaped_escapedToken hlt
      · exact clearEscaped_of_lt hlt
    have hpush : parseState (nameToken c) (inName g s rest special)
        = some (inName g s rest (specialPush special c)) := by
      rw [inName, parseState, parseSpecialName, if_neg hne, hclear, SegmentOf.modifyLast_concat]
      rfl
    rw [List.map_cons, parseStates_cons, hpush, Option.bind_some,
      ih (fun d hd => hname d (List.mem_cons_of_mem c hd)), List.foldl_cons]

/-- **A special is read back.** -/
theorem reads_special (hs : Ready s) (kind : SpecialKind) {name : List ℕ}
    (hname : ∀ c ∈ name, IsScalar c ∧ c ≠ 0) :
    ∃ s', parseStates (dataTokens (.special kind name)) (.group g s :: rest)
        = some (.group g s' :: rest) ∧ s'.multiplier = s.multiplier ∧
      EndsIn s' (s.items.flatMap Item.asts) (.special kind name) ⟨1, 1⟩ false := by
  refine ⟨s.push (.init (.special (name.foldl specialPush (specialInit kind)))), ?_, rfl, ?_⟩
  · have hkind : parseState (escapedToken kind.letter) (.group g s :: rest)
        = some (.special
          :: .group g ((segmentClean s).push (.init (.special (specialInit kind)))) :: rest) := by
      cases kind <;> rfl
    have hopen : parseState '{'.toNat
        (.special :: .group g (s.push (.init (.special (specialInit kind)))) :: rest)
        = some (inName g s rest (specialInit kind)) := rfl
    rw [dataTokens, List.cons_append, parseStates_cons, hkind, hs.clean, Option.bind_some,
      List.cons_append, parseStates_cons, hopen, Option.bind_some, parseStates_append,
      reads_name g rest hname, Option.bind_some]
    rfl
  · have hfrozen := Frozen.special (name.foldl specialPush (specialInit kind))
    rw [kind_foldl_specialPush, name_foldl_specialPush fun c hc => (hname c hc).1] at hfrozen
    exact endsIn_push s hfrozen

end Reads

/-- **Reading the tokens of an item appends the item** to the last segment of the group state on
top. -/
def Ast.Reads (item : Ast) : Prop :=
  ∀ (g : Group) (s : Segment) (rest : List ParserState), Ready s →
    ∃ s', parseStates item.tokens (.group g s :: rest) = some (.group g s' :: rest) ∧
      s'.multiplier = s.multiplier ∧ Ready s' ∧
      s'.items.flatMap Item.asts = s.items.flatMap Item.asts ++ [item]

/-- The data of an item, then its modifiers. -/
theorem reads_mk {d : AstData Ast} {rep : Repeat} {maybe : Bool} (hrep : rep.Valid)
    (hdata : ∀ (g : Group) (s : Segment) (rest : List ParserState), Ready s →
      ∃ s', parseStates (dataTokens d) (.group g s :: rest) = some (.group g s' :: rest) ∧
        s'.multiplier = s.multiplier ∧
        EndsIn s' (s.items.flatMap Item.asts) d ⟨1, 1⟩ false) :
    (Ast.mk d rep maybe).Reads := by
  intro g s rest hs
  obtain ⟨s₁, hrun₁, hmul₁, hends₁⟩ := hdata g s rest hs
  obtain ⟨s₂, hrun₂, hmul₂, hends₂⟩ := reads_repeat g rest hrep hends₁
  obtain ⟨s₃, hrun₃, hmul₃, hends₃⟩ := reads_maybe g rest maybe hends₂
  refine ⟨s₃, ?_, hmul₃.trans (hmul₂.trans hmul₁), hends₃.ready, hends₃.flatMap_asts⟩
  rw [Ast.tokens, parseStates_append, parseStates_append, hrun₁, Option.bind_some, hrun₂,
    Option.bind_some, hrun₃]

/-! ## Reading segments -/

section Segments

variable (g : Group) (rest : List ParserState)

theorem reads_items {items : List Ast} (hitems : ∀ i ∈ items, i.Reads) {s : Segment}
    (hs : Ready s) :
    ∃ s', parseStates (itemsTokens items) (.group g s :: rest) = some (.group g s' :: rest) ∧
      s'.multiplier = s.multiplier ∧ Ready s' ∧
      s'.items.flatMap Item.asts = s.items.flatMap Item.asts ++ items := by
  induction items generalizing s with
  | nil => exact ⟨s, rfl, rfl, hs, (List.append_nil _).symm⟩
  | cons i items ih =>
    obtain ⟨s₁, hrun₁, hmul₁, hready₁, hasts₁⟩ := hitems i List.mem_cons_self g s rest hs
    obtain ⟨s₂, hrun₂, hmul₂, hready₂, hasts₂⟩ :=
      ih (fun j hj => hitems j (List.mem_cons_of_mem i hj)) hready₁
    refine ⟨s₂, ?_, hmul₂.trans hmul₁, hready₂, ?_⟩
    · rw [itemsTokens, parseStates_append, hrun₁, Option.bind_some, hrun₂]
    · rw [hasts₂, hasts₁, List.append_assoc, List.singleton_append]

/-- **A multiplier is read back**, and counted in the place of the one it replaces. -/
theorem reads_multiplier {done m : ℕ} (hsum : g.multiplierSum = done + 1) (hm : 1 ≤ m)
    (hlt : done + m < 2 ^ 64) :
    parseStates (multiplierTokens m) (.group g segmentInit :: rest)
      = some (.group { g with multiplierSum := done + m } ⟨[], m⟩ :: rest) := by
  rw [multiplierTokens]
  split
  · rename_i hone
    rw [hone, ← hsum]
    rfl
  · have hbrace : parseState '{'.toNat (.group g segmentInit :: rest)
        = some (.multiplier
          :: .group { g with multiplierSum := sizeSub g.multiplierSum 1 } ⟨[], 0⟩ :: rest) := rfl
    have hsub : sizeSub g.multiplierSum 1 = done := by
      rw [hsum, sizeSub_of_le (by omega) (by omega), Nat.add_sub_cancel]
    have hnumber : parseStates (numberTokens m)
        (.multiplier :: .group { g with multiplierSum := done } ⟨[], 0⟩ :: rest)
        = some (.multiplier :: .group { g with multiplierSum := done } ⟨[], m⟩ :: rest) := by
      refine parseStates_number (fun v =>
        .multiplier :: .group { g with multiplierSum := done } ⟨[], v⟩ :: rest)
        (fun v t ht => ?_) (by omega)
      rw [parseState, parseMultiplier, if_neg ht.ne_close, if_pos ht]
    rw [List.cons_append, parseStates_cons, hbrace, hsub, Option.bind_some, parseStates_append,
      hnumber, Option.bind_some, parseStates_cons, parseState, parseMultiplier, if_pos rfl]
    simp only [sizeT_of_lt hlt]
    rfl

/-- **A segment is read back** into a fresh one. -/
theorem reads_segment {segment : SegmentOf Ast} (hitems : ∀ i ∈ segment.items, i.Reads) (done : ℕ)
    (hsum : g.multiplierSum = done + 1) (hm : 1 ≤ segment.multiplier)
    (hlt : done + segment.multiplier < 2 ^ 64) :
    ∃ s, parseStates (segmentTokens segment) (.group g segmentInit :: rest)
        = some (.group { g with multiplierSum := done + segment.multiplier } s :: rest) ∧
      Ready s ∧ s.ast = segment := by
  rcases segment with ⟨items, m⟩
  have hready : Ready ⟨[], m⟩ := .inl rfl
  obtain ⟨s, hrun, hmul, hs, hasts⟩ := reads_items
    { g with multiplierSum := done + m } rest hitems hready
  refine ⟨s, ?_, hs, ?_⟩
  · rw [segmentTokens, parseStates_append, reads_multiplier g rest hsum hm hlt,
      Option.bind_some, hrun]
  · rw [SegmentOf.ast, hasts, hmul]
    rfl

/-- **Further segments are read back**, each after a bar. -/
theorem reads_more {segments : List (SegmentOf Ast)}
    (hitems : ∀ s ∈ segments, ∀ i ∈ s.items, i.Reads) (hpos : ∀ s ∈ segments, 1 ≤ s.multiplier)
    {s : Segment} (hs : Ready s) (hm : 1 ≤ s.multiplier)
    (hlt : g.multiplierSum + totalMultiplier segments < 2 ^ 64) :
    ∃ g' s', parseStates (moreTokens segments) (.group g s :: rest)
        = some (.group g' s' :: rest) ∧ Ready s' ∧ 1 ≤ s'.multiplier ∧
      (g'.segments ++ [s']).map SegmentOf.ast
        = (g.segments ++ [s]).map SegmentOf.ast ++ segments ∧
      g'.multiplierSum = g.multiplierSum + totalMultiplier segments := by
  induction segments generalizing g s with
  | nil => exact ⟨g, s, rfl, hs, hm, (List.append_nil _).symm, rfl⟩
  | cons segment segments ih =>
    have hm' := hpos segment List.mem_cons_self
    have htotal : totalMultiplier (segment :: segments)
        = segment.multiplier + totalMultiplier segments := List.sum_cons
    have hbar : parseState '|'.toNat (.group g s :: rest)
        = some (.group ⟨g.segments ++ [s], g.multiplierSum + 1⟩ segmentInit :: rest) := by
      have hstep : parseState '|'.toNat (.group g s :: rest)
          = some (parseBar g (segmentClean s) rest) := rfl
      rw [hstep, hs.clean, parseBar, if_pos (Nat.lt_of_lt_of_le Nat.one_pos hm),
        sizeT_of_lt (by omega)]
    obtain ⟨s₁, hrun₁, hready₁, hast₁⟩ := reads_segment
      ⟨g.segments ++ [s], g.multiplierSum + 1⟩ rest
      (hitems segment List.mem_cons_self) g.multiplierSum rfl hm' (by omega)
    have hm₁ : s₁.multiplier = segment.multiplier := by rw [← hast₁]; rfl
    obtain ⟨g₂, s₂, hrun₂, hready₂, hm₂, hasts₂, hsum₂⟩ := ih
      ⟨g.segments ++ [s], g.multiplierSum + segment.multiplier⟩
      (fun s' hs' => hitems s' (List.mem_cons_of_mem segment hs'))
      (fun s' hs' => hpos s' (List.mem_cons_of_mem segment hs')) hready₁ (by omega)
      (by simp only; omega)
    refine ⟨g₂, s₂, ?_, hready₂, hm₂, ?_, by rw [hsum₂, htotal, Nat.add_assoc]⟩
    · rw [moreTokens, List.cons_append, parseStates_cons, hbar, Option.bind_some,
        parseStates_append, hrun₁, Option.bind_some, hrun₂]
    · rw [hasts₂, List.map_append, List.map_singleton, hast₁, List.append_assoc,
        List.singleton_append]

omit g in
/-- **The segments of a group are read back** into a fresh group. -/
theorem reads_segments {group : GroupOf Ast} (hgroup : group.Valid Ast.Reads)
    (hne : group.segments ≠ []) :
    ∃ g s, parseStates (groupTokens group)
        (.group { groupInit with multiplierSum := 1 } segmentInit :: rest)
        = some (.group g s :: rest) ∧ Ready s ∧ 1 ≤ s.multiplier ∧
      (g.segments ++ [s]).map SegmentOf.ast = group.segments ∧
      g.multiplierSum = group.multiplierSum := by
  rcases group with ⟨_ | ⟨segment, segments⟩, sum⟩
  · exact absurd rfl hne
  obtain ⟨hpos, hitems, hsum, hlt⟩ := hgroup
  simp only at hpos hitems hsum hlt
  have htotal : totalMultiplier (segment :: segments)
      = segment.multiplier + totalMultiplier segments := List.sum_cons
  have hm := hpos segment List.mem_cons_self
  obtain ⟨s₁, hrun₁, hready₁, hast₁⟩ := reads_segment
    { groupInit with multiplierSum := 1 } rest
    (hitems segment List.mem_cons_self) 0 rfl hm (by omega)
  have hm₁ : s₁.multiplier = segment.multiplier := by rw [← hast₁]; rfl
  obtain ⟨g₂, s₂, hrun₂, hready₂, hm₂, hasts₂, hsum₂⟩ := reads_more
    ⟨[], 0 + segment.multiplier⟩ rest
    (fun s' hs' => hitems s' (List.mem_cons_of_mem segment hs'))
    (fun s' hs' => hpos s' (List.mem_cons_of_mem segment hs')) hready₁ (by omega)
    (by simp only; omega)
  refine ⟨g₂, s₂, ?_, hready₂, hm₂, ?_, ?_⟩
  · rw [groupTokens, segmentsTokens, parseStates_append, hrun₁, Option.bind_some]
    exact hrun₂
  · rw [hasts₂, List.nil_append, List.map_singleton, hast₁, List.singleton_append]
  · rw [hsum₂, hsum, htotal, Nat.zero_add]

/-- **A group is read back.** -/
theorem reads_group {s : Segment} (hs : Ready s) {group : GroupOf Ast}
    (hgroup : group.Valid Ast.Reads) (hne : ∃ s ∈ group.segments, s.items ≠ []) :
    ∃ s', parseStates (dataTokens (.group group)) (.group g s :: rest)
        = some (.group g s' :: rest) ∧ s'.multiplier = s.multiplier ∧
      EndsIn s' (s.items.flatMap Item.asts) (.group group) ⟨1, 1⟩ false := by
  obtain ⟨segment, hmem, hitem⟩ := hne
  obtain ⟨g₁, s₁, hrun, hready, hm, hasts, hsum⟩ := reads_segments
    (.group g s :: rest) hgroup (List.ne_nil_of_mem hmem)
  have hopen : parseState '('.toNat (.group g s :: rest)
      = some (.group { groupInit with multiplierSum := 1 } segmentInit
        :: .group g (segmentClean s) :: rest) := rfl
  have hclose : parseState ')'.toNat (.group g₁ s₁ :: .group g s :: rest)
      = parseClose g₁ (segmentClean s₁) (.group g s :: rest) := rfl
  -- a segment of the syntax with an item comes from a segment of the tree with an item
  have hfinish : groupFinish { g₁ with segments := g₁.segments ++ [s₁] }
      = { g₁ with segments := g₁.segments ++ [s₁] } := by
    rw [groupFinish, if_neg]
    intro hall
    rw [← hasts, List.mem_map] at hmem
    obtain ⟨s', hs', rfl⟩ := hmem
    have hnil : s'.items = [] := List.isEmpty_iff.mp (List.all_eq_true.mp hall s' hs')
    exact hitem (by rw [SegmentOf.ast, hnil]; rfl)
  have hne₀ : g₁.multiplierSum ≠ 0 := by
    have hle := hgroup.pos segment hmem
    have hle' : segment.multiplier ≤ totalMultiplier group.segments :=
      List.single_le_sum (fun _ _ => Nat.zero_le _) _ (List.mem_map_of_mem hmem)
    have := hgroup.sum_eq
    omega
  have hfrozen : Frozen (.group { g₁ with segments := g₁.segments ++ [s₁] }) (.group group) := by
    have hast : GroupOf.ast { g₁ with segments := g₁.segments ++ [s₁] } = group := by
      rw [GroupOf.ast, hasts]
      simp only [hsum]
    rw [← hast]
    exact .group hne₀
  refine ⟨s.push (.init (.group { g₁ with segments := g₁.segments ++ [s₁] })), ?_, rfl,
    endsIn_push s hfrozen⟩
  rw [dataTokens, List.cons_append, parseStates_cons, hopen, hs.clean, Option.bind_some,
    parseStates_append, hrun, Option.bind_some, parseStates_cons, hclose, hready.clean, parseClose,
    if_neg (by omega), hfinish]
  rfl

end Segments

/-- **Every well-formed item is read back**, by induction on the item. -/
theorem Ast.Valid.reads {item : Ast} (h : item.Valid) : item.Reads := by
  induction h with
  | char hpos hle hne hrep =>
    exact reads_mk hrep fun g s rest hs => reads_char g rest hs hpos hle hne
  | set hne hranges hrep => exact reads_mk hrep fun g s rest hs => reads_set g rest hs hranges
  | @special kind name rep maybe hne hname hfits hrep =>
    exact reads_mk hrep fun g s rest hs => reads_special g rest hs kind hname
  | group hpos hitems hsum hlt hne hrep ih =>
    exact reads_mk hrep fun g s rest hs => reads_group g rest hs ⟨hpos, ih, hsum, hlt⟩ hne

/-! ## What is written can be decoded and lexed -/

/-- A token that is read as it is written, in scalar values other than `NUL`. -/
def Writable (t : ℕ) : Prop := Spellable t ∧ ∀ c ∈ spell t, IsScalar c ∧ c ≠ 0

theorem writable_of_isScalar {t : ℕ} (ht : IsScalar t) (hne : t ≠ 0) : Writable t := by
  refine ⟨.inl ht.lt_escaped, fun c hc => ?_⟩
  rw [spell, if_neg (by rw [isEscaped_of_lt ht.lt_escaped]; exact Bool.false_ne_true)] at hc
  split at hc
  · rename_i h
    have : c = t := by simpa [h] using hc
    exact this ▸ ⟨ht, hne⟩
  · rw [List.mem_singleton.mp hc]
    exact ⟨ht, hne⟩

/-- The characters that are written after a backslash. -/
def escapable : List Char := ['|', '(', ')', '{', '}', '[', ']', 'm', 'p', 'w']

theorem writable_escapedToken {c : Char} (hc : c ∈ escapable) :
    Writable (escapedToken c.toNat) := by
  have hall : ∀ d ∈ escapable.map Char.toNat, d < 128 ∧ d ≠ 0 ∧ d ≠ 'u'.toNat ∧
      ¬(d < simpleEscapedSize ∧ simpleEscaped d ≠ 0) := by decide
  obtain ⟨hlt, hne, hu, hsimple⟩ := hall c.toNat (List.mem_map_of_mem hc)
  refine ⟨.inr ⟨c.toNat, by omega, rfl, hsimple, hu⟩, fun d hd => ?_⟩
  rw [spell, if_pos (isEscaped_escapedToken _), clearEscaped_escapedToken (by omega)] at hd
  rcases List.mem_cons.mp hd with rfl | hd
  · exact ⟨⟨by decide, by decide⟩, by decide⟩
  · rw [List.mem_singleton.mp hd]
    exact ⟨⟨by omega, by omega⟩, hne⟩

/-- The punctuation of a pattern. -/
theorem writable_punctuation {c : Char}
    (hc : c ∈ ['|', '(', ')', '{', '}', '[', ']', '?', ',', '-']) : Writable c.toNat := by
  have hall : ∀ d ∈ ['|', '(', ')', '{', '}', '[', ']', '?', ',', '-'].map Char.toNat,
      d < 128 ∧ d ≠ 0 := by decide
  obtain ⟨hlt, hne⟩ := hall c.toNat (List.mem_map_of_mem hc)
  exact writable_of_isScalar ⟨by omega, by omega⟩ hne

theorem writable_number {n t : ℕ} (ht : t ∈ numberTokens n) : Writable t := by
  obtain ⟨hlo, hhi⟩ := isDigit_of_mem_numberTokens ht
  simp only [Char.reduceToNat] at hlo hhi
  exact writable_of_isScalar ⟨by omega, by omega⟩ (by omega)

theorem writable_braced {n t : ℕ} (ht : t ∈ '{'.toNat :: numberTokens n ++ ['}'.toNat]) :
    Writable t := by
  simp only [List.cons_append, List.mem_cons, List.mem_append, List.not_mem_nil, or_false] at ht
  rcases ht with rfl | ht | rfl
  · exact writable_punctuation (by decide)
  · exact writable_number ht
  · exact writable_punctuation (by decide)

theorem writable_repeat {rep : Repeat} {t : ℕ} (ht : t ∈ repeatTokens rep) : Writable t := by
  unfold repeatTokens at ht
  split at ht
  · exact absurd ht List.not_mem_nil
  split at ht
  · exact writable_braced ht
  · simp only [List.cons_append, List.mem_cons, List.mem_append, List.append_assoc,
      List.not_mem_nil, or_false] at ht
    rcases ht with rfl | ht | rfl | ht | rfl
    · exact writable_punctuation (by decide)
    · exact writable_number ht
    · exact writable_punctuation (by decide)
    · exact writable_number ht
    · exact writable_punctuation (by decide)

theorem writable_maybe {maybe : Bool} {t : ℕ} (ht : t ∈ maybeTokens maybe) : Writable t := by
  cases maybe with
  | false => exact absurd ht List.not_mem_nil
  | true =>
    rw [List.mem_singleton.mp ht]
    exact writable_punctuation (by decide)

theorem writable_multiplier {m t : ℕ} (ht : t ∈ multiplierTokens m) : Writable t := by
  unfold multiplierTokens at ht
  split at ht
  · exact absurd ht List.not_mem_nil
  · exact writable_braced ht

theorem writable_charToken {c : ℕ} (hpos : 1 ≤ c) (hle : c ≤ 127) : Writable (charToken c) := by
  unfold charToken
  split
  · rename_i htext
    have hchar : asChar c = c := Nat.mod_eq_of_lt (by omega)
    simp only [isEscapedText, hchar] at htext
    rcases htext with rfl | rfl | rfl | rfl | rfl | rfl | rfl <;>
      exact writable_escapedToken (by decide)
  · exact writable_of_isScalar ⟨by omega, by omega⟩ (by omega)

theorem writable_range {r : Range} (hstart : RangeEnd r.start) (hstop : RangeEnd r.stop) {t : ℕ}
    (ht : t ∈ rangeTokens r) : Writable t := by
  have hends := writable_of_isScalar hstart.1 hstart.2.1
  unfold rangeTokens at ht
  split at ht
  · rwa [List.mem_singleton.mp ht]
  · simp only [List.mem_cons, List.not_mem_nil, or_false] at ht
    rcases ht with rfl | rfl | rfl
    · exact hends
    · exact writable_punctuation (by decide)
    · exact writable_of_isScalar hstop.1 hstop.2.1

theorem writable_nameToken {c : ℕ} (hc : IsScalar c) (hne : c ≠ 0) : Writable (nameToken c) := by
  unfold nameToken
  split
  · rename_i h
    rw [h]
    exact writable_escapedToken (by decide)
  · exact writable_of_isScalar hc hne

theorem writable_items {items : List Ast} (hitems : ∀ i ∈ items, ∀ t ∈ i.tokens, Writable t)
    {t : ℕ} (ht : t ∈ itemsTokens items) : Writable t := by
  induction items with
  | nil => exact absurd ht List.not_mem_nil
  | cons i items ih =>
    rw [itemsTokens, List.mem_append] at ht
    rcases ht with ht | ht
    · exact hitems i List.mem_cons_self t ht
    · exact ih (fun j hj => hitems j (List.mem_cons_of_mem i hj)) ht

theorem writable_segment {segment : SegmentOf Ast}
    (hitems : ∀ i ∈ segment.items, ∀ t ∈ i.tokens, Writable t) {t : ℕ}
    (ht : t ∈ segmentTokens segment) : Writable t := by
  rcases segment with ⟨items, m⟩
  rw [segmentTokens, List.mem_append] at ht
  rcases ht with ht | ht
  · exact writable_multiplier ht
  · exact writable_items hitems ht

theorem writable_more {segments : List (SegmentOf Ast)}
    (hitems : ∀ s ∈ segments, ∀ i ∈ s.items, ∀ t ∈ i.tokens, Writable t) {t : ℕ}
    (ht : t ∈ moreTokens segments) : Writable t := by
  induction segments with
  | nil => exact absurd ht List.not_mem_nil
  | cons segment segments ih =>
    rw [moreTokens, List.cons_append, List.mem_cons, List.mem_append] at ht
    rcases ht with rfl | ht | ht
    · exact writable_punctuation (by decide)
    · exact writable_segment (hitems segment List.mem_cons_self) ht
    · exact ih (fun s hs => hitems s (List.mem_cons_of_mem segment hs)) ht

theorem writable_group {group : GroupOf Ast}
    (hitems : ∀ s ∈ group.segments, ∀ i ∈ s.items, ∀ t ∈ i.tokens, Writable t) {t : ℕ}
    (ht : t ∈ groupTokens group) : Writable t := by
  rcases group with ⟨_ | ⟨segment, segments⟩, sum⟩
  · exact absurd ht List.not_mem_nil
  · rw [groupTokens, segmentsTokens, List.mem_append] at ht
    rcases ht with ht | ht
    · exact writable_segment (hitems segment List.mem_cons_self) ht
    · exact writable_more (fun s hs => hitems s (List.mem_cons_of_mem segment hs)) ht

/-- **The tokens of a well-formed item can be written.** -/
theorem Ast.Valid.writable {item : Ast} (h : item.Valid) : ∀ t ∈ item.tokens, Writable t := by
  suffices hdata : ∀ {d : AstData Ast} {rep : Repeat} {maybe : Bool},
      (∀ t ∈ dataTokens d, Writable t) → ∀ t ∈ (Ast.mk d rep maybe).tokens, Writable t by
    induction h with
    | char hpos hle hne hrep =>
      refine hdata fun t ht => ?_
      rw [List.mem_singleton.mp ht]
      exact writable_charToken hpos hle
    | set hne hranges hrep =>
      refine hdata fun t ht => ?_
      simp only [dataTokens, List.cons_append, List.mem_cons, List.mem_append, List.mem_flatMap,
        List.not_mem_nil, or_false] at ht
      rcases ht with rfl | ⟨r, hr, ht⟩ | rfl
      · exact writable_punctuation (by decide)
      · exact writable_range (hranges r hr).1 (hranges r hr).2.1 ht
      · exact writable_punctuation (by decide)
    | @special kind name rep maybe hne hname hfits hrep =>
      refine hdata fun t ht => ?_
      simp only [dataTokens, List.cons_append, List.mem_cons, List.mem_append, List.mem_map,
        List.not_mem_nil, or_false] at ht
      rcases ht with rfl | rfl | ⟨c, hc, rfl⟩ | rfl
      · cases kind <;> exact writable_escapedToken (by decide)
      · exact writable_punctuation (by decide)
      · exact writable_nameToken (hname c hc).1 (hname c hc).2
      · exact writable_punctuation (by decide)
    | group hpos hitems hsum hlt hne hrep ih =>
      refine hdata fun t ht => ?_
      simp only [dataTokens, List.cons_append, List.mem_cons, List.mem_append,
        List.not_mem_nil, or_false] at ht
      rcases ht with rfl | ht | rfl
      · exact writable_punctuation (by decide)
      · exact writable_group ih ht
      · exact writable_punctuation (by decide)
  intro d rep maybe hd t ht
  rw [Ast.tokens, List.mem_append, List.mem_append] at ht
  rcases ht with (ht | ht) | ht
  · exact hd t ht
  · exact writable_repeat ht
  · exact writable_maybe ht

/-! ## The round trip -/

/-- A written group is made of scalar values other than `NUL`. -/
theorem isScalar_of_mem_print {group : GroupOf Ast} (hgroup : group.Valid Ast.Valid) {c : ℕ}
    (hc : c ∈ group.print) : IsScalar c ∧ c ≠ 0 := by
  obtain ⟨t, ht, hct⟩ := List.mem_flatMap.mp hc
  exact (writable_group (fun s hs i hi => (hgroup.items s hs i hi).writable) ht).2 c hct

/-- A tree that says something well-formed has exact sums. -/
theorem exact_of_valid_ast {g h : Group} (hgroup : g.ast.Valid Ast.Valid)
    (hcontains : Group.Contains g h) : Exact h := by
  induction hcontains with
  | root g =>
    have hsum := hgroup.sum_eq
    rw [Exact]
    simpa [GroupOf.ast, totalMultiplier, SegmentOf.ast, Function.comp_def] using hsum
  | @item g h k s i hs hi hdata _ ih =>
    refine ih ?_
    have hmem : Ast.mk (.group h.ast) i.rep i.maybe ∈ s.ast.items := by
      refine List.mem_flatMap.mpr ⟨i, hi, ?_⟩
      rcases i with ⟨data, rep, maybe⟩
      obtain rfl : data = .group h := hdata
      rw [asts_group]
      exact List.mem_singleton_self _
    have hvalid := hgroup.items s.ast (List.mem_map_of_mem hs) _ hmem
    cases hvalid with
    | group hpos hitems hsum hlt hne hrep => exact ⟨hpos, hitems, hsum, hlt⟩

/-- **Parsing undoes writing.**  A well-formed group with a segment, written out, is accepted, and
the tree says that group again, with the sum of its multipliers in every group. -/
theorem parse_print {group : GroupOf Ast} (hgroup : group.Valid Ast.Valid)
    (hne : group.segments ≠ []) :
    ∃ g, parse (utf8EncodeAll group.print) = .ok g ∧ g.ast = group ∧
      ∀ h, g.Contains h → Exact h := by
  have hreads : group.Valid Ast.Reads :=
    { hgroup with items := fun s hs i hi => (hgroup.items s hs i hi).reads }
  obtain ⟨g, s, hrun, hready, -, hasts, hsum⟩ := reads_segments [] hreads hne
  have hlex : lex .init group.print = some (groupTokens group) :=
    lex_flatMap_spell fun t ht =>
      (writable_group (fun s hs i hi => (hgroup.items s hs i hi).writable) ht).1
  have hast : GroupOf.ast { g with segments := g.segments ++ [s] } = group := by
    rw [GroupOf.ast, hasts]
    simp only [hsum]
  refine ⟨{ g with segments := g.segments ++ [s] }, ?_, hast, fun h hcontains => ?_⟩
  · rw [parse_encodeAll_iff fun c hc => (isScalar_of_mem_print hgroup hc).1]
    refine ⟨groupTokens group, [.group g s], hlex, hrun, ?_⟩
    simp only [finish, parseFinish, hready.clean]
  · exact exact_of_valid_ast (by rwa [hast]) hcontains

/-- The syntax of `{2}a?[b-d]{3}|(\\|)`. -/
def sampleAst : GroupOf Ast :=
  ⟨[⟨[.mk (.char 97) ⟨1, 1⟩ true, .mk (.set [⟨98, 100⟩]) ⟨3, 3⟩ false], 2⟩,
    ⟨[.mk (.group ⟨[⟨[.mk (.char 124) ⟨1, 1⟩ false], 1⟩], 1⟩) ⟨1, 1⟩ false], 1⟩], 3⟩

theorem valid_sampleAst : sampleAst.Valid Ast.Valid := by
  have hone : Repeat.Valid ⟨1, 1⟩ := ⟨le_rfl, by decide⟩
  have hthree : Repeat.Valid ⟨3, 3⟩ := ⟨le_rfl, by decide⟩
  have ha : Ast.Valid (.mk (.char 97) ⟨1, 1⟩ true) :=
    .char (by decide) (by decide) (by decide) hone
  have hset : Ast.Valid (.mk (.set [⟨98, 100⟩]) ⟨3, 3⟩ false) := by
    refine .set (List.cons_ne_nil _ _) (fun r hr => ?_) hthree
    rw [List.mem_singleton.mp hr]
    exact ⟨⟨⟨by decide, by decide⟩, by decide⟩, ⟨⟨by decide, by decide⟩, by decide⟩, by decide⟩
  have hbar : Ast.Valid (.mk (.char 124) ⟨1, 1⟩ false) :=
    .char (by decide) (by decide) (by decide) hone
  have hgroup : Ast.Valid
      (.mk (.group ⟨[⟨[.mk (.char 124) ⟨1, 1⟩ false], 1⟩], 1⟩) ⟨1, 1⟩ false) := by
    refine .group ?_ ?_ rfl (by decide) ⟨_, List.mem_cons_self, List.cons_ne_nil _ _⟩ hone
    · simp
    · simpa using hbar
  refine ⟨by simp [sampleAst], ?_, rfl, by decide⟩
  simpa [sampleAst] using ⟨⟨ha, hset⟩, hgroup⟩

theorem parse_print_sampleAst :
    ∃ g, parse (utf8EncodeAll sampleAst.print) = .ok g ∧ g.ast = sampleAst ∧
      ∀ h, g.Contains h → Exact h :=
  parse_print valid_sampleAst (List.cons_ne_nil _ _)

/-- **What is not read back**: a group without segments has no text, and the empty pattern is one
empty segment; a name of `2 ^ 30` letters has no buffer. -/
theorem not_parse_print :
    (¬∀ group : GroupOf Ast, group.Valid Ast.Valid →
      ∃ g, parse (utf8EncodeAll group.print) = .ok g ∧ g.ast = group ∧
        ∀ h, g.Contains h → Exact h) ∧
    ∃ name : List ℕ, name ≠ [] ∧ (∀ c ∈ name, IsScalar c ∧ c ≠ 0) ∧
      ∀ junk kind, ¬SafePushes junk kind (name.map nameToken) := by
  constructor
  · intro hall
    obtain ⟨g, hparse, hast, -⟩ := hall ⟨[], 0⟩ ⟨by simp, by simp, rfl, by decide⟩
    have hempty : parse (utf8EncodeAll (GroupOf.print ⟨[], 0⟩)) = .ok ⟨[segmentInit], 1⟩ := rfl
    rw [hempty] at hparse
    obtain rfl := Except.ok.inj hparse
    exact absurd (congrArg GroupOf.segments hast) (List.cons_ne_nil _ _)
  · have hletter : IsScalar 'a'.toNat ∧ 'a'.toNat ≠ 0 := ⟨⟨by decide, by decide⟩, by decide⟩
    refine ⟨List.replicate (2 ^ 30) 'a'.toNat, ?_,
      fun c hc => List.eq_of_mem_replicate hc ▸ hletter, fun junk kind hsafe => ?_⟩
    · exact mt (List.replicate_eq_nil_iff _).mp (Nat.two_pow_pos 30).ne'
    · rw [List.map_replicate] at hsafe
      exact not_fitsName_replicate le_rfl ((safePushes_iff junk kind).mp hsafe)

end Passgen
