import Mathlib.Data.List.Basic
import Mathlib.Tactic.Common
import Passgen.Parser.Path

/-!
# Parser/Reading — the text a segment is read from

    a b [c] d e (f) g      ab ▪ de ( f ) g

`readTokens` keeps an account of what is read into each segment that knows nothing of literals:
text, one codepoint after the other, and marks for the other items.  `frames` is the same account of
a stack, where the codepoints of consecutive literals are put together.
-/

namespace Passgen

/-! ## What a segment says -/

/-- Text, or another item: of a group, what its segments say. -/
inductive Mark where
  | text (codepoints : List ℕ)
  | leaf
  | group (segments : List (List Mark))

/-- One more mark: text goes on. -/
def join (marks : List Mark) (mark : Mark) : List Mark :=
  match marks.getLast?, mark with
  | some (.text codepoints), .text more => marks.dropLast ++ [.text (codepoints ++ more)]
  | _, mark => marks ++ [mark]

/-- The marks, with consecutive texts put together. -/
def joinAll (marks : List Mark) : List Mark := marks.foldl join []

/-- What an item says, given what the items inside say. -/
def markAlg : ItemData Mark → Mark
  | .literal literal => .text literal.codepoints
  | .set _ => .leaf
  | .special _ => .leaf
  | .group group => .group (group.segments.map fun segment => joinAll segment.items)

/-- What an item says. -/
def Item.mark : Item → Mark := Item.fold fun data _ _ => markAlg data

/-- What a segment says. -/
def SegmentOf.marks (segment : Segment) : List Mark := joinAll (segment.items.map Item.mark)

/-- What is said in the segments of an open group. -/
structure Frame where
  segments : List (List Mark)
  last : List Mark

/-- What the open groups of a stack say. -/
def frames : List ParserState → List Frame
  | [] => []
  | .group group segment :: rest =>
    ⟨group.segments.map SegmentOf.marks, segment.marks⟩ :: frames rest
  | _ :: rest => frames rest

/-! ## What is read -/

/-- The codepoint a token is text for. -/
def textOf (t : ℕ) : Option ℕ :=
  if isEscaped t then if isEscapedText (clearEscaped t) then some (clearEscaped t) else none
  else if controls.any fun c => asChar t = c.toNat then none else some t

/-- One more mark in the last segment. -/
def Frame.push (frame : Frame) (mark : Mark) : Frame :=
  { frame with last := join frame.last mark }

/-- A group that is removed is not said any more. -/
def Frame.clean (frame : Frame) (segment : Segment) : Frame :=
  if (segmentClean segment).items.length < segment.items.length then
    { frame with last := frame.last.dropLast }
  else frame

/-- The segments that are kept: those with multiplier zero are not. -/
def Frame.kept (frame : Frame) (segment : Segment) : List (List Mark) :=
  if segment.multiplier = 0 then frame.segments else frame.segments ++ [frame.last]

/-- A group that is closed is said in the one it was opened in. -/
def readClose (segments : List (List Mark)) : List Frame → List Frame
  | parent :: below => parent.push (.group segments) :: below
  | [] => []

/-- A control character; modifiers say nothing. -/
def readControl (char : ℕ) (segment : Segment) (frame : Frame) (below : List Frame) :
    List Frame :=
  if char = '|'.toNat then ⟨frame.kept segment, []⟩ :: below
  else if char = ')'.toNat then readClose (frame.kept segment) below
  else if char = '('.toNat then ⟨[], []⟩ :: frame :: below
  else if char = '['.toNat then frame.push .leaf :: below
  else frame :: below

/-- A token read in the last segment of an open group. -/
def readGroup (t : ℕ) (segment : Segment) (frame : Frame) (below : List Frame) : List Frame :=
  match textOf t with
  | some c => frame.push (.text [c]) :: below
  | none =>
    if isEscaped t then frame.push .leaf :: below
    else readControl (asChar t) segment frame below

/-- A token read: the states other than a group read sets, bounds, names and multipliers. -/
def readToken (t : ℕ) : List ParserState → List Frame → List Frame
  | .group _ segment :: _, frame :: below => readGroup t segment (frame.clean segment) below
  | _, below => below

/-- The tokens of a run read. -/
def readTokens : List ℕ → List ParserState → List Frame → List Frame
  | [], _, below => below
  | t :: tokens, state, below =>
    match parseState t state with
    | some state' => readTokens tokens state' (readToken t state below)
    | none => below

/-! ## Text -/

section Marks

variable {s s' : Segment} {item : Item} {marks : List Mark} {literal : Literal}

@[simp] theorem mark_literal (literal : Literal) (rep : Repeat) (maybe : Bool) :
    (Item.mk (.literal literal) rep maybe).mark = .text literal.codepoints := rfl

@[simp] theorem mark_special (special : Special) (rep : Repeat) (maybe : Bool) :
    (Item.mk (.special special) rep maybe).mark = .leaf := rfl

@[simp] theorem mark_group (group : Group) (rep : Repeat) (maybe : Bool) :
    (Item.mk (.group group) rep maybe).mark = .group (group.segments.map SegmentOf.marks) := by
  rw [Item.mark, Item.fold_mk, ItemData.map, markAlg, GroupOf.segments_map, List.map_map]
  rfl

/-- The bounds and the flag say nothing. -/
theorem mark_of_data {x y : Item} (h : x.data = y.data) : x.mark = y.mark := by
  rcases x with ⟨data, rep, maybe⟩
  rcases y with ⟨data', rep', maybe'⟩
  obtain rfl : data = data' := h
  rw [Item.mark, Item.fold_mk, Item.fold_mk]

theorem mark_modifySet (f : PatternSet → PatternSet) (item : Item) :
    (item.modifySet f).mark = item.mark := by
  rcases item with ⟨_ | _ | _ | _, rep, maybe⟩ <;> rfl

theorem mark_modifySpecial (f : Special → Special) (item : Item) :
    (item.modifySpecial f).mark = item.mark := by
  rcases item with ⟨_ | _ | _ | _, rep, maybe⟩ <;> rfl

/-- **Text after text** is text. -/
theorem join_join (marks : List Mark) (a b : List ℕ) :
    join (join marks (.text a)) (.text b) = join marks (.text (a ++ b)) := by
  cases hlast : marks.getLast? with
  | none => simp [join, hlast]
  | some last => cases last <;> simp [join, hlast]

theorem dropLast_join_group (marks : List Mark) (segments : List (List Mark)) :
    (join marks (.group segments)).dropLast = marks := by
  cases hlast : marks.getLast? with
  | none => simp [join, hlast]
  | some last => cases last <;> simp [join, hlast]

theorem marks_of_items {init : List Item} {n : ℕ} (h : s.items = init ++ [item]) :
    s.marks = join (SegmentOf.marks ⟨init, n⟩) item.mark := by
  rw [SegmentOf.marks, joinAll, h, List.map_append, List.foldl_append]
  rfl

theorem marks_push (s : Segment) (item : Item) :
    (s.push item).marks = join s.marks item.mark :=
  marks_of_items (n := s.multiplier) rfl

/-- Rewriting the last item without changing what it says. -/
theorem marks_modifyLast {f : Item → Item} (hf : ∀ item, (f item).mark = item.mark) :
    (s.modifyLast f).marks = s.marks := by
  rcases List.eq_nil_or_concat s.items with hnil | ⟨init, last, hconcat⟩
  · rw [SegmentOf.marks, SegmentOf.marks, SegmentOf.modifyLast, hnil]
    rfl
  · rw [List.concat_eq_append] at hconcat
    have hmodify : (s.modifyLast f).items = init ++ [f last] := by
      rw [SegmentOf.modifyLast, hconcat, List.modifyLast_concat]
    rw [marks_of_items (n := 0) hmodify, marks_of_items (n := 0) hconcat, hf]

/-- **Text joins**, whether it finds room in the last literal or not. -/
theorem marks_appendChar (s : Segment) (c : ℕ) :
    (appendChar s c).marks = join s.marks (.text [c]) := by
  have hfresh := marks_push s (.init (.literal ⟨[c], false⟩))
  rw [appendChar]
  split
  · rename_i literal rep maybe hlast
    split
    · rename_i literal' happend
      obtain ⟨init, hinit⟩ := List.getLast?_eq_some_iff.mp hlast
      have hliteral : literal'.codepoints = literal.codepoints ++ [c] := by
        rw [literalAppend] at happend
        split at happend
        · exact absurd happend (by simp)
        · obtain rfl := Option.some.inj happend
          rfl
      have hmodify : (s.modifyLast fun _ => .mk (.literal literal') rep maybe).items =
          init ++ [.mk (.literal literal') rep maybe] := by
        rw [SegmentOf.modifyLast, hinit, List.modifyLast_concat]
      rw [marks_of_items (n := 0) hmodify, marks_of_items (n := 0) hinit, mark_literal,
        mark_literal, hliteral, join_join]
    · exact hfresh
  · exact hfresh

/-- **Splitting a literal** changes nothing. -/
theorem marks_lastSingleItemTaint (h : lastSingleItemTaint s = some s') : s'.marks = s.marks := by
  obtain ⟨last, hlast, rfl⟩ := Option.map_eq_some_iff.mp h
  obtain ⟨init, hinit⟩ := List.getLast?_eq_some_iff.mp hlast
  have hitems : s.items.dropLast = init := by rw [hinit, List.dropLast_concat]
  rw [marks_of_items (n := 0) hinit]
  have hsingle : ∀ item : Item, singleItemTaint last = [item] → item.mark = last.mark →
      (SegmentOf.mk (s.items.dropLast ++ singleItemTaint last) s.multiplier).marks =
        join (SegmentOf.marks ⟨init, 0⟩) last.mark := by
    intro item hsplit hmark
    rw [hitems, hsplit, marks_of_items (n := 0) rfl, hmark]
  rcases last with ⟨set | literal | special | group, rep, maybe⟩
  · exact hsingle _ rfl rfl
  · by_cases hlong : literal.count > 1
    · have hlong' : singleItemTaint (.mk (.literal literal) rep maybe) =
          [.mk (.literal { literal with codepoints := literal.codepoints.dropLast }) rep maybe,
            .init (.literal (literalTaint ⟨literal.codepoints.getLast?.toList, false⟩))] :=
        if_pos hlong
      have hne : literal.codepoints ≠ [] := List.ne_nil_of_length_pos (Nat.zero_lt_of_lt hlong)
      have hwhole : literal.codepoints.dropLast ++ literal.codepoints.getLast?.toList =
          literal.codepoints := by
        rw [List.getLast?_eq_some_getLast hne]
        exact List.dropLast_append_getLast hne
      rw [hlong', hitems, List.append_cons, marks_of_items (n := 0) rfl,
        marks_of_items (n := 0) rfl, Item.init, mark_literal, mark_literal, mark_literal,
        literalTaint, join_join, hwhole]
    · exact hsingle _ (if_neg hlong) rfl
  · exact hsingle _ rfl rfl
  · exact hsingle _ rfl rfl

/-- **A removed group** is the last mark. -/
theorem clean_marks (segments : List (List Mark)) (s : Segment) :
    Frame.clean ⟨segments, s.marks⟩ s = ⟨segments, (segmentClean s).marks⟩ := by
  rcases segmentClean_cases s with hclean | ⟨group, rep, maybe, -, hitems⟩
  · rw [Frame.clean, hclean, if_neg (Nat.lt_irrefl _)]
  · have hmarks : s.marks = join (segmentClean s).marks (.group (group.segments.map
        SegmentOf.marks)) := by
      rw [marks_of_items (n := (segmentClean s).multiplier) hitems, mark_group]
    have hlength : (segmentClean s).items.length < s.items.length := by
      rw [hitems, List.length_append]
      exact Nat.lt_succ_self _
    rw [Frame.clean, if_pos hlength, hmarks, dropLast_join_group]

end Marks

/-! ## Steps -/

section Steps

variable {t c : ℕ} {state state' : List ParserState}

theorem textOf_of_isText (h : IsText t c) : textOf t = some c := by
  rcases h with ⟨hescaped, hcontrols, rfl⟩ | ⟨hescaped, htext, rfl⟩
  · rw [textOf, if_neg (by simp [hescaped]), if_neg]
    intro hany
    obtain ⟨d, hd, hchar⟩ := List.any_eq_true.mp hany
    exact hcontrols d hd (of_decide_eq_true hchar)
  · rw [textOf, if_pos hescaped, if_pos htext]

theorem textOf_of_isControl {d : Char} (h : IsControl t d) (hd : d ∈ controls) :
    textOf t = none := by
  rw [textOf, if_neg (by simp [h.1]), if_pos (List.any_eq_true.mpr ⟨d, hd, decide_eq_true h.2⟩)]

theorem textOf_of_specialKind {kind : SpecialKind} (h : isEscaped t = true)
    (hkind : specialKind (clearEscaped t) = some kind) : textOf t = none := by
  rw [textOf, if_pos h, if_neg]
  intro htext
  rw [specialKind] at hkind
  rcases htext with hchar | hchar | hchar | hchar | hchar | hchar | hchar
  all_goals exact absurd hkind (by simp [hchar])

/-- What the segments of a closed group say. -/
theorem map_keptSegments (group : Group) (s : Segment) :
    (keptSegments group (segmentClean s)).map SegmentOf.marks =
      Frame.kept ⟨group.segments.map SegmentOf.marks, (segmentClean s).marks⟩ s := by
  rw [keptSegments, Frame.kept, multiplier_clean]
  split
  · rfl
  · rw [List.map_append, List.map_singleton]

/-- What is read in a group is read from the segment without the group that is removed. -/
theorem readToken_group (t : ℕ) (group : Group) (s : Segment) (rest : List ParserState) :
    readToken t (.group group s :: rest) (frames (.group group s :: rest)) =
      readGroup t s ⟨group.segments.map SegmentOf.marks, (segmentClean s).marks⟩ (frames rest) := by
  rw [frames, readToken, clean_marks]

theorem readToken_control {d : Char} (h : IsControl t d) (hd : d ∈ controls) (group : Group)
    (s : Segment) (rest : List ParserState) :
    readToken t (.group group s :: rest) (frames (.group group s :: rest)) = readControl d.toNat s
      ⟨group.segments.map SegmentOf.marks, (segmentClean s).marks⟩ (frames rest) := by
  rw [readToken_group, readGroup, textOf_of_isControl h hd, h.1, h.2]
  rfl

theorem frames_group (group : Group) (s : Segment) (rest : List ParserState) :
    frames (.group group s :: rest) =
      ⟨group.segments.map SegmentOf.marks, s.marks⟩ :: frames rest := rfl

/-- **A step is read** as what it does says. -/
theorem frames_step (hstep : Step t state state') :
    frames state' = readToken t state (frames state) := by
  have hwrite : ∀ {g s rest} {f : Item → Item}, (∀ item, (f item).mark = item.mark) →
      frames (.group g (s.modifyLast f) :: rest) = frames (.group g s :: rest) := fun hf => by
    rw [frames_group, frames_group, marks_modifyLast hf]
  cases hstep with
  | text c ht =>
    rw [readToken_group, readGroup, textOf_of_isText ht, frames_group, marks_appendChar]
    rfl
  | special kind ht hkind =>
    rw [readToken_group, readGroup, textOf_of_specialKind ht hkind]
    simp only [ht, if_true, frames, marks_push, Frame.push, Item.init, mark_special]
  | @bar g s rest ht hs =>
    rw [multiplier_clean] at hs
    rw [readToken_control ht (by decide), frames_group, List.map_append]
    refine congrArg₂ List.cons (congrArg (Frame.mk · []) ?_) rfl
    exact (if_neg (Nat.pos_iff_ne_zero.mp hs)).symm
  | recycle ht hs =>
    rw [multiplier_clean] at hs
    rw [readToken_control ht (by decide), frames_group]
    exact congrArg₂ List.cons (congrArg (Frame.mk · []) (if_pos hs).symm) rfl
  | @close g s parent last rest ht =>
    rw [readToken_control ht (by decide), frames_group, marks_push, Item.init, mark_group,
      segments_groupFinish, map_keptSegments]
    rfl
  | openGroup ht =>
    rw [readToken_control ht (by decide)]
    rfl
  | openSet ht =>
    change frames (.group _ _ :: _) = _
    rw [readToken_control ht (by decide), frames_group, marks_push]
    rfl
  | openRepeat ht hs =>
    change frames (.group _ _ :: _) = _
    rw [readToken_control ht (by decide), hwrite (mark_of_data <| data_resetRepeat ·),
      frames_group, marks_lastSingleItemTaint hs]
    rfl
  | openMultiplier ht hs =>
    rw [readToken_control ht (by decide)]
    rfl
  | maybe ht hs =>
    rw [readToken_control ht (by decide), hwrite (mark_of_data <| data_setMaybe ·), frames_group,
      marks_lastSingleItemTaint hs]
    rfl
  | setEnd | setEscaped | setPush | setExtend => exact hwrite (mark_modifySet _)
  | repeatEnd | repeatComma | repeatDigit | repeatRangeDigit =>
    exact hwrite (mark_of_data <| data_modifyRepeat _ ·)
  | namePush => exact hwrite (mark_modifySpecial _)
  | _ => rfl

/-- **What is read** in a run is what its state says. -/
theorem frames_run {tokens : List ℕ} (hrun : parseStates tokens state = some state') :
    frames state' = readTokens tokens state (frames state) := by
  induction tokens generalizing state with
  | nil =>
    obtain rfl := Option.some.inj hrun
    rfl
  | cons t tokens ih =>
    obtain ⟨next, ht, hrest⟩ := parseStates_cons_eq_some_iff.mp hrun
    rw [readTokens, ht, ih hrest, frames_step (step_of_parseState ht)]

end Steps

/-! ## The tree -/

/-- What is said in the segments of the root, given what is said in those of an open group. -/
def saidAbove (inner : List (List Mark)) : List Frame → List (List Mark)
  | [] => inner
  | frame :: below => saidAbove (frame.segments ++ [join frame.last (.group inner)]) below

/-- What is said in the segments of the root. -/
def said : List Frame → List (List Mark)
  | [] => []
  | frame :: below => saidAbove (frame.segments ++ [frame.last]) below

theorem marks_enclose (inner : Group) (rest : List ParserState) :
    (enclose inner rest).segments.map SegmentOf.marks =
      saidAbove (inner.segments.map SegmentOf.marks) (frames rest) := by
  induction rest generalizing inner with
  | nil => rfl
  | cons top rest ih =>
    cases top with
    | group g s =>
      rw [enclose, ih, frames_group, saidAbove, List.map_append, List.map_singleton, marks_push,
        Item.init, mark_group]
    | _ => exact ih inner

/-- **The tree says** what the open groups do. -/
theorem marks_tree (state : List ParserState) :
    (tree state).segments.map SegmentOf.marks = said (frames state) := by
  induction state with
  | nil => rfl
  | cons top rest ih =>
    cases top with
    | group g s => rw [tree, marks_enclose, frames_group, said, List.map_append, List.map_singleton]
    | _ => exact ih

end Passgen
