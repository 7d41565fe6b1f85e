import Mathlib.Data.List.Basic
import Mathlib.Tactic.Common
import Passgen.Parser.Token
import Passgen.Pattern.Tree

/-!
# Parser/Parser — the pattern parser

    bytes ──utf8Decode──▸ codepoints ──tokenParse──▸ tokens ──parseToken──▸ Group

The parser is a stack of states.  In the source every state holds pointers into the tree, and these
always lead to the end of it: a group state to a group and its last segment, every other state into
the last item of the segment of the group state right below it.  Here a group state owns the group
it points to, with the segment under construction kept apart, and the other states act on the group
state below them.  A nested group becomes an item of the segment it was opened in when its state is
popped; until then no other code looks at it.
-/

namespace Passgen

/-- `passgen_parser_state`.  In state `set`, `range` says whether the range pointer is set; it is
then the last range of the set. -/
inductive ParserState where
  | group (group : Group) (segment : Segment)
  | multiplier
  | set (range : Bool)
  | setRange
  | repeat
  | repeatRange
  | special
  | specialName

/-- `passgen_parser`, the top of the stack first; the pattern is what its group states own. -/
structure Parser where
  state : List ParserState
  limit : ℕ

/-- `passgen_parser_init`: the root group with its first segment appended. -/
def parserInit : Parser where
  state := [.group { groupInit with multiplierSum := 1 } segmentInit]
  limit := 0

/-! ## Group state -/

/-- `passgen_pattern_segment_clean`: a last item that is a group with sum zero is removed. -/
def segmentClean (segment : Segment) : Segment :=
  match segment.items.getLast? with
  | some (.mk (.group group) _ _) =>
    if group.multiplierSum = 0 then { segment with items := segment.items.dropLast } else segment
  | _ => segment

/-- Appending a new item to a segment. -/
def SegmentOf.push (segment : Segment) (item : Item) : Segment :=
  { segment with items := segment.items ++ [item] }

/-- Rewriting the last item of a segment. -/
def SegmentOf.modifyLast (segment : Segment) (f : Item → Item) : Segment :=
  { segment with items := segment.items.modifyLast f }

/-- Splitting the last codepoint off a literal of more than one, as a new item; whichever literal is
last then is tainted. -/
def singleItemTaint (item : Item) : List Item :=
  match item with
  | .mk (.literal literal) rep maybe =>
    if literal.count > 1 then
      [.mk (.literal { literal with codepoints := literal.codepoints.dropLast }) rep maybe,
        .init (.literal (literalTaint ⟨literal.codepoints.getLast?.toList, false⟩))]
    else [.mk (.literal (literalTaint literal)) rep maybe]
  | item => [item]

/-- `last_single_item_taint`: the segment in which the last item is a single character or not a
literal, `none` when there is no item. -/
def lastSingleItemTaint (segment : Segment) : Option Segment :=
  segment.items.getLast?.map fun item =>
    { segment with items := segment.items.dropLast ++ singleItemTaint item }

/-- `(char) codepoint`.  It is compared with ASCII constants only, so its sign plays no part. -/
def asChar (codepoint : ℕ) : ℕ := codepoint % 256

/-- The text branch of `passgen_parse_group`: the codepoint joins the last item if that is a literal
with room, and starts a new literal otherwise. -/
def appendChar (segment : Segment) (codepoint : ℕ) : Segment :=
  let fresh := segment.push (.init (.literal ⟨[codepoint], false⟩))
  match segment.items.getLast? with
  | some (.mk (.literal literal) rep maybe) =>
    match literalAppend literal codepoint with
    | some literal => segment.modifyLast fun _ => .mk (.literal literal) rep maybe
    | none => fresh
  | _ => fresh

/-- The kind of special an escaped letter starts. -/
def specialKind (codepoint : ℕ) : Option SpecialKind :=
  if asChar codepoint = 'm'.toNat then some .markov
  else if asChar codepoint = 'p'.toNat then some .preset
  else if asChar codepoint = 'w'.toNat then some .wordlist
  else none

/-- The escaped characters that are text. -/
def isEscapedText (codepoint : ℕ) : Prop :=
  asChar codepoint = '|'.toNat ∨ asChar codepoint = '('.toNat ∨ asChar codepoint = ')'.toNat ∨
    asChar codepoint = '{'.toNat ∨ asChar codepoint = '}'.toNat ∨
    asChar codepoint = '['.toNat ∨ asChar codepoint = ']'.toNat

instance : DecidablePred isEscapedText := fun _ => inferInstanceAs (Decidable (_ ∨ _))

/-- `case '|'`: a new segment; one that ended up with multiplier zero is recycled instead. -/
def parseBar (group : Group) (segment : Segment) (rest : List ParserState) : List ParserState :=
  if segment.multiplier > 0 then
    .group ⟨group.segments ++ [segment], sizeT (group.multiplierSum + 1)⟩ segmentInit :: rest
  else .group group segmentInit :: rest

/-- `case ')'`: the group is finished and becomes an item of the segment below. -/
def parseClose (group : Group) (segment : Segment) : List ParserState → Option (List ParserState)
  | .group parent last :: rest =>
    let segments :=
      if segment.multiplier = 0 then group.segments else group.segments ++ [segment]
    some (.group parent (last.push (.init (.group (groupFinish { group with segments }))))
      :: rest)
  | _ => none

/-- `passgen_parser_state_push_repeat` resets the bounds of the item it is given. -/
def resetRepeat (item : Item) : Item := .mk item.data ⟨0, 0⟩ item.maybe

/-- `case '{'`: a repeat when there is an item to repeat, else the multiplier of the segment. -/
def parseBrace (group : Group) (segment : Segment) (rest : List ParserState) :
    List ParserState :=
  match lastSingleItemTaint segment with
  | some segment => .repeat :: .group group (segment.modifyLast resetRepeat) :: rest
  | none =>
    .multiplier :: .group { group with multiplierSum := sizeSub group.multiplierSum 1 }
      { segment with multiplier := 0 } :: rest

/-- `case '?'`. -/
def parseMaybe (group : Group) (segment : Segment) (rest : List ParserState) :
    Option (List ParserState) :=
  (lastSingleItemTaint segment).map fun segment =>
    .group group (segment.modifyLast fun item => .mk item.data item.rep true) :: rest

/-- `passgen_parse_group`, on the group state at the top and the states below it. -/
def parseGroup (codepoint : ℕ) (group : Group) (segment : Segment) (rest : List ParserState) :
    Option (List ParserState) :=
  let segment := segmentClean segment
  if isEscaped codepoint then
    let codepoint := clearEscaped codepoint
    if isEscapedText codepoint then some (.group group (appendChar segment codepoint) :: rest)
    else match specialKind codepoint with
      | some kind =>
        some (.special :: .group group (segment.push (.init (.special (specialInit kind)))) :: rest)
      | none => none
  else if asChar codepoint = '|'.toNat then some (parseBar group segment rest)
  else if asChar codepoint = ')'.toNat then parseClose group segment rest
  else if asChar codepoint = '('.toNat then
    some (.group { groupInit with multiplierSum := 1 } segmentInit :: .group group segment :: rest)
  else if asChar codepoint = '['.toNat then
    some (.set false :: .group group (segment.push (.init (.set setInit))) :: rest)
  else if asChar codepoint = '{'.toNat then some (parseBrace group segment rest)
  else if asChar codepoint = '?'.toNat then parseMaybe group segment rest
  else some (.group group (appendChar segment codepoint) :: rest)

/-! ## The other states

Each acts on the segment of the group state below it, most of them on the last item of it. -/

/-- A write through a set pointer. -/
def Item.modifySet (f : PatternSet → PatternSet) : Item → Item
  | .mk (.set set) rep maybe => .mk (.set (f set)) rep maybe
  | item => item

/-- A write through a special pointer. -/
def Item.modifySpecial (f : Special → Special) : Item → Item
  | .mk (.special special) rep maybe => .mk (.special (f special)) rep maybe
  | item => item

/-- A write through a repeat pointer. -/
def Item.modifyRepeat (f : Repeat → Repeat) (item : Item) : Item :=
  .mk item.data (f item.rep) item.maybe

/-- The set under construction is the last item. -/
def lastSet (segment : Segment) : Option PatternSet :=
  match segment.items.getLast? with
  | some (.mk (.set set) _ _) => some set
  | _ => none

/-- Closing a set writes its choices list. -/
def setClose (set : PatternSet) : PatternSet := { set with choicesList := choicesFrom 0 set.items }

/-- A range of one codepoint, appended. -/
def setPush (codepoint : ℕ) (set : PatternSet) : PatternSet :=
  { set with items := set.items ++ [⟨codepoint, codepoint⟩] }

/-- A new end for the last range. -/
def setExtend (codepoint : ℕ) (set : PatternSet) : PatternSet :=
  { set with items := set.items.modifyLast fun range => { range with stop := codepoint } }

/-- `passgen_parse_set`. -/
def parseSet (codepoint : ℕ) (range : Bool) (group : Group) (segment : Segment)
    (rest : List ParserState) : Option (List ParserState) :=
  if codepoint = ']'.toNat then
    some (.group group (segment.modifyLast (Item.modifySet setClose)) :: rest)
  else if range ∧ codepoint = '-'.toNat then
    some (.setRange :: .group group segment :: rest)
  else if isEscaped codepoint then
    if clearEscaped codepoint = '-'.toNat then
      some (.set true
        :: .group group (segment.modifyLast (Item.modifySet (setPush (clearEscaped codepoint))))
        :: rest)
    else none
  else
    some (.set true
      :: .group group (segment.modifyLast (Item.modifySet (setPush codepoint))) :: rest)

/-- `passgen_parse_set_range`. -/
def parseSetRange (codepoint : ℕ) (group : Group) (segment : Segment) (rest : List ParserState) :
    Option (List ParserState) :=
  if codepoint = ']'.toNat then none
  else match (lastSet segment).bind fun set => set.items.getLast? with
    | some range =>
      if codepoint < range.start then none
      else some (.set true
        :: .group group (segment.modifyLast (Item.modifySet (setExtend codepoint))) :: rest)
    | none => none

/-- The digits the three number states accept. -/
def isDigit (codepoint : ℕ) : Prop := '0'.toNat ≤ codepoint ∧ codepoint ≤ '9'.toNat

instance : DecidablePred isDigit := fun _ => inferInstanceAs (Decidable (_ ∧ _))

/-- `value *= 10; value += digit`. -/
def pushDigit (value codepoint : ℕ) : ℕ := sizeT (sizeT (value * 10) + (codepoint - '0'.toNat))

/-- `passgen_parse_multiplier`. -/
def parseMultiplier (codepoint : ℕ) (group : Group) (segment : Segment)
    (rest : List ParserState) : Option (List ParserState) :=
  if codepoint = '}'.toNat then
    some (.group { group with multiplierSum := sizeT (group.multiplierSum + segment.multiplier) }
      segment :: rest)
  else if isDigit codepoint then
    some (.multiplier
      :: .group group { segment with multiplier := pushDigit segment.multiplier codepoint } :: rest)
  else none

/-- `passgen_parse_repeat`. -/
def parseRepeat (codepoint : ℕ) (group : Group) (segment : Segment) (rest : List ParserState) :
    Option (List ParserState) :=
  if codepoint = '}'.toNat then
    some (.group group (segment.modifyLast (Item.modifyRepeat fun r => { r with max := r.min }))
      :: rest)
  else if codepoint = ','.toNat then
    some (.repeatRange
      :: .group group (segment.modifyLast (Item.modifyRepeat fun r => { r with max := 0 })) :: rest)
  else if isDigit codepoint then
    some (.repeat
      :: .group group (segment.modifyLast
        (Item.modifyRepeat fun r => { r with min := pushDigit r.min codepoint })) :: rest)
  else none

/-- `passgen_parse_repeat_range`. -/
def parseRepeatRange (codepoint : ℕ) (group : Group) (segment : Segment)
    (rest : List ParserState) : Option (List ParserState) :=
  if codepoint = '}'.toNat then some (.group group segment :: rest)
  else if isDigit codepoint then
    some (.repeatRange
      :: .group group (segment.modifyLast
        (Item.modifyRepeat fun r => { r with max := pushDigit r.max codepoint })) :: rest)
  else none

/-- `passgen_parse_special`. -/
def parseSpecial (codepoint : ℕ) (group : Group) (segment : Segment) (rest : List ParserState) :
    Option (List ParserState) :=
  if codepoint = '{'.toNat then some (.specialName :: .group group segment :: rest) else none

/-- `passgen_parse_special_name`. -/
def parseSpecialName (codepoint : ℕ) (group : Group) (segment : Segment)
    (rest : List ParserState) : List ParserState :=
  if codepoint = '}'.toNat then .group group segment :: rest
  else
    .specialName
      :: .group group (segment.modifyLast
        (Item.modifySpecial fun special => specialPush special (clearEscaped codepoint))) :: rest

/-- The `switch` of `passgen_parse_token`.  A state other than a group always has a group state
below it. -/
def parseState (codepoint : ℕ) : List ParserState → Option (List ParserState)
  | .group group segment :: rest => parseGroup codepoint group segment rest
  | .multiplier :: .group group segment :: rest => parseMultiplier codepoint group segment rest
  | .set range :: .group group segment :: rest => parseSet codepoint range group segment rest
  | .setRange :: .group group segment :: rest => parseSetRange codepoint group segment rest
  | .repeat :: .group group segment :: rest => parseRepeat codepoint group segment rest
  | .repeatRange :: .group group segment :: rest => parseRepeatRange codepoint group segment rest
  | .special :: .group group segment :: rest => parseSpecial codepoint group segment rest
  | .specialName :: .group group segment :: rest =>
    some (parseSpecialName codepoint group segment rest)
  | _ => none

/-- `passgen_parse_token`; `none` is the nonzero return. -/
def parseToken (parser : Parser) (token : Token) : Option Parser :=
  if parser.limit ≠ 0 ∧ parser.state.length ≥ parser.limit then none
  else (parseState token.codepoint parser.state).map fun state => { parser with state }

/-- `passgen_parse_finish`, with the pattern it leaves. -/
def parseFinish (parser : Parser) : Option Group :=
  match parser.state with
  | [.group group segment] =>
    some { group with segments := group.segments ++ [segmentClean segment] }
  | _ => none

/-! ## The front end -/

/-- `passgen_error`: the message and `offset`. -/
structure ParseError where
  message : String
  codepoint : ℕ
  byte : ℕ
  deriving DecidableEq, Repr

/-- What `passgen_parse` keeps between two codepoints. -/
structure FrontEnd where
  tokenParser : TokenParser
  token : Token
  parser : Parser

/-- The state `passgen_parse` starts from. -/
def frontEndInit : FrontEnd := ⟨.zero, .zero, parserInit⟩

/-- The body of the inner loop of `passgen_parse`, on a codepoint and its width. -/
def parseCodepoint (front : FrontEnd) (input : ℕ × ℕ) : Except ParseError FrontEnd :=
  let (tokenParser, token) := tokenParse front.tokenParser front.token input.2 input.1
  if tokenParser.state.IsError then
    .error ⟨tokenParser.state.string, token.offset, token.byteOffset⟩
  else if tokenParser.state = .init then
    match parseToken front.parser token with
    | some parser => .ok ⟨tokenParser, token, parser⟩
    | none => .error ⟨"invalid token", token.offset, token.byteOffset⟩
  else .ok ⟨tokenParser, token, front.parser⟩

/-- The codepoints `passgen_parse` decodes at a time. -/
def patternLen : ℕ := 256

/-- What follows the decoding loop of `passgen_parse`. -/
def parseEnd (front : FrontEnd) (posTotal rawPos : ℕ) : Except ParseError Group :=
  if front.tokenParser.state ≠ .init then
    .error ⟨front.tokenParser.state.string, posTotal, rawPos⟩
  else match parseFinish front.parser with
    | some group => .ok group
    | none => .error ⟨"parsing not finished", posTotal, rawPos⟩

/-- The decoding loop of `passgen_parse`.  A round that does not end the loop passes a byte, so
`rounds` is one more than the length of the input. -/
def parseRounds : ℕ → FrontEnd → ℕ → ℕ → List UInt8 → Except ParseError Group
  | 0, _, posTotal, rawPos, _ => .error ⟨"", posTotal, rawPos⟩
  | rounds + 1, front, posTotal, rawPos, input =>
    let decoded := utf8Decode patternLen input
    let rawPos := rawPos + decoded.consumed
    let posTotal := posTotal + decoded.advanced
    if decoded.ret < utf8Success then .error ⟨utf8Error decoded.ret, posTotal, rawPos⟩
    else do
      let front ← (decoded.written.take decoded.advanced).foldlM parseCodepoint front
      if decoded.ret > utf8Success then
        parseRounds rounds front posTotal rawPos (input.drop decoded.consumed)
      else parseEnd front posTotal rawPos

/-- `passgen_parse`, on the bytes of a C string without its terminator. -/
def parse (string : List UInt8) : Except ParseError Group :=
  parseRounds (string.length + 1) frontEndInit 0 0 string

end Passgen
