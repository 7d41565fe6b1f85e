import Mathlib.Data.List.Basic
import Mathlib.Tactic.Common
import Passgen.Util.Utf8

/-!
# Pattern/Tree — the pattern data structures

    Group ─ segments ▸ Segment ─ items ▸ Item ─ data ▸ set | literal | special | Group

A segment and a group are written over the type of their items, so that they are structures and
the tree is the one nested inductive type `Item`.  Sizes are `size_t`: sums and products that can
wrap are taken modulo `2 ^ 64`.
-/

namespace Passgen

/-- The value of a `size_t` expression. -/
def sizeT (n : ℕ) : ℕ := n % 2 ^ 64

/-- `a - b` on `size_t`. -/
def sizeSub (a b : ℕ) : ℕ := sizeT (a + 2 ^ 64 - b)

theorem sizeT_of_lt {n : ℕ} (h : n < 2 ^ 64) : sizeT n = n := Nat.mod_eq_of_lt h

theorem sizeT_lt (n : ℕ) : sizeT n < 2 ^ 64 := Nat.mod_lt _ (by decide)

theorem sizeT_add_sizeT (a b : ℕ) : sizeT (sizeT a + b) = sizeT (a + b) := Nat.mod_add_mod a _ b

theorem sizeSub_of_le {a b : ℕ} (ha : a < 2 ^ 64) (h : b ≤ a) : sizeSub a b = a - b := by
  rw [sizeSub, sizeT]
  omega

/-! ## Leaves -/

/-- `passgen_pattern_repeat`. -/
structure Repeat where
  min : ℕ
  max : ℕ
  deriving DecidableEq, Repr

/-- `passgen_pattern_literal`; `count` is the length of `codepoints`. -/
structure Literal where
  codepoints : List ℕ
  tainted : Bool
  deriving DecidableEq, Repr

/-- `literal->count`. -/
def Literal.count (literal : Literal) : ℕ := literal.codepoints.length

/-- `passgen_pattern_literal_taint`. -/
def literalTaint (literal : Literal) : Literal := { literal with tainted := true }

/-- `passgen_pattern_literal_append`; `none` is the nonzero return. -/
def literalAppend (literal : Literal) (codepoint : ℕ) : Option Literal :=
  if literal.count ≥ 7 ∨ literal.tainted then none
  else some { literal with codepoints := literal.codepoints ++ [codepoint] }

/-- `passgen_pattern_range`; `stop` is the field `end`. -/
structure Range where
  start : ℕ
  stop : ℕ
  deriving DecidableEq, Repr

/-- `passgen_pattern_set`; `choicesList` is empty while the pointer is `NULL`. -/
structure PatternSet where
  items : List Range
  choicesList : List ℕ
  deriving DecidableEq, Repr

/-- `passgen_pattern_set_init`. -/
def setInit : PatternSet := ⟨[], []⟩

/-- `1 + range->end - range->start`, on `uint32_t`. -/
def Range.choices (range : Range) : ℕ := (1 + range.stop + 2 ^ 32 - range.start) % 2 ^ 32

/-- The running totals written into `choices_list` when a set is closed. -/
def choicesFrom (choices : ℕ) : List Range → List ℕ
  | [] => []
  | range :: items =>
    sizeT (choices + range.choices) :: choicesFrom (sizeT (choices + range.choices)) items

/-- `passgen_pattern_special_kind`. -/
inductive SpecialKind where
  | wordlist
  | markov
  | preset
  deriving DecidableEq, Repr

/-- `passgen_pattern_special`.  `parameters` are the bytes below `parametersLen`; the pointer is
`NULL` while `parametersCap` is zero.  The two counters are `int32_t`, and ℤ agrees with them for
names below `2 ^ 30` bytes. -/
structure Special where
  kind : SpecialKind
  parametersLen : ℤ
  parametersCap : ℤ
  parameters : List UInt8
  deriving DecidableEq, Repr

/-- `passgen_pattern_special_init`, on the kinds the parser passes. -/
def specialInit (kind : SpecialKind) : Special := ⟨kind, 0, 0, []⟩

/-- `passgen_pattern_special_push`.  The length moves by the encoder's result, `-1` for a codepoint
it refuses; a negative length would index in front of the buffer, and such bytes are not kept. -/
def specialPush (special : Special) (codepoint : ℕ) : Special :=
  let cap := if special.parametersCap = 0 then 16 else special.parametersCap
  let cap := if special.parametersLen + 5 ≥ cap then cap * 2 else cap
  match utf8EncodeCodepoint codepoint with
  | some bytes =>
    { special with
      parametersLen := special.parametersLen + bytes.length
      parametersCap := cap
      parameters := special.parameters ++ bytes.drop (-special.parametersLen).toNat }
  | none =>
    { special with
      parametersLen := special.parametersLen - 1
      parametersCap := cap
      parameters := special.parameters.take (special.parametersLen - 1).toNat }

/-- The string `special->parameters` points to; `none` is the `NULL` pointer. -/
def Special.string (special : Special) : Option (List UInt8) :=
  if special.parametersCap = 0 then none else some special.parameters

/-! ## The tree -/

/-- `passgen_pattern_segment`, over the type of its items. -/
structure SegmentOf (ι : Type) where
  items : List ι
  multiplier : ℕ

/-- `passgen_pattern_group`, over the type of its items. -/
structure GroupOf (ι : Type) where
  segments : List (SegmentOf ι)
  multiplierSum : ℕ

/-- The tagged union of a `passgen_pattern_item`. -/
inductive ItemData (ι : Type) where
  | set (set : PatternSet)
  | literal (literal : Literal)
  | special (special : Special)
  | group (group : GroupOf ι)

/-- `passgen_pattern_item`. -/
inductive Item where
  | mk (data : ItemData Item) (rep : Repeat) (maybe : Bool)

/-- `passgen_pattern_segment`. -/
abbrev Segment : Type := SegmentOf Item

/-- `passgen_pattern_group`; a `passgen_pattern` is its root group. -/
abbrev Group : Type := GroupOf Item

namespace Item

def data : Item → ItemData Item
  | mk data _ _ => data

/-- The field `repeat`. -/
def rep : Item → Repeat
  | mk _ rep _ => rep

def maybe : Item → Bool
  | mk _ _ maybe => maybe

/-- `passgen_pattern_item_init`, with the data the caller fills in. -/
def init (data : ItemData Item) : Item := mk data ⟨1, 1⟩ false

@[simp] theorem data_mk (d : ItemData Item) (r : Repeat) (m : Bool) : (mk d r m).data = d := rfl
@[simp] theorem rep_mk (d : ItemData Item) (r : Repeat) (m : Bool) : (mk d r m).rep = r := rfl
@[simp] theorem maybe_mk (d : ItemData Item) (r : Repeat) (m : Bool) : (mk d r m).maybe = m := rfl

end Item

/-- `passgen_pattern_segment_init`. -/
def segmentInit : Segment := ⟨[], 1⟩

/-- `passgen_pattern_group_init`. -/
def groupInit : Group := ⟨[], 0⟩

/-- `passgen_pattern_group_finish`: a group in which no segment has an item is marked for removal by
a zero sum. -/
def groupFinish (group : Group) : Group :=
  if group.segments.all fun segment => segment.items.isEmpty then
    { group with multiplierSum := 0 }
  else group

end Passgen
