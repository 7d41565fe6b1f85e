import Mathlib.Data.List.Basic
import Mathlib.Data.List.ModifyLast
import Mathlib.Tactic.Common
import Passgen.Generate.Choose
import Passgen.Parser.Run
import Passgen.Pattern.Fold

/-!
# Pattern/Ast — what a pattern says, and how to write it

    Ast ──tokens──▸ List ℕ ──spell──▸ codepoints          Group ──ast──▸ GroupOf Ast

The abstract syntax of a pattern has one item for each character; the trees of the parser pack
characters into literals of up to seven, mark some of them, and keep a list of choices with each
set.  `Group.ast` forgets this.
-/

namespace Passgen

/-- What an item is, over the type of items. -/
inductive AstData (ι : Type) where
  | char (codepoint : ℕ)
  | set (ranges : List Range)
  | special (kind : SpecialKind) (name : List ℕ)
  | group (group : GroupOf ι)

/-- An item of the abstract syntax. -/
inductive Ast where
  | mk (data : AstData Ast) (rep : Repeat) (maybe : Bool)

/-! ## The syntax of a tree -/

/-- The name of a special, in codepoints. -/
def Special.name (special : Special) : List ℕ :=
  (decodeAll (special.parameters.take special.parametersLen.toNat)).2.map Prod.fst

/-- What an item says, given what the items inside say: a literal is one item for each of its
codepoints. -/
def astAlg : ItemData (List Ast) → Repeat → Bool → List Ast
  | .literal literal, rep, maybe => literal.codepoints.map fun c => .mk (.char c) rep maybe
  | .set set, rep, maybe => [.mk (.set set.items) rep maybe]
  | .special special, rep, maybe => [.mk (.special special.kind special.name) rep maybe]
  | .group group, rep, maybe =>
    [.mk (.group ⟨group.segments.map fun s => ⟨s.items.flatten, s.multiplier⟩,
      group.multiplierSum⟩) rep maybe]

/-- What an item says. -/
def Item.asts : Item → List Ast := Item.fold astAlg

/-- What a segment says. -/
def SegmentOf.ast (segment : Segment) : SegmentOf Ast :=
  ⟨segment.items.flatMap Item.asts, segment.multiplier⟩

/-- What a group says. -/
def GroupOf.ast (group : Group) : GroupOf Ast :=
  ⟨group.segments.map SegmentOf.ast, group.multiplierSum⟩

@[simp] theorem asts_literal (l : Literal) (rep : Repeat) (maybe : Bool) :
    (Item.mk (.literal l) rep maybe).asts = l.codepoints.map fun c => .mk (.char c) rep maybe :=
  rfl

@[simp] theorem asts_set (s : PatternSet) (rep : Repeat) (maybe : Bool) :
    (Item.mk (.set s) rep maybe).asts = [.mk (.set s.items) rep maybe] := rfl

@[simp] theorem asts_special (s : Special) (rep : Repeat) (maybe : Bool) :
    (Item.mk (.special s) rep maybe).asts = [.mk (.special s.kind s.name) rep maybe] := rfl

@[simp] theorem asts_group (g : Group) (rep : Repeat) (maybe : Bool) :
    (Item.mk (.group g) rep maybe).asts = [.mk (.group g.ast) rep maybe] := by
  rw [Item.asts, Item.fold_mk, ItemData.map, astAlg, GroupOf.segments_map, List.map_map]
  simp only [GroupOf.ast, GroupOf.multiplierSum_map, List.cons.injEq, Ast.mk.injEq,
    AstData.group.injEq, and_true]
  congr 1

/-! ## Names -/

/-- The tokens of a name that is stored: codepoints, of which the last one finds room. -/
structure FitsName (tokens : List ℕ) : Prop where
  codepoint : ∀ t ∈ tokens, clearEscaped t ≤ 0x10FFFF
  length : (utf8EncodeAll (tokens.dropLast.map clearEscaped)).length + 5 < 2 ^ 30

/-- A push appends the encoding. -/
theorem specialPush_of_le {special : Special} {c : ℕ} (hc : c ≤ 0x10FFFF)
    (hlen : special.parametersLen = special.parameters.length) :
    (specialPush special c).parameters = special.parameters ++ utf8Encode c ∧
      (specialPush special c).parametersLen = (specialPush special c).parameters.length := by
  rw [specialPush, utf8EncodeCodepoint_eq hc]
  have hdrop : (-special.parametersLen).toNat = 0 := by omega
  simp only [hdrop, List.drop_zero, List.length_append, true_and]
  omega

theorem kind_foldl_specialPush (kind : SpecialKind) (name : List ℕ) :
    (name.foldl specialPush (specialInit kind)).kind = kind := by
  suffices h : ∀ special : Special, (name.foldl specialPush special).kind = special.kind from
    h (specialInit kind)
  induction name with
  | nil => exact fun _ => rfl
  | cons c name ih =>
    intro special
    rw [List.foldl_cons, ih, specialPush]
    split <;> rfl

theorem parameters_foldl_specialPush {name : List ℕ} (hname : ∀ c ∈ name, c ≤ 0x10FFFF)
    {special : Special} (hlen : special.parametersLen = special.parameters.length) :
    (name.foldl specialPush special).parameters = special.parameters ++ utf8EncodeAll name ∧
      (name.foldl specialPush special).parametersLen
        = (name.foldl specialPush special).parameters.length := by
  induction name generalizing special with
  | nil => exact ⟨(List.append_nil _).symm, hlen⟩
  | cons c name ih =>
    obtain ⟨hparam, hlen'⟩ := specialPush_of_le (hname c List.mem_cons_self) hlen
    have := ih (fun d hd => hname d (List.mem_cons_of_mem c hd)) hlen'
    rw [hparam, List.append_assoc] at this
    exact this

/-- **A name pushed codepoint by codepoint is the name of the special.** -/
theorem name_foldl_specialPush {kind : SpecialKind} {name : List ℕ}
    (hname : ∀ c ∈ name, IsScalar c) :
    (name.foldl specialPush (specialInit kind)).name = name := by
  have hinit : (specialInit kind).parametersLen = ((specialInit kind).parameters.length : ℤ) := rfl
  obtain ⟨hparam, hlen⟩ := parameters_foldl_specialPush (fun c hc => (hname c hc).1) hinit
  have hbytes : (name.foldl specialPush (specialInit kind)).parameters = utf8EncodeAll name :=
    hparam
  rw [Special.name, hlen, Int.toNat_natCast, List.take_length, hbytes, decodeAll_encodeAll hname,
    withWidths, List.map_map]
  exact List.map_id name

/-! ## Well-formed syntax -/

/-- The bounds of a repeat that can be written. -/
def Repeat.Valid (rep : Repeat) : Prop := rep.min ≤ rep.max ∧ rep.max < 2 ^ 64

/-- A codepoint that can be an end of a range. -/
def RangeEnd (c : ℕ) : Prop := IsScalar c ∧ c ≠ 0 ∧ c ≠ ']'.toNat ∧ c ≠ '-'.toNat

/-- A group whose segments have positive multipliers, with their sum, and items that satisfy `P`. -/
structure GroupOf.Valid {ι : Type} (P : ι → Prop) (group : GroupOf ι) : Prop where
  pos : ∀ s ∈ group.segments, 1 ≤ s.multiplier
  items : ∀ s ∈ group.segments, ∀ i ∈ s.items, P i
  sum_eq : group.multiplierSum = totalMultiplier group.segments
  sum_lt : group.multiplierSum < 2 ^ 64

/-- **The items that can be written.** -/
inductive Ast.Valid : Ast → Prop where
  | char {c : ℕ} {rep : Repeat} {maybe : Bool} (hpos : 1 ≤ c) (hle : c ≤ 127)
      (hne : c ≠ '?'.toNat) (hrep : rep.Valid) : Valid (.mk (.char c) rep maybe)
  | set {ranges : List Range} {rep : Repeat} {maybe : Bool} (hne : ranges ≠ [])
      (hranges : ∀ r ∈ ranges, RangeEnd r.start ∧ RangeEnd r.stop ∧ r.start ≤ r.stop)
      (hrep : rep.Valid) : Valid (.mk (.set ranges) rep maybe)
  | special {kind : SpecialKind} {name : List ℕ} {rep : Repeat} {maybe : Bool} (hne : name ≠ [])
      (hname : ∀ c ∈ name, IsScalar c ∧ c ≠ 0) (hfits : FitsName name) (hrep : rep.Valid) :
      Valid (.mk (.special kind name) rep maybe)
  | group {g : GroupOf Ast} {rep : Repeat} {maybe : Bool}
      (hpos : ∀ s ∈ g.segments, 1 ≤ s.multiplier)
      (hitems : ∀ s ∈ g.segments, ∀ i ∈ s.items, Valid i)
      (hsum : g.multiplierSum = totalMultiplier g.segments) (hlt : g.multiplierSum < 2 ^ 64)
      (hne : ∃ s ∈ g.segments, s.items ≠ []) (hrep : rep.Valid) :
      Valid (.mk (.group g) rep maybe)

/-! ## Writing -/

/-- The tokens of a number. -/
def numberTokens (n : ℕ) : List ℕ := (Nat.toDigits 10 n).map Char.toNat

/-- A character is escaped where it would be a control character. -/
def charToken (c : ℕ) : ℕ := if isEscapedText c then escapedToken c else c

/-- A range of one codepoint, or of more. -/
def rangeTokens (range : Range) : List ℕ :=
  if range.start = range.stop then [range.start] else [range.start, '-'.toNat, range.stop]

/-- The letter of a kind of special. -/
def SpecialKind.letter : SpecialKind → ℕ
  | .markov => 'm'.toNat
  | .preset => 'p'.toNat
  | .wordlist => 'w'.toNat

/-- Inside of a name only the closing brace is escaped. -/
def nameToken (c : ℕ) : ℕ := if c = '}'.toNat then escapedToken c else c

/-- `{n}`, `{n,m}`, or nothing for a repeat of one. -/
def repeatTokens (rep : Repeat) : List ℕ :=
  if rep = ⟨1, 1⟩ then []
  else if rep.min = rep.max then '{'.toNat :: numberTokens rep.min ++ ['}'.toNat]
  else '{'.toNat :: numberTokens rep.min ++ ','.toNat :: numberTokens rep.max ++ ['}'.toNat]

/-- A question mark. -/
def maybeTokens (maybe : Bool) : List ℕ := if maybe then ['?'.toNat] else []

/-- `{m}`, or nothing for a multiplier of one. -/
def multiplierTokens (multiplier : ℕ) : List ℕ :=
  if multiplier = 1 then [] else '{'.toNat :: numberTokens multiplier ++ ['}'.toNat]

mutual

/-- The tokens of an item. -/
def Ast.tokens : Ast → List ℕ
  | .mk data rep maybe => dataTokens data ++ repeatTokens rep ++ maybeTokens maybe

def dataTokens : AstData Ast → List ℕ
  | .char c => [charToken c]
  | .set ranges => '['.toNat :: ranges.flatMap rangeTokens ++ [']'.toNat]
  | .special kind name =>
    escapedToken kind.letter :: '{'.toNat :: name.map nameToken ++ ['}'.toNat]
  | .group g => '('.toNat :: groupTokens g ++ [')'.toNat]

/-- The tokens of a group: its segments, with bars in between. -/
def groupTokens : GroupOf Ast → List ℕ
  | ⟨segments, _⟩ => segmentsTokens segments

def segmentsTokens : List (SegmentOf Ast) → List ℕ
  | [] => []
  | segment :: segments => segmentTokens segment ++ moreTokens segments

def moreTokens : List (SegmentOf Ast) → List ℕ
  | [] => []
  | segment :: segments => '|'.toNat :: segmentTokens segment ++ moreTokens segments

def segmentTokens : SegmentOf Ast → List ℕ
  | ⟨items, multiplier⟩ => multiplierTokens multiplier ++ itemsTokens items

def itemsTokens : List Ast → List ℕ
  | [] => []
  | item :: items => item.tokens ++ itemsTokens items

end

/-- How a token is written in a pattern: an escaped one after a backslash, a backslash doubled, and
every other as it is. -/
def spell (t : ℕ) : List ℕ :=
  if isEscaped t then ['\\'.toNat, clearEscaped t]
  else if t = '\\'.toNat then ['\\'.toNat, '\\'.toNat]
  else [t]

/-- **A group, written out.** -/
def GroupOf.print (group : GroupOf Ast) : List ℕ := (groupTokens group).flatMap spell

/-! ## Lexing what is written -/

/-- The tokens that are read as they are written. -/
def Spellable (t : ℕ) : Prop :=
  t < 2 ^ 30 ∨
    ∃ c, c < 2 ^ 30 ∧ t = escapedToken c ∧ ¬(c < simpleEscapedSize ∧ simpleEscaped c ≠ 0) ∧
      c ≠ 'u'.toNat

/-- A written token lexes to itself. -/
theorem lex_spell {t : ℕ} (ht : Spellable t) (cs : List ℕ) :
    lex .init (spell t ++ cs) = (lex .init cs).map (t :: ·) := by
  rcases ht with hlt | ⟨c, hlt, rfl, hsimple, hu⟩
  · rw [spell, if_neg (by rw [isEscaped_of_lt hlt]; exact Bool.false_ne_true)]
    split
    · rename_i h
      rw [List.cons_append, List.singleton_append, lex, if_pos rfl, lex, if_pos (by decide), h]
      rfl
    · rename_i h
      rw [List.singleton_append, lex, if_neg h]
  · rw [spell, if_pos (isEscaped_escapedToken c), clearEscaped_escapedToken hlt, List.cons_append,
      List.singleton_append, lex, if_pos rfl, lex, if_neg hsimple, if_neg hu]

/-- **Written tokens lex to themselves.** -/
theorem lex_flatMap_spell {ts : List ℕ} (hts : ∀ t ∈ ts, Spellable t) :
    lex .init (ts.flatMap spell) = some ts := by
  induction ts with
  | nil => rfl
  | cons t ts ih =>
    rw [List.flatMap_cons, lex_spell (hts t List.mem_cons_self),
      ih fun u hu => hts u (List.mem_cons_of_mem t hu)]
    rfl

end Passgen
