import Mathlib.Data.List.Basic
import Mathlib.Tactic.Common
import Passgen.Parser.Print

/-!
# Parser/Brackets — characters in a set

    [ab\-\\]     a  b  -  \          read as they are meant
    [ab\]]       a  b  and then the escaped bracket is refused

Between brackets a dash, a backslash and a closing bracket need a backslash in front.  The state of
a set lets an escaped dash pass and no other escaped token, so a closing bracket cannot be put in.
-/

namespace Passgen

/-- How a character is written in a set. -/
def setEscape (c : ℕ) : List ℕ :=
  if c = ']'.toNat ∨ c = '-'.toNat then ['\\'.toNat, c]
  else if c = '\\'.toNat then ['\\'.toNat, '\\'.toNat]
  else [c]

/-- The set of the characters, written out. -/
def writeSet (cs : List ℕ) : List ℕ := '['.toNat :: cs.flatMap setEscape ++ [']'.toNat]

/-- The string is accepted, as one set of the characters. -/
def YieldsSet (string : List UInt8) (cs : List ℕ) : Prop :=
  ∃ g set, parse string = .ok g ∧ g.segments = [⟨[.init (.set set)], 1⟩] ∧
    set.items = cs.map fun c => ⟨c, c⟩

/-! ## Tokens -/

/-- The token of a character. -/
def setToken (c : ℕ) : ℕ := if c = ']'.toNat ∨ c = '-'.toNat then escapedToken c else c

theorem spell_setToken {c : ℕ} (hc : c < 2 ^ 30) : spell (setToken c) = setEscape c := by
  rw [setToken, setEscape]
  split
  · rw [spell, if_pos (isEscaped_escapedToken c), clearEscaped_escapedToken hc]
  · rw [spell, if_neg (by rw [isEscaped_of_lt hc]; exact Bool.false_ne_true)]

theorem spellable_setToken {c : ℕ} (hc : c < 2 ^ 30) : Spellable (setToken c) := by
  rw [setToken]
  split
  · rename_i h
    refine .inr ⟨c, hc, rfl, ?_⟩
    rcases h with rfl | rfl <;> decide
  · exact .inl hc

/-- The tokens of a set that is written out. -/
theorem lex_writeSet {cs : List ℕ} (hcs : ∀ c ∈ cs, c < 2 ^ 30) :
    lex .init (writeSet cs) = some ('['.toNat :: cs.map setToken ++ [']'.toNat]) := by
  have hspell : writeSet cs = ('['.toNat :: cs.map setToken ++ [']'.toNat]).flatMap spell := by
    have hmap : cs.flatMap setEscape = (cs.map setToken).flatMap spell := by
      rw [List.flatMap_map]
      exact List.flatMap_congr fun c hc => (spell_setToken (hcs c hc)).symm
    rw [writeSet, hmap, List.flatMap_append, List.flatMap_cons]
    rfl
  have hopen : '['.toNat < 2 ^ 30 := by decide
  have hclose : ']'.toNat < 2 ^ 30 := by decide
  rw [hspell]
  refine lex_flatMap_spell fun t ht => ?_
  rcases List.mem_append.mp ht with ht | ht
  · rcases List.mem_cons.mp ht with rfl | ht
    · exact .inl hopen
    · obtain ⟨c, hc, rfl⟩ := List.mem_map.mp ht
      exact spellable_setToken (hcs c hc)
  · obtain rfl := List.mem_singleton.mp ht
    exact .inl hclose

/-! ## Reading -/

section Reading

variable {g : Group} {s : Segment} {rest : List ParserState} {range : Bool} {items : List Range}

/-- **A character of a set**: the closing bracket is refused. -/
theorem parseState_setToken {c : ℕ} (hc : c < 2 ^ 30) :
    parseState (setToken c) (inSet g s rest range items) =
      if c = ']'.toNat then none else some (inSet g s rest true (items ++ [⟨c, c⟩])) := by
  rw [inSet, parseState, parseSet, setToken]
  by_cases hescape : c = ']'.toNat ∨ c = '-'.toNat
  · rw [if_pos hescape]
    have hesc := isEscaped_escapedToken c
    rcases hescape with rfl | rfl
    · rw [if_neg (by decide), if_neg fun h => absurd h.2 (by decide), if_pos hesc,
        if_neg (by decide), if_pos rfl]
    · rw [if_neg (by decide), if_neg fun h => absurd h.2 (by decide), if_pos hesc,
        if_pos (by decide), if_neg (by decide), SegmentOf.modifyLast_concat]
      rfl
  · rw [if_neg hescape]
    obtain ⟨hend, hdash⟩ := not_or.mp hescape
    rw [if_neg hend, if_neg fun h => hdash h.2,
      if_neg (by rw [isEscaped_of_lt hc]; exact Bool.false_ne_true), if_neg hend,
      SegmentOf.modifyLast_concat]
    rfl

/-- **Characters other than the closing bracket are read.** -/
theorem reads_characters {cs : List ℕ} (hcs : ∀ c ∈ cs, c < 2 ^ 30) (hmem : ']'.toNat ∉ cs)
    (range : Bool) (items : List Range) :
    ∃ range', parseStates (cs.map setToken) (inSet g s rest range items) =
      some (inSet g s rest range' (items ++ cs.map fun c => ⟨c, c⟩)) := by
  induction cs generalizing range items with
  | nil => exact ⟨range, by rw [List.map_nil, List.map_nil, List.append_nil, parseStates_nil]⟩
  | cons c cs ih =>
    obtain ⟨hne, hmem⟩ := not_or.mp (mt List.mem_cons.mpr hmem)
    obtain ⟨range', hrun⟩ := ih (fun d hd => hcs d (List.mem_cons_of_mem c hd)) hmem true
      (items ++ [⟨c, c⟩])
    refine ⟨range', ?_⟩
    rw [List.map_cons, parseStates_cons, parseState_setToken (hcs c List.mem_cons_self),
      if_neg (Ne.symm hne), Option.bind_some, hrun, List.append_assoc]
    rfl

/-- **The closing bracket is refused.** -/
theorem refuses_bracket {cs : List ℕ} (hcs : ∀ c ∈ cs, c < 2 ^ 30) (hmem : ']'.toNat ∈ cs)
    (range : Bool) (items : List Range) :
    parseStates (cs.map setToken) (inSet g s rest range items) = none := by
  induction cs generalizing range items with
  | nil => exact absurd hmem List.not_mem_nil
  | cons c cs ih =>
    rw [List.map_cons, parseStates_cons, parseState_setToken (hcs c List.mem_cons_self)]
    split
    · rfl
    · rename_i hne
      have hmem := (List.mem_cons.mp hmem).resolve_left (Ne.symm hne)
      exact ih (fun d hd => hcs d (List.mem_cons_of_mem c hd)) hmem true _

end Reading

/-- The closing bracket, at the end of the set. -/
theorem parseStates_close (range : Bool) (items : List Range) :
    parseStates [']'.toNat]
        (inSet { groupInit with multiplierSum := 1 } segmentInit [] range items) =
      some [.group { groupInit with multiplierSum := 1 }
        ⟨[.init (.set (setClose ⟨items, []⟩))], 1⟩] := by
  rw [parseStates_cons, inSet, parseState, parseSet, if_pos rfl, SegmentOf.modifyLast_concat]
  rfl

/-- Written characters are characters. -/
theorem isScalar_of_mem_writeSet {cs : List ℕ} (hcs : ∀ c ∈ cs, IsScalar c) {d : ℕ}
    (hd : d ∈ writeSet cs) : IsScalar d := by
  have hopen : IsScalar '['.toNat := by decide
  have hclose : IsScalar ']'.toNat := by decide
  have hescape : IsScalar '\\'.toNat := by decide
  rw [writeSet, List.cons_append, List.mem_cons, List.mem_append, List.mem_singleton,
    List.mem_flatMap] at hd
  rcases hd with rfl | ⟨c, hc, hd⟩ | rfl
  · exact hopen
  · rw [setEscape] at hd
    split at hd
    · rcases List.mem_pair.mp hd with rfl | rfl
      · exact hescape
      · exact hcs d hc
    · split at hd
      · obtain rfl | rfl := List.mem_pair.mp hd <;> exact hescape
      · obtain rfl := List.mem_singleton.mp hd
        exact hcs d hc
  · exact hclose

/-- **The set of a pattern**: the run over the written characters is the run over their tokens in
the state of the set. -/
theorem parse_writeSet_iff {cs : List ℕ} (hcs : ∀ c ∈ cs, IsScalar c) (g : Group) :
    parse (utf8EncodeAll (writeSet cs)) = .ok g ↔
      ∃ state, (parseStates (cs.map setToken)
          (inSet { groupInit with multiplierSum := 1 } segmentInit [] false [])).bind
            (parseStates [']'.toNat]) = some state ∧ finish state = some g := by
  have hopen : parseStates ('['.toNat :: cs.map setToken ++ [']'.toNat]) parserInit.state =
      (parseStates (cs.map setToken)
        (inSet { groupInit with multiplierSum := 1 } segmentInit [] false [])).bind
          (parseStates [']'.toNat]) := by
    rw [List.cons_append, parseStates_cons, ← parseStates_append]
    rfl
  rw [parse_encodeAll_iff fun d hd => isScalar_of_mem_writeSet hcs hd,
    lex_writeSet fun c hc => (hcs c hc).lt_escaped, ← hopen]
  constructor
  · rintro ⟨tokens, state, htokens, hrun, hfinish⟩
    obtain rfl := Option.some.inj htokens
    exact ⟨state, hrun, hfinish⟩
  · rintro ⟨state, hrun, hfinish⟩
    exact ⟨_, state, rfl, hrun, hfinish⟩

/-- A set with the closing bracket in it is not a pattern. -/
theorem not_yieldsSet_of_mem {cs : List ℕ} (hcs : ∀ c ∈ cs, IsScalar c) (hmem : ']'.toNat ∈ cs) :
    ¬YieldsSet (utf8EncodeAll (writeSet cs)) cs := by
  rintro ⟨g, set, hparse, -, -⟩
  obtain ⟨state, hrun, -⟩ := (parse_writeSet_iff hcs g).mp hparse
  rw [refuses_bracket (fun c hc => (hcs c hc).lt_escaped) hmem] at hrun
  exact absurd hrun (Option.some_ne_none state).symm

/-- **Every character but the closing bracket can be put in a set**: the characters, written out
between brackets, are accepted as one set of them in order exactly when `]` is not one of them. -/
theorem yieldsSet_iff {cs : List ℕ} (hcs : ∀ c ∈ cs, IsScalar c ∧ c ≠ 0) :
    YieldsSet (utf8EncodeAll (writeSet cs)) cs ↔ ']'.toNat ∉ cs := by
  have hscalar : ∀ c ∈ cs, IsScalar c := fun c hc => (hcs c hc).1
  constructor
  · exact fun hyields hmem => not_yieldsSet_of_mem hscalar hmem hyields
  · intro hmem
    obtain ⟨range, hrun⟩ := reads_characters (g := { groupInit with multiplierSum := 1 })
      (s := segmentInit) (fun c hc => (hscalar c hc).lt_escaped) hmem false []
    exact ⟨_, _, (parse_writeSet_iff hscalar _).mpr
      ⟨_, by rw [hrun, Option.bind_some, List.nil_append, parseStates_close], rfl⟩, rfl, rfl⟩

/-- `[a\-\\]`. -/
theorem yieldsSet_dash : YieldsSet (utf8EncodeAll (writeSet [97, 45, 92])) [97, 45, 92] :=
  (yieldsSet_iff (by decide)).mpr (by decide)

/-- `[\]]`. -/
theorem not_yieldsSet_bracket : ¬∀ cs : List ℕ, cs ≠ [] → (∀ c ∈ cs, IsScalar c ∧ c ≠ 0) →
    YieldsSet (utf8EncodeAll (writeSet cs)) cs :=
  fun hyields => not_yieldsSet_of_mem (by decide) List.mem_cons_self
    (hyields [']'.toNat] (List.cons_ne_nil _ _) (by decide))

end Passgen
