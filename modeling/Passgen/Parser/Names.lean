import Mathlib.Data.List.Basic
import Mathlib.Tactic.Common
import Passgen.Parser.Sets
import Passgen.Pattern.Special

/-!
# Parser/Names — where the name of a special comes from

    \ w { n a m e }        .special (storedAs .wordlist "name")

Every special of an accepted pattern is written in it, and is what its tokens are stored as, from
the opening brace to the first closing brace that is not escaped.  There may be none in between: the
buffer is then never allocated, and there is no string at all.
-/

namespace Passgen

open Memory

/-! ## Reading a special -/

/-- The last item of the segment is an open special, written at the end of the tokens: its letter,
and `written`. -/
structure OpenSpecial (tokens : List ℕ) (s : Segment) (kind : SpecialKind)
    (written text : List ℕ) : Prop where
  tokens : ∃ before t, isEscaped t = true ∧ specialKind (clearEscaped t) = some kind ∧
    tokens = before ++ t :: written
  items : ∃ init, s.items = init ++ [.init (.special (storedAs kind text))]

/-- The special at the top of the stack is written at the end of the tokens. -/
def SpecialRead (tokens : List ℕ) : List ParserState → Prop
  | .special :: .group _ s :: _ => ∃ kind, OpenSpecial tokens s kind [] []
  | .specialName :: .group _ s :: _ => ∃ kind text, '}'.toNat ∉ text ∧
    OpenSpecial tokens s kind ('{'.toNat :: text) text
  | _ => True

section SpecialRead

variable {tokens : List ℕ} {s : Segment} {kind : SpecialKind} {written text : List ℕ}

/-- A token is written. -/
theorem OpenSpecial.concat (h : OpenSpecial tokens s kind written text) (t : ℕ) :
    OpenSpecial (tokens ++ [t]) s kind (written ++ [t]) text := by
  obtain ⟨before, u, hu, hkind, htokens⟩ := h.tokens
  refine ⟨⟨before, u, hu, hkind, ?_⟩, h.items⟩
  rw [htokens, List.append_assoc, List.cons_append]

/-- A token is pushed. -/
theorem OpenSpecial.push (h : OpenSpecial tokens s kind written text) (t : ℕ) :
    OpenSpecial tokens (s.modifyLast
        (Item.modifySpecial fun special => specialPush special (clearEscaped t)))
      kind written (text ++ [t]) := by
  obtain ⟨init, hitems⟩ := h.items
  refine ⟨h.tokens, init, ?_⟩
  rw [SegmentOf.modifyLast, hitems, List.modifyLast_concat, storedAs_concat]
  rfl

/-- **One token** of a special is one more token of its text. -/
theorem specialRead_step {t : ℕ} {state state' : List ParserState} (hstep : Step t state state')
    (h : SpecialRead tokens state) : SpecialRead (tokens ++ [t]) state' := by
  cases hstep with
  | special kind ht hkind => exact ⟨kind, ⟨tokens, t, ht, hkind, rfl⟩, _, rfl⟩
  | nameOpen ht =>
    obtain ⟨kind, hopen⟩ := h
    exact ⟨kind, [], List.not_mem_nil, ht ▸ hopen.concat t⟩
  | namePush ht =>
    obtain ⟨kind, text, hend, hopen⟩ := h
    refine ⟨kind, text ++ [t], fun hmem => ?_, (hopen.concat t).push t⟩
    rcases List.mem_append.mp hmem with hmem | hmem
    · exact hend hmem
    · exact ht (List.mem_singleton.mp hmem).symm
  | _ => trivial

end SpecialRead

/-! ## Accepted patterns -/

/-- `Q` holds of the group's own specials. -/
def Group.Specials (Q : Special → Prop) (g : Group) : Prop :=
  ∀ s ∈ g.segments, ∀ item ∈ s.items, ∀ special, item.data = .special special → Q special

/-- `Q` holds of the special of the item and of the specials inside. -/
def Item.Specials (Q : Special → Prop) (item : Item) : Prop :=
  (∀ special, item.data = .special special → Q special) ∧ item.Groups (Group.Specials Q)

/-- The stack without the special that is being read. -/
def nameless : List ParserState → List ParserState
  | .special :: .group g s :: rest => .group g { s with items := s.items.dropLast } :: rest
  | .specialName :: .group g s :: rest => .group g { s with items := s.items.dropLast } :: rest
  | state => state

section Specials

variable {Q : Special → Prop}

theorem Item.Specials.of_data {item item' : Item} (h : item.Specials Q)
    (hdata : item'.data = item.data) : item'.Specials Q :=
  ⟨fun special hspecial => h.1 special (hdata ▸ hspecial), fun g hg => h.2 g (hdata ▸ hg)⟩

/-- An item that is neither a special nor a group. -/
theorem specials_leaf {item : Item} (hspecial : ∀ special, item.data ≠ .special special)
    (hgroup : ∀ g, item.data ≠ .group g) : item.Specials Q :=
  ⟨fun special h => absurd h (hspecial special), fun g h => absurd h (hgroup g)⟩

theorem plainRules_specials : PlainRules (Item.Specials Q) where
  fresh _ := specials_leaf (by simp [Item.init]) (by simp [Item.init])
  other _ _ := specials_leaf (by simp) (by simp)
  group g h := by
    refine ⟨by simp [Item.init], fun g' hg' => ?_⟩
    obtain rfl : groupFinish g = g' := by simpa [Item.init] using hg'
    exact Group.forall_contains_items fun s hs => h s (segments_groupFinish g ▸ hs)
  maybe h := h.of_data rfl
  reset h := h.of_data rfl

/-- A write to a set. -/
theorem Item.Specials.modifySet {item : Item} (h : item.Specials Q)
    (f : PatternSet → PatternSet) : (item.modifySet f).Specials Q := by
  rcases item with ⟨_ | _ | _ | _, rep, maybe⟩
  case set => exact specials_leaf (by simp [Item.modifySet]) (by simp [Item.modifySet])
  all_goals exact h

/-- **One step** keeps the specials, when `Q` holds of every special that is closed. -/
theorem specials_step {t : ℕ} {tokens : List ℕ} {state state' : List ParserState}
    (hclose : ∀ s kind text, OpenSpecial tokens s kind ('{'.toNat :: text) text →
      '}'.toNat ∉ text → t = '}'.toNat → Q (storedAs kind text))
    (hread : SpecialRead tokens state) (hstep : Step t state state')
    (h : AllItems (Item.Specials Q) (nameless state)) :
    AllItems (Item.Specials Q) (nameless state') := by
  cases hstep with
  | special =>
    refine AllItems.last h fun hs item hitem => hs.clean item ?_
    rwa [SegmentOf.push, List.dropLast_concat] at hitem
  | nameOpen => exact h
  | nameEnd ht =>
    obtain ⟨kind, text, hend, hopen⟩ := hread
    obtain ⟨init, hitems⟩ := hopen.items
    refine AllItems.last h fun hs item hitem => ?_
    rw [hitems, List.dropLast_concat] at hs
    rw [hitems] at hitem
    rcases List.mem_append.mp hitem with hmem | hmem
    · exact hs item hmem
    · obtain rfl := List.mem_singleton.mp hmem
      refine ⟨fun special hspecial => ?_, fun g hg => absurd hg (by simp [Item.init])⟩
      obtain rfl := ItemData.special.inj hspecial
      exact hclose _ kind text hopen hend ht
  | namePush =>
    exact AllItems.last h fun hs item hitem => hs item (dropLast_modifyLast _ _ ▸ hitem)
  | openSet =>
    refine allItems_cons_iff.mpr ⟨trivial, AllItems.last h.clean fun hs => hs.push ?_⟩
    exact specials_leaf (by simp [Item.init]) (by simp [Item.init])
  | setEnd => exact AllItems.write h fun _ hitem => hitem.modifySet _
  | setRange => exact allItems_cons_iff.mpr ⟨trivial, h.below⟩
  | setEscaped | setPush | setExtend =>
    exact allItems_cons_iff.mpr ⟨trivial, AllItems.write h fun _ hitem => hitem.modifySet _⟩
  | repeatEnd => exact AllItems.write h fun _ hitem => hitem.of_data rfl
  | repeatComma | repeatDigit | repeatRangeDigit =>
    exact allItems_cons_iff.mpr ⟨trivial, AllItems.write h fun _ hitem => hitem.of_data rfl⟩
  | repeatRangeEnd => exact h.below
  | _ => exact plainRules_specials.step (by constructor <;> assumption) id id id id id h

/-- The special is written in the tokens, with its name up to the first closing brace. -/
def NamedIn (tokens : List ℕ) (kind : SpecialKind) (text : List ℕ) : Prop :=
  ∃ before t after, isEscaped t = true ∧ specialKind (clearEscaped t) = some kind ∧
    '}'.toNat ∉ text ∧ tokens = before ++ t :: '{'.toNat :: text ++ '}'.toNat :: after

/-- **The specials of an accepted pattern** are those that are written in it. -/
theorem specials_of_parse {string : List UInt8} {g : Group} (hparse : parse string = .ok g)
    (hnamed : ∀ kind text, NamedIn (patternTokens string) kind text → Q (storedAs kind text)) :
    ∀ k, g.Contains k → Group.Specials Q k := by
  obtain ⟨state, hrun, hfinish⟩ := parse_run hparse
  have hinit : SpecialRead [] parserInit.state ∧
      AllItems (Item.Specials Q) (nameless parserInit.state) := ⟨trivial, allItems_parserInit⟩
  have hall := parseStates_prefix_invariant
    (P := fun before state =>
      SpecialRead before state ∧ AllItems (Item.Specials Q) (nameless state))
    (fun before t after state state' htokens h ht => by
      have hstep := step_of_parseState ht
      refine ⟨specialRead_step hstep h.1, specials_step ?_ h.1 hstep h.2⟩
      intro s kind text hopen hend hbrace
      obtain ⟨front, u, hu, hkind, hbefore⟩ := hopen.tokens
      exact hnamed kind text ⟨front, u, after, hu, hkind, hend, by rw [htokens, hbefore, hbrace]⟩)
    hinit hrun
  obtain ⟨group, segment, rfl, -⟩ := finish_eq_some_iff.mp hfinish
  exact Group.forall_contains_items (AllItems.finish hall.2 hfinish)

end Specials

/-- **Special names are stored safely and exactly** where they are of codepoints and the last one
finds room, and there is a string where there is a name: every special of an accepted pattern is
what the tokens between its braces are stored as. -/
theorem specials_stored_iff (junk : ℕ → UInt8) {string : List UInt8} {g : Group}
    (hparse : parse string = .ok g) :
    (∀ kind tokens, SafePushes junk kind tokens ↔ FitsName tokens) ∧
      ∀ k, g.Contains k → k.Specials fun special => ∃ kind text,
        NamedIn (patternTokens string) kind text ∧ special = storedAs kind text ∧
          (SpecialStored junk kind text ↔ text ≠ [] ∧ FitsName text) := by
  refine ⟨fun kind tokens => safePushes_iff junk kind, ?_⟩
  exact specials_of_parse hparse fun kind text hnamed =>
    ⟨kind, text, hnamed, rfl, specialStored_iff junk kind⟩

/-- The pattern `\w{en}`. -/
def wordPattern : Group :=
  ⟨[⟨[.init (.special (storedAs .wordlist ['e'.toNat, 'n'.toNat]))], 1⟩], 1⟩

theorem specials_stored_wordPattern :
    (∀ kind tokens, SafePushes (fun _ => 0) kind tokens ↔ FitsName tokens) ∧
      wordPattern.Specials fun special => ∃ kind text,
        NamedIn (patternTokens (ascii "\\w\x7ben\x7d")) kind text ∧ special = storedAs kind text ∧
          (SpecialStored (fun _ => 0) kind text ↔ text ≠ [] ∧ FitsName text) :=
  have h := @specials_stored_iff (fun _ => 0) (ascii "\\w\x7ben\x7d") wordPattern rfl
  ⟨h.1, h.2 wordPattern (.root _)⟩

/-- **A codepoint that is refused moves the length backwards**: `\w{\u{110000}}` writes its zero in
front of the buffer, and `\w{}` has no string. -/
theorem not_specials_stored :
    (parse (ascii "\\w\x7b\\u\x7b110000\x7d\x7d") =
        .ok ⟨[⟨[.init (.special (storedAs .wordlist [0x110000]))], 1⟩], 1⟩ ∧
      NamedIn (patternTokens (ascii "\\w\x7b\\u\x7b110000\x7d\x7d")) .wordlist [0x110000] ∧
      specialPushes (fun _ => 0) (specialBufferInit .wordlist) [0x110000] = .error .access ∧
      ¬ SafePushes (fun _ => 0) .wordlist [0x110000]) ∧
    parse (ascii "\\w\x7b\x7d") = .ok ⟨[⟨[.init (.special (storedAs .wordlist []))], 1⟩], 1⟩ ∧
      NamedIn (patternTokens (ascii "\\w\x7b\x7d")) .wordlist [] ∧
      ¬ SpecialStored (fun _ => 0) .wordlist [] := by
  have hnamed : NamedIn (patternTokens (ascii "\\w\x7b\\u\x7b110000\x7d\x7d")) .wordlist
      [0x110000] := ⟨[], escapedToken 'w'.toNat, [], rfl, rfl, by decide, rfl⟩
  have hempty : NamedIn (patternTokens (ascii "\\w\x7b\x7d")) .wordlist [] :=
    ⟨[], escapedToken 'w'.toNat, [], rfl, rfl, by decide, rfl⟩
  refine ⟨⟨rfl, hnamed, rfl, fun hsafe => ?_⟩, rfl, hempty, fun hstored => ?_⟩
  · have hfits := (safePushes_iff _ _).mp hsafe
    exact absurd (hfits.codepoint _ List.mem_cons_self) (by decide)
  · exact ((specialStored_iff _ _).mp hstored).1 rfl

end Passgen
