import Mathlib.Data.List.Basic
import Mathlib.Tactic.Common
import Passgen.Parser.Run
import Passgen.Parser.Step

/-!
# Parser/Grammar — what the parser accepts is derivable

    inner := seg ('|' seg)*          seg := elem*
    elem  := text | special | '(' inner ')' | '[' … ']' | '{' … '}' | '?'

    tokens   p₀ '(' p₁ '(' … pₙ   pend
    stack    G  ▸   G  ▸  …  G  ▸ top

The tokens read so far are derivable pieces between the parentheses that are still open, and at most
one element that has been started.  The stack has a group state for each piece and a state of its
own for the started element.
-/

namespace Passgen

/-! ## The grammar -/

/-- Where a set stands with its last token: nothing yet, a range a dash would extend, or that
dash. -/
inductive SetScan where
  | start
  | ranged
  | openDash
  deriving DecidableEq, Repr

/-- One token of a set. -/
def SetScan.next : SetScan → ℕ → SetScan
  | .ranged, t => if t = '-'.toNat then .openDash else .ranged
  | _, _ => .ranged

/-- The tokens of a set. -/
def setScan (ts : List ℕ) : SetScan := ts.foldl SetScan.next .start

/-- The escaped characters that stand for themselves. -/
def escapedText : List Char := ['|', '(', ')', '{', '}', '[', ']']

/-- The escaped letters that start a special. -/
def specialLetters : List Char := ['m', 'p', 'w']

mutual

/-- `inner := seg ('|' seg)*`. -/
inductive Inner : List ℕ → Prop
  | seg {s : List ℕ} (hs : Seg s) : Inner s
  | bar {p s : List ℕ} (hp : Inner p) (hs : Seg s) : Inner (p ++ '|'.toNat :: s)

/-- `seg := elem*`. -/
inductive Seg : List ℕ → Prop
  | nil : Seg []
  | snoc {s e : List ℕ} (hs : Seg s) (he : Elem e) : Seg (s ++ e)

/-- The elements. -/
inductive Elem : List ℕ → Prop
  | plain {t : ℕ} (ht : isEscaped t = false) (hne : ∀ c ∈ controls, t ≠ c.toNat) : Elem [t]
  | escaped {t : ℕ} (ht : isEscaped t = true) {c : Char} (hc : c ∈ escapedText)
      (htc : clearEscaped t = c.toNat) : Elem [t]
  | special {t : ℕ} {name : List ℕ} (ht : isEscaped t = true) {c : Char}
      (hc : c ∈ specialLetters) (htc : clearEscaped t = c.toNat)
      (hname : ∀ u ∈ name, u ≠ '}'.toNat) : Elem (t :: '{'.toNat :: name ++ ['}'.toNat])
  | group {p : List ℕ} (hp : Inner p) : Elem ('('.toNat :: p ++ [')'.toNat])
  | set {ts : List ℕ} (hts : ∀ t ∈ ts, t ≠ ']'.toNat) (hdash : setScan ts ≠ .openDash) :
      Elem ('['.toNat :: ts ++ [']'.toNat])
  | braces {ds : List ℕ} (hds : ∀ d ∈ ds, isDigit d) : Elem ('{'.toNat :: ds ++ ['}'.toNat])
  | bracesComma {ds es : List ℕ} (hds : ∀ d ∈ ds, isDigit d) (hes : ∀ e ∈ es, isDigit e) :
      Elem ('{'.toNat :: ds ++ ','.toNat :: es ++ ['}'.toNat])
  | maybe : Elem ['?'.toNat]

end

/-! ## What has been read -/

/-- Derivable pieces, with `n` parentheses open between them. -/
inductive OpenPieces : ℕ → List ℕ → Prop
  | root {p : List ℕ} (hp : Inner p) : OpenPieces 0 p
  | paren {n : ℕ} {p q : List ℕ} (hp : OpenPieces n p) (hq : Inner q) :
      OpenPieces (n + 1) (p ++ '('.toNat :: q)

/-- The element a state other than a group is inside of, as far as it has been read. -/
inductive Started : ParserState → List ℕ → Prop
  | multiplier {ds : List ℕ} (hds : ∀ d ∈ ds, isDigit d) : Started .multiplier ('{'.toNat :: ds)
  | set {range : Bool} {ts : List ℕ} (hts : ∀ t ∈ ts, t ≠ ']'.toNat)
      (hscan : setScan ts = if range then .ranged else .start) :
      Started (.set range) ('['.toNat :: ts)
  | setRange {ts : List ℕ} (hts : ∀ t ∈ ts, t ≠ ']'.toNat) (hscan : setScan ts = .openDash) :
      Started .setRange ('['.toNat :: ts)
  | repeat {ds : List ℕ} (hds : ∀ d ∈ ds, isDigit d) : Started .repeat ('{'.toNat :: ds)
  | repeatRange {ds es : List ℕ} (hds : ∀ d ∈ ds, isDigit d) (hes : ∀ e ∈ es, isDigit e) :
      Started .repeatRange ('{'.toNat :: ds ++ ','.toNat :: es)
  | special {t : ℕ} (ht : isEscaped t = true) {c : Char} (hc : c ∈ specialLetters)
      (htc : clearEscaped t = c.toNat) : Started .special [t]
  | specialName {t : ℕ} {name : List ℕ} (ht : isEscaped t = true) {c : Char}
      (hc : c ∈ specialLetters) (htc : clearEscaped t = c.toNat)
      (hname : ∀ u ∈ name, u ≠ '}'.toNat) : Started .specialName (t :: '{'.toNat :: name)

/-- A group state. -/
def ParserState.IsGroup : ParserState → Prop
  | .group _ _ => True
  | _ => False

/-- **The invariant of the parser**: how the stack follows from the tokens read so far. -/
inductive Follows : List ℕ → List ParserState → Prop
  | between {n : ℕ} {p : List ℕ} {groups : List ParserState} (hp : OpenPieces n p)
      (hlen : groups.length = n + 1) (hgroups : ∀ s ∈ groups, s.IsGroup) : Follows p groups
  | inside {n : ℕ} {p pend : List ℕ} {top : ParserState} {groups : List ParserState}
      (hp : OpenPieces n p) (hlen : groups.length = n + 1) (hgroups : ∀ s ∈ groups, s.IsGroup)
      (htop : Started top pend) : Follows (p ++ pend) (top :: groups)

/-! ## Growing a piece -/

theorem Inner.snoc {p e : List ℕ} (hp : Inner p) (he : Elem e) : Inner (p ++ e) := by
  cases hp with
  | seg hs => exact .seg (.snoc hs he)
  | bar hp hs =>
    rw [List.append_assoc, List.cons_append]
    exact .bar hp (.snoc hs he)

theorem OpenPieces.snoc {n : ℕ} {p e : List ℕ} (hp : OpenPieces n p) (he : Elem e) :
    OpenPieces n (p ++ e) := by
  cases hp with
  | root hp => exact .root (hp.snoc he)
  | paren hp hq =>
    rw [List.append_assoc, List.cons_append]
    exact .paren hp (hq.snoc he)

theorem OpenPieces.bar {n : ℕ} {p : List ℕ} (hp : OpenPieces n p) :
    OpenPieces n (p ++ ['|'.toNat]) := by
  cases hp with
  | root hp => exact .root (.bar hp .nil)
  | paren hp hq =>
    rw [List.append_assoc, List.cons_append]
    exact .paren hp (.bar hq .nil)

/-- A closing parenthesis makes an element of the last piece. -/
theorem OpenPieces.close {n : ℕ} {p : List ℕ} (hp : OpenPieces (n + 1) p) :
    OpenPieces n (p ++ [')'.toNat]) := by
  cases hp with
  | paren hp hq =>
    rw [List.append_assoc]
    exact hp.snoc (.group hq)

/-! ## One token -/

/-- A token of a pattern in ASCII: a `uint32_t` that is below 128 with the escape bit masked off. -/
def IsAsciiToken (t : ℕ) : Prop := t < 2 ^ 32 ∧ clearEscaped t < 128

theorem clearEscaped_of_not_escaped {t : ℕ} (ht : t < 2 ^ 32) (hesc : isEscaped t = false) :
    clearEscaped t = t := by
  refine Nat.eq_of_testBit_eq fun i => ?_
  rw [isEscaped_iff_testBit] at hesc
  rw [clearEscaped, Nat.testBit_and]
  rcases Nat.lt_or_ge i 32 with hi | hi
  · have hmask : ∀ j < 32, j = 30 ∨ tokenEscapedMask.testBit j = true := by decide
    rcases hmask i hi with rfl | hbit
    · rw [hesc, Bool.false_and]
    · rw [hbit, Bool.and_true]
  · have : t.testBit i = false :=
      Nat.testBit_lt_two_pow (ht.trans_le (Nat.pow_le_pow_right (by decide) hi))
    rw [this, Bool.false_and]

theorem asChar_of_lt {c : ℕ} (hc : c < 128) : asChar c = c :=
  Nat.mod_eq_of_lt (by omega)

/-- A control character is the plain token. -/
theorem IsControl.eq {t : ℕ} {c : Char} (h : IsControl t c) (ht : IsAsciiToken t) :
    t = c.toNat := by
  have hclear := clearEscaped_of_not_escaped ht.1 h.1
  rw [← h.2, asChar_of_lt (hclear ▸ ht.2)]

/-- Text is an element. -/
theorem IsText.elem {t c : ℕ} (h : IsText t c) (ht : IsAsciiToken t) : Elem [t] := by
  rcases h with ⟨hesc, hne, -⟩ | ⟨hesc, htext, rfl⟩
  · have hlt : t < 128 := clearEscaped_of_not_escaped ht.1 hesc ▸ ht.2
    refine .plain hesc fun d hd heq => hne d hd ?_
    rw [asChar_of_lt hlt, heq]
  · rw [isEscapedText, asChar_of_lt ht.2] at htext
    obtain ⟨d, hd, hd'⟩ : ∃ d ∈ escapedText, clearEscaped t = d.toNat := by
      simpa [escapedText] using htext
    exact .escaped hesc hd hd'

theorem exists_specialLetter {t : ℕ} {kind : SpecialKind} (ht : IsAsciiToken t)
    (h : specialKind (clearEscaped t) = some kind) :
    ∃ c ∈ specialLetters, clearEscaped t = c.toNat := by
  rw [specialKind, asChar_of_lt ht.2] at h
  split at h
  · exact ⟨'m', by simp [specialLetters], by assumption⟩
  split at h
  · exact ⟨'p', by simp [specialLetters], by assumption⟩
  split at h
  · exact ⟨'w', by simp [specialLetters], by assumption⟩
  · exact absurd h (by simp)

theorem setScan_concat (ts : List ℕ) (t : ℕ) : setScan (ts ++ [t]) = (setScan ts).next t := by
  rw [setScan, List.foldl_append]
  rfl

/-- The last token of an escaped or a plain codepoint of a set. -/
theorem SetScan.next_of_ne {scan : SetScan} {t : ℕ} (h : scan = .ranged → t ≠ '-'.toNat) :
    scan.next t = .ranged := by
  cases scan with
  | start => rfl
  | ranged => exact if_neg (h rfl)
  | openDash => rfl

theorem forall_mem_concat {α : Type} {P : α → Prop} {l : List α} {a : α} (hl : ∀ x ∈ l, P x)
    (ha : P a) : ∀ x ∈ l ++ [a], P x := by
  intro x hx
  rcases List.mem_append.mp hx with h | h
  · exact hl x h
  · exact List.mem_singleton.mp h ▸ ha

/-- Replacing the topmost group state. -/
theorem isGroup_cons {g : Group} {s : Segment} {rest : List ParserState} {state : ParserState}
    (h : ∀ s ∈ state :: rest, s.IsGroup) : ∀ s' ∈ .group g s :: rest, s'.IsGroup := by
  rw [List.forall_mem_cons] at h ⊢
  exact ⟨trivial, h.2⟩

/-- A token completes an element of the last piece. -/
theorem Follows.complete {n : ℕ} {p e : List ℕ} {g g' : Group} {s s' : Segment}
    {rest : List ParserState} (hp : OpenPieces n p) (he : Elem e)
    (hlen : (.group g s :: rest : List ParserState).length = n + 1)
    (hgroups : ∀ s' ∈ .group g s :: rest, s'.IsGroup) :
    Follows (p ++ e) (.group g' s' :: rest) :=
  .between (hp.snoc he) hlen (isGroup_cons hgroups)

/-- A token is read inside of an element that has been started. -/
theorem Follows.enter {n : ℕ} {p pend : List ℕ} {g g' : Group} {s s' : Segment}
    {top : ParserState} {rest : List ParserState} (hp : OpenPieces n p)
    (hlen : (.group g s :: rest : List ParserState).length = n + 1)
    (hgroups : ∀ s' ∈ .group g s :: rest, s'.IsGroup) (htop : Started top pend) :
    Follows (p ++ pend) (top :: .group g' s' :: rest) :=
  .inside hp hlen (isGroup_cons hgroups) htop

/-- A token between elements: text and a completed element extend the last piece, an opening token
starts an element or a piece. -/
theorem OpenPieces.step {n t : ℕ} {p : List ℕ} {groups state' : List ParserState}
    (hp : OpenPieces n p) (hlen : groups.length = n + 1) (hgroups : ∀ s ∈ groups, s.IsGroup)
    (ht : IsAsciiToken t) (hstep : Step t groups state') : Follows (p ++ [t]) state' := by
  cases hstep with
  | text c htext => exact .complete hp (htext.elem ht) hlen hgroups
  | special kind hesc hkind =>
    obtain ⟨c, hc, htc⟩ := exists_specialLetter ht hkind
    exact .enter hp hlen hgroups (.special hesc hc htc)
  | bar hbar =>
    obtain rfl := hbar.eq ht
    exact .between hp.bar hlen (isGroup_cons hgroups)
  | recycle hbar =>
    obtain rfl := hbar.eq ht
    exact .between hp.bar hlen (isGroup_cons hgroups)
  | close hclose =>
    obtain rfl := hclose.eq ht
    obtain ⟨m, rfl⟩ : ∃ m, n = m + 1 := by
      simp only [List.length_cons] at hlen
      exact ⟨n - 1, by omega⟩
    have hrest := (List.forall_mem_cons.mp hgroups).2
    exact .between hp.close (by simpa using hlen) (isGroup_cons hrest)
  | openGroup hopen =>
    obtain rfl := hopen.eq ht
    refine .between (.paren hp (.seg .nil)) (by simpa using hlen) ?_
    exact List.forall_mem_cons.mpr ⟨trivial, isGroup_cons hgroups⟩
  | openSet hset =>
    obtain rfl := hset.eq ht
    exact .enter hp hlen hgroups (.set (List.forall_mem_nil _) rfl)
  | openRepeat hbrace =>
    obtain rfl := hbrace.eq ht
    exact .enter hp hlen hgroups (.repeat (List.forall_mem_nil _))
  | openMultiplier hbrace =>
    obtain rfl := hbrace.eq ht
    exact .enter hp hlen hgroups (.multiplier (List.forall_mem_nil _))
  | maybe hmaybe =>
    obtain rfl := hmaybe.eq ht
    exact .complete hp .maybe hlen hgroups
  | _ => exact False.elim (List.forall_mem_cons.mp hgroups).1

/-- A token inside of a started element goes on with it or completes it. -/
theorem Started.step {n t : ℕ} {p pend : List ℕ} {top : ParserState}
    {groups state' : List ParserState} (htop : Started top pend) (hp : OpenPieces n p)
    (hlen : groups.length = n + 1) (hgroups : ∀ s ∈ groups, s.IsGroup)
    (hparse : parseState t (top :: groups) = some state') :
    Follows (p ++ (pend ++ [t])) state' := by
  have hstep := step_of_parseState hparse
  cases htop with
  | multiplier hds =>
    cases hstep with
    | multiplierEnd hend =>
      subst hend
      exact .complete hp (.braces hds) hlen hgroups
    | multiplierDigit hdigit =>
      exact .enter hp hlen hgroups (.multiplier (forall_mem_concat hds hdigit))
  | @set range ts hts hscan =>
    cases hstep with
    | setEnd hend =>
      subst hend
      refine .complete hp (.set hts ?_) hlen hgroups
      rw [hscan]
      split_ifs <;> simp
    | setRange hdash =>
      subst hdash
      rw [List.cons_append]
      refine .inside hp hlen hgroups (.setRange (forall_mem_concat hts (by decide)) ?_)
      rw [setScan_concat, hscan]
      rfl
    | setEscaped hesc hc =>
      have hne : t ≠ ']'.toNat ∧ t ≠ '-'.toNat := by
        constructor <;> (rintro rfl; exact absurd hesc (by decide))
      rw [List.cons_append]
      refine .enter hp hlen hgroups (.set (forall_mem_concat hts hne.1) ?_)
      rw [setScan_concat, SetScan.next_of_ne fun _ => hne.2]
      rfl
    | setPush hesc hend =>
      rw [List.cons_append]
      refine .enter hp hlen hgroups (.set (forall_mem_concat hts hend) ?_)
      rw [setScan_concat, SetScan.next_of_ne]
      · rfl
      · -- a dash after a range opens a range
        rintro hranged rfl
        cases range with
        | false => simp [hscan] at hranged
        | true => simp [parseState, parseSet] at hparse
  | setRange hts hscan =>
    cases hstep with
    | setExtend hend =>
      rw [List.cons_append]
      refine .enter hp hlen hgroups (.set (forall_mem_concat hts hend) ?_)
      rw [setScan_concat, hscan]
      rfl
  | «repeat» hds =>
    cases hstep with
    | repeatEnd hend =>
      subst hend
      exact .complete hp (.braces hds) hlen hgroups
    | repeatComma hcomma =>
      subst hcomma
      exact .enter hp hlen hgroups (.repeatRange hds (List.forall_mem_nil _))
    | repeatDigit hdigit =>
      exact .enter hp hlen hgroups (.repeat (forall_mem_concat hds hdigit))
  | repeatRange hds hes =>
    cases hstep with
    | repeatRangeEnd hend =>
      subst hend
      exact .complete hp (.bracesComma hds hes) hlen hgroups
    | repeatRangeDigit hdigit =>
      refine .enter hp hlen hgroups ?_
      rw [List.append_assoc]
      exact .repeatRange hds (forall_mem_concat hes hdigit)
  | special hesc hc htc =>
    cases hstep with
    | nameOpen hopen =>
      subst hopen
      exact .inside hp hlen hgroups (.specialName hesc hc htc (List.forall_mem_nil _))
  | specialName hesc hc htc hname =>
    cases hstep with
    | nameEnd hend =>
      subst hend
      exact .complete hp (.special hesc hc htc hname) hlen hgroups
    | namePush hend =>
      exact .enter hp hlen hgroups
        (.specialName hesc hc htc (forall_mem_concat hname hend))

/-- **Every step is one of the grammar.** -/
theorem Follows.step {ts : List ℕ} {t : ℕ} {state state' : List ParserState}
    (h : Follows ts state) (ht : IsAsciiToken t) (hparse : parseState t state = some state') :
    Follows (ts ++ [t]) state' := by
  cases h with
  | between hp hlen hgroups => exact hp.step hlen hgroups ht (step_of_parseState hparse)
  | inside hp hlen hgroups htop =>
    rw [List.append_assoc]
    exact htop.step hp hlen hgroups hparse

/-! ## Counting the open parentheses

A parenthesis counts where it is read as text: not inside of a set, of braces or of a name. -/

/-- What a token is read inside of. -/
inductive Inside where
  | text
  | set
  | braces
  | special
  | name
  deriving DecidableEq, Repr

/-- What the next token is read inside of. -/
def Inside.next : Inside → ℕ → Inside
  | .text, t =>
    if t = '['.toNat then .set
    else if t = '{'.toNat then .braces
    else if isEscaped t ∧ clearEscaped t ∈ specialLetters.map Char.toNat then .special
    else .text
  | .set, t => if t = ']'.toNat then .text else .set
  | .braces, t => if t = '}'.toNat then .text else .braces
  | .special, _ => .name
  | .name, t => if t = '}'.toNat then .text else .name

/-- One token: what it is read inside of, and the parentheses open before it. -/
def countParen (inside : Inside × ℕ) (t : ℕ) : Inside × ℕ :=
  (inside.1.next t,
    if inside.1 = .text ∧ t = '('.toNat then inside.2 + 1
    else if inside.1 = .text ∧ t = ')'.toNat then inside.2 - 1
    else inside.2)

/-- The tokens after the given ones. -/
def countParens (inside : Inside × ℕ) (ts : List ℕ) : Inside × ℕ := ts.foldl countParen inside

/-- The parentheses a sequence of tokens leaves open. -/
def openParens (ts : List ℕ) : ℕ := (countParens (.text, 0) ts).2

theorem countParens_append (inside : Inside × ℕ) (ts us : List ℕ) :
    countParens inside (ts ++ us) = countParens (countParens inside ts) us :=
  List.foldl_append ..

theorem countParens_cons (inside : Inside × ℕ) (t : ℕ) (ts : List ℕ) :
    countParens inside (t :: ts) = countParens (countParen inside t) ts := rfl

/-- Nothing but its closing token ends a set, braces or a name. -/
theorem countParens_stay {inside : Inside} {n : ℕ} {ts : List ℕ} (htext : inside ≠ .text)
    (h : ∀ t ∈ ts, inside.next t = inside) : countParens (inside, n) ts = (inside, n) := by
  induction ts with
  | nil => rfl
  | cons t ts ih =>
    rw [List.forall_mem_cons] at h
    rw [countParens_cons, countParen]
    simp only [h.1, htext, false_and, if_false]
    exact ih h.2

/-- What a state's tokens are read inside of. -/
def ParserState.inside : ParserState → Inside
  | .group _ _ => .text
  | .multiplier => .braces
  | .set _ => .set
  | .setRange => .set
  | .repeat => .braces
  | .repeatRange => .braces
  | .special => .special
  | .specialName => .name

theorem countParens_digits {n : ℕ} {ds : List ℕ} (hds : ∀ d ∈ ds, isDigit d) :
    countParens (.braces, n) ds = (.braces, n) := by
  refine countParens_stay (by simp) fun d hd => if_neg ?_
  rintro rfl
  exact absurd (hds _ hd) (by decide)

theorem countParens_set {n : ℕ} {ts : List ℕ} (hts : ∀ t ∈ ts, t ≠ ']'.toNat) :
    countParens (.set, n) ts = (.set, n) :=
  countParens_stay (by simp) fun t ht => if_neg (hts t ht)

theorem countParens_name {n : ℕ} {ts : List ℕ} (hts : ∀ t ∈ ts, t ≠ '}'.toNat) :
    countParens (.name, n) ts = (.name, n) :=
  countParens_stay (by simp) fun t ht => if_neg (hts t ht)

/-- A token that is no parenthesis. -/
theorem countParen_text {n t : ℕ} (hopen : t ≠ '('.toNat) (hclose : t ≠ ')'.toNat) :
    countParen (.text, n) t = (Inside.text.next t, n) := by
  rw [countParen, if_neg fun h => hopen h.2, if_neg fun h => hclose h.2]

theorem escaped_ne {t c : ℕ} (ht : isEscaped t = true) (hc : isEscaped c = false) : t ≠ c := by
  rintro rfl
  exact absurd (ht.symm.trans hc) (by decide)

theorem countParen_escaped {n t : ℕ} (ht : isEscaped t = true) :
    countParen (.text, n) t =
      (if clearEscaped t ∈ specialLetters.map Char.toNat then .special else .text, n) := by
  rw [countParen_text (escaped_ne ht (by decide)) (escaped_ne ht (by decide)), Inside.next,
    if_neg (escaped_ne ht (by decide)), if_neg (escaped_ne ht (by decide))]
  simp [ht]

theorem countParen_special {n t : ℕ} (ht : isEscaped t = true) {c : Char}
    (hc : c ∈ specialLetters) (htc : clearEscaped t = c.toNat) :
    countParen (.text, n) t = (.special, n) := by
  rw [countParen_escaped ht, htc, if_pos (List.mem_map_of_mem hc)]

/-- **A started element is read inside of what its state says.** -/
theorem countParens_started {n : ℕ} {top : ParserState} {pend : List ℕ} (h : Started top pend) :
    countParens (.text, n) pend = (top.inside, n) := by
  cases h with
  | multiplier hds => exact countParens_digits hds
  | set hts => exact countParens_set hts
  | setRange hts => exact countParens_set hts
  | «repeat» hds => exact countParens_digits hds
  | repeatRange hds hes =>
    rw [countParens_append]
    change countParens (countParens (.braces, n) _) _ = _
    rw [countParens_digits hds, countParens_cons]
    exact countParens_digits hes
  | special ht hc htc => exact countParen_special ht hc htc
  | specialName ht hc htc hname =>
    rw [countParens_cons, countParen_special ht hc htc]
    exact countParens_name hname

mutual

/-- **A derivable sequence leaves no parenthesis open** and ends in text. -/
theorem countParens_inner {n : ℕ} : ∀ {p : List ℕ}, Inner p → countParens (.text, n) p = (.text, n)
  | _, .seg hs => countParens_seg hs
  | _, .bar hp hs => by
    rw [countParens_append, countParens_inner hp, countParens_cons]
    exact countParens_seg hs

theorem countParens_seg {n : ℕ} : ∀ {s : List ℕ}, Seg s → countParens (.text, n) s = (.text, n)
  | _, .nil => rfl
  | _, .snoc hs he => by
    rw [countParens_append, countParens_seg hs, countParens_elem he]

theorem countParens_elem {n : ℕ} : ∀ {e : List ℕ}, Elem e → countParens (.text, n) e = (.text, n)
  | _, .plain (t := t) ht hne => by
    simp only [controls, List.forall_mem_cons] at hne
    obtain ⟨-, hclose, hopen, hset, hbrace, -⟩ := hne
    change countParen (.text, n) t = _
    rw [countParen_text hopen hclose, Inside.next, if_neg hset, if_neg hbrace,
      if_neg (by simp [ht])]
  | _, .escaped (t := t) ht hc htc => by
    have hletter : ∀ c ∈ escapedText.map Char.toNat, c ∉ specialLetters.map Char.toNat := by
      decide
    change countParen (.text, n) t = _
    rw [countParen_escaped ht, htc, if_neg (hletter _ (List.mem_map_of_mem hc))]
  | _, .special ht hc htc hname => by
    rw [countParens_append, countParens_started (.specialName ht hc htc hname)]
    rfl
  | _, .group hp => by
    rw [List.cons_append, countParens_cons, countParens_append]
    change countParens (countParens (.text, n + 1) _) _ = _
    rw [countParens_inner hp]
    rfl
  | _, @Elem.set ts hts _ => by
    rw [countParens_append]
    change countParens (countParens (.set, n) ts) _ = _
    rw [countParens_set hts]
    rfl
  | _, .braces hds => by
    rw [countParens_append, countParens_started (.repeat hds)]
    rfl
  | _, .bracesComma hds hes => by
    rw [countParens_append, countParens_started (.repeatRange hds hes)]
    rfl
  | _, .maybe => rfl

end

theorem OpenPieces.count {n : ℕ} {p : List ℕ} (h : OpenPieces n p) :
    countParens (.text, 0) p = (.text, n) := by
  induction h with
  | root hp => exact countParens_inner hp
  | paren hp hq ih =>
    rw [countParens_append, ih]
    exact countParens_inner hq

/-- A stack of `n` group states over the root, and at most one other state on top of them. -/
inductive OneGroupPerParen (n : ℕ) : List ParserState → Prop
  | between {groups : List ParserState} (hlen : groups.length = n + 1)
      (hgroups : ∀ s ∈ groups, s.IsGroup) : OneGroupPerParen n groups
  | inside {top : ParserState} {groups : List ParserState} (hlen : groups.length = n + 1)
      (hgroups : ∀ s ∈ groups, s.IsGroup) (htop : ¬ top.IsGroup) :
      OneGroupPerParen n (top :: groups)

theorem Started.not_isGroup {top : ParserState} {pend : List ℕ} (h : Started top pend) :
    ¬ top.IsGroup := by
  cases h <;> exact id

theorem Follows.oneGroupPerParen {ts : List ℕ} {state : List ParserState} (h : Follows ts state) :
    OneGroupPerParen (openParens ts) state := by
  cases h with
  | between hp hlen hgroups =>
    rw [openParens, hp.count]
    exact .between hlen hgroups
  | inside hp hlen hgroups htop =>
    rw [openParens, countParens_append, hp.count, countParens_started htop]
    exact .inside hlen hgroups htop.not_isGroup

/-- What a finished run has read is derivable. -/
theorem Follows.inner {ts : List ℕ} {state : List ParserState} {g : Group} (h : Follows ts state)
    (hfinish : parseFinish ⟨state, 0⟩ = some g) : Inner ts := by
  obtain ⟨g', s', rfl, -⟩ := finish_eq_some_iff.mp hfinish
  cases h with
  | between hp hlen =>
    obtain rfl : _ = 0 := by simpa using hlen
    cases hp with
    | root hp => exact hp
  | inside hp hlen => simp at hlen

/-! ## Runs -/

theorem follows_parserInit : Follows [] parserInit.state :=
  .between (.root (.seg .nil)) rfl (by simp [parserInit, ParserState.IsGroup])

theorem parseToken_limit_zero {parser parser' : Parser} {token : Token} (hlimit : parser.limit = 0)
    (h : parseToken parser token = some parser') :
    parser'.limit = 0 ∧ parseState token.codepoint parser.state = some parser'.state := by
  rw [parseToken, if_neg (by simp [hlimit]), Option.map_eq_some_iff] at h
  obtain ⟨state, hstate, rfl⟩ := h
  exact ⟨hlimit, hstate⟩

/-- **Every run follows the grammar.** -/
theorem Follows.run {tokens : List Token} {ts : List ℕ} {parser parser' : Parser}
    (h : Follows ts parser.state) (hlimit : parser.limit = 0)
    (htokens : ∀ token ∈ tokens, IsAsciiToken token.codepoint)
    (hrun : tokens.foldlM parseToken parser = some parser') :
    Follows (ts ++ tokens.map Token.codepoint) parser'.state ∧ parser'.limit = 0 := by
  induction tokens generalizing ts parser with
  | nil =>
    obtain rfl : parser = parser' := by simpa using hrun
    exact ⟨by simpa using h, hlimit⟩
  | cons token tokens ih =>
    rw [List.foldlM_cons] at hrun
    obtain ⟨mid, hmid, hrest⟩ := Option.bind_eq_some_iff.mp hrun
    obtain ⟨hlimit', hstate⟩ := parseToken_limit_zero hlimit hmid
    rw [List.forall_mem_cons] at htokens
    rw [List.map_cons, List.append_cons]
    exact ih (h.step htokens.1 hstate) hlimit' htokens.2 hrest

/-- **The parser accepts only well-formed sequences of tokens**, and its stack is the parentheses
they leave open. -/
theorem parseToken_wellFormed {tokens : List Token} {parser : Parser}
    (htokens : ∀ token ∈ tokens, IsAsciiToken token.codepoint)
    (hrun : tokens.foldlM parseToken parserInit = some parser) :
    (∀ g, parseFinish parser = some g → Inner (tokens.map Token.codepoint)) ∧
      OneGroupPerParen (openParens (tokens.map Token.codepoint)) parser.state := by
  obtain ⟨hfollows, hlimit⟩ := follows_parserInit.run rfl htokens hrun
  rw [List.nil_append] at hfollows
  refine ⟨fun g hfinish => hfollows.inner (g := g) ?_, hfollows.oneGroupPerParen⟩
  obtain ⟨state, limit⟩ := parser
  obtain rfl : limit = 0 := hlimit
  exact hfinish

/-- The tokens of `a(b|[c-d]){2}`. -/
def groupTokenList : List Token :=
  [⟨97, 0, 0⟩, ⟨40, 1, 1⟩, ⟨98, 2, 2⟩, ⟨124, 3, 3⟩, ⟨91, 4, 4⟩, ⟨99, 5, 5⟩, ⟨45, 6, 6⟩, ⟨100, 7, 7⟩,
    ⟨93, 8, 8⟩, ⟨41, 9, 9⟩, ⟨123, 10, 10⟩, ⟨50, 11, 11⟩, ⟨125, 12, 12⟩]

theorem parseToken_wellFormed_groupTokenList :
    ∃ parser g, groupTokenList.foldlM parseToken parserInit = some parser ∧
      parseFinish parser = some g ∧ Inner (groupTokenList.map Token.codepoint) ∧
        OneGroupPerParen (openParens (groupTokenList.map Token.codepoint)) parser.state := by
  have hascii : ∀ token ∈ groupTokenList, IsAsciiToken token.codepoint := by
    simp only [groupTokenList, List.forall_mem_cons, IsAsciiToken]
    decide
  obtain ⟨g, hboth⟩ := Option.isSome_iff_exists.mp
    (show ((groupTokenList.foldlM parseToken parserInit).bind parseFinish).isSome from rfl)
  obtain ⟨parser, hrun, hfinish⟩ := Option.bind_eq_some_iff.mp hboth
  obtain ⟨hinner, hgroups⟩ := parseToken_wellFormed hascii hrun
  exact ⟨parser, g, hrun, hfinish, hinner g hfinish, hgroups⟩

end Passgen
