import Mathlib.Data.List.Basic
import Mathlib.Data.List.TakeWhile
import Mathlib.Tactic.Common
import Passgen.Json.Text

/-!
# Json/Value — values of RFC 8259

    [ {  "a"  :  1.5  } , … ]     value ─▸ items ─▸ value ─▸ members ─▸ value

A value is read from the front of a text, and what is behind it is left.  What a spelling spells is
what is read from it.  No text that is read has a control character in it, other than white space
between its tokens, and what is read as a number is one.
-/

namespace Json

/-! ## Values -/

inductive Value where
  | string (text : List ℕ)
  /-- A number, as it is written. -/
  | number (text : List ℕ)
  /-- `true`, `false` or `null`. -/
  | word (text : List ℕ)
  | array (items : List Value)
  | object (members : List (List ℕ × Value))

/-- White space between tokens. -/
def IsSpace (c : ℕ) : Prop := c = 0x20 ∨ c = 0x09 ∨ c = 0x0A ∨ c = 0x0D

instance : DecidablePred IsSpace := fun _ => inferInstanceAs (Decidable (_ ∨ _))

/-- The text from its first token on. -/
def skip (text : List ℕ) : List ℕ := text.dropWhile (IsSpace ·)

/-! ## Numbers and words -/

/-- Where the scanner of a number is. -/
inductive Numeral where
  | start
  | minus
  | zero
  | integer
  | point
  | fraction
  | exponent
  | sign
  | power

def IsDigit (c : ℕ) : Prop := '0'.toNat ≤ c ∧ c ≤ '9'.toNat

instance : DecidablePred IsDigit := fun _ => inferInstanceAs (Decidable (_ ∧ _))

/-- What may come after the integer of a number, or after its fraction. -/
def tailStep (point : Bool) (c : ℕ) : Option Numeral :=
  if point = true ∧ c = '.'.toNat then some .point
  else if c = 'e'.toNat ∨ c = 'E'.toNat then some .exponent
  else none

/-- One codepoint of a number. -/
def numberStep : Numeral → ℕ → Option Numeral
  | .start, c =>
    if c = '-'.toNat then some .minus
    else if c = '0'.toNat then some .zero
    else if IsDigit c then some .integer
    else none
  | .minus, c => if c = '0'.toNat then some .zero else if IsDigit c then some .integer else none
  | .zero, c => tailStep true c
  | .integer, c => if IsDigit c then some .integer else tailStep true c
  | .point, c => if IsDigit c then some .fraction else none
  | .fraction, c => if IsDigit c then some .fraction else tailStep false c
  | .exponent, c =>
    if c = '+'.toNat ∨ c = '-'.toNat then some .sign else if IsDigit c then some .power else none
  | .sign, c => if IsDigit c then some .power else none
  | .power, c => if IsDigit c then some .power else none

/-- The number may end there. -/
def Numeral.final : Numeral → Bool
  | .zero | .integer | .fraction | .power => true
  | _ => false

/-- The text is a number. -/
def IsNumber (text : List ℕ) : Prop := (text.foldlM numberStep .start).any Numeral.final = true

instance : DecidablePred IsNumber := fun _ => inferInstanceAs (Decidable (_ = true))

/-- The codepoints that end a number or a word. -/
def delimiters : List ℕ := "[]\x7b\x7d:,\" \t\n\r".toList.map Char.toNat

def wordTexts : List (List ℕ) :=
  ["true", "false", "null"].map fun word => word.toList.map Char.toNat

/-- A number or a word. -/
def readScalar (text : List ℕ) : Option (Value × List ℕ) :=
  let token := text.takeWhile (· ∉ delimiters)
  let rest := text.dropWhile (· ∉ delimiters)
  if token ∈ wordTexts then some (.word token, rest)
  else if IsNumber token then some (.number token, rest)
  else none

/-! ## Reading -/

/-- What the scanner reads until the string is closed, and what is behind it. -/
def readUnits : Mode → List ℕ → Option (List ℕ × List ℕ)
  | .closed, rest => some ([], rest)
  | _, [] => none
  | mode, c :: text =>
    (step mode c).bind fun p => (readUnits p.1 text).map fun q => (p.2 ++ q.1, q.2)

/-- A string, behind its first quote. -/
def readString (text : List ℕ) : Option (List ℕ × List ℕ) :=
  (readUnits .inside text).map fun p => (joinSurrogates p.1, p.2)

/-- The next token, when it is this codepoint. -/
def expect (c : ℕ) (text : List ℕ) : Option (List ℕ) :=
  match skip text with
  | [] => none
  | d :: rest => if d = c then some rest else none

mutual

/-- A value; the fuel bounds how many calls are nested. -/
def readValue : ℕ → List ℕ → Option (Value × List ℕ)
  | 0, _ => none
  | fuel + 1, text =>
    match expect '"'.toNat text with
    | some rest => (readString rest).map fun p => (.string p.1, p.2)
    | none =>
      match expect '['.toNat text with
      | some rest =>
        match expect ']'.toNat rest with
        | some rest => some (.array [], rest)
        | none => (readItems fuel rest).map fun p => (.array p.1, p.2)
      | none =>
        match expect '\x7b'.toNat text with
        | some rest =>
          match expect '\x7d'.toNat rest with
          | some rest => some (.object [], rest)
          | none => (readMembers fuel rest).map fun p => (.object p.1, p.2)
        | none => readScalar (skip text)

/-- The items of an array, up to its closing bracket. -/
def readItems : ℕ → List ℕ → Option (List Value × List ℕ)
  | 0, _ => none
  | fuel + 1, text =>
    (readValue fuel text).bind fun p =>
      match expect ','.toNat p.2 with
      | some rest => (readItems fuel rest).map fun q => (p.1 :: q.1, q.2)
      | none => (expect ']'.toNat p.2).map fun rest => ([p.1], rest)

/-- The members of an object, up to its closing brace. -/
def readMembers : ℕ → List ℕ → Option (List (List ℕ × Value) × List ℕ)
  | 0, _ => none
  | fuel + 1, text =>
    ((expect '"'.toNat text).bind readString).bind fun name =>
      ((expect ':'.toNat name.2).bind (readValue fuel)).bind fun p =>
        match expect ','.toNat p.2 with
        | some rest => (readMembers fuel rest).map fun q => ((name.1, p.1) :: q.1, q.2)
        | none => (expect '\x7d'.toNat p.2).map fun rest => ([(name.1, p.1)], rest)

end

/-- **The value of a text**, with nothing but white space behind it. -/
def read (text : List ℕ) : Option Value :=
  (readValue (text.length + 1) text).bind fun p => if skip p.2 = [] then some p.1 else none

/-! ## Spellings -/

/-- A string as it is spelled. -/
def quoted (body : List ℕ) : List ℕ := '"'.toNat :: body ++ ['"'.toNat]

/-- The body of a string has the value, once surrogates are joined. -/
def Says (body value : List ℕ) : Prop :=
  ∃ units, scan .inside (body ++ ['"'.toNat]) = some units ∧ value = joinSurrogates units

mutual

/-- The text spells the value, without white space. -/
inductive Spells : Value → List ℕ → Prop where
  | string {body value : List ℕ} (h : Says body value) : Spells (.string value) (quoted body)
  | number {text : List ℕ} (h : IsNumber text) : Spells (.number text) text
  | word {text : List ℕ} (h : text ∈ wordTexts) : Spells (.word text) text
  | noItems : Spells (.array []) ['['.toNat, ']'.toNat]
  | items {items : List Value} {text : List ℕ} (h : SpellsItems items text) :
      Spells (.array items) ('['.toNat :: text)
  | noMembers : Spells (.object []) ['\x7b'.toNat, '\x7d'.toNat]
  | members {members : List (List ℕ × Value)} {text : List ℕ} (h : SpellsMembers members text) :
      Spells (.object members) ('\x7b'.toNat :: text)

/-- The text spells the items, and closes their array. -/
inductive SpellsItems : List Value → List ℕ → Prop where
  | last {item : Value} {text : List ℕ} (h : Spells item text) :
      SpellsItems [item] (text ++ [']'.toNat])
  | more {item : Value} {items : List Value} {text texts : List ℕ} (h : Spells item text)
      (hs : SpellsItems items texts) : SpellsItems (item :: items) (text ++ ','.toNat :: texts)

/-- The text spells the members, and closes their object. -/
inductive SpellsMembers : List (List ℕ × Value) → List ℕ → Prop where
  | last {body name : List ℕ} {value : Value} {text : List ℕ} (hname : Says body name)
      (h : Spells value text) :
      SpellsMembers [(name, value)] (quoted body ++ ':'.toNat :: text ++ ['\x7d'.toNat])
  | more {body name : List ℕ} {value : Value} {members : List (List ℕ × Value)}
      {text texts : List ℕ} (hname : Says body name) (h : Spells value text)
      (hs : SpellsMembers members texts) :
      SpellsMembers ((name, value) :: members)
        (quoted body ++ ':'.toNat :: text ++ ','.toNat :: texts)

end

theorem intercalate_cons {α : Type*} (sep : α) (l : List α) (ls : List (List α)) :
    [sep].intercalate (l :: ls) = l ++ ls.flatMap (sep :: ·) := by
  induction ls generalizing l with
  | nil => rw [List.intercalate_singleton, List.flatMap_nil, List.append_nil]
  | cons m ls ih =>
    rw [List.intercalate_cons_cons, ih m, List.flatMap_cons, List.append_assoc,
      List.singleton_append, List.cons_append]

theorem spellsItems_intercalate {ι : Type} {value : ι → Value} {text : ι → List ℕ} {i : ι}
    {is : List ι} (h : ∀ j ∈ i :: is, Spells (value j) (text j)) :
    SpellsItems ((i :: is).map value)
      (text i ++ (is.map text).flatMap (','.toNat :: ·) ++ [']'.toNat]) := by
  induction is generalizing i with
  | nil =>
    rw [List.map_nil, List.flatMap_nil, List.append_nil]
    exact .last (h i List.mem_cons_self)
  | cons j is ih =>
    have hmore := SpellsItems.more (h i List.mem_cons_self)
      (ih fun k hk => h k (List.mem_cons_of_mem i hk))
    have htext : ((j :: is).map text).flatMap (','.toNat :: ·)
        = ','.toNat :: text j ++ (is.map text).flatMap (','.toNat :: ·) := List.flatMap_cons
    rw [htext, List.append_assoc, List.cons_append, List.cons_append]
    exact hmore

/-- **Values that are spelled, with commas between them,** spell their array. -/
theorem spells_array {ι : Type} {value : ι → Value} {text : ι → List ℕ} {is : List ι}
    (h : ∀ i ∈ is, Spells (value i) (text i)) :
    Spells (.array (is.map value))
      ('['.toNat :: [','.toNat].intercalate (is.map text) ++ [']'.toNat]) := by
  cases is with
  | nil => exact .noItems
  | cons i is =>
    have htext : (i :: is).map text = text i :: is.map text := List.map_cons
    rw [htext, intercalate_cons]
    exact .items (spellsItems_intercalate h)

/-! ## Tokens -/

theorem skip_cons {c : ℕ} (hc : ¬IsSpace c) (rest : List ℕ) : skip (c :: rest) = c :: rest :=
  List.dropWhile_cons_of_neg (by simpa using hc)

theorem expect_cons {c : ℕ} (hc : ¬IsSpace c) (rest : List ℕ) :
    expect c (c :: rest) = some rest := by
  rw [expect, skip_cons hc]
  exact if_pos rfl

theorem expect_cons_ne {c d : ℕ} (hd : ¬IsSpace d) (hne : d ≠ c) (rest : List ℕ) :
    expect c (d :: rest) = none := by
  rw [expect, skip_cons hd]
  exact if_neg hne

/-- The codepoints of a number. -/
def InNumber (c : ℕ) : Prop :=
  IsDigit c ∨ c = '-'.toNat ∨ c = '+'.toNat ∨ c = '.'.toNat ∨ c = 'e'.toNat ∨ c = 'E'.toNat

theorem inNumber_of_tailStep {point : Bool} {n : Numeral} {c : ℕ} (h : tailStep point c = some n) :
    InNumber c := by
  rw [tailStep] at h
  split_ifs at h with hpoint hpower
  · exact .inr (.inr (.inr (.inl hpoint.2)))
  · exact .inr (.inr (.inr (.inr hpower)))

theorem inNumber_of_numberStep {n n' : Numeral} {c : ℕ} (h : numberStep n c = some n') :
    InNumber c := by
  have hzero : c = '0'.toNat → InNumber c := fun hzero => .inl (hzero ▸ by decide)
  cases n with
  | start =>
    rw [numberStep] at h
    split_ifs at h with hminus hz hdigit
    · exact .inr (.inl hminus)
    · exact hzero hz
    · exact .inl hdigit
  | minus =>
    rw [numberStep] at h
    split_ifs at h with hz hdigit
    · exact hzero hz
    · exact .inl hdigit
  | zero => exact inNumber_of_tailStep h
  | integer | fraction =>
    rw [numberStep] at h
    split_ifs at h with hdigit
    · exact .inl hdigit
    · exact inNumber_of_tailStep h
  | exponent =>
    rw [numberStep] at h
    split_ifs at h with hsign hdigit
    · exact hsign.elim (fun hplus => .inr (.inr (.inl hplus))) fun hminus => .inr (.inl hminus)
    · exact .inl hdigit
  | point | sign | power =>
    rw [numberStep] at h
    split_ifs at h with hdigit
    exact .inl hdigit

theorem InNumber.le {c : ℕ} (h : InNumber c) : '+'.toNat ≤ c := by
  rcases h with hdigit | rfl | rfl | rfl | rfl | rfl
  · exact Nat.le_trans (by decide) hdigit.1
  all_goals decide

theorem InNumber.lt {c : ℕ} (h : InNumber c) : c < 0x80 := by
  rcases h with hdigit | rfl | rfl | rfl | rfl | rfl
  · exact Nat.lt_of_le_of_lt hdigit.2 (by decide)
  all_goals decide

theorem InNumber.notMem_delimiters {c : ℕ} (h : InNumber c) : c ∉ delimiters := by
  rcases h with hdigit | rfl | rfl | rfl | rfl | rfl
  · have hdelimiters : ∀ d ∈ delimiters, ¬IsDigit d := by decide
    exact fun hmem => hdelimiters c hmem hdigit
  all_goals decide

theorem inNumber_of_foldlM {text : List ℕ} {n n' : Numeral}
    (h : text.foldlM numberStep n = some n') : ∀ c ∈ text, InNumber c := by
  induction text generalizing n with
  | nil => exact fun c hc => absurd hc List.not_mem_nil
  | cons d text ih =>
    obtain ⟨mid, hmid, hrest⟩ := Option.bind_eq_some_iff.mp h
    exact List.forall_mem_cons.mpr ⟨inNumber_of_numberStep hmid, ih hrest⟩

theorem IsNumber.mem {text : List ℕ} (h : IsNumber text) : ∀ c ∈ text, InNumber c := by
  rw [IsNumber] at h
  cases hrun : text.foldlM numberStep .start with
  | none =>
    rw [hrun] at h
    cases h
  | some n => exact inNumber_of_foldlM hrun

theorem IsNumber.ne_nil {text : List ℕ} (h : IsNumber text) : text ≠ [] := by
  rintro rfl
  cases h

/-- What a number or a word is made of. -/
theorem notMem_delimiters_of_wordTexts :
    ∀ text ∈ wordTexts, ∀ c ∈ text, c ∉ delimiters ∧ 0x20 ≤ c := by
  decide

/-- The text goes on with a delimiter, if it goes on. -/
def Delimited (rest : List ℕ) : Prop := ∀ c ∈ rest.head?, c ∈ delimiters

/-- **A token is read** up to the delimiter behind it. -/
theorem readScalar_append {token rest : List ℕ} (htoken : ∀ c ∈ token, c ∉ delimiters)
    (hrest : Delimited rest) : readScalar (token ++ rest) =
      if token ∈ wordTexts then some (.word token, rest)
      else if IsNumber token then some (.number token, rest)
      else none := by
  have hall : ∀ c ∈ token, decide (c ∉ delimiters) = true := fun c hc =>
    decide_eq_true (htoken c hc)
  have hnil : rest.takeWhile (· ∉ delimiters) = [] := by
    cases rest with
    | nil => rfl
    | cons c rest => exact List.takeWhile_cons_of_neg (by simpa using hrest c rfl)
  have hself : rest.dropWhile (· ∉ delimiters) = rest := by
    cases rest with
    | nil => rfl
    | cons c rest => exact List.dropWhile_cons_of_neg (by simpa using hrest c rfl)
  rw [readScalar, List.takeWhile_append_of_pos hall, List.dropWhile_append_of_pos hall, hnil, hself,
    List.append_nil]

/-- What a scanner reads it reads up to the closing quote. -/
theorem readUnits_append {mode : Mode} {text units : List ℕ} (h : scan mode text = some units)
    (rest : List ℕ) : readUnits mode (text ++ rest) = some (units, rest) := by
  induction text generalizing mode units with
  | nil =>
    cases mode with
    | closed =>
      obtain rfl := Option.some.inj h
      rw [List.nil_append, readUnits]
    | start | inside | escaped | unicode => cases h
  | cons c text ih =>
    rw [scan_cons] at h
    obtain ⟨p, hstep, hrest⟩ := Option.bind_eq_some_iff.mp h
    obtain ⟨later, hlater, rfl⟩ := Option.map_eq_some_iff.mp hrest
    have hopen : mode ≠ .closed := by
      rintro rfl
      cases hstep
    rw [List.cons_append, readUnits.eq_def]
    cases mode with
    | closed => exact absurd rfl hopen
    | start | inside | escaped | unicode =>
      simp only [hstep, Option.bind_some, ih hlater, Option.map_some]

theorem Says.readString {body value : List ℕ} (h : Says body value) (rest : List ℕ) :
    Json.readString (body ++ '"'.toNat :: rest) = some (value, rest) := by
  obtain ⟨units, hscan, rfl⟩ := h
  have hread := readUnits_append hscan rest
  rw [List.append_assoc, List.singleton_append] at hread
  rw [Json.readString, hread, Option.map_some]

/-! ## What is spelled is read -/

/-- A value starts with a token of its own. -/
theorem Spells.head {v : Value} {text : List ℕ} (h : Spells v text) :
    ∃ c rest, text = c :: rest ∧ ¬IsSpace c ∧ c ≠ ']'.toNat ∧ c ≠ '\x7d'.toNat := by
  have hdelimiters : ∀ c, c ∉ delimiters → ¬IsSpace c ∧ c ≠ ']'.toNat ∧ c ≠ '\x7d'.toNat := by
    refine fun c hc => ⟨?_, ?_, ?_⟩
    · rintro (rfl | rfl | rfl | rfl) <;> exact hc (by decide)
    · rintro rfl
      exact hc (by decide)
    · rintro rfl
      exact hc (by decide)
  cases h with
  | string => exact ⟨_, _, rfl, by decide⟩
  | noItems | noMembers => exact ⟨_, _, rfl, by decide⟩
  | items | members => exact ⟨_, _, rfl, by decide⟩
  | number h =>
    obtain ⟨c, rest, rfl⟩ := List.exists_cons_of_ne_nil h.ne_nil
    exact ⟨c, rest, rfl, hdelimiters c (h.mem c List.mem_cons_self).notMem_delimiters⟩
  | word h =>
    have hne : text ≠ [] := by
      rintro rfl
      exact absurd h (by decide)
    obtain ⟨c, rest, rfl⟩ := List.exists_cons_of_ne_nil hne
    exact ⟨c, rest, rfl,
      hdelimiters c (notMem_delimiters_of_wordTexts _ h c List.mem_cons_self).1⟩

theorem SpellsItems.head {vs : List Value} {text : List ℕ} (h : SpellsItems vs text) :
    ∃ c rest, text = c :: rest ∧ ¬IsSpace c ∧ c ≠ ']'.toNat := by
  cases h with
  | last h | more h =>
    obtain ⟨c, rest, rfl, hspace, hclose, -⟩ := h.head
    exact ⟨c, _, List.cons_append, hspace, hclose⟩

theorem SpellsMembers.head {ms : List (List ℕ × Value)} {text : List ℕ}
    (h : SpellsMembers ms text) : ∃ rest, text = '"'.toNat :: rest := by
  cases h with
  | last | more => exact ⟨_, rfl⟩

theorem expect_quoted (body rest : List ℕ) :
    expect '"'.toNat (quoted body ++ rest) = some (body ++ '"'.toNat :: rest) := by
  rw [quoted, List.append_assoc, List.singleton_append, List.cons_append]
  exact expect_cons (by decide) _

theorem delimited_cons {c : ℕ} (hc : c ∈ delimiters) (rest : List ℕ) : Delimited (c :: rest) := by
  intro d hd
  obtain rfl := Option.some.inj hd
  exact hc

theorem readValue_quoted (fuel : ℕ) {body value : List ℕ} (h : Says body value) (rest : List ℕ) :
    readValue (fuel + 1) (quoted body ++ rest) = some (.string value, rest) := by
  simp only [readValue, expect_quoted, h.readString, Option.map_some]

/-- A number or a word is read as a token. -/
theorem readValue_token (fuel : ℕ) {token rest : List ℕ} (hne : token ≠ [])
    (htoken : ∀ c ∈ token, c ∉ delimiters) (hrest : Delimited rest) :
    readValue (fuel + 1) (token ++ rest) =
      if token ∈ wordTexts then some (.word token, rest)
      else if IsNumber token then some (.number token, rest)
      else none := by
  obtain ⟨c, tail, rfl⟩ := List.exists_cons_of_ne_nil hne
  have hc : c ∉ delimiters := htoken c List.mem_cons_self
  have hspace : ¬IsSpace c := by
    rintro (rfl | rfl | rfl | rfl) <;> exact hc (by decide)
  have hexpect : ∀ d ∈ delimiters, expect d (c :: tail ++ rest) = none := fun d hd =>
    expect_cons_ne hspace (fun heq => hc (heq ▸ hd)) _
  have hskip : skip (c :: tail ++ rest) = c :: tail ++ rest := skip_cons hspace _
  simp only [readValue, hexpect _ (show '"'.toNat ∈ delimiters by decide),
    hexpect _ (show '['.toNat ∈ delimiters by decide),
    hexpect _ (show '\x7b'.toNat ∈ delimiters by decide), hskip]
  exact readScalar_append htoken hrest

/-- A name, with what is behind its colon. -/
theorem readMembers_quoted (fuel : ℕ) {body name : List ℕ} (hname : Says body name)
    {text : List ℕ} {v : Value} {rest : List ℕ} (hread : readValue fuel text = some (v, rest)) :
    readMembers (fuel + 1) (quoted body ++ ':'.toNat :: text) =
      match expect ','.toNat rest with
      | some rest => (readMembers fuel rest).map fun q => ((name, v) :: q.1, q.2)
      | none => (expect '\x7d'.toNat rest).map fun rest => ([(name, v)], rest) := by
  have hcolon : expect ':'.toNat (':'.toNat :: text) = some text := expect_cons (by decide) _
  simp only [readMembers, expect_quoted, Option.bind_some, hname.readString, hcolon, hread]

mutual

/-- **A value that is spelled is read**, up to the delimiter behind it. -/
theorem Spells.read {v : Value} {text : List ℕ} (h : Spells v text) {fuel : ℕ}
    (hfuel : text.length ≤ fuel) {rest : List ℕ} (hrest : Delimited rest) :
    readValue fuel (text ++ rest) = some (v, rest) := by
  obtain ⟨c, tail, htext, -⟩ := h.head
  obtain ⟨fuel, rfl⟩ : ∃ f, fuel = f + 1 := by
    rw [htext, List.length_cons] at hfuel
    exact ⟨fuel - 1, by omega⟩
  cases h with
  | string h => exact readValue_quoted fuel h rest
  | number h =>
    rw [readValue_token fuel h.ne_nil (fun c hc => (h.mem c hc).notMem_delimiters) hrest, if_neg,
      if_pos h]
    intro hword
    have hnumbers : ∀ text ∈ wordTexts, ¬IsNumber text := by decide
    exact hnumbers text hword h
  | word h =>
    rw [readValue_token fuel (htext ▸ List.cons_ne_nil c tail)
      (fun c hc => (notMem_delimiters_of_wordTexts text h c hc).1) hrest, if_pos h]
  | noItems => rfl
  | items h =>
    have hread := h.read (Nat.le_of_succ_le_succ hfuel) rest
    obtain ⟨d, tail, rfl, hspace, hclose⟩ := h.head
    have hquote : expect '"'.toNat ('['.toNat :: (d :: tail) ++ rest) = none :=
      expect_cons_ne (by decide) (by decide) _
    have hopen : expect '['.toNat ('['.toNat :: (d :: tail) ++ rest) = some (d :: tail ++ rest) :=
      expect_cons (by decide) _
    have hnone : expect ']'.toNat (d :: tail ++ rest) = none := expect_cons_ne hspace hclose _
    simp only [readValue, hquote, hopen, hnone, hread, Option.map_some]
  | noMembers => rfl
  | members h =>
    have hread := h.read (Nat.le_of_succ_le_succ hfuel) rest
    obtain ⟨tail, rfl⟩ := h.head
    have hquote : expect '"'.toNat ('\x7b'.toNat :: ('"'.toNat :: tail) ++ rest) = none :=
      expect_cons_ne (by decide) (by decide) _
    have harray : expect '['.toNat ('\x7b'.toNat :: ('"'.toNat :: tail) ++ rest) = none :=
      expect_cons_ne (by decide) (by decide) _
    have hopen : expect '\x7b'.toNat ('\x7b'.toNat :: ('"'.toNat :: tail) ++ rest)
        = some ('"'.toNat :: tail ++ rest) := expect_cons (by decide) _
    have hnone : expect '\x7d'.toNat ('"'.toNat :: tail ++ rest) = none :=
      expect_cons_ne (by decide) (by decide) _
    simp only [readValue, hquote, harray, hopen, hnone, hread, Option.map_some]

/-- Items that are spelled are read, up to the bracket that closes their array. -/
theorem SpellsItems.read {vs : List Value} {text : List ℕ} (h : SpellsItems vs text) {fuel : ℕ}
    (hfuel : text.length ≤ fuel) (rest : List ℕ) :
    readItems fuel (text ++ rest) = some (vs, rest) := by
  obtain ⟨c, tail, htext, -⟩ := h.head
  obtain ⟨fuel, rfl⟩ : ∃ f, fuel = f + 1 := by
    rw [htext, List.length_cons] at hfuel
    exact ⟨fuel - 1, by omega⟩
  cases h with
  | @last item text h =>
    rw [List.length_append, List.length_singleton] at hfuel
    have hread := h.read (Nat.le_of_succ_le_succ hfuel)
      (delimited_cons (c := ']'.toNat) (by decide) rest)
    have hcomma : expect ','.toNat (']'.toNat :: rest) = none :=
      expect_cons_ne (by decide) (by decide) _
    have hclose : expect ']'.toNat (']'.toNat :: rest) = some rest := expect_cons (by decide) _
    rw [List.append_assoc, List.singleton_append]
    simp only [readItems, hread, Option.bind_some, hcomma, hclose, Option.map_some]
  | @more item items text texts h hs =>
    rw [List.length_append, List.length_cons] at hfuel
    have htext : text.length ≤ fuel := by omega
    have htexts : texts.length ≤ fuel := by omega
    have hread := h.read htext (delimited_cons (c := ','.toNat) (by decide) (texts ++ rest))
    have hlater := hs.read htexts rest
    have hcomma : expect ','.toNat (','.toNat :: (texts ++ rest)) = some (texts ++ rest) :=
      expect_cons (by decide) _
    rw [List.append_assoc, List.cons_append]
    simp only [readItems, hread, Option.bind_some, hcomma, hlater, Option.map_some]

/-- Members that are spelled are read, up to the brace that closes their object. -/
theorem SpellsMembers.read {ms : List (List ℕ × Value)} {text : List ℕ}
    (h : SpellsMembers ms text) {fuel : ℕ} (hfuel : text.length ≤ fuel) (rest : List ℕ) :
    readMembers fuel (text ++ rest) = some (ms, rest) := by
  obtain ⟨tail, htext⟩ := h.head
  obtain ⟨fuel, rfl⟩ : ∃ f, fuel = f + 1 := by
    rw [htext, List.length_cons] at hfuel
    exact ⟨fuel - 1, by omega⟩
  cases h with
  | @last body name v text hname h =>
    have hlen : text.length ≤ fuel := by
      simp only [List.length_append, List.length_cons] at hfuel
      omega
    have hread := h.read hlen (delimited_cons (c := '\x7d'.toNat) (by decide) rest)
    have hcomma : expect ','.toNat ('\x7d'.toNat :: rest) = none :=
      expect_cons_ne (by decide) (by decide) _
    have hclose : expect '\x7d'.toNat ('\x7d'.toNat :: rest) = some rest :=
      expect_cons (by decide) _
    simp only [List.append_assoc, List.cons_append, List.nil_append]
    rw [readMembers_quoted fuel hname hread]
    simp only [hcomma, hclose, Option.map_some]
  | @more body name v ms text texts hname h hs =>
    have hlen : text.length ≤ fuel ∧ texts.length ≤ fuel := by
      simp only [List.length_append, List.length_cons] at hfuel
      omega
    have hread := h.read hlen.1 (delimited_cons (c := ','.toNat) (by decide) (texts ++ rest))
    have hlater := hs.read hlen.2 rest
    have hcomma : expect ','.toNat (','.toNat :: (texts ++ rest)) = some (texts ++ rest) :=
      expect_cons (by decide) _
    simp only [List.append_assoc, List.cons_append]
    rw [readMembers_quoted fuel hname hread]
    simp only [hcomma, hlater, Option.map_some]

end

/-- **A text has the value it spells**, with white space behind it. -/
theorem read_of_spells {v : Value} {text space : List ℕ} (h : Spells v text)
    (hspace : ∀ c ∈ space, IsSpace c) : read (text ++ space) = some v := by
  have hdelimited : Delimited space := by
    intro c hc
    have hdelimiters : ∀ d, IsSpace d → d ∈ delimiters := by
      rintro d (rfl | rfl | rfl | rfl) <;> decide
    exact hdelimiters c (hspace c (List.mem_of_mem_head? hc))
  have hskip : skip space = [] := List.dropWhile_eq_nil_iff.mpr fun c hc =>
    decide_eq_true (hspace c hc)
  have hlen : text.length ≤ (text ++ space).length + 1 := by
    rw [List.length_append]
    omega
  rw [Json.read, h.read hlen hdelimited, Option.bind_some, if_pos hskip]

/-! ## What is read has no control characters -/

/-- From the text to what is left of it there is no control character but white space. -/
def Passes (text rest : List ℕ) : Prop :=
  ∃ used, text = used ++ rest ∧ ∀ c ∈ used, 0x20 ≤ c ∨ IsSpace c

theorem Passes.refl (text : List ℕ) : Passes text text :=
  ⟨[], rfl, fun _ hc => absurd hc List.not_mem_nil⟩

theorem Passes.trans {text mid rest : List ℕ} (h : Passes text mid) (h' : Passes mid rest) :
    Passes text rest := by
  obtain ⟨used, rfl, hused⟩ := h
  obtain ⟨later, rfl, hlater⟩ := h'
  exact ⟨used ++ later, (List.append_assoc _ _ _).symm, List.forall_mem_append.mpr ⟨hused, hlater⟩⟩

theorem passes_cons {c : ℕ} (hc : 0x20 ≤ c) (rest : List ℕ) : Passes (c :: rest) rest :=
  ⟨[c], rfl, fun _ hd => .inl (List.mem_singleton.mp hd ▸ hc)⟩

theorem passes_skip (text : List ℕ) : Passes text (skip text) :=
  ⟨text.takeWhile (IsSpace ·), (List.takeWhile_append_dropWhile).symm,
    fun _ hc => .inr (of_decide_eq_true
      (List.mem_takeWhile_imp (p := fun d => decide (IsSpace d)) hc))⟩

theorem passes_expect {c : ℕ} (hc : 0x20 ≤ c) {text rest : List ℕ} (h : expect c text = some rest) :
    Passes text rest := by
  rw [expect] at h
  split at h
  · cases h
  · rename_i d tail hskip
    split_ifs at h with hd
    obtain rfl := Option.some.inj h
    refine (passes_skip text).trans ?_
    rw [hskip]
    exact passes_cons (hd ▸ hc) tail

theorem passes_readUnits {mode : Mode} {text : List ℕ} {p : List ℕ × List ℕ}
    (h : readUnits mode text = some p) : Passes text p.2 := by
  induction text generalizing mode p with
  | nil =>
    cases mode with
    | closed =>
      rw [readUnits] at h
      obtain rfl := Option.some.inj h
      exact .refl []
    | start | inside | escaped | unicode => cases h
  | cons c text ih =>
    rw [readUnits.eq_def] at h
    cases mode with
    | closed =>
      obtain rfl := Option.some.inj h
      exact .refl _
    | start | inside | escaped | unicode =>
      obtain ⟨q, hstep, h⟩ := Option.bind_eq_some_iff.mp h
      obtain ⟨r, hread, rfl⟩ := Option.map_eq_some_iff.mp h
      exact (passes_cons (le_of_step hstep) text).trans (ih (p := r) hread)

theorem passes_readString {text : List ℕ} {p : List ℕ × List ℕ} (h : readString text = some p) :
    Passes text p.2 := by
  obtain ⟨q, hread, rfl⟩ := Option.map_eq_some_iff.mp h
  exact passes_readUnits (p := q) hread

theorem passes_readScalar {text : List ℕ} {p : Value × List ℕ} (h : readScalar text = some p) :
    Passes text p.2 := by
  rw [readScalar] at h
  split_ifs at h with hword hnumber
  · obtain rfl := Option.some.inj h
    exact ⟨_, List.takeWhile_append_dropWhile.symm, fun c hc =>
      .inl (notMem_delimiters_of_wordTexts _ hword c hc).2⟩
  · obtain rfl := Option.some.inj h
    exact ⟨_, List.takeWhile_append_dropWhile.symm, fun c hc =>
      .inl (Nat.le_trans (by decide) (hnumber.mem c hc).le)⟩

/-- The numbers of the value are numbers. -/
inductive Value.Numeric : Value → Prop where
  | string {text : List ℕ} : Numeric (.string text)
  | number {text : List ℕ} (h : IsNumber text) : Numeric (.number text)
  | word {text : List ℕ} : Numeric (.word text)
  | array {items : List Value} (h : ∀ item ∈ items, Numeric item) : Numeric (.array items)
  | object {members : List (List ℕ × Value)} (h : ∀ m ∈ members, Numeric m.2) :
      Numeric (.object members)

theorem readScalar_numeric {text : List ℕ} {p : Value × List ℕ} (h : readScalar text = some p) :
    p.1.Numeric := by
  rw [readScalar] at h
  split_ifs at h with hword hnumber
  · obtain rfl := Option.some.inj h
    exact .word
  · obtain rfl := Option.some.inj h
    exact .number hnumber

/-- **Reading passes no control character**, and takes for a number nothing but numbers; by
induction on the calls. -/
theorem passes_read (fuel : ℕ) :
    (∀ text p, readValue fuel text = some p → Passes text p.2 ∧ p.1.Numeric) ∧
    (∀ text p, readItems fuel text = some p → Passes text p.2 ∧ ∀ item ∈ p.1, item.Numeric) ∧
    ∀ text p, readMembers fuel text = some p → Passes text p.2 ∧ ∀ m ∈ p.1, m.2.Numeric := by
  induction fuel with
  | zero => exact ⟨fun _ _ h => absurd h (by simp [readValue]),
      fun _ _ h => absurd h (by simp [readItems]), fun _ _ h => absurd h (by simp [readMembers])⟩
  | succ fuel ih =>
    obtain ⟨hvalue, hitems, hmembers⟩ := ih
    refine ⟨fun text p h => ?_, fun text p h => ?_, fun text p h => ?_⟩
    · rw [readValue] at h
      split at h
      · rename_i rest hquote
        obtain ⟨q, hq, rfl⟩ := Option.map_eq_some_iff.mp h
        exact ⟨(passes_expect (by decide) hquote).trans (passes_readString hq), .string⟩
      split at h
      · rename_i rest hopen
        have hopen := passes_expect (by decide) hopen
        split at h
        · rename_i last hclose
          obtain rfl := Option.some.inj h
          exact ⟨hopen.trans (passes_expect (by decide) hclose),
            .array fun item hitem => absurd hitem List.not_mem_nil⟩
        · obtain ⟨q, hq, rfl⟩ := Option.map_eq_some_iff.mp h
          obtain ⟨hpasses, hnumeric⟩ := hitems rest q hq
          exact ⟨hopen.trans hpasses, .array hnumeric⟩
      split at h
      · rename_i rest hopen
        have hopen := passes_expect (by decide) hopen
        split at h
        · rename_i last hclose
          obtain rfl := Option.some.inj h
          exact ⟨hopen.trans (passes_expect (by decide) hclose),
            .object fun m hm => absurd hm List.not_mem_nil⟩
        · obtain ⟨q, hq, rfl⟩ := Option.map_eq_some_iff.mp h
          obtain ⟨hpasses, hnumeric⟩ := hmembers rest q hq
          exact ⟨hopen.trans hpasses, .object hnumeric⟩
      · exact ⟨(passes_skip text).trans (passes_readScalar h), readScalar_numeric h⟩
    · rw [readItems] at h
      obtain ⟨q, hq, h⟩ := Option.bind_eq_some_iff.mp h
      obtain ⟨hfirst, hnumeric⟩ := hvalue text q hq
      split at h
      · rename_i rest hcomma
        obtain ⟨r, hr, rfl⟩ := Option.map_eq_some_iff.mp h
        obtain ⟨hpasses, hlater⟩ := hitems rest r hr
        exact ⟨(hfirst.trans (passes_expect (by decide) hcomma)).trans hpasses,
          List.forall_mem_cons.mpr ⟨hnumeric, hlater⟩⟩
      · obtain ⟨rest, hclose, rfl⟩ := Option.map_eq_some_iff.mp h
        exact ⟨hfirst.trans (passes_expect (by decide) hclose),
          fun item hitem => List.mem_singleton.mp hitem ▸ hnumeric⟩
    · rw [readMembers] at h
      obtain ⟨name, hname, h⟩ := Option.bind_eq_some_iff.mp h
      obtain ⟨body, hquote, hname⟩ := Option.bind_eq_some_iff.mp hname
      obtain ⟨q, hq, h⟩ := Option.bind_eq_some_iff.mp h
      obtain ⟨behind, hcolon, hq⟩ := Option.bind_eq_some_iff.mp hq
      obtain ⟨hbehind, hnumeric⟩ := hvalue behind q hq
      have hfirst := (((passes_expect (by decide) hquote).trans (passes_readString hname)).trans
        (passes_expect (by decide) hcolon)).trans hbehind
      split at h
      · rename_i rest hcomma
        obtain ⟨r, hr, rfl⟩ := Option.map_eq_some_iff.mp h
        obtain ⟨hpasses, hlater⟩ := hmembers rest r hr
        exact ⟨(hfirst.trans (passes_expect (by decide) hcomma)).trans hpasses,
          List.forall_mem_cons.mpr ⟨hnumeric, hlater⟩⟩
      · obtain ⟨rest, hclose, rfl⟩ := Option.map_eq_some_iff.mp h
        exact ⟨hfirst.trans (passes_expect (by decide) hclose),
          fun m hm => List.mem_singleton.mp hm ▸ hnumeric⟩

/-- **No text that has a value has a control character in it**, but for white space. -/
theorem le_or_isSpace_of_read {text : List ℕ} {v : Value} (h : read text = some v) :
    ∀ c ∈ text, 0x20 ≤ c ∨ IsSpace c := by
  obtain ⟨p, hread, hend⟩ := Option.bind_eq_some_iff.mp h
  split_ifs at hend with hskip
  obtain ⟨used, hused, hall⟩ := ((passes_read _).1 text p hread).1.trans (passes_skip p.2)
  rw [hskip, List.append_nil] at hused
  rwa [hused]

/-- **What is read as a number** is one. -/
theorem numeric_of_read {text : List ℕ} {v : Value} (h : read text = some v) : v.Numeric := by
  obtain ⟨p, hread, hend⟩ := Option.bind_eq_some_iff.mp h
  split_ifs at hend with hskip
  exact Option.some.inj hend ▸ ((passes_read _).1 text p hread).2

end Json
