import Mathlib.Data.List.Basic
import Mathlib.Data.List.Infix
import Mathlib.Data.List.TakeWhile
import Mathlib.Tactic.Common
import Passgen.Cli.Generate
import Passgen.Memory.Block

/-!
# Cli/Config — the configuration file

    file ──fread──▸ config[10240] ──0──▸ data  p r e s e t ␣ a : b ↵ # c ↵ 0
                                               └ handler: "a:b"

The parser goes through the text character by character, and compares a keyword wherever it stands.
A comment and a directive leave it at the end of their line, and the loop steps over that: over the
terminator, where it ends the text.
-/

namespace Passgen

/-! ## Keywords -/

/-- The handlers, by the keyword they are called for. -/
inductive ConfigKeyword where
  | random
  | wordlist
  | preset
  deriving DecidableEq, Repr

/-- The keyword, as it is written. -/
def ConfigKeyword.text : ConfigKeyword → List UInt8
  | .random => ascii "random"
  | .wordlist => ascii "wordlist"
  | .preset => ascii "preset"

/-- A call of a handler: with the string it is given. -/
abbrev ConfigCall : Type := ConfigKeyword × List UInt8

abbrev newline : UInt8 := 10

abbrev hash : UInt8 := 35

/-- A blank. -/
def isBlank (c : UInt8) : Bool := c = 32 || c = 9

/-! ## The parser

A position in the text is what is left of it from there, with its terminator.  An access behind the
terminator is `none`. -/

/-- `strprefix`, which compares as many bytes as the keyword has. -/
def strprefix (keyword : ConfigKeyword) (data : List UInt8) : Option Bool :=
  if keyword.text.length ≤ data.length then some (keyword.text.isPrefixOf data) else none

/-- `while(data[pos] && …) pos++`. -/
def skipWhile (p : UInt8 → Bool) : List UInt8 → Option (List UInt8)
  | [] => none
  | c :: data => if c ≠ 0 ∧ p c then skipWhile p data else some (c :: data)

/-- A directive of `passgen_cli_opts_config_parse`: the call, and where it leaves the loop. -/
def configDirective (keyword : ConfigKeyword) (data : List UInt8) :
    Option (List ConfigCall × List UInt8) := do
  let data ← skipWhile isBlank (data.drop keyword.text.length)
  let rest ← skipWhile (· ≠ newline) data
  let length := data.length - rest.length
  let data := data.set length 0
  pure ([(keyword, cString data)], data.drop length)

/-- A round of the loop of `passgen_cli_opts_config_parse`: the calls, and where it is left. -/
def configRound (data : List UInt8) : Option (List ConfigCall × List UInt8) := do
  if data.head? = some hash then
    let rest ← skipWhile (· ≠ newline) data
    pure ([], rest)
  else if data.head? = some newline then
    pure ([], data)
  else if ← strprefix .random data then configDirective .random data
  else if ← strprefix .wordlist data then configDirective .wordlist data
  else if ← strprefix .preset data then configDirective .preset data
  else pure ([], data)

theorem length_skipWhile {p : UInt8 → Bool} {data rest : List UInt8}
    (h : skipWhile p data = some rest) : rest.length ≤ data.length := by
  induction data with
  | nil => exact absurd h (by simp [skipWhile])
  | cons c data ih =>
    rw [skipWhile] at h
    split at h
    · exact (ih h).trans (Nat.le_succ _)
    · rw [← Option.some.inj h]

theorem length_configDirective {keyword : ConfigKeyword} {data : List UInt8}
    {r : List ConfigCall × List UInt8} (h : configDirective keyword data = some r) :
    r.2.length ≤ data.length := by
  simp only [configDirective, Option.bind_eq_bind, Option.bind_eq_some_iff] at h
  obtain ⟨blanks, hblanks, rest, -, hr⟩ := h
  obtain rfl := Option.some.inj hr
  have hle := length_skipWhile hblanks
  simp only [List.length_drop, List.length_set] at hle ⊢
  omega

theorem length_configRound {data : List UInt8} {r : List ConfigCall × List UInt8}
    (h : configRound data = some r) : r.2.length ≤ data.length := by
  rw [configRound] at h
  split at h
  · obtain ⟨rest, hrest, hr⟩ := Option.bind_eq_some_iff.mp h
    obtain rfl := Option.some.inj hr
    exact length_skipWhile hrest
  split at h
  · obtain rfl := Option.some.inj h
    exact le_rfl
  simp only [Option.bind_eq_bind, Option.bind_eq_some_iff] at h
  obtain ⟨random, -, h⟩ := h
  split at h
  · exact length_configDirective h
  simp only [Option.bind_eq_some_iff] at h
  obtain ⟨wordlist, -, h⟩ := h
  split at h
  · exact length_configDirective h
  simp only [Option.bind_eq_some_iff] at h
  obtain ⟨preset, -, h⟩ := h
  split at h
  · exact length_configDirective h
  · obtain rfl := Option.some.inj h
    exact le_rfl

/-- `passgen_cli_opts_config_parse`: the calls of the handlers. -/
def configParse : List UInt8 → Option (List ConfigCall)
  | [] => none
  | c :: data =>
    if c = 0 then some []
    else
      match _h : configRound (c :: data) with
      | none => none
      | some r => (configParse (r.2.drop 1)).map (r.1 ++ ·)
  termination_by data => data.length
  decreasing_by
    have hle := length_configRound _h
    simp only [List.length_drop, List.length_cons] at hle ⊢
    omega

/-! ## Loading -/

/-- `passgen_cli_opts_config_load`, up to the call of the parser: the buffer it is given.  `junk` is
what is in memory before. -/
def configLoad (junk : ℕ → UInt8) (content : List UInt8) : Option (Memory.Block UInt8) := do
  let config : Memory.Block UInt8 := ⟨10240, junk⟩
  let read := content.take 10240
  let config ← config.storeAll 0 read
  config.storeAll read.length [0]

/-! ## Directives -/

/-- The keyword that a line starts with. -/
def keywordAt (line : List UInt8) : Option ConfigKeyword :=
  [.random, .wordlist, .preset].find? fun keyword => keyword.text.isPrefixOf line

/-- The call that a line with this keyword in front stands for. -/
def callOf (line : List UInt8) (keyword : ConfigKeyword) : ConfigCall :=
  (keyword, (line.drop keyword.text.length).dropWhile isBlank)

/-! ## The characters of a line -/

section Line

variable {keyword : ConfigKeyword} {line args data rest : List UInt8} {c e : UInt8}

theorem mem_text (keyword : ConfigKeyword) :
    newline ∉ keyword.text ∧ hash ∉ keyword.text ∧ 0 ∉ keyword.text ∧
      keyword.text.head?.all (! isBlank ·) ∧ 6 ≤ keyword.text.length := by
  cases keyword <;> decide

theorem keywordAt_eq_some (h : keywordAt line = some keyword) : keyword.text <+: line :=
  List.isPrefixOf_iff_prefix.mp
    (List.find?_some (p := fun keyword : ConfigKeyword => keyword.text.isPrefixOf line) h)

theorem keywordAt_eq_none : keywordAt line = none ↔ ∀ keyword : ConfigKeyword,
    ¬ keyword.text <+: line := by
  rw [keywordAt, List.find?_eq_none]
  refine ⟨fun h keyword hkeyword => h keyword ?_ (List.isPrefixOf_iff_prefix.mpr hkeyword),
    fun h keyword _ hkeyword => h keyword (List.isPrefixOf_iff_prefix.mp hkeyword)⟩
  cases keyword <;> decide

/-- **A loop of the parser** stops where the condition fails, or at the terminator. -/
theorem skipWhile_append {p : UInt8 → Bool} (hline : 0 ∉ line) (he : e = 0 ∨ ¬ p e) :
    skipWhile p (line ++ e :: rest) = some (line.dropWhile p ++ e :: rest) := by
  induction line with
  | nil =>
    have hstop : ¬ (e ≠ 0 ∧ p e) := fun h => he.elim h.1 (· h.2)
    exact if_neg hstop
  | cons c line ih =>
    rw [List.mem_cons, not_or] at hline
    rw [List.cons_append, skipWhile]
    by_cases hp : p c
    · rw [if_pos ⟨Ne.symm hline.1, hp⟩, ih hline.2, List.dropWhile_cons_of_pos hp]
    · rw [if_neg (fun h => hp h.2), List.dropWhile_cons_of_neg hp]
      rfl

/-- **A directive** is called with what is left of its line, and leaves the loop at its end. -/
theorem configDirective_append (hzero : 0 ∉ args) (hnewline : newline ∉ args)
    (he : e = newline ∨ e = 0) :
    configDirective keyword (keyword.text ++ args ++ e :: rest)
      = some ([(keyword, args.dropWhile isBlank)], 0 :: rest) := by
  have hmem : ∀ c ∈ args.dropWhile isBlank, c ∈ args := fun c hc =>
    (List.dropWhile_suffix isBlank).mem hc
  have hblank : e = 0 ∨ ¬ isBlank e := he.symm.imp_right (by rintro rfl; decide)
  have heol : e = 0 ∨ ¬ decide (e ≠ newline) := he.symm.imp_right fun h => by simp [h]
  have hline : (args.dropWhile isBlank).dropWhile (· ≠ newline) = [] := by
    rw [List.dropWhile_eq_nil_iff]
    exact fun c hc => decide_eq_true fun h => hnewline (h ▸ hmem c hc)
  have hlength : (args.dropWhile isBlank ++ e :: rest).length - (e :: rest).length
      = (args.dropWhile isBlank).length := by
    rw [List.length_append, Nat.add_sub_cancel]
  rw [configDirective, List.append_assoc, List.drop_left, skipWhile_append hzero hblank]
  dsimp only [Option.bind_eq_bind, Option.bind_some]
  rw [skipWhile_append (fun h => hzero (hmem 0 h)) heol, hline, List.nil_append]
  dsimp only [Option.bind_some]
  rw [hlength, List.set_append_right _ _ le_rfl, Nat.sub_self, List.set_cons_zero, List.drop_left,
    cString_append_zero, cString_eq_self (fun h => hzero (hmem 0 h))]
  rfl

/-- What has no `e` in it does not reach over one. -/
theorem prefix_append_cons_iff {w : List UInt8} (he : e ∉ w) :
    w <+: line ++ e :: rest ↔ w <+: line := by
  refine ⟨fun h => ?_, fun h => h.trans (List.prefix_append _ _)⟩
  rcases List.prefix_or_prefix_of_prefix h (List.prefix_append line (e :: rest)) with hw | ⟨t, rfl⟩
  · exact hw
  · rw [List.prefix_append_right_inj, List.prefix_cons_iff] at h
    rcases h with rfl | ⟨t, rfl, -⟩
    · rw [List.append_nil]
    · exact absurd (List.mem_append_right line List.mem_cons_self) he

theorem text_end (keyword : ConfigKeyword) (he : e = newline ∨ e = 0) : e ∉ keyword.text := by
  obtain ⟨hnewline, -, hzero, -⟩ := mem_text keyword
  rcases he with rfl | rfl
  · exact hnewline
  · exact hzero

/-- **A comparison** in a line, which reads as many bytes as the keyword has. -/
theorem strprefix_append (keyword : ConfigKeyword) (he : e = newline ∨ e = 0)
    (h : keyword.text.length ≤ (line ++ e :: rest).length) :
    strprefix keyword (line ++ e :: rest) = some (keyword.text.isPrefixOf line) := by
  have hstart : keyword.text.isPrefixOf (line ++ e :: rest) = keyword.text.isPrefixOf line := by
    rw [Bool.eq_iff_iff, List.isPrefixOf_iff_prefix, List.isPrefixOf_iff_prefix,
      prefix_append_cons_iff (text_end keyword he)]
  unfold strprefix
  rw [hstart, if_pos h]

theorem strprefix_short (keyword : ConfigKeyword) (h : data.length < keyword.text.length) :
    strprefix keyword data = none := if_neg (Nat.not_le_of_lt h)

theorem head?_of_keyword (h : keyword.text <+: line) : line.head? = keyword.text.head? := by
  obtain ⟨t, rfl⟩ := h
  cases keyword <;> rfl

/-- Keywords start with different letters. -/
theorem keyword_unique {keyword' : ConfigKeyword} (h : keyword.text <+: line)
    (h' : keyword'.text <+: line) : keyword = keyword' := by
  have hhead := (head?_of_keyword h).symm.trans (head?_of_keyword h')
  revert hhead
  cases keyword <;> cases keyword' <;> decide

/-- **A round at a comment.** -/
theorem configRound_hash (hzero : 0 ∉ line) (hnewline : newline ∉ line) (he : e = newline ∨ e = 0) :
    configRound (hash :: line ++ e :: rest) = some ([], e :: rest) := by
  have heol : e = 0 ∨ ¬ decide (e ≠ newline) := he.symm.imp_right fun h => by simp [h]
  have hline : (hash :: line).dropWhile (· ≠ newline) = [] := by
    rw [List.dropWhile_eq_nil_iff]
    intro c hc
    rcases List.mem_cons.mp hc with rfl | hc
    · decide
    · exact decide_eq_true fun h => hnewline (h ▸ hc)
  have hskip : skipWhile (· ≠ newline) (hash :: line ++ e :: rest) =
      some ((hash :: line).dropWhile (· ≠ newline) ++ e :: rest) := skipWhile_append
    (List.not_mem_cons_of_ne_of_not_mem (by decide : (0 : UInt8) ≠ hash) hzero) heol
  have hhead : (hash :: line ++ e :: rest).head? = some hash := rfl
  rw [configRound, if_pos hhead, hskip, hline]
  rfl

/-- What follows a keyword at the start of a line. -/
theorem configDirective_of_start (hzero : 0 ∉ line) (hnewline : newline ∉ line)
    (he : e = newline ∨ e = 0) (h : keyword.text <+: line) :
    configDirective keyword (line ++ e :: rest) = some ([callOf line keyword], 0 :: rest) := by
  obtain ⟨args, rfl⟩ := h
  rw [configDirective_append (fun h => hzero (List.mem_append_right _ h))
    (fun h => hnewline (List.mem_append_right _ h)) he, callOf, List.drop_left]

/-- **A round at a keyword** is a directive. -/
theorem configRound_keyword (hzero : 0 ∉ line) (hnewline : newline ∉ line)
    (he : e = newline ∨ e = 0) (hkeyword : keywordAt line = some keyword) :
    configRound (line ++ e :: rest) =
      if keyword = .random ∨ 8 ≤ (line ++ e :: rest).length then
        some ([callOf line keyword], 0 :: rest)
      else none := by
  have hstart := keywordAt_eq_some hkeyword
  have hother : ∀ keyword', keyword' ≠ keyword → keyword'.text.isPrefixOf line = false := by
    intro keyword' hne
    rw [Bool.eq_false_iff]
    exact fun h => hne (keyword_unique (List.isPrefixOf_iff_prefix.mp h) hstart)
  have hself : keyword.text.isPrefixOf line = true := List.isPrefixOf_iff_prefix.mpr hstart
  have hlength : keyword.text.length ≤ (line ++ e :: rest).length :=
    (hstart.trans (List.prefix_append _ _)).length_le
  have hdirective : configDirective keyword (line ++ e :: rest)
      = some ([callOf line keyword], 0 :: rest) := configDirective_of_start hzero hnewline he hstart
  have hhead : (line ++ e :: rest).head? = keyword.text.head? :=
    head?_of_keyword (hstart.trans (List.prefix_append _ _))
  have hrandom : ConfigKeyword.random.text.length ≤ (line ++ e :: rest).length :=
    Nat.le_trans (mem_text keyword).2.2.2.2 hlength
  rw [configRound, hhead, strprefix_append .random he hrandom]
  cases keyword with
  | random =>
    rw [if_neg (by decide), if_neg (by decide), hself, if_pos (Or.inl rfl)]
    exact hdirective
  | wordlist =>
    have hlong : 8 ≤ (line ++ e :: rest).length := hlength
    rw [if_neg (by decide), if_neg (by decide), hother .random (by decide),
      strprefix_append .wordlist he hlong, hself, if_pos (Or.inr hlong)]
    exact hdirective
  | preset =>
    rw [if_neg (by decide), if_neg (by decide), hother .random (by decide)]
    by_cases hlong : 8 ≤ (line ++ e :: rest).length
    · rw [strprefix_append .wordlist he hlong, hother .wordlist (by decide),
        strprefix_append .preset he hlength, hself, if_pos (Or.inr hlong)]
      exact hdirective
    · rw [strprefix_short .wordlist (Nat.lt_of_not_le hlong),
        if_neg (not_or.mpr ⟨by decide, hlong⟩)]
      rfl

/-- A round at another character. -/
theorem configRound_other (hc : c ≠ hash) (hc' : c ≠ newline) (he : e = newline ∨ e = 0)
    (hkeyword : keywordAt (c :: line) = none) :
    configRound (c :: line ++ e :: rest) =
      if 8 ≤ (c :: line ++ e :: rest).length then some ([], c :: line ++ e :: rest) else none := by
  have hfalse : ∀ keyword : ConfigKeyword, keyword.text.isPrefixOf (c :: line) = false := by
    intro keyword
    rw [Bool.eq_false_iff]
    exact fun h => keywordAt_eq_none.mp hkeyword keyword (List.isPrefixOf_iff_prefix.mp h)
  have hhash : (c :: line ++ e :: rest).head? ≠ some hash := fun h => hc (Option.some.inj h)
  have hline : (c :: line ++ e :: rest).head? ≠ some newline := fun h => hc' (Option.some.inj h)
  rw [configRound, if_neg hhash, if_neg hline]
  by_cases hlong : 8 ≤ (c :: line ++ e :: rest).length
  · have hshort : 6 ≤ (c :: line ++ e :: rest).length := Nat.le_trans (by decide) hlong
    rw [if_pos hlong, strprefix_append .random he hshort,
      strprefix_append .wordlist he hlong,
      strprefix_append .preset he hshort, hfalse, hfalse, hfalse]
    rfl
  · rw [if_neg hlong, strprefix_short .wordlist (Nat.lt_of_not_le hlong)]
    by_cases hshort : 6 ≤ (c :: line ++ e :: rest).length
    · rw [strprefix_append .random he hshort, hfalse]
      rfl
    · rw [strprefix_short .random (Nat.lt_of_not_le hshort)]
      rfl

end Line

end Passgen
