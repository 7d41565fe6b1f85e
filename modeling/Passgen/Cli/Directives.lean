import Mathlib.Data.List.Basic
import Mathlib.Data.List.Infix
import Mathlib.Data.List.TakeWhile
import Mathlib.Tactic.Common
import Passgen.Cli.Config

/-!
# Cli/Directives — the lines of a configuration file

    lines   ␣preset a:b     handler        # comment     nothing
            a preset b      handler, too   a             read to the end, and over it

A line stands for a call if it starts with a keyword, after blanks if there are any.  The parser
makes the calls of a text, and stays inside it, exactly when the text ends in a newline and all of
its lines do no harm (`config_iff`).
-/

namespace Passgen

/-! ## What is meant -/

/-- The call that a line stands for: its keyword, after blanks if there are any, and what comes
after the keyword and blanks. -/
def lineDirective (line : List UInt8) : Option ConfigCall :=
  let line := line.dropWhile isBlank
  (keywordAt line).map (callOf line)

/-- The calls that a text stands for. -/
def configDirectives (text : List UInt8) : List ConfigCall :=
  (text.splitOn newline).filterMap lineDirective

/-- A line without its comment. -/
def uncommented (line : List UInt8) : List UInt8 := line.takeWhile (· ≠ hash)

/-- **A line that does no harm**, with `behind` bytes of text behind its newline.  It starts with a
keyword; or it has none before its comment, and after this part, if there is any, come five bytes or
more, not counting the newline. -/
def TidyLine (line : List UInt8) (behind : ℕ) : Prop :=
  (lineDirective line).isSome ∨ (∀ keyword : ConfigKeyword, ¬ keyword.text <:+: uncommented line) ∧
    (uncommented line = [] ∨ 5 ≤ line.length - (uncommented line).length + behind)

/-- **Lines that do no harm**, the last of which is empty: the text ends in a newline. -/
def TidyLines : List (List UInt8) → Prop
  | [] => True
  | [last] => last = []
  | line :: next :: lines =>
    TidyLine line ([newline].intercalate (next :: lines)).length ∧ TidyLines (next :: lines)

/-! ## A line -/

section Line

variable {line rest after : List UInt8} {c e : UInt8} {behind : ℕ}

/-- The rounds over a line, with `behind` bytes from its end on: the calls. -/
def scanLine (behind : ℕ) : List UInt8 → Option (List ConfigCall)
  | [] => some []
  | c :: line =>
    if c = hash then some []
    else
      match keywordAt (c :: line) with
      | some keyword => some [callOf (c :: line) keyword]
      | none => if 8 ≤ (c :: line).length + behind then scanLine behind line else none

theorem configParse_of_round {data : List UInt8} (hc : c ≠ 0) :
    configParse (c :: data) =
      (configRound (c :: data)).bind fun r => (configParse (r.2.drop 1)).map (r.1 ++ ·) := by
  rw [configParse, if_neg hc]
  split <;> rename_i h <;> rw [h]
  · rfl
  · rfl

/-- A round without a call. -/
theorem configParse_of_quiet {data : List UInt8} (hc : c ≠ 0)
    (h : configRound (c :: data) = some ([], e :: rest)) :
    configParse (c :: data) = configParse rest := by
  rw [configParse_of_round hc, h]
  exact Option.map_id'

/-- **The rounds over a line**, up to its newline. -/
theorem configParse_line (hzero : 0 ∉ line) (hnewline : newline ∉ line) (hrest : rest ≠ []) :
    configParse (line ++ newline :: rest) =
      (scanLine (rest.length + 1) line).bind fun calls => (configParse rest).map (calls ++ ·) := by
  induction line with
  | nil =>
    have hround : configRound (newline :: rest) = some ([], newline :: rest) := rfl
    rw [List.nil_append, configParse_of_quiet (by decide) hround]
    exact Option.map_id'.symm
  | cons c line ih =>
    obtain ⟨hc, hzero'⟩ := not_or.mp (mt List.mem_cons.mpr hzero)
    obtain ⟨hc', hnewline'⟩ := not_or.mp (mt List.mem_cons.mpr hnewline)
    rw [scanLine]
    by_cases hhash : c = hash
    · subst hhash
      have hround : configRound (hash :: line ++ newline :: rest) = some ([], newline :: rest) :=
        configRound_hash hzero' hnewline' (.inl rfl)
      rw [List.cons_append] at hround
      rw [if_pos rfl, List.cons_append, configParse_of_quiet (by decide) hround]
      exact Option.map_id'.symm
    rw [if_neg hhash, List.cons_append, configParse_of_round (Ne.symm hc), ← List.cons_append]
    cases hkeyword : keywordAt (c :: line) with
    | some keyword =>
      have hlong : 8 ≤ (c :: line ++ newline :: rest).length := by
        have hkeyword' := (keywordAt_eq_some hkeyword).length_le
        have htext := (mem_text keyword).2.2.2.2
        have hpos := List.length_pos_iff.mpr hrest
        have hlength : (newline :: rest).length = rest.length + 1 := List.length_cons
        rw [List.length_append, hlength]
        omega
      rw [configRound_keyword hzero hnewline (.inl rfl) hkeyword, if_pos (Or.inr hlong)]
      rfl
    | none =>
      have hlength : (c :: line ++ newline :: rest).length =
          (c :: line).length + (rest.length + 1) := List.length_append
      rw [configRound_other hhash (Ne.symm hc') (.inl rfl) hkeyword, hlength]
      split
      · exact Option.map_id'.trans (ih hzero' hnewline')
      · rfl

/-- **A last line without a newline** is read over its end. -/
theorem configParse_last (hzero : 0 ∉ line) (hnewline : newline ∉ line) (hline : line ≠ []) :
    configParse (line ++ [0]) = none := by
  have hover : configParse [] = none := by rw [configParse]
  induction line with
  | nil => exact absurd rfl hline
  | cons c line ih =>
    obtain ⟨hc, hzero'⟩ := not_or.mp (mt List.mem_cons.mpr hzero)
    obtain ⟨hc', hnewline'⟩ := not_or.mp (mt List.mem_cons.mpr hnewline)
    rw [List.cons_append, configParse_of_round (Ne.symm hc), ← List.cons_append]
    by_cases hhash : c = hash
    · subst hhash
      rw [configRound_hash hzero' hnewline' (.inr rfl)]
      exact congrArg (Option.map _) hover
    cases hkeyword : keywordAt (c :: line) with
    | some keyword =>
      rw [configRound_keyword hzero hnewline (.inr rfl) hkeyword]
      split
      · exact congrArg (Option.map _) hover
      · rfl
    | none =>
      rw [configRound_other hhash (Ne.symm hc') (.inr rfl) hkeyword]
      split
      · rename_i hlong
        have hnext : line ≠ [] := by
          rintro rfl
          exact absurd hlong (by simp)
        exact congrArg (Option.map _) (ih hzero' hnewline' hnext)
      · rfl

/-! ## Lines that do no harm -/

/-- A keyword starts with no blank. -/
theorem keywordAt_blank (hc : isBlank c) : keywordAt (c :: line) = none := by
  rw [keywordAt_eq_none]
  intro keyword h
  have hhead := head?_of_keyword h
  have hblank := (mem_text keyword).2.2.2.1
  rw [← hhead, List.head?_cons, Option.all_some, hc] at hblank
  exact absurd hblank (by decide)

theorem keywordAt_nil : keywordAt [] = none := rfl

/-- **A directive** is found behind the blanks in front of it. -/
theorem scanLine_directive {call : ConfigCall} (hbehind : 2 ≤ behind)
    (h : lineDirective line = some call) : scanLine behind line = some [call] := by
  obtain ⟨keyword, hkeyword, rfl⟩ := Option.map_eq_some_iff.mp h
  clear h
  induction line with
  | nil => exact absurd (keywordAt_nil.symm.trans hkeyword) (by simp)
  | cons c line ih =>
    by_cases hc : isBlank c
    · rw [List.dropWhile_cons_of_pos hc] at hkeyword ⊢
      have hlength := (keywordAt_eq_some hkeyword).length_le
      have hsuffix := (List.dropWhile_suffix (l := line) isBlank).length_le
      have htext := (mem_text keyword).2.2.2.2
      rw [scanLine, if_neg (by rintro rfl; exact absurd hc (by decide)), keywordAt_blank hc,
        if_pos (by rw [List.length_cons]; omega)]
      exact ih hkeyword
    · rw [List.dropWhile_cons_of_neg hc] at hkeyword ⊢
      have hhash : c ≠ hash := by
        rintro rfl
        have hhead := head?_of_keyword (keywordAt_eq_some hkeyword)
        exact (mem_text keyword).2.1 (List.mem_of_head? hhead.symm)
      rw [scanLine, if_neg hhash, hkeyword]

/-- A keyword does not reach into a comment. -/
theorem prefix_uncommented_iff (keyword : ConfigKeyword) :
    keyword.text <+: line ↔ keyword.text <+: uncommented line := by
  have hsplit : uncommented line ++ line.dropWhile (· ≠ hash) = line :=
    List.takeWhile_append_dropWhile
  cases hrest : line.dropWhile (· ≠ hash) with
  | nil =>
    rw [hrest, List.append_nil] at hsplit
    rw [hsplit]
  | cons d rest =>
    have hd : d = hash := by
      have hhead := List.head?_dropWhile_not (fun x : UInt8 => decide (x ≠ hash)) line
      rw [hrest] at hhead
      simpa using hhead
    have hiff : keyword.text <+: uncommented line ++ hash :: rest ↔
        keyword.text <+: uncommented line := prefix_append_cons_iff (mem_text keyword).2.1
    rw [hrest, hd] at hsplit
    rwa [hsplit] at hiff

theorem uncommented_hash : uncommented (hash :: line) = [] := List.takeWhile_cons_of_neg (by simp)

theorem uncommented_cons (h : c ≠ hash) : uncommented (c :: line) = c :: uncommented line :=
  List.takeWhile_cons_of_pos (by simpa using h)

/-- A keyword that does not start here is further on. -/
theorem infix_uncommented_cons_iff (hhash : c ≠ hash) (hnone : keywordAt (c :: line) = none)
    (keyword : ConfigKeyword) :
    keyword.text <:+: c :: uncommented line ↔ keyword.text <:+: uncommented line := by
  have hstart : ¬ keyword.text <+: c :: uncommented line := by
    rw [← uncommented_cons hhash, ← prefix_uncommented_iff]
    exact keywordAt_eq_none.mp hnone keyword
  rw [List.infix_cons_iff, or_iff_right hstart]

/-- **A line is read without a call**, if it has no keyword before its comment, and is not too
short. -/
theorem scanLine_nil_iff :
    scanLine behind line = some [] ↔
      (∀ keyword : ConfigKeyword, ¬ keyword.text <:+: uncommented line) ∧
        (uncommented line = [] ∨ 8 ≤ line.length - (uncommented line).length + 1 + behind) := by
  have hnil : ∀ keyword : ConfigKeyword, ¬ keyword.text <:+: [] := fun keyword h =>
    absurd h.length_le (by cases keyword <;> decide)
  induction line with
  | nil => exact ⟨fun _ => ⟨hnil, .inl rfl⟩, fun _ => rfl⟩
  | cons c line ih =>
    rw [scanLine]
    by_cases hhash : c = hash
    · rw [if_pos hhash, hhash, uncommented_hash]
      exact ⟨fun _ => ⟨hnil, .inl rfl⟩, fun _ => rfl⟩
    have hle : (uncommented line).length ≤ line.length := (List.takeWhile_prefix _).length_le
    rw [if_neg hhash, uncommented_cons hhash]
    cases hkeyword : keywordAt (c :: line) with
    | some keyword =>
      refine ⟨fun h => absurd (Option.some.inj h) (by simp), fun h => absurd ?_ (h.1 keyword)⟩
      rw [← uncommented_cons hhash]
      exact ((prefix_uncommented_iff keyword).mp (keywordAt_eq_some hkeyword)).isInfix
    | none =>
      simp only [infix_uncommented_cons_iff hhash hkeyword]
      split
      · rename_i hlong
        refine ih.trans (and_congr_right fun _ => ?_)
        simp only [List.length_cons] at hlong ⊢
        cases huncommented : uncommented line with
        | nil => simpa using by omega
        | cons d u => simp
      · rename_i hshort
        refine ⟨fun h => absurd h (by simp), fun h => absurd h.2 ?_⟩
        simp only [List.length_cons] at hshort ⊢
        simp
        omega

/-- **A line does no harm** if its call is made, and the next line is reached. -/
theorem scanLine_eq_iff :
    scanLine (behind + 2) line = some (lineDirective line).toList ↔ TidyLine line behind := by
  cases hline : lineDirective line with
  | some call =>
    exact iff_of_true (scanLine_directive (Nat.le_add_left 2 behind) hline)
      (.inl (Option.isSome_iff_exists.mpr ⟨call, hline⟩))
  | none =>
    have hnone : ¬ (none : Option ConfigCall).isSome = true := by simp
    rw [Option.toList_none, scanLine_nil_iff, TidyLine, hline, or_iff_right hnone]
    refine and_congr_right fun _ => or_congr_right ?_
    omega

/-- A directive is never left out. -/
theorem length_le_of_scanLine {calls : List ConfigCall}
    (h : scanLine (behind + 2) line = some calls) :
    (lineDirective line).toList.length ≤ calls.length := by
  cases hline : lineDirective line with
  | none => exact Nat.zero_le _
  | some call =>
    have hcall := scanLine_directive (Nat.le_add_left 2 behind) hline
    obtain rfl := Option.some.inj (hcall.symm.trans h)
    exact le_rfl

end Line

/-! ## A text -/

section Text

variable {text line after : List UInt8}

/-- **Line by line**: a last line, or a line with its newline in front. -/
theorem lines_induction {P : List UInt8 → Prop} (hlast : ∀ line, newline ∉ line → P line)
    (hline : ∀ line after, newline ∉ line → P after → P (line ++ newline :: after))
    (text : List UInt8) : P text := by
  induction h : text.length using Nat.strong_induction_on generalizing text with
  | _ n ih =>
    by_cases hmem : newline ∈ text
    · obtain ⟨line, after, rfl, hnewline⟩ := List.eq_append_cons_of_mem hmem
      refine hline line after hnewline (ih after.length ?_ after rfl)
      rw [← h, List.length_append, List.length_cons]
      omega
    · exact hlast text hmem

theorem splitOn_last (h : newline ∉ line) : line.splitOn newline = [line] :=
  List.splitOnP_eq_singleton fun c hc => by
    rw [beq_eq_false_iff_ne]
    exact fun h' => h (h' ▸ hc)

theorem splitOn_line (h : newline ∉ line) (after : List UInt8) :
    (line ++ newline :: after).splitOn newline = line :: after.splitOn newline := by
  have hline := splitOn_last h
  rw [List.splitOn] at hline ⊢
  rw [List.splitOnP_append_cons _ _ (by simp), hline]
  rfl

theorem configDirectives_line (h : newline ∉ line) (after : List UInt8) :
    configDirectives (line ++ newline :: after)
      = (lineDirective line).toList ++ configDirectives after := by
  rw [configDirectives, splitOn_line h, List.filterMap_cons, configDirectives]
  cases lineDirective line <;> rfl

theorem tidyLines_line (h : newline ∉ line) (after : List UInt8) :
    TidyLines ((line ++ newline :: after).splitOn newline) ↔
      TidyLine line after.length ∧ TidyLines (after.splitOn newline) := by
  have hafter : [newline].intercalate (after.splitOn newline) = after :=
    List.intercalate_splitOn newline
  rw [splitOn_line h]
  cases hsplit : after.splitOn newline with
  | nil => exact absurd hsplit (List.splitOn_ne_nil newline after)
  | cons next lines => rw [TidyLines, ← hsplit, hafter]

/-- **The parse of a text**, one line after the other. -/
theorem configParse_append (hzero : 0 ∉ line) (hnewline : newline ∉ line) (after : List UInt8) :
    configParse (line ++ newline :: after ++ [0]) =
      (scanLine (after.length + 2) line).bind fun calls =>
        (configParse (after ++ [0])).map (calls ++ ·) := by
  rw [List.append_assoc, List.cons_append, configParse_line hzero hnewline (by simp),
    List.length_append, List.length_singleton]

/-- **No directive is left out** where the parser stays inside the text. -/
theorem length_le_of_configParse (hzero : 0 ∉ text) {calls : List ConfigCall}
    (h : configParse (text ++ [0]) = some calls) :
    (configDirectives text).length ≤ calls.length := by
  induction text using lines_induction generalizing calls with
  | hlast line hnewline =>
    rcases eq_or_ne line [] with rfl | hne
    · exact Nat.zero_le _
    · exact absurd ((configParse_last hzero hnewline hne).symm.trans h) (by simp)
  | hline line after hnewline ih =>
    have hmem : ∀ c, c ∈ line ∨ c ∈ after → c ∈ line ++ newline :: after := fun c hc =>
      List.mem_append.mpr (hc.imp_right (List.mem_cons_of_mem _))
    rw [configParse_append (fun hc => hzero (hmem 0 (.inl hc))) hnewline] at h
    obtain ⟨now, hnow, h⟩ := Option.bind_eq_some_iff.mp h
    obtain ⟨later, hlater, rfl⟩ := Option.map_eq_some_iff.mp h
    rw [configDirectives_line hnewline, List.length_append, List.length_append]
    exact Nat.add_le_add (length_le_of_scanLine hnow)
      (ih (fun hc => hzero (hmem 0 (.inr hc))) hlater)

/-- **The parser makes the calls of a text**, and stays inside it, if its lines do no harm. -/
theorem configParse_eq_iff (hzero : 0 ∉ text) :
    configParse (text ++ [0]) = some (configDirectives text) ↔
      TidyLines (text.splitOn newline) := by
  induction text using lines_induction with
  | hlast line hnewline =>
    rw [splitOn_last hnewline, TidyLines]
    rcases eq_or_ne line [] with rfl | hne
    · refine iff_of_true ?_ rfl
      rw [List.nil_append, configParse, if_pos rfl]
      rfl
    · rw [configParse_last hzero hnewline hne]
      exact iff_of_false (by simp) hne
  | hline line after hnewline ih =>
    have hmem : ∀ c, c ∈ line ∨ c ∈ after → c ∈ line ++ newline :: after := fun c hc =>
      List.mem_append.mpr (hc.imp_right (List.mem_cons_of_mem _))
    have hzero' : 0 ∉ after := fun hc => hzero (hmem 0 (.inr hc))
    rw [configParse_append (fun hc => hzero (hmem 0 (.inl hc))) hnewline, tidyLines_line hnewline,
      configDirectives_line hnewline, ← scanLine_eq_iff, ← ih hzero']
    refine ⟨fun h => ?_, fun h => by rw [h.1, h.2]; rfl⟩
    obtain ⟨now, hnow, h⟩ := Option.bind_eq_some_iff.mp h
    obtain ⟨later, hlater, happend⟩ := Option.map_eq_some_iff.mp h
    have hle := length_le_of_scanLine hnow
    have hle' := length_le_of_configParse hzero' hlater
    have hlength := congrArg List.length happend
    rw [List.length_append, List.length_append] at hlength
    obtain ⟨rfl, rfl⟩ := List.append_inj happend (by omega)
    exact ⟨hnow, hlater⟩

end Text

/-! ## A file -/

section File

variable {junk : ℕ → UInt8} {content : List UInt8}

/-- **A file is loaded** with its terminator, if it is shorter than the buffer. -/
theorem configLoad_eq (h : content.length < 10240) :
    ∃ config, configLoad junk content = some config ∧ config.Holds (content ++ [0]) := by
  have hread : content.take 10240 = content := List.take_of_length_le h.le
  have hfits : ([] : List UInt8).length + content.length
      ≤ (⟨10240, junk⟩ : Memory.Block UInt8).size := by
    rw [List.length_nil, Nat.zero_add]
    exact h.le
  obtain ⟨b, hb, hsize⟩ := Memory.Block.exists_storeAll_of_le hfits
  have hend : content.length + [(0 : UInt8)].length ≤ b.size := by
    rw [hsize]
    exact h
  obtain ⟨d, hd, -⟩ := Memory.Block.exists_storeAll_of_le hend
  refine ⟨d, ?_, ((Memory.Block.holds_nil _).storeAll hb).storeAll hd⟩
  rw [configLoad, hread]
  exact (congrArg (Option.bind · _) hb).trans hd

theorem isSome_configLoad_iff : (configLoad junk content).isSome ↔ content.length < 10240 := by
  refine ⟨fun hsome => ?_, fun h => ?_⟩
  · obtain ⟨d, hd⟩ := Option.isSome_iff_exists.mp hsome
    obtain ⟨b, hb, hd⟩ := Option.bind_eq_some_iff.mp hd
    have hfits := (Memory.Block.store_eq_some hd).1
    rw [(Memory.Block.store_eq_some hb).2.1, List.length_take] at hfits
    dsimp only at hfits
    by_contra hge
    rw [Nat.min_eq_left (Nat.le_of_not_lt hge)] at hfits
    exact absurd hfits (by decide)
  · obtain ⟨config, hconfig, -⟩ := @configLoad_eq junk content h
    exact Option.isSome_iff_exists.mpr ⟨config, hconfig⟩

end File

/-! ## Config parsing -/

/-- **When config parsing stays inside its text.**  The terminator of a file is written inside the
buffer exactly if the file is shorter than that; the parser is then given the file with its
terminator.  A text is parsed without an access behind its terminator, and with the calls of its
directive lines, exactly if it is empty or ends in a newline, and each of its lines starts with a
keyword, or has none before its comment and is not at the very end. -/
theorem config_iff (junk : ℕ → UInt8) (content : List UInt8) {text : List UInt8}
    (htext : 0 ∉ text) :
    ((configLoad junk content).isSome ↔ content.length < 10240) ∧
      (∀ config, configLoad junk content = some config → config.Holds (content ++ [0])) ∧
      (configParse (text ++ [0]) = some (configDirectives text) ↔
        TidyLines (text.splitOn newline)) := by
  refine ⟨isSome_configLoad_iff, fun config hconfig => ?_, configParse_eq_iff htext⟩
  have hlt := isSome_configLoad_iff.mp (Option.isSome_iff_exists.mpr ⟨config, hconfig⟩)
  obtain ⟨config', hconfig', hload⟩ := @configLoad_eq junk content hlt
  obtain rfl := Option.some.inj (hconfig.symm.trans hconfig')
  exact hload

/-- A text that is parsed, with a comment and a directive. -/
theorem config_iff_presets :
    configParse (ascii "# presets\npreset a:b\n" ++ [0]) = some [(.preset, ascii "a:b")] := by
  have hcomment : ∀ keyword : ConfigKeyword, ¬ keyword.text <:+: uncommented (ascii "# presets") :=
    fun keyword h => absurd h.length_le (by cases keyword <;> decide)
  have htidy : TidyLines ((ascii "# presets\npreset a:b\n").splitOn newline) :=
    ⟨.inr ⟨hcomment, .inl (by decide)⟩, .inl (by decide), rfl⟩
  exact ((config_iff (fun _ => 0) [] (by decide)).2.2.mpr htidy).trans (by decide)

/-- A directive without a newline behind it is read over its end, and so is the buffer by a file of
its size. -/
theorem config_overrun :
    configDirectives (ascii "preset a:b") = [(.preset, ascii "a:b")] ∧
      configParse (ascii "preset a:b" ++ [0]) = none ∧
      ¬ (configLoad (fun _ => 0) (.replicate 10240 newline)).isSome :=
  ⟨by decide, configParse_last (by decide) (by decide) (by decide), fun h =>
    absurd (isSome_configLoad_iff.mp h) (by rw [List.length_replicate]; decide)⟩

end Passgen
