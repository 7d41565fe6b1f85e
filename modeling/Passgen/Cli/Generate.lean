import Mathlib.Data.List.Basic
import Mathlib.Data.List.TakeWhile
import Mathlib.Tactic.Common
import Passgen.Generate.Fill
import Passgen.Parser.Run

/-!
# Cli/Generate — what the tool prints

    generate ─▸ pass[256] ─▸ 0 ─▸ printf "%s"      sep      …      ─▸ newline ─▸ return 0

A fill function returns zero for a failed generation, which is what it returns for an empty one; the
tool prints either, and returns 0.  So its status and its output can be trusted exactly when nothing
fails, and no zero is generated that would end the string early.
-/

namespace Passgen

/-! ## Errors -/

/-- `passgen_cli_error`. -/
inductive CliError where
  | none
  | multipleFormats
  | randomAlloc
  | patternParse
  | alloc
  | illegalAmount
  | illegalMarkovLength
  | unrecognized
  | presetNotFound
  | showHelp
  | showVersion
  deriving DecidableEq, Repr

/-- The value of the enumerator. -/
def CliError.code : CliError → ℕ
  | .none => 0
  | .multipleFormats => 1
  | .randomAlloc => 2
  | .patternParse => 3
  | .alloc => 4
  | .illegalAmount => 5
  | .illegalMarkovLength => 6
  | .unrecognized => 7
  | .presetNotFound => 8
  | .showHelp => 9
  | .showVersion => 10

/-- `passgen_cli_bail`: what it prints, and what it returns.  `data` is the argument as it is
printed. -/
def cliBail (error : CliError) (data : List UInt8) : List UInt8 × ℕ :=
  let message := match error with
    | .multipleFormats =>
      ascii "error: multiple patterns specified (" ++ data ++ ascii ").\n"
    | .randomAlloc => ascii "error: couldn't open random object.\n"
    | .patternParse => []
    | .illegalAmount =>
      ascii "\x1b[1;31merror\x1b[0m: illegal amount entered (" ++ data ++ ascii ")\n"
    | .illegalMarkovLength =>
      ascii "\x1b[1;31merror\x1b[0m: illegal markov chain length entered (" ++ data ++ ascii ")\n"
    | .unrecognized => []
    | .presetNotFound =>
      ascii "\x1b[1;31merror\x1b[0m: preset `" ++ data ++ ascii "` not found\n"
    | _ => ascii "error: unknown error.\n"
  (message, error.code)

/-! ## Generating -/

/-- What generating reads of the `passgen_cli_opts`. -/
structure CliOpts (σ : Type) where
  amount : ℕ
  null : Bool
  json : Bool
  entropy : Bool
  env : Env σ

/-- A call that returned: its status, what was printed, and the environment it leaves. -/
structure CliRun (σ : Type) where
  status : ℕ
  stdout : List UInt8
  stderr : List UInt8
  env : Env σ

/-- `pass_len`. -/
def passLen : ℕ := 256

section Model

variable {σ : Type} (source : Source σ)
  -- `log(entropy) / log(2)`, printed with so many decimals
  (bits : ℕ → ℚ → List UInt8)

/-- The loop of both outputs, over how they fill the buffer and what they print for the string in
it: on `stdout`, and on `stderr`. -/
def cliLoop (fill : Env σ → Dest UInt8 → Option (ℕ × GenState σ (Fillpos UInt8)))
    (print : ℕ → List UInt8 → Option ℚ → List UInt8 × List UInt8) :
    ℕ → ℕ → (ℕ → UInt8) → Env σ → Option (List UInt8 × List UInt8 × Env σ)
  | 0, _, _, env => some ([], [], env)
  | amount + 1, i, pass, env => do
    let (written, t) ← fill env ⟨pass, passLen, by decide⟩
    let buffer := t.data.buffer.set written 0
    let (out, err) := print i (cString (buffer.first (passLen + 1))) t.entropy
    let (outs, errs, env) ← cliLoop fill print amount (i + 1) buffer.cells (env.after t)
    some (out ++ outs, err ++ errs, env)

/-- `sep`. -/
def CliOpts.sep (opts : CliOpts σ) : UInt8 := if opts.null then 0 else 10

/-- What `passgen_cli_generate_normal` prints for a string; entropy is there when it is
collected. -/
def printNormal (sep : UInt8) (i : ℕ) (pass : List UInt8) (entropy : Option ℚ) :
    List UInt8 × List UInt8 :=
  (if i = 0 then pass else sep :: pass,
    match entropy with
    | some entropy => ascii "entropy: " ++ bits 2 entropy ++ ascii " bits\n"
    | none => [])

/-- What `passgen_cli_generate_json` prints for a string. -/
def printJson (i : ℕ) (pass : List UInt8) (entropy : Option ℚ) : List UInt8 × List UInt8 :=
  ((if i = 0 then [] else ascii ",") ++ ascii "\x7b\"output\":\"" ++ pass ++ ascii "\"" ++
    (match entropy with
    | some entropy => ascii ",\"entropy\":" ++ bits 6 entropy
    | none => []) ++ ascii "\x7d", [])

/-- The call `passgen_cli_bail(PASSGEN_ERROR_ALLOC, NULL)`. -/
def bailAlloc (env : Env σ) : CliRun σ :=
  ⟨(cliBail .alloc []).2, (cliBail .alloc []).1, [], env⟩

/-- `passgen_cli_generate_normal`, with what `malloc` returns: a buffer with anything in it, or
`NULL`. -/
def cliGenerateNormal (opts : CliOpts σ) (pattern : Group) (malloc : Option (ℕ → UInt8)) :
    Option (CliRun σ) :=
  match malloc with
  | none => some (bailAlloc opts.env)
  | some pass =>
    (cliLoop (fun env dest => generateFillUtf8 source pattern env opts.entropy dest)
      (printNormal bits opts.sep) opts.amount 0 pass opts.env).map
        fun (out, err, env) => ⟨0, out ++ ascii "\n", err, env⟩

/-- `passgen_cli_generate_json`. -/
def cliGenerateJson (opts : CliOpts σ) (pattern : Group) (malloc : Option (ℕ → UInt8)) :
    Option (CliRun σ) :=
  match malloc with
  | none => some (bailAlloc opts.env)
  | some pass =>
    (cliLoop (fun env dest => generateFillJsonUtf8 source pattern env opts.entropy dest)
      (printJson bits) opts.amount 0 pass opts.env).map
        fun (out, err, env) => ⟨0, ascii "[" ++ out ++ ascii "]\n", err, env⟩

/-- `passgen_cli_generate`; `none` where it does not return. -/
def cliGenerate (opts : CliOpts σ) (pattern : Group) (malloc : Option (ℕ → UInt8)) :
    Option (CliRun σ) :=
  if opts.json then cliGenerateJson source bits opts pattern malloc
  else cliGenerateNormal source bits opts pattern malloc

end Model

/-! ## What it should print -/

section Spec

variable {σ : Type} {source : Source σ} {bits : ℕ → ℚ → List UInt8} {pattern : Group}
  {entropy : Bool} {enc : ℕ → Option (List UInt8)}

/-- The sequences that are generated one after the other, all of them in full: nothing fails, and
there is room for their encodings. -/
inductive Sequences (source : Source σ) (pattern : Group) (entropy : Bool)
    (enc : ℕ → Option (List UInt8)) : ℕ → Env σ → List (List ℕ) → Prop where
  | nil {env : Env σ} : Sequences source pattern entropy enc 0 env []
  | cons {n : ℕ} {env : Env σ} {u : GenState σ Unit} {w : List UInt8} {seqs : List (List ℕ)}
      (h : Yields source pattern env entropy enc passLen u w)
      (hrest : Sequences source pattern entropy enc n (env.after u) seqs) :
      Sequences source pattern entropy enc (n + 1) env (u.emitted :: seqs)

/-- How codepoints are written into the buffer. -/
def CliOpts.encode (opts : CliOpts σ) : ℕ → Option (List UInt8) :=
  if opts.json then jsonEscape else utf8EncodeCodepoint

/-- All `amount` sequences are generated in full. -/
abbrev CliOpts.Sequences (opts : CliOpts σ) (source : Source σ) (pattern : Group)
    (seqs : List (List ℕ)) : Prop :=
  Passgen.Sequences source pattern opts.entropy opts.encode opts.amount opts.env seqs

/-- The status says whether a generation failed; and text output that is reported as good is the
sequences in full, joined by the separator, and a newline. -/
structure Reports (source : Source σ) (pattern : Group) (opts : CliOpts σ) (run : CliRun σ) :
    Prop where
  fails : (¬∃ seqs, opts.Sequences source pattern seqs) → run.status ≠ 0
  shows : opts.json = false → run.status = 0 → ∃ seqs, opts.Sequences source pattern seqs ∧
    run.stdout = [opts.sep].intercalate (seqs.map utf8EncodeAll) ++ ascii "\n"

/-- The strings, with the separator in front of all but the first. -/
def joinFrom (sep : UInt8) : ℕ → List (List UInt8) → List UInt8
  | _, [] => []
  | i, w :: ws => (if i = 0 then w else sep :: w) ++ joinFrom sep (i + 1) ws

theorem joinFrom_succ (sep : UInt8) (i : ℕ) (ws : List (List UInt8)) :
    joinFrom sep (i + 1) ws = ws.flatMap (sep :: ·) := by
  induction ws generalizing i with
  | nil => rfl
  | cons w ws ih => rw [joinFrom, if_neg (Nat.succ_ne_zero i), ih, List.flatMap_cons]

theorem joinFrom_zero (sep : UInt8) (ws : List (List UInt8)) :
    joinFrom sep 0 ws = [sep].intercalate ws := by
  cases ws with
  | nil => rfl
  | cons w ws =>
    rw [joinFrom, if_pos rfl, joinFrom_succ]
    induction ws generalizing w with
    | nil => simp
    | cons v ws ih =>
      rw [List.intercalate_cons_cons, ← ih, List.flatMap_cons]
      simp

theorem length_joinFrom (sep : UInt8) (i : ℕ) (ws : List (List UInt8)) :
    (joinFrom sep i ws).length
      = (ws.map List.length).sum + (ws.length - if i = 0 then 1 else 0) := by
  induction ws generalizing i with
  | nil => simp [joinFrom]
  | cons w ws ih =>
    rw [joinFrom, List.length_append, ih, if_neg (Nat.succ_ne_zero i), List.map_cons, List.sum_cons,
      List.length_cons]
    by_cases hi : i = 0
    · rw [if_pos hi, if_pos hi]
      omega
    · rw [if_neg hi, if_neg hi, List.length_cons]
      omega

/-- Strings that are no longer than others, and print the same, are as long. -/
theorem length_eq_of_joinFrom_eq {ι : Type} {l : List ι} {f g : ι → List UInt8} {sep : UInt8}
    {i : ℕ} (hle : ∀ x ∈ l, (f x).length ≤ (g x).length)
    (h : joinFrom sep i (l.map f) = joinFrom sep i (l.map g)) {x : ι} (hx : x ∈ l) :
    (f x).length = (g x).length := by
  have hlength := congrArg List.length h
  simp only [length_joinFrom, List.map_map, List.length_map] at hlength
  exact Weighted.eq_of_sum_map_eq hle (Nat.add_right_cancel hlength) hx

/-! ## Strings in the buffer -/

theorem cString_append_zero (w rest : List UInt8) : cString (w ++ 0 :: rest) = cString w := by
  rw [cString, cString]
  induction w with
  | nil => rfl
  | cons b w ih =>
    rw [List.cons_append, List.takeWhile_cons, List.takeWhile_cons, ih]

theorem cString_eq_self {w : List UInt8} (h : 0 ∉ w) : cString w = w :=
  List.takeWhile_eq_self_iff.mpr fun _ hb => decide_eq_true fun hb0 => h (hb0 ▸ hb)

/-- **What is printed for a string** ends at its first zero. -/
theorem cString_first {buffer : Memory.Store UInt8} {w : List UInt8} (h : buffer.Holds w)
    (hlen : w.length ≤ passLen) :
    cString ((buffer.set w.length 0).first (passLen + 1)) = cString w := by
  have hset : (buffer.set w.length 0).Holds (w ++ [0]) := h.set 0
  have hle : (w ++ [0]).length ≤ passLen + 1 := by
    rw [List.length_append, List.length_singleton]
    omega
  rw [hset.first_of_le hle, List.append_assoc, List.singleton_append, cString_append_zero]

theorem zero_mem_of_encodeAll {cs : List ℕ} {w : List UInt8}
    (h : encodeAll utf8EncodeCodepoint cs = some w) : 0 ∈ w ↔ 0 ∈ cs := by
  induction cs generalizing w with
  | nil =>
    obtain rfl := Option.some.inj h
    exact iff_of_false List.not_mem_nil List.not_mem_nil
  | cons c cs ih =>
    obtain ⟨v, hv, h⟩ := Option.bind_eq_some_iff.mp h
    obtain ⟨w', hw', rfl⟩ := Option.map_eq_some_iff.mp h
    rw [List.mem_append, zero_mem_utf8EncodeCodepoint hv, ih hw', List.mem_cons, eq_comm]

/-- A string is printed in full exactly when no zero was generated. -/
theorem cString_eq_self_iff {cs : List ℕ} {w : List UInt8}
    (h : encodeAll utf8EncodeCodepoint cs = some w) : cString w = w ↔ 0 ∉ cs := by
  rw [← zero_mem_of_encodeAll h, cString, List.takeWhile_eq_self_iff]
  simp only [decide_eq_true_eq]
  exact ⟨fun hall hzero => hall 0 hzero rfl, fun hzero b hb hb0 => hzero (hb0 ▸ hb)⟩

/-! ## What is printed -/

/-- Where an encoding exists it is that of all codepoints. -/
theorem eq_of_encodeAll {cs : List ℕ} {w : List UInt8}
    (h : encodeAll utf8EncodeCodepoint cs = some w) : w = utf8EncodeAll cs := by
  have hmax : ∀ c ∈ cs, c ≤ 0x10FFFF := by
    intro c hc
    by_contra hlong
    have hnone := encodeAll_eq_none (utf8EncodeCodepoint_eq_none_iff.mpr (not_le.mp hlong)) hc
    exact absurd (h.symm.trans hnone) (by simp)
  exact Option.some.inj (h.symm.trans (encodeAll_utf8 hmax))

theorem Yields.unique {env : Env σ} {len : ℕ} {u v : GenState σ Unit} {w x : List UInt8}
    (h : Yields source pattern env entropy enc len u w)
    (h' : Yields source pattern env entropy enc len v x) : u = v ∧ w = x := by
  obtain ⟨-, rfl⟩ := EStateM.Result.ok.inj (h.returns.symm.trans h'.returns)
  exact ⟨rfl, Option.some.inj (h.encodes.symm.trans h'.encodes)⟩

/-- A sequence is printed in full exactly when it has no zero. -/
theorem Sequences.cString_eq_iff {n : ℕ} {env : Env σ} {seqs : List (List ℕ)}
    (h : Sequences source pattern entropy utf8EncodeCodepoint n env seqs) :
    ∀ seq ∈ seqs, (cString (utf8EncodeAll seq) = utf8EncodeAll seq ↔ 0 ∉ seq) := by
  induction h with
  | nil => exact fun _ hseq => absurd hseq List.not_mem_nil
  | cons h hrest ih =>
    refine List.forall_mem_cons.mpr ⟨?_, ih⟩
    rw [← eq_of_encodeAll h.encodes]
    exact cString_eq_self_iff h.encodes

/-- **The loop prints the sequences**, each up to its first zero. -/
theorem Sequences.printed {n : ℕ} {env env' : Env σ} {seqs : List (List ℕ)}
    (h : Sequences source pattern entropy utf8EncodeCodepoint n env seqs) {sep : UInt8} {i : ℕ}
    {pass : ℕ → UInt8} {out err : List UInt8}
    (hloop : cliLoop (fun env dest => generateFillUtf8 source pattern env entropy dest)
      (printNormal bits sep) n i pass env = some (out, err, env')) :
    out = joinFrom sep i (seqs.map fun seq => cString (utf8EncodeAll seq)) := by
  induction h generalizing i pass out err env' with
  | nil =>
    obtain ⟨rfl, -⟩ := Prod.mk.inj (Option.some.inj hloop)
    rfl
  | @cons n env u w seqs hyields hrest ih =>
    obtain ⟨⟨written, t⟩, hfill, hloop⟩ := Option.bind_eq_some_iff.mp hloop
    dsimp only [printNormal, Option.bind_eq_bind] at hloop
    obtain ⟨⟨outs, errs, env''⟩, hlater, hout⟩ := Option.bind_eq_some_iff.mp hloop
    rcases generateFill_cases writes_writeBufferUtf8 hfill with
      ⟨v, x, hyields', hfilled⟩ | ⟨-, hfailed⟩
    · obtain ⟨rfl, rfl⟩ := hyields.unique hyields'
      rw [hfilled.after] at hlater
      obtain ⟨rfl, -⟩ := Prod.mk.inj (Option.some.inj hout)
      rw [ih hlater, List.map_cons, joinFrom, hfilled.length,
        cString_first hfilled.holds hyields.fits, eq_of_encodeAll hyields.encodes]
    · exact absurd hyields (hfailed u w)

/-! ## What is reported -/

variable {opts : CliOpts σ} {malloc : Option (ℕ → UInt8)} {run : CliRun σ}

/-- **With a buffer, the tool returns 0.** -/
theorem status_of_cliGenerate {pass : ℕ → UInt8}
    (h : cliGenerate source bits opts pattern (some pass) = some run) : run.status = 0 := by
  rw [cliGenerate] at h
  split at h
  · obtain ⟨⟨out, err, env⟩, -, rfl⟩ := Option.map_eq_some_iff.mp h
    rfl
  · obtain ⟨⟨out, err, env⟩, -, rfl⟩ := Option.map_eq_some_iff.mp h
    rfl

/-- In text mode codepoints are written in UTF-8. -/
theorem CliOpts.Sequences.text {seqs : List (List ℕ)} (h : opts.Sequences source pattern seqs)
    (hjson : opts.json = false) :
    Passgen.Sequences source pattern opts.entropy utf8EncodeCodepoint opts.amount opts.env
      seqs := by
  rwa [CliOpts.Sequences, CliOpts.encode, if_neg (by rw [hjson]; exact Bool.false_ne_true)] at h

/-- What text output is, where all sequences are generated. -/
theorem stdout_of_cliGenerate {pass : ℕ → UInt8} (hjson : opts.json = false)
    (h : cliGenerate source bits opts pattern (some pass) = some run) {seqs : List (List ℕ)}
    (hseqs : opts.Sequences source pattern seqs) :
    run.stdout = joinFrom opts.sep 0 (seqs.map fun seq => cString (utf8EncodeAll seq))
      ++ ascii "\n" := by
  rw [cliGenerate, if_neg (by rw [hjson]; exact Bool.false_ne_true)] at h
  obtain ⟨⟨out, err, env⟩, hloop, rfl⟩ := Option.map_eq_some_iff.mp h
  rw [(hseqs.text hjson).printed hloop]

/-- **Text output is the sequences in full** exactly when none of them has a zero. -/
theorem stdout_eq_iff {pass : ℕ → UInt8} (hjson : opts.json = false)
    (h : cliGenerate source bits opts pattern (some pass) = some run) {seqs : List (List ℕ)}
    (hseqs : opts.Sequences source pattern seqs) :
    run.stdout = [opts.sep].intercalate (seqs.map utf8EncodeAll) ++ ascii "\n" ↔
      ∀ seq ∈ seqs, 0 ∉ seq := by
  have hwhole := (hseqs.text hjson).cString_eq_iff
  rw [stdout_of_cliGenerate hjson h hseqs, ← joinFrom_zero, List.append_left_inj]
  constructor
  · intro hjoin seq hseq
    have hlength :=
      length_eq_of_joinFrom_eq (fun _ _ => (List.takeWhile_prefix _).length_le) hjoin hseq
    exact (hwhole seq hseq).mp ((List.takeWhile_prefix _).eq_of_length hlength)
  · intro hzero
    exact congrArg _ (List.map_congr_left fun seq hseq => (hwhole seq hseq).mpr (hzero seq hseq))

/-- **The tool reports truly** exactly when it cannot allocate its buffer, or nothing fails, and no
zero ends a string of the text output early. -/
theorem reports_iff (h : cliGenerate source bits opts pattern malloc = some run) :
    Reports source pattern opts run ↔ malloc = none ∨ ∃ seqs, opts.Sequences source pattern seqs ∧
      (opts.json = false → ∀ seq ∈ seqs, 0 ∉ seq) := by
  cases malloc with
  | none =>
    have hstatus : run.status ≠ 0 := by
      rw [cliGenerate] at h
      split at h <;> obtain rfl := Option.some.inj h <;> exact Nat.succ_ne_zero 3
    exact iff_of_true ⟨fun _ => hstatus, fun _ hzero => absurd hzero hstatus⟩ (.inl rfl)
  | some pass =>
    have hstatus := status_of_cliGenerate h
    rw [or_iff_right (Option.some_ne_none pass)]
    constructor
    · intro hreports
      cases hjson : opts.json with
      | true =>
        obtain ⟨seqs, hseqs⟩ : ∃ seqs, opts.Sequences source pattern seqs := by
          by_contra hfails
          exact hreports.fails hfails hstatus
        exact ⟨seqs, hseqs, fun hfalse => absurd hfalse.symm Bool.false_ne_true⟩
      | false =>
        obtain ⟨seqs, hseqs, hstdout⟩ := hreports.shows hjson hstatus
        exact ⟨seqs, hseqs, fun _ => (stdout_eq_iff hjson h hseqs).mp hstdout⟩
    · rintro ⟨seqs, hseqs, hzero⟩
      exact ⟨fun hfails => absurd ⟨seqs, hseqs⟩ hfails, fun hjson _ =>
        ⟨seqs, hseqs, (stdout_eq_iff hjson h hseqs).mpr (hzero hjson)⟩⟩

/-- Options for generating text without wordlists, and without collecting entropy. -/
def textOpts (amount : ℕ) : CliOpts Unit := ⟨amount, false, false, false, ⟨(), 32, []⟩⟩

theorem reports_accentTwice :
    ∃ run, cliGenerate zeroSource (fun _ _ => []) (textOpts 2) accentTwice (some fun _ => 255)
        = some run ∧
      (Reports zeroSource accentTwice (textOpts 2) run ↔
        some (fun _ => 255) = (none : Option (ℕ → UInt8)) ∨
          ∃ seqs, (textOpts 2).Sequences zeroSource accentTwice seqs ∧
            ((textOpts 2).json = false → ∀ seq ∈ seqs, 0 ∉ seq)) := by
  obtain ⟨run, hrun⟩ : ∃ run, cliGenerate zeroSource (fun _ _ => []) (textOpts 2) accentTwice
      (some fun _ => 255) = some run := Option.isSome_iff_exists.mp (by decide +kernel)
  exact ⟨run, hrun, reports_iff hrun⟩

/-- The pattern `\w{x}`. -/
def unknownWord : Group := ⟨[⟨[.init (.special ⟨.wordlist, 1, 16, [0x78]⟩)], 1⟩], 1⟩

/-- **A failed generation is printed as a password**: the pattern `\w{x}` without a wordlist `x`
prints an empty line, and 0 is returned. -/
theorem not_reports_missing :
    ∃ pattern, parse (ascii "\\w\x7bx\x7d") = .ok pattern ∧
      ∃ run, cliGenerate zeroSource (fun _ _ => []) (textOpts 1) pattern (some fun _ => 255)
          = some run ∧ run.status = 0 ∧ run.stdout = ascii "\n" ∧
        ¬Reports zeroSource pattern (textOpts 1) run := by
  refine ⟨unknownWord, rfl, _, rfl, rfl, rfl, fun hreports => hreports.fails ?_ rfl⟩
  rintro ⟨seqs, hseqs⟩
  cases hseqs with
  | cons h hrest =>
    have hstops : Effect.Stops (generate ⟨zeroSource, anySink⟩ unknownWord)
        (Env.start ⟨(), 32, []⟩ () false) (.returned (-1)) _ := rfl
    exact absurd (h.returns.symm.trans hstops) (by simp)

end Spec

end Passgen
