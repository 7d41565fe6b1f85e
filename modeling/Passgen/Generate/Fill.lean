import Mathlib.Data.List.Basic
import Mathlib.Tactic.Common
import Passgen.Generate.Sink
import Passgen.Memory.Store

/-!
# Generate/Fill — generating into a buffer

    c₁ ─ encode ▸ ▢▢   c₂ ─ encode ▸ ▢▢▢   …        cur ─▸ len
                                       ▪             what does not fit is refused whole

The callbacks that write into a buffer differ in how they encode a codepoint, and in the path they
take to do so; all of them append the whole encoding, or refuse it (`Writes`).  So what a fill
function leaves is a function of what is emitted, of the encoding and of the length of the buffer.
-/

namespace Passgen

/-! ## The callbacks -/

/-- `fillpos` and `fillpos_utf8`. -/
structure Fillpos (α : Type) where
  buffer : Memory.Store α
  cur : ℕ
  len : ℕ

/-- `passgen_generate_write_buffer`. -/
def writeBuffer (fillpos : Fillpos ℕ) (codepoint : ℕ) : ℤ × Fillpos ℕ :=
  if fillpos.cur = fillpos.len then (-1, fillpos)
  else
    (0, { fillpos with
      buffer := fillpos.buffer.set fillpos.cur codepoint
      cur := sizeT (fillpos.cur + 1) })

/-- The bytes copied to where `cur` is, which moves behind them. -/
def Fillpos.copy {α : Type} (fillpos : Fillpos α) (bytes : List α) : Fillpos α :=
  { fillpos with
    buffer := fillpos.buffer.setAll fillpos.cur bytes
    cur := sizeT (fillpos.cur + bytes.length) }

/-- `passgen_generate_write_buffer_utf8`: where four bytes are left the codepoint is encoded in
place, otherwise it is encoded aside and copied if it fits. -/
def writeBufferUtf8 (fillpos : Fillpos UInt8) (codepoint : ℕ) : ℤ × Fillpos UInt8 :=
  if fillpos.cur = fillpos.len then (-1, fillpos)
  else if sizeT (fillpos.cur + 4) ≤ fillpos.len then
    match utf8EncodeCodepoint codepoint with
    | none => (-1, fillpos)
    | some bytes => (0, fillpos.copy bytes)
  else
    match utf8EncodeCodepoint codepoint with
    | none => (-1, fillpos)
    | some bytes =>
      if bytes.length ≤ sizeSub fillpos.len fillpos.cur then (0, fillpos.copy bytes)
      else (-1, fillpos)

/-- The bytes `passgen_generate_write_buffer_json_utf8` puts aside. -/
def jsonEscape (codepoint : ℕ) : Option (List UInt8) :=
  let escaped (c : Char) : Option (List UInt8) := some ['\\'.toUInt8, c.toUInt8]
  if codepoint = 0x22 then escaped '"'
  else if codepoint = 0x5C then escaped '\\'
  else if codepoint = 0x08 then escaped 'b'
  else if codepoint = 0x0C then escaped 'f'
  else if codepoint = 0x0D then escaped 'r'
  else if codepoint = 0x0A then escaped 'n'
  else if codepoint = 0x09 then escaped 't'
  else utf8EncodeCodepoint codepoint

/-- `passgen_generate_write_buffer_json_utf8`.  A codepoint that is not encoded gives `-1`, which is
`2 ^ 64 - 1` bytes to fit. -/
def writeBufferJsonUtf8 (fillpos : Fillpos UInt8) (codepoint : ℕ) : ℤ × Fillpos UInt8 :=
  if fillpos.cur = fillpos.len then (-1, fillpos)
  else
    match jsonEscape codepoint with
    | none => (-1, fillpos)
    | some bytes =>
      if bytes.length = 0 then (-1, fillpos)
      else if bytes.length ≤ sizeSub fillpos.len fillpos.cur then (0, fillpos.copy bytes)
      else (-1, fillpos)

/-! ## The fill functions -/

variable {σ δ α : Type}

/-- What generating uses of a `passgen_env`. -/
structure Env (σ : Type) where
  random : σ
  depthLimit : ℕ
  wordlists : List (List UInt8 × Wordlist)

/-- The state `passgen_generate` starts from; `entropy` says whether the pointer is not `NULL`. -/
def Env.start (env : Env σ) (data : δ) (entropy : Bool) : GenState σ δ :=
  .init env.random data env.depthLimit entropy env.wordlists

/-- What a run leaves of an environment: the source and the wordlists have moved on. -/
def Env.after (env : Env σ) (t : GenState σ δ) : Env σ := ⟨t.random, env.depthLimit, t.wordlists⟩

/-- The buffer of a caller: no object is larger than `PTRDIFF_MAX`. -/
structure Dest (α : Type) where
  cells : ℕ → α
  len : ℕ
  len_lt : len < 2 ^ 63

/-- The buffer, before anything is written to it. -/
def Dest.fillpos (dest : Dest α) : Fillpos α := ⟨⟨dest.cells, []⟩, 0, dest.len⟩

/-- The fill functions, over their callback: the return value, and the state that is left.  `none`
where `passgen_generate` does not return. -/
def generateFill (func : Fillpos α → ℕ → ℤ × Fillpos α) (source : Source σ) (pattern : Group)
    (env : Env σ) (entropy : Bool) (dest : Dest α) : Option (ℕ × GenState σ (Fillpos α)) :=
  match (generate ⟨source, func⟩ pattern).run (env.start dest.fillpos entropy) with
  | .ok _ t => some (t.data.cur, t)
  | .error (.returned _) t => some (0, t)
  | .error _ _ => none

/-- `passgen_generate_fill_unicode`. -/
def generateFillUnicode (source : Source σ) (pattern : Group) (env : Env σ) (entropy : Bool)
    (dest : Dest ℕ) : Option (ℕ × GenState σ (Fillpos ℕ)) :=
  generateFill writeBuffer source pattern env entropy dest

/-- `passgen_generate_fill_utf8`. -/
def generateFillUtf8 (source : Source σ) (pattern : Group) (env : Env σ) (entropy : Bool)
    (dest : Dest UInt8) : Option (ℕ × GenState σ (Fillpos UInt8)) :=
  generateFill writeBufferUtf8 source pattern env entropy dest

/-- `passgen_generate_fill_json_utf8`. -/
def generateFillJsonUtf8 (source : Source σ) (pattern : Group) (env : Env σ) (entropy : Bool)
    (dest : Dest UInt8) : Option (ℕ × GenState σ (Fillpos UInt8)) :=
  generateFill writeBufferJsonUtf8 source pattern env entropy dest

/-! ## Appending whole encodings -/

/-- What the callbacks are for: the whole encoding is appended, or the codepoint is refused. -/
def appendWhole (enc : ℕ → Option (List α)) (p : Fillpos α) (c : ℕ) : ℤ × Fillpos α :=
  match enc c with
  | none => (-1, p)
  | some w => if p.cur + w.length ≤ p.len then (0, p.copy w) else (-1, p)

/-- The encoding of all codepoints, where every one of them has one. -/
def encodeAll (enc : ℕ → Option (List α)) : List ℕ → Option (List α)
  | [] => some []
  | c :: cs => (enc c).bind fun w => (encodeAll enc cs).map (w ++ ·)

/-- A position in a buffer. -/
structure Fillpos.Inside (p : Fillpos α) : Prop where
  le : p.cur ≤ p.len
  lt : p.len < 2 ^ 63

/-- The callback appends whole encodings. -/
def Writes (func : Fillpos α → ℕ → ℤ × Fillpos α) (enc : ℕ → Option (List α)) : Prop :=
  ∀ p : Fillpos α, p.Inside → ∀ c, func p c = appendWhole enc p c

theorem Fillpos.Inside.sizeSub {p : Fillpos α} (h : p.Inside) :
    sizeSub p.len p.cur = p.len - p.cur :=
  sizeSub_of_le (h.lt.trans (by decide)) h.le

theorem writes_writeBuffer : Writes writeBuffer fun c => some [c] := by
  intro p hp c
  have hle := hp.le
  rw [writeBuffer, appendWhole]
  dsimp only [List.length_singleton]
  split
  · rw [if_neg (by omega)]
  · rw [if_pos (by omega)]
    rfl

/-- **Both paths append**: in place there is room for any encoding. -/
theorem writes_writeBufferUtf8 : Writes writeBufferUtf8 utf8EncodeCodepoint := by
  intro p hp c
  have hle := hp.le
  have hlt := hp.lt
  rw [writeBufferUtf8, appendWhole, hp.sizeSub, sizeT_of_lt (by omega)]
  cases hw : utf8EncodeCodepoint c with
  | none =>
    dsimp only
    split
    · rfl
    · exact ite_self _
  | some w =>
    obtain ⟨hpos, hfour⟩ := length_utf8EncodeCodepoint hw
    dsimp only
    split
    · rw [if_neg (by omega)]
    split
    · rw [if_pos (by omega)]
    split
    · rw [if_pos (by omega)]
    · rw [if_neg (by omega)]

theorem length_jsonEscape {c : ℕ} {w : List UInt8} (h : jsonEscape c = some w) : 1 ≤ w.length := by
  unfold jsonEscape at h
  split_ifs at h
  iterate 7
    · obtain rfl := Option.some.inj h
      decide
  · exact (length_utf8EncodeCodepoint h).1

theorem writes_writeBufferJsonUtf8 : Writes writeBufferJsonUtf8 jsonEscape := by
  intro p hp c
  have hle := hp.le
  rw [writeBufferJsonUtf8, appendWhole, hp.sizeSub]
  cases hw : jsonEscape c with
  | none => split <;> rfl
  | some w =>
    have hpos := length_jsonEscape hw
    dsimp only
    split
    · rw [if_neg (by omega)]
    rw [if_neg (by omega)]
    split
    · rw [if_pos (by omega)]
    · rw [if_neg (by omega)]

/-! ## What a callback was fed -/

theorem Fillpos.copy_nil {p : Fillpos α} (h : p.Inside) : p.copy [] = p := by
  have hcur : sizeT p.cur = p.cur := sizeT_of_lt (h.le.trans_lt (h.lt.trans (by decide)))
  rw [copy, Memory.Store.setAll_nil, List.length_nil, Nat.add_zero, hcur]

theorem Fillpos.Inside.cur_copy {p : Fillpos α} (h : p.Inside) {w : List α}
    (hfits : p.cur + w.length ≤ p.len) : (p.copy w).cur = p.cur + w.length :=
  sizeT_of_lt (hfits.trans_lt (h.lt.trans (by decide)))

theorem Fillpos.Inside.copy {p : Fillpos α} (h : p.Inside) {w : List α}
    (hfits : p.cur + w.length ≤ p.len) : (p.copy w).Inside :=
  ⟨(h.cur_copy hfits).trans_le hfits, h.lt⟩

theorem Fillpos.Inside.copy_copy {p : Fillpos α} (h : p.Inside) {v : List α}
    (hfits : p.cur + v.length ≤ p.len) (w : List α) : (p.copy v).copy w = p.copy (v ++ w) := by
  have hcur := h.cur_copy hfits
  rw [Fillpos.copy, hcur, Fillpos.copy, Fillpos.copy, Memory.Store.setAll_append,
    List.length_append, Nat.add_assoc]

theorem Dest.inside (dest : Dest α) : dest.fillpos.Inside := ⟨Nat.zero_le _, dest.len_lt⟩

/-- What was copied to the start of a buffer it fits in. -/
theorem Dest.copied (dest : Dest α) {v : List α}
    (h : dest.fillpos.cur + v.length ≤ dest.fillpos.len) :
    (dest.fillpos.copy v).cur = v.length ∧ (dest.fillpos.copy v).buffer.Holds v ∧
      v.length ≤ dest.len := by
  refine ⟨?_, (Memory.Store.holds_nil _).setAll v, (Nat.zero_add v.length).symm.trans_le h⟩
  exact (dest.inside.cur_copy h).trans (Nat.zero_add _)

/-- Of the codepoints all encodings were appended, or some of them and then one was refused, because
the encoding of them all does not fit or is none. -/
def Appends (func : Fillpos α → ℕ → ℤ × Fillpos α) (enc : ℕ → Option (List α)) (p : Fillpos α)
    (cs : List ℕ) : Prop :=
  ∃ w, (feed func p cs).2 = p.copy w ∧ p.cur + w.length ≤ p.len ∧
    ((feed func p cs).1 = 0 ∧ encodeAll enc cs = some w ∨ (feed func p cs).1 ≠ 0 ∧
      ∀ v, encodeAll enc cs = some v → p.len < p.cur + v.length)

section Feed

variable {func : Fillpos α → ℕ → ℤ × Fillpos α} {enc : ℕ → Option (List α)} {p : Fillpos α} {c : ℕ}
  {cs : List ℕ}

theorem appends_refused (hp : p.Inside) (hfunc : func p c = (-1, p))
    (hlong : ∀ v, encodeAll enc (c :: cs) = some v → p.len < p.cur + v.length) :
    Appends func enc p (c :: cs) := by
  have hfeed : feed func p (c :: cs) = (-1, p) := by rw [feed, hfunc, if_neg (by simp)]
  refine ⟨[], ?_, hp.le, .inr ⟨?_, hlong⟩⟩
  · rw [hfeed, Fillpos.copy_nil hp]
  · rw [hfeed]
    simp

theorem Appends.cons (hp : p.Inside) {v : List α} (hv : enc c = some v)
    (hfits : p.cur + v.length ≤ p.len) (hfunc : func p c = (0, p.copy v))
    (h : Appends func enc (p.copy v) cs) : Appends func enc p (c :: cs) := by
  obtain ⟨w, hcopied, hroom, hall⟩ := h
  have hfeed : feed func p (c :: cs) = feed func (p.copy v) cs := by rw [feed, hfunc, if_pos rfl]
  have hlen : (p.copy v).len = p.len := rfl
  rw [hp.cur_copy hfits, hlen] at hroom hall
  rw [hp.copy_copy hfits] at hcopied
  refine ⟨v ++ w, hfeed ▸ hcopied, by rw [List.length_append]; omega, ?_⟩
  rw [hfeed, encodeAll, hv]
  rcases hall with ⟨hcode, hw⟩ | ⟨hcode, hlong⟩
  · exact .inl ⟨hcode, by rw [hw]; rfl⟩
  · refine .inr ⟨hcode, fun u hu => ?_⟩
    obtain ⟨w', hw', rfl⟩ := Option.map_eq_some_iff.mp hu
    have := hlong w' hw'
    rw [List.length_append]
    omega

/-- **What a callback that appends whole encodings was fed.** -/
theorem Writes.appends (h : Writes func enc) (hp : p.Inside) (cs : List ℕ) :
    Appends func enc p cs := by
  induction cs generalizing p with
  | nil => exact ⟨[], (Fillpos.copy_nil hp).symm, hp.le, .inl ⟨rfl, rfl⟩⟩
  | cons c cs ih =>
    have hfunc := h p hp c
    rw [appendWhole] at hfunc
    cases hv : enc c with
    | none =>
      rw [hv] at hfunc
      exact appends_refused hp hfunc fun v hall => absurd hall (by simp [encodeAll, hv])
    | some v =>
      rw [hv] at hfunc
      by_cases hfits : p.cur + v.length ≤ p.len
      · exact .cons hp hv hfits (hfunc.trans (if_pos hfits)) (ih (hp.copy hfits))
      · refine appends_refused hp (hfunc.trans (if_neg hfits)) fun u hu => ?_
        rw [encodeAll, hv] at hu
        obtain ⟨w, -, rfl⟩ := Option.map_eq_some_iff.mp hu
        rw [List.length_append]
        omega

end Feed

/-! ## What a fill function leaves -/

section Fill

variable {source : Source σ} {pattern : Group} {env : Env σ} {free : δ → ℕ → ℤ × δ} {data : δ}
  {collect : Bool} {t : GenState σ δ}

theorem sideBySide_start {δ₂ : Type} (func : δ₂ → ℕ → ℤ × δ₂) (data : δ) (data₂ : δ₂)
    (collect entropy : Bool) :
    SideBySide func data₂ (env.start data collect) (env.start data₂ entropy) :=
  ⟨rfl, rfl, rfl, rfl, rfl, rfl⟩

/-- **A fill function replays a run that returns** into its buffer. -/
theorem generateFill_of_returns (h : Effect.Returns (generate ⟨source, free⟩ pattern)
    (env.start data collect) () t) (func : Fillpos α → ℕ → ℤ × Fillpos α) (entropy : Bool)
    (dest : Dest α) :
    ∃ t', generateFill func source pattern env entropy dest =
        some (if (feed func dest.fillpos t.emitted).1 = 0 then t'.data.cur else 0, t') ∧
      t'.data = (feed func dest.fillpos t.emitted).2 := by
  rcases (follows_generate pattern).both (sideBySide_start func data dest.fillpos collect entropy) h
    with ⟨t', hrun, ht⟩ | ⟨e, t', hrun, ht⟩
  · refine ⟨t', ?_, by rw [ht.fed]⟩
    rw [Effect.Returns] at hrun
    rw [generateFill, hrun, ht.fed, if_pos rfl]
  · refine ⟨t', ?_, ht.fed.symm⟩
    rw [Effect.Stops, ht.stop] at hrun
    rw [generateFill, hrun, if_neg ht.refused]

/-- **A callback has been fed what its run emits.** -/
theorem fed_of_returns {func : δ → ℕ → ℤ × δ} (h : Effect.Returns (generate ⟨source, func⟩ pattern)
    (env.start data collect) () t) : feed func data t.emitted = (0, t.data) := by
  rcases (follows_generate pattern).both (sideBySide_start func data data collect collect) h
    with ⟨t', hrun, ht⟩ | ⟨e, t', hrun, -⟩
  · obtain rfl : t = t' := (EStateM.Result.ok.inj (h.symm.trans hrun)).2
    exact ht.fed
  · exact absurd (h.symm.trans hrun) (by simp)

/-- A sink that is never full. -/
def anySink : Unit → ℕ → ℤ × Unit := fun _ _ => (0, ())

theorem feed_anySink (cs : List ℕ) : feed anySink () cs = (0, ()) := by
  induction cs with
  | nil => rfl
  | cons c cs ih =>
    rw [feed]
    exact (if_pos rfl).trans ih

/-- `passgen_generate` returns 0 into a sink that is never full, and there is room for the encoding
`w` of all it emits. -/
structure Yields (source : Source σ) (pattern : Group) (env : Env σ) (entropy : Bool)
    (enc : ℕ → Option (List α)) (len : ℕ) (u : GenState σ Unit) (w : List α) : Prop where
  returns : Effect.Returns (generate ⟨source, anySink⟩ pattern) (env.start () entropy) () u
  encodes : encodeAll enc u.emitted = some w
  fits : w.length ≤ len

/-- What a fill function leaves that was given room: all encodings, and the state of the run. -/
structure Filled (env : Env σ) (n : ℕ) (t : GenState σ (Fillpos α)) (u : GenState σ Unit)
    (w : List α) : Prop where
  length : n = w.length
  holds : t.data.buffer.Holds w
  emitted : t.emitted = u.emitted
  after : env.after t = env.after u

/-- A run into the buffer that returns has written all encodings. -/
theorem filled_of_returns {func : Fillpos α → ℕ → ℤ × Fillpos α} {enc : ℕ → Option (List α)}
    (hfunc : Writes func enc) {entropy : Bool} {dest : Dest α} {t : GenState σ (Fillpos α)}
    (hrun : Effect.Returns (generate ⟨source, func⟩ pattern) (env.start dest.fillpos entropy) ()
      t) :
    ∃ u w, Yields source pattern env entropy enc dest.len u w ∧ Filled env t.data.cur t u w := by
  have hfed := fed_of_returns hrun
  obtain ⟨w, hcopied, hroom, hall⟩ := hfunc.appends dest.inside t.emitted
  rw [hfed] at hcopied hall
  obtain ⟨-, hw⟩ := hall.resolve_right fun h => h.1 rfl
  obtain ⟨hcur, hholds, hfits⟩ := dest.copied hroom
  rw [← hcopied] at hcur hholds
  rcases (follows_generate pattern).both
    (sideBySide_start anySink dest.fillpos () entropy entropy) hrun
    with ⟨u, hreturns, hside⟩ | ⟨e, u, -, hcut⟩
  · refine ⟨u, w, ⟨hreturns, hside.emitted ▸ hw, hfits⟩, ⟨hcur, hholds, hside.emitted.symm, ?_⟩⟩
    rw [Env.after, Env.after, hside.random, hside.wordlists]
  · exact absurd (congrArg Prod.fst (feed_anySink t.emitted)) hcut.refused

/-- A run into the buffer that fails was not given room for all encodings, or fails anyway. -/
theorem not_yields_of_stops {func : Fillpos α → ℕ → ℤ × Fillpos α} {enc : ℕ → Option (List α)}
    (hfunc : Writes func enc) {entropy : Bool} {dest : Dest α} {e : Stop}
    {t : GenState σ (Fillpos α)}
    (hrun : Effect.Stops (generate ⟨source, func⟩ pattern) (env.start dest.fillpos entropy) e t)
    (u : GenState σ Unit) (w : List α) : ¬Yields source pattern env entropy enc dest.len u w := by
  intro hyields
  rcases (follows_generate pattern).both
    (sideBySide_start func () dest.fillpos entropy entropy) hyields.returns
    with ⟨v, hreturns, -⟩ | ⟨e, v, -, hcut⟩
  · exact absurd (hrun.symm.trans hreturns) (by simp)
  · obtain ⟨v, -, -, hall⟩ := hfunc.appends dest.inside u.emitted
    have hlong := (hall.resolve_left fun h => hcut.refused h.1).2 w hyields.encodes
    have hlen : dest.len < 0 + w.length := hlong
    have hfits := hyields.fits
    omega

/-- **A fill function that returns** has been given room for all encodings, or returns zero. -/
theorem generateFill_cases {func : Fillpos α → ℕ → ℤ × Fillpos α} {enc : ℕ → Option (List α)}
    (hfunc : Writes func enc) {entropy : Bool} {dest : Dest α} {n : ℕ}
    {t : GenState σ (Fillpos α)}
    (h : generateFill func source pattern env entropy dest = some (n, t)) :
    (∃ u w, Yields source pattern env entropy enc dest.len u w ∧ Filled env n t u w) ∨
      n = 0 ∧ ∀ u w, ¬Yields source pattern env entropy enc dest.len u w := by
  rw [generateFill] at h
  split at h
  · rename_i v hrun
    obtain ⟨rfl, rfl⟩ := Prod.mk.inj (Option.some.inj h)
    exact .inl (filled_of_returns hfunc hrun)
  · rename_i code v hrun
    obtain ⟨rfl, -⟩ := Prod.mk.inj (Option.some.inj h)
    exact .inr ⟨rfl, not_yields_of_stops hfunc hrun⟩
  · exact absurd h (by simp)

/-- Where a fill function returns something, it holds all encodings. -/
theorem holds_of_generateFill {func : Fillpos α → ℕ → ℤ × Fillpos α} {enc : ℕ → Option (List α)}
    (hfunc : Writes func enc) {entropy : Bool} {dest : Dest α} {n : ℕ}
    {t : GenState σ (Fillpos α)}
    (h : generateFill func source pattern env entropy dest = some (n, t)) (hn : 0 < n) :
    ∃ w, encodeAll enc t.emitted = some w ∧ n = w.length ∧ t.data.buffer.Holds w := by
  obtain ⟨u, w, hyields, hfilled⟩ :=
    (generateFill_cases hfunc h).resolve_right fun hzero => hn.ne' hzero.1
  exact ⟨w, hfilled.emitted ▸ hyields.encodes, hfilled.length, hfilled.holds⟩

/-- What a fill function leaves: the list and its length, where it is `ok` and fits, and zero
otherwise; never a store behind the buffer. -/
def Fills (out : Option (ℕ × GenState σ (Fillpos α))) (dest : Dest α) (ok : Prop) (w : List α) :
    Prop :=
  ∃ ret t, out = some (ret, t) ∧ (∀ i ∈ t.data.buffer.stores, i < dest.len) ∧
    (ok ∧ w.length ≤ dest.len → ret = w.length ∧ t.data.buffer.Holds w) ∧
    (¬(ok ∧ w.length ≤ dest.len) → ret = 0)

theorem fills_of_writes (h : Effect.Returns (generate ⟨source, free⟩ pattern)
    (env.start data collect) () t) {func : Fillpos α → ℕ → ℤ × Fillpos α}
    {enc : ℕ → Option (List α)} (hfunc : Writes func enc) {ok : Prop} {w : List α}
    (hok : ok → encodeAll enc t.emitted = some w) (hno : ¬ok → encodeAll enc t.emitted = none)
    (entropy : Bool) (dest : Dest α) :
    Fills (generateFill func source pattern env entropy dest) dest ok w := by
  obtain ⟨t', hout, hdata⟩ := generateFill_of_returns h func entropy dest
  obtain ⟨v, hcopied, hroom, hall⟩ := hfunc.appends dest.inside t.emitted
  obtain ⟨hcur, hholds, hlength⟩ := dest.copied hroom
  rw [hcopied] at hdata
  refine ⟨_, t', hout, fun i hi => ?_, fun ⟨hw, hfits⟩ => ?_, fun hnot => ?_⟩
  · have hstores : t'.data.buffer.stores = List.range' 0 v.length := by
      rw [hdata]
      exact Memory.Store.stores_setAll _ 0 v
    rw [hstores, List.mem_range'_1, Nat.zero_add] at hi
    exact hi.2.trans_le hlength
  · rcases hall with ⟨hcode, hv⟩ | ⟨-, hlong⟩
    · obtain rfl := Option.some.inj ((hok hw).symm.trans hv)
      rw [if_pos hcode, hdata]
      exact ⟨hcur, hholds⟩
    · have : dest.len < 0 + w.length := hlong w (hok hw)
      omega
  · rcases hall with ⟨-, hv⟩ | ⟨hcode, -⟩
    · by_cases hw : ok
      · obtain rfl := Option.some.inj ((hok hw).symm.trans hv)
        exact absurd ⟨hw, hlength⟩ hnot
      · exact absurd ((hno hw).symm.trans hv) (by simp)
    · exact if_neg hcode

end Fill

/-! ## The sinks agree -/

theorem encodeAll_singleton (cs : List ℕ) : encodeAll (fun c => some [c]) cs = some cs := by
  induction cs with
  | nil => rfl
  | cons c cs ih =>
    rw [encodeAll, ih]
    rfl

/-- **All codepoints encoded.** -/
theorem encodeAll_utf8 {cs : List ℕ} (h : ∀ c ∈ cs, c ≤ 0x10FFFF) :
    encodeAll utf8EncodeCodepoint cs = some (utf8EncodeAll cs) := by
  induction cs with
  | nil => rfl
  | cons c cs ih =>
    obtain ⟨hc, hcs⟩ := List.forall_mem_cons.mp h
    rw [encodeAll, utf8EncodeCodepoint_eq hc, ih hcs, Option.bind_some, Option.map_some,
      utf8EncodeAll, utf8EncodeAll, List.flatMap_cons]

theorem encodeAll_eq_none {enc : ℕ → Option (List α)} {c : ℕ} (hc : enc c = none) {cs : List ℕ}
    (h : c ∈ cs) : encodeAll enc cs = none := by
  induction cs with
  | nil => exact absurd h List.not_mem_nil
  | cons d cs ih =>
    rw [encodeAll]
    rcases List.mem_cons.mp h with rfl | h
    · rw [hc, Option.bind_none]
    · rw [ih h]
      cases enc d <;> rfl

/-- **The sinks agree**: where a pattern is generated at all, the codepoints fill a buffer of
codepoints that has room for them, and their encoding a buffer of bytes; with and without
entropy. -/
theorem fill_agree {source : Source σ} {free : δ → ℕ → ℤ × δ} {pattern : Group} {env : Env σ}
    {data : δ} {collect : Bool} {t : GenState σ δ}
    (h : Effect.Returns (generate ⟨source, free⟩ pattern)
      (env.start data collect) () t) (units : Dest ℕ) (bytes : Dest UInt8) :
    (∀ entropy,
      Fills (generateFillUnicode source pattern env entropy units) units True t.emitted ∧
      Fills (generateFillUtf8 source pattern env entropy bytes) bytes
        (∀ c ∈ t.emitted, c ≤ 0x10FFFF) (utf8EncodeAll t.emitted)) ∧
    (generateFillUnicode source pattern env true units).map (fun p => (p.1, p.2.data)) =
      (generateFillUnicode source pattern env false units).map (fun p => (p.1, p.2.data)) ∧
    (generateFillUtf8 source pattern env true bytes).map (fun p => (p.1, p.2.data)) =
      (generateFillUtf8 source pattern env false bytes).map (fun p => (p.1, p.2.data)) := by
  have hsame : ∀ {β : Type} (func : Fillpos β → ℕ → ℤ × Fillpos β) (dest : Dest β),
      (generateFill func source pattern env true dest).map (fun p => (p.1, p.2.data)) =
        (generateFill func source pattern env false dest).map (fun p => (p.1, p.2.data)) := by
    intro β func dest
    obtain ⟨t', hout, hdata⟩ := generateFill_of_returns h func true dest
    obtain ⟨t'', hout', hdata'⟩ := generateFill_of_returns h func false dest
    rw [hout, hout', Option.map_some, Option.map_some, hdata, hdata']
  refine ⟨fun entropy => ⟨?_, ?_⟩, hsame _ units, hsame _ bytes⟩
  · exact fills_of_writes h writes_writeBuffer (fun _ => encodeAll_singleton _)
      (fun hno => absurd trivial hno) entropy units
  · refine fills_of_writes h writes_writeBufferUtf8 encodeAll_utf8 (fun hno => ?_) entropy bytes
    obtain ⟨c, hc, hlong⟩ : ∃ c ∈ t.emitted, 0x10FFFF < c := by simpa using hno
    exact encodeAll_eq_none (utf8EncodeCodepoint_eq_none_iff.mpr hlong) hc

/-- The pattern `é{2}`. -/
def accentTwice : Group := ⟨[⟨[.mk (.literal ⟨[0xE9], true⟩) ⟨2, 2⟩ false], 1⟩], 1⟩

theorem fill_agree_accentTwice :
    Fills (generateFillUtf8 drawSource accentTwice ⟨[], 1, []⟩ false ⟨fun _ => 0, 3, by decide⟩)
      ⟨fun _ => 0, 3, by decide⟩ (∀ c ∈ [0xE9, 0xE9], c ≤ 0x10FFFF)
      (utf8EncodeAll [0xE9, 0xE9]) := by
  have hrun : Effect.Returns (generate ⟨drawSource, fun _ _ => (0, ())⟩ accentTwice)
      (Env.start ⟨[], 1, []⟩ () false) () ⟨[], (), 1, none, [], [0xE9, 0xE9], _⟩ := rfl
  exact ((fill_agree hrun ⟨fun _ => 0, 0, by decide⟩ ⟨fun _ => 0, 3, by decide⟩).1 false).2

end Passgen
