import Mathlib.Data.Int.Cast.Basic
import Mathlib.Data.List.Basic
import Mathlib.Tactic.Common
import Passgen.Parser.Print
import Passgen.Parser.Run
import Passgen.Parser.Step

/-!
# Parser/Numbers — the numbers in braces

    {ds}        multiplier    sum - 1 + decimal ds
    x{ds}       bounds        ⟨decimal ds, decimal ds⟩
    x{ds,es}    bounds        ⟨decimal ds, decimal es⟩          each of them modulo `2 ^ 64`

The digit loops of the three number states multiply and add on `size_t`, so what they store is the
decimal value modulo `2 ^ 64`; a multiplier and a bar also add to the sum of their group.  Numbers
and sums are exact exactly where they fit.
-/

namespace Passgen

/-- The decimal value of digits. -/
def decimal (ds : List ℕ) : ℕ := ds.foldl (fun v t => v * 10 + (t - '0'.toNat)) 0

/-- The loop stores the value modulo the size of a `size_t`. -/
theorem foldl_pushDigit (ds : List ℕ) : ds.foldl pushDigit 0 = sizeT (decimal ds) := by
  suffices h : ∀ v, ds.foldl pushDigit (sizeT v) =
      sizeT (ds.foldl (fun v t => v * 10 + (t - '0'.toNat)) v) from h 0
  induction ds with
  | nil => exact fun _ => rfl
  | cons t ds ih =>
    intro v
    have hpush : pushDigit (sizeT v) t = sizeT (v * 10 + (t - '0'.toNat)) := by
      rw [pushDigit, sizeT, sizeT, sizeT, sizeT]
      omega
    rw [List.foldl_cons, hpush, ih, List.foldl_cons]

theorem sizeT_eq_iff {n : ℕ} : sizeT n = n ↔ n < 2 ^ 64 :=
  ⟨fun h => h ▸ sizeT_lt n, sizeT_of_lt⟩

/-- A group state of the run over `tokens` that reads the control character `c`. -/
structure Place (tokens : List ℕ) (c : Char) where
  before : List ℕ
  token : ℕ
  after : List ℕ
  group : Group
  segment : Segment
  rest : List ParserState
  tokens_eq : tokens = before ++ token :: after
  run : parseStates before parserInit.state = some (.group group segment :: rest)
  control : IsControl token c

section Place

variable {tokens : List ℕ} {c : Char}

/-- The run goes on from the place to `state`, over `ts` after the control character. -/
def Place.Leads (p : Place tokens c) (ts : List ℕ) (state : List ParserState) : Prop :=
  parseStates (p.token :: ts) (.group p.group p.segment :: p.rest) = some state

/-- There is no item in front of the brace: it is a multiplier. -/
def Place.First (p : Place tokens c) : Prop := (segmentClean p.segment).items = []

/-- The run goes on to a segment whose last item has these bounds. -/
def Place.Bounds (p : Place tokens c) (ts : List ℕ) (rep : Repeat) : Prop :=
  ∃ s item, p.Leads ts (.group p.group s :: p.rest) ∧ s.items.getLast? = some item ∧ item.rep = rep

/-- **Exact numbers**: those after a brace are stored as they are written, and a multiplier enters
the sum as it is. -/
structure Place.Exact (p : Place tokens '{') : Prop where
  multiplier : ∀ ds after, p.after = ds ++ '}'.toNat :: after → (∀ t ∈ ds, isDigit t) → p.First →
    ∃ g s, p.Leads (ds ++ ['}'.toNat]) (.group g s :: p.rest) ∧ s.multiplier = decimal ds ∧
      (g.multiplierSum : ℤ) = p.group.multiplierSum - 1 + decimal ds
  count : ∀ ds after, p.after = ds ++ '}'.toNat :: after → (∀ t ∈ ds, isDigit t) → ¬p.First →
    p.Bounds (ds ++ ['}'.toNat]) ⟨decimal ds, decimal ds⟩
  bounds : ∀ ds es after, p.after = ds ++ ','.toNat :: es ++ '}'.toNat :: after →
    (∀ t ∈ ds, isDigit t) → (∀ t ∈ es, isDigit t) → ¬p.First →
    p.Bounds (ds ++ ','.toNat :: es ++ ['}'.toNat]) ⟨decimal ds, decimal es⟩

/-- The numbers after a brace fit a `size_t`, and so does the sum with a multiplier. -/
structure Place.Fits (p : Place tokens '{') : Prop where
  multiplier : ∀ ds after, p.after = ds ++ '}'.toNat :: after → (∀ t ∈ ds, isDigit t) → p.First →
    decimal ds < 2 ^ 64 ∧ 1 ≤ p.group.multiplierSum + decimal ds ∧
      p.group.multiplierSum + decimal ds ≤ 2 ^ 64
  count : ∀ ds after, p.after = ds ++ '}'.toNat :: after → (∀ t ∈ ds, isDigit t) → ¬p.First →
    decimal ds < 2 ^ 64
  bounds : ∀ ds es after, p.after = ds ++ ','.toNat :: es ++ '}'.toNat :: after →
    (∀ t ∈ ds, isDigit t) → (∀ t ∈ es, isDigit t) → ¬p.First →
    decimal ds < 2 ^ 64 ∧ decimal es < 2 ^ 64

/-- The segment a bar starts enters the sum with one. -/
def Place.Counts (p : Place tokens '|') : Prop :=
  0 < p.segment.multiplier → ∃ g, p.Leads [] (.group g segmentInit :: p.rest) ∧
    g.multiplierSum = p.group.multiplierSum + 1

end Place

/-- **Numbers are read exactly**, and no sum is reduced. -/
structure NumbersExact (tokens : List ℕ) : Prop where
  braces : ∀ p : Place tokens '{', p.Exact
  bars : ∀ p : Place tokens '|', p.Counts

/-- All numbers and all sums fit a `size_t`. -/
structure NumbersFit (tokens : List ℕ) : Prop where
  braces : ∀ p : Place tokens '{', p.Fits
  bars : ∀ p : Place tokens '|', 0 < p.segment.multiplier → p.group.multiplierSum + 1 < 2 ^ 64

/-! ## Sums -/

/-- The sum of a group under construction is a value of a `size_t`. -/
def ParserState.Sized : ParserState → Prop
  | .group g _ => g.multiplierSum < 2 ^ 64
  | _ => True

/-- **A step keeps sums within `size_t`.** -/
theorem forall_sized_step {t : ℕ} {state state' : List ParserState} (hstep : Step t state state')
    (h : ∀ s ∈ state, s.Sized) : ∀ s ∈ state', s.Sized := by
  have hsame : ∀ {g s s' rest}, (∀ st ∈ ParserState.group g s :: rest, st.Sized) →
      ∀ st ∈ ParserState.group g s' :: rest, st.Sized := fun h =>
    have ⟨hg, hrest⟩ := List.forall_mem_cons.mp h
    List.forall_mem_cons.mpr ⟨hg, hrest⟩
  have hsum : ∀ {g s s' rest} {segments : List Segment} (n : ℕ),
      (∀ st ∈ ParserState.group g s :: rest, st.Sized) →
      ∀ st ∈ ParserState.group ⟨segments, sizeT n⟩ s' :: rest, st.Sized := fun n h =>
    List.forall_mem_cons.mpr ⟨sizeT_lt n, (List.forall_mem_cons.mp h).2⟩
  have hpush : ∀ {top rest}, top.Sized → (∀ st ∈ rest, st.Sized) →
      ∀ st ∈ (top :: rest : List ParserState), st.Sized := fun htop hrest =>
    List.forall_mem_cons.mpr ⟨htop, hrest⟩
  have hpop : ∀ {top rest}, (∀ st ∈ (top :: rest : List ParserState), st.Sized) →
      ∀ st ∈ rest, st.Sized := fun h => (List.forall_mem_cons.mp h).2
  cases hstep with
  | text | recycle | maybe => exact hsame h
  | special | openSet | openRepeat => exact hpush trivial (hsame h)
  | bar => exact hsum _ h
  | close => exact hsame (hpop h)
  | openGroup => exact hpush (by decide : 1 < 2 ^ 64) (hsame h)
  | openMultiplier => exact hpush trivial (hsum _ h)
  | multiplierEnd => exact hsum _ (hpop h)
  | setEnd | repeatEnd | repeatRangeEnd | nameEnd => exact hsame (hpop h)
  | _ => exact hpush trivial (hsame (hpop h))

theorem sum_lt_of_run {tokens : List ℕ} {g : Group} {s : Segment} {rest : List ParserState}
    (hrun : parseStates tokens parserInit.state = some (.group g s :: rest)) :
    g.multiplierSum < 2 ^ 64 := by
  have hone : 1 < 2 ^ 64 := by decide
  have hinit : ∀ s ∈ parserInit.state, s.Sized :=
    List.forall_mem_cons.mpr ⟨hone, fun _ h => absurd h List.not_mem_nil⟩
  have hsized := parseStates_invariant (P := fun state => ∀ s ∈ state, s.Sized)
    (fun t _ _ h ht => forall_sized_step (step_of_parseState ht) h) hinit hrun
  exact hsized _ List.mem_cons_self

/-! ## Reading a number -/

section Reading

variable {tokens : List ℕ} {ds es : List ℕ} (g : Group) (rest : List ParserState)

/-- **A control token is read as its character is**, whatever else the token holds. -/
theorem parseState_control {t : ℕ} {c : Char} (ht : IsControl t c) (hc : c ∈ controls)
    (s : Segment) :
    parseState t (.group g s :: rest) = parseState c.toNat (.group g s :: rest) := by
  obtain ⟨hesc, hchar⟩ := ht
  rw [parseState, parseGroup, hesc, if_neg Bool.false_ne_true, hchar]
  simp only [controls, List.mem_cons, List.not_mem_nil, or_false] at hc
  rcases hc with rfl | rfl | rfl | rfl | rfl | rfl <;> rfl

theorem parseState_control_brace {t : ℕ} (ht : IsControl t '{') (s : Segment) :
    parseState t (.group g s :: rest) = some (parseBrace g (segmentClean s) rest) :=
  parseState_control g rest ht (by decide) s

theorem parseState_control_bar {t : ℕ} (ht : IsControl t '|') (s : Segment) :
    parseState t (.group g s :: rest) = some (parseBar g (segmentClean s) rest) :=
  parseState_control g rest ht (by decide) s

/-- **The digits of a multiplier.** -/
theorem parseStates_multiplierDigits (hds : ∀ t ∈ ds, isDigit t) (s : Segment) :
    parseStates ds (.multiplier :: .group g { s with multiplier := 0 } :: rest) =
      some (.multiplier :: .group g { s with multiplier := sizeT (decimal ds) } :: rest) := by
  have hdigits := parseStates_digits
    (fun v => .multiplier :: .group g { s with multiplier := v } :: rest)
    (fun v t ht => by rw [parseState, parseMultiplier, if_neg ht.ne_close, if_pos ht]) hds 0
  rw [hdigits, foldl_pushDigit]

theorem parseStates_multiplier (hds : ∀ t ∈ ds, isDigit t) (s : Segment) :
    parseStates (ds ++ ['}'.toNat]) (.multiplier :: .group g { s with multiplier := 0 } :: rest) =
      some (.group { g with multiplierSum := sizeT (g.multiplierSum + sizeT (decimal ds)) }
        { s with multiplier := sizeT (decimal ds) } :: rest) := by
  rw [parseStates_append, parseStates_multiplierDigits _ _ hds, Option.bind_some]
  rfl

/-- The last item with other bounds. -/
def SegmentOf.withBounds (s : Segment) (rep : Repeat) : Segment :=
  s.modifyLast (Item.modifyRepeat fun _ => rep)

theorem SegmentOf.withBounds_modifyRepeat (s : Segment) (rep : Repeat) (f : Repeat → Repeat) :
    (s.withBounds rep).modifyLast (Item.modifyRepeat f) = s.withBounds (f rep) :=
  SegmentOf.modifyLast_modifyLast ..

/-- **The digits of a minimum.** -/
theorem parseStates_minimum (hds : ∀ t ∈ ds, isDigit t) (s : Segment) :
    parseStates ds (.repeat :: .group g (s.withBounds ⟨0, 0⟩) :: rest) =
      some (.repeat :: .group g (s.withBounds ⟨sizeT (decimal ds), 0⟩) :: rest) := by
  have hdigits := parseStates_digits
    (fun v => .repeat :: .group g (s.withBounds ⟨v, 0⟩) :: rest)
    (fun v t ht => by
      rw [parseState, parseRepeat, if_neg ht.ne_close, if_neg ht.ne_comma, if_pos ht,
        SegmentOf.withBounds_modifyRepeat]) hds 0
  rw [hdigits, foldl_pushDigit]

/-- **The digits of a maximum.** -/
theorem parseStates_maximum (hes : ∀ t ∈ es, isDigit t) (s : Segment) (n : ℕ) :
    parseStates (es ++ ['}'.toNat]) (.repeatRange :: .group g (s.withBounds ⟨n, 0⟩) :: rest) =
      some (.group g (s.withBounds ⟨n, sizeT (decimal es)⟩) :: rest) := by
  have hdigits := parseStates_digits
    (fun v => .repeatRange :: .group g (s.withBounds ⟨n, v⟩) :: rest)
    (fun v t ht => by
      rw [parseState, parseRepeatRange, if_neg ht.ne_close, if_pos ht,
        SegmentOf.withBounds_modifyRepeat]) hes 0
  rw [parseStates_append, hdigits, Option.bind_some, foldl_pushDigit]
  rfl

section Item

variable {g rest} {t : ℕ} (ht : IsControl t '{') {s s' : Segment}
  (hs : lastSingleItemTaint (segmentClean s) = some s')
include ht hs

/-- A brace after an item sets its bounds to zero. -/
theorem parseState_brace_item :
    parseState t (.group g s :: rest) =
      some (.repeat :: .group g (s'.withBounds ⟨0, 0⟩) :: rest) := by
  rw [parseState_control_brace _ _ ht, parseBrace, hs]
  rfl

/-- **What is stored for `{n}`.** -/
theorem parseStates_count (hds : ∀ t ∈ ds, isDigit t) :
    parseStates (t :: (ds ++ ['}'.toNat])) (.group g s :: rest) =
      some (.group g (s'.withBounds ⟨sizeT (decimal ds), sizeT (decimal ds)⟩) :: rest) := by
  rw [parseStates_cons, parseState_brace_item ht hs, Option.bind_some, parseStates_append,
    parseStates_minimum _ _ hds, Option.bind_some, parseStates_cons, parseState, parseRepeat,
    if_pos rfl, SegmentOf.withBounds_modifyRepeat]
  rfl

/-- **What is stored for `{n,m}`.** -/
theorem parseStates_range (hds : ∀ t ∈ ds, isDigit t) (hes : ∀ t ∈ es, isDigit t) :
    parseStates (t :: (ds ++ ','.toNat :: es ++ ['}'.toNat])) (.group g s :: rest) =
      some (.group g (s'.withBounds ⟨sizeT (decimal ds), sizeT (decimal es)⟩) :: rest) := by
  rw [parseStates_cons, parseState_brace_item ht hs, Option.bind_some, List.append_assoc,
    parseStates_append, parseStates_minimum _ _ hds, Option.bind_some, List.cons_append,
    parseStates_cons, parseState, parseRepeat, if_neg (by decide), if_pos rfl,
    SegmentOf.withBounds_modifyRepeat, Option.bind_some]
  exact parseStates_maximum _ _ hes s' _

end Item

end Reading

/-! ## Exact numbers -/

section Exact

variable {tokens : List ℕ} {ds es : List ℕ}

theorem Place.Leads.unique {c : Char} {p : Place tokens c} {ts : List ℕ}
    {state state' : List ParserState} (h : p.Leads ts state) (h' : p.Leads ts state') :
    state = state' := Option.some.inj (h.symm.trans h')

theorem getLast?_withBounds {s : Segment} {item : Item} (hlast : s.items.getLast? = some item)
    (rep : Repeat) :
    (s.withBounds rep).items.getLast? = some (item.modifyRepeat fun _ => rep) := by
  obtain ⟨init, hitems⟩ := List.getLast?_eq_some_iff.mp hlast
  rw [SegmentOf.withBounds, SegmentOf.modifyLast, hitems, List.modifyLast_concat,
    List.getLast?_concat]

/-- What is stored for a multiplier, and what for its group. -/
theorem Place.leads_multiplier (p : Place tokens '{') (hds : ∀ t ∈ ds, isDigit t) (h : p.First) :
    p.Leads (ds ++ ['}'.toNat])
      (.group { p.group with
          multiplierSum := sizeT (sizeSub p.group.multiplierSum 1 + sizeT (decimal ds)) }
        { segmentClean p.segment with multiplier := sizeT (decimal ds) } :: p.rest) := by
  have hnone : lastSingleItemTaint (segmentClean p.segment) = none :=
    (lastSingleItemTaint_eq_none_iff _).mpr h
  rw [Place.Leads, parseStates_cons, parseState_control_brace _ _ p.control, Option.bind_some,
    parseBrace, hnone]
  exact parseStates_multiplier _ _ hds _

/-- A brace after an item finds one alone. -/
theorem exists_lastSingleItemTaint {s : Segment} (h : s.items ≠ []) :
    ∃ (s' : Segment) (item : Item), lastSingleItemTaint s = some s' ∧
      s'.items.getLast? = some item := by
  obtain ⟨s', hs'⟩ := Option.ne_none_iff_exists'.mp (mt (lastSingleItemTaint_eq_none_iff s).mp h)
  refine ⟨s', s'.items.getLast ?_, hs', List.getLast?_eq_some_getLast _⟩
  obtain ⟨last, -, rfl⟩ := Option.map_eq_some_iff.mp hs'
  refine List.append_ne_nil_of_right_ne_nil _ ?_
  unfold singleItemTaint
  split
  · split <;> exact List.cons_ne_nil _ _
  · exact List.cons_ne_nil _ _

theorem Place.bounds_iff {p : Place tokens '{'} {ts : List ℕ} {s : Segment} {item : Item}
    {rep rep' : Repeat} (hlast : s.items.getLast? = some item)
    (h : p.Leads ts (.group p.group (s.withBounds rep') :: p.rest)) :
    p.Bounds ts rep ↔ rep' = rep := by
  constructor
  · rintro ⟨s', item', hleads, hitem', rfl⟩
    obtain ⟨hstate, -⟩ := List.cons.inj (h.unique hleads)
    obtain ⟨-, rfl⟩ := ParserState.group.inj hstate
    rw [getLast?_withBounds hlast] at hitem'
    exact congrArg Item.rep (Option.some.inj hitem')
  · rintro rfl
    exact ⟨_, _, h, getLast?_withBounds hlast _, rfl⟩

theorem Place.bounds_count_iff {p : Place tokens '{'} (hds : ∀ t ∈ ds, isDigit t) (h : ¬p.First)
    {rep : Repeat} :
    p.Bounds (ds ++ ['}'.toNat]) rep ↔ ⟨sizeT (decimal ds), sizeT (decimal ds)⟩ = rep := by
  obtain ⟨s, item, hs, hlast⟩ := exists_lastSingleItemTaint h
  exact Place.bounds_iff hlast (parseStates_count p.control hs hds)

theorem Place.bounds_range_iff {p : Place tokens '{'} (hds : ∀ t ∈ ds, isDigit t)
    (hes : ∀ t ∈ es, isDigit t) (h : ¬p.First) {rep : Repeat} :
    p.Bounds (ds ++ ','.toNat :: es ++ ['}'.toNat]) rep ↔
      ⟨sizeT (decimal ds), sizeT (decimal es)⟩ = rep := by
  obtain ⟨s, item, hs, hlast⟩ := exists_lastSingleItemTaint h
  exact Place.bounds_iff hlast (parseStates_range p.control hs hds hes)

/-- **Numbers after a brace are exact where they fit.** -/
theorem Place.exact_iff (p : Place tokens '{') : p.Exact ↔ p.Fits := by
  have hlt := sum_lt_of_run p.run
  constructor
  · intro h
    refine ⟨fun ds after hafter hds hfirst => ?_, fun ds after hafter hds hfirst => ?_,
      fun ds es after hafter hds hes hfirst => ?_⟩
    · obtain ⟨g, s, hleads, hmultiplier, hsum⟩ := h.multiplier ds after hafter hds hfirst
      obtain ⟨hstate, -⟩ := List.cons.inj ((p.leads_multiplier hds hfirst).unique hleads)
      obtain ⟨rfl, rfl⟩ := ParserState.group.inj hstate
      have hfits := sizeT_eq_iff.mp hmultiplier
      simp only [sizeSub, sizeT] at hsum
      omega
    · have hbounds := (Place.bounds_count_iff hds hfirst).mp (h.count ds after hafter hds hfirst)
      exact sizeT_eq_iff.mp (Repeat.mk.inj hbounds).1
    · have hbounds := (Place.bounds_range_iff hds hes hfirst).mp
        (h.bounds ds es after hafter hds hes hfirst)
      exact ⟨sizeT_eq_iff.mp (Repeat.mk.inj hbounds).1, sizeT_eq_iff.mp (Repeat.mk.inj hbounds).2⟩
  · intro h
    refine ⟨fun ds after hafter hds hfirst => ?_, fun ds after hafter hds hfirst => ?_,
      fun ds es after hafter hds hes hfirst => ?_⟩
    · obtain ⟨hfits, hpos, hle⟩ := h.multiplier ds after hafter hds hfirst
      refine ⟨_, _, p.leads_multiplier hds hfirst, sizeT_of_lt hfits, ?_⟩
      simp only [sizeSub, sizeT]
      omega
    · rw [Place.bounds_count_iff hds hfirst, sizeT_of_lt (h.count ds after hafter hds hfirst)]
    · obtain ⟨hmin, hmax⟩ := h.bounds ds es after hafter hds hes hfirst
      rw [Place.bounds_range_iff hds hes hfirst, sizeT_of_lt hmin, sizeT_of_lt hmax]

theorem Place.counts_iff (p : Place tokens '|') :
    p.Counts ↔ (0 < p.segment.multiplier → p.group.multiplierSum + 1 < 2 ^ 64) := by
  refine forall_congr' fun hpos => ?_
  have hbar : p.Leads [] (.group ⟨p.group.segments ++ [segmentClean p.segment],
      sizeT (p.group.multiplierSum + 1)⟩ segmentInit :: p.rest) := by
    rw [Place.Leads, parseStates_cons, parseState_control_bar _ _ p.control, Option.bind_some,
      parseBar, multiplier_clean, if_pos hpos]
    rfl
  constructor
  · rintro ⟨g, hleads, hsum⟩
    obtain ⟨hstate, -⟩ := List.cons.inj (hbar.unique hleads)
    obtain ⟨rfl, -⟩ := ParserState.group.inj hstate
    exact sizeT_eq_iff.mp hsum
  · exact fun hfits => ⟨_, hbar, sizeT_of_lt hfits⟩

end Exact

/-- **Numbers in braces are read exactly** when all of them, and all sums they enter, fit a
`size_t`. -/
theorem numbersExact_iff (string : List UInt8) :
    NumbersExact (patternTokens string) ↔ NumbersFit (patternTokens string) :=
  ⟨fun h => ⟨fun p => p.exact_iff.mp (h.braces p), fun p => p.counts_iff.mp (h.bars p)⟩,
    fun h => ⟨fun p => p.exact_iff.mpr (h.braces p), fun p => p.counts_iff.mpr (h.bars p)⟩⟩

/-- **A count past `size_t`** is accepted: `a{18446744073709551617}` is one `a`. -/
theorem not_numbersExact_wrapped :
    ¬∀ (string : List UInt8) (g : Group), parse string = .ok g →
      NumbersExact (patternTokens string) := by
  intro h
  have hparse : parse (ascii "a{18446744073709551617}") =
      .ok ⟨[⟨[.mk (.literal ⟨[97], true⟩) ⟨1, 1⟩ false], 1⟩], 1⟩ := rfl
  have htokens : patternTokens (ascii "a{18446744073709551617}") =
      [97] ++ '{'.toNat :: (numberTokens 18446744073709551617 ++ ['}'.toNat]) := by decide +kernel
  have hlt := ((Place.exact_iff ⟨[97], '{'.toNat, _, _, _, [], htokens, rfl, by decide⟩).mp
    ((h _ _ hparse).braces _)).count _ [] rfl (fun t => isDigit_of_mem_numberTokens)
    (List.cons_ne_nil _ _)
  exact absurd hlt (by decide +kernel)

end Passgen
