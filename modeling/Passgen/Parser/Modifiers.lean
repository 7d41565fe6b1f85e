import Mathlib.Data.List.Basic
import Mathlib.Tactic.Common
import Passgen.Parser.Items
import Passgen.Parser.Numbers

/-!
# Parser/Modifiers — what a modifier after an empty group binds to

    x  ──( | )──▸  x ()  ──{3}──▸  x{3}

An empty group stays at the end of its segment until the next token, which removes it before it is
read.  So a modifier after an empty group finds the item in front of the group, and changes its
bounds or its maybe flag, or takes the last character off a literal; where there is no item, it is
the multiplier of the segment.
-/

namespace Passgen

/-! ## Empty groups -/

/-- What can be written inside of a group that contains no items at any depth. -/
inductive Blank : List ℕ → Prop where
  | nil : Blank []
  | bar {ts t} (hts : Blank ts) (ht : IsControl t '|') : Blank (ts ++ [t])
  | multiplier {ts t ds} (hts : Blank ts) (ht : IsControl t '{') (hds : ∀ d ∈ ds, isDigit d) :
      Blank (ts ++ t :: ds ++ ['}'.toNat])
  | group {ts t us u} (hts : Blank ts) (ht : IsControl t '(') (hus : Blank us)
      (hu : IsControl u ')') : Blank (ts ++ t :: us ++ [u])

/-- A group that contains no items at any depth. -/
inductive EmptyGroup : List ℕ → Prop where
  | mk {t us u} (ht : IsControl t '(') (hus : Blank us) (hu : IsControl u ')') :
      EmptyGroup (t :: us ++ [u])

/-- A group under construction without items, but for an empty group to be removed. -/
def Vacant (g : Group) (s : Segment) : Prop :=
  (∀ s ∈ g.segments, s.items = []) ∧ (segmentClean s).items = []

section Vacant

variable {g : Group} {s : Segment}

theorem items_clean_of_nil (h : s.items = []) : (segmentClean s).items = [] := by
  rw [Ready.clean (.inl h), h]

theorem vacant_init : Vacant { groupInit with multiplierSum := 1 } segmentInit :=
  ⟨fun _ hs => absurd hs List.not_mem_nil, rfl⟩

theorem parseState_control_open {t : ℕ} (ht : IsControl t '(') (rest : List ParserState) :
    parseState t (.group g s :: rest) =
      some (.group { groupInit with multiplierSum := 1 } segmentInit
        :: .group g (segmentClean s) :: rest) :=
  parseState_control g rest ht (by decide) s

theorem parseState_control_close {t : ℕ} (ht : IsControl t ')') (rest : List ParserState) :
    parseState t (.group g s :: rest) = parseClose g (segmentClean s) rest :=
  parseState_control g rest ht (by decide) s

/-- **A closed group without items** has sum zero. -/
theorem Vacant.close (h : Vacant g s) {t : ℕ} (ht : IsControl t ')') (parent : Group)
    (last : Segment) (rest : List ParserState) :
    ∃ k : Group, k.multiplierSum = 0 ∧
      parseState t (.group g s :: .group parent last :: rest) =
        some (.group parent (last.push (.init (.group k))) :: rest) := by
  obtain ⟨hsegments, hlast⟩ := h
  have hkept : ∀ s' ∈ keptSegments g (segmentClean s), s'.items = [] :=
    forall_keptSegments hsegments hlast
  refine ⟨groupFinish { g with segments := keptSegments g (segmentClean s) }, ?_,
    parseState_control_close ht _⟩
  rw [groupFinish, if_pos (List.all_eq_true.mpr fun s' hs' => by rw [hkept s' hs']; rfl)]

/-- **What is written without items leaves none.** -/
theorem Blank.run {ts : List ℕ} (hts : Blank ts) (h : Vacant g s) (rest : List ParserState) :
    ∃ g' s', parseStates ts (.group g s :: rest) = some (.group g' s' :: rest) ∧ Vacant g' s' := by
  induction hts generalizing g s rest with
  | nil => exact ⟨g, s, rfl, h⟩
  | bar hts ht ih =>
    obtain ⟨g, s, hrun, hsegments, hlast⟩ := ih h rest
    rw [parseStates_append, hrun, Option.bind_some, parseStates_cons, parseState_control_bar _ _ ht,
      parseBar]
    split
    · refine ⟨_, _, rfl, List.forall_mem_append.mpr ⟨hsegments, ?_⟩, rfl⟩
      exact List.forall_mem_singleton.mpr hlast
    · exact ⟨_, _, rfl, hsegments, rfl⟩
  | multiplier hts ht hds ih =>
    obtain ⟨g, s, hrun, hsegments, hlast⟩ := ih h rest
    have hnone : lastSingleItemTaint (segmentClean s) = none :=
      (lastSingleItemTaint_eq_none_iff _).mpr hlast
    rw [List.append_assoc, parseStates_append, hrun, Option.bind_some, List.cons_append,
      parseStates_cons, parseState_control_brace _ _ ht, Option.bind_some, parseBrace, hnone]
    refine ⟨_, _, parseStates_multiplier _ _ hds _, hsegments, ?_⟩
    exact items_clean_of_nil hlast
  | group hts ht hus hu ih ih' =>
    obtain ⟨g, s, hrun, hsegments, hlast⟩ := ih h rest
    obtain ⟨g', s', hinner, hvacant⟩ := ih' vacant_init (.group g (segmentClean s) :: rest)
    obtain ⟨k, hk, hclose⟩ := hvacant.close hu g (segmentClean s) rest
    refine ⟨g, (segmentClean s).push (.init (.group k)), ?_, hsegments, ?_⟩
    · rw [List.append_assoc, parseStates_append, hrun, Option.bind_some, List.cons_append,
        parseStates_cons, parseState_control_open ht, Option.bind_some, parseStates_append, hinner,
        Option.bind_some, parseStates_cons, hclose]
      rfl
    · rw [segmentClean_push]
      simp only [Item.init, Item.data_mk, if_pos hk, hlast]

/-- **An empty group** is an item to be removed. -/
theorem EmptyGroup.run {ts : List ℕ} (hts : EmptyGroup ts) (g : Group) (s : Segment)
    (rest : List ParserState) :
    ∃ k : Group, k.multiplierSum = 0 ∧ parseStates ts (.group g s :: rest) =
      some (.group g ((segmentClean s).push (.init (.group k))) :: rest) := by
  cases hts with
  | mk ht hus hu =>
    obtain ⟨g', s', hinner, hvacant⟩ := hus.run vacant_init (.group g (segmentClean s) :: rest)
    obtain ⟨k, hk, hclose⟩ := hvacant.close hu g (segmentClean s) rest
    refine ⟨k, hk, ?_⟩
    rw [List.cons_append, parseStates_cons, parseState_control_open ht, Option.bind_some,
      parseStates_append, hinner, Option.bind_some, parseStates_cons, hclose]
    rfl

end Vacant

/-! ## Nothing else is removed -/

/-- The item is not a group to be removed. -/
def Item.Kept (item : Item) : Prop := ∀ g, item.data = .group g → g.multiplierSum ≠ 0

theorem ignoresText_kept : IgnoresText Item.Kept where
  fresh _ := fun _ hg => absurd hg (by simp [Item.init])
  other _ _ := fun _ hg => absurd hg (by simp)

theorem kept_init {data : ItemData Item} (hdata : ∀ g, data ≠ .group g) :
    (Item.init data).Kept := fun g hg => absurd hg (hdata g)

/-- The stack with the last item of the top segment removed, where it is to be. -/
def cleanTop : List ParserState → List ParserState
  | .group g s :: rest => .group g (segmentClean s) :: rest
  | state => state

/-- **Only the last item of the top segment** is ever to be removed. -/
theorem kept_step {t : ℕ} {state state' : List ParserState} (hstep : Step t state state')
    (h : AllItems Item.Kept (cleanTop state)) : AllItems Item.Kept (cleanTop state') := by
  have hwrite : ∀ {top g s rest} {f : Item → Item},
      AllItems Item.Kept (top :: .group g s :: rest) →
      (∀ item g, (f item).data = .group g → item.data = .group g) →
      AllItems Item.Kept (.group g (s.modifyLast f) :: rest) := fun h hf =>
    h.write fun item hitem g hg => hitem g (hf item g hg)
  have hpush : ∀ {top state}, (∀ P, top.Items P) → AllItems Item.Kept state →
      AllItems Item.Kept (top :: state) := fun htop h => allItems_cons_iff.mpr ⟨htop _, h⟩
  cases hstep with
  | text c => exact AllItems.clean (h.last fun hs => hs.appendChar ignoresText_kept c)
  | special kind =>
    exact hpush (fun _ => trivial) (h.last fun hs => hs.push (kept_init (by simp)))
  | bar =>
    refine AllItems.next h fun s' hs' => ?_
    rcases List.mem_append.mp hs' with hs' | hs'
    · exact .inl hs'
    · exact .inr (List.mem_singleton.mp hs')
  | recycle => exact h.last fun _ => .segmentInit
  | @close g s parent last rest =>
    refine AllItems.last h.below fun hs => ?_
    rw [segmentClean_push]
    simp only [Item.init, Item.data_mk]
    split
    · exact hs
    · rename_i hsum
      refine hs.push fun k hk => ?_
      obtain rfl := ItemData.group.inj hk
      exact hsum
  | openGroup => exact AllItems.openGroup h
  | openSet => exact hpush (fun _ => trivial) (h.last fun hs => hs.push (kept_init (by simp)))
  | openRepeat ht hs =>
    exact hpush (fun _ => trivial) (h.last fun hlast =>
      (hlast.lastSingleItemTaint ignoresText_kept hs).modifyLast_of fun _ hitem => hitem)
  | openMultiplier => exact hpush (fun _ => trivial) (AllItems.weighted h)
  | maybe ht hs =>
    exact AllItems.clean (h.last fun hlast =>
      (hlast.lastSingleItemTaint ignoresText_kept hs).modifyLast_of fun _ hitem => hitem)
  | multiplierEnd => exact AllItems.clean (AllItems.weighted h.below)
  | multiplierDigit => exact hpush (fun _ => trivial) (AllItems.weighted h.below)
  | setRange | nameOpen => exact hpush (fun _ => trivial) h.below
  | setEnd => exact AllItems.clean (hwrite h (data_modifySet _))
  | setEscaped | setPush | setExtend =>
    exact hpush (fun _ => trivial) (hwrite h (data_modifySet _))
  | repeatEnd => exact AllItems.clean (hwrite h fun _ _ hg => hg)
  | repeatComma | repeatDigit | repeatRangeDigit =>
    exact hpush (fun _ => trivial) (hwrite h fun _ _ hg => hg)
  | repeatRangeEnd | nameEnd => exact AllItems.clean h.below
  | namePush => exact hpush (fun _ => trivial) (hwrite h (data_modifySpecial _))

/-! ## Modifiers -/

/-- A modifier, as tokens that are read as one. -/
inductive Modifier where
  | count (t : ℕ) (ds : List ℕ) (ht : IsControl t '{') (hds : ∀ d ∈ ds, isDigit d)
  | bounds (t : ℕ) (ds es : List ℕ) (ht : IsControl t '{') (hds : ∀ d ∈ ds, isDigit d)
    (hes : ∀ d ∈ es, isDigit d)
  | maybe (t : ℕ) (ht : IsControl t '?')

namespace Modifier

/-- How it is written. -/
def tokens : Modifier → List ℕ
  | count t ds _ _ => t :: (ds ++ ['}'.toNat])
  | bounds t ds es _ _ _ => t :: (ds ++ ','.toNat :: es ++ ['}'.toNat])
  | maybe t _ => [t]

/-- The bounds it sets. -/
def rep? : Modifier → Option Repeat
  | count _ ds _ _ => some ⟨sizeT (decimal ds), sizeT (decimal ds)⟩
  | bounds _ ds es _ _ _ => some ⟨sizeT (decimal ds), sizeT (decimal es)⟩
  | maybe _ _ => none

/-- The number of a `{n}`. -/
def number? : Modifier → Option ℕ
  | count _ ds _ _ => some (decimal ds)
  | _ => none

/-- What it makes of the item it binds to. -/
def write (m : Modifier) (item : Item) : Item :=
  match m.rep? with
  | some rep => item.modifyRepeat fun _ => rep
  | none => .mk item.data item.rep true

end Modifier

/-- The flag that keeps characters out of a literal, taken off. -/
def Item.untaint : Item → Item
  | .mk (.literal l) rep maybe => .mk (.literal { l with tainted := false }) rep maybe
  | item => item

/-- **Only the empty group is affected**: the segment keeps its multiplier and starts with the items
it had, its group has the segments and the sum it had, and so do those it is nested in. -/
def Unaffected (g : Group) (s : Segment) (rest state : List ParserState) : Prop :=
  ∃ s', state = .group g s' :: rest ∧ s'.multiplier = s.multiplier ∧
    s.items.map Item.untaint <+: s'.items.map Item.untaint

/-- What the modifiers say is what the item says: it is no literal of several characters, its bounds
are the last ones, and it is a maybe if one of them is a question mark. -/
structure Item.Agrees (item : Item) (ms : List Modifier) : Prop where
  single : ∀ l, item.data = .literal l → l.count ≤ 1
  rep : ∀ rep ∈ (ms.filterMap Modifier.rep?).getLast?, rep = item.rep
  maybe : (∃ m ∈ ms, m.rep? = none) → item.maybe = true

/-- What the modifiers say is what the segment says: its multiplier is the last one, and all of them
add one each to the sum. -/
structure SegmentOf.Agrees (s : Segment) (ms : List Modifier) : Prop where
  multiplier : ∀ n ∈ (ms.filterMap Modifier.number?).getLast?, sizeT n = s.multiplier
  sum : sizeT (ms.filterMap Modifier.number?).sum = sizeT ms.length

/-- The modifiers change nothing where they bind. -/
def Harmless (s : Segment) (ms : List Modifier) : Prop :=
  ms = [] ∨
    match s.items.getLast? with
    | some item => item.Agrees ms
    | none => s.Agrees ms

/-! ## After an item -/

section Item

/-- The item is alone, and stays so. -/
def Item.Settled (item : Item) : Prop :=
  ∀ l, item.data = .literal l → l.count ≤ 1 ∧ l.tainted = true

theorem singleItemTaint_of_settled {item : Item} (h : item.Settled) :
    singleItemTaint item = [item] := by
  rcases item with ⟨_ | ⟨cs, tainted⟩ | _ | _, rep, maybe⟩
  · rfl
  · obtain ⟨hcount, rfl⟩ : Literal.count ⟨cs, tainted⟩ ≤ 1 ∧ tainted = true := h _ rfl
    rw [singleItemTaint, if_neg (Nat.not_lt.mpr hcount)]
    rfl
  · rfl
  · rfl

/-- What a modifier finds where `item` is: the item alone, or the last character of a literal that
is cut short. -/
inductive Item.Split (item : Item) : List Item → Item → Prop where
  | alone {x} (hsingle : ∀ l, item.data = .literal l → l.count ≤ 1)
      (hx : x.untaint = item.untaint) : Split item [] x
  | cut {short x l} (hdata : item.data = .literal l) (hlong : 1 < l.count)
      (hshort : short.untaint ≠ item.untaint) : Split item [short] x

theorem exists_split {item : Item} (hkept : item.Kept) :
    ∃ front x, singleItemTaint item = front ++ [x] ∧ item.Split front x ∧ x.Settled ∧ x.Kept := by
  rcases item with ⟨set | l | special | group, rep, maybe⟩
  · exact ⟨[], _, rfl, .alone (by simp) rfl, by simp [Item.Settled], hkept⟩
  · by_cases hlong : 1 < l.count
    · refine ⟨[_], _, if_pos hlong, .cut rfl hlong fun h => ?_, fun l' hl' => ?_, fun g hg => ?_⟩
      · have hcs : l.codepoints.dropLast = l.codepoints := by simpa [Item.untaint] using h
        have hlen := congrArg List.length hcs
        rw [List.length_dropLast] at hlen
        rw [Literal.count] at hlong
        omega
      · obtain rfl := ItemData.literal.inj hl'
        refine ⟨?_, rfl⟩
        simp only [literalTaint, Literal.count]
        cases l.codepoints.getLast? <;> simp
      · exact absurd hg (by simp [Item.init])
    · refine ⟨[], _, if_neg hlong, .alone ?_ rfl, fun l' hl' => ?_, fun g hg => ?_⟩
      · rintro l' ⟨⟩
        exact Nat.not_lt.mp hlong
      · obtain rfl := ItemData.literal.inj hl'
        exact ⟨Nat.not_lt.mp hlong, rfl⟩
      · exact absurd hg (by simp)
  · exact ⟨[], _, rfl, .alone (by simp) rfl, by simp [Item.Settled], hkept⟩
  · exact ⟨[], _, rfl, .alone (by simp) rfl, by simp [Item.Settled], hkept⟩

theorem data_write (m : Modifier) (item : Item) : (m.write item).data = item.data := by
  rw [Modifier.write]
  split <;> rfl

variable {g : Group} {rest : List ParserState} {init front : List Item} {item x : Item}
  {s : Segment}

theorem parseState_control_maybe {t : ℕ} (ht : IsControl t '?') :
    parseState t (.group g s :: rest) = parseMaybe g (segmentClean s) rest :=
  parseState_control g rest ht (by decide) s

theorem clean_concat (hkept : x.Kept) (n : ℕ) :
    segmentClean ⟨init ++ [x], n⟩ = ⟨init ++ [x], n⟩ := by
  have hpush := segmentClean_push ⟨init, n⟩ x
  rcases x with ⟨_ | _ | _ | k, rep, maybe⟩
  · exact hpush
  · exact hpush
  · exact hpush
  · exact hpush.trans (if_neg (hkept k rfl))

/-- **A modifier after an item.** -/
theorem parseStates_modifier (m : Modifier) (hs : (segmentClean s).items = init ++ [item])
    (hsplit : singleItemTaint item = front ++ [x]) :
    parseStates m.tokens (.group g s :: rest) =
      some (.group g ⟨init ++ front ++ [m.write x], s.multiplier⟩ :: rest) := by
  have htaint : lastSingleItemTaint (segmentClean s) =
      some ⟨init ++ front ++ [x], s.multiplier⟩ := by
    rw [lastSingleItemTaint, hs, List.getLast?_concat, List.dropLast_concat, Option.map_some,
      hsplit, List.append_assoc, multiplier_clean]
  have hwrite : ∀ rep, SegmentOf.withBounds ⟨init ++ front ++ [x], s.multiplier⟩ rep =
      ⟨init ++ front ++ [x.modifyRepeat fun _ => rep], s.multiplier⟩ := fun rep =>
    SegmentOf.modifyLast_concat ..
  cases m with
  | count t ds ht hds =>
    rw [Modifier.tokens, parseStates_count ht htaint hds, hwrite]
    rfl
  | bounds t ds es ht hds hes =>
    rw [Modifier.tokens, parseStates_range ht htaint hds hes, hwrite]
    rfl
  | maybe t ht =>
    rw [Modifier.tokens, parseStates_cons, parseState_control_maybe ht, parseMaybe, htaint,
      Option.map_some, SegmentOf.modifyLast_concat]
    rfl

/-- **Modifiers after an item that is alone.** -/
theorem parseStates_modifiers (hx : x.Settled) (hkept : x.Kept) (ms : List Modifier) (n : ℕ) :
    parseStates (ms.flatMap Modifier.tokens) (.group g ⟨init ++ [x], n⟩ :: rest) =
      some (.group g ⟨init ++ [ms.foldl (fun item m => m.write item) x], n⟩ :: rest) := by
  induction ms generalizing x with
  | nil => rfl
  | cons m ms ih =>
    have hclean : (segmentClean ⟨init ++ [x], n⟩).items = init ++ [x] :=
      congrArg SegmentOf.items (clean_concat hkept n)
    have hsplit : singleItemTaint x = [] ++ [x] := singleItemTaint_of_settled hx
    rw [List.flatMap_cons, parseStates_append, parseStates_modifier m hclean hsplit,
      Option.bind_some, List.append_nil, ih, List.foldl_cons]
    · exact fun l hl => hx l (data_write m x ▸ hl)
    · exact fun k hk => hkept k (data_write m x ▸ hk)

/-! ## What modifiers write -/

theorem rep_foldl_write (ms : List Modifier) (x : Item) :
    (ms.foldl (fun item m => m.write item) x).rep =
      (ms.filterMap Modifier.rep?).getLast?.getD x.rep := by
  induction ms using List.reverseRecOn with
  | nil => rfl
  | append_singleton ms m ih =>
    rw [List.foldl_concat, List.filterMap_append, Modifier.write]
    cases hrep : m.rep? with
    | none => simpa [hrep] using ih
    | some rep => simp [hrep, Item.modifyRepeat]

theorem maybe_foldl_write (ms : List Modifier) (x : Item) :
    (ms.foldl (fun item m => m.write item) x).maybe = true ↔
      x.maybe = true ∨ ∃ m ∈ ms, m.rep? = none := by
  induction ms using List.reverseRecOn with
  | nil => simp
  | append_singleton ms m ih =>
    rw [List.foldl_concat, Modifier.write]
    cases hrep : m.rep? with
    | none => simp [hrep]
    | some rep => simpa [hrep, Item.modifyRepeat, or_and_right, exists_or] using ih

theorem data_foldl_write (ms : List Modifier) (x : Item) :
    (ms.foldl (fun item m => m.write item) x).data = x.data := by
  induction ms generalizing x with
  | nil => rfl
  | cons m ms ih => rw [List.foldl_cons, ih, data_write]

theorem rep_untaint (item : Item) : item.untaint.rep = item.rep := by
  rcases item with ⟨_ | _ | _ | _, rep, maybe⟩ <;> rfl

theorem maybe_untaint (item : Item) : item.untaint.maybe = item.maybe := by
  rcases item with ⟨_ | _ | _ | _, rep, maybe⟩ <;> rfl

theorem untaint_eq_iff {y : Item} (hdata : y.data = x.data) :
    x.untaint = y.untaint ↔ x.rep = y.rep ∧ x.maybe = y.maybe := by
  constructor
  · intro h
    have hrep := congrArg Item.rep h
    have hmaybe := congrArg Item.maybe h
    rw [rep_untaint, rep_untaint] at hrep
    rw [maybe_untaint, maybe_untaint] at hmaybe
    exact ⟨hrep, hmaybe⟩
  · rcases x with ⟨d, rep, maybe⟩
    rcases y with ⟨d', rep', maybe'⟩
    obtain rfl : d' = d := hdata
    rintro ⟨rfl, rfl⟩
    rfl

/-- **What modifiers after an item say.** -/
theorem agrees_iff {y : Item} {ms : List Modifier} (hsplit : item.Split front x)
    (hy : y = ms.foldl (fun item m => m.write item) x) :
    [item].map Item.untaint <+: (front ++ [y]).map Item.untaint ↔ item.Agrees ms := by
  cases hsplit with
  | cut hdata hlong hshort =>
    refine iff_of_false (fun h => ?_) fun h => absurd (h.single _ hdata) (Nat.not_le.mpr hlong)
    exact hshort (List.cons_prefix_cons.mp h).1.symm
  | alone hsingle hx =>
    have hrep : x.rep = item.rep := by rw [← rep_untaint, hx, rep_untaint]
    have hmaybe : x.maybe = item.maybe := by rw [← maybe_untaint, hx, maybe_untaint]
    have hwrites := rep_foldl_write ms x
    have hflag := maybe_foldl_write ms x
    rw [← hy] at hwrites hflag
    have hdata : y.data = x.data := hy ▸ data_foldl_write ms x
    have hmap : [item].map Item.untaint <+: ([] ++ [y]).map Item.untaint ↔
        x.untaint = y.untaint := by
      rw [hx]
      exact List.cons_prefix_cons.trans (and_iff_left List.nil_prefix)
    rw [hmap, untaint_eq_iff hdata, hwrites]
    constructor
    · rintro ⟨hrep', hmaybe'⟩
      refine ⟨hsingle, fun rep h => ?_, fun h => ?_⟩
      · rw [Option.mem_def.mp h, Option.getD_some] at hrep'
        rw [← hrep', hrep]
      · rw [← hmaybe, hmaybe']
        exact hflag.mpr (.inr h)
    · rintro ⟨-, hlast, hany⟩
      refine ⟨?_, Bool.eq_iff_iff.mpr (hflag.trans ⟨?_, .inl⟩).symm⟩
      · cases h : (ms.filterMap Modifier.rep?).getLast? with
        | none => rfl
        | some rep => rw [Option.getD_some, hlast rep h, hrep]
      · rintro (h | h)
        · exact h
        · rw [hmaybe]
          exact hany h

end Item

/-! ## Where there is no item -/

section Numbers

variable {g : Group} {rest state : List ParserState} {s : Segment}

/-- A modifier where there is no item is a multiplier. -/
theorem number_of_run {m : Modifier} (hs : (segmentClean s).items = [])
    (hrun : parseStates m.tokens (.group g s :: rest) = some state) :
    ∃ n, m.number? = some n ∧
      state = .group { g with multiplierSum := sizeT (sizeSub g.multiplierSum 1 + sizeT n) }
        ⟨[], sizeT n⟩ :: rest := by
  have hnone : lastSingleItemTaint (segmentClean s) = none :=
    (lastSingleItemTaint_eq_none_iff _).mpr hs
  have hbrace : ∀ {t ts}, IsControl t '{' → parseStates (t :: ts) (.group g s :: rest) =
      parseStates ts (.multiplier
        :: .group { g with multiplierSum := sizeSub g.multiplierSum 1 } ⟨[], 0⟩ :: rest) :=
    fun ht => by
      rw [parseStates_cons, parseState_control_brace _ _ ht, Option.bind_some, parseBrace, hnone]
      simp only [hs]
  cases m with
  | count t ds ht hds =>
    refine ⟨decimal ds, rfl, ?_⟩
    rw [Modifier.tokens, hbrace ht] at hrun
    exact (Option.some.inj ((parseStates_multiplier _ _ hds ⟨[], 0⟩).symm.trans hrun)).symm
  | bounds t ds es ht hds hes =>
    have hdigits := parseStates_multiplierDigits
      { g with multiplierSum := sizeSub g.multiplierSum 1 } rest hds ⟨[], 0⟩
    rw [Modifier.tokens, hbrace ht, List.append_assoc, parseStates_append, hdigits] at hrun
    exact absurd hrun (by simp [parseStates_cons, parseState, parseMultiplier, isDigit])
  | maybe t ht =>
    rw [Modifier.tokens, parseStates_cons, parseState_control_maybe ht, parseMaybe, hnone] at hrun
    exact absurd hrun (by simp)

/-- **Modifiers where there is no item**: the last number is the multiplier, and each adds what it
says, and takes one back. -/
theorem numbers_of_run {ms : List Modifier} (hlt : g.multiplierSum < 2 ^ 64)
    (hs : (segmentClean s).items = [])
    (hrun : parseStates (ms.flatMap Modifier.tokens) (.group g s :: rest) = some state) :
    ∃ s', state = .group { g with multiplierSum := sizeT (g.multiplierSum
          + ms.length * (2 ^ 64 - 1) + (ms.filterMap Modifier.number?).sum) } s' :: rest ∧
      s'.multiplier =
        ((ms.filterMap Modifier.number?).getLast?.map sizeT).getD s.multiplier := by
  induction ms generalizing g s with
  | nil =>
    obtain rfl := Option.some.inj hrun
    refine ⟨s, ?_, rfl⟩
    simp [sizeT_of_lt hlt]
  | cons m ms ih =>
    rw [List.flatMap_cons, parseStates_append, Option.bind_eq_some_iff] at hrun
    obtain ⟨next, hm, hms⟩ := hrun
    obtain ⟨n, hn, rfl⟩ := number_of_run hs hm
    obtain ⟨s', rfl, hmultiplier⟩ := ih (sizeT_lt _) rfl hms
    refine ⟨s', ?_, ?_⟩
    · congr 3
      simp only [List.filterMap_cons, hn, List.sum_cons, List.length_cons, sizeT, sizeSub]
      omega
    · rw [hmultiplier, List.filterMap_cons, hn, List.getLast?_cons]
      cases (ms.filterMap Modifier.number?).getLast? <;> rfl

end Numbers

/-! ## Main theorem -/

/-- In every state of a run, only the last item of the top segment is to be removed. -/
theorem kept_of_run {tokens : List ℕ} {g : Group} {s : Segment} {rest : List ParserState}
    (hrun : parseStates tokens parserInit.state = some (.group g s :: rest)) :
    (segmentClean s).All Item.Kept := by
  have hkept := parseStates_invariant (P := fun state => AllItems Item.Kept (cleanTop state))
    (fun t _ _ h ht => kept_step (step_of_parseState ht) h) allItems_parserInit hrun
  exact (allItems_cons_iff.mp hkept).1.2

theorem unaffected_group_iff {g g' : Group} {s s' : Segment} {rest : List ParserState} :
    Unaffected g s rest (.group g' s' :: rest) ↔
      g' = g ∧ s'.multiplier = s.multiplier ∧
        s.items.map Item.untaint <+: s'.items.map Item.untaint := by
  constructor
  · rintro ⟨t, hstate, hmultiplier, hitems⟩
    obtain ⟨rfl, rfl⟩ := ParserState.group.inj (List.cons.inj hstate).1
    exact ⟨rfl, hmultiplier, hitems⟩
  · rintro ⟨rfl, hmultiplier, hitems⟩
    exact ⟨s', rfl, hmultiplier, hitems⟩

section Main

variable {g : Group} {s s₀ : Segment} {rest state : List ParserState} {m : Modifier}
  {ms : List Modifier}

/-- Modifiers that bind to an item. -/
theorem unaffected_item_iff {init : List Item} {item : Item} (hclean : segmentClean s = s₀)
    (hitems : s₀.items = init ++ [item]) (hitem : item.Kept)
    (hrun : parseStates ((m :: ms).flatMap Modifier.tokens) (.group g s :: rest) = some state) :
    Unaffected g s₀ rest state ↔ item.Agrees (m :: ms) := by
  obtain ⟨front, x, hsplit, hcases, hsettled, hkept⟩ := exists_split hitem
  have hmodifier : parseStates m.tokens (.group g s :: rest) =
      some (.group g ⟨init ++ front ++ [m.write x], s.multiplier⟩ :: rest) :=
    parseStates_modifier m ((congrArg SegmentOf.items hclean).trans hitems) hsplit
  rw [List.flatMap_cons, parseStates_append, hmodifier, Option.bind_some,
    parseStates_modifiers (fun l hl => hsettled l (data_write m x ▸ hl))
      (fun k hk => hkept k (data_write m x ▸ hk))] at hrun
  obtain rfl := Option.some.inj hrun
  rw [unaffected_group_iff, and_iff_right rfl, and_iff_right (hclean ▸ (multiplier_clean s).symm),
    ← agrees_iff hcases rfl, hitems, List.append_assoc, List.map_append, List.map_append,
    List.prefix_append_right_inj, List.foldl_cons]

/-- Modifiers that are multipliers. -/
theorem unaffected_numbers_iff (hlt : g.multiplierSum < 2 ^ 64) (hclean : segmentClean s = s₀)
    (hitems : s₀.items = [])
    (hrun : parseStates ((m :: ms).flatMap Modifier.tokens) (.group g s :: rest) = some state) :
    Unaffected g s₀ rest state ↔ s₀.Agrees (m :: ms) := by
  obtain ⟨s', rfl, hmultiplier⟩ :=
    numbers_of_run hlt ((congrArg SegmentOf.items hclean).trans hitems) hrun
  have hsame : s.multiplier = s₀.multiplier := hclean ▸ (multiplier_clean s).symm
  rw [unaffected_group_iff, hitems, hmultiplier, hsame]
  have hsum : (⟨g.segments, sizeT (g.multiplierSum + (m :: ms).length * (2 ^ 64 - 1)
        + ((m :: ms).filterMap Modifier.number?).sum)⟩ : Group) = g ↔
      sizeT ((m :: ms).filterMap Modifier.number?).sum = sizeT (m :: ms).length := by
    rcases g with ⟨segments, sum⟩
    simp only [GroupOf.mk.injEq, true_and, sizeT] at hlt ⊢
    omega
  rw [hsum]
  constructor
  · rintro ⟨hsum, hlast, -⟩
    refine ⟨fun n hn => ?_, hsum⟩
    rw [Option.mem_def.mp hn] at hlast
    exact hlast
  · rintro ⟨hlast, hsum⟩
    refine ⟨hsum, ?_, List.nil_prefix⟩
    cases hn : ((m :: ms).filterMap Modifier.number?).getLast? with
    | none => rfl
    | some n => exact hlast n hn

/-- **Modifiers after an empty group** leave everything in front of it as it was exactly when they
say what is there already. -/
theorem unaffected_iff {before empty : List ℕ}
    (hbefore : parseStates before parserInit.state = some (.group g s :: rest))
    (hempty : EmptyGroup empty)
    (hrun : parseStates (before ++ empty ++ ms.flatMap Modifier.tokens) parserInit.state =
      some state) :
    Unaffected g (segmentClean s) rest state ↔ Harmless (segmentClean s) ms := by
  have hkept := kept_of_run hbefore
  obtain ⟨k, hk, hgroup⟩ := hempty.run g s rest
  rw [parseStates_append, parseStates_append, hbefore, Option.bind_some, hgroup,
    Option.bind_some] at hrun
  have hclean : segmentClean ((segmentClean s).push (.init (.group k))) = segmentClean s := by
    rw [segmentClean_push]
    simp only [Item.init, Item.data_mk, if_pos hk]
  cases ms with
  | nil =>
    obtain rfl := Option.some.inj hrun
    refine iff_of_true (unaffected_group_iff.mpr ⟨rfl, rfl, ?_⟩) (.inl rfl)
    rw [SegmentOf.push, List.map_append]
    exact List.prefix_append _ _
  | cons m ms =>
    rw [Harmless, or_iff_right (List.cons_ne_nil _ _)]
    rcases List.eq_nil_or_concat (segmentClean s).items with hnil | ⟨init, item, hitems⟩
    · rw [unaffected_numbers_iff (sum_lt_of_run hbefore) hclean hnil hrun, hnil]
      rfl
    · rw [List.concat_eq_append] at hitems
      have hitem : item.Kept :=
        hkept item (hitems ▸ List.mem_append_right _ (List.mem_singleton_self _))
      rw [unaffected_item_iff hclean hitems hitem hrun, hitems, List.getLast?_concat]

end Main

/-- The modifier `{d}`. -/
def digitCount (d : ℕ) (hd : isDigit d) : Modifier :=
  .count '{'.toNat [d] (by decide) (by simpa using hd)

theorem emptyGroup_parens : EmptyGroup ['('.toNat, ')'.toNat] :=
  .mk (by decide) .nil (by decide)

/-- The state after `a`, which has the bounds `rep`. -/
def afterLetter (tainted : Bool) (rep : Repeat) : List ParserState :=
  [.group ⟨[], 1⟩ ⟨[.mk (.literal ⟨[97], tainted⟩) rep false], 1⟩]

/-- `a(){1}` -/
theorem unaffected_once :
    Unaffected ⟨[], 1⟩ ⟨[.mk (.literal ⟨[97], false⟩) ⟨1, 1⟩ false], 1⟩ []
      (afterLetter true ⟨1, 1⟩) := by
  have hbefore : parseStates [97] parserInit.state = some (afterLetter false ⟨1, 1⟩) := rfl
  have hrun : parseStates ([97] ++ ['('.toNat, ')'.toNat]
      ++ [digitCount '1'.toNat (by decide)].flatMap Modifier.tokens) parserInit.state =
      some (afterLetter true ⟨1, 1⟩) := rfl
  refine (unaffected_iff hbefore emptyGroup_parens hrun).mpr (.inr ⟨?_, ?_, ?_⟩)
  · rintro l ⟨⟩
    exact le_rfl
  · rintro rep ⟨⟩
    rfl
  · rintro ⟨m, hm, hmaybe⟩
    obtain rfl := List.mem_singleton.mp hm
    exact absurd hmaybe (by simp [digitCount, Modifier.rep?])

/-- **`a(){3}` is three times `a`.** -/
theorem not_unaffected_tripled :
    ¬∀ (before empty : List ℕ) (ms : List Modifier) (g : Group) (s : Segment)
      (rest state : List ParserState),
      parseStates before parserInit.state = some (.group g s :: rest) → EmptyGroup empty →
      parseStates (before ++ empty ++ ms.flatMap Modifier.tokens) parserInit.state = some state →
      Unaffected g (segmentClean s) rest state := by
  intro h
  have hrun : parseStates ([97] ++ ['('.toNat, ')'.toNat]
      ++ [digitCount '3'.toNat (by decide)].flatMap Modifier.tokens) parserInit.state =
      some (afterLetter true ⟨3, 3⟩) := rfl
  have hprefix := (unaffected_group_iff.mp (h [97] _ _ _ _ _ _ rfl emptyGroup_parens hrun)).2.2
  have hitem := (List.cons_prefix_cons.mp hprefix).1
  exact absurd (congrArg Item.rep hitem) (by decide)

end Passgen
