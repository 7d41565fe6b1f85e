import Mathlib
import Passgen.Generate.Fill
import Passgen.Generate.Language
import Passgen.Regex.Extent

/-!
# Generate/Extent — how large a buffer has to be

    literal ▸ its codepoints     set ▸ its longest     item ▸ max · data
    segment ▸ sum                group ▸ its longest

A fill function gives up where the next encoding does not fit, and says so only by returning zero.
The longest word of a pattern can be told from the pattern, item by item, and a buffer is never too
small exactly when it is as long as that (`fills_whole_iff`).  A codepoint without an encoding is
longer than any buffer.
-/

namespace Passgen

open Regex (Extent cost)

/-! ## The extent of a pattern -/

section Extent

variable {M : Type} [AddCommMonoid M] [LinearOrder M]

/-- The greatest weight of a codepoint of the ranges. -/
def setExtent (weight : ℕ → M) (set : PatternSet) : M :=
  ((set.items.flatMap fun range => List.range' range.start range.size).map weight).foldr max 0

/-- The greatest of the segments that can be chosen. -/
def groupExtent (group : GroupOf M) : M :=
  ((group.segments.filter (0 < ·.multiplier)).map fun segment => segment.items.sum).foldr max 0

def dataExtent (weight : ℕ → M) : ItemData M → M
  | .set set => setExtent weight set
  | .literal literal => cost weight literal.codepoints
  | .special _ => 0
  | .group group => groupExtent group

/-- The greatest weight of what an item emits. -/
def Item.extent (weight : ℕ → M) (item : Item) : M :=
  item.fold fun data rep _ => rep.max • dataExtent weight data

/-- The greatest weight of a word of the pattern. -/
def Group.extent (weight : ℕ → M) (pattern : Group) : M :=
  groupExtent (pattern.map (Item.extent weight))

variable {weight : ℕ → M}

theorem Item.extent_mk (data : ItemData Item) (rep : Repeat) (maybe : Bool) :
    (Item.mk data rep maybe).extent weight
      = rep.max • dataExtent weight (data.map (Item.extent weight)) :=
  Item.fold_mk _ data rep maybe

/-- A set that is not empty denotes its codepoints. -/
theorem setLanguage_of_ne_nil {set : PatternSet} (hset : set.Valid) (hnil : set.items ≠ []) :
    setLanguage set = {w | ∃ c ∈ set.items.flatMap fun range =>
      List.range' range.start range.size, w ∈ ({[c]} : Language ℕ)} := by
  ext w
  simp only [setLanguage, hnil, false_and, false_or, List.mem_flatMap, List.mem_range'_1,
    Range.size]
  constructor
  · rintro ⟨range, hrange, c, hstart, hstop, rfl⟩
    exact ⟨c, ⟨range, hrange, hstart, by omega⟩, rfl⟩
  · rintro ⟨c, ⟨range, hrange, hstart, hlt⟩, hw⟩
    have hle := (hset.ranges range hrange).1
    exact ⟨range, hrange, c, hstart, by omega, hw⟩

variable [CanonicallyOrderedAdd M]

/-- **The longest of the codepoints**, or nothing where there is none. -/
theorem extent_set {set : PatternSet} (hset : set.Valid) :
    Extent weight (setLanguage set) (setExtent weight set) := by
  by_cases hnil : set.items = []
  · have hlanguage : setLanguage set = 1 := by
      ext w
      refine Iff.trans ?_ (Language.mem_one w).symm
      change (set.items = [] ∧ w = []) ∨ _ ↔ _
      simp [hnil]
    rw [hlanguage, setExtent, hnil]
    exact Regex.extent_one
  · obtain ⟨range, hrange⟩ := List.exists_mem_of_ne_nil _ hnil
    have hne : (set.items.flatMap fun range => List.range' range.start range.size) ≠ [] :=
      List.ne_nil_of_mem (List.mem_flatMap.mpr
        ⟨range, hrange, List.mem_range'_1.mpr ⟨le_rfl, by rw [Range.size]; omega⟩⟩)
    rw [setLanguage_of_ne_nil hset hnil]
    refine Regex.extent_any hne fun c _ => ?_
    have hsingle : Extent weight {[c]} (cost weight [c]) := Regex.extent_singleton [c]
    rwa [cost, List.map_singleton, List.sum_singleton] at hsingle

/-- A group with a positive sum has a segment that can be chosen. -/
theorem exists_pos_multiplier {ι : Type} {segments : List (SegmentOf ι)}
    (h : 0 < totalMultiplier segments) : ∃ segment ∈ segments, 0 < segment.multiplier := by
  by_contra hnone
  refine absurd h (Nat.not_lt.mpr (Nat.le_zero.mpr (List.sum_eq_zero fun n hn => ?_)))
  obtain ⟨segment, hsegment, rfl⟩ := List.mem_map.mp hn
  exact Nat.eq_zero_of_not_pos fun hpos => hnone ⟨segment, hsegment, hpos⟩

variable [IsOrderedAddMonoid M]

/-- **The longest of the segments.** -/
theorem extent_group {group : Group} (hpos : 0 < totalMultiplier group.segments)
    (h : ∀ segment ∈ group.segments, ∀ item ∈ segment.items,
      Extent weight item.language (item.extent weight)) :
    Extent weight (groupLanguage (group.map Item.language))
      (groupExtent (group.map (Item.extent weight))) := by
  have hlanguage : groupLanguage (group.map Item.language)
      = {w | ∃ segment ∈ group.segments.filter (0 < ·.multiplier),
          w ∈ (segment.items.map Item.language).prod} := by
    ext w
    simp only [groupLanguage, GroupOf.segments_map, List.mem_map, List.mem_filter,
      decide_eq_true_eq]
    constructor
    · rintro ⟨_, ⟨segment, hsegment, rfl⟩, hmultiplier, hw⟩
      exact ⟨segment, ⟨hsegment, hmultiplier⟩, hw⟩
    · rintro ⟨segment, ⟨hsegment, hmultiplier⟩, hw⟩
      exact ⟨_, ⟨segment, hsegment, rfl⟩, hmultiplier, hw⟩
  have hextent : groupExtent (group.map (Item.extent weight))
      = ((group.segments.filter (0 < ·.multiplier)).map fun segment =>
          (segment.items.map (Item.extent weight)).sum).foldr max 0 := by
    rw [groupExtent, GroupOf.segments_map, List.filter_map, List.map_map]
    rfl
  obtain ⟨segment, hsegment, hmultiplier⟩ := exists_pos_multiplier hpos
  have hne : group.segments.filter (0 < ·.multiplier) ≠ [] :=
    List.ne_nil_of_mem (List.mem_filter.mpr ⟨hsegment, decide_eq_true hmultiplier⟩)
  rw [hlanguage, hextent]
  exact Regex.extent_any hne fun segment hsegment =>
    Regex.extent_prod (h segment (List.mem_of_mem_filter hsegment))

/-- **The longest of an item**, by induction on it. -/
theorem extent_item (item : Item) (hitem : item.Valid) :
    Extent weight item.language (item.extent weight) := by
  induction item using Item.induct with
  | mk data rep maybe ih =>
    obtain ⟨hdata, hrep⟩ := Item.valid_mk.mp hitem
    have hcopy : Extent weight (dataLanguage (data.map Item.language))
        (dataExtent weight (data.map (Item.extent weight))) := by
      cases data with
      | set set => exact extent_set hdata
      | literal literal => exact Regex.extent_singleton _
      | special special => exact hdata.elim
      | group group =>
        have hgroup : Group.Valid group := hdata
        exact extent_group hgroup.total_pos fun segment hs item hi =>
          ih segment hs item hi (hgroup.item hs hi)
    rw [Item.language_mk, Item.extent_mk]
    exact (hcopy.between hrep.le).optional _

/-- **The extent of a pattern is that of its language.** -/
theorem extent_language {pattern : Group} (hpattern : pattern.Valid) :
    Extent weight pattern.language (pattern.extent weight) :=
  extent_group hpattern.total_pos fun _ hs item hi => extent_item item (hpattern.item hs hi)

end Extent

/-! ## The room an encoding takes -/

section Fill

variable {α : Type} {enc : ℕ → Option (List α)} {func : Fillpos α → ℕ → ℤ × Fillpos α}
  {pattern : Group}

/-- The length of the encoding; what has none is longer than anything. -/
def encodedLength (enc : ℕ → Option (List α)) (c : ℕ) : ℕ∞ :=
  (enc c).elim ⊤ fun w => (w.length : ℕ∞)

theorem cost_encodedLength (enc : ℕ → Option (List α)) (cs : List ℕ) :
    cost (encodedLength enc) cs = (encodeAll enc cs).elim ⊤ fun w => (w.length : ℕ∞) := by
  induction cs with
  | nil => rfl
  | cons c cs ih =>
    have hcons : cost (encodedLength enc) (c :: cs)
        = encodedLength enc c + cost (encodedLength enc) cs := by
      rw [cost, List.map_cons, List.sum_cons, ← cost]
    rw [hcons, ih, encodedLength, encodeAll]
    cases enc c with
    | none => exact top_add _
    | some v =>
      cases encodeAll enc cs with
      | none => exact add_top _
      | some w => simp

/-- **What fits** is encoded, and no longer than the room there is. -/
theorem cost_le_iff {cs : List ℕ} {len : ℕ} :
    cost (encodedLength enc) cs ≤ len ↔ ∃ w, encodeAll enc cs = some w ∧ w.length ≤ len := by
  rw [cost_encodedLength]
  cases encodeAll enc cs with
  | none => simp
  | some w => simp

/-- Whatever is generated is filled in whole: every run that returns with a sink that is never full
is replayed into the buffer, with its whole encoding. -/
def FillsWhole (func : Fillpos α → ℕ → ℤ × Fillpos α) (enc : ℕ → Option (List α))
    (pattern : Group) (dest : Dest α) : Prop :=
  ∀ {σ : Type} (source : Source σ) (env : Env σ) (entropy : Bool) (u : GenState σ Unit),
    Effect.Returns (generate ⟨source, anySink⟩ pattern) (env.start () entropy) () u →
      ∃ n t w, generateFill func source pattern env entropy dest = some (n, t) ∧
        Yields source pattern env entropy enc dest.len u w ∧ Filled env n t u w

/-- A run with an encoding that fits is filled in. -/
theorem Writes.fills (hfunc : Writes func enc) {σ : Type} {source : Source σ} {env : Env σ}
    {entropy : Bool} {dest : Dest α} {u : GenState σ Unit} {w : List α}
    (h : Yields source pattern env entropy enc dest.len u w) :
    ∃ n t, generateFill func source pattern env entropy dest = some (n, t) ∧
      Filled env n t u w := by
  obtain ⟨t, hrun, -⟩ := generateFill_of_returns h.returns func entropy dest
  rcases generateFill_cases hfunc hrun with ⟨u', w', hyields, hfilled⟩ | ⟨-, hnone⟩
  · obtain rfl : u = u' := (EStateM.Result.ok.inj (h.returns.symm.trans hyields.returns)).2
    obtain rfl := Option.some.inj (h.encodes.symm.trans hyields.encodes)
    exact ⟨_, t, hrun, hfilled⟩
  · exact absurd h (hnone u w)

/-- **A buffer is never too small exactly when it has room for the extent.** -/
theorem Writes.fillsWhole_iff (hfunc : Writes func enc) (hpattern : pattern.Valid)
    (dest : Dest α) :
    FillsWhole func enc pattern dest ↔ pattern.extent (encodedLength enc) ≤ dest.len := by
  have hextent : Extent (encodedLength enc) pattern.language _ := extent_language hpattern
  constructor
  · intro h
    obtain ⟨w, hw, hcost⟩ := hextent.1
    have hitems : ∀ segment ∈ pattern.segments, ∀ item ∈ segment.items, ∀ w ∈ item.language,
        Produces (item.generate ⟨drawSource, anySink⟩) item.depth 0 w :=
      fun segment hs item hi w hw => produces_item (fun _ _ => rfl) item (hpattern.item hs hi) hw
    obtain ⟨draws, hdraws⟩ := produces_generateGroup hpattern hitems hw
    obtain ⟨u, hreturns, -, -, hemitted⟩ := hdraws []
      (Env.start ⟨draws, pattern.depth, []⟩ () false) (List.append_nil _).symm le_rfl
    obtain ⟨n, t, v, -, hyields, -⟩ := h drawSource ⟨draws, pattern.depth, []⟩ false u hreturns
    have hword : u.emitted = w := hemitted
    rw [← hcost, ← hword]
    exact cost_le_iff.mpr ⟨v, hyields.encodes, hyields.fits⟩
  · intro hle σ source env entropy u hreturns
    obtain ⟨w, hw, hemitted⟩ := emits_generateGroup
      (fun segment hs item hi => emits_item item (hpattern.item hs hi)) _ u hreturns
    have hword : u.emitted = w := hemitted
    obtain ⟨v, hencodes, hfits⟩ := cost_le_iff.mp ((hextent.le hw).trans hle)
    have hyields : Yields source pattern env entropy enc dest.len u v :=
      ⟨hreturns, hword ▸ hencodes, hfits⟩
    obtain ⟨n, t, hrun, hfilled⟩ := hfunc.fills hyields
    exact ⟨n, t, v, hrun, hyields, hfilled⟩

end Fill

/-- **How large a buffer has to be**, for codepoints, for bytes and for bytes between quotes: it
never is too small for what the pattern generates exactly when it has room for the extent. -/
theorem fills_whole_iff {pattern : Group} (hpattern : pattern.Valid) (units : Dest ℕ)
    (bytes : Dest UInt8) :
    (FillsWhole writeBuffer (fun c => some [c]) pattern units ↔
        pattern.extent (encodedLength fun c => some [c]) ≤ units.len) ∧
      (FillsWhole writeBufferUtf8 utf8EncodeCodepoint pattern bytes ↔
        pattern.extent (encodedLength utf8EncodeCodepoint) ≤ bytes.len) ∧
      (FillsWhole writeBufferJsonUtf8 jsonEscape pattern bytes ↔
        pattern.extent (encodedLength jsonEscape) ≤ bytes.len) :=
  ⟨writes_writeBuffer.fillsWhole_iff hpattern units,
    writes_writeBufferUtf8.fillsWhole_iff hpattern bytes,
    writes_writeBufferJsonUtf8.fillsWhole_iff hpattern bytes⟩

example : digitPattern.extent (fun _ => 1) = 3 := by decide

theorem fills_whole_iff_digitPattern :
    (FillsWhole writeBuffer (fun c => some [c]) digitPattern ⟨fun _ => 0, 3, by decide⟩ ↔
        digitPattern.extent (encodedLength fun c => some [c]) ≤ (3 : ℕ)) ∧
      (FillsWhole writeBufferUtf8 utf8EncodeCodepoint digitPattern ⟨fun _ => 0, 2, by decide⟩ ↔
        digitPattern.extent (encodedLength utf8EncodeCodepoint) ≤ (2 : ℕ)) ∧
      (FillsWhole writeBufferJsonUtf8 jsonEscape digitPattern ⟨fun _ => 0, 2, by decide⟩ ↔
        digitPattern.extent (encodedLength jsonEscape) ≤ (2 : ℕ)) :=
  fills_whole_iff digitPattern_valid _ _

end Passgen
