import Mathlib.Computability.Language
import Mathlib.Data.List.Basic
import Mathlib.Data.List.MinMax
import Mathlib.Tactic.Common
import Passgen.Generate.Generate
import Passgen.Pattern.Fold

/-!
# Generate/Language — the language of a pattern

    set ▸ a codepoint of its ranges     item ▸ min … max copies, or none     group ▸ a segment

A special-free pattern denotes a language, and the generator emits exactly its words: every run that
returns emits one, and every word is emitted for some draws, as soon as the depth limit admits the
nesting of the groups.
-/

namespace Passgen

/-! ## The language -/

/-- The number of codepoints of a range. -/
def Range.size (range : Range) : ℕ := range.stop - range.start + 1

/-- One codepoint of the ranges; the empty string where there are none. -/
def setLanguage (set : PatternSet) : Language ℕ :=
  {w | (set.items = [] ∧ w = []) ∨
    ∃ range ∈ set.items, ∃ c, range.start ≤ c ∧ c ≤ range.stop ∧ w = [c]}

/-- A segment with a positive multiplier, item after item. -/
def groupLanguage (group : GroupOf (Language ℕ)) : Language ℕ :=
  {w | ∃ segment ∈ group.segments, 0 < segment.multiplier ∧ w ∈ segment.items.prod}

/-- What one copy of an item denotes. -/
def dataLanguage : ItemData (Language ℕ) → Language ℕ
  | .set set => setLanguage set
  | .literal literal => {literal.codepoints}
  | .special _ => 0
  | .group group => groupLanguage group

/-- Between `min` and `max` copies, or also none when maybe. -/
def itemLanguage (data : ItemData (Language ℕ)) (rep : Repeat) (maybe : Bool) : Language ℕ :=
  {w | (maybe = true ∧ w = []) ∨ ∃ n, rep.min ≤ n ∧ n ≤ rep.max ∧ w ∈ dataLanguage data ^ n}

def Item.language (item : Item) : Language ℕ := item.fold itemLanguage

/-- The language of a pattern. -/
def Group.language (pattern : Group) : Language ℕ := groupLanguage (pattern.map Item.language)

/-! ## Nesting -/

/-- One more than the deepest item. -/
def groupDepth (group : GroupOf ℕ) : ℕ :=
  (group.segments.flatMap SegmentOf.items).foldr max 0 + 1

def dataDepth : ItemData ℕ → ℕ
  | .group group => groupDepth group
  | _ => 0

/-- The nesting of groups in an item. -/
def Item.depth (item : Item) : ℕ := item.fold fun data _ _ => dataDepth data

/-- The nesting of groups in a pattern. -/
def Group.depth (pattern : Group) : ℕ := groupDepth (pattern.map Item.depth)

/-! ## The representation invariant -/

/-- The ranges of a set are in order, and its totals are those of their sizes. -/
structure PatternSet.Valid (set : PatternSet) : Prop where
  ranges : ∀ range ∈ set.items, range.start ≤ range.stop ∧ range.stop < 2 ^ 32
  choices : set.choicesList = Weighted.totals 0 (set.items.map Range.size)
  sum : (set.items.map Range.size).sum < 2 ^ 64

/-- A repeat that is a range of fewer than `2 ^ 64` counts. -/
structure Repeat.Ordered (rep : Repeat) : Prop where
  le : rep.min ≤ rep.max
  max : rep.max < 2 ^ 64
  counts : rep.max - rep.min + 1 < 2 ^ 64

/-- A group with the sum of its multipliers, which is positive, over what its items satisfy. -/
structure GroupOf.ValidOver (group : GroupOf Prop) : Prop where
  sum : group.multiplierSum = totalMultiplier group.segments
  pos : 0 < group.multiplierSum
  items : ∀ segment ∈ group.segments, ∀ item ∈ segment.items, item

/-- The invariant of item data, special-free. -/
def dataValid : ItemData Prop → Prop
  | .set set => set.Valid
  | .literal literal => 0 < literal.count ∧ literal.count ≤ 7
  | .special _ => False
  | .group group => group.ValidOver

/-- The invariant of an item. -/
def Item.Valid (item : Item) : Prop := item.fold fun data rep _ => dataValid data ∧ rep.Ordered

/-- The representation invariant of a special-free pattern. -/
def Group.Valid (pattern : Group) : Prop := (pattern.map Item.Valid).ValidOver

theorem Item.valid_mk {data : ItemData Item} {rep : Repeat} {maybe : Bool} :
    (Item.mk data rep maybe).Valid ↔ dataValid (data.map Item.Valid) ∧ rep.Ordered := by
  rw [Item.Valid, Item.fold_mk]
  rfl

theorem Item.language_mk (data : ItemData Item) (rep : Repeat) (maybe : Bool) :
    (Item.mk data rep maybe).language = itemLanguage (data.map Item.language) rep maybe :=
  Item.fold_mk _ data rep maybe

theorem Item.depth_mk (data : ItemData Item) (rep : Repeat) (maybe : Bool) :
    (Item.mk data rep maybe).depth = dataDepth (data.map Item.depth) :=
  Item.fold_mk _ data rep maybe

theorem Item.generate_mk {σ δ : Type} (host : Host σ δ) (data : ItemData Item) (rep : Repeat)
    (maybe : Bool) :
    (Item.mk data rep maybe).generate host
      = generateItem host (data.map (Item.generate host)) rep maybe :=
  Item.fold_mk _ data rep maybe

/-- The items of a valid group are valid. -/
theorem Group.Valid.item {group : Group} (h : group.Valid) {segment : Segment}
    (hs : segment ∈ group.segments) {item : Item} (hi : item ∈ segment.items) : item.Valid :=
  h.items _ (List.mem_map_of_mem hs) _ (List.mem_map_of_mem hi)

/-- The stored sum is that of the multipliers, whatever the items are mapped to. -/
theorem Group.Valid.sum_eq {group : Group} (h : group.Valid) :
    group.multiplierSum = totalMultiplier group.segments := by
  have hsum := h.sum
  rwa [GroupOf.segments_map, totalMultiplier_map] at hsum

theorem Group.Valid.total_pos {group : Group} (h : group.Valid) :
    0 < totalMultiplier group.segments :=
  h.sum_eq ▸ h.pos

/-! ## What a run emits -/

section Soundness

variable {σ δ : Type} {host : Host σ δ} {s t : GenState σ δ}

/-- Every run that returns emits a word of the language. -/
def Emits (x : Gen σ δ Unit) (L : Language ℕ) : Prop :=
  ∀ s t, Effect.Returns x s () t → ∃ w ∈ L, t.emitted = s.emitted ++ w

theorem emits_pure : Emits (pure () : Gen σ δ Unit) 1 := by
  intro s t h
  obtain ⟨-, rfl⟩ := Effect.returns_pure_iff.mp h
  exact ⟨[], Language.nil_mem_one, (List.append_nil _).symm⟩

/-- **A sequence emits the concatenation.** -/
theorem Emits.seq {x y : Gen σ δ Unit} {L M : Language ℕ} (hx : Emits x L) (hy : Emits y M) :
    Emits (x >>= fun _ => y) (L * M) := by
  intro s u h
  obtain ⟨_, t, ht, hu⟩ := Effect.returns_bind_iff.mp h
  obtain ⟨v, hv, hst⟩ := hx s t ht
  obtain ⟨w, hw, htu⟩ := hy t u hu
  exact ⟨v ++ w, Language.append_mem_mul hv hw, by rw [htu, hst, List.append_assoc]⟩

theorem Emits.mono {x : Gen σ δ Unit} {L M : Language ℕ} (h : Emits x L) (hle : ∀ w ∈ L, w ∈ M) :
    Emits x M := by
  intro s t hx
  obtain ⟨w, hw, hemitted⟩ := h s t hx
  exact ⟨w, hle w hw, hemitted⟩

theorem emits_inOrder {items : List Item} {L : Item → Language ℕ}
    (h : ∀ item ∈ items, Emits (item.generate host) (L item)) :
    Emits (Effect.inOrder (items.map (Item.generate host))) (items.map L).prod := by
  induction items with
  | nil => exact emits_pure
  | cons item items ih =>
    rw [List.map_cons, List.map_cons, List.prod_cons]
    exact (h item List.mem_cons_self).seq (ih fun i hi => h i (List.mem_cons_of_mem item hi))

theorem Emits.times {x : Gen σ δ Unit} {L : Language ℕ} (h : Emits x L) (n : ℕ) :
    Emits (Effect.times n x) (L ^ n) := by
  induction n with
  | zero => exact emits_pure
  | succ n ih =>
    rw [pow_succ']
    exact h.seq ih

theorem emits_emit (codepoint : ℕ) : Emits (emit host codepoint) {[codepoint]} := by
  intro s t h
  obtain ⟨-, rfl⟩ := returns_emit_iff.mp h
  exact ⟨_, rfl, rfl⟩

theorem emits_emitAll (codepoints : List ℕ) : Emits (emitAll host codepoints) {codepoints} := by
  induction codepoints with
  | nil => exact emits_pure
  | cons c codepoints ih =>
    intro s t h
    obtain ⟨w, hw, heq⟩ := (emits_emit c).seq ih s t h
    obtain ⟨_, rfl, _, rfl, rfl⟩ := Language.mem_mul.mp hw
    exact ⟨_, rfl, heq⟩

/-- **A repeat is a count in its range**, and emits nothing. -/
theorem returns_generateRepeat {rep : Repeat} (hrep : rep.Ordered) {n : ℕ}
    (h : Effect.Returns (generateRepeat host rep) s n t) :
    rep.min ≤ n ∧ n ≤ rep.max ∧ t.emitted = s.emitted := by
  have hle := hrep.le
  have hmax := hrep.max
  have hcounts := hrep.counts
  rw [generateRepeat, sizeSub_of_le hmax hle] at h
  split at h
  · obtain ⟨rfl, rfl⟩ := Effect.returns_pure_iff.mp h
    exact ⟨le_rfl, hle, rfl⟩
  · obtain ⟨choice, s₁, hbelow, h⟩ := Effect.returns_bind_iff.mp h
    obtain ⟨random, hdraw, rfl⟩ := returns_drawBelow_iff.mp hbelow
    obtain ⟨_, s₂, hscale, h⟩ := Effect.returns_bind_iff.mp h
    obtain rfl := Effect.returns_modify_iff.mp hscale
    obtain ⟨rfl, rfl⟩ := Effect.returns_pure_iff.mp h
    have hlt := host.source.u64Max_lt hdraw
    rw [sizeT_of_lt hcounts] at hlt
    rw [sizeT_of_lt (by omega)]
    exact ⟨by omega, by omega, rfl⟩

/-- **The codepoint of a choice** is in the range the choice falls into. -/
theorem setCodepoint_eq {set : PatternSet} (h : set.Valid) {choice i r : ℕ}
    (hpick : Weighted.pick (set.items.map Range.size) choice = some (i, r)) :
    ∃ range, set.items[i]? = some range ∧ setCodepoint set choice = some (range.start + r) ∧
      range.start + r ≤ range.stop := by
  obtain ⟨hi, hr, hchoice⟩ := Weighted.pick_eq_some_iff.mp hpick
  rw [List.length_map] at hi
  rw [List.getElem_map] at hr
  have hrange := h.ranges _ (List.getElem_mem hi)
  rw [Range.size] at hr
  have hfind := Weighted.findIdx_totals 0 hpick
  simp only [Nat.zero_add] at hfind
  have hoffset : (if i = 0 then choice
      else sizeSub choice ((Weighted.totals 0 (set.items.map Range.size)).getD (i - 1) 0)) = r := by
    split
    · rename_i hzero
      simpa [hzero] using hchoice
    · rename_i hpos
      rw [List.getD_eq_getElem?_getD,
        Weighted.getElem?_totals 0 (by rw [List.length_map]; omega), Option.getD_some, Nat.zero_add,
        Nat.sub_add_cancel (by omega)]
      have hlt := Weighted.exists_pick_iff.mp ⟨i, r, hpick⟩
      have hsum := h.sum
      rw [sizeSub_of_le (by omega) (by omega)]
      omega
  refine ⟨set.items[i], List.getElem?_eq_getElem hi, ?_, by omega⟩
  rw [setCodepoint, h.choices, List.take_of_length_le (by simp), hfind]
  simp only [hoffset]
  rw [List.getElem?_eq_getElem hi, Option.map_some, Nat.mod_eq_of_lt (by omega)]

/-- The number of choices of a set. -/
theorem PatternSet.Valid.possible {set : PatternSet} (h : set.Valid) (hne : set.items.length ≠ 0) :
    set.choicesList[set.items.length - 1]? = some (set.items.map Range.size).sum := by
  rw [h.choices, Weighted.getElem?_totals 0 (by rw [List.length_map]; omega), Nat.zero_add,
    List.take_of_length_le]
  rw [List.length_map]
  omega

theorem emits_generateSet {set : PatternSet} (hset : set.Valid) :
    Emits (generateSet host set) (setLanguage set) := by
  intro s t h
  rw [generateSet] at h
  split at h
  · rename_i hlen
    obtain ⟨-, rfl⟩ := Effect.returns_pure_iff.mp h
    exact ⟨[], .inl ⟨List.length_eq_zero_iff.mp hlen, rfl⟩, (List.append_nil _).symm⟩
  · rename_i hlen
    rw [hset.possible hlen] at h
    obtain ⟨choice, s₁, hbelow, h⟩ := Effect.returns_bind_iff.mp h
    obtain ⟨random, hdraw, rfl⟩ := returns_drawBelow_iff.mp hbelow
    obtain ⟨_, s₂, hscale, h⟩ := Effect.returns_bind_iff.mp h
    obtain rfl := Effect.returns_modify_iff.mp hscale
    obtain ⟨i, r, hpick⟩ := Weighted.exists_pick_iff.mpr (host.source.u64Max_lt hdraw)
    obtain ⟨range, hrange, hcode, hle⟩ := setCodepoint_eq hset hpick
    rw [hcode] at h
    obtain ⟨w, rfl, heq⟩ := emits_emit _ _ _ h
    exact ⟨_, .inr ⟨range, List.mem_of_getElem? hrange, _, Nat.le_add_right _ _, hle, rfl⟩, heq⟩

/-- A group emits what one of its segments does. -/
theorem emits_generateGroup {group : Group} {L : Item → Language ℕ}
    (h : ∀ segment ∈ group.segments, ∀ item ∈ segment.items, Emits (item.generate host) (L item)) :
    Emits (generateGroup host (group.map (Item.generate host))) (groupLanguage (group.map L)) := by
  intro s t hrun
  obtain ⟨_, s₁, hdescend, hrun⟩ := Effect.returns_bind_iff.mp hrun
  obtain ⟨-, rfl⟩ := returns_descend_iff.mp hdescend
  split at hrun
  · exact absurd hrun Effect.returns_throw
  obtain ⟨choice, s₂, hdraw, hrun⟩ := Effect.returns_bind_iff.mp hrun
  obtain ⟨random, -, rfl⟩ := returns_drawBelow_iff.mp hdraw
  split at hrun
  · exact absurd hrun Effect.returns_throw
  rename_i i chosen hchoose
  obtain ⟨hget, hle, hlt⟩ := chooseSegment_eq_some_iff.mp hchoose
  rw [GroupOf.segments_map, List.getElem?_map, Option.map_eq_some_iff] at hget
  obtain ⟨segment, hsegment, rfl⟩ := hget
  have hmem := List.mem_of_getElem? hsegment
  obtain ⟨_, s₃, hmul, hrun⟩ := Effect.returns_bind_iff.mp hrun
  obtain rfl := Effect.returns_modify_iff.mp hmul
  obtain ⟨_, s₄, hdiv, hrun⟩ := Effect.returns_bind_iff.mp hrun
  obtain rfl := Effect.returns_modify_iff.mp hdiv
  obtain ⟨_, s₅, hsegments, hrun⟩ := Effect.returns_bind_iff.mp hrun
  obtain rfl := Effect.returns_modify_iff.mp hrun
  obtain ⟨w, hw, heq⟩ := emits_inOrder (h segment hmem) _ _ hsegments
  rw [SegmentOf.multiplier_map] at hlt
  exact ⟨w, ⟨_, List.mem_map_of_mem hmem, by rw [SegmentOf.multiplier_map]; omega, hw⟩, heq⟩

/-- **Every run of a valid item that returns emits a word of its language.** -/
theorem emits_item (item : Item) (hitem : item.Valid) :
    Emits (item.generate host) item.language := by
  induction item using Item.induct with
  | mk data rep maybe ih =>
    obtain ⟨hdata, hrep⟩ := Item.valid_mk.mp hitem
    have hcopy : Emits (generateData host (data.map (Item.generate host)))
        (dataLanguage (data.map Item.language)) := by
      cases data with
      | set set => exact emits_generateSet hdata
      | literal literal => exact emits_emitAll _
      | special special => exact hdata.elim
      | group group =>
        exact emits_generateGroup fun segment hs item hi =>
          ih segment hs item hi (Group.Valid.item hdata hs hi)
    intro s t h
    rw [Item.generate_mk, generateItem] at h
    rw [Item.language_mk]
    obtain ⟨emits, s₁, hmaybe, h⟩ := Effect.returns_bind_iff.mp h
    have hsame : s₁.emitted = s.emitted ∧ (emits = false → maybe = true) := by
      cases maybe with
      | true =>
        obtain ⟨-, rfl⟩ := returns_drawMaybe_iff.mp hmaybe
        exact ⟨rfl, fun _ => rfl⟩
      | false =>
        obtain ⟨rfl, rfl⟩ := Effect.returns_pure_iff.mp hmaybe
        exact ⟨rfl, fun hfalse => absurd hfalse (by simp)⟩
    cases emits with
    | false =>
      obtain ⟨-, rfl⟩ := Effect.returns_pure_iff.mp h
      exact ⟨[], .inl ⟨hsame.2 rfl, rfl⟩, by rw [hsame.1, List.append_nil]⟩
    | true =>
      obtain ⟨n, s₂, hreps, h⟩ := Effect.returns_bind_iff.mp h
      obtain ⟨hmin, hmax, hsame'⟩ := returns_generateRepeat hrep hreps
      obtain ⟨w, hw, heq⟩ := hcopy.times n _ _ h
      exact ⟨w, .inr ⟨n, hmin, hmax, hw⟩, by rw [heq, hsame', hsame.1]⟩

end Soundness

/-! ## Every word is emitted -/

section Completeness

variable {δ : Type} {func : δ → ℕ → ℤ × δ}

/-- Some draws make the computation emit `w`, from every state that admits that much nesting; they
are used up, and the depth counter ends `up` above where it was. -/
def Produces (x : Gen (List ℕ) δ Unit) (depth up : ℕ) (w : List ℕ) : Prop :=
  ∃ draws : List ℕ, ∀ rest s, s.random = draws ++ rest → depth ≤ s.depth →
    ∃ t, Effect.Returns x s () t ∧ t.random = rest ∧ t.depth = s.depth + up ∧
      t.emitted = s.emitted ++ w

theorem produces_pure (depth : ℕ) : Produces (pure () : Gen (List ℕ) δ Unit) depth 0 [] :=
  ⟨[], fun _ s hs _ => ⟨s, Effect.returns_pure_iff.mpr ⟨rfl, rfl⟩, hs, rfl,
    (List.append_nil _).symm⟩⟩

theorem Produces.mono {x : Gen (List ℕ) δ Unit} {depth depth' up : ℕ} {w : List ℕ}
    (h : Produces x depth up w) (hle : depth ≤ depth') : Produces x depth' up w := by
  obtain ⟨draws, hdraws⟩ := h
  exact ⟨draws, fun rest s hs hdepth => hdraws rest s hs (hle.trans hdepth)⟩

/-- **A sequence plays its draws one after the other.** -/
theorem Produces.seq {x y : Gen (List ℕ) δ Unit} {depth up : ℕ} {v w : List ℕ}
    (hx : Produces x depth 0 v) (hy : Produces y depth up w) :
    Produces (x >>= fun _ => y) depth up (v ++ w) := by
  obtain ⟨ds, hx⟩ := hx
  obtain ⟨es, hy⟩ := hy
  refine ⟨ds ++ es, fun rest s hs hdepth => ?_⟩
  obtain ⟨t, ht, hrandom, hsame, hemitted⟩ :=
    hx (es ++ rest) s (by rw [hs, List.append_assoc]) hdepth
  obtain ⟨u, hu, hrandom', hsame', hemitted'⟩ := hy rest t hrandom (by rwa [hsame])
  exact ⟨u, Effect.returns_bind_iff.mpr ⟨(), t, ht, hu⟩, hrandom', by rw [hsame', hsame]; rfl,
    by rw [hemitted', hemitted, List.append_assoc]⟩

theorem Produces.times {x : Gen (List ℕ) δ Unit} {depth : ℕ} {L : Language ℕ}
    (h : ∀ w ∈ L, Produces x depth 0 w) {n : ℕ} {w : List ℕ} (hw : w ∈ L ^ n) :
    Produces (Effect.times n x) depth 0 w := by
  induction n generalizing w with
  | zero =>
    obtain rfl := (Language.mem_one w).mp (pow_zero L ▸ hw)
    exact produces_pure depth
  | succ n ih =>
    rw [pow_succ'] at hw
    obtain ⟨v, hv, u, hu, rfl⟩ := Language.mem_mul.mp hw
    exact (h v hv).seq (ih hu)

theorem produces_inOrder {host : Host (List ℕ) δ} {items : List Item} {depth : ℕ}
    (h : ∀ item ∈ items, ∀ w ∈ item.language, Produces (item.generate host) depth 0 w) {w : List ℕ}
    (hw : w ∈ (items.map Item.language).prod) :
    Produces (Effect.inOrder (items.map (Item.generate host))) depth 0 w := by
  induction items generalizing w with
  | nil =>
    obtain rfl := (Language.mem_one w).mp hw
    exact produces_pure depth
  | cons item items ih =>
    rw [List.map_cons, List.prod_cons] at hw
    obtain ⟨v, hv, u, hu, rfl⟩ := Language.mem_mul.mp hw
    exact (h item List.mem_cons_self v hv).seq
      (ih (fun i hi => h i (List.mem_cons_of_mem item hi)) hu)

/-- A draw that is played back, and what is done with it. -/
theorem Produces.draw {site : Site} {bound v depth up : ℕ} (hv : v < bound)
    {f : ℕ → Gen (List ℕ) δ Unit} {w : List ℕ} (hf : Produces (f v) depth up w) :
    Produces (drawBelow ⟨drawSource, func⟩ site bound >>= f) depth up w := by
  obtain ⟨draws, hdraws⟩ := hf
  refine ⟨v :: draws, fun rest s hs hdepth => ?_⟩
  obtain ⟨t, ht, hrest⟩ := hdraws rest
    { s with random := draws ++ rest, draws := s.draws ++ [⟨site, bound, some v⟩] } rfl hdepth
  have hdraw : Effect.Returns (drawBelow ⟨drawSource, func⟩ site bound) s v _ :=
    returns_drawBelow_iff.mpr ⟨draws ++ rest, by rw [hs]; exact if_pos hv, rfl⟩
  exact ⟨t, Effect.returns_bind_iff.mpr ⟨v, _, hdraw, ht⟩, hrest⟩

/-- A coin flip that is played back. -/
theorem Produces.flip {depth up : ℕ} (b : Bool) {f : Bool → Gen (List ℕ) δ Unit} {w : List ℕ}
    (hf : Produces (f b) depth up w) :
    Produces (drawMaybe ⟨drawSource, func⟩ >>= f) depth up w := by
  obtain ⟨draws, hdraws⟩ := hf
  refine ⟨b.toNat :: draws, fun rest s hs hdepth => ?_⟩
  obtain ⟨t, ht, hrest⟩ := hdraws rest
    { s with random := draws ++ rest, draws := s.draws ++ [⟨.maybe, 2, some b.toNat⟩] } rfl hdepth
  have hbool : drawSource.bool s.random = (b, draws ++ rest) := by
    rw [hs]
    cases b <;> rfl
  have hflip : Effect.Returns (drawMaybe ⟨drawSource, func⟩) s b
      { s with random := draws ++ rest, draws := s.draws ++ [⟨.maybe, 2, some b.toNat⟩] } := by
    rw [returns_drawMaybe_iff, hbool]
    exact ⟨rfl, rfl⟩
  exact ⟨t, Effect.returns_bind_iff.mpr ⟨b, _, hflip, ht⟩, hrest⟩

/-- Entropy does not matter. -/
theorem Produces.scale {f : ℚ → ℚ} {x : Gen (List ℕ) δ Unit} {depth up : ℕ} {w : List ℕ}
    (hx : Produces x depth up w) :
    Produces ((modify fun s => { s with entropy := s.entropy.map f }) >>= fun _ => x) depth up
      w := by
  obtain ⟨draws, hdraws⟩ := hx
  refine ⟨draws, fun rest s hs hdepth => ?_⟩
  obtain ⟨t, ht, hrest⟩ := hdraws rest { s with entropy := s.entropy.map f } hs hdepth
  exact ⟨t, Effect.returns_bind_iff.mpr ⟨(), _, Effect.returns_modify_iff.mpr rfl, ht⟩, hrest⟩

section Accepts

variable (hfunc : ∀ d c, (func d c).1 = 0)
include hfunc

theorem produces_emit (codepoint depth : ℕ) :
    Produces (emit ⟨drawSource, func⟩ codepoint) depth 0 [codepoint] :=
  ⟨[], fun _ _ hs _ => ⟨_, returns_emit_iff.mpr ⟨hfunc _ _, rfl⟩, hs, rfl, rfl⟩⟩

theorem produces_emitAll (codepoints : List ℕ) (depth : ℕ) :
    Produces (emitAll ⟨drawSource, func⟩ codepoints) depth 0 codepoints := by
  induction codepoints with
  | nil => exact produces_pure depth
  | cons c codepoints ih => exact (produces_emit hfunc c depth).seq ih

theorem produces_generateSet {set : PatternSet} (hset : set.Valid) (depth : ℕ) {w : List ℕ}
    (hw : w ∈ setLanguage set) : Produces (generateSet ⟨drawSource, func⟩ set) depth 0 w := by
  rw [generateSet]
  rcases hw with ⟨hnil, rfl⟩ | ⟨range, hrange, c, hstart, hstop, rfl⟩
  · rw [if_pos (by rw [hnil]; rfl)]
    exact produces_pure depth
  · obtain ⟨i, hi, rfl⟩ := List.getElem_of_mem hrange
    have hlen : set.items.length ≠ 0 := by omega
    -- the draw is the place of the codepoint among the choices
    have hi' : i < (set.items.map Range.size).length := by rwa [List.length_map]
    have hsize : c - set.items[i].start < (set.items.map Range.size)[i] := by
      rw [List.getElem_map, Range.size]
      omega
    have hpick := Weighted.pick_eq_some_iff.mpr ⟨hi', hsize, rfl⟩
    obtain ⟨range, hget, hcode, -⟩ := setCodepoint_eq hset hpick
    obtain rfl : set.items[i] = range := by
      rw [List.getElem?_eq_getElem hi] at hget
      exact Option.some.inj hget
    rw [Nat.add_sub_cancel' hstart] at hcode
    rw [if_neg hlen, hset.possible hlen]
    refine Produces.draw (Weighted.exists_pick_iff.mp ⟨i, _, hpick⟩) (Produces.scale ?_)
    rw [hcode]
    exact produces_emit hfunc c depth

end Accepts

/-- **Every count of a repeat can be drawn.** -/
theorem Produces.repeat {rep : Repeat} (hrep : rep.Ordered) {n depth up : ℕ} (hmin : rep.min ≤ n)
    (hmax : n ≤ rep.max) {f : ℕ → Gen (List ℕ) δ Unit} {w : List ℕ}
    (hf : Produces (f n) depth up w) :
    Produces (generateRepeat ⟨drawSource, func⟩ rep >>= f) depth up w := by
  have hsize := hrep.max
  have hcounts := hrep.counts
  rw [generateRepeat, sizeSub_of_le hsize hrep.le]
  by_cases hdiff : rep.max - rep.min = 0
  · obtain rfl : rep.min = n := by omega
    rw [if_pos hdiff]
    exact hf
  · rw [if_neg hdiff, sizeT_of_lt hcounts, bind_assoc]
    refine Produces.draw (v := n - rep.min) (by omega) ?_
    rw [bind_assoc]
    refine Produces.scale ?_
    rw [pure_bind, Nat.add_sub_cancel' hmin, sizeT_of_lt (by omega)]
    exact hf

/-- A level down and up again. -/
theorem Produces.descend {f : Unit → Gen (List ℕ) δ Unit} {depth : ℕ} {w : List ℕ}
    (hf : Produces (f ()) depth 1 w) : Produces (descend >>= f) (depth + 1) 0 w := by
  obtain ⟨draws, hdraws⟩ := hf
  refine ⟨draws, fun rest s hs hdepth => ?_⟩
  obtain ⟨t, ht, hrandom, hsame, hemitted⟩ := hdraws rest { s with depth := s.depth - 1 } hs
    (Nat.le_sub_of_add_le hdepth)
  refine ⟨t, Effect.returns_bind_iff.mpr ⟨(), _, returns_descend_iff.mpr ⟨by omega, rfl⟩, ht⟩,
    hrandom, ?_, hemitted⟩
  rw [hsame]
  exact Nat.sub_add_cancel (by omega)

theorem produces_ascend (depth : ℕ) : Produces (ascend : Gen (List ℕ) δ Unit) depth 1 [] :=
  ⟨[], fun _ _ hs _ => ⟨_, Effect.returns_modify_iff.mpr rfl, hs, rfl, (List.append_nil _).symm⟩⟩

/-- **Every segment with a positive multiplier can be drawn**, one level down. -/
theorem produces_generateGroup {group : Group} (hgroup : group.Valid)
    (h : ∀ segment ∈ group.segments, ∀ item ∈ segment.items, ∀ w ∈ item.language,
      Produces (item.generate ⟨drawSource, func⟩) item.depth 0 w) {w : List ℕ}
    (hw : w ∈ groupLanguage (group.map Item.language)) :
    Produces (generateGroup ⟨drawSource, func⟩ (group.map (Item.generate ⟨drawSource, func⟩)))
      (groupDepth (group.map Item.depth)) 0 w := by
  obtain ⟨_, hmem, hpos, hw⟩ := hw
  obtain ⟨segment, hsegment, rfl⟩ := List.mem_map.mp hmem
  obtain ⟨i, hi⟩ := List.mem_iff_getElem?.mp hsegment
  have hget : (group.segments.map (SegmentOf.map (Item.generate ⟨drawSource, func⟩)))[i]?
      = some (segment.map (Item.generate ⟨drawSource, func⟩)) := by
    rw [List.getElem?_map, hi]
    rfl
  obtain ⟨choice, hlt, hchoose⟩ := exists_choice_of_pos hget hpos
  rw [totalMultiplier_map, ← hgroup.sum_eq] at hlt
  have hitems : Produces (generateSegment (segment.map (Item.generate ⟨drawSource, func⟩)))
      (groupDepth (group.map Item.depth) - 1) 0 w := by
    refine produces_inOrder (fun item hitem v hv => ?_) hw
    refine (h segment hsegment item hitem v hv).mono (List.le_max_of_le' 0 ?_ le_rfl)
    exact List.mem_flatMap.mpr ⟨_, List.mem_map_of_mem hsegment, List.mem_map_of_mem hitem⟩
  have hrise := hitems.seq (produces_ascend (groupDepth (group.map Item.depth) - 1))
  rw [List.append_nil] at hrise
  have hne : (group.map (Item.generate ⟨drawSource, func⟩)).multiplierSum ≠ 0 :=
    Nat.pos_iff_ne_zero.mp hgroup.pos
  refine Produces.descend ?_
  rw [if_neg hne]
  refine Produces.draw hlt ?_
  rw [GroupOf.segments_map, hchoose]
  exact hrise.scale.scale

/-- **Every word of a valid item is produced**, by induction on the item. -/
theorem produces_item (hfunc : ∀ d c, (func d c).1 = 0) (item : Item) (hitem : item.Valid)
    {w : List ℕ} (hw : w ∈ item.language) :
    Produces (item.generate ⟨drawSource, func⟩) item.depth 0 w := by
  induction item using Item.induct generalizing w with
  | mk data rep maybe ih =>
    obtain ⟨hdata, hrep⟩ := Item.valid_mk.mp hitem
    have hcopy : ∀ w ∈ dataLanguage (data.map Item.language),
        Produces (generateData ⟨drawSource, func⟩ (data.map (Item.generate ⟨drawSource, func⟩)))
          (dataDepth (data.map Item.depth)) 0 w := by
      intro w hw
      cases data with
      | set set => exact produces_generateSet hfunc hdata _ hw
      | literal literal =>
        obtain rfl := Set.mem_singleton_iff.mp hw
        exact produces_emitAll hfunc _ _
      | special special => exact hdata.elim
      | group group =>
        refine produces_generateGroup hdata (fun segment hs item hi w hw => ?_) hw
        exact ih segment hs item hi (Group.Valid.item hdata hs hi) hw
    have hreps : ∀ n, rep.min ≤ n → n ≤ rep.max → w ∈ dataLanguage (data.map Item.language) ^ n →
        Produces (generateRepeat ⟨drawSource, func⟩ rep >>= fun reps =>
          Effect.times reps (generateData ⟨drawSource, func⟩
            (data.map (Item.generate ⟨drawSource, func⟩)))) (dataDepth (data.map Item.depth)) 0 w :=
      fun n hmin hmax hw => Produces.repeat hrep hmin hmax (Produces.times hcopy hw)
    rw [Item.language_mk] at hw
    rw [Item.generate_mk, Item.depth_mk, generateItem, decideMaybe]
    rcases hw with ⟨rfl, rfl⟩ | ⟨n, hmin, hmax, hw⟩
    · rw [if_pos rfl]
      refine Produces.flip false ?_
      rw [if_neg (by simp)]
      exact produces_pure _
    · cases maybe with
      | true =>
        rw [if_pos rfl]
        refine Produces.flip true ?_
        rw [if_pos rfl]
        exact hreps n hmin hmax hw
      | false =>
        rw [if_neg (by simp), pure_bind, if_pos rfl]
        exact hreps n hmin hmax hw

end Completeness

/-- **The generator emits the language of the pattern**: every run that returns emits a word of it;
and with a callback that accepts every codepoint, under a depth limit that admits the nesting, every
word is emitted for some draws. -/
theorem generate_language {pattern : Group} (hpattern : pattern.Valid) :
    (∀ {σ δ : Type} (host : Host σ δ) (s t : GenState σ δ),
      Effect.Returns (generate host pattern) s () t →
        ∃ w ∈ pattern.language, t.emitted = s.emitted ++ w) ∧
    ∀ {δ : Type} (func : δ → ℕ → ℤ × δ), (∀ d c, (func d c).1 = 0) →
      ∀ (data : δ) (depthLimit : ℕ) (entropy : Bool) (wordlists : List (List UInt8 × Wordlist)),
        pattern.depth ≤ depthLimit → ∀ w ∈ pattern.language, ∃ draws t,
          Effect.Returns (generate ⟨drawSource, func⟩ pattern)
            (GenState.init draws data depthLimit entropy wordlists) () t ∧ t.emitted = w := by
  constructor
  · exact fun host s t h => emits_generateGroup
      (fun segment hs item hi => emits_item item (hpattern.item hs hi)) s t h
  · intro δ func hfunc data depthLimit entropy wordlists hdepth w hw
    obtain ⟨draws, hdraws⟩ := produces_generateGroup hpattern
      (fun segment hs item hi w hw => produces_item hfunc item (hpattern.item hs hi) hw) hw
    obtain ⟨t, ht, -, -, hemitted⟩ := hdraws []
      (GenState.init draws data depthLimit entropy wordlists) (List.append_nil _).symm hdepth
    exact ⟨draws, t, ht, hemitted⟩

/-- `{3}a{1,2}?[0-9]|{0}`. -/
def digitPattern : Group :=
  ⟨[⟨[.mk (.literal ⟨[97], true⟩) ⟨1, 2⟩ true, .mk (.set ⟨[⟨48, 57⟩], [10]⟩) ⟨1, 1⟩ false], 3⟩,
    ⟨[], 0⟩], 3⟩

theorem digitPattern_valid : digitPattern.Valid := by
  refine ⟨by decide, by decide, fun segment hs item hi => ?_⟩
  have hitem : item = Item.Valid (.mk (.literal ⟨[97], true⟩) ⟨1, 2⟩ true) ∨
      item = Item.Valid (.mk (.set ⟨[⟨48, 57⟩], [10]⟩) ⟨1, 1⟩ false) := by
    simp only [digitPattern, GroupOf.map, SegmentOf.map, List.map_cons, List.map_nil,
      List.mem_cons, List.not_mem_nil, or_false] at hs
    rcases hs with rfl | rfl
    · simpa using hi
    · exact absurd hi List.not_mem_nil
  rcases hitem with rfl | rfl
  · exact Item.valid_mk.mpr ⟨⟨by decide, by decide⟩, by decide, by decide, by decide⟩
  · exact Item.valid_mk.mpr ⟨⟨by decide, rfl, by decide⟩, by decide, by decide, by decide⟩

theorem generate_language_digitPattern :
    (∀ {σ δ : Type} (host : Host σ δ) (s t : GenState σ δ),
      Effect.Returns (generate host digitPattern) s () t →
        ∃ w ∈ digitPattern.language, t.emitted = s.emitted ++ w) ∧
    ∀ {δ : Type} (func : δ → ℕ → ℤ × δ), (∀ d c, (func d c).1 = 0) →
      ∀ (data : δ) (depthLimit : ℕ) (entropy : Bool) (wordlists : List (List UInt8 × Wordlist)),
        digitPattern.depth ≤ depthLimit → ∀ w ∈ digitPattern.language, ∃ draws t,
          Effect.Returns (generate ⟨drawSource, func⟩ digitPattern)
            (GenState.init draws data depthLimit entropy wordlists) () t ∧ t.emitted = w :=
  generate_language digitPattern_valid

end Passgen
