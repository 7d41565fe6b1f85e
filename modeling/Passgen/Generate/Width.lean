import Mathlib.Algebra.Order.BigOperators.Group.List
import Mathlib.Data.List.Basic
import Mathlib.Tactic.Common
import Passgen.Generate.Language
import Passgen.Parser.Step

/-!
# Generate/Width — how much a tree emits when nothing is repeated

The width of an item is the number of codepoints it emits at most: those of a literal, one for a
set, and for a group the sum over all its segments.  Every branch of the parser's group state but
two leaves the width alone; those are the text branch and the one that opens a set.
-/

namespace Passgen

/-- The sum of what the items of a group can emit. -/
def groupWidth (group : GroupOf ℕ) : ℕ := (group.segments.map fun segment => segment.items.sum).sum

/-- What one copy of an item can emit. -/
def dataWidth : ItemData ℕ → ℕ
  | .set _ => 1
  | .literal literal => literal.count
  | .special _ => 0
  | .group group => groupWidth group

/-- A bound on what an item emits when nothing is repeated. -/
def Item.width (item : Item) : ℕ := item.fold fun data _ _ => dataWidth data

/-- Without specials, and with nothing repeated. -/
def dataOnce : ItemData Prop → Prop
  | .special _ => False
  | .group group => ∀ segment ∈ group.segments, ∀ item ∈ segment.items, item
  | _ => True

def Item.Once (item : Item) : Prop := item.fold fun data rep _ => dataOnce data ∧ rep = ⟨1, 1⟩

theorem Item.width_mk (data : ItemData Item) (rep : Repeat) (maybe : Bool) :
    (Item.mk data rep maybe).width = dataWidth (data.map Item.width) :=
  Item.fold_mk _ data rep maybe

theorem Item.once_mk {data : ItemData Item} {rep : Repeat} {maybe : Bool} :
    (Item.mk data rep maybe).Once ↔ dataOnce (data.map Item.Once) ∧ rep = ⟨1, 1⟩ := by
  rw [Item.Once, Item.fold_mk]
  rfl

/-- The widths of the items of a segment, added up. -/
def SegmentOf.width (segment : Segment) : ℕ := (segment.items.map Item.width).sum

/-- The width of a group. -/
def Group.width (group : Group) : ℕ := (group.segments.map SegmentOf.width).sum

theorem groupWidth_map (group : Group) : groupWidth (group.map Item.width) = group.width := by
  rw [groupWidth, Group.width, GroupOf.segments_map, List.map_map]
  rfl

theorem ignoresText_once : IgnoresText Item.Once where
  fresh _ := Item.once_mk.mpr ⟨trivial, rfl⟩
  other h _ := Item.once_mk.mpr ⟨trivial, (Item.once_mk.mp h).2⟩

theorem Item.once_group {group : Group} {rep : Repeat} {maybe : Bool} :
    (Item.mk (.group group) rep maybe).Once ↔
      (∀ segment ∈ group.segments, segment.All Item.Once) ∧ rep = ⟨1, 1⟩ := by
  rw [Item.once_mk]
  refine and_congr_left fun _ => ?_
  constructor
  · exact fun h segment hs item hi =>
      h _ (List.mem_map_of_mem hs) _ (List.mem_map_of_mem hi)
  · intro h segment hs item hi
    obtain ⟨segment, hsegment, rfl⟩ := List.mem_map.mp hs
    obtain ⟨item, hitem, rfl⟩ := List.mem_map.mp hi
    exact h segment hsegment item hitem

section Short

variable {σ δ : Type} {host : Host σ δ}

/-- The words of at most `n` codepoints. -/
def atMost (n : ℕ) : Language ℕ := {w | w.length ≤ n}

theorem mem_atMost {n : ℕ} {w : List ℕ} : w ∈ atMost n ↔ w.length ≤ n := Iff.rfl

theorem mem_atMost_of_prod {ns : List ℕ} {w : List ℕ} (hw : w ∈ (ns.map atMost).prod) :
    w ∈ atMost ns.sum := by
  induction ns generalizing w with
  | nil =>
    obtain rfl := (Language.mem_one w).mp hw
    exact Nat.le_refl 0
  | cons n ns ih =>
    rw [List.map_cons, List.prod_cons] at hw
    obtain ⟨u, hu, v, hv, rfl⟩ := Language.mem_mul.mp hw
    have hu := mem_atMost.mp hu
    have hv := mem_atMost.mp (ih hv)
    rw [mem_atMost, List.length_append, List.sum_cons]
    omega

theorem emits_generateSet_atMost (set : PatternSet) : Emits (generateSet host set) (atMost 1) := by
  intro s t h
  rw [generateSet] at h
  split at h
  · obtain ⟨-, rfl⟩ := Effect.returns_pure_iff.mp h
    exact ⟨[], Nat.zero_le 1, (List.append_nil _).symm⟩
  split at h
  · exact absurd h Effect.returns_throw
  obtain ⟨choice, s₁, hdraw, h⟩ := Effect.returns_bind_iff.mp h
  obtain ⟨random, -, rfl⟩ := returns_drawBelow_iff.mp hdraw
  obtain ⟨_, s₂, hscale, h⟩ := Effect.returns_bind_iff.mp h
  obtain rfl := Effect.returns_modify_iff.mp hscale
  split at h
  · exact absurd h Effect.returns_throw
  · obtain ⟨w, rfl, heq⟩ := emits_emit _ _ _ h
    exact ⟨_, mem_atMost.mpr le_rfl, heq⟩

theorem emits_generateGroup_atMost {group : Group}
    (h : ∀ segment ∈ group.segments, ∀ item ∈ segment.items,
      Emits (item.generate host) (atMost item.width)) :
    Emits (generateGroup host (group.map (Item.generate host))) (atMost group.width) := by
  refine (emits_generateGroup h).mono fun w hw => ?_
  obtain ⟨_, hmem, -, hw⟩ := hw
  obtain ⟨segment, hsegment, rfl⟩ := List.mem_map.mp hmem
  have hmap : segment.items.map (fun item => atMost item.width)
      = (segment.items.map Item.width).map atMost := by
    rw [List.map_map]
    rfl
  rw [SegmentOf.items_map, hmap] at hw
  exact (mem_atMost.mp (mem_atMost_of_prod hw)).trans
    (List.single_le_sum (fun _ _ => Nat.zero_le _) _ (List.mem_map_of_mem hsegment))

/-- **An item emits no more than its width**, when nothing is repeated. -/
theorem emits_item_atMost (item : Item) (hitem : item.Once) :
    Emits (item.generate host) (atMost item.width) := by
  induction item using Item.induct with
  | mk data rep maybe ih =>
    obtain ⟨hdata, rfl⟩ := Item.once_mk.mp hitem
    have hcopy : Emits (generateData host (data.map (Item.generate host)))
        (atMost (dataWidth (data.map Item.width))) := by
      cases data with
      | set set => exact emits_generateSet_atMost set
      | literal literal => exact (emits_emitAll _).mono fun w hw => hw ▸ mem_atMost.mpr le_rfl
      | special special => exact hdata.elim
      | group group =>
        have hwidth : dataWidth (.group (group.map Item.width)) = Group.width group :=
          groupWidth_map group
        rw [ItemData.map, ItemData.map, hwidth]
        exact emits_generateGroup_atMost fun segment hs item hi =>
          ih segment hs item hi ((Item.once_group.mp hitem).1 segment hs item hi)
    intro s t h
    rw [Item.generate_mk, generateItem] at h
    rw [Item.width_mk]
    obtain ⟨emits, s₁, hmaybe, h⟩ := Effect.returns_bind_iff.mp h
    have hsame : s₁.emitted = s.emitted := by
      cases maybe with
      | true =>
        obtain ⟨-, rfl⟩ := returns_drawMaybe_iff.mp hmaybe
        rfl
      | false =>
        obtain ⟨-, rfl⟩ := Effect.returns_pure_iff.mp hmaybe
        rfl
    cases emits with
    | false =>
      obtain ⟨-, rfl⟩ := Effect.returns_pure_iff.mp h
      exact ⟨[], mem_atMost.mpr (Nat.zero_le _), by rw [hsame, List.append_nil]⟩
    | true =>
      obtain ⟨n, s₂, hreps, h⟩ := Effect.returns_bind_iff.mp h
      have honce : Repeat.Ordered ⟨1, 1⟩ := ⟨le_rfl, by decide, by decide⟩
      obtain ⟨hmin, hmax, hsame'⟩ := returns_generateRepeat honce hreps
      obtain rfl : n = 1 := by
        simp only at hmin hmax
        omega
      obtain ⟨w, hw, heq⟩ := hcopy.times 1 _ _ h
      rw [pow_one] at hw
      exact ⟨w, hw, by rw [heq, hsame', hsame]⟩

end Short

/-! ## Width and the writers of a segment -/

namespace SegmentOf

variable {segment segment' : Segment}

theorem width_push (segment : Segment) (item : Item) :
    SegmentOf.width (segment.push item) = SegmentOf.width segment + item.width := by
  rw [SegmentOf.width, SegmentOf.push, List.map_append, List.sum_append, SegmentOf.width]
  rfl

/-- Rewriting the last item, without making it wider. -/
theorem width_modifyLast (segment : Segment) {f : Item → Item}
    (hf : ∀ item, (f item).width = item.width) :
    SegmentOf.width (segment.modifyLast f) = SegmentOf.width segment := by
  rcases List.eq_nil_or_concat segment.items with hnil | ⟨init, last, hconcat⟩
  · rw [SegmentOf.width, SegmentOf.modifyLast, hnil, SegmentOf.width, hnil]
    rfl
  · rw [SegmentOf.width, SegmentOf.modifyLast, hconcat, List.concat_eq_append,
      List.modifyLast_concat, SegmentOf.width, hconcat, List.concat_eq_append, List.map_append,
      List.map_append, List.map_singleton, List.map_singleton, hf]

theorem width_clean_le (segment : Segment) :
    SegmentOf.width (segmentClean segment) ≤ SegmentOf.width segment := by
  rw [segmentClean]
  split
  · split
    · exact List.Sublist.sum_le_sum ((List.dropLast_sublist _).map _) fun _ _ => Nat.zero_le _
    · exact le_rfl
  · exact le_rfl

theorem width_appendChar_le (segment : Segment) (c : ℕ) :
    SegmentOf.width (Passgen.appendChar segment c) ≤ SegmentOf.width segment + 1 := by
  have hfresh : SegmentOf.width (segment.push (.init (.literal ⟨[c], false⟩)))
      = SegmentOf.width segment + 1 := width_push segment _
  rcases List.eq_nil_or_concat segment.items with hnil | ⟨init, last, hconcat⟩
  · rw [Passgen.appendChar, hnil]
    exact hfresh.le
  rw [List.concat_eq_append] at hconcat
  rw [Passgen.appendChar, hconcat, List.getLast?_concat]
  split
  · rename_i literal rep maybe hlast
    obtain rfl := Option.some.inj hlast
    split
    · rename_i packed happend
      rw [literalAppend] at happend
      split at happend
      · exact absurd happend (by simp)
      obtain rfl := Option.some.inj happend
      rw [SegmentOf.width, SegmentOf.modifyLast, hconcat, List.modifyLast_concat,
        SegmentOf.width, hconcat, List.map_append, List.map_append, List.sum_append,
        List.sum_append, List.map_singleton, List.map_singleton, Item.width_mk, Item.width_mk]
      simp only [ItemData.map, dataWidth, Literal.count, List.length_append, List.length_singleton,
        List.sum_singleton]
      omega
    · exact hfresh.le
  · exact hfresh.le

/-- Splitting a literal keeps what it emits. -/
theorem width_lastSingleItemTaint (h : lastSingleItemTaint segment = some segment') :
    SegmentOf.width segment' = SegmentOf.width segment := by
  obtain ⟨last, hlast, rfl⟩ := Option.map_eq_some_iff.mp h
  obtain ⟨init, hinit⟩ := List.getLast?_eq_some_iff.mp hlast
  have hsplit : ((singleItemTaint last).map Item.width).sum = last.width := by
    unfold singleItemTaint
    split
    · rename_i literal rep maybe
      split
      · rename_i hcount
        rw [Literal.count] at hcount
        have hne : literal.codepoints ≠ [] := List.ne_nil_of_length_pos (Nat.zero_lt_of_lt hcount)
        have hlength : literal.codepoints.getLast?.toList.length = 1 := by
          rw [List.getLast?_eq_some_getLast hne]
          rfl
        simp only [List.map_cons, List.map_nil, List.sum_cons, List.sum_nil, Item.init,
          Item.width_mk, ItemData.map, dataWidth, Literal.count, literalTaint,
          List.length_dropLast, hlength]
        omega
      · rfl
    · exact Nat.add_zero _
  rw [SegmentOf.width, SegmentOf.width, List.map_append, List.sum_append, hsplit, hinit,
    List.dropLast_concat, List.map_append, List.sum_append, List.map_singleton,
    List.sum_singleton]

end SegmentOf

/-! ## Width and steps -/

/-- The width of what a state owns. -/
def ParserState.width : ParserState → ℕ
  | .group g last => Group.width g + SegmentOf.width last
  | _ => 0

/-- Nothing is repeated, and the widths add up to at most `n`. -/
structure Within (n : ℕ) (state : List ParserState) : Prop where
  once : ∀ s ∈ state, s.Items Item.Once
  width_le : (state.map ParserState.width).sum ≤ n

theorem within_cons_iff {n : ℕ} {top : ParserState} {rest : List ParserState} :
    Within n (top :: rest) ↔
      top.Items Item.Once ∧ (∀ s ∈ rest, s.Items Item.Once) ∧
        top.width + (rest.map ParserState.width).sum ≤ n :=
  ⟨fun ⟨honce, hwidth⟩ => ⟨honce top List.mem_cons_self,
    fun s hs => honce s (List.mem_cons_of_mem top hs), hwidth⟩,
    fun ⟨htop, hrest, hwidth⟩ => ⟨List.forall_mem_cons.mpr ⟨htop, hrest⟩, hwidth⟩⟩

theorem within_group_iff {n : ℕ} {group : Group} {segment : Segment} {rest : List ParserState} :
    Within n (.group group segment :: rest) ↔
      ((∀ s ∈ group.segments, s.All Item.Once) ∧ segment.All Item.Once) ∧
        (∀ s ∈ rest, s.Items Item.Once) ∧
          Group.width group + SegmentOf.width segment + (rest.map ParserState.width).sum ≤ n :=
  within_cons_iff

namespace Within

variable {n n' : ℕ} {group : Group} {segment segment' : Segment} {rest : List ParserState}

theorem mono {state : List ParserState} (h : Within n state) (hn : n ≤ n') : Within n' state :=
  ⟨h.once, h.width_le.trans hn⟩

/-- Another last segment, at most `k` wider. -/
theorem last {k : ℕ} (h : Within n (.group group segment :: rest)) (honce : segment'.All Item.Once)
    (hwidth : SegmentOf.width segment' ≤ SegmentOf.width segment + k) :
    Within (n + k) (.group group segment' :: rest) := by
  obtain ⟨⟨hgroup, -⟩, hrest, hle⟩ := within_group_iff.mp h
  exact within_group_iff.mpr ⟨⟨hgroup, honce⟩, hrest, by omega⟩

theorem clean (h : Within n (.group group segment :: rest)) :
    Within n (.group group (segmentClean segment) :: rest) :=
  h.last (k := 0) (within_group_iff.mp h).1.2.clean (SegmentOf.width_clean_le segment)

/-- An item that is pushed. -/
theorem push (h : Within n (.group group segment :: rest)) {item : Item} (hitem : item.Once) :
    Within (n + item.width) (.group group (segment.push item) :: rest) :=
  h.last ((within_group_iff.mp h).1.2.push hitem) (SegmentOf.width_push segment item).le

/-- Rewriting the last item without making it wider. -/
theorem modifyLast (h : Within n (.group group segment :: rest)) {f : Item → Item}
    (honce : ∀ item, item.Once → (f item).Once) (hwidth : ∀ item, (f item).width = item.width) :
    Within n (.group group (segment.modifyLast f) :: rest) :=
  h.last (k := 0) ((within_group_iff.mp h).1.2.modifyLast_of honce)
    (SegmentOf.width_modifyLast segment hwidth).le

/-- A set is written to. -/
theorem modifySet (h : Within n (.group group segment :: rest)) (f : PatternSet → PatternSet) :
    Within n (.group group (segment.modifyLast (Item.modifySet f)) :: rest) := by
  refine h.modifyLast (fun item hitem => ?_) fun item => ?_
  · rcases item with ⟨_ | _ | _ | _, rep, maybe⟩
    · exact Item.once_mk.mpr ⟨trivial, (Item.once_mk.mp hitem).2⟩
    all_goals exact hitem
  · rcases item with ⟨_ | _ | _ | _, rep, maybe⟩
    · rw [Item.modifySet, Item.width_mk, Item.width_mk]
      rfl
    all_goals rfl

/-- The last item can be left out. -/
theorem maybe (h : Within n (.group group segment :: rest))
    (hlast : lastSingleItemTaint segment = some segment') :
    Within n (.group group
      (segment'.modifyLast fun item => .mk item.data item.rep true) :: rest) := by
  have hsplit : Within n (.group group segment' :: rest) :=
    h.last (k := 0) ((within_group_iff.mp h).1.2.lastSingleItemTaint ignoresText_once hlast)
      (SegmentOf.width_lastSingleItemTaint hlast).le
  refine hsplit.modifyLast (fun item hitem => ?_) fun item => ?_
  · rcases item with ⟨data, rep, maybe⟩
    exact Item.once_mk.mpr (Item.once_mk.mp hitem)
  · rcases item with ⟨data, rep, maybe⟩
    rw [Item.width_mk]
    exact (Item.width_mk data rep maybe).symm

/-- The last segment is kept or dropped, and a new one begins. -/
theorem bar (h : Within n (.group group segment :: rest)) (sum : ℕ) :
    Within n (.group ⟨group.segments ++ [segment], sum⟩ segmentInit :: rest) := by
  obtain ⟨⟨hgroup, hsegment⟩, hrest, hle⟩ := within_group_iff.mp h
  have hwidth : Group.width ⟨group.segments ++ [segment], sum⟩
      = Group.width group + SegmentOf.width segment := by
    rw [Group.width, List.map_append, List.sum_append, Group.width]
    rfl
  refine within_group_iff.mpr ⟨⟨fun s hs => ?_, .segmentInit⟩, hrest, ?_⟩
  · rcases List.mem_append.mp hs with hs | hs
    · exact hgroup s hs
    · exact List.mem_singleton.mp hs ▸ hsegment
  · rw [hwidth]
    exact hle

theorem recycle (h : Within n (.group group segment :: rest)) :
    Within n (.group group segmentInit :: rest) :=
  h.last (k := 0) .segmentInit (Nat.zero_le _)

/-- A group is closed and becomes an item. -/
theorem close {parent : Group} {last : Segment}
    (h : Within n (.group group segment :: .group parent last :: rest)) :
    Within n (.group parent (last.push (.init (.group
      (groupFinish { group with segments := keptSegments group segment })))) :: rest) := by
  obtain ⟨⟨hgroup, hsegment⟩, hbelow, hle⟩ := within_group_iff.mp h
  have honce := forall_keptSegments hgroup hsegment
  have hkept : ((keptSegments group segment).map SegmentOf.width).sum
      ≤ Group.width group + SegmentOf.width segment := by
    rw [keptSegments]
    split
    · exact Nat.le_add_right _ _
    · rw [List.map_append, List.sum_append]
      rfl
  have hitem : (Item.init (.group
      (groupFinish { group with segments := keptSegments group segment }))).Once :=
    Item.once_group.mpr ⟨by rwa [segments_groupFinish], rfl⟩
  have hwidth : (Item.init (.group
      (groupFinish { group with segments := keptSegments group segment }))).width
        ≤ Group.width group + SegmentOf.width segment := by
    rw [Item.init, Item.width_mk, ItemData.map, dataWidth, groupWidth_map, Group.width,
      segments_groupFinish]
    exact hkept
  have hparent : Within (n - (Group.width group + SegmentOf.width segment))
      (.group parent last :: rest) := ⟨hbelow, by omega⟩
  exact (hparent.push hitem).mono (by omega)

end Within

end Passgen
