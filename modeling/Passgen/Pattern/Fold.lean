import Mathlib.Data.List.Basic
import Mathlib.Tactic.Common
import Passgen.Pattern.Tree

/-!
# Pattern/Fold — recursion and induction on pattern trees

An item is its data, over items; so the tree is the fixpoint of `ItemData`.  What a function does
with one item, given what it does with the items inside, is an *algebra* `ItemData β → Repeat →
Bool → β`, and `Item.fold` is the function.  `Item.induct` is the matching induction, and
`Group.Contains` ranges over the groups of a tree.
-/

namespace Passgen

variable {ι κ μ β : Type}

/-- The segment with every item mapped. -/
def SegmentOf.map (f : ι → κ) (segment : SegmentOf ι) : SegmentOf κ :=
  ⟨segment.items.map f, segment.multiplier⟩

/-- The group with every item mapped. -/
def GroupOf.map (f : ι → κ) (group : GroupOf ι) : GroupOf κ :=
  ⟨group.segments.map (SegmentOf.map f), group.multiplierSum⟩

/-- The data with every item mapped. -/
def ItemData.map (f : ι → κ) : ItemData ι → ItemData κ
  | .set s => .set s
  | .literal l => .literal l
  | .special s => .special s
  | .group g => .group (g.map f)

@[simp] theorem SegmentOf.items_map (f : ι → κ) (s : SegmentOf ι) :
    (s.map f).items = s.items.map f := rfl

@[simp] theorem SegmentOf.multiplier_map (f : ι → κ) (s : SegmentOf ι) :
    (s.map f).multiplier = s.multiplier := rfl

@[simp] theorem GroupOf.segments_map (f : ι → κ) (g : GroupOf ι) :
    (g.map f).segments = g.segments.map (SegmentOf.map f) := rfl

@[simp] theorem GroupOf.multiplierSum_map (f : ι → κ) (g : GroupOf ι) :
    (g.map f).multiplierSum = g.multiplierSum := rfl

theorem GroupOf.multipliers_map (f : ι → κ) (g : GroupOf ι) :
    (g.map f).segments.map SegmentOf.multiplier = g.segments.map SegmentOf.multiplier := by
  rw [GroupOf.segments_map, List.map_map]
  rfl

theorem GroupOf.map_map (f : ι → κ) (g : κ → μ) (group : GroupOf ι) :
    (group.map f).map g = group.map (g ∘ f) := by
  have hsegment : SegmentOf.map g ∘ SegmentOf.map f = SegmentOf.map (g ∘ f) :=
    funext fun segment => by rw [Function.comp_apply, SegmentOf.map, SegmentOf.items_map,
      List.map_map, SegmentOf.multiplier_map, SegmentOf.map]
  rw [GroupOf.map, GroupOf.segments_map, List.map_map, hsegment, GroupOf.multiplierSum_map,
    GroupOf.map]

/-! ## Folding -/

mutual

/-- The function an algebra defines on items. -/
def Item.fold (alg : ItemData β → Repeat → Bool → β) : Item → β
  | .mk data rep maybe => alg (foldData alg data) rep maybe

/-- Folding inside item data; `foldData_eq` says it is a `map`, and likewise below. -/
def foldData (alg : ItemData β → Repeat → Bool → β) : ItemData Item → ItemData β
  | .set s => .set s
  | .literal l => .literal l
  | .special s => .special s
  | .group g => .group (foldGroup alg g)

def foldGroup (alg : ItemData β → Repeat → Bool → β) : GroupOf Item → GroupOf β
  | ⟨segments, sum⟩ => ⟨foldSegments alg segments, sum⟩

def foldSegments (alg : ItemData β → Repeat → Bool → β) : List (SegmentOf Item) → List (SegmentOf β)
  | [] => []
  | segment :: segments => foldSegment alg segment :: foldSegments alg segments

def foldSegment (alg : ItemData β → Repeat → Bool → β) : SegmentOf Item → SegmentOf β
  | ⟨items, multiplier⟩ => ⟨foldItems alg items, multiplier⟩

def foldItems (alg : ItemData β → Repeat → Bool → β) : List Item → List β
  | [] => []
  | item :: items => item.fold alg :: foldItems alg items

end

section Fold

variable (alg : ItemData β → Repeat → Bool → β)

theorem foldItems_eq (items : List Item) : foldItems alg items = items.map (Item.fold alg) := by
  induction items with
  | nil => rfl
  | cons item items ih => rw [foldItems, ih, List.map_cons]

theorem foldSegments_eq (segments : List Segment) :
    foldSegments alg segments = segments.map (SegmentOf.map (Item.fold alg)) := by
  induction segments with
  | nil => rfl
  | cons segment segments ih =>
    rw [foldSegments, ih, List.map_cons, foldSegment, foldItems_eq, SegmentOf.map]

theorem foldData_eq (data : ItemData Item) : foldData alg data = data.map (Item.fold alg) := by
  cases data with
  | group group => rw [foldData, foldGroup, foldSegments_eq, ItemData.map, GroupOf.map]
  | _ => rfl

/-- **The recursion equation of a fold.** -/
@[simp] theorem Item.fold_mk (data : ItemData Item) (rep : Repeat) (maybe : Bool) :
    (Item.mk data rep maybe).fold alg = alg (data.map (Item.fold alg)) rep maybe := by
  rw [Item.fold, foldData_eq]

end Fold

/-! ## Induction -/

/-- `P` holds of every item directly inside. -/
def ItemData.All (P : ι → Prop) : ItemData ι → Prop
  | .group g => ∀ segment ∈ g.segments, ∀ item ∈ segment.items, P item
  | _ => True

/-- **Induction on items**: a property that holds of an item as soon as it holds of the items inside
holds of every item. -/
@[elab_as_elim]
theorem Item.induct {P : Item → Prop}
    (mk : ∀ data rep maybe, data.All P → P (.mk data rep maybe)) (item : Item) : P item := by
  refine Item.rec (motive_1 := P) (motive_2 := ItemData.All P)
    (motive_3 := fun group => ∀ segment ∈ group.segments, ∀ item ∈ segment.items, P item)
    (motive_4 := fun segments => ∀ segment ∈ segments, ∀ item ∈ segment.items, P item)
    (motive_5 := fun segment => ∀ item ∈ segment.items, P item)
    (motive_6 := fun items => ∀ item ∈ items, P item)
    mk (fun _ => trivial) (fun _ => trivial) (fun _ => trivial) (fun _ h => h) (fun _ _ h => h)
    ?_ ?_ (fun _ _ h => h) ?_ ?_ item
  · exact fun _ h => absurd h List.not_mem_nil
  · exact fun _ _ hhead htail => List.forall_mem_cons.mpr ⟨hhead, htail⟩
  · exact fun _ h => absurd h List.not_mem_nil
  · exact fun _ _ hhead htail => List.forall_mem_cons.mpr ⟨hhead, htail⟩

/-! ## The groups of a tree -/

/-- The groups of a tree: its root, and the groups of the items of its segments. -/
inductive Group.Contains : Group → Group → Prop where
  | root (g : Group) : Contains g g
  | item {g h k : Group} {s : Segment} {i : Item} (hs : s ∈ g.segments) (hi : i ∈ s.items)
      (hdata : i.data = .group h) (hk : Contains h k) : Contains g k

/-- `P` holds of every group inside the item. -/
def Item.Groups (P : Group → Prop) (item : Item) : Prop :=
  ∀ h, item.data = .group h → ∀ k, Group.Contains h k → P k

/-- `P` holds of every group inside the segment. -/
def SegmentOf.Groups (P : Group → Prop) (segment : Segment) : Prop :=
  ∀ item ∈ segment.items, item.Groups P

/-- A tree is its root and what its segments hold. -/
theorem Group.forall_contains_iff {P : Group → Prop} {g : Group} :
    (∀ k, Group.Contains g k → P k) ↔ P g ∧ ∀ s ∈ g.segments, s.Groups P := by
  constructor
  · exact fun h => ⟨h g (.root g), fun s hs i hi l hl k hk => h k (.item hs hi hl hk)⟩
  · rintro ⟨hg, hs⟩ k hk
    cases hk with
    | root => exact hg
    | item hmem hi hdata hk => exact hs _ hmem _ hi _ hdata k hk

/-- **The items of a tree**: what holds of the items of a group, and of the items of every group in
these, holds of the items of every group in the tree. -/
theorem Group.forall_contains_items {P : Item → Prop} {g : Group}
    (h : ∀ s ∈ g.segments, ∀ item ∈ s.items,
      P item ∧ item.Groups fun k => ∀ s ∈ k.segments, ∀ item ∈ s.items, P item) :
    ∀ k, g.Contains k → ∀ s ∈ k.segments, ∀ item ∈ s.items, P item :=
  Group.forall_contains_iff.mpr ⟨fun s hs item hitem => (h s hs item hitem).1,
    fun s hs item hitem => (h s hs item hitem).2⟩

theorem Item.groups_group_iff {P : Group → Prop} {g : Group} {rep : Repeat} {maybe : Bool} :
    (Item.mk (.group g) rep maybe).Groups P ↔ ∀ k, Group.Contains g k → P k := by
  constructor
  · exact fun h => h g rfl
  · rintro h _ ⟨⟩
    exact h

end Passgen
