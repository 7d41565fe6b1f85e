import Mathlib.Data.List.Basic
import Mathlib.Tactic.Common
import Passgen.Parser.Items

/-!
# Parser/Path — the items of a tree, by where they are

    group ─ (segment, item) ▸ item ─ (segment, item) ▸ item

A path leads from a group to an item inside of it: for each group on its way it has the index of a
segment, and the index of an item there.  `Stays` compares two trees path by path: a literal that is
tainted is the same in both, wherever there is an item in both.
-/

namespace Passgen

/-- The item of a group at an index of a segment. -/
def GroupOf.item (group : Group) (p : ℕ × ℕ) : Option Item :=
  group.segments[p.1]?.bind fun segment => segment.items[p.2]?

/-- The item a path leads to. -/
def GroupOf.itemAt : Group → List (ℕ × ℕ) → Option Item
  | _, [] => none
  | group, p :: path =>
    (group.item p).bind fun item =>
      if path = [] then some item
      else match item.data with
        | .group inner => inner.itemAt path
        | _ => none

theorem itemAt_nil_ne {group : Group} {x : Item} : group.itemAt [] ≠ some x := by
  simp [GroupOf.itemAt]

theorem itemAt_cons_iff {group : Group} {p : ℕ × ℕ} {path : List (ℕ × ℕ)} {x : Item} :
    group.itemAt (p :: path) = some x ↔ ∃ item, group.item p = some item ∧
      (path = [] ∧ item = x ∨ ∃ inner, item.data = .group inner ∧ inner.itemAt path = some x) := by
  rw [GroupOf.itemAt, Option.bind_eq_some_iff]
  refine exists_congr fun item => and_congr_right fun _ => ?_
  by_cases hpath : path = []
  · subst hpath
    rw [if_pos rfl]
    simp [GroupOf.itemAt]
  · rw [if_neg hpath]
    rcases item with ⟨_ | _ | _ | inner, rep, maybe⟩ <;> simp [hpath]

/-! ## Properties of all items -/

/-- `P` holds of every item of the tree. -/
def GroupOf.Everywhere (P : Item → Prop) (group : Group) : Prop :=
  ∀ path item, group.itemAt path = some item → P item

/-- `P` holds of the item, and of every item inside of it. -/
structure Item.Deep (P : Item → Prop) (item : Item) : Prop where
  self : P item
  inside : ∀ group, item.data = .group group → group.Everywhere P

section Everywhere

variable {P : Item → Prop} {group : Group} {item : Item}

theorem everywhere_of_segments (h : ∀ s ∈ group.segments, s.All (Item.Deep P)) :
    group.Everywhere P := by
  intro path x hx
  cases path with
  | nil => exact absurd hx itemAt_nil_ne
  | cons p path =>
    obtain ⟨item, hitem, hx⟩ := itemAt_cons_iff.mp hx
    obtain ⟨s, hs, hitem⟩ := Option.bind_eq_some_iff.mp hitem
    have hdeep := h s (List.mem_of_getElem? hs) item (List.mem_of_getElem? hitem)
    rcases hx with ⟨-, rfl⟩ | ⟨inner, hinner, hx⟩
    · exact hdeep.self
    · exact hdeep.inside inner hinner path x hx

/-- An item that is not a group has nothing inside. -/
theorem deep_leaf (h : P item) (hleaf : ∀ group, item.data ≠ .group group) : item.Deep P :=
  ⟨h, fun group hgroup => absurd hgroup (hleaf group)⟩

/-- A group of such items. -/
theorem deep_group (h : P item) (hdata : item.data = .group group)
    (hinside : group.Everywhere P) : item.Deep P := by
  refine ⟨h, fun inner hinner => ?_⟩
  obtain rfl := ItemData.group.inj (hdata.symm.trans hinner)
  exact hinside

end Everywhere

/-! ## What stays -/

/-- Wherever a path leads to a tainted literal, and still leads to an item, it is to the same
literal. -/
def GroupOf.Stays (group group' : Group) : Prop :=
  ∀ path item literal, group.itemAt path = some item → item.data = .literal literal →
    literal.tainted = true → ∀ item', group'.itemAt path = some item' →
      item'.data = .literal literal

/-- The same for two items. -/
structure Item.Stays (item item' : Item) : Prop where
  literal : ∀ literal, item.data = .literal literal → literal.tainted = true →
    item'.data = .literal literal
  group : ∀ group group', item.data = .group group → item'.data = .group group' →
    GroupOf.Stays group group'

/-- The same for two segments, index by index. -/
def SegmentOf.Stays (segment segment' : Segment) : Prop :=
  ∀ (i : ℕ) (item item' : Item), segment.items[i]? = some item → segment'.items[i]? = some item' →
    item.Stays item'

section Stays

variable {x x' : Item} {s s' : Segment} {sum sum' : ℕ}

theorem GroupOf.Stays.refl (group : Group) : GroupOf.Stays group group := by
  intro path item literal hitem hdata _ item' hitem'
  obtain rfl := Option.some.inj (hitem.symm.trans hitem')
  exact hdata

/-- An item with the same data. -/
theorem Item.Stays.of_data (h : x'.data = x.data) : x.Stays x' := by
  refine ⟨fun literal hdata _ => h.trans hdata, fun group group' hgroup hgroup' => ?_⟩
  obtain rfl := ItemData.group.inj (hgroup.symm.trans (h.symm.trans hgroup'))
  exact .refl group

/-- An item that was no literal, and has no items now. -/
theorem Item.Stays.of_empty (h : ∀ literal, x.data ≠ .literal literal)
    (h' : ∀ group, x'.data = .group group → ∀ p, group.item p = none) : x.Stays x' := by
  refine ⟨fun literal hdata => absurd hdata (h literal), fun group group' _ hgroup' => ?_⟩
  intro path item literal _ _ _ item' hitem'
  cases path with
  | nil => exact absurd hitem' itemAt_nil_ne
  | cons p path =>
    obtain ⟨inner, hinner, -⟩ := itemAt_cons_iff.mp hitem'
    exact absurd hinner (by simp [h' group' hgroup' p])

/-- **Trees stay** as their items do. -/
theorem GroupOf.Stays.of_items {group group' : Group}
    (h : ∀ p item item', group.item p = some item → group'.item p = some item' →
      Item.Stays item item') : group.Stays group' := by
  intro path x literal hx hdata htainted x' hx'
  cases path with
  | nil => exact absurd hx itemAt_nil_ne
  | cons p path =>
    obtain ⟨item, hitem, hx⟩ := itemAt_cons_iff.mp hx
    obtain ⟨item', hitem', hx'⟩ := itemAt_cons_iff.mp hx'
    have hstays := h p item item' hitem hitem'
    rcases hx with ⟨rfl, rfl⟩ | ⟨inner, hinner, hx⟩
    · rcases hx' with ⟨-, rfl⟩ | ⟨inner', -, hx'⟩
      · exact hstays.literal literal hdata htainted
      · exact absurd hx' itemAt_nil_ne
    · rcases hx' with ⟨rfl, rfl⟩ | ⟨inner', hinner', hx'⟩
      · exact absurd hx itemAt_nil_ne
      · exact hstays.group inner inner' hinner hinner' path x literal hx hdata htainted x' hx'

/-- **Groups with the same segments in front** of the last one. -/
theorem GroupOf.Stays.concat {segments after : List Segment}
    (h : ∀ s', after.head? = some s' → s.Stays s') :
    GroupOf.Stays ⟨segments ++ [s], sum⟩ ⟨segments ++ after, sum'⟩ := by
  refine .of_items fun p item item' hitem hitem' => ?_
  obtain ⟨t, ht, hitem⟩ := Option.bind_eq_some_iff.mp hitem
  obtain ⟨t', ht', hitem'⟩ := Option.bind_eq_some_iff.mp hitem'
  rw [List.getElem?_append] at ht ht'
  split at ht
  · rename_i hlt
    rw [if_pos hlt] at ht'
    obtain rfl := Option.some.inj (ht.symm.trans ht')
    obtain rfl := Option.some.inj (hitem.symm.trans hitem')
    exact .of_data rfl
  · rename_i hlt
    rw [if_neg hlt] at ht'
    obtain ⟨hindex, rfl⟩ : p.1 - segments.length = 0 ∧ s = t := by
      simpa [List.getElem?_singleton] using ht
    rw [hindex, ← List.head?_eq_getElem?] at ht'
    exact h t' ht' p.2 item item' hitem hitem'

/-! ## Segments -/

theorem SegmentOf.Stays.of_nil (h : s'.items = []) : s.Stays s' := by
  intro i item item' _ hitem'
  exact absurd hitem' (by simp [h])

theorem SegmentOf.Stays.refl (s : Segment) : SegmentOf.Stays s s := by
  intro i item item' hitem hitem'
  obtain rfl := Option.some.inj (hitem.symm.trans hitem')
  exact .of_data rfl

theorem SegmentOf.getLast?_modifyLast {f : Item → Item} :
    (s.modifyLast f).items.getLast? = s.items.getLast?.map f := by
  rcases List.eq_nil_or_concat s.items with hnil | ⟨init, last, hconcat⟩
  · rw [SegmentOf.modifyLast, hnil]
    rfl
  · rw [List.concat_eq_append] at hconcat
    rw [SegmentOf.modifyLast, hconcat, List.modifyLast_concat, List.getLast?_concat,
      List.getLast?_concat, Option.map_some]

theorem SegmentOf.getElem?_modifyLast {f : Item → Item} {i : ℕ}
    (h : (s.modifyLast f).items[i]? = some x') :
    ∃ x, s.items[i]? = some x ∧ (x' = x ∨ s.items.getLast? = some x ∧ x' = f x) := by
  rcases List.eq_nil_or_concat s.items with hnil | ⟨init, last, hconcat⟩
  · have hempty : (s.modifyLast f).items = [] := by
      rw [SegmentOf.modifyLast, hnil]
      rfl
    exact absurd h (by simp [hempty])
  · rw [List.concat_eq_append] at hconcat
    rw [SegmentOf.modifyLast, hconcat, List.modifyLast_concat, List.getElem?_append] at h
    rw [hconcat, List.getElem?_append]
    split at h
    · rename_i hlt
      exact ⟨x', (if_pos hlt).trans h, .inl rfl⟩
    · rename_i hlt
      obtain ⟨hindex, rfl⟩ : i - init.length = 0 ∧ f last = x' := by
        simpa [List.getElem?_singleton] using h
      exact ⟨last, by rw [if_neg hlt, hindex]; rfl, .inr ⟨List.getLast?_concat, rfl⟩⟩

theorem data_resetRepeat (item : Item) : (resetRepeat item).data = item.data := rfl

theorem data_modifyRepeat (f : Repeat → Repeat) (item : Item) :
    (item.modifyRepeat f).data = item.data := rfl

theorem data_setMaybe (item : Item) : (Item.mk item.data item.rep true).data = item.data := rfl

/-- **Rewriting the last item**, without its data. -/
theorem SegmentOf.Stays.modifyLast {f : Item → Item} (h : s.Stays s')
    (hf : ∀ item, (f item).data = item.data) : s.Stays (s'.modifyLast f) := by
  intro i item item' hitem hitem'
  obtain ⟨x, hx, rfl | ⟨-, rfl⟩⟩ := SegmentOf.getElem?_modifyLast hitem'
  · exact h i item item' hitem hx
  · have hstays := h i item x hitem hx
    exact ⟨fun literal hdata htainted => (hf x).trans (hstays.literal literal hdata htainted),
      fun group group' hgroup hgroup' =>
        hstays.group group group' hgroup ((hf x).symm.trans hgroup')⟩

/-- Rewriting the last item where it stays. -/
theorem SegmentOf.stays_modifyLast {f : Item → Item}
    (hf : ∀ item, s.items.getLast? = some item → Item.Stays item (f item)) :
    s.Stays (s.modifyLast f) := by
  intro i item item' hitem hitem'
  obtain ⟨x, hx, h⟩ := SegmentOf.getElem?_modifyLast hitem'
  obtain rfl := Option.some.inj (hitem.symm.trans hx)
  rcases h with rfl | ⟨hlast, rfl⟩
  · exact .of_data rfl
  · exact hf item hlast

theorem SegmentOf.stays_push (item : Item) : s.Stays (s.push item) := by
  intro i x x' hx hx'
  obtain ⟨hlt, -⟩ := List.getElem?_eq_some_iff.mp hx
  rw [SegmentOf.push, List.getElem?_append_left hlt] at hx'
  obtain rfl := Option.some.inj (hx.symm.trans hx')
  exact .of_data rfl

/-- The same segment, with different groups behind it. -/
theorem SegmentOf.stays_push_group {group group' : Group} (h : GroupOf.Stays group group') :
    SegmentOf.Stays (s.push (.init (.group group))) (s.push (.init (.group group'))) := by
  intro i item item' hitem hitem'
  rw [SegmentOf.push, List.getElem?_append] at hitem hitem'
  split at hitem
  · rename_i hlt
    rw [if_pos hlt] at hitem'
    obtain rfl := Option.some.inj (hitem.symm.trans hitem')
    exact .of_data rfl
  · rename_i hlt
    rw [if_neg hlt] at hitem'
    obtain ⟨hindex, rfl⟩ : i - s.items.length = 0 ∧ Item.init (.group group) = item := by
      simpa [List.getElem?_singleton] using hitem
    obtain ⟨-, rfl⟩ : i - s.items.length = 0 ∧ Item.init (.group group') = item' := by
      simpa [List.getElem?_singleton] using hitem'
    refine ⟨fun literal hdata => absurd hdata (by simp [Item.init]), ?_⟩
    rintro k k' hk hk'
    obtain rfl := ItemData.group.inj hk
    obtain rfl := ItemData.group.inj hk'
    exact h

/-- What cleaning removes. -/
theorem segmentClean_cases (s : Segment) :
    segmentClean s = s ∨ ∃ (group : Group) (rep : Repeat) (maybe : Bool), group.multiplierSum = 0 ∧
      s.items = (segmentClean s).items ++ [.mk (.group group) rep maybe] := by
  unfold segmentClean
  split
  · rename_i group rep maybe hlast
    split
    · rename_i hsum
      obtain ⟨init, hinit⟩ := List.getLast?_eq_some_iff.mp hlast
      refine .inr ⟨group, rep, maybe, hsum, ?_⟩
      rw [hinit, List.dropLast_concat]
    · exact .inl rfl
  · exact .inl rfl

/-- Behind the items of `s` there is no group with items. -/
def SegmentOf.Fresh (s s' : Segment) : Prop :=
  ∀ item, s'.items[s.items.length]? = some item → ∀ group, item.data = .group group →
    ∀ p, group.item p = none

theorem SegmentOf.fresh_push {item : Item}
    (h : ∀ group, item.data = .group group → ∀ p, group.item p = none) :
    s.Fresh (s.push item) := by
  intro x hx
  rw [SegmentOf.push, List.getElem?_concat_length] at hx
  exact Option.some.inj hx ▸ h

theorem SegmentOf.Fresh.modifyLast {f : Item → Item} (h : s.Fresh s')
    (hf : ∀ item, (f item).data = item.data) : s.Fresh (s'.modifyLast f) := by
  intro item hitem group hgroup
  obtain ⟨x, hx, rfl | ⟨-, rfl⟩⟩ := SegmentOf.getElem?_modifyLast hitem
  · exact h item hx group hgroup
  · exact h x hx group ((hf x).symm.trans hgroup)

theorem SegmentOf.fresh_modifyLast {f : Item → Item} : s.Fresh (s.modifyLast f) := by
  intro item hitem
  obtain ⟨x, hx, -⟩ := SegmentOf.getElem?_modifyLast hitem
  exact absurd hx (by simp)

/-- **Where an item was removed**, a fresh one may follow. -/
theorem SegmentOf.Stays.of_clean (h : (segmentClean s).Stays s')
    (hfresh : (segmentClean s).Fresh s') : s.Stays s' := by
  rcases segmentClean_cases s with hclean | ⟨group, rep, maybe, -, hitems⟩
  · exact hclean ▸ h
  intro i item item' hitem hitem'
  rw [hitems, List.getElem?_append] at hitem
  split at hitem
  · exact h i item item' hitem hitem'
  · rename_i hlt
    obtain ⟨hindex, rfl⟩ : i - (segmentClean s).items.length = 0 ∧
        Item.mk (.group group) rep maybe = item := by
      simpa [List.getElem?_singleton] using hitem
    obtain rfl : i = (segmentClean s).items.length :=
      Nat.le_antisymm (Nat.le_of_sub_eq_zero hindex) (Nat.not_lt.mp hlt)
    exact .of_empty (by simp) (hfresh item' hitem')

theorem SegmentOf.stays_clean (s : Segment) : s.Stays (segmentClean s) :=
  .of_clean (.refl _) fun _ h => absurd h (by simp)

end Stays

/-! ## The tree of a stack -/

/-- The tree above an open group. -/
def enclose (inner : Group) : List ParserState → Group
  | [] => inner
  | .group g s :: rest =>
    enclose ⟨g.segments ++ [s.push (.init (.group inner))], g.multiplierSum⟩ rest
  | _ :: rest => enclose inner rest

/-- The tree the states of the stack lead into: each open group is the last item of the segment it
was opened in. -/
def tree : List ParserState → Group
  | [] => groupInit
  | .group g s :: rest => enclose ⟨g.segments ++ [s], g.multiplierSum⟩ rest
  | _ :: rest => tree rest

section Tree

variable {P : Item → Prop} {g inner inner' : Group} {s s' : Segment} {sum : ℕ}
  {rest state : List ParserState}

theorem GroupOf.Stays.enclose (h : GroupOf.Stays inner inner') (rest : List ParserState) :
    (enclose inner rest).Stays (enclose inner' rest) := by
  induction rest generalizing inner inner' with
  | nil => exact h
  | cons top rest ih =>
    cases top with
    | group g s =>
      refine ih (.concat fun s' hs' => ?_)
      obtain rfl := Option.some.inj hs'
      exact SegmentOf.stays_push_group h
    | _ => exact ih h

/-- **The tree stays** where the last segment of the top group does. -/
theorem SegmentOf.Stays.tree (h : s.Stays s') :
    (tree (.group g s :: rest)).Stays (tree (.group ⟨g.segments, sum⟩ s' :: rest)) := by
  refine GroupOf.Stays.enclose (.concat fun t ht => ?_) rest
  obtain rfl := Option.some.inj ht
  exact h

theorem all_concat {segments : List Segment} (hsegments : ∀ s ∈ segments, s.All P)
    (hs : s.All P) : ∀ t ∈ segments ++ [s], t.All P := by
  intro t ht
  rcases List.mem_append.mp ht with ht | ht
  · exact hsegments t ht
  · exact List.mem_singleton.mp ht ▸ hs

theorem everywhere_enclose (hP : ∀ group, P (.init (.group group))) (hinner : inner.Everywhere P)
    (hrest : AllItems (Item.Deep P) rest) : (enclose inner rest).Everywhere P := by
  induction rest generalizing inner with
  | nil => exact hinner
  | cons top rest ih =>
    cases top with
    | group g s =>
      obtain ⟨hsegments, hs⟩ := (allItems_cons_iff.mp hrest).1
      refine ih (everywhere_of_segments (all_concat hsegments (hs.push ?_))) hrest.below
      exact deep_group (hP inner) rfl hinner
    | _ => exact ih hinner hrest.below

/-- **What holds of all items of a stack** holds everywhere in its tree. -/
theorem everywhere_tree (hP : ∀ group, P (.init (.group group)))
    (h : AllItems (Item.Deep P) state) : (tree state).Everywhere P := by
  induction state with
  | nil => exact everywhere_of_segments fun s hs => absurd hs List.not_mem_nil
  | cons top rest ih =>
    cases top with
    | group g s =>
      obtain ⟨hsegments, hs⟩ := (allItems_cons_iff.mp h).1
      exact everywhere_enclose hP (everywhere_of_segments (all_concat hsegments hs)) h.below
    | _ => exact ih h.below

end Tree

end Passgen
