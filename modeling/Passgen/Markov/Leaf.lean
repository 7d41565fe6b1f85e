import Mathlib.Algebra.BigOperators.Group.Finset.Piecewise
import Mathlib.Algebra.Group.Action.Defs
import Mathlib.Algebra.Order.BigOperators.Group.Finset
import Mathlib.Data.List.Basic
import Mathlib.Tactic.Common
import Passgen.Markov.Chain
import Passgen.Residue.Table

/-!
# Markov/Leaf — counts survive collisions

A leaf is a residue table of counts, in which a count of zero is a free slot.  Inserting always
succeeds, however the codepoints collide (`leafInsert_spec`): the size 1403641 is past every
codepoint.  A count is what was inserted modulo `2 ^ 32`, and the total is the sum of the counts as
long as none of them wraps.
-/

namespace Passgen

/-- The largest codepoint of Unicode. -/
def maxCodepoint : ℕ := 0x10FFFF

/-- The index of the first size past every codepoint. -/
def lastSizeIndex : ℕ := 18

/-- A capacity from the table of sizes that is left with enough sizes to grow `growths` times, or
needs no more of them. -/
def IsSize (growths capacity : ℕ) : Prop :=
  ∃ i ≤ lastSizeIndex, capacity = markovSize i ∧ lastSizeIndex ≤ i + growths

theorem sizeIndexOf_markovSize {i : ℕ} (hi : i ≤ lastSizeIndex) :
    sizeIndexOf (markovSize i) = i := by
  have hall : ∀ j ≤ lastSizeIndex, sizeIndexOf (markovSize j) = j := by decide
  exact hall i hi

theorem markovSize_pos {i : ℕ} (hi : i ≤ lastSizeIndex) : 0 < markovSize i := by
  have hall : ∀ j ≤ lastSizeIndex, 0 < markovSize j := by decide
  exact hall i hi

theorem markovSize_le {i : ℕ} (hi : i ≤ lastSizeIndex) :
    markovSize i ≤ markovSize lastSizeIndex := by
  have hall : ∀ j ≤ lastSizeIndex, markovSize j ≤ markovSize lastSizeIndex := by decide
  exact hall i hi

namespace IsSize

variable {growths capacity : ℕ}

theorem pos (h : IsSize growths capacity) : 0 < capacity := by
  obtain ⟨i, hi, rfl, -⟩ := h
  exact markovSize_pos hi

theorem le (h : IsSize growths capacity) : capacity ≤ markovSize lastSizeIndex := by
  obtain ⟨i, hi, rfl, -⟩ := h
  exact markovSize_le hi

theorem mono (h : IsSize growths capacity) {growths' : ℕ} (hle : growths ≤ growths') :
    IsSize growths' capacity := by
  obtain ⟨i, hi, hcap, hg⟩ := h
  exact ⟨i, hi, hcap, by omega⟩

/-- The smallest size, with all growths left. -/
theorem first : IsSize maxGrowths (markovSize 0) := ⟨0, by decide, rfl, by decide⟩

/-- Where codepoints collide there is a next size, and a growth to spare. -/
theorem next (h : IsSize growths capacity) (hlt : capacity ≤ maxCodepoint) :
    ∃ growths', growths = growths' + 1 ∧ markovSize (sizeIndexOf capacity + 1) ≠ 0 ∧
      IsSize growths' (markovSize (sizeIndexOf capacity + 1)) := by
  obtain ⟨i, hi, rfl, hg⟩ := h
  have hne : i ≠ lastSizeIndex := by
    rintro rfl
    exact absurd hlt (by decide)
  have hi' : i + 1 ≤ lastSizeIndex := by omega
  rw [sizeIndexOf_markovSize hi]
  refine ⟨growths - 1, by omega, (markovSize_pos hi').ne', i + 1, hi', rfl, by omega⟩

end IsSize

/-! ## A leaf as a table -/

/-- The table of counts. -/
def Leaf.view (leaf : Leaf) : Residue.Table ℕ :=
  ⟨leaf.capacity, fun i => if leaf.count i = 0 then none else some (leaf.codepoint i, leaf.count i)⟩

/-- A leaf that can be inserted into, with that many growths. -/
structure LeafOk (growths : ℕ) (leaf : Leaf) : Prop where
  size : IsSize growths leaf.capacity
  placed : leaf.view.Placed
  keys : ∀ k v, leaf.view.get k = some v → k ≤ maxCodepoint
  bound : ∀ i, leaf.count i < 2 ^ 32

/-- The total is the sum of the counts. -/
def Leaf.Exact (leaf : Leaf) : Prop :=
  leaf.totalCount = ∑ i ∈ Finset.range leaf.capacity, leaf.count i

theorem LeafOk.mono {growths growths' : ℕ} {leaf : Leaf} (h : LeafOk growths leaf)
    (hle : growths ≤ growths') : LeafOk growths' leaf :=
  { h with size := h.size.mono hle }

/-- A count is in the slot of its codepoint. -/
theorem LeafOk.placed_of_count {growths : ℕ} {leaf : Leaf} (h : LeafOk growths leaf) (i : ℕ)
    (hi : leaf.count i ≠ 0) : leaf.codepoint i % leaf.capacity = i :=
  h.placed i _ (leaf.count i) (by simp only [Leaf.view, if_neg hi])

/-- The count of a codepoint is its value in the table. -/
theorem leafCount_eq (leaf : Leaf) (c : ℕ) : leafCount leaf c = (leaf.view.get c).getD 0 := by
  rw [leafCount, Residue.Table.get]
  simp only [Leaf.view]
  by_cases hzero : leaf.count (c % leaf.capacity) = 0
  · rw [if_pos hzero, hzero]
    exact ite_self 0
  · rw [if_neg hzero]
    by_cases hkey : leaf.codepoint (c % leaf.capacity) = c
    · simp only [if_pos hkey, Option.getD_some]
    · simp only [if_neg hkey, Option.getD_none]

theorem room_of_not_collides {leaf : Leaf} {c : ℕ} (h : ¬leaf.Collides c) : leaf.view.Room c := by
  intro key value hslot
  simp only [Leaf.view] at hslot
  split at hslot
  · exact absurd hslot (by simp)
  · rename_i hcount
    obtain ⟨rfl, -⟩ : leaf.codepoint (c % leaf.capacity) = key ∧ _ := by simpa using hslot
    by_contra hne
    exact h ⟨hcount, hne⟩

/-- Where codepoints collide the capacity is not past all of them. -/
theorem LeafOk.capacity_le {growths : ℕ} {leaf : Leaf} (h : LeafOk growths leaf) {c : ℕ}
    (hc : c ≤ maxCodepoint) (hcollides : leaf.Collides c) : leaf.capacity ≤ maxCodepoint := by
  by_contra hlt
  have hroom : leaf.view.Room c :=
    h.placed.room (fun k v hk => (h.keys k v hk).trans_lt (not_le.mp hlt)) (by
      exact hc.trans_lt (not_le.mp hlt))
  refine hcollides.2 (hroom _ (leaf.count (c % leaf.capacity)) ?_)
  simp only [Leaf.view, if_neg hcollides.1]

/-- **Bumping a count** changes the count of its codepoint only. -/
theorem leafCount_bump {leaf : Leaf} {c : ℕ} (hroom : leaf.view.Room c) (weight x : ℕ) :
    leafCount (leaf.bump c weight) x
      = if x = c then (leafCount leaf c + weight) % 2 ^ 32 else leafCount leaf x := by
  have hold : leafCount leaf c = leaf.count (c % leaf.capacity) := by
    rw [leafCount]
    split
    · rfl
    · rename_i hkey
      by_contra hne
      refine hkey (hroom _ (leaf.count (c % leaf.capacity)) ?_)
      simp only [Leaf.view, if_neg (Ne.symm hne)]
  by_cases hx : x = c
  · subst hx
    rw [if_pos rfl, hold, leafCount, Leaf.bump]
    simp only [Function.update_self, if_true]
  rw [if_neg hx]
  by_cases hres : x % leaf.capacity = c % leaf.capacity
  · have hnone : leafCount leaf x = 0 := by
      rw [leafCount, hres]
      split
      · rename_i hkey
        by_contra hne
        have := hroom (leaf.codepoint (c % leaf.capacity)) (leaf.count (c % leaf.capacity))
          (by simp only [Leaf.view, if_neg hne])
        exact hx (hkey.symm.trans this)
      · rfl
    rw [hnone, leafCount, Leaf.bump]
    simp only [hres, Function.update_self, if_neg (Ne.symm hx)]
  · simp only [leafCount, Leaf.bump, Function.update_of_ne hres]

/-- The table, read off the counts. -/
theorem get_view (leaf : Leaf) (c : ℕ) :
    leaf.view.get c = if leafCount leaf c = 0 then none else some (leafCount leaf c) := by
  rw [leafCount, Residue.Table.get]
  simp only [Leaf.view]
  by_cases hzero : leaf.count (c % leaf.capacity) = 0
  · simp only [hzero, ite_self, if_true]
  · simp only [if_neg hzero]
    by_cases hkey : leaf.codepoint (c % leaf.capacity) = c
    · simp only [if_pos hkey, if_neg hzero]
    · simp only [if_neg hkey, if_true]

theorem leafCount_lt {growths : ℕ} {leaf : Leaf} (h : LeafOk growths leaf) (c : ℕ) :
    leafCount leaf c < 2 ^ 32 := by
  unfold leafCount
  split
  · exact h.bound _
  · decide

/-- Bumping keeps a leaf in order. -/
theorem LeafOk.bump {growths : ℕ} {leaf : Leaf} (h : LeafOk growths leaf) {c : ℕ}
    (hc : c ≤ maxCodepoint) (hroom : leaf.view.Room c) (weight : ℕ) :
    LeafOk growths (leaf.bump c weight) := by
  have hbound : ∀ i, (leaf.bump c weight).count i < 2 ^ 32 := by
    intro i
    simp only [Leaf.bump, Function.update_apply]
    split
    · exact Nat.mod_lt _ (by decide)
    · exact h.bound i
  refine ⟨h.size, ?_, ?_, hbound⟩
  · intro i k v hslot
    simp only [Leaf.view, Leaf.bump] at hslot ⊢
    by_cases hi : i = c % leaf.capacity
    · subst hi
      simp only [Function.update_self] at hslot
      split at hslot
      · exact absurd hslot (by simp)
      · obtain ⟨rfl, -⟩ : c = k ∧ _ := by simpa using hslot
        rfl
    · simp only [Function.update_of_ne hi] at hslot
      exact h.placed i k v hslot
  · intro k v hget
    rw [get_view, leafCount_bump hroom] at hget
    by_cases hk : k = c
    · exact hk ▸ hc
    · rw [if_neg hk, ← get_view] at hget
      exact h.keys k v hget

/-- The total follows, as long as the count does not wrap. -/
theorem Leaf.Exact.bump {growths : ℕ} {leaf : Leaf} (hexact : leaf.Exact) (h : LeafOk growths leaf)
    {c weight : ℕ} (hroom : leaf.view.Room c) (hlt : leafCount leaf c + weight < 2 ^ 32) :
    (leaf.bump c weight).Exact := by
  have hslot : c % leaf.capacity ∈ Finset.range leaf.capacity :=
    Finset.mem_range.mpr (Nat.mod_lt _ h.size.pos)
  have hcount : leafCount leaf c = leaf.count (c % leaf.capacity) := by
    have hself := leafCount_bump hroom 0 c
    rw [if_pos rfl, Nat.add_zero, Nat.mod_eq_of_lt (leafCount_lt h c)] at hself
    rw [← hself, leafCount, Leaf.bump]
    simp only [Function.update_self, if_true, Nat.add_zero]
    exact Nat.mod_eq_of_lt (h.bound _)
  have hsum : ∑ i ∈ Finset.range leaf.capacity, leaf.count i
      ≤ markovSize lastSizeIndex * 2 ^ 32 := by
    calc ∑ i ∈ Finset.range leaf.capacity, leaf.count i
        ≤ ∑ _i ∈ Finset.range leaf.capacity, 2 ^ 32 :=
          Finset.sum_le_sum fun i _ => (h.bound i).le
      _ = leaf.capacity * 2 ^ 32 := by rw [Finset.sum_const, Finset.card_range, smul_eq_mul]
      _ ≤ _ := Nat.mul_le_mul_right _ h.size.le
  have hsize : markovSize lastSizeIndex * 2 ^ 32 + 2 ^ 32 < 2 ^ 64 := by decide
  rw [Leaf.Exact] at hexact ⊢
  have htotal : (leaf.bump c weight).totalCount = leaf.totalCount + weight := by
    refine sizeT_of_lt ?_
    rw [hexact]
    omega
  have hmod : (leaf.count (c % leaf.capacity) + weight) % 2 ^ 32
      = leaf.count (c % leaf.capacity) + weight := Nat.mod_eq_of_lt (by omega)
  have hsplit := Finset.sum_eq_add_sum_sdiff_singleton_of_mem hslot leaf.count
  rw [htotal, hexact, Leaf.bump]
  simp only
  rw [hmod, Finset.sum_update_of_mem hslot]
  omega

/-- A leaf that counts something has a positive total. -/
theorem Leaf.Exact.pos {growths : ℕ} {leaf : Leaf} (hexact : leaf.Exact) (h : LeafOk growths leaf)
    {c : ℕ} (hc : 0 < leafCount leaf c) : 0 < leaf.totalCount := by
  have hslot : c % leaf.capacity ∈ Finset.range leaf.capacity :=
    Finset.mem_range.mpr (Nat.mod_lt _ h.size.pos)
  have hle : leafCount leaf c ≤ leaf.count (c % leaf.capacity) := by
    rw [leafCount]
    split
    · exact le_rfl
    · exact Nat.zero_le _
  rw [hexact]
  exact (hc.trans_le hle).trans_le (Finset.single_le_sum (fun _ _ => Nat.zero_le _) hslot)

/-! ## Inserting -/

theorem empty_view_new (capacity : ℕ) :
    (⟨0, capacity, fun _ => 0, fun _ => 0⟩ : Leaf).view.Empty := fun _ => rfl

/-- A new leaf is empty. -/
theorem leafNew_spec {growths sizeIndex : ℕ} (hsize : IsSize growths (markovSize sizeIndex))
    (hne : markovSize sizeIndex ≠ 0) :
    ∃ leaf, leafNew sizeIndex = some leaf ∧ LeafOk growths leaf ∧ leaf.Exact ∧
      ∀ x, leafCount leaf x = 0 := by
  have hempty := empty_view_new (markovSize sizeIndex)
  refine ⟨_, if_neg hne, ⟨hsize, hempty.placed, ?_, fun _ => Nat.two_pow_pos 32⟩, ?_, fun x => ?_⟩
  · exact fun k v hget => absurd (hget.symm.trans (hempty.get k)) (Option.some_ne_none v)
  · simp [Leaf.Exact]
  · exact ite_self 0

/-- Moving all counts into a leaf of the next size, with an insertion that works there. -/
theorem leafRealloc_spec {growths : ℕ} {leaf : Leaf} (h : LeafOk (growths + 1) leaf)
    (hcapacity : leaf.capacity ≤ maxCodepoint)
    (hinsert : ∀ new c weight, LeafOk growths new → c ≤ maxCodepoint →
      ∃ new', leafInsert growths new c weight = some new' ∧ LeafOk growths new' ∧
        (∀ x, leafCount new' x
          = if x = c then (leafCount new c + weight) % 2 ^ 32 else leafCount new x) ∧
        (new.Exact → leafCount new c + weight < 2 ^ 32 → new'.Exact)) :
    ∃ new, leafRealloc (leafInsert growths) leaf = some new ∧ LeafOk growths new ∧ new.Exact ∧
      ∀ x, leafCount new x = leafCount leaf x := by
  obtain ⟨_, hg, hne, hsize⟩ := h.size.next hcapacity
  obtain rfl := Nat.succ.inj hg
  obtain ⟨fresh, hfresh, hok, hexact, hzero⟩ := leafNew_spec hsize hne
  have hmove := Residue.Table.exists_foldlM_insert Leaf.view (leafInsert growths)
    (fun new => LeafOk growths new ∧ new.Exact) (· ≤ maxCodepoint) leaf.view h.placed h.keys ?_
    fresh ⟨hok, hexact⟩ (fun k => by rw [get_view, hzero]; rfl) h.size.pos
  · obtain ⟨new, hfold, ⟨hok', hexact'⟩, hget⟩ := hmove
    refine ⟨new, ?_, hok', hexact', fun x => ?_⟩
    · have hbody : (fun new i => if leaf.count i ≠ 0 then
            leafInsert growths new (leaf.codepoint i) (leaf.count i) else some new)
          = leaf.view.moveSlot (leafInsert growths) := by
        funext new i
        by_cases hi : leaf.count i = 0 <;> simp [Residue.Table.moveSlot, Leaf.view, hi]
      rw [leafRealloc, hfresh, hbody]
      simp only [Option.bind_eq_bind, Option.bind_some]
      exact hfold
    · rw [leafCount_eq, leafCount_eq, hget]
  · rintro new k v ⟨hnew, hnewExact⟩ hk hget hnone
    rw [get_view] at hget hnone
    have hzero' : leafCount new k = 0 := by
      by_contra hne'
      rw [if_neg hne'] at hnone
      exact absurd hnone (by simp)
    have hv : leafCount leaf k = v ∧ v ≠ 0 := by
      split at hget
      · exact absurd hget (by simp)
      · exact ⟨Option.some.inj hget, by rw [← Option.some.inj hget]; assumption⟩
    have hlt : v < 2 ^ 32 := hv.1 ▸ leafCount_lt h k
    obtain ⟨new', hins, hok', hcount, hexact'⟩ := hinsert new k v hnew hk
    rw [hzero', Nat.zero_add] at hcount hexact'
    refine ⟨new', hins, ⟨hok', hexact' hnewExact hlt⟩, fun k' => ?_⟩
    rw [get_view, get_view, hcount, Nat.mod_eq_of_lt hlt]
    by_cases hk' : k' = k
    · rw [if_pos hk', if_pos hk', if_neg hv.2]
    · rw [if_neg hk', if_neg hk']

theorem leafInsert_zero (growths : ℕ) (leaf : Leaf) (c : ℕ) :
    leafInsert growths leaf c 0 = some leaf := by
  cases growths <;> exact if_pos rfl

theorem leafInsert_bump (growths : ℕ) {leaf : Leaf} {c weight : ℕ} (hweight : weight ≠ 0)
    (hfree : ¬leaf.Collides c) : leafInsert growths leaf c weight = some (leaf.bump c weight) := by
  cases growths <;> exact (if_neg hweight).trans (if_neg hfree)

theorem leafInsert_grow (growths : ℕ) {leaf : Leaf} {c weight : ℕ} (hweight : weight ≠ 0)
    (hcollides : leaf.Collides c) :
    leafInsert (growths + 1) leaf c weight
      = (leafRealloc (leafInsert growths) leaf).bind fun leaf => leafInsert growths leaf c weight :=
  (if_neg hweight).trans (if_pos hcollides)

/-- Inserting where nothing is in the way. -/
theorem leafInsert_direct {growths : ℕ} {leaf : Leaf} (h : LeafOk growths leaf) {c : ℕ}
    (hc : c ≤ maxCodepoint) {weight : ℕ} (hfree : weight ≠ 0 → ¬leaf.Collides c) :
    ∃ leaf', leafInsert growths leaf c weight = some leaf' ∧ LeafOk growths leaf' ∧
      (∀ x, leafCount leaf' x
        = if x = c then (leafCount leaf c + weight) % 2 ^ 32 else leafCount leaf x) ∧
      (leaf.Exact → leafCount leaf c + weight < 2 ^ 32 → leaf'.Exact) := by
  by_cases hweight : weight = 0
  · subst hweight
    refine ⟨leaf, leafInsert_zero growths leaf c, h, fun x => ?_, fun hexact _ => hexact⟩
    rw [Nat.add_zero, Nat.mod_eq_of_lt (leafCount_lt h c)]
    split
    · rename_i hx
      rw [hx]
    · rfl
  · have hroom := room_of_not_collides (hfree hweight)
    exact ⟨_, leafInsert_bump growths hweight (hfree hweight), h.bump hc hroom weight,
      leafCount_bump hroom weight, fun hexact => hexact.bump h hroom⟩

/-- **Inserting adds the weight to the count of its codepoint**, modulo `2 ^ 32`, and to no other,
through any number of rebuilds. -/
theorem leafInsert_spec {growths : ℕ} {leaf : Leaf} (h : LeafOk growths leaf) {c : ℕ}
    (hc : c ≤ maxCodepoint) (weight : ℕ) :
    ∃ leaf', leafInsert growths leaf c weight = some leaf' ∧ LeafOk growths leaf' ∧
      (∀ x, leafCount leaf' x
        = if x = c then (leafCount leaf c + weight) % 2 ^ 32 else leafCount leaf x) ∧
      (leaf.Exact → leafCount leaf c + weight < 2 ^ 32 → leaf'.Exact) := by
  induction growths generalizing leaf c weight with
  | zero =>
    refine leafInsert_direct h hc fun _ hcollides => ?_
    obtain ⟨_, hg, -⟩ := h.size.next (h.capacity_le hc hcollides)
    exact absurd hg (Nat.zero_ne_add_one _)
  | succ growths ih =>
    by_cases hweight : weight = 0
    · exact leafInsert_direct h hc fun hne => absurd hweight hne
    by_cases hcollides : leaf.Collides c
    · obtain ⟨new, hnew, hok, hexact, hcount⟩ := leafRealloc_spec h
        (h.capacity_le hc hcollides) fun new c weight hnew hc => ih hnew hc weight
      obtain ⟨leaf', hins, hok', hcount', hexact'⟩ := ih hok hc weight
      refine ⟨leaf', ?_, hok'.mono (Nat.le_succ _), fun x => ?_, fun _ hlt => ?_⟩
      · rw [leafInsert_grow growths hweight hcollides, hnew, Option.bind_some, hins]
      · rw [hcount', hcount, hcount]
      · exact hexact' hexact (by rwa [hcount])
    · exact leafInsert_direct h hc fun _ => hcollides

end Passgen
