import Mathlib.Data.List.Basic
import Mathlib.Logic.Function.Basic
import Mathlib.Tactic.Common

/-!
# Residue/Table — tables addressed by residue

A key belongs into the slot of its residue modulo the capacity, and into no other: two keys with one
residue cannot be stored together, and the table has to grow until their residues differ.
-/

namespace Residue

/-- A table: its capacity, and the key and value in every slot that is taken. -/
structure Table (β : Type*) where
  capacity : ℕ
  slot : ℕ → Option (ℕ × β)

namespace Table

variable {β τ : Type*}

/-- The value of a key. -/
def get (t : Table β) (k : ℕ) : Option β :=
  match t.slot (k % t.capacity) with
  | some (key, value) => if key = k then some value else none
  | none => none

/-- The slot of the key is free, or the key's own. -/
def Room (t : Table β) (k : ℕ) : Prop :=
  ∀ key value, t.slot (k % t.capacity) = some (key, value) → key = k

/-- The table with a slot rewritten. -/
def set (t : Table β) (k : ℕ) (v : β) : Table β :=
  { t with slot := Function.update t.slot (k % t.capacity) (some (k, v)) }

/-- Every key sits in the slot of its residue. -/
def Placed (t : Table β) : Prop := ∀ i k v, t.slot i = some (k, v) → k % t.capacity = i

/-- A table of free slots. -/
def Empty (t : Table β) : Prop := ∀ i, t.slot i = none

theorem Empty.get {t : Table β} (h : t.Empty) (k : ℕ) : t.get k = none := by
  rw [Table.get, h]

theorem Empty.placed {t : Table β} (h : t.Empty) : t.Placed := by
  intro i k v hslot
  rw [h] at hslot
  exact absurd hslot (by simp)

theorem get_eq_some_iff {t : Table β} {k : ℕ} {v : β} :
    t.get k = some v ↔ t.slot (k % t.capacity) = some (k, v) := by
  unfold get
  rcases t.slot (k % t.capacity) with _ | ⟨key, value⟩
  · simp
  · by_cases h : key = k
    · simp [h]
    · simp [h]

/-- A taken slot holds the value of its key. -/
theorem Placed.get {t : Table β} (h : t.Placed) {i k : ℕ} {v : β}
    (hslot : t.slot i = some (k, v)) : t.get k = some v := by
  rw [get_eq_some_iff, h i k v hslot, hslot]

/-- **Writing a key changes that key only**, where there is room for it. -/
theorem get_set {t : Table β} {k : ℕ} (hroom : t.Room k) (v : β) (k' : ℕ) :
    (t.set k v).get k' = if k' = k then some v else t.get k' := by
  by_cases hk : k' = k
  · subst hk
    rw [if_pos rfl, get_eq_some_iff, set]
    exact Function.update_self _ _ _
  rw [if_neg hk]
  by_cases hres : k' % t.capacity = k % t.capacity
  · have hnone : t.get k' = none := by
      rw [get, hres]
      rcases hslot : t.slot (k % t.capacity) with _ | ⟨key, value⟩
      · rfl
      · rw [hroom key value hslot]
        exact if_neg (Ne.symm hk)
    rw [hnone, get, set]
    simp only [hres, Function.update_self]
    exact if_neg (Ne.symm hk)
  · simp only [get, set, Function.update_of_ne hres]

theorem Placed.set {t : Table β} (h : t.Placed) (k : ℕ) (v : β) : (t.set k v).Placed := by
  intro i key value hslot
  by_cases hi : i = k % t.capacity
  · rw [Table.set, hi] at hslot
    simp only [Function.update_self, Option.some.injEq, Prod.mk.injEq] at hslot
    rw [hi, ← hslot.1]
    rfl
  · rw [Table.set] at hslot
    simp only [Function.update_of_ne hi] at hslot
    exact h i key value hslot

/-- Past the keys, no two of them collide. -/
theorem Placed.room {t : Table β} (h : t.Placed)
    (hkeys : ∀ k v, t.get k = some v → k < t.capacity) {k : ℕ} (hk : k < t.capacity) :
    t.Room k := by
  intro key value hslot
  have hres := h _ key value hslot
  rwa [Nat.mod_eq_of_lt hk, Nat.mod_eq_of_lt (hkeys key value (h.get hslot))] at hres

/-- Moving the key in slot `i`, if there is one, into `new`. -/
def moveSlot (insert : τ → ℕ → β → Option τ) (t : Table β) (new : τ) (i : ℕ) : Option τ :=
  match t.slot i with
  | some (k, v) => insert new k v
  | none => some new

/-- **Moving a table slot by slot** into one that inserts correctly: every key has moved with its
value.  `Good` is what insertion needs and keeps. -/
theorem exists_foldlM_insert (view : τ → Table β) (insert : τ → ℕ → β → Option τ)
    (Good : τ → Prop) (Key : ℕ → Prop) (t : Table β) (hplaced : t.Placed)
    (hkeys : ∀ k v, t.get k = some v → Key k)
    (hinsert : ∀ new k v, Good new → Key k → t.get k = some v → (view new).get k = none →
      ∃ new', insert new k v = some new' ∧ Good new' ∧
        ∀ k', (view new').get k' = if k' = k then some v else (view new).get k')
    (new : τ) (hnew : Good new) (hempty : ∀ k, (view new).get k = none)
    (hcapacity : 0 < t.capacity) :
    ∃ new', (List.range t.capacity).foldlM (t.moveSlot insert) new = some new' ∧ Good new' ∧
      ∀ k, (view new').get k = t.get k := by
  -- after the slots below `n`, the keys with a residue below `n` have moved
  suffices hall : ∀ n, ∃ new', (List.range n).foldlM (t.moveSlot insert) new = some new' ∧
      Good new' ∧
      ∀ k, (view new').get k = if k % t.capacity < n then t.get k else none by
    obtain ⟨new', hfold, hgood, hget⟩ := hall t.capacity
    refine ⟨new', hfold, hgood, fun k => ?_⟩
    rw [hget, if_pos (Nat.mod_lt _ hcapacity)]
  intro n
  induction n with
  | zero => exact ⟨new, rfl, hnew, fun k => by rw [hempty, if_neg (Nat.not_lt_zero _)]⟩
  | succ n ih =>
    obtain ⟨mid, hfold, hgood, hget⟩ := ih
    rw [List.range_succ]
    simp only [List.foldlM_append, hfold, Option.bind_eq_bind, Option.bind_some, List.foldlM_cons,
      List.foldlM_nil, moveSlot]
    rcases hslot : t.slot n with _ | ⟨k, v⟩
    · refine ⟨mid, rfl, hgood, fun k => ?_⟩
      rw [hget]
      rcases Nat.lt_trichotomy (k % t.capacity) n with hlt | heq | hgt
      · rw [if_pos hlt, if_pos (by omega)]
      · rw [if_neg (by omega), if_pos (by omega), get, heq, hslot]
      · rw [if_neg (by omega), if_neg (by omega)]
    · have hres := hplaced n k v hslot
      have hk := hplaced.get hslot
      obtain ⟨new', hins, hgood', hget'⟩ := hinsert mid k v hgood (hkeys k v hk) hk
        (by rw [hget, if_neg (by omega)])
      refine ⟨new', by simp [hins], hgood', fun k' => ?_⟩
      rw [hget', hget]
      by_cases hk' : k' = k
      · rw [if_pos hk', if_pos (by rw [hk']; omega), hk', hk]
      rw [if_neg hk']
      rcases Nat.lt_trichotomy (k' % t.capacity) n with hlt | heq | hgt
      · rw [if_pos hlt, if_pos (by omega)]
      · rw [if_neg (by omega), if_pos (by omega), get, heq, hslot]
        exact (if_neg (Ne.symm hk')).symm
      · rw [if_neg (by omega), if_neg (by omega)]

end Table

/-- A loop whose steps do more does more. -/
theorem foldlM_mono {α β : Type*} {f g : β → α → Option β}
    (h : ∀ b a b', f b a = some b' → g b a = some b') {l : List α} {b b' : β}
    (hrun : l.foldlM f b = some b') : l.foldlM g b = some b' := by
  induction l generalizing b with
  | nil => exact hrun
  | cons a l ih =>
    obtain ⟨next, hstep, hrest⟩ := Option.bind_eq_some_iff.mp hrun
    exact Option.bind_eq_some_iff.mpr ⟨next, h b a next hstep, ih hrest⟩

end Residue
