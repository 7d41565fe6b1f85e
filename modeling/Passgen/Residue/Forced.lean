import Mathlib.Data.Set.Basic
import Mathlib.Tactic.Common
import Passgen.Residue.Table

/-!
# Residue/Forced — sizes that collisions force

A table that grows only where two of its keys collide has the first size at which they do not.  Its
size is then a function of its keys, and with every key in the slot of its residue so is the whole
table (`Table.eq_of_get`).
-/

namespace Residue

/-- Two of the keys have one residue. -/
def Collision (keys : Set ℕ) (capacity : ℕ) : Prop :=
  ∃ a ∈ keys, ∃ b ∈ keys, a ≠ b ∧ a % capacity = b % capacity

/-- The keys collide in every size before this one. -/
def Forced (size : ℕ → ℕ) (keys : Set ℕ) (i : ℕ) : Prop := ∀ j < i, Collision keys (size j)

section Sizes

variable {size : ℕ → ℕ} {keys : Set ℕ} {i : ℕ}

theorem Collision.mono {capacity : ℕ} (h : Collision keys capacity) {keys' : Set ℕ}
    (hsub : keys ⊆ keys') : Collision keys' capacity := by
  obtain ⟨a, ha, b, hb, hne, hmod⟩ := h
  exact ⟨a, hsub ha, b, hsub hb, hne, hmod⟩

theorem forced_zero : Forced size keys 0 := fun _ hj => absurd hj (Nat.not_lt_zero _)

theorem Forced.mono (h : Forced size keys i) {keys' : Set ℕ} (hsub : keys ⊆ keys') :
    Forced size keys' i := fun j hj => (h j hj).mono hsub

/-- A collision forces the next size. -/
theorem Forced.succ (h : Forced size keys i) (hcollides : Collision keys (size i)) :
    Forced size keys (i + 1) := by
  intro j hj
  rcases Nat.lt_succ_iff_lt_or_eq.mp hj with hlt | rfl
  · exact h j hlt
  · exact hcollides

/-- **There is one forced size without collisions.** -/
theorem Forced.unique (h : Forced size keys i) (hfree : ¬Collision keys (size i)) {i' : ℕ}
    (h' : Forced size keys i') (hfree' : ¬Collision keys (size i')) : i = i' := by
  rcases Nat.lt_trichotomy i i' with hlt | heq | hgt
  · exact absurd (h' i hlt) hfree
  · exact heq
  · exact absurd (h i' hgt) hfree'

end Sizes

namespace Table

variable {β : Type*} {t t' : Table β} {size : ℕ → ℕ}

/-- The keys that have a value. -/
def keys (t : Table β) : Set ℕ := {k | (t.get k).isSome}

theorem mem_keys {k : ℕ} : k ∈ t.keys ↔ ∃ v, t.get k = some v := Option.isSome_iff_exists

/-- The table has the size its keys force. -/
def Fitted (size : ℕ → ℕ) (t : Table β) : Prop := ∃ i, t.capacity = size i ∧ Forced size t.keys i

/-- The keys of a table do not collide in it. -/
theorem not_collision_keys (t : Table β) : ¬Collision t.keys t.capacity := by
  rintro ⟨a, ha, b, hb, hne, hmod⟩
  obtain ⟨v, hv⟩ := mem_keys.mp ha
  obtain ⟨w, hw⟩ := mem_keys.mp hb
  rw [get_eq_some_iff] at hv hw
  rw [hmod, hw] at hv
  exact hne (congrArg Prod.fst (Option.some.inj hv)).symm

theorem keys_congr (hget : ∀ k, t.get k = t'.get k) : t.keys = t'.keys := by
  ext k
  rw [keys, keys, Set.mem_ofPred_eq, Set.mem_ofPred_eq, hget]

theorem Fitted.capacity_eq (h : t.Fitted size) (h' : t'.Fitted size)
    (hget : ∀ k, t.get k = t'.get k) : t.capacity = t'.capacity := by
  obtain ⟨i, hi, hforced⟩ := h
  obtain ⟨i', hi', hforced'⟩ := h'
  have hfree := t.not_collision_keys
  have hfree' := t'.not_collision_keys
  rw [hi] at hfree
  rw [hi', ← keys_congr hget] at hfree'
  rw [← keys_congr hget] at hforced'
  rw [hi, hi', hforced.unique hfree hforced' hfree']

/-- Where every key sits in its slot, the slots of tables of one size are read off their values. -/
theorem slot_eq_some_of_get (hplaced : t.Placed) (hcapacity : t.capacity = t'.capacity)
    (hget : ∀ k, t.get k = t'.get k) {i : ℕ} {kv : ℕ × β} (hslot : t.slot i = some kv) :
    t'.slot i = some kv := by
  obtain ⟨k, v⟩ := kv
  have hk := hplaced.get hslot
  rw [hget, get_eq_some_iff, ← hcapacity, hplaced i k v hslot] at hk
  exact hk

/-- **A fitted table is a function of its values.** -/
theorem eq_of_get (hplaced : t.Placed) (hplaced' : t'.Placed) (h : t.Fitted size)
    (h' : t'.Fitted size) (hget : ∀ k, t.get k = t'.get k) : t = t' := by
  have hcapacity := h.capacity_eq h' hget
  have hslots : t.slot = t'.slot := by
    ext1 i
    cases hslot : t.slot i with
    | some kv => exact (slot_eq_some_of_get hplaced hcapacity hget hslot).symm
    | none => cases hslot' : t'.slot i with
      | some kv =>
        have hmoved := slot_eq_some_of_get hplaced' hcapacity.symm (fun k => (hget k).symm) hslot'
        exact absurd (hslot.symm.trans hmoved).symm (Option.some_ne_none kv)
      | none => rfl
  cases t
  exact Table.mk.injEq .. ▸ ⟨hcapacity, hslots⟩

end Table

end Residue
