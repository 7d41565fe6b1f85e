import Mathlib.Data.Finmap
import Mathlib.Tactic.Common

/-!
# Slots/Represents — a list of entries as a finite map

Entries of pairwise different classes are a finite map from classes to entries.  The map is read and
written through the list: a permutation changes nothing (`Represents.perm`), a new class is an entry
more (`Represents.insert_new`), and the entry of a class can be replaced (`Represents.insert_old`)
or dropped (`Represents.erase`).
-/

namespace Slots

variable {α γ : Type*} {classOf : γ → α} {entries entries' rest : List γ} {e old : γ}

/-- The entries are those of the map, each under its class. -/
def Represents (classOf : γ → α) (entries : List γ) (m : Finmap fun _ : α => γ) : Prop :=
  m.entries = (entries.map fun e => (⟨classOf e, e⟩ : Sigma fun _ : α => γ) : Multiset _)

namespace Represents

variable {m : Finmap fun _ : α => γ}

theorem empty : Represents classOf [] (∅ : Finmap fun _ : α => γ) := rfl

theorem perm (h : Represents classOf entries m) (hperm : entries.Perm entries') :
    Represents classOf entries' m := by
  rw [Represents, h]
  exact Quotient.sound (hperm.map _)

theorem nodupKeys (h : Represents classOf entries m) :
    (entries.map fun e => (⟨classOf e, e⟩ : Sigma fun _ : α => γ)).NodupKeys := by
  have hnodup := m.nodupKeys
  rwa [h, Multiset.coe_nodupKeys] at hnodup

/-- The map is the list of pairs. -/
theorem eq_toFinmap (h : Represents classOf entries m) :
    m = AList.toFinmap ⟨_, h.nodupKeys⟩ := Finmap.ext h

/-- **The number of classes is the number of entries.** -/
theorem card_keys (h : Represents classOf entries m) : m.keys.card = entries.length := by
  have hcard : m.keys.card = Multiset.card m.entries := Multiset.card_map _ _
  rw [hcard, h, Multiset.coe_card, List.length_map]

section Lookup

variable [DecidableEq α]

/-- **Looking up a class** finds the entry of that class. -/
theorem lookup_eq_some_iff (h : Represents classOf entries m) {a : α} :
    m.lookup a = some e ↔ e ∈ entries ∧ classOf e = a := by
  rw [Finmap.lookup_eq_some_iff, h, Multiset.mem_coe, List.mem_map]
  constructor
  · rintro ⟨e', hmem, heq⟩
    simp only [Sigma.mk.injEq, heq_eq_eq] at heq
    obtain ⟨hclass, rfl⟩ := heq
    exact ⟨hmem, hclass⟩
  · rintro ⟨hmem, rfl⟩
    exact ⟨e, hmem, rfl⟩

theorem lookup_eq_none (h : Represents classOf entries m) {a : α}
    (hnew : ∀ e ∈ entries, classOf e ≠ a) : m.lookup a = none := by
  rw [Option.eq_none_iff_forall_ne_some]
  intro e he
  obtain ⟨hmem, hclass⟩ := h.lookup_eq_some_iff.mp he
  exact hnew e hmem hclass

/-- An entry of a new class. -/
theorem insert_new (h : Represents classOf entries m)
    (hnew : ∀ e' ∈ entries, classOf e' ≠ classOf e) (hperm : entries'.Perm (e :: entries)) :
    Represents classOf entries' (m.insert (classOf e) e) := by
  have habsent : classOf e ∉ m := Finmap.lookup_eq_none.mp (h.lookup_eq_none hnew)
  have hcons : Represents classOf (e :: entries) (m.insert (classOf e) e) := by
    rw [Represents, Finmap.entries_insert_of_notMem habsent, h]
    rfl
  exact hcons.perm hperm.symm

/-- The entry of a class is dropped. -/
theorem erase (h : Represents classOf entries m) (hperm : entries.Perm (old :: rest)) :
    Represents classOf rest (m.erase (classOf old)) := by
  rw [Represents, (h.perm hperm).eq_toFinmap]
  exact congrArg Multiset.ofList (List.kerase_cons_eq rfl)

/-- The entry of a class is replaced by another of that class. -/
theorem insert_old (h : Represents classOf entries m) (hperm : entries.Perm (old :: rest))
    (hclass : classOf old = classOf e) (hperm' : entries'.Perm (e :: rest)) :
    Represents classOf entries' (m.insert (classOf e) e) := by
  have hinsert : m.insert (classOf e) e = (m.erase (classOf old)).insert (classOf e) e := by
    refine Finmap.ext_lookup fun a => ?_
    by_cases ha : a = classOf e
    · rw [ha, Finmap.lookup_insert, Finmap.lookup_insert]
    · rw [Finmap.lookup_insert_of_ne _ ha, Finmap.lookup_insert_of_ne _ ha,
        Finmap.lookup_erase_ne (hclass ▸ ha)]
  rw [hinsert]
  refine (h.erase hperm).insert_new (fun e' hmem heq => ?_) hperm'
  have hfound := (h.erase hperm).lookup_eq_some_iff.mpr ⟨hmem, heq.trans hclass.symm⟩
  rw [Finmap.lookup_erase] at hfound
  exact absurd hfound (by simp)

end Lookup

end Represents

end Slots
