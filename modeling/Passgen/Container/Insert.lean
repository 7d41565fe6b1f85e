import Mathlib.Data.List.Pairwise
import Mathlib.Data.List.TakeWhile
import Mathlib.Order.Basic
import Passgen.Container.Placed
import Passgen.Residue.Table

/-!
# Container/Insert — insertions that grow the map

Growing is an induction on the fuel: the entries of the old table are pairwise not equal, so each of
them is absent from the table it is inserted into, and `hashmapRealloc` needs of the insertion it
uses only that it adds what is absent (`AddsAbsent`).
-/

namespace Passgen

open Hashmap

variable {κ ν : Type*} {context : HashmapContext κ} {map map' : Hashmap κ ν} {key : κ} {value : ν}
  {fuel capacity : ℕ} {entry : HashmapEntry κ ν} {result : Option (HashmapEntry κ ν)}

/-! ## Which keys are there -/

theorem HashmapContext.equal_symm {a b : κ} (h : ¬context.equal a b) : ¬context.equal b a :=
  fun hba => h (context.equivalence.symm hba)

namespace Hashmap

/-- An entry with the key is found at one of the key's positions. -/
theorem Placed.found (h : map.Placed context) (hmem : entry ∈ map.entries)
    (hequal : context.equal entry.key key) :
    ∃ first, foundAt context map key first = some entry := by
  obtain ⟨pos, hslot⟩ := mem_entries_iff.mp hmem
  obtain ⟨first, rfl⟩ := h pos entry hslot
  refine ⟨first, foundAt_eq_some_iff.mpr ⟨?_, hequal⟩⟩
  rwa [hashmapPosition, ← context.hash_eq hequal first]

theorem mem_of_foundAt {first : Bool} (h : foundAt context map key first = some entry) :
    entry ∈ map.entries ∧ context.equal entry.key key := by
  obtain ⟨hslot, hequal⟩ := foundAt_eq_some_iff.mp h
  exact ⟨mem_entries_iff.mpr ⟨_, hslot⟩, hequal⟩

/-- **Two positions suffice** to know that a key is absent. -/
theorem Placed.absent_iff (h : map.Placed context) :
    map.Absent context key ↔ ∀ first, foundAt context map key first = none := by
  constructor
  · intro habsent first
    rw [Option.eq_none_iff_forall_ne_some]
    intro entry hfound
    obtain ⟨hmem, hequal⟩ := mem_of_foundAt hfound
    exact habsent entry hmem hequal
  · intro hnone entry hmem hequal
    obtain ⟨first, hfound⟩ := h.found hmem hequal
    rw [hnone first] at hfound
    exact absurd hfound (by simp)

theorem Absent.perm (h : map.Absent context key) (hperm : map'.entries.Perm map.entries) :
    map'.Absent context key := fun entry hmem => h entry (hperm.mem_iff.mp hmem)

/-- An insertion keeps a map in order, if an entry is added only where its key is absent. -/
theorem Ok.inserted (h : map.Ok context) (hins : Inserted context map map' entry result)
    (hplaced : map'.Placed context) (hnew : result = none → map.Absent context entry.key) :
    map'.Ok context := by
  have hsymm : ∀ {a b : HashmapEntry κ ν}, ¬context.equal a.key b.key →
      ¬context.equal b.key a.key :=
    HashmapContext.equal_symm
  cases hins with
  | added hlen hperm =>
    refine ⟨hplaced, (hperm.pairwise_iff hsymm).mpr ?_, ?_⟩
    · refine List.pairwise_cons.mpr ⟨fun e hmem => ?_, h.distinct⟩
      exact HashmapContext.equal_symm (hnew rfl e hmem)
    · rw [hlen, hperm.length_eq, h.len_eq, List.length_cons]
  | @replaced old rest hequal hlen hold hperm =>
    have hdistinct := List.pairwise_cons.mp ((hold.pairwise_iff hsymm).mp h.distinct)
    refine ⟨hplaced, (hperm.pairwise_iff hsymm).mpr ?_, ?_⟩
    · refine List.pairwise_cons.mpr ⟨fun e hmem hother => ?_, hdistinct.2⟩
      exact hdistinct.1 e hmem (context.equivalence.trans hequal hother)
    · rw [hlen, hperm.length_eq, h.len_eq, hold.length_eq, List.length_cons, List.length_cons]

/-- Only one entry has a key. -/
theorem Ok.unique (h : map.Ok context) {a b : HashmapEntry κ ν} (ha : a ∈ map.entries)
    (hb : b ∈ map.entries) (hequal : context.equal a.key b.key) : a = b := by
  have hsymm : Std.Symm fun a b : HashmapEntry κ ν => ¬context.equal a.key b.key :=
    ⟨fun _ _ => HashmapContext.equal_symm⟩
  by_contra hne
  exact h.distinct.forall ha hb hne hequal

theorem Inserted.of_entries {table : Hashmap κ ν} (h : Inserted context table map' entry result)
    (hlen : table.len = map.len) (hperm : table.entries.Perm map.entries) :
    Inserted context map map' entry result := by
  cases h with
  | added hlen' hperm' => exact .added (hlen'.trans (by rw [hlen])) (hperm'.trans (hperm.cons _))
  | replaced hequal hlen' hold hperm' =>
    exact .replaced hequal (hlen'.trans hlen) (hperm.symm.trans hold) hperm'

/-- A fresh table is in order. -/
theorem ok_table (capacity : ℕ) : (hashmapTable capacity : Hashmap κ ν).Ok context := by
  have hentries : (hashmapTable capacity : Hashmap κ ν).entries = [] :=
    List.reduceOption_replicate_none
  refine ⟨fun pos entry hslot => ?_, ?_, ?_⟩
  · have hmem := mem_entries_iff.mpr ⟨pos, hslot⟩
    rw [hentries] at hmem
    exact absurd hmem List.not_mem_nil
  · rw [hentries]
    exact List.Pairwise.nil
  · rw [hentries]
    rfl

@[simp] theorem entries_table (capacity : ℕ) :
    (hashmapTable capacity : Hashmap κ ν).entries = [] := List.reduceOption_replicate_none

@[simp] theorem capacity_table (capacity : ℕ) :
    (hashmapTable capacity : Hashmap κ ν).capacity = capacity := List.length_replicate

/-- The map an insertion looks at: one without data gets its first table. -/
def allocated (map : Hashmap κ ν) : Hashmap κ ν :=
  if map.capacity = 0 then hashmapTable 3 else map

theorem allocated_of_pos (h : 0 < map.capacity) : map.allocated = map := if_neg h.ne'

theorem entries_of_capacity_eq_zero (h : map.capacity = 0) : map.entries = [] := by
  rw [entries, List.eq_nil_of_length_eq_zero h, List.reduceOption_nil]

theorem entries_allocated (map : Hashmap κ ν) : map.allocated.entries = map.entries := by
  rw [allocated]
  split
  · rename_i h
    rw [entries_table, entries_of_capacity_eq_zero h]
  · rfl

theorem capacity_allocated_pos (map : Hashmap κ ν) : 0 < map.allocated.capacity := by
  rw [allocated]
  split
  · rw [capacity_table]
    decide
  · rename_i h
    exact Nat.pos_of_ne_zero h

theorem le_capacity_allocated (map : Hashmap κ ν) : map.capacity ≤ map.allocated.capacity := by
  rw [allocated]
  split
  · rename_i h
    rw [h]
    exact Nat.zero_le _
  · exact le_rfl

theorem Ok.allocated (h : map.Ok context) : map.allocated.Ok context := by
  rw [Hashmap.allocated]
  split
  · exact ok_table 3
  · exact h

theorem Ok.len_allocated (h : map.Ok context) : map.allocated.len = map.len := by
  rw [h.allocated.len_eq, entries_allocated, h.len_eq]

end Hashmap

/-! ## Growing -/

/-- **Growing grows**: past the end of the sizes, too. -/
theorem lt_nextCapacity (hpos : 0 < capacity) : capacity < nextCapacity capacity := by
  unfold nextCapacity
  split
  · rename_i size next rest heq
    have hsorted : (size :: next :: rest).Pairwise (· < ·) := by
      rw [← heq]
      exact (by decide : hashmapSizes.Pairwise (· < ·)).sublist (List.dropWhile_sublist _)
    have hsize : ¬size < capacity := by
      have hhead := List.head?_dropWhile_not (fun size => decide (size < capacity)) hashmapSizes
      simpa [heq] using hhead
    have hnext : size < next := List.rel_of_pairwise_cons hsorted List.mem_cons_self
    omega
  · rename_i hshort
    have hne : capacity ≠ 1 := by
      rintro rfl
      exact hshort 3 7 _ rfl
    omega

/-- What growing needs of an insertion: a key that is absent is added. -/
def AddsAbsent (context : HashmapContext κ)
    (insert : Hashmap κ ν → κ → ν → Option (Hashmap κ ν × Option (HashmapEntry κ ν))) : Prop :=
  ∀ map key value map' result, map.Ok context → map.Absent context key →
    insert map key value = some (map', result) →
      result = none ∧ map'.Ok context ∧ map.capacity ≤ map'.capacity ∧
        Inserted context map map' ⟨key, value⟩ result

section Growing

variable {insert : Hashmap κ ν → κ → ν → Option (Hashmap κ ν × Option (HashmapEntry κ ν))}

/-- The entries of the old table, inserted one after the other into a table that has none of their
keys. -/
theorem foldlM_insert (hinsert : AddsAbsent context insert) {entries : List (HashmapEntry κ ν)}
    {table : Hashmap κ ν} (h : table.Ok context)
    (hdistinct : entries.Pairwise fun a b => ¬context.equal a.key b.key)
    (habsent : ∀ e ∈ entries, table.Absent context e.key)
    (hrun : entries.foldlM (fun table entry => (insert table entry.key entry.value).map Prod.fst)
      table = some map') :
    map'.Ok context ∧ table.capacity ≤ map'.capacity ∧
      map'.entries.Perm (entries ++ table.entries) := by
  induction entries generalizing table with
  | nil =>
    obtain rfl : table = map' := by simpa using hrun
    exact ⟨h, le_rfl, List.Perm.refl _⟩
  | cons e entries ih =>
    obtain ⟨_, hstep, hrest⟩ := Option.bind_eq_some_iff.mp hrun
    obtain ⟨⟨next, result⟩, hins, rfl⟩ := Option.map_eq_some_iff.mp hstep
    obtain ⟨rfl, hok, hcap, hadded⟩ :=
      hinsert _ _ _ _ _ h (habsent e List.mem_cons_self) hins
    obtain ⟨-, hperm⟩ | _ := hadded
    obtain ⟨hhead, htail⟩ := List.pairwise_cons.mp hdistinct
    have habsent' : ∀ e' ∈ entries, next.Absent context e'.key := by
      intro e' hmem other hother
      rcases List.mem_cons.mp (hperm.mem_iff.mp hother) with rfl | hother
      · exact hhead e' hmem
      · exact habsent e' (List.mem_cons_of_mem _ hmem) other hother
    obtain ⟨hok', hcap', hperm'⟩ := ih hok htail habsent' hrest
    exact ⟨hok', hcap.trans hcap', (hperm'.trans (hperm.append_left _)).trans List.perm_middle⟩

/-- **Growing loses nothing**: the table that is left holds the same entries. -/
theorem realloc_spec (hinsert : AddsAbsent context insert) (h : map.Ok context)
    (hrun : hashmapRealloc insert map capacity = some map') :
    map'.Ok context ∧ capacity ≤ map'.capacity ∧ map'.entries.Perm map.entries := by
  unfold hashmapRealloc at hrun
  split at hrun
  · have hspec := foldlM_insert hinsert (ok_table capacity) h.distinct (by simp [Absent]) hrun
    simpa using hspec
  · exact absurd hrun (by simp)

end Growing

/-- One level of insertion: the two positions, and otherwise a larger table. -/
theorem insert_succ :
    hashmapInsert context (fuel + 1) map key value =
      ((insertAt context map.allocated key value true).or <|
        (insertAt context map.allocated key value false).or <| do
          let grown ← hashmapRealloc (hashmapInsert context fuel) map.allocated
            (nextCapacity map.allocated.capacity)
          hashmapInsert context fuel grown key value) := by
  rw [hashmapInsert, allocated]
  split
  · rename_i h
    simp [hashmapRealloc, entries_of_capacity_eq_zero h, entrySize]
  · simp

/-! ## Fuel -/

section Fuel

/-- More fuel changes nothing about an insertion that returns. -/
theorem insert_mono {fuel' : ℕ} (hle : fuel ≤ fuel')
    {answer : Hashmap κ ν × Option (HashmapEntry κ ν)}
    (h : hashmapInsert context fuel map key value = some answer) :
    hashmapInsert context fuel' map key value = some answer := by
  induction fuel generalizing fuel' map key value answer with
  | zero => exact absurd h (by simp [hashmapInsert])
  | succ fuel ih =>
    obtain ⟨fuel', rfl⟩ : ∃ k, fuel' = k + 1 := ⟨fuel' - 1, by omega⟩
    have hmono : ∀ (map : Hashmap κ ν) key value answer,
        hashmapInsert context fuel map key value = some answer →
          hashmapInsert context fuel' map key value = some answer :=
      fun _ _ _ _ h => ih (Nat.le_of_succ_le_succ hle) h
    rw [insert_succ] at h ⊢
    rcases Option.or_eq_some_iff.mp h with h | ⟨hfirst, h⟩
    · rw [h, Option.some_or]
    rw [hfirst, Option.none_or]
    rcases Option.or_eq_some_iff.mp h with h | ⟨hsecond, h⟩
    · rw [h, Option.some_or]
    rw [hsecond, Option.none_or]
    obtain ⟨grown, hgrow, hinsert⟩ := Option.bind_eq_some_iff.mp h
    refine Option.bind_eq_some_iff.mpr ⟨grown, ?_, hmono _ _ _ _ hinsert⟩
    unfold hashmapRealloc at hgrow ⊢
    split at hgrow
    · rw [if_pos ‹_›]
      refine Residue.foldlM_mono (fun table entry table' hstep => ?_) hgrow
      obtain ⟨answer, hins, rfl⟩ := Option.map_eq_some_iff.mp hstep
      exact Option.map_eq_some_iff.mpr ⟨answer, hmono _ _ _ _ hins, rfl⟩
    · exact absurd hgrow (by simp)

/-- **Fuel does not matter**: all insertions that return, return the same. -/
theorem insert_fuel {fuel' : ℕ} {answer answer' : Hashmap κ ν × Option (HashmapEntry κ ν)}
    (h : hashmapInsert context fuel map key value = some answer)
    (h' : hashmapInsert context fuel' map key value = some answer') : answer = answer' := by
  have hmax := insert_mono (le_max_left fuel fuel') h
  have hmax' := insert_mono (le_max_right fuel fuel') h'
  exact Option.some.inj (hmax.symm.trans hmax')

end Fuel

/-! ## A key that is absent -/

/-- **An absent key is added**, by every insertion that returns: occupants that move and tables that
grow keep every entry. -/
theorem insert_absent (fuel : ℕ) :
    AddsAbsent context (hashmapInsert context fuel : Hashmap κ ν → κ → ν → _) := by
  induction fuel with
  | zero =>
    intro map key value map' result _ _ hrun
    exact absurd hrun (by simp [hashmapInsert])
  | succ fuel ih =>
    intro map key value map' result h habsent hrun
    rw [insert_succ] at hrun
    have hcap := capacity_allocated_pos map
    have habsent' := habsent.perm (List.Perm.of_eq (entries_allocated map))
    have hat : ∀ first,
        insertAt context map.allocated key value first = some (map', result) →
          result = none ∧ map'.Ok context ∧ map.capacity ≤ map'.capacity ∧
            Inserted context map map' ⟨key, value⟩ result := by
      intro first hfirst
      obtain ⟨hresult, hplaced, hcap', hins⟩ := insertAt_spec hcap h.allocated.placed hfirst
      refine ⟨hresult.trans (h.allocated.placed.absent_iff.mp habsent' first),
        h.allocated.inserted hins hplaced fun _ => habsent', ?_,
        hins.of_entries h.len_allocated (List.Perm.of_eq (entries_allocated map))⟩
      exact (le_capacity_allocated map).trans hcap'.ge
    rcases Option.or_eq_some_iff.mp hrun with hfirst | ⟨-, hrun⟩
    · exact hat true hfirst
    rcases Option.or_eq_some_iff.mp hrun with hsecond | ⟨-, hrun⟩
    · exact hat false hsecond
    obtain ⟨grown, hgrow, hrun⟩ := Option.bind_eq_some_iff.mp hrun
    obtain ⟨hgrown, hle, hperm⟩ := realloc_spec ih h.allocated hgrow
    rw [entries_allocated] at hperm
    obtain ⟨hresult, hok, hle', hins⟩ := ih _ _ _ _ _ hgrown (habsent.perm hperm) hrun
    have hlen : grown.len = map.len := by
      rw [hgrown.len_eq, hperm.length_eq, h.len_eq]
    refine ⟨hresult, hok, ?_, hins.of_entries hlen hperm⟩
    have hlt := lt_nextCapacity hcap
    have hstart := le_capacity_allocated map
    omega

/-! ## A key that is there -/

/-- The key sits at its second position only, and an insertion finds room at the first one. -/
def Hashmap.overlooks (context : HashmapContext κ) (map : Hashmap κ ν) (key : κ) : Bool :=
  (foundAt context map key true).isNone && (foundAt context map key false).isSome &&
    map.hasRoom context (hashmapPosition context map key true)

/-- Both positions can only find the one entry of the key. -/
theorem Hashmap.Ok.eq_of_foundAt (h : map.Ok context) (hmem : entry ∈ map.entries)
    (hequal : context.equal entry.key key) {first : Bool} {e : HashmapEntry κ ν}
    (hfound : foundAt context map key first = some e) : e = entry := by
  obtain ⟨hmem', hequal'⟩ := mem_of_foundAt hfound
  exact h.unique hmem' hmem
    (context.equivalence.trans hequal' (context.equivalence.symm hequal))

/-- The entry found at a position is replaced there. -/
theorem Hashmap.Ok.replaced_at (h : map.Ok context) (hcap : 0 < map.capacity) {first : Bool}
    (hfound : foundAt context map key first = some entry)
    (hinsert : insertAt context map key value first = some (map', result)) :
    result = some entry ∧ map'.Ok context ∧ Inserted context map map' ⟨key, value⟩ result := by
  obtain ⟨hresult, hplaced, -, hins⟩ := insertAt_spec hcap h.placed hinsert
  rw [hfound] at hresult
  refine ⟨hresult, h.inserted hins hplaced fun hnone => ?_, hins⟩
  rw [hresult] at hnone
  exact absurd hnone (by simp)

theorem insertAt_ne_none_of_foundAt {first : Bool}
    (hfound : foundAt context map key first = some entry) :
    insertAt context map key value first ≠ none := by
  intro hnone
  rw [(insertAt_eq_none_iff.mp hnone).1] at hfound
  exact absurd hfound (by simp)

/-- **A key that is there is replaced, or overlooked.** -/
theorem insert_present (h : map.Ok context) (hmem : entry ∈ map.entries)
    (hequal : context.equal entry.key key)
    (hrun : hashmapInsert context fuel map key value = some (map', result)) :
    map.overlooks context key = true ∧ result = none ∨
      map.overlooks context key = false ∧ result = some entry ∧ map'.Ok context ∧
        Inserted context map map' ⟨key, value⟩ result := by
  cases fuel with
  | zero => exact absurd hrun (by simp [hashmapInsert])
  | succ fuel =>
    have hcap : 0 < map.capacity := by
      by_contra hzero
      rw [entries_of_capacity_eq_zero (by omega)] at hmem
      exact absurd hmem List.not_mem_nil
    rw [insert_succ, allocated_of_pos hcap] at hrun
    rcases hfirst : foundAt context map key true with _ | e
    · have hsecond : foundAt context map key false = some entry := by
        obtain ⟨first, hfound⟩ := h.placed.found hmem hequal
        cases first with
        | true => exact absurd (hfirst.symm.trans hfound) (by simp)
        | false => exact hfound
      by_cases hroom : map.hasRoom context (hashmapPosition context map key true)
      · left
        have hnone : insertAt context map key value true ≠ none := fun hnone =>
          (insertAt_eq_none_iff.mp hnone).2 hroom
        rcases Option.or_eq_some_iff.mp hrun with hrun | ⟨hrun, -⟩
        · refine ⟨by simp [overlooks, hfirst, hsecond, hroom], ?_⟩
          exact (insertAt_spec hcap h.placed hrun).1.trans hfirst
        · exact absurd hrun hnone
      · right
        refine ⟨by simp [overlooks, hroom], h.replaced_at hcap hsecond ?_⟩
        have hnone : insertAt context map key value true = none :=
          insertAt_eq_none_iff.mpr ⟨hfirst, hroom⟩
        rw [hnone, Option.none_or] at hrun
        rcases Option.or_eq_some_iff.mp hrun with hrun | ⟨hrun, -⟩
        · exact hrun
        · exact absurd hrun (insertAt_ne_none_of_foundAt hsecond)
    · right
      obtain rfl := h.eq_of_foundAt hmem hequal hfirst
      refine ⟨by simp [overlooks, hfirst], h.replaced_at hcap hfirst ?_⟩
      rcases Option.or_eq_some_iff.mp hrun with hrun | ⟨hrun, -⟩
      · exact hrun
      · exact absurd hrun (insertAt_ne_none_of_foundAt hfirst)

end Passgen
