import Passgen.Container.Finite
import Passgen.Container.Traced

/-!
# Container/Positions — a map without data

    init ──lookup, foreach──▸ init ──insert──▸ capacity > 0 ──any call──▸ capacity > 0
                               └───remove──▸ % 0

A fresh map has no table.  A lookup looks for one first and an insertion allocates it; a removal
does neither, and divides by the capacity 0.  Once there is a table there always is, so a run
divides by positive capacities only **iff** no removal comes before its first insertion
(`positions_iff`).
-/

namespace Passgen

open Effect Effect.Traced Hashmap

variable {κ ν υ : Type}

section Operations

variable (context : HashmapContext κ)

/-- The entry at one of the two positions, if it matches the key. -/
def foundAtTraced (map : Hashmap κ ν) (key : κ) (first : Bool) :
    Traced HashmapEvent (Option (HashmapEntry κ ν)) := do
  let hash ← positionTraced context map key first
  pure ((map.slot hash).filter fun entry => context.equal entry.key key)

/-- `passgen_hashmap_remove` at one of the two positions. -/
def removeAtTraced (map : Hashmap κ ν) (key : κ) (first : Bool) :
    Traced HashmapEvent (Option (Hashmap κ ν × Option (HashmapEntry κ ν))) := do
  let hash ← positionTraced context map key first
  match map.slot hash with
  | none => pure none
  | some entry =>
    if context.equal entry.key key then
      pure (some ({ map.write hash none with len := map.len - 1 }, some entry))
    else pure none

/-- `passgen_hashmap_remove`. -/
def removeTraced (map : Hashmap κ ν) (key : κ) :
    Traced HashmapEvent (Hashmap κ ν × Option (HashmapEntry κ ν)) :=
  orElse (removeAtTraced context map key true) <|
    orElse (removeAtTraced context map key false) <| pure (map, none)

/-- `passgen_hashmap_lookup`. -/
def lookupTraced (map : Hashmap κ ν) (key : κ) :
    Traced HashmapEvent (Option (HashmapEntry κ ν)) := do
  if map.data = [] then pure none
  else
    match ← foundAtTraced context map key true with
    | some entry => pure (some entry)
    | none => foundAtTraced context map key false

/-- The loop of `passgen_hashmap_foreach`.  The callback is handed a pointer to the entry, and may
leave anything in its slot. -/
def foreachSlots (func : υ → HashmapEntry κ ν → υ × Option (HashmapEntry κ ν) × ℤ) :
    υ → List (Option (HashmapEntry κ ν)) → List (Option (HashmapEntry κ ν)) × υ × ℤ
  | user, [] => ([], user, 0)
  | user, none :: cells =>
    let (cells, user, ret) := foreachSlots func user cells
    (none :: cells, user, ret)
  | user, some entry :: cells =>
    let (user, cell, ret) := func user entry
    if ret ≠ 0 then (cell :: cells, user, ret)
    else
      let (cells, user, ret) := foreachSlots func user cells
      (cell :: cells, user, ret)

/-- `passgen_hashmap_foreach`. -/
def hashmapForeach (map : Hashmap κ ν) (user : υ)
    (func : υ → HashmapEntry κ ν → υ × Option (HashmapEntry κ ν) × ℤ) : Hashmap κ ν × υ × ℤ :=
  if map.len ≠ 0 then
    let (data, user, ret) := foreachSlots func user map.data
    ({ map with data := data }, user, ret)
  else (map, user, 0)

/-- A call on a map. -/
inductive HashmapCall (κ ν υ : Type)
  | insert (key : κ) (value : ν)
  | remove (key : κ)
  | lookup (key : κ)
  | foreach (user : υ) (func : υ → HashmapEntry κ ν → υ × Option (HashmapEntry κ ν) × ℤ)

/-- What a call leaves, and what it answers: an entry, or what the loop returns. -/
def callTraced (fuel : ℕ) (map : Hashmap κ ν) : HashmapCall κ ν υ →
    Traced HashmapEvent (Hashmap κ ν × (Option (HashmapEntry κ ν) ⊕ υ × ℤ))
  | .insert key value => do
    let (map, entry) ← insertTraced context fuel map key value
    pure (map, .inl entry)
  | .remove key => do
    let (map, entry) ← removeTraced context map key
    pure (map, .inl entry)
  | .lookup key => do
    let entry ← lookupTraced context map key
    pure (map, .inl entry)
  | .foreach user func =>
    let (map, answer) := hashmapForeach map user func
    pure (map, .inr answer)

/-- One call after the other, as long as they return. -/
def callsTraced (fuel : ℕ) : Hashmap κ ν → List (HashmapCall κ ν υ) →
    Traced HashmapEvent (Hashmap κ ν)
  | map, [] => pure map
  | map, call :: calls => do
    let (map, _) ← callTraced context fuel map call
    callsTraced fuel map calls

end Operations

/-- Divides by a capacity that is not 0, if it divides. -/
def HashmapEvent.Divides : HashmapEvent → Prop
  | position capacity => 0 < capacity
  | realloc _ _ => True

/-- A call that finds an entry, or answers that there is none. -/
def HashmapCall.finds (key : κ) : HashmapCall κ ν υ → Prop
  | remove key' => key' = key
  | lookup key' => key' = key
  | _ => False

/-- A call that needs a table. -/
def HashmapCall.touches : HashmapCall κ ν υ → Bool
  | insert _ _ => true
  | remove _ => true
  | _ => false

/-- The call divides by positive capacities only, and finds nothing where there is nothing. -/
structure HashmapCall.Safe (context : HashmapContext κ) (fuel : ℕ) (map : Hashmap κ ν)
    (call : HashmapCall κ ν υ) : Prop where
  divides : (callTraced context fuel map call).All HashmapEvent.Divides
  absent (key : κ) : call.finds key → map.Absent context key →
    (callTraced context fuel map call).answer = some (map, .inl none)

variable {context : HashmapContext κ} {map map' : Hashmap κ ν} {key : κ} {value : ν} {fuel : ℕ}
  {first : Bool} {call : HashmapCall κ ν υ} {calls : List (HashmapCall κ ν υ)}

/-! ## The same answers -/

theorem answer_foundAtTraced (hcap : 0 < map.capacity) (key : κ) (first : Bool) :
    (foundAtTraced context map key first).answer = some (foundAt context map key first) := by
  rw [foundAtTraced, positionTraced_of_pos hcap]
  rfl

theorem answer_lookupTraced (map : Hashmap κ ν) (key : κ) :
    (lookupTraced context map key).answer = some (hashmapLookup context map key) := by
  rw [lookupTraced, hashmapLookup]
  split
  · rfl
  · rename_i hdata
    have hcap : 0 < map.capacity := List.length_pos_of_ne_nil hdata
    rw [answer_bind, answer_foundAtTraced hcap, Option.bind_some]
    cases foundAt context map key true with
    | some entry => rfl
    | none =>
      rw [answer_foundAtTraced hcap]
      rfl

theorem answer_removeAtTraced (hcap : 0 < map.capacity) (key : κ) (first : Bool) :
    (removeAtTraced context map key first).answer = some (removeAt context map key first) := by
  rw [removeAtTraced, positionTraced_of_pos hcap, removeAt, foundAt]
  cases hslot : map.slot (hashmapPosition context map key first) with
  | none => simp [hslot]
  | some entry => 
    by_cases hequal : context.equal entry.key key <;>
      simp [hslot, hequal, Option.filter_some]

/-- Without a table the first position divides by 0, and that is all. -/
theorem removeTraced_of_zero (hcap : map.capacity = 0) (key : κ) :
    removeTraced context map key = ⟨[.position 0], none⟩ := by
  have hposition : positionTraced context map key true = ⟨[.position 0], none⟩ := by
    rw [positionTraced, if_pos hcap, hcap]
    rfl
  rw [removeTraced, removeAtTraced, hposition]
  rfl

/-- **A removal** answers what it answers without a log. -/
theorem answer_removeTraced (map : Hashmap κ ν) (key : κ) :
    (removeTraced context map key).answer = hashmapRemove context map key := by
  by_cases hcap : map.capacity = 0
  · rw [removeTraced_of_zero hcap, hashmapRemove, if_pos hcap]
  · have hpos := Nat.pos_of_ne_zero hcap
    rw [removeTraced, answer_orElse (answer_removeAtTraced hpos key true),
      answer_orElse (answer_removeAtTraced hpos key false), hashmapRemove, if_neg hcap, answer_pure]
    simp only [Option.orElse_eq_orElse, Option.orElse_eq_or]

/-! ## What a call finds of an absent key -/

theorem foundAt_of_absent (h : map.Absent context key) (first : Bool) :
    foundAt context map key first = none := by
  refine Option.eq_none_iff_forall_ne_some.mpr fun entry hfound => ?_
  obtain ⟨hmem, hequal⟩ := mem_of_foundAt hfound
  exact h entry hmem hequal

theorem lookup_absent (h : map.Absent context key) : hashmapLookup context map key = none := by
  rw [hashmapLookup, foundAt_of_absent h, foundAt_of_absent h]
  exact ite_self none

theorem remove_absent (hcap : 0 < map.capacity) (h : map.Absent context key) :
    hashmapRemove context map key = some (map, none) := by
  rw [hashmapRemove, if_neg hcap.ne', removeAt, removeAt, foundAt_of_absent h, foundAt_of_absent h]
  rfl

/-! ## One call -/

theorem all_foundAtTraced (hcap : 0 < map.capacity) (key : κ) (first : Bool) :
    (foundAtTraced context map key first).All HashmapEvent.Sound :=
  (all_positionTraced hcap key first).bind fun _ _ => all_pure _

theorem all_removeAtTraced (hcap : 0 < map.capacity) (key : κ) (first : Bool) :
    (removeAtTraced context map key first).All HashmapEvent.Sound := by
  refine (all_positionTraced hcap key first).bind fun hash _ => ?_
  split
  · exact all_pure none
  · split
    · exact all_pure _
    · exact all_pure none

theorem all_lookupTraced (map : Hashmap κ ν) (key : κ) :
    (lookupTraced context map key).All HashmapEvent.Sound := by
  rw [lookupTraced]
  split
  · exact all_pure none
  · rename_i hdata
    have hcap : 0 < map.capacity := List.length_pos_of_ne_nil hdata
    refine (all_foundAtTraced hcap key true).bind fun entry _ => ?_
    split
    · exact all_pure _
    · exact all_foundAtTraced hcap key false

theorem HashmapEvent.Sound.divides {event : HashmapEvent} (h : event.Sound) : event.Divides := by
  cases event with
  | position capacity => exact h
  | realloc old new => trivial

/-- A call that logs nothing but what is sound divides by what it should. -/
theorem all_divides {α β : Type} {x : Traced HashmapEvent α} (h : x.All HashmapEvent.Sound)
    {f : α → Traced HashmapEvent β} (hf : ∀ a, ∃ b, f a = pure b) :
    (x >>= f).All HashmapEvent.Divides := by
  refine (h.mono fun _ he => he.divides).bind fun a _ => ?_
  obtain ⟨b, hb⟩ := hf a
  rw [hb]
  exact all_pure b

/-- **A call is safe** unless it is a removal from a map without data. -/
theorem safe_iff (fuel : ℕ) (map : Hashmap κ ν) (call : HashmapCall κ ν υ) :
    call.Safe context fuel map ↔ ∀ key, call = .remove key → 0 < map.capacity := by
  constructor
  · rintro h key rfl
    by_contra hcap
    have hlog : (removeTraced context map key).All HashmapEvent.Divides :=
      (all_bind_iff.mp h.divides).1
    rw [removeTraced_of_zero (Nat.eq_zero_of_not_pos hcap)] at hlog
    exact absurd (hlog (.position 0) List.mem_cons_self) (lt_irrefl 0)
  · intro h
    cases call with
    | insert key value =>
      exact ⟨all_divides (all_insertTraced fuel map key value) fun a => ⟨_, rfl⟩, nofun⟩
    | remove key =>
      have hcap := h key rfl
      have hall : (removeTraced context map key).All HashmapEvent.Sound :=
        (all_removeAtTraced hcap key true).orElse
          ((all_removeAtTraced hcap key false).orElse (all_pure _))
      refine ⟨all_divides hall fun a => ⟨_, rfl⟩, ?_⟩
      rintro key rfl habsent
      rw [callTraced, answer_bind, answer_removeTraced, remove_absent hcap habsent]
      rfl
    | lookup key =>
      refine ⟨all_divides (all_lookupTraced map key) fun a => ⟨_, rfl⟩, ?_⟩
      rintro key rfl habsent
      rw [callTraced, answer_bind, answer_lookupTraced, lookup_absent habsent]
      rfl
    | foreach user func => exact ⟨all_pure _, nofun⟩

/-! ## Runs -/

theorem capacity_insertAt {result : Option (HashmapEntry κ ν)}
    (h : insertAt context map key value first = some (map', result)) :
    map'.capacity = map.capacity := by
  unfold insertAt at h
  cases hslot : map.slot (hashmapPosition context map key first) with
  | none =>
    simp only [hslot, Option.some.injEq, Prod.mk.injEq] at h
    exact h.1 ▸ capacity_write _ _ _
  | some entry =>
    simp only [hslot] at h
    split at h
    · simp only [Option.some.injEq, Prod.mk.injEq] at h
      exact h.1 ▸ capacity_write _ _ _
    · obtain ⟨moved, hmove, heq⟩ := Option.bind_eq_some_iff.mp h
      obtain ⟨_, -, rfl⟩ := move_cases hslot hmove
      simp only [Option.some.injEq, Prod.mk.injEq] at heq
      exact heq.1 ▸ (capacity_write _ _ _).trans (capacity_write _ _ _)

/-- After an insertion there is a table. -/
theorem capacity_insert_pos {result : Option (HashmapEntry κ ν)}
    (h : hashmapInsert context fuel map key value = some (map', result)) : 0 < map'.capacity := by
  induction fuel generalizing map with
  | zero => exact absurd h (by simp [hashmapInsert])
  | succ fuel ih =>
    have hcap := capacity_allocated_pos map
    rw [insert_succ] at h
    rcases Option.or_eq_some_iff.mp h with h | ⟨-, h⟩
    · rwa [capacity_insertAt h]
    rcases Option.or_eq_some_iff.mp h with h | ⟨-, h⟩
    · rwa [capacity_insertAt h]
    obtain ⟨grown, -, h⟩ := Option.bind_eq_some_iff.mp h
    exact ih h

theorem length_foreachSlots
    (func : υ → HashmapEntry κ ν → υ × Option (HashmapEntry κ ν) × ℤ) (user : υ)
    (cells : List (Option (HashmapEntry κ ν))) :
    (foreachSlots func user cells).1.length = cells.length := by
  induction cells generalizing user with
  | nil => rfl
  | cons cell cells ih =>
    cases cell with
    | none => exact congrArg (· + 1) (ih user)
    | some entry =>
      rw [foreachSlots]
      split
      split
      · rfl
      · exact congrArg (· + 1) (ih _)

theorem capacity_foreach (map : Hashmap κ ν) (user : υ)
    (func : υ → HashmapEntry κ ν → υ × Option (HashmapEntry κ ν) × ℤ) :
    (hashmapForeach map user func).1.capacity = map.capacity := by
  rw [hashmapForeach]
  split
  · exact length_foreachSlots func user map.data
  · rfl

theorem capacity_remove {result : Option (HashmapEntry κ ν)}
    (h : hashmapRemove context map key = some (map', result)) : 0 < map'.capacity := by
  have hat : ∀ first, removeAt context map key first = some (map', result) →
      map'.capacity = map.capacity := by
    intro first hfirst
    obtain ⟨_, -, heq⟩ := Option.bind_eq_some_iff.mp hfirst
    simp only [Option.some.injEq, Prod.mk.injEq] at heq
    exact heq.1 ▸ capacity_write _ _ _
  unfold hashmapRemove at h
  split at h
  · exact absurd h (by simp)
  rename_i hcap
  simp only [Option.orElse_eq_orElse, Option.orElse_eq_or] at h
  suffices hsame : map'.capacity = map.capacity from hsame ▸ Nat.pos_of_ne_zero hcap
  rcases Option.or_eq_some_iff.mp h with h | ⟨-, h⟩
  · exact hat true h
  rcases Option.or_eq_some_iff.mp h with h | ⟨-, h⟩
  · exact hat false h
  · simp only [Option.some.injEq, Prod.mk.injEq] at h
    rw [h.1]

/-- **A call that needs a table** and returns leaves one. -/
theorem capacity_of_touches {answer : Option (HashmapEntry κ ν) ⊕ υ × ℤ} (htouches : call.touches)
    (h : (callTraced context fuel map call).answer = some (map', answer)) : 0 < map'.capacity := by
  cases call with
  | insert key value =>
    rw [callTraced, answer_bind, answer_insertTraced] at h
    obtain ⟨⟨_, _⟩, hrun, heq⟩ := Option.bind_eq_some_iff.mp h
    simp only [answer_pure, Option.some.injEq, Prod.mk.injEq] at heq
    exact heq.1 ▸ capacity_insert_pos hrun
  | remove key =>
    rw [callTraced, answer_bind, answer_removeTraced] at h
    obtain ⟨⟨_, _⟩, hrun, heq⟩ := Option.bind_eq_some_iff.mp h
    simp only [answer_pure, Option.some.injEq, Prod.mk.injEq] at heq
    exact heq.1 ▸ capacity_remove hrun
  | lookup key => exact absurd htouches (by simp [HashmapCall.touches])
  | foreach user func => exact absurd htouches (by simp [HashmapCall.touches])

/-- A call that needs none returns, and leaves the map with the table it has. -/
theorem exists_answer_of_not_touches (fuel : ℕ) (map : Hashmap κ ν)
    (htouches : call.touches = false) :
    ∃ map' answer, (callTraced context fuel map call).answer = some (map', answer) ∧
      map'.capacity = map.capacity := by
  cases call with
  | insert key value => exact absurd htouches (by simp [HashmapCall.touches])
  | remove key => exact absurd htouches (by simp [HashmapCall.touches])
  | lookup key =>
    refine ⟨map, .inl (hashmapLookup context map key), ?_, rfl⟩
    rw [callTraced, answer_bind, answer_lookupTraced]
    rfl
  | foreach user func => exact ⟨_, _, rfl, capacity_foreach map user func⟩

theorem exists_answer_calls (fuel : ℕ) (map : Hashmap κ ν)
    (htouches : ∀ call ∈ calls, call.touches = false) :
    ∃ map', (callsTraced context fuel map calls).answer = some map' ∧
      map'.capacity = map.capacity := by
  induction calls generalizing map with
  | nil => exact ⟨map, rfl, rfl⟩
  | cons call calls ih =>
    obtain ⟨hcall, hcalls⟩ := List.forall_mem_cons.mp htouches
    obtain ⟨next, answer, hnext, hcap⟩ := exists_answer_of_not_touches fuel map hcall
    obtain ⟨map', hrun, hcap'⟩ := ih next hcalls
    refine ⟨map', ?_, hcap'.trans hcap⟩
    rw [callsTraced, answer_bind, hnext]
    exact hrun

/-- **Once there is a table there always is.** -/
theorem capacity_calls_pos (h : 0 < map.capacity ∨ ∃ call ∈ calls, call.touches)
    (hrun : (callsTraced context fuel map calls).answer = some map') : 0 < map'.capacity := by
  induction calls generalizing map with
  | nil =>
    obtain rfl := Option.some.inj hrun
    simpa using h
  | cons call calls ih =>
    rw [callsTraced, answer_bind] at hrun
    obtain ⟨⟨next, answer⟩, hnext, hrun⟩ := Option.bind_eq_some_iff.mp hrun
    refine ih ?_ hrun
    by_cases htouches : call.touches
    · exact .inl (capacity_of_touches htouches hnext)
    · rcases h with hcap | ⟨other, hmem, hother⟩
      · obtain ⟨map', other, hsame, hcap'⟩ : ∃ map' other,
            (callTraced context fuel map call).answer = some (map', other) ∧
              map'.capacity = map.capacity :=
          exists_answer_of_not_touches fuel map (by simpa using htouches)
        obtain ⟨rfl, -⟩ := Prod.mk.inj (Option.some.inj (hnext.symm.trans hsame))
        exact .inl (hcap' ▸ hcap)
      · rcases List.mem_cons.mp hmem with rfl | hmem
        · exact absurd hother htouches
        · exact .inr ⟨other, hmem, hother⟩

/-- **No hash is reduced modulo 0, unless a removal comes first.**  In a run from the empty map
every call divides by positive capacities only, and finds nothing where there is nothing, if and
only if the first call that needs a table is not a removal. -/
theorem positions_iff (fuel : ℕ) (calls : List (HashmapCall κ ν υ)) :
    (∀ pre call post, calls = pre ++ call :: post → ∀ map,
        (callsTraced context fuel hashmapInit pre).answer = some map →
          call.Safe context fuel map) ↔
      ∀ key, calls.find? HashmapCall.touches ≠ some (.remove key) := by
  constructor
  · intro h key hfind
    obtain ⟨-, pre, post, rfl, hpre⟩ := List.find?_eq_some_iff_append.mp hfind
    obtain ⟨map, hrun, hcap⟩ : ∃ map : Hashmap κ ν,
        (callsTraced context fuel hashmapInit pre).answer = some map ∧
          map.capacity = (hashmapInit : Hashmap κ ν).capacity :=
      exists_answer_calls fuel hashmapInit (by simpa using hpre)
    have hpos := (safe_iff fuel map _).mp (h pre _ post rfl map hrun) key rfl
    exact absurd (hcap ▸ hpos) (lt_irrefl 0)
  · rintro h pre call post rfl map hrun
    refine (safe_iff fuel map call).mpr ?_
    rintro key rfl
    refine capacity_calls_pos (.inr ?_) hrun
    by_contra hnone
    have hpre : pre.find? HashmapCall.touches = none :=
      List.find?_eq_none.mpr fun call hmem htouches => hnone ⟨call, hmem, htouches⟩
    refine h key ?_
    rw [List.find?_append, hpre]
    rfl

/-- Removing a key from a fresh map divides by 0. -/
theorem not_safe_remove :
    ¬(.remove 'd' : HashmapCall Char ℕ Unit).Safe dnContext 1 hashmapInit := by
  intro h
  exact absurd (h.divides (.position 0) List.mem_cons_self) (lt_irrefl 0)

end Passgen
