import Passgen.Container.Insert
import Passgen.Effect.Traced

/-!
# Container/Traced — the divisions and the tables of a call

```
position   hash % capacity          logs the capacity it divides by, and stops if that is 0
realloc    calloc, then insert all  logs the old capacity and the new one
```

The calls on the map, with a log of both.  They answer what `Container/Hashmap`'s do
(`answer_insertTraced`).  Whether or not an insertion returns, every table it allocates is larger
than the one before, and it divides by none of them before it is allocated (`all_insertTraced`); so
**growing loses nothing** (`insert_grows`).
-/

namespace Passgen

open Effect Effect.Traced Hashmap

/-- What a call on a map does on the way. -/
inductive HashmapEvent
  /-- Divides a hash by the capacity. -/
  | position (capacity : ℕ)
  /-- Replaces a table of the old capacity by one of the new capacity. -/
  | realloc (old new : ℕ)
  deriving DecidableEq, Repr

/-- Divides by a capacity that is not 0, or replaces a table by a larger one. -/
def HashmapEvent.Sound : HashmapEvent → Prop
  | position capacity => 0 < capacity
  | realloc old new => old < new

variable {κ ν : Type}

section Operations

variable (context : HashmapContext κ)

/-- `passgen_hashmap_position`. -/
def positionTraced (map : Hashmap κ ν) (key : κ) (first : Bool) : Traced HashmapEvent ℕ := do
  emit (.position map.capacity)
  if map.capacity = 0 then stuck else pure (hashmapPosition context map key first)

/-- `passgen_hashmap_move`. -/
def moveTraced (map : Hashmap κ ν) (pos : ℕ) (entry : HashmapEntry κ ν) :
    Traced HashmapEvent (Option (Hashmap κ ν)) := do
  let firstPos ← positionTraced context map entry.key true
  let otherPos ← positionTraced context map entry.key !(firstPos == pos)
  match map.slot otherPos with
  | none => pure (some (map.write otherPos (some entry)))
  | some _ => pure none

/-- `passgen_hashmap_insert` at one of the two positions. -/
def insertAtTraced (map : Hashmap κ ν) (key : κ) (value : ν) (first : Bool) :
    Traced HashmapEvent (Option (Hashmap κ ν × Option (HashmapEntry κ ν))) := do
  let hash ← positionTraced context map key first
  match map.slot hash with
  | none => pure (some ({ map.write hash (some ⟨key, value⟩) with len := map.len + 1 }, none))
  | some entry =>
    if context.equal entry.key key then
      pure (some (map.write hash (some ⟨key, value⟩), some entry))
    else do
      let moved ← moveTraced context map hash entry
      pure (moved.map fun moved =>
        ({ moved.write hash (some ⟨key, value⟩) with len := moved.len + 1 }, none))

/-- `passgen_hashmap_realloc`, over the insertion it uses. -/
def reallocTraced
    (insert : Hashmap κ ν → κ → ν →
      Traced HashmapEvent (Hashmap κ ν × Option (HashmapEntry κ ν)))
    (map : Hashmap κ ν) (capacity : ℕ) : Traced HashmapEvent (Hashmap κ ν) := do
  emit (.realloc map.capacity capacity)
  if capacity * entrySize < 2 ^ 64 then
    map.entries.foldlM (fun table entry => do
      let answer ← insert table entry.key entry.value
      pure answer.1) (hashmapTable capacity)
  else stuck

/-- The start of `passgen_hashmap_insert`: a map without data gets its first table. -/
def allocateTraced
    (insert : Hashmap κ ν → κ → ν →
      Traced HashmapEvent (Hashmap κ ν × Option (HashmapEntry κ ν)))
    (map : Hashmap κ ν) : Traced HashmapEvent (Hashmap κ ν) :=
  if map.capacity = 0 then reallocTraced insert map 3 else pure map

/-- `passgen_hashmap_insert`, with fuel for the insertions it nests. -/
def insertTraced : ℕ → Hashmap κ ν → κ → ν →
    Traced HashmapEvent (Hashmap κ ν × Option (HashmapEntry κ ν))
  | 0, _, _, _ => stuck
  | fuel + 1, map, key, value => do
    let map ← allocateTraced (insertTraced fuel) map
    orElse (insertAtTraced context map key value true) <|
      orElse (insertAtTraced context map key value false) <| do
        let map ← reallocTraced (insertTraced fuel) map (nextCapacity map.capacity)
        insertTraced fuel map key value

end Operations

variable {context : HashmapContext κ} {map map' : Hashmap κ ν} {key : κ} {value : ν} {fuel : ℕ}
  {result : Option (HashmapEntry κ ν)} {first : Bool}

/-! ## The same answers -/

theorem positionTraced_of_pos (hcap : 0 < map.capacity) (key : κ) (first : Bool) :
    positionTraced context map key first =
      ⟨[.position map.capacity], some (hashmapPosition context map key first)⟩ := by
  rw [positionTraced, if_neg hcap.ne']
  rfl

theorem answer_moveTraced (hcap : 0 < map.capacity) {pos : ℕ} {entry : HashmapEntry κ ν}
    (hslot : map.slot pos = some entry) :
    (moveTraced context map pos entry).answer = some (hashmapMove context map pos) := by
  simp only [moveTraced, positionTraced_of_pos hcap, answer_bind, Option.bind_some, hashmapMove,
    hslot, Option.bind_eq_bind]
  cases map.slot (hashmapPosition context map entry.key
    !(hashmapPosition context map entry.key true == pos)) <;> rfl

/-- A table that is there is inserted into as before. -/
theorem answer_insertAtTraced (hcap : 0 < map.capacity) (key : κ) (value : ν) (first : Bool) :
    (insertAtTraced context map key value first).answer =
      some (insertAt context map key value first) := by
  simp only [insertAtTraced, positionTraced_of_pos hcap, answer_bind, Option.bind_some, insertAt]
  cases hslot : map.slot (hashmapPosition context map key first) with
  | none => rfl
  | some entry =>
    by_cases hequal : context.equal entry.key key
    · simp only [if_pos hequal, answer_pure]
    · simp only [if_neg hequal, answer_bind, answer_moveTraced hcap hslot, Option.bind_some,
        answer_pure]
      cases hashmapMove context map (hashmapPosition context map key first) <;> rfl

section Realloc

variable
  {insert : Hashmap κ ν → κ → ν → Traced HashmapEvent (Hashmap κ ν × Option (HashmapEntry κ ν))}

theorem answer_reallocTraced
    {insert' : Hashmap κ ν → κ → ν → Option (Hashmap κ ν × Option (HashmapEntry κ ν))}
    (h : ∀ map key value, (insert map key value).answer = insert' map key value)
    (map : Hashmap κ ν) (capacity : ℕ) :
    (reallocTraced insert map capacity).answer = hashmapRealloc insert' map capacity := by
  rw [reallocTraced, answer_bind, answer_emit, Option.bind_some, hashmapRealloc]
  split
  · refine answer_foldlM (fun table entry => ?_) _ _
    rw [answer_bind, h, Option.map_eq_bind]
    rfl
  · rfl

/-- Nothing is inserted into a first table. -/
theorem answer_allocateTraced (map : Hashmap κ ν) :
    (allocateTraced insert map).answer = some map.allocated := by
  rw [allocateTraced, allocated]
  split
  · rename_i h
    rw [reallocTraced, entries_of_capacity_eq_zero h]
    rfl
  · rfl

theorem all_reallocTraced (h : ∀ map key value, (insert map key value).All HashmapEvent.Sound)
    {capacity : ℕ} (hlt : map.capacity < capacity) :
    (reallocTraced insert map capacity).All HashmapEvent.Sound := by
  have hlog : (emit (HashmapEvent.realloc map.capacity capacity)).All HashmapEvent.Sound :=
    all_emit_iff.mpr hlt
  refine hlog.bind fun _ _ => ?_
  split
  · refine all_foldlM (I := fun _ => True) (fun entry _ table _ => ⟨?_, fun _ _ => trivial⟩) trivial
    exact (h table entry.key entry.value).bind fun answer _ => all_pure answer.1
  · exact all_stuck

theorem all_allocateTraced (h : ∀ map key value, (insert map key value).All HashmapEvent.Sound)
    (map : Hashmap κ ν) : (allocateTraced insert map).All HashmapEvent.Sound := by
  rw [allocateTraced]
  split
  · rename_i hcap
    exact all_reallocTraced h (by rw [hcap]; decide)
  · exact all_pure map

end Realloc

/-- **The log changes nothing**: an insertion answers what it answers without one. -/
theorem answer_insertTraced (fuel : ℕ) (map : Hashmap κ ν) (key : κ) (value : ν) :
    (insertTraced context fuel map key value).answer =
      hashmapInsert context fuel map key value := by
  induction fuel generalizing map key value with
  | zero => rfl
  | succ fuel ih =>
    have hcap := capacity_allocated_pos map
    rw [insertTraced, answer_bind, answer_allocateTraced, Option.bind_some,
      answer_orElse (answer_insertAtTraced hcap key value true),
      answer_orElse (answer_insertAtTraced hcap key value false), answer_bind,
      answer_reallocTraced ih, insert_succ]
    exact congrArg _ (congrArg _ (congrArg _ (funext fun grown => ih grown key value)))

/-! ## What is on the log -/

theorem all_positionTraced (hcap : 0 < map.capacity) (key : κ) (first : Bool) :
    (positionTraced context map key first).All HashmapEvent.Sound := by
  rw [positionTraced_of_pos hcap]
  exact List.forall_mem_singleton.mpr hcap

theorem all_insertAtTraced (hcap : 0 < map.capacity) (key : κ) (value : ν) (first : Bool) :
    (insertAtTraced context map key value first).All HashmapEvent.Sound := by
  refine (all_positionTraced hcap key first).bind fun hash _ => ?_
  split
  · exact all_pure _
  rename_i entry _
  split
  · exact all_pure _
  · refine All.bind ?_ fun moved _ => all_pure _
    refine (all_positionTraced hcap _ _).bind fun firstPos _ => ?_
    refine (all_positionTraced hcap _ _).bind fun otherPos _ => ?_
    split <;> exact all_pure _

/-- **An insertion divides by capacities only, and grows by growing**, however its insertions nest
and whether or not it returns. -/
theorem all_insertTraced (fuel : ℕ) (map : Hashmap κ ν) (key : κ) (value : ν) :
    (insertTraced context fuel map key value).All HashmapEvent.Sound := by
  induction fuel generalizing map key value with
  | zero => exact all_stuck
  | succ fuel ih =>
    rw [insertTraced]
    have hcap := capacity_allocated_pos map
    refine (all_allocateTraced ih map).bind_of_answer (answer_allocateTraced map) ?_
    refine (all_insertAtTraced hcap key value true).orElse ?_
    refine (all_insertAtTraced hcap key value false).orElse ?_
    exact (all_reallocTraced ih (lt_nextCapacity hcap)).bind fun grown _ => ih grown key value

/-- **Growing loses nothing.**  An insertion of a key that a map in order does not have, if it
returns, leaves a map in order with the old entries and the new one; every table it allocates, for
itself and for the insertions it nests, is larger than the one it replaces. -/
theorem insert_grows (h : map.Ok context) (habsent : map.Absent context key) (fuel : ℕ)
    (value : ν) :
    (insertTraced context fuel map key value).All HashmapEvent.Sound ∧
      ∀ map' result, (insertTraced context fuel map key value).answer = some (map', result) →
        result = none ∧ map'.Ok context ∧ map'.len = map.len + 1 ∧
          map'.entries.Perm (⟨key, value⟩ :: map.entries) := by
  refine ⟨all_insertTraced fuel map key value, fun map' result hrun => ?_⟩
  rw [answer_insertTraced] at hrun
  obtain ⟨rfl, hok, -, hins⟩ := insert_absent fuel _ _ _ _ _ h habsent hrun
  obtain ⟨hlen, hperm⟩ | _ := hins
  exact ⟨rfl, hok, hlen, hperm⟩

/-- Numbers, both of whose hashes are the number. -/
def numberContext : HashmapContext ℕ where
  hash key _ := key
  equal lhs rhs := lhs == rhs
  equivalence := by simpa only [beq_iff_eq] using eq_equivalence
  hash_eq h _ := beq_iff_eq.mp h

/-- The keys 0 and 3 collide in the first table and not in the second one. -/
theorem insert_grows_three :
    (insertTraced numberContext 2 ⟨[some ⟨0, 'a'⟩, none, none], 1⟩ 3 'b').All
        HashmapEvent.Sound ∧
      (none : Option (HashmapEntry ℕ Char)) = none ∧
      (⟨[some ⟨0, 'a'⟩, none, none, some ⟨3, 'b'⟩, none, none, none], 2⟩ :
        Hashmap ℕ Char).Ok numberContext ∧
      2 = 1 + 1 ∧ [(⟨0, 'a'⟩ : HashmapEntry ℕ Char), ⟨3, 'b'⟩].Perm [⟨3, 'b'⟩, ⟨0, 'a'⟩] := by
  have hok : (⟨[some ⟨0, 'a'⟩, none, none], 1⟩ : Hashmap ℕ Char).Ok numberContext :=
    (insert_absent 1 hashmapInit 0 'a' _ none (ok_table 0) (by simp [Absent, hashmapInit, entries])
      rfl).2.1
  have habsent : Absent numberContext (⟨[some ⟨0, 'a'⟩, none, none], 1⟩ : Hashmap ℕ Char) 3 := by
    simp [Absent, entries, numberContext]
  have hgrown := insert_grows hok habsent 2 'b'
  exact ⟨hgrown.1, hgrown.2 _ none rfl⟩

end Passgen
