import Mathlib.Algebra.Ring.Nat
import Mathlib.Data.List.ReduceOption
import Mathlib.Tactic.Common

/-!
# Container/Hashmap — the hash map

The map of presets and wordlists keeps every entry at one of **two** positions, one for each of its
key's hashes:

```
insert ──▶ first position ──▶ second position ──▶ grow, and insert again
             free: write        free: write         every entry of the old table,
             equal: overwrite   equal: overwrite    inserted into the new one
             movable: displace  movable: displace
```

An occupant is movable when its other position is free.  Growing inserts into the new table with
the very insertion that is growing, which can grow that table in turn; the nesting is bounded by
fuel, and a call that runs out of it does not return.
-/

namespace Passgen

/-- Keys, their two hashes and when two of them are equal: the callbacks of a
`passgen_hashmap_context`, with what an implementation owes the map. -/
structure HashmapContext (κ : Type*) where
  hash : κ → Bool → ℕ
  equal : κ → κ → Bool
  equivalence : Equivalence fun lhs rhs => equal lhs rhs = true
  hash_eq {lhs rhs : κ} : equal lhs rhs = true → ∀ first, hash lhs first = hash rhs first

/-- `passgen_hashmap_entry`, of a key that is not `NULL`. -/
structure HashmapEntry (κ ν : Type*) where
  key : κ
  value : ν
  deriving DecidableEq, Repr

/-- `passgen_hashmap`.  A slot whose key is `NULL` is `none`, the data of an empty list of slots is
`NULL`, and the capacity is the number of slots. -/
structure Hashmap (κ ν : Type*) where
  data : List (Option (HashmapEntry κ ν))
  len : ℕ
  deriving DecidableEq, Repr

/-- `hashmap_sizes`, without the 0 that ends it. -/
def hashmapSizes : List ℕ :=
  [3, 7, 17, 37, 79, 163, 331, 673, 1361, 2729, 5471, 10949, 21911, 43853, 87719, 175447, 350899,
    701819]

/-- `sizeof(passgen_hashmap_entry)`. -/
def entrySize : ℕ := 16

/-- `next_capacity`: the size after the first one that is at least the capacity, and past the end
of the sizes not quite the double. -/
def nextCapacity (capacity : ℕ) : ℕ :=
  match hashmapSizes.dropWhile (· < capacity) with
  | _ :: next :: _ => next
  | _ => 2 * capacity - 1

namespace Hashmap

variable {κ ν : Type*}

/-- `capacity`. -/
def capacity (map : Hashmap κ ν) : ℕ := map.data.length

/-- `data[pos]`. -/
def slot (map : Hashmap κ ν) (pos : ℕ) : Option (HashmapEntry κ ν) := map.data[pos]?.join

/-- The slots with a key, in the order a loop over the data meets them. -/
def entries (map : Hashmap κ ν) : List (HashmapEntry κ ν) := map.data.reduceOption

/-- Writes `data[pos]`. -/
def write (map : Hashmap κ ν) (pos : ℕ) (cell : Option (HashmapEntry κ ν)) : Hashmap κ ν :=
  { map with data := map.data.set pos cell }

end Hashmap

section Operations

variable {κ ν : Type*} (context : HashmapContext κ)

/-- `passgen_hashmap_init`: no data. -/
def hashmapInit : Hashmap κ ν := ⟨[], 0⟩

/-- `calloc` of a table. -/
def hashmapTable (capacity : ℕ) : Hashmap κ ν := ⟨List.replicate capacity none, 0⟩

/-- `passgen_hashmap_position`, of a map with a capacity. -/
def hashmapPosition (map : Hashmap κ ν) (key : κ) (first : Bool) : ℕ :=
  context.hash key first % map.capacity

/-- `passgen_hashmap_move`: copies the occupant of a slot to its other position, if that is free.
The caller overwrites the slot. -/
def hashmapMove (map : Hashmap κ ν) (pos : ℕ) : Option (Hashmap κ ν) := do
  let entry ← map.slot pos
  let first := hashmapPosition context map entry.key true == pos
  let otherPos := hashmapPosition context map entry.key !first
  match map.slot otherPos with
  | none => some (map.write otherPos (some entry))
  | some _ => none

/-- `passgen_hashmap_insert` at one of the two positions, and what it returns there: a slot that is
free, the key's own or that of an occupant that moves. -/
def insertAt (map : Hashmap κ ν) (key : κ) (value : ν) (first : Bool) :
    Option (Hashmap κ ν × Option (HashmapEntry κ ν)) :=
  let hash := hashmapPosition context map key first
  match map.slot hash with
  | none => some ({ map.write hash (some ⟨key, value⟩) with len := map.len + 1 }, none)
  | some entry =>
    if context.equal entry.key key then
      some (map.write hash (some ⟨key, value⟩), some entry)
    else do
      let moved ← hashmapMove context map hash
      some ({ moved.write hash (some ⟨key, value⟩) with len := moved.len + 1 }, none)

/-- `passgen_hashmap_realloc`, over the insertion it uses.  `calloc` refuses a table that does not
fit into the address space, and the map is then written through `NULL`. -/
def hashmapRealloc
    (insert : Hashmap κ ν → κ → ν → Option (Hashmap κ ν × Option (HashmapEntry κ ν)))
    (map : Hashmap κ ν) (capacity : ℕ) : Option (Hashmap κ ν) :=
  if capacity * entrySize < 2 ^ 64 then
    map.entries.foldlM (fun table entry => (insert table entry.key entry.value).map Prod.fst)
      (hashmapTable capacity)
  else none

/-- `passgen_hashmap_insert`, with fuel for the insertions it nests. -/
def hashmapInsert : ℕ → Hashmap κ ν → κ → ν → Option (Hashmap κ ν × Option (HashmapEntry κ ν))
  | 0, _, _, _ => none
  | fuel + 1, map, key, value => do
    let map ← if map.capacity = 0 then hashmapRealloc (hashmapInsert fuel) map 3 else some map
    insertAt context map key value true <|> insertAt context map key value false <|> do
      let map ← hashmapRealloc (hashmapInsert fuel) map (nextCapacity map.capacity)
      hashmapInsert fuel map key value

/-- The entry at one of the two positions, if it matches the key. -/
def foundAt (map : Hashmap κ ν) (key : κ) (first : Bool) : Option (HashmapEntry κ ν) :=
  (map.slot (hashmapPosition context map key first)).filter fun entry =>
    context.equal entry.key key

/-- `passgen_hashmap_remove` at one of the two positions. -/
def removeAt (map : Hashmap κ ν) (key : κ) (first : Bool) :
    Option (Hashmap κ ν × Option (HashmapEntry κ ν)) := do
  let entry ← foundAt context map key first
  some ({ map.write (hashmapPosition context map key first) none with len := map.len - 1 },
    some entry)

/-- `passgen_hashmap_remove`.  Without a capacity the first position divides by zero. -/
def hashmapRemove (map : Hashmap κ ν) (key : κ) :
    Option (Hashmap κ ν × Option (HashmapEntry κ ν)) :=
  if map.capacity = 0 then none
  else
    removeAt context map key true <|> removeAt context map key false <|> some (map, none)

/-- `passgen_hashmap_lookup`. -/
def hashmapLookup (map : Hashmap κ ν) (key : κ) : Option (HashmapEntry κ ν) :=
  if map.data = [] then none
  else foundAt context map key true <|> foundAt context map key false

end Operations

end Passgen
