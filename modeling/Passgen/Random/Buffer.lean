import Mathlib.Data.List.Range
import Mathlib.Data.List.Nodup
import Mathlib.Tactic.Common

/-!
# Random/Buffer — the buffered randomness reader

`passgen_random` keeps 1024 bytes of its source and serves small requests out of them.  A request
that reaches the end of the buffer takes what is left, reloads, and recurses for the rest.

The reader copies cells and never looks into them, so it is written over an arbitrary cell type
`α`: at `α = UInt8` it is the reader of `random.c`, and at `α = ℕ × UInt8` every byte carries the
stream position it was read from, which is how reuse is seen.
-/

namespace Passgen

/-- `PASSGEN_RANDOM_BUFFER_LENGTH`. -/
def randomBufferLength : ℕ := 1024

/-- `passgen_random_read_func`: from the context and a requested size, the cells the callback wrote
(as many as it returns) and the context it leaves. -/
abbrev RandomReadFunc (σ α : Type) : Type := σ → ℕ → List α × σ

/-- `passgen_random`.  The buffer is an array of fixed size; its length travels with it. -/
structure Random (σ α : Type) where
  buffer : List α
  length_buffer : buffer.length = randomBufferLength
  pos : ℕ
  context : σ

/-- Writing `src` over the front of `dest`, as a callback does with its destination. -/
def overwrite {α : Type} (dest src : List α) : List α :=
  src.take dest.length ++ dest.drop src.length

@[simp] theorem length_overwrite {α : Type} (dest src : List α) :
    (overwrite dest src).length = dest.length := by
  simp only [overwrite, List.length_append, List.length_take, List.length_drop]
  omega

/-- A full write leaves nothing of the destination. -/
theorem overwrite_of_length_eq {α : Type} {dest src : List α} (h : src.length = dest.length) :
    overwrite dest src = src := by
  rw [overwrite, ← h, List.take_length, List.drop_of_length_le h.ge, List.append_nil]

section Reader

variable {σ α : Type} (read : RandomReadFunc σ α)

/-- `passgen_random_reload`; the check of the count is compiled out of release builds. -/
def randomReload (r : Random σ α) : Random σ α where
  buffer := overwrite r.buffer (read r.context randomBufferLength).1
  length_buffer := by rw [length_overwrite, r.length_buffer]
  pos := 0
  context := (read r.context randomBufferLength).2

@[simp] theorem randomReload_pos (r : Random σ α) : (randomReload read r).pos = 0 := rfl

/-- `passgen_random_read`: the cells handed to the caller and the reader afterwards; `none` is the
`abort()` of a direct read that comes up short. -/
def randomRead (r : Random σ α) (bytes : ℕ) : Option (List α × Random σ α) :=
  if bytes ≤ randomBufferLength then
    let left := randomBufferLength - r.pos
    if bytes < left then
      some ((r.buffer.drop r.pos).take bytes, { r with pos := r.pos + bytes })
    else
      -- the source copies from the start of the buffer here, not from `pos`
      let head := r.buffer.take left
      if bytes ≠ left then
        (randomRead (randomReload read r) (bytes - left)).map fun (rest, r') => (head ++ rest, r')
      else
        some (head, randomReload read r)
  else
    let (data, context) := read r.context bytes
    if data.length = bytes then some (data, { r with context := context }) else none
  termination_by bytes + r.pos
  decreasing_by simp only [randomReload_pos, randomBufferLength, left] at *; omega

/-- A request that ends before the buffer does. -/
theorem randomRead_of_lt {r : Random σ α} {bytes : ℕ} (h : bytes < randomBufferLength - r.pos) :
    randomRead read r bytes =
      some ((r.buffer.drop r.pos).take bytes, { r with pos := r.pos + bytes }) := by
  rw [randomRead, if_pos (by omega), if_pos h]

/-- A request that takes the buffer to its end. -/
theorem randomRead_of_eq {r : Random σ α} {bytes : ℕ} (h : bytes = randomBufferLength - r.pos) :
    randomRead read r bytes = some (r.buffer.take bytes, randomReload read r) := by
  subst h
  rw [randomRead, if_pos (by omega), if_neg (by omega), if_neg (by omega)]

/-- A request that goes past the end of the buffer. -/
theorem randomRead_of_gt {r : Random σ α} {bytes : ℕ} (h : randomBufferLength - r.pos < bytes)
    (hbytes : bytes ≤ randomBufferLength) :
    randomRead read r bytes =
      (randomRead read (randomReload read r) (bytes - (randomBufferLength - r.pos))).map
        fun (rest, r') => (r.buffer.take (randomBufferLength - r.pos) ++ rest, r') := by
  rw [randomRead, if_pos hbytes, if_neg (by omega), if_pos (by omega)]

/-- A request larger than the buffer goes to the source. -/
theorem randomRead_direct {r : Random σ α} {bytes : ℕ} (h : randomBufferLength < bytes) :
    randomRead read r bytes =
      if (read r.context bytes).1.length = bytes then
        some ((read r.context bytes).1, { r with context := (read r.context bytes).2 })
      else none := by
  rw [randomRead, if_neg (by omega)]

/-- **A read hands out as many cells as were asked for.** -/
theorem length_randomRead {r r' : Random σ α} {bytes : ℕ} {data : List α}
    (h : randomRead read r bytes = some (data, r')) : data.length = bytes := by
  induction r, bytes using randomRead.induct read generalizing data r' with
  | case1 r bytes hsmall left =>
    rename_i hlt
    rw [randomRead_of_lt read hlt] at h
    obtain ⟨rfl, -⟩ := Prod.mk.inj (Option.some.inj h)
    rw [List.length_take, List.length_drop, r.length_buffer]
    omega
  | case2 r bytes hsmall left hlt hne =>
    rename_i ih
    rw [randomRead_of_gt read (by omega) hsmall, Option.map_eq_some_iff] at h
    obtain ⟨⟨rest, last⟩, hrest, hpair⟩ := h
    obtain ⟨rfl, -⟩ := Prod.mk.inj hpair
    rw [List.length_append, ih hrest, List.length_take, r.length_buffer]
    omega
  | case3 r bytes hsmall left hlt =>
    rename_i heq
    rw [randomRead_of_eq read (by omega)] at h
    obtain ⟨rfl, -⟩ := Prod.mk.inj (Option.some.inj h)
    rw [List.length_take, r.length_buffer]
    omega
  | case4 r data context hlarge hread =>
    rw [randomRead_direct read (by omega), hread, if_pos rfl] at h
    obtain ⟨rfl, -⟩ := Prod.mk.inj (Option.some.inj h)
    rfl
  | case5 r bytes hlarge data context hread hne =>
    rw [randomRead_direct read (by omega), hread, if_neg hne] at h
    exact absurd h (by simp)
/-- One call, as its caller sees it: what was delivered, and where the reader stands after it. -/
structure RandomCall (σ α : Type) where
  delivered : List α
  after : Random σ α

/-- A sequence of `passgen_random_read` calls of the given sizes. -/
def randomReads (r : Random σ α) : List ℕ → Option (List (RandomCall σ α))
  | [] => some []
  | bytes :: sizes =>
    (randomRead read r bytes).bind fun (data, r') =>
      (randomReads r' sizes).map fun calls => ⟨data, r'⟩ :: calls

/-- Everything a run hands out, in order. -/
def delivered (calls : List (RandomCall σ α)) : List α := calls.flatMap RandomCall.delivered

end Reader

end Passgen
