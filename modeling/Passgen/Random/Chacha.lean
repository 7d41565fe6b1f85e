import Mathlib.Data.List.Basic
import Mathlib.Tactic.Common
import Passgen.Pattern.Tree
import Passgen.Random.Buffer
import Passgen.Random.Monocypher

/-!
# Random/Chacha — the ChaCha20 source

    offset
      ▾
    ▢▢▢▢▢▢│▢▢▢▢▢▢▢▢│▢▢▢▢▢▢▢▢│▢▢▢
      short  ── passgen_chacha20_djb ──▸

A read that starts inside a block takes the rest of the block, or as much of it as it needs, from a
copy; what is left of it starts a block.  So a read is a slice of the keystream from the offset, and
reads that follow each other are one slice (`chachaReads_eq`).  The offset is a `size_t`: at
`2 ^ 64` it starts over, and the stream with it.
-/

namespace Passgen

/-- `CHACHA20_BLOCK_SIZE`. -/
abbrev chachaBlockSize : ℕ := 64

/-- `passgen_random_chacha20_context`. -/
structure ChachaContext where
  key : Vector UInt8 32
  iv : Vector UInt8 8
  offset : ℕ

section Reads

variable (djb : Vector UInt8 32 → Vector UInt8 8 → ℕ → ℕ → List UInt8)

/-- `passgen_random_chacha20_read_short`. -/
def chachaReadShort (context : ChachaContext) (size : ℕ) : List UInt8 × ChachaContext :=
  let block := djb context.key context.iv (context.offset / chachaBlockSize) chachaBlockSize
  ((block.drop (context.offset % chachaBlockSize)).take size,
    { context with offset := sizeT (context.offset + size) })

/-- The size `passgen_random_chacha20_read` calls the short read with, if it does. -/
def shortBytes (context : ChachaContext) (size : ℕ) : Option ℕ :=
  let offsetBytes := context.offset % chachaBlockSize
  if offsetBytes ≠ 0 then
    some (if chachaBlockSize - offsetBytes < size then chachaBlockSize - offsetBytes else size)
  else none

/-- `passgen_random_chacha20_read`: what is written to `dest`.  Nothing of the zeroes it is filled
with before is left. -/
def chachaRead (context : ChachaContext) (size : ℕ) : List UInt8 × ChachaContext :=
  let (head, context, written) :=
    match shortBytes context size with
    | some short =>
      let (head, context) := chachaReadShort djb context short
      (head, context, short)
    | none => ([], context, 0)
  let remaining := sizeSub size written
  (head ++ djb context.key context.iv (context.offset / chachaBlockSize) remaining,
    { context with offset := sizeT (context.offset + remaining) })

/-- Reads of these sizes, one after the other. -/
def chachaReads : ChachaContext → List ℕ → List UInt8 × ChachaContext
  | context, [] => ([], context)
  | context, size :: sizes =>
    let (data, context) := chachaRead djb context size
    let (rest, context) := chachaReads context sizes
    (data ++ rest, context)

/-- `passgen_random_chacha20_seek`: the buffer is filled from the new position. -/
def chachaSeek (r : Random ChachaContext UInt8) (position : ℕ) : Random ChachaContext UInt8 :=
  randomReload (chachaRead djb) { r with context := { r.context with offset := position } }

end Reads

/-! ## One read -/

/-- **The short read** is used with a size below 64, and stays inside the block. -/
theorem shortBytes_le {context : ChachaContext} {size short : ℕ}
    (h : shortBytes context size = some short) :
    short < chachaBlockSize ∧ context.offset % chachaBlockSize + short ≤ chachaBlockSize ∧
      short ≤ size ∧ (short < size → (context.offset + short) % chachaBlockSize = 0) := by
  rw [shortBytes] at h
  simp only [chachaBlockSize] at h ⊢
  split at h
  · obtain rfl := Option.some.inj h
    split <;> omega
  · exact absurd h (by simp)

theorem aligned_of_shortBytes {context : ChachaContext} {size : ℕ}
    (h : shortBytes context size = none) : context.offset % chachaBlockSize = 0 := by
  by_contra hne
  rw [shortBytes, if_pos hne] at h
  exact absurd h (by simp)

/-- **The offset is a `size_t`.** -/
theorem chachaRead_context (djb : Vector UInt8 32 → Vector UInt8 8 → ℕ → ℕ → List UInt8)
    {context : ChachaContext} {size : ℕ} (hsize : size < 2 ^ 64) :
    (chachaRead djb context size).2
      = { context with offset := sizeT (context.offset + size) } := by
  rw [chachaRead]
  cases hshort : shortBytes context size with
  | none =>
    dsimp only
    rw [sizeSub_of_le hsize (Nat.zero_le _), Nat.sub_zero]
  | some short =>
    obtain ⟨-, -, hle, -⟩ := shortBytes_le hshort
    have hoffset : sizeT (sizeT (context.offset + short) + (size - short))
        = sizeT (context.offset + size) := by
      rw [sizeT_add_sizeT, Nat.add_assoc, Nat.add_sub_cancel' hle]
    dsimp only [chachaReadShort]
    rw [sizeSub_of_le hsize hle, hoffset]

theorem chachaReads_context (djb : Vector UInt8 32 → Vector UInt8 8 → ℕ → ℕ → List UInt8)
    {sizes : List ℕ} (hsizes : ∀ size ∈ sizes, size < 2 ^ 64) (context : ChachaContext)
    (hcontext : context.offset < 2 ^ 64) :
    (chachaReads djb context sizes).2
      = { context with offset := sizeT (context.offset + sizes.sum) } := by
  induction sizes generalizing context with
  | nil =>
    rw [chachaReads, List.sum_nil, Nat.add_zero, sizeT_of_lt hcontext]
  | cons size sizes ih =>
    obtain ⟨hsize, hsizes⟩ := List.forall_mem_cons.mp hsizes
    rw [chachaReads]
    dsimp only
    rw [chachaRead_context djb hsize, ih hsizes _ (Nat.mod_lt _ (Nat.two_pow_pos 64)),
      List.sum_cons]
    dsimp only
    rw [sizeT_add_sizeT, Nat.add_assoc]

theorem chachaSeek_context (djb : Vector UInt8 32 → Vector UInt8 8 → ℕ → ℕ → List UInt8)
    (r : Random ChachaContext UInt8) (position : ℕ) :
    (chachaSeek djb r position).context
      = ⟨r.context.key, r.context.iv, sizeT (position + randomBufferLength)⟩ :=
  chachaRead_context djb (by decide)

/-! ## Slices -/

section Slices

variable {djb : Vector UInt8 32 → Vector UInt8 8 → ℕ → ℕ → List UInt8} {key : Vector UInt8 32}
  {iv : Vector UInt8 8} {K : ℕ → UInt8} (hdjb : WritesStream (djb key iv) K) {p size : ℕ}
include hdjb

/-- The rest of a block, or less. -/
theorem chachaReadShort_eq (hfits : p % chachaBlockSize + size ≤ chachaBlockSize) :
    chachaReadShort djb ⟨key, iv, p⟩ size = (slice K p size, ⟨key, iv, sizeT (p + size)⟩) := by
  have hp : 64 * (p / 64) + p % 64 = p := Nat.div_add_mod p 64
  rw [chachaReadShort]
  dsimp only
  rw [hdjb, drop_slice _ _ _ _ (by omega), take_slice _ _ _ _ (by omega), hp]

/-- From the start of a block. -/
theorem djb_of_aligned (haligned : p % chachaBlockSize = 0) :
    djb key iv (p / chachaBlockSize) size = slice K p size := by
  rw [hdjb, Nat.mul_div_cancel' (Nat.dvd_of_mod_eq_zero haligned)]

/-- **A read is a slice from the offset**, up to the end of the offsets. -/
theorem chachaRead_eq (h : p + size ≤ 2 ^ 64) (hsize : size < 2 ^ 64) :
    (chachaRead djb ⟨key, iv, p⟩ size).1 = slice K p size := by
  rw [chachaRead]
  cases hshort : shortBytes ⟨key, iv, p⟩ size with
  | none =>
    dsimp only
    rw [sizeSub_of_le hsize (Nat.zero_le _), Nat.sub_zero,
      djb_of_aligned hdjb (aligned_of_shortBytes hshort), List.nil_append]
  | some short =>
    obtain ⟨-, hfits, hle, haligned⟩ := shortBytes_le hshort
    dsimp only at hfits haligned ⊢
    have hrest : djb key iv (sizeT (p + short) / chachaBlockSize) (size - short)
        = slice K (p + short) (size - short) := by
      rcases Nat.lt_or_eq_of_le hle with hlt | rfl
      · rw [sizeT_of_lt (by omega), djb_of_aligned hdjb (haligned hlt)]
      · rw [hdjb, Nat.sub_self, slice_zero, slice_zero]
    rw [chachaReadShort_eq hdjb hfits, sizeSub_of_le hsize hle]
    dsimp only
    rw [hrest, ← slice_append, Nat.add_sub_cancel' hle]

/-- At the very end of the offsets only reads of no bytes are left. -/
theorem chachaRead_sizeT (h : p + size ≤ 2 ^ 64) (hsize : size < 2 ^ 64) :
    (chachaRead djb ⟨key, iv, sizeT p⟩ size).1 = slice K p size := by
  rcases Nat.lt_or_eq_of_le (Nat.le_of_add_right_le h) with hlt | rfl
  · rw [sizeT_of_lt hlt, chachaRead_eq hdjb h hsize]
  · obtain rfl : size = 0 := by omega
    have hle : sizeT (2 ^ 64) + 0 ≤ 2 ^ 64 := by
      rw [Nat.add_zero]
      exact (sizeT_lt _).le
    rw [chachaRead_eq hdjb hle hsize, slice_zero, slice_zero]

/-- **Reads that follow each other are one slice.** -/
theorem chachaReads_eq {sizes : List ℕ} (h : p + sizes.sum ≤ 2 ^ 64)
    (hsizes : ∀ size ∈ sizes, size < 2 ^ 64) :
    (chachaReads djb ⟨key, iv, sizeT p⟩ sizes).1 = slice K p sizes.sum := by
  induction sizes generalizing p with
  | nil => rfl
  | cons size sizes ih =>
    obtain ⟨hsize, hsizes⟩ := List.forall_mem_cons.mp hsizes
    rw [List.sum_cons, ← Nat.add_assoc] at h
    rw [chachaReads]
    dsimp only
    rw [chachaRead_context djb hsize, chachaRead_sizeT hdjb (Nat.le_of_add_right_le h) hsize]
    dsimp only
    rw [sizeT_add_sizeT, ih h hsizes, List.sum_cons, slice_append]

/-- A seek fills the buffer with the slice from the position. -/
theorem chachaSeek_eq (r : Random ChachaContext UInt8) {position : ℕ}
    (hkey : r.context.key = key) (hiv : r.context.iv = iv)
    (h : position + randomBufferLength ≤ 2 ^ 64) :
    (chachaSeek djb r position).buffer = slice K position randomBufferLength := by
  subst hkey hiv
  rw [chachaSeek, randomReload]
  dsimp only
  rw [chachaRead_eq hdjb h (by decide)]
  exact overwrite_of_length_eq (by rw [length_slice, r.length_buffer])

end Slices

/-! ## One stream -/

/-- **ChaCha20 reads form one stream.**  From any offset, and from any position after a seek, reads
of any sizes write one slice of the keystream, as long as it ends within the offsets.  The offset
ends behind the slice, as a `size_t`.  A short read has fewer than 64 bytes of one block. -/
theorem chachaReads_one_stream {djb : Vector UInt8 32 → Vector UInt8 8 → ℕ → ℕ → List UInt8}
    {key : Vector UInt8 32} {iv : Vector UInt8 8} {K : ℕ → UInt8}
    (hdjb : WritesStream (djb key iv) K) {p : ℕ} (hp : p < 2 ^ 64) {sizes : List ℕ}
    (hsizes : ∀ size ∈ sizes, size < 2 ^ 64) :
    (p + sizes.sum ≤ 2 ^ 64 →
      (chachaReads djb ⟨key, iv, p⟩ sizes).1 = slice K p sizes.sum) ∧
    (chachaReads djb ⟨key, iv, p⟩ sizes).2 = ⟨key, iv, sizeT (p + sizes.sum)⟩ ∧
    (∀ r : Random ChachaContext UInt8, r.context.key = key → r.context.iv = iv →
      p + randomBufferLength + sizes.sum ≤ 2 ^ 64 →
      (chachaSeek djb r p).buffer ++ (chachaReads djb (chachaSeek djb r p).context sizes).1
        = slice K p (randomBufferLength + sizes.sum)) ∧
    ∀ before size after, sizes = before ++ size :: after →
      ∀ short ∈ shortBytes (chachaReads djb ⟨key, iv, p⟩ before).2 size,
        short < chachaBlockSize ∧
          (chachaReads djb ⟨key, iv, p⟩ before).2.offset % chachaBlockSize + short
            ≤ chachaBlockSize := by
  refine ⟨fun h => ?_, chachaReads_context djb hsizes _ hp, fun r hkey hiv h => ?_, ?_⟩
  · rw [← chachaReads_eq hdjb h hsizes, sizeT_of_lt hp]
  · rw [chachaSeek_eq hdjb r hkey hiv (Nat.le_of_add_right_le h), chachaSeek_context, hkey, hiv,
      chachaReads_eq hdjb h hsizes, slice_append]
  · intro before size after _ short hshort
    obtain ⟨hlt, hfits, -, -⟩ := shortBytes_le hshort
    exact ⟨hlt, hfits⟩

/-- The source of the tests, read past a whole block and more. -/
theorem chachaReads_one_stream_passgen :
    (chachaReads chacha20Djb ⟨.replicate 32 97, #v[112, 97, 115, 115, 103, 101, 110, 0], 7⟩
        [0, 8, 64, 200]).1
      = slice (keystream (.replicate 32 97) #v[112, 97, 115, 115, 103, 101, 110, 0]) 7 272 :=
  (chachaReads_one_stream (writesStream_chacha20Djb _ _) (by decide) (by decide)).1 (by decide)

/-- Two bytes from the last offset end at 1, and the second of them is the first of the stream
again. -/
theorem chachaReads_starts_over :
    let key : Vector UInt8 32 := .replicate 32 97
    let iv : Vector UInt8 8 := #v[112, 97, 115, 115, 103, 101, 110, 0]
    let read := chachaReads chacha20Djb ⟨key, iv, 2 ^ 64 - 1⟩ [1, 1]
    read.2.offset ≠ 2 ^ 64 - 1 + [1, 1].sum ∧ read.2.offset = 1 ∧
      read.1 ≠ slice (keystream key iv) (2 ^ 64 - 1) [1, 1].sum := by
  decide +kernel

end Passgen
