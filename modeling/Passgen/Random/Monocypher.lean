import Mathlib.Data.List.Basic
import Mathlib.Data.List.GetD
import Mathlib.Tactic.Common

/-!
# Random/Monocypher — the ChaCha20 of `monocypher.c`

    ctr          ctr + 1      ctr + 2
    ▢▢▢▢▢▢▢▢▢▢▢▢│▢▢▢▢▢▢▢▢▢▢▢▢│▢▢▢▢▢
     block        block        start of a block

`passgen_chacha20_djb` is called without a plain text, so that it writes the keystream: whole
blocks, with a counter that runs over two words, and the start of one more.  Wherever a call starts
and however long it is, what it writes is the slice of one stream (`writesStream_chacha20Djb`).
-/

namespace Passgen

/-! ## Slices of a stream -/

/-- `n` bytes of the stream from position `p`. -/
def slice {α : Type} (K : ℕ → α) (p n : ℕ) : List α := (List.range n).map fun i => K (p + i)

section Slice

variable {α : Type} (K : ℕ → α) (p m n : ℕ)

@[simp] theorem length_slice : (slice K p n).length = n := by
  rw [slice, List.length_map, List.length_range]

@[simp] theorem slice_zero : slice K p 0 = [] := rfl

/-- **A slice, and the one behind it.** -/
theorem slice_append : slice K p (m + n) = slice K p m ++ slice K (p + m) n := by
  rw [slice, List.range_add, List.map_append, List.map_map, slice, slice]
  refine congrArg _ (List.map_congr_left fun i _ => ?_)
  rw [Function.comp_apply, Nat.add_assoc]

theorem take_slice (h : m ≤ n) : (slice K p n).take m = slice K p m := by
  obtain ⟨k, rfl⟩ := Nat.exists_eq_add_of_le h
  rw [slice_append, List.take_left' (length_slice K p m)]

theorem drop_slice (h : m ≤ n) : (slice K p n).drop m = slice K (p + m) (n - m) := by
  obtain ⟨k, rfl⟩ := Nat.exists_eq_add_of_le h
  rw [slice_append, List.drop_left' (length_slice K p m), Nat.add_sub_cancel_left]

end Slice

/-! ## Blocks -/

/-- Sixteen words. -/
abbrev Words : Type := Vector UInt32 16

/-- `rotl32`. -/
def rotl32 (x n : UInt32) : UInt32 := (x <<< n) ^^^ (x >>> (32 - n))

/-- `QUARTERROUND`, on the words at four places. -/
def quarterround (t : Words) (a b c d : Fin 16) : Words :=
  let t := t.set a (t[a] + t[b])
  let t := t.set d (rotl32 (t[d] ^^^ t[a]) 16)
  let t := t.set c (t[c] + t[d])
  let t := t.set b (rotl32 (t[b] ^^^ t[c]) 12)
  let t := t.set a (t[a] + t[b])
  let t := t.set d (rotl32 (t[d] ^^^ t[a]) 8)
  let t := t.set c (t[c] + t[d])
  t.set b (rotl32 (t[b] ^^^ t[c]) 7)

/-- Two rounds: the columns, then the diagonals. -/
def doubleRound (t : Words) : Words :=
  let t := quarterround t 0 4 8 12
  let t := quarterround t 1 5 9 13
  let t := quarterround t 2 6 10 14
  let t := quarterround t 3 7 11 15
  let t := quarterround t 0 5 10 15
  let t := quarterround t 1 6 11 12
  let t := quarterround t 2 7 8 13
  quarterround t 3 4 9 14

/-- `chacha20_rounds`. -/
def chacha20Rounds (input : Words) : Words := Nat.repeat doubleRound 10 input

/-- `load32_le`, at a place in a buffer. -/
def load32Le {n : ℕ} (s : Vector UInt8 n) (i : ℕ) : UInt32 :=
  (s.getD i 0).toUInt32 ||| ((s.getD (i + 1) 0).toUInt32 <<< 8) |||
    ((s.getD (i + 2) 0).toUInt32 <<< 16) ||| ((s.getD (i + 3) 0).toUInt32 <<< 24)

/-- `store32_le`. -/
def store32Le (word : UInt32) : List UInt8 :=
  [(word &&& 0xff).toUInt8, ((word >>> 8) &&& 0xff).toUInt8, ((word >>> 16) &&& 0xff).toUInt8,
    ((word >>> 24) &&& 0xff).toUInt8]

/-- `chacha20_constant`. -/
def chacha20Constant : Vector UInt8 16 :=
  #v[101, 120, 112, 97, 110, 100, 32, 51, 50, 45, 98, 121, 116, 101, 32, 107]

/-- The input of a block: constant, key, the two words of the counter, and nonce. -/
def chacha20Words (key : Vector UInt8 32) (nonce : Vector UInt8 8) (low high : UInt32) : Words :=
  #v[load32Le chacha20Constant 0, load32Le chacha20Constant 4, load32Le chacha20Constant 8,
    load32Le chacha20Constant 12, load32Le key 0, load32Le key 4, load32Le key 8, load32Le key 12,
    load32Le key 16, load32Le key 20, load32Le key 24, load32Le key 28, low, high,
    load32Le nonce 0, load32Le nonce 4]

/-- The input of the first block. -/
def chacha20Input (key : Vector UInt8 32) (nonce : Vector UInt8 8) (ctr : ℕ) : Words :=
  chacha20Words key nonce (.ofNat ctr) (.ofNat (ctr >>> 32))

/-- A block of the keystream: the rounds, added to their input, as bytes. -/
def chacha20Block (input : Words) : List UInt8 :=
  (Vector.zipWith (· + ·) (chacha20Rounds input) input).toList.flatMap store32Le

/-- `input[12]++`, with the carry into `input[13]`. -/
def countBlock (input : Words) : Words :=
  let input := input.set 12 (input[12] + 1)
  if input[12] = 0 then input.set 13 (input[13] + 1) else input

/-- The loop over the whole blocks: what it writes, and the input it leaves. -/
def chacha20Blocks : ℕ → Words → List UInt8 × Words
  | 0, input => ([], input)
  | n + 1, input =>
    let (rest, last) := chacha20Blocks n (countBlock input)
    (chacha20Block input ++ rest, last)

/-- `passgen_chacha20_djb` without a plain text: the cipher text. -/
def chacha20Djb (key : Vector UInt8 32) (nonce : Vector UInt8 8) (ctr textSize : ℕ) : List UInt8 :=
  let (whole, input) := chacha20Blocks (textSize >>> 6) (chacha20Input key nonce ctr)
  let textSize := textSize &&& 63
  if textSize > 0 then whole ++ (chacha20Block input).take textSize else whole

/-- The start of the stream that the tests read. -/
example : chacha20Djb (.replicate 32 97) #v[112, 97, 115, 115, 103, 101, 110, 0] 0 7
    = [180, 65, 168, 85, 97, 168, 95] := by decide +kernel

/-! ## The stream -/

/-- Calls write slices of one stream, of 64 bytes for each value of the counter. -/
def WritesStream (djb : ℕ → ℕ → List UInt8) (K : ℕ → UInt8) : Prop :=
  ∀ ctr size, djb ctr size = slice K (64 * ctr) size

section Stream

variable (key : Vector UInt8 32) (nonce : Vector UInt8 8)

/-- The keystream. -/
def keystream (i : ℕ) : UInt8 := (chacha20Block (chacha20Input key nonce (i / 64))).getD (i % 64) 0

theorem length_chacha20Block (input : Words) : (chacha20Block input).length = 64 := by
  have hword : ∀ word : UInt32, (store32Le word).length = 4 := fun _ => rfl
  rw [chacha20Block, List.length_flatMap, List.map_congr_left fun word _ => hword word,
    List.map_const', List.sum_replicate_nat, Vector.length_toList]

theorem countBlock_chacha20Words (low high : UInt32) :
    countBlock (chacha20Words key nonce low high)
      = chacha20Words key nonce (low + 1) (if low + 1 = 0 then high + 1 else high) := by
  have hlow : (chacha20Words key nonce low high).set 12
      ((chacha20Words key nonce low high)[12] + 1) = chacha20Words key nonce (low + 1) high := rfl
  have hget : (chacha20Words key nonce (low + 1) high)[12] = low + 1 := rfl
  rw [countBlock, hlow, hget]
  split <;> rfl

/-- **The counter runs over both of its words.** -/
theorem countBlock_chacha20Input (ctr : ℕ) :
    countBlock (chacha20Input key nonce ctr) = chacha20Input key nonce (ctr + 1) := by
  have hnext : ∀ n, UInt32.ofNat n + 1 = .ofNat (n + 1) := fun n => (UInt32.ofNat_add n 1).symm
  have hshift : ∀ n, n >>> 32 = n / 2 ^ 32 := fun n => Nat.shiftRight_eq_div_pow n 32
  have hwrap : UInt32.ofNat (ctr + 1) = 0 ↔ (ctr + 1) % 2 ^ 32 = 0 := by
    rw [← UInt32.toNat_inj, UInt32.toNat_ofNat']
    rfl
  have hcarry : (if UInt32.ofNat (ctr + 1) = 0 then UInt32.ofNat (ctr >>> 32) + 1
      else UInt32.ofNat (ctr >>> 32)) = .ofNat ((ctr + 1) >>> 32) := by
    rw [hshift, hshift, hnext]
    split
    · rename_i hzero
      have := hwrap.mp hzero
      exact congrArg _ (by omega)
    · rename_i hzero
      have := hwrap.not.mp hzero
      exact congrArg _ (by omega)
  rw [chacha20Input, countBlock_chacha20Words, hnext, hcarry, ← chacha20Input]

/-- A block is a slice of the keystream. -/
theorem chacha20Block_eq (ctr : ℕ) :
    chacha20Block (chacha20Input key nonce ctr) = slice (keystream key nonce) (64 * ctr) 64 := by
  refine List.ext_getElem ?_ fun i hi hi' => ?_
  · rw [length_chacha20Block, length_slice]
  · rw [length_chacha20Block] at hi
    have hdiv : (64 * ctr + i) / 64 = ctr := by omega
    have hmod : (64 * ctr + i) % 64 = i := by omega
    simp only [slice, List.getElem_map, List.getElem_range]
    rw [keystream, hdiv, hmod, List.getD_eq_getElem _ _ (by rwa [length_chacha20Block])]

/-- **The whole blocks.** -/
theorem chacha20Blocks_eq (n ctr : ℕ) :
    chacha20Blocks n (chacha20Input key nonce ctr)
      = (slice (keystream key nonce) (64 * ctr) (64 * n), chacha20Input key nonce (ctr + n)) := by
  induction n generalizing ctr with
  | zero => rfl
  | succ n ih =>
    rw [chacha20Blocks, countBlock_chacha20Input, ih, chacha20Block_eq]
    dsimp only
    rw [Nat.mul_succ 64 n, Nat.add_comm (64 * n), slice_append, Nat.mul_succ, Nat.add_right_comm,
      Nat.add_assoc ctr]

/-- **Every call writes a slice of the keystream.** -/
theorem writesStream_chacha20Djb : WritesStream (chacha20Djb key nonce) (keystream key nonce) := by
  intro ctr size
  have hshift : size >>> 6 = size / 64 := Nat.shiftRight_eq_div_pow size 6
  have hand : size &&& 63 = size % 64 := Nat.and_two_pow_sub_one_eq_mod size 6
  have hsize : size = 64 * (size / 64) + size % 64 := (Nat.div_add_mod size 64).symm
  have hlt : size % 64 < 64 := Nat.mod_lt _ (by decide)
  rw [chacha20Djb, hshift, hand, chacha20Blocks_eq]
  dsimp only
  split
  · rw [chacha20Block_eq, take_slice _ _ _ _ (Nat.le_of_lt hlt), Nat.mul_add, ← slice_append,
      ← hsize]
  · rename_i hzero
    have hmul : 64 * (size / 64) = size := by omega
    rw [hmul]

end Stream

end Passgen
