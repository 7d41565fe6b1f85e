import Mathlib.Data.List.GetD
import Mathlib.Tactic.Common
import Passgen.Random.Chacha
import Passgen.Random.Uniform
import Passgen.Random.Xorshift

/-!
# Random/Words — the 64-bit words of a source

    buffer   ▢▢▢▢▢▢▢▢│▢▢▢▢▢▢▢▢│ … │▢▢▢▢▢▢▢▢│▢▢▢▢▢▢▢▢
    word      0        1             126      127 is 0 again

A source is opened with a full buffer, and a word takes eight bytes of it.  The word that takes the
buffer to its end is copied from the start of it, so every 128th word is the one 127 words before,
and the last eight bytes of a buffer are never delivered.  `wordIndex` says which eight bytes of the
source a word is; on ChaCha20 these are bytes of one keystream, and on xorshift the states.
-/

namespace Passgen

/-- Which eight bytes of its stream a source delivers as its `i`th word. -/
def wordIndex (i : ℕ) : ℕ := if i % 128 = 127 then i - 127 else i

/-- What `passgen_random_*_open` returns: a source with its context, and a buffer that is filled
from it. -/
def randomOpenWith {σ : Type} (read : RandomReadFunc σ UInt8) (allocated : Random σ UInt8)
    (context : σ) : Random σ UInt8 :=
  randomReload read { allocated with context }

section Words

variable {σ : Type} {read : RandomReadFunc σ UInt8} {context : ℕ → σ} {K : ℕ → UInt8}

/-- From `context k` the source fills the `k`th buffer with the stream `K`. -/
def Serves (read : RandomReadFunc σ UInt8) (context : ℕ → σ) (K : ℕ → UInt8) : Prop :=
  ∀ k, read (context k) randomBufferLength
    = (slice K (randomBufferLength * k) randomBufferLength, context (k + 1))

/-- A reader that has delivered `i` bytes. -/
structure AtByte (context : ℕ → σ) (K : ℕ → UInt8) (i : ℕ) (r : Random σ UInt8) : Prop where
  buffer : r.buffer
    = slice K (randomBufferLength * (i / randomBufferLength)) randomBufferLength
  pos : r.pos = i % randomBufferLength
  context : r.context = context (i / randomBufferLength + 1)

theorem AtByte.congr {i j : ℕ} {r : Random σ UInt8} (h : AtByte context K i r) (hij : i = j) :
    AtByte context K j r := hij ▸ h

/-- A reload starts the next buffer. -/
theorem atByte_reload (hserves : Serves read context K) {r : Random σ UInt8} {k : ℕ}
    (hr : r.context = context k) :
    AtByte context K (randomBufferLength * k) (randomReload read r) := by
  have hdiv : randomBufferLength * k / randomBufferLength = k :=
    Nat.mul_div_cancel_left k (by decide)
  have hread := hserves k
  rw [← hr] at hread
  refine ⟨?_, ?_, ?_⟩
  · have hbuffer : (randomReload read r).buffer
        = overwrite r.buffer (read r.context randomBufferLength).1 := rfl
    have hlength : (slice K (randomBufferLength * k) randomBufferLength).length
        = r.buffer.length := by
      rw [length_slice, r.length_buffer]
    rw [hbuffer, hread, hdiv]
    dsimp only
    rw [overwrite_of_length_eq hlength]
  · rw [Nat.mul_mod_right, randomReload_pos]
  · rw [hdiv]
    exact congrArg Prod.snd hread

/-- A read that ends before the buffer does. -/
theorem AtByte.read_inside {i n : ℕ} {r : Random σ UInt8} (h : AtByte context K i r)
    (hn : i % randomBufferLength + n < randomBufferLength) :
    ∃ r', AtByte context K (i + n) r' ∧ randomRead read r n = some (slice K i n, r') := by
  have hpos := h.pos
  have hinside : n < randomBufferLength - r.pos := by omega
  have hstart : randomBufferLength * (i / randomBufferLength) + r.pos = i := by
    rw [hpos]
    exact Nat.div_add_mod i randomBufferLength
  have hdiv : (i + n) / randomBufferLength = i / randomBufferLength := by
    rw [randomBufferLength] at hn ⊢
    omega
  refine ⟨{ r with pos := r.pos + n }, ⟨?_, ?_, ?_⟩, ?_⟩
  · rw [hdiv]
    exact h.buffer
  · dsimp only
    rw [hpos, Nat.add_mod, Nat.mod_eq_of_lt (a := n) (by omega), Nat.mod_eq_of_lt hn]
  · rw [hdiv]
    exact h.context
  · have hdata : (r.buffer.drop r.pos).take n = slice K i n := by
      rw [h.buffer, drop_slice _ _ _ _ (by omega), take_slice _ _ _ _ hinside.le, hstart]
    rw [randomRead_of_lt read hinside, hdata]

/-- A read that takes the buffer to its end starts over in it. -/
theorem AtByte.read_end (hserves : Serves read context K) {i n : ℕ} {r : Random σ UInt8}
    (h : AtByte context K i r) (hn : i % randomBufferLength + n = randomBufferLength) :
    ∃ r', AtByte context K (i + n) r' ∧ randomRead read r n
      = some (slice K (randomBufferLength * (i / randomBufferLength)) n, r') := by
  have hpos := h.pos
  have hleft : n = randomBufferLength - r.pos := by omega
  refine ⟨_, (atByte_reload hserves h.context).congr ?_, ?_⟩
  · rw [randomBufferLength] at hn ⊢
    omega
  · rw [randomRead_of_eq read hleft, h.buffer, take_slice _ _ _ _ (by omega)]

/-- **A read moves a reader on** by its size, wherever the buffer ends. -/
theorem AtByte.step (hserves : Serves read context K) {i n : ℕ} {r : Random σ UInt8}
    (h : AtByte context K i r) (hn : n ≤ randomBufferLength) :
    ∃ data r', AtByte context K (i + n) r' ∧ randomRead read r n = some (data, r') := by
  rcases lt_trichotomy (i % randomBufferLength + n) randomBufferLength with hlt | heq | hgt
  · obtain ⟨r', hr', hread⟩ := h.read_inside hlt
    exact ⟨_, r', hr', hread⟩
  · obtain ⟨r', hr', hread⟩ := h.read_end hserves heq
    exact ⟨_, r', hr', hread⟩
  · -- what is left is read from the start of the next buffer
    have hpos := h.pos
    have hreload := atByte_reload hserves h.context
    have hzero : randomBufferLength * (i / randomBufferLength + 1) % randomBufferLength = 0 :=
      Nat.mul_mod_right _ _
    have hmod : i % randomBufferLength < randomBufferLength := Nat.mod_lt _ (by decide)
    obtain ⟨r', hr', hread⟩ := hreload.read_inside
      (n := n - (randomBufferLength - r.pos)) (by omega)
    have hend : randomBufferLength * (i / randomBufferLength + 1)
        + (n - (randomBufferLength - r.pos)) = i + n := by
      rw [hpos]
      rw [randomBufferLength] at hn hgt hmod ⊢
      omega
    have hwhole := randomRead_of_gt read (r := r) (by omega) hn
    rw [hread, Option.map_some] at hwhole
    exact ⟨_, r', hr'.congr hend, hwhole⟩

/-- **The next word** at a word of the source, and the reader behind it. -/
theorem AtByte.next (hserves : Serves read context K) {i : ℕ} {r : Random σ UInt8}
    (h : AtByte context K (8 * i) r) : ∃ r', AtByte context K (8 * (i + 1)) r' ∧
      randomU64 read r = some (littleEndian (slice K (8 * wordIndex i) 8), r') := by
  have hmod : 8 * i % randomBufferLength = 8 * (i % 128) := by
    rw [randomBufferLength]
    omega
  rw [randomU64, wordIndex]
  by_cases hlast : i % 128 = 127
  · have hstart : randomBufferLength * (8 * i / randomBufferLength) = 8 * (i - 127) := by
      rw [randomBufferLength]
      omega
    obtain ⟨r', hr', hread⟩ := h.read_end hserves (n := 8)
      (by rw [hmod, hlast, randomBufferLength])
    exact ⟨r', hr', by rw [hread, if_pos hlast, hstart, Option.map_some]⟩
  · obtain ⟨r', hr', hread⟩ := h.read_inside (n := 8)
      (by rw [hmod, randomBufferLength]; omega)
    exact ⟨r', hr', by rw [hread, if_neg hlast, Option.map_some]⟩

/-- The words of a run, from wherever it starts. -/
theorem AtByte.words (hserves : Serves read context K) {i : ℕ} {r : Random σ UInt8}
    (h : AtByte context K (8 * i) r) (n : ℕ) : ∃ r', rawWords (randomU64 read) n r
      = some ((List.range n).map fun j => littleEndian (slice K (8 * wordIndex (i + j)) 8), r') := by
  induction n generalizing i r with
  | zero => exact ⟨r, rfl⟩
  | succ n ih =>
    obtain ⟨mid, hmid, hword⟩ := h.next hserves
    obtain ⟨r', hrest⟩ := ih hmid
    refine ⟨r', ?_⟩
    rw [rawWords, hword, Option.bind_some]
    dsimp only
    rw [hrest, Option.map_some, List.range_succ_eq_map, List.map_cons, List.map_map]
    refine congrArg (fun words => some (_ :: words, r')) (List.map_congr_left fun j _ => ?_)
    rw [Function.comp_apply, Nat.add_right_comm, Nat.add_assoc]

/-- A freshly opened source is at the start of its stream. -/
theorem atByte_randomOpenWith (hserves : Serves read context K) (allocated : Random σ UInt8) :
    AtByte context K 0 (randomOpenWith read allocated (context 0)) :=
  (atByte_reload hserves (k := 0) rfl).congr rfl

/-- **The words of a source that is opened.** -/
theorem words_of_open (hserves : Serves read context K) (allocated : Random σ UInt8) (n : ℕ) :
    ∃ r', rawWords (randomU64 read) n (randomOpenWith read allocated (context 0))
      = some ((List.range n).map fun i => littleEndian (slice K (8 * wordIndex i) 8), r') := by
  have hopen : AtByte context K (8 * 0) (randomOpenWith read allocated (context 0)) :=
    atByte_randomOpenWith hserves allocated
  obtain ⟨r', hwords⟩ := hopen.words hserves n
  refine ⟨r', hwords.trans ?_⟩
  simp only [Nat.zero_add]

end Words

/-! ## Any source -/

section Full

variable {σ : Type} (read : RandomReadFunc σ UInt8) (start : σ)

/-- The context from which a source fills its `k`th buffer. -/
def contextAt (k : ℕ) : σ := (fun context => (read context randomBufferLength).2)^[k] start

/-- The bytes a source fills its buffers with. -/
def bytesOf (i : ℕ) : UInt8 :=
  (read (contextAt read start (i / randomBufferLength)) randomBufferLength).1.getD
    (i % randomBufferLength) 0

/-- A source that fills its buffer serves its bytes. -/
theorem serves_bytesOf
    (hfull : ∀ context, (read context randomBufferLength).1.length = randomBufferLength) :
    Serves read (contextAt read start) (bytesOf read start) := by
  intro k
  have hpos : 0 < randomBufferLength := Nat.succ_pos _
  refine Prod.ext (List.ext_getElem ?_ fun i hi _ => ?_) ?_
  · rw [hfull, length_slice]
  · have hlt : i < randomBufferLength := hfull (contextAt read start k) ▸ hi
    have hdiv : (randomBufferLength * k + i) / randomBufferLength = k := by
      rw [Nat.mul_add_div hpos, Nat.div_eq_of_lt hlt, Nat.add_zero]
    have hmod : (randomBufferLength * k + i) % randomBufferLength = i := by
      rw [Nat.mul_add_mod, Nat.mod_eq_of_lt hlt]
    simp only [slice, List.getElem_map, List.getElem_range]
    rw [bytesOf, hdiv, hmod, List.getD_eq_getElem _ _ hi]
  · rw [contextAt, contextAt, Function.iterate_succ_apply']

variable {read start}

/-- **Every 128th word of a source is one it has delivered before.**  On a source that fills its
buffer, the `i`th word is made of the eight bytes `wordIndex i` of the source; so each word at the
end of a buffer is the first word of that buffer again. -/
theorem words_repeat
    (hfull : ∀ context, (read context randomBufferLength).1.length = randomBufferLength)
    (allocated : Random σ UInt8) (n : ℕ) :
    ∃ words r', rawWords (randomU64 read) n (randomOpenWith read allocated start)
        = some (words, r') ∧
      words = (List.range n).map (fun i =>
        littleEndian (slice (bytesOf read start) (8 * wordIndex i) 8)) ∧
      ∀ k, 128 * k + 127 < n → words[128 * k + 127]? = words[128 * k]? := by
  obtain ⟨r', hwords⟩ := words_of_open (serves_bytesOf read start hfull) allocated n
  refine ⟨_, r', hwords, rfl, fun k hk => ?_⟩
  have hlast : wordIndex (128 * k + 127) = 128 * k := by
    rw [wordIndex, if_pos (by omega), Nat.add_sub_cancel]
  have hfirst : wordIndex (128 * k) = 128 * k := by
    rw [wordIndex, if_neg (by omega)]
  rw [List.getElem?_map, List.getElem?_map, List.getElem?_range hk,
    List.getElem?_range (by omega), Option.map_some, Option.map_some, hlast, hfirst]

end Full

/-- Two buffers of the source of the examples. -/
theorem words_repeat_xorshift :
    ∃ words r', rawWords (randomU64 xorshiftRead) 256 (randomOpenWith xorshiftRead
        ⟨List.replicate randomBufferLength 0, List.length_replicate, 0, 0⟩ 123)
        = some (words, r') ∧
      words = (List.range 256).map (fun i =>
        littleEndian (slice (bytesOf xorshiftRead 123) (8 * wordIndex i) 8)) ∧
      ∀ k, 128 * k + 127 < 256 → words[128 * k + 127]? = words[128 * k]? :=
  words_repeat (fun context => (xorshiftRead_spec context randomBufferLength).1) _ 256

/-! ## Xorshift and ChaCha20 -/

/-- The words of a number's bytes. -/
theorem littleEndian_wordBytes (word : BitVec 64) :
    littleEndian (wordBytes word) = word.toNat := by
  have hlt := word.isLt
  have hbytes : wordBytes word = [.ofNat (word.toNat >>> 0), .ofNat (word.toNat >>> 8),
    .ofNat (word.toNat >>> 16), .ofNat (word.toNat >>> 24), .ofNat (word.toNat >>> 32),
    .ofNat (word.toNat >>> 40), .ofNat (word.toNat >>> 48), .ofNat (word.toNat >>> 56)] := rfl
  rw [hbytes]
  simp only [littleEndian, UInt8.toNat_ofNat', Nat.shiftRight_eq_div_pow]
  omega

/-- The bytes of the states of a seed. -/
def xorshiftByte (seed : BitVec 64) (i : ℕ) : UInt8 :=
  (wordBytes (xorshift64^[i / 8 + 1] seed)).getD (i % 8) 0

/-- The bytes of one state. -/
theorem slice_xorshiftByte (seed : BitVec 64) (i : ℕ) :
    slice (xorshiftByte seed) (8 * i) 8 = wordBytes (xorshift64^[i + 1] seed) := by
  refine List.ext_getElem (length_slice _ _ _) fun j hj hj' => ?_
  have hlt : j < 8 := hj'
  have hdiv : (8 * i + j) / 8 = i := by omega
  have hmod : (8 * i + j) % 8 = j := by omega
  simp only [slice, List.getElem_map, List.getElem_range]
  rw [xorshiftByte, hdiv, hmod, List.getD_eq_getElem _ _ hj']

/-- A read of whole words. -/
theorem xorshiftRead_words (seed : BitVec 64) (i n : ℕ) :
    xorshiftRead (xorshift64^[i] seed) (8 * n)
      = (slice (xorshiftByte seed) (8 * i) (8 * n), xorshift64^[i + n] seed) := by
  induction n generalizing i with
  | zero =>
    rw [Nat.mul_zero, xorshiftRead]
    rfl
  | succ n ih =>
    have hstep : xorshift64 (xorshift64^[i] seed) = xorshift64^[i + 1] seed :=
      (Function.iterate_succ_apply' xorshift64 i seed).symm
    have hrest : slice (xorshiftByte seed) (8 * i) (8 + 8 * n)
        = wordBytes (xorshift64^[i + 1] seed) ++ slice (xorshiftByte seed) (8 * (i + 1)) (8 * n) := by
      rw [slice_append, slice_xorshiftByte, Nat.mul_succ]
    rw [xorshiftRead, if_pos (by omega), Nat.mul_succ 8 n, Nat.add_sub_cancel, hstep]
    dsimp only
    rw [ih, Nat.add_comm (8 * n), hrest, Nat.add_right_comm, Nat.add_assoc i]

theorem serves_xorshift (seed : BitVec 64) :
    Serves xorshiftRead (fun k => xorshift64^[128 * k] seed) (xorshiftByte seed) := by
  intro k
  have hread := xorshiftRead_words seed (128 * k) 128
  rwa [← Nat.mul_assoc, ← Nat.mul_succ] at hread

/-- ChaCha20 serves its keystream, which starts over with the offset. -/
theorem serves_chacha20 (key : Vector UInt8 32) (iv : Vector UInt8 8) :
    Serves (chachaRead chacha20Djb) (fun k => ⟨key, iv, sizeT (randomBufferLength * k)⟩)
      fun i => keystream key iv (sizeT i) := by
  intro k
  have hroom : sizeT (randomBufferLength * k) + randomBufferLength ≤ 2 ^ 64 := by
    simp only [sizeT, randomBufferLength]
    omega
  have hbyte : ∀ i < randomBufferLength, sizeT (randomBufferLength * k) + i
      = sizeT (randomBufferLength * k + i) := by
    simp only [sizeT, randomBufferLength]
    omega
  have hslice : slice (keystream key iv) (sizeT (randomBufferLength * k)) randomBufferLength
      = slice (fun i => keystream key iv (sizeT i)) (randomBufferLength * k)
          randomBufferLength := by
    rw [slice, slice]
    exact List.map_congr_left fun i hi =>
      congrArg (keystream key iv) (hbyte i (List.mem_range.mp hi))
  refine Prod.ext ?_ ?_
  · rw [chachaRead_eq (writesStream_chacha20Djb key iv) hroom (by decide), hslice]
  · rw [chachaRead_context _ (by decide)]
    dsimp only
    rw [sizeT_add_sizeT, Nat.mul_succ]

/-- **The words of a deterministic source.**  Opened with a seed, xorshift delivers its states as
the words of a run; opened with a key, as master passphrases are, ChaCha20 delivers the words of one
keystream.  Both deliver the 128th word of a buffer as its first word. -/
theorem deterministic_words (seed : BitVec 64) (key : Vector UInt8 32) (iv : Vector UInt8 8)
    (allocated : Random (BitVec 64) UInt8) (allocated' : Random ChachaContext UInt8) (n : ℕ) :
    (∃ r', rawWords (randomU64 xorshiftRead) n (randomOpenWith xorshiftRead allocated seed)
      = some ((List.range n).map fun i => (xorshift64^[wordIndex i + 1] seed).toNat, r')) ∧
    ∃ r', rawWords (randomU64 (chachaRead chacha20Djb)) n
        (randomOpenWith (chachaRead chacha20Djb) allocated' ⟨key, iv, 0⟩)
      = some ((List.range n).map fun i => littleEndian
          ((List.range 8).map fun j => keystream key iv (sizeT (8 * wordIndex i + j))), r') := by
  constructor
  · obtain ⟨r', hwords⟩ := words_of_open (serves_xorshift seed) allocated n
    refine ⟨r', hwords.trans ?_⟩
    simp only [slice_xorshiftByte, littleEndian_wordBytes]
  · exact words_of_open (serves_chacha20 key iv) allocated' n

end Passgen
