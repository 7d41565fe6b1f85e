import Mathlib.Data.List.GetD
import Mathlib.Tactic.Common
import Passgen.Random.Period
import Passgen.Random.Words

/-!
# Random/Exits — no rejection loop goes on forever on xorshift

    raw words    ✗ ✗ ✗ … ✗ ✓        ✓ where one bit of the word is clear

A raw word is accepted as soon as the highest bit of the mask is clear in it, and each bit of a raw
word is a bit of a state.  A buffer is 128 states, which has no divisor in common with the period:
so the states at one place of the buffer go through all there are, and one of them has the bit
clear.  This holds at every byte of the stream, so coin flips in between do no harm.
-/

namespace Passgen

/-! ## Words at any byte -/

section Words

variable {σ : Type} {read : RandomReadFunc σ UInt8} {context : ℕ → σ} {K : ℕ → UInt8}

/-- A word moves a reader on by eight bytes. -/
theorem AtByte.u64 (hserves : Serves read context K) {i : ℕ} {r : Random σ UInt8}
    (h : AtByte context K i r) : ∃ word r', randomU64 read r = some (word, r') ∧
      AtByte context K (i + 8) r' ∧ (i % randomBufferLength + 8 < randomBufferLength →
        word = littleEndian (slice K i 8)) := by
  by_cases hinside : i % randomBufferLength + 8 < randomBufferLength
  · obtain ⟨r', hr', hread⟩ := h.read_inside hinside
    exact ⟨_, r', by rw [randomU64, hread, Option.map_some], hr', fun _ => rfl⟩
  · obtain ⟨data, r', hr', hread⟩ := h.step hserves (n := 8) (by decide)
    exact ⟨_, r', by rw [randomU64, hread, Option.map_some], hr', fun hlt => absurd hlt hinside⟩

/-- The raw words from any byte on: those inside of a buffer are eight bytes of the stream. -/
theorem AtByte.rawWords (hserves : Serves read context K) {i : ℕ} {r : Random σ UInt8}
    (h : AtByte context K i r) (n : ℕ) :
    ∃ words r', Passgen.rawWords (randomU64 read) n r = some (words, r') ∧
      ∀ j < n, (i + 8 * j) % randomBufferLength + 8 < randomBufferLength →
        littleEndian (slice K (i + 8 * j) 8) ∈ words := by
  induction n generalizing i r with
  | zero => exact ⟨[], r, rfl, fun j hj => absurd hj (Nat.not_lt_zero j)⟩
  | succ n ih =>
    obtain ⟨word, mid, hword, hmid, hslice⟩ := h.u64 hserves
    obtain ⟨words, r', hwords, hmem⟩ := ih hmid
    refine ⟨word :: words, r', ?_, fun j hj hinside => ?_⟩
    · rw [Passgen.rawWords, hword, Option.bind_some]
      dsimp only
      rw [hwords, Option.map_some]
    · rcases j with _ | j
      · exact hslice hinside ▸ List.mem_cons_self
      · have hnext : i + 8 * (j + 1) = i + 8 + 8 * j := by omega
        rw [hnext] at hinside ⊢
        exact List.mem_cons_of_mem _ (hmem j (Nat.lt_of_succ_lt_succ hj) hinside)

/-- A coin flip moves a reader on by a byte. -/
theorem AtByte.bool (hserves : Serves read context K) {i : ℕ} {r : Random σ UInt8}
    (h : AtByte context K i r) : AtByte context K (i + 1) (randomBool read r).2 := by
  obtain ⟨data, r', hr', hread⟩ := h.step hserves (n := 1) (by decide)
  rw [randomBool, hread]
  rcases data with _ | ⟨byte, rest⟩ <;> exact hr'

/-- A draw moves a reader on by the words it takes. -/
theorem AtByte.u64Max (hserves : Serves read context K) {tries i max v : ℕ}
    {r r' : Random σ UInt8} (h : AtByte context K i r)
    (hdraw : randomU64Max read tries r max = some (v, r')) : ∃ j, AtByte context K j r' := by
  induction tries generalizing i r with
  | zero => exact absurd hdraw (by simp [randomU64Max])
  | succ tries ih =>
    obtain ⟨word, mid, hword, hmid, -⟩ := h.u64 hserves
    rw [randomU64Max, hword, Option.bind_some] at hdraw
    dsimp only at hdraw
    split at hdraw
    · exact ih hmid hdraw
    · obtain ⟨-, rfl⟩ := Prod.mk.inj (Option.some.inj hdraw)
      exact ⟨_, hmid⟩

end Words

/-! ## What is accepted -/

/-- A bit of a number is a bit of one of its bytes. -/
theorem testBit_littleEndian (bytes : List UInt8) (b : ℕ) :
    (littleEndian bytes).testBit b = (bytes.getD (b / 8) 0).toNat.testBit (b % 8) := by
  induction bytes generalizing b with
  | nil => simp [littleEndian]
  | cons byte bytes ih =>
    have hsum : byte.toNat + 256 * littleEndian bytes
        = 2 ^ 8 * littleEndian bytes + byte.toNat := Nat.add_comm _ _
    rw [littleEndian, hsum, Nat.testBit_two_pow_mul_add _ byte.toNat_lt]
    split
    · rename_i hlt
      rw [Nat.div_eq_of_lt hlt, Nat.mod_eq_of_lt hlt, List.getD_cons_zero]
    · rename_i hge
      have hdiv : b / 8 = (b - 8) / 8 + 1 := by omega
      have hmod : b % 8 = (b - 8) % 8 := by omega
      rw [ih, hdiv, hmod, List.getD_cons_succ]

/-- **A raw word is accepted** if the highest bit of its mask is clear in it. -/
theorem accept_of_testBit {raw max : ℕ} (hmax : 0 < max) (hraw : raw < 2 ^ 64)
    (hbit : max < 2 ^ 64 → raw.testBit (max.size - 1) = false) :
    raw &&& u64Mask max < max := by
  by_cases hlt : max < 2 ^ 64
  · have hmask : u64Mask max = 2 ^ max.size - 1 := WordWidth.u64.mask_eq hlt
    have hsize : 0 < max.size := Nat.size_pos.mpr hmax
    have hclear : (raw % 2 ^ max.size).testBit (max.size - 1) = false := by
      rw [Nat.testBit_mod_two_pow, hbit hlt, Bool.and_false]
    have hhalf : 2 ^ (max.size - 1) ≤ max :=
      Nat.ge_two_pow_of_testBit (Masked.testBit_size_sub_one hmax)
    have hpow : 2 ^ max.size = 2 * 2 ^ (max.size - 1) := by
      rw [← Nat.pow_succ', Nat.succ_eq_add_one, Nat.sub_add_cancel hsize]
    rw [hmask, Nat.and_two_pow_sub_one_eq_mod]
    refine lt_of_lt_of_le ?_ hhalf
    by_contra hge
    have hmod : raw % 2 ^ max.size < 2 * 2 ^ (max.size - 1) := hpow ▸ Nat.mod_lt _ (by positivity)
    -- a number between a power of two and the next one has that bit
    have hset : (raw % 2 ^ max.size).testBit (max.size - 1) = true := by
      rw [Nat.testBit_eq_decide_div_mod_eq, decide_eq_true_iff,
        Nat.div_eq_of_lt_le (k := 1) (by omega) (by omega)]
    rw [hclear] at hset
    exact Bool.false_ne_true hset
  · exact lt_of_le_of_lt Nat.and_le_left (hraw.trans_le (not_lt.mp hlt))

/-! ## Xorshift -/

/-- A bit of a raw word of xorshift is a bit of a state. -/
theorem testBit_slice_xorshiftByte (seed : BitVec 64) {i b : ℕ} (hb : b < 64) :
    (littleEndian (slice (xorshiftByte seed) i 8)).testBit b
      = (xorshift64^[(i + b / 8) / 8 + 1] seed).getLsbD (8 * ((i + b / 8) % 8) + b % 8) := by
  have hbyte : b / 8 < (slice (xorshiftByte seed) i 8).length := by
    rw [length_slice]
    omega
  have hmod : (i + b / 8) % 8 < 8 := Nat.mod_lt _ (by decide)
  rw [testBit_littleEndian, List.getD_eq_getElem _ _ hbyte]
  simp only [slice, List.getElem_map, List.getElem_range]
  rw [xorshiftByte, wordBytes, List.getD_eq_getElem _ _ (by simpa using hmod)]
  simp only [List.getElem_map, List.getElem_range, UInt8.toNat_ofNat']
  rw [Nat.testBit_mod_two_pow, Nat.testBit_shiftRight, BitVec.getLsbD,
    decide_eq_true (Nat.mod_lt b (by decide)), Bool.true_and]

/-- **Every state is at every place of some buffer.** -/
theorem exists_buffer_eq {seed state : BitVec 64} (hseed : seed ≠ 0) (hstate : state ≠ 0) (n : ℕ) :
    ∃ k < 2 ^ 64, xorshift64^[128 * k + n] seed = state := by
  have hne := iterate_xorshift64_ne_zero hseed n
  have hperiod := minimalPeriod_xorshift64 hne
  obtain ⟨m, -, hm⟩ :=
    Bits.exists_iterate_eq (iterate_xorshift64_ne_zero hne) hperiod hstate
  have hcoprime : Nat.Coprime 128 (Function.minimalPeriod xorshift64 (xorshift64^[n] seed)) := by
    rw [hperiod]
    decide
  obtain ⟨k, hk, hiterate⟩ := Bits.exists_iterate_mul hcoprime (by rw [hperiod]; decide) m
  refine ⟨k, by omega, ?_⟩
  rw [Function.iterate_add_apply, hiterate, hm]

/-- No bit is set in all states. -/
theorem exists_getLsbD_eq_false (c : ℕ) :
    ∃ state : BitVec 64, state ≠ 0 ∧ state.getLsbD c = false := by
  rcases Nat.eq_zero_or_pos c with rfl | hpos
  · exact ⟨2, by decide, rfl⟩
  · refine ⟨1#64, by decide, ?_⟩
    rw [BitVec.getLsbD_one, decide_eq_false hpos.ne', Bool.and_false]

/-- The raw words among which xorshift has one to accept. -/
def xorshiftTries : ℕ := 2 ^ 72

/-- **A draw from xorshift is made**, wherever its stream is, as soon as there is something to
draw. -/
theorem exits_xorshift {seed : BitVec 64} (hseed : seed ≠ 0) {i max : ℕ} (hmax : 0 < max)
    {r : Random (BitVec 64) UInt8}
    (h : AtByte (fun k => xorshift64^[128 * k] seed) (xorshiftByte seed) i r) :
    (randomU64Max xorshiftRead xorshiftTries r max).isSome := by
  let b := (max.size - 1) % 64
  let n := 128 * (i / 1024 + 1) + (i % 8 + b / 8) / 8 + 1
  -- a state in which the bit is clear, and the buffer that has it in place
  obtain ⟨state, hstate, hclear⟩ :
      ∃ state : BitVec 64, state ≠ 0 ∧ state.getLsbD (8 * ((i % 8 + b / 8) % 8) + b % 8) = false :=
    exists_getLsbD_eq_false _
  obtain ⟨k, hk, hbuffer⟩ := exists_buffer_eq hseed hstate n
  let j := 128 * (k + (i / 1024 + 1)) - i / 8
  have hplace : i + 8 * j = 1024 * (k + (i / 1024 + 1)) + i % 8 := by omega
  obtain ⟨words, r', hwords, hmem⟩ := h.rawWords (serves_xorshift seed) xorshiftTries
  have hword := hmem j (by rw [xorshiftTries]; omega) (by rw [hplace, randomBufferLength]; omega)
  have hraw := littleEndian_lt (slice (xorshiftByte seed) (i + 8 * j) 8)
  rw [length_slice] at hraw
  have hbit : max < 2 ^ 64 → (littleEndian (slice (xorshiftByte seed) (i + 8 * j) 8)).testBit
      (max.size - 1) = false := by
    intro hlt
    have hb : max.size - 1 = b := by
      have := Nat.size_le.mpr hlt
      omega
    have hindex : (i + 8 * j + b / 8) / 8 + 1 = 128 * k + n := by omega
    have hoffset : (i + 8 * j + b / 8) % 8 = (i % 8 + b / 8) % 8 := by omega
    rw [hb, testBit_slice_xorshiftByte seed (by omega), hindex, hoffset, hbuffer, hclear]
  have haccept := accept_of_testBit hmax hraw hbit
  rw [← Option.isSome_map (f := Prod.fst), randomU64Max_eq, randomMax_eq_findSome? _ hwords,
    List.findSome?_isSome_iff]
  exact ⟨_, hword, by rw [if_pos haccept, Option.isSome_some]⟩

end Passgen
