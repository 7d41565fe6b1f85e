import Passgen.Masked.Smear
import Passgen.Random.Source

/-!
# Random/Uniform — every bounded draw is exactly uniform

    passgen_random_u{8,16,32,64} ─▸ raw word ─ & mask ─ < max ─▸ the draw
                                        ▴                 │ no
                                        └─────────────────┘

The four bounded draws differ in their word and in the cascade that builds their mask.  Each
cascade halves its shift down to one, so `Masked.Smeared` gives all four masks at once.
-/

namespace Passgen

open Masked Finset

/-! ## The four widths -/

/-- The mask of `passgen_random_u8_max`. -/
def u8Mask (max : ℕ) : ℕ :=
  let mask := max ||| max >>> 4
  let mask := mask ||| mask >>> 2
  mask ||| mask >>> 1

/-- The mask of `passgen_random_u16_max`. -/
def u16Mask (max : ℕ) : ℕ :=
  let mask := max ||| max >>> 8
  let mask := mask ||| mask >>> 4
  let mask := mask ||| mask >>> 2
  mask ||| mask >>> 1

/-- The mask of `passgen_random_u32_max`. -/
def u32Mask (max : ℕ) : ℕ :=
  let mask := max ||| max >>> 16
  let mask := mask ||| mask >>> 8
  let mask := mask ||| mask >>> 4
  let mask := mask ||| mask >>> 2
  mask ||| mask >>> 1

section Reader

variable {σ : Type} (read : RandomReadFunc σ UInt8)

/-- A raw word of the given number of bytes; `htole16` and its kin make it little-endian on every
machine. -/
def randomWord (bytes : ℕ) (r : Random σ UInt8) : Option (ℕ × Random σ UInt8) :=
  (randomRead read r bytes).map fun (data, r) => (littleEndian data, r)

/-- `passgen_random_u8`. -/
def randomU8 : Random σ UInt8 → Option (ℕ × Random σ UInt8) := randomWord read 1

/-- `passgen_random_u16`. -/
def randomU16 : Random σ UInt8 → Option (ℕ × Random σ UInt8) := randomWord read 2

/-- `passgen_random_u32`. -/
def randomU32 : Random σ UInt8 → Option (ℕ × Random σ UInt8) := randomWord read 4

end Reader

section Loop

variable {ρ : Type} (word : ρ → Option (ℕ × ρ))

/-- `do num = word & mask; while (num >= max)`; `none` when no raw word is accepted within
`tries`. -/
def randomMax (mask : ℕ) : ℕ → ρ → ℕ → Option (ℕ × ρ)
  | 0, _, _ => none
  | tries + 1, r, max =>
    (word r).bind fun (word, r) =>
      let num := word &&& mask
      if num ≥ max then randomMax mask tries r max else some (num, r)

/-- The next `n` raw words. -/
def rawWords : ℕ → ρ → Option (List ℕ × ρ)
  | 0, r => some ([], r)
  | n + 1, r =>
    (word r).bind fun (word, r) => (rawWords n r).map fun (words, r) => (word :: words, r)

end Loop

section Reader

variable {σ : Type} (read : RandomReadFunc σ UInt8)

/-- `passgen_random_u8_max`. -/
def randomU8Max (tries : ℕ) (r : Random σ UInt8) (max : ℕ) : Option (ℕ × Random σ UInt8) :=
  randomMax (randomU8 read) (u8Mask max) tries r max

/-- `passgen_random_u16_max`. -/
def randomU16Max (tries : ℕ) (r : Random σ UInt8) (max : ℕ) : Option (ℕ × Random σ UInt8) :=
  randomMax (randomU16 read) (u16Mask max) tries r max

/-- `passgen_random_u32_max`. -/
def randomU32Max (tries : ℕ) (r : Random σ UInt8) (max : ℕ) : Option (ℕ × Random σ UInt8) :=
  randomMax (randomU32 read) (u32Mask max) tries r max

/-- `passgen_random_u64_max` is the same loop over its own word and mask. -/
theorem randomU64Max_eq (tries : ℕ) (r : Random σ UInt8) (max : ℕ) :
    randomU64Max read tries r max = randomMax (randomU64 read) (u64Mask max) tries r max := by
  induction tries generalizing r with
  | zero => rfl
  | succ tries ih => simp only [randomU64Max, randomMax, ih]

end Reader

/-- The widths of the bounded draws. -/
inductive WordWidth where
  | u8
  | u16
  | u32
  | u64
  deriving DecidableEq, Repr

namespace WordWidth

/-- The bytes of a raw word. -/
def bytes : WordWidth → ℕ
  | u8 => 1
  | u16 => 2
  | u32 => 4
  | u64 => 8

/-- The bits of a raw word. -/
def bits (w : WordWidth) : ℕ := 8 * w.bytes

/-- The mask built from a bound. -/
def mask : WordWidth → ℕ → ℕ
  | u8 => u8Mask
  | u16 => u16Mask
  | u32 => u32Mask
  | u64 => u64Mask

section Reader

variable {σ : Type} (read : RandomReadFunc σ UInt8)

/-- `passgen_random_u{8,16,32,64}`. -/
def draw : WordWidth → Random σ UInt8 → Option (ℕ × Random σ UInt8)
  | u8 => randomU8 read
  | u16 => randomU16 read
  | u32 => randomU32 read
  | u64 => randomU64 read

/-- `passgen_random_u{8,16,32,64}_max`. -/
def drawMax : WordWidth → ℕ → Random σ UInt8 → ℕ → Option (ℕ × Random σ UInt8)
  | u8 => randomU8Max read
  | u16 => randomU16Max read
  | u32 => randomU32Max read
  | u64 => randomU64Max read

theorem drawMax_eq (w : WordWidth) (tries : ℕ) (r : Random σ UInt8) (max : ℕ) :
    w.drawMax read tries r max = randomMax (w.draw read) (w.mask max) tries r max := by
  cases w with
  | u8 => rfl
  | u16 => rfl
  | u32 => rfl
  | u64 => exact randomU64Max_eq read tries r max

theorem draw_eq (w : WordWidth) : w.draw read = randomWord read w.bytes := by
  cases w <;> rfl

end Reader

/-! ## The masks -/

/-- **Each cascade smears a bound over its whole width.** -/
theorem smeared_mask (w : WordWidth) (max : ℕ) : Smeared 1 w.bits max (w.mask max) := by
  cases w with
  | u8 =>
    have h₄ := (Smeared.refl (2 * 4) max).halve
    have h₂ := Smeared.halve (s := 2) h₄
    exact Smeared.halve (s := 1) h₂
  | u16 =>
    have h₈ := (Smeared.refl (2 * 8) max).halve
    have h₄ := Smeared.halve (s := 4) h₈
    have h₂ := Smeared.halve (s := 2) h₄
    exact Smeared.halve (s := 1) h₂
  | u32 =>
    have h₁₆ := (Smeared.refl (2 * 16) max).halve
    have h₈ := Smeared.halve (s := 8) h₁₆
    have h₄ := Smeared.halve (s := 4) h₈
    have h₂ := Smeared.halve (s := 2) h₄
    exact Smeared.halve (s := 1) h₂
  | u64 =>
    have h₃₂ := (Smeared.refl (2 * 32) max).halve
    have h₁₆ := Smeared.halve (s := 16) h₃₂
    have h₈ := Smeared.halve (s := 8) h₁₆
    have h₄ := Smeared.halve (s := 4) h₈
    have h₂ := Smeared.halve (s := 2) h₄
    exact Smeared.halve (s := 1) h₂

theorem mask_eq (w : WordWidth) {max : ℕ} (hmax : max < 2 ^ w.bits) :
    w.mask max = 2 ^ max.size - 1 :=
  (w.smeared_mask max).eq_two_pow_sub_one hmax

end WordWidth

/-! ## Raw words -/

theorem littleEndian_lt (bytes : List UInt8) : littleEndian bytes < 2 ^ (8 * bytes.length) := by
  induction bytes with
  | nil => simp [littleEndian]
  | cons byte bytes ih =>
    have := byte.toNat_lt
    rw [littleEndian, List.length_cons, Nat.mul_succ, pow_add]
    omega

/-- **Every number of `n` bytes is one string of `n` bytes.** -/
theorem existsUnique_littleEndian (n : ℕ) {v : ℕ} (hv : v < 2 ^ (8 * n)) :
    ∃! bytes : List UInt8, bytes.length = n ∧ littleEndian bytes = v := by
  induction n generalizing v with
  | zero =>
    refine ⟨[], ⟨rfl, ?_⟩, fun bytes h => List.length_eq_zero_iff.mp h.1⟩
    simp only [Nat.mul_zero, pow_zero, Nat.lt_one_iff] at hv
    exact hv.symm
  | succ n ih =>
    rw [Nat.mul_succ, pow_add] at hv
    obtain ⟨bytes, ⟨hlen, hval⟩, huniq⟩ := ih (v := v / 256) (by omega)
    refine ⟨UInt8.ofNat v :: bytes, ⟨by simp [hlen], ?_⟩, ?_⟩
    · rw [littleEndian, hval, UInt8.toNat_ofNat']
      omega
    · rintro (_ | ⟨byte, rest⟩) ⟨hlen', hval'⟩
      · simp at hlen'
      · have hbyte := byte.toNat_lt
        rw [littleEndian] at hval'
        obtain rfl : rest = bytes := huniq rest ⟨by simpa using hlen', by omega⟩
        congr 1
        apply UInt8.toNat_inj.mp
        rw [UInt8.toNat_ofNat']
        omega

section Reader

variable {σ : Type} (read : RandomReadFunc σ UInt8)

theorem WordWidth.draw_lt (w : WordWidth) {r r' : Random σ UInt8} {raw : ℕ}
    (h : w.draw read r = some (raw, r')) : raw < 2 ^ w.bits := by
  rw [draw_eq, randomWord, Option.map_eq_some_iff] at h
  obtain ⟨⟨data, mid⟩, hread, hpair⟩ := h
  obtain ⟨rfl, -⟩ := Prod.mk.inj hpair
  have := littleEndian_lt data
  rwa [length_randomRead read hread] at this

end Reader

/-! ## The loop -/

/-- The value a raw word is accepted with. -/
def WordWidth.accept (w : WordWidth) (max raw : ℕ) : Option ℕ :=
  if raw &&& w.mask max < max then some (raw &&& w.mask max) else none

section Loop

variable {ρ : Type} (word : ρ → Option (ℕ × ρ))

/-- **The loop returns the first accepted word.** -/
theorem randomMax_eq_findSome? {mask n max : ℕ} {r r' : ρ} {raws : List ℕ}
    (h : rawWords word n r = some (raws, r')) :
    (randomMax word mask n r max).map Prod.fst =
      raws.findSome? fun raw => if raw &&& mask < max then some (raw &&& mask) else none := by
  induction n generalizing r raws with
  | zero =>
    obtain ⟨rfl, rfl⟩ : [] = raws ∧ r = r' := by simpa [rawWords] using h
    rfl
  | succ n ih =>
    simp only [rawWords, Option.bind_eq_some_iff, Option.map_eq_some_iff, Prod.exists] at h
    obtain ⟨raw, mid, hword, raws', last, hrest, hpair⟩ := h
    obtain ⟨rfl, rfl⟩ := Prod.mk.inj hpair
    rw [randomMax, hword, Option.bind_some, List.findSome?_cons]
    rcases lt_or_ge (raw &&& mask) max with hlt | hge
    · simp [hlt, not_le.mpr hlt]
    · simp only [hge, not_lt.mpr hge, if_true, if_false]
      exact ih hrest

end Loop

/-! ## Exact uniformity -/

/-- The draws below `max` are exactly uniform, under a mask of `k` bits. -/
structure ExactlyUniform (w : WordWidth) (max k : ℕ) : Prop where
  bits_le : k ≤ w.bits
  mask_eq : w.mask max = 2 ^ k - 1
  /-- The mask is the least one that reaches the bound. -/
  mask_least : IsLeast {m | (∃ j, m = 2 ^ j - 1) ∧ max ≤ m} (w.mask max)
  /-- The raw words are the strings of `w.bytes` bytes, one string each. -/
  draw_lt : ∀ {σ : Type} (read : RandomReadFunc σ UInt8) (r r' : Random σ UInt8) (raw : ℕ),
    w.draw read r = some (raw, r') → raw < 2 ^ w.bits
  existsUnique_bytes : ∀ raw < 2 ^ w.bits,
    ∃! bytes : List UInt8, bytes.length = w.bytes ∧ littleEndian bytes = raw
  /-- A raw word is taken exactly when its masked value is below the bound. -/
  drawMax_step : ∀ {σ : Type} (read : RandomReadFunc σ UInt8) (tries : ℕ)
    (r r' : Random σ UInt8) (raw : ℕ), w.draw read r = some (raw, r') →
      w.drawMax read (tries + 1) r max =
        if raw &&& w.mask max < max then some (raw &&& w.mask max, r')
        else w.drawMax read tries r' max
  drawMax_lt : ∀ {σ : Type} (read : RandomReadFunc σ UInt8) (tries : ℕ)
    (r r' : Random σ UInt8) (v : ℕ), w.drawMax read tries r max = some (v, r') → v < max
  /-- The raw words of each value. -/
  card_accept : ∀ v < max, #{raw ∈ range (2 ^ w.bits) | w.accept max raw = some v} =
    2 ^ (w.bits - k)
  two_mul_card_accept : 2 ^ w.bits ≤ 2 * #{raw ∈ range (2 ^ w.bits) | (w.accept max raw).isSome}
  /-- The loop returns the first accepted one of the raw words it reads… -/
  drawMax_raws : ∀ {σ : Type} (read : RandomReadFunc σ UInt8) (n : ℕ) (r r' : Random σ UInt8)
    (raws : List ℕ), rawWords (w.draw read) n r = some (raws, r') →
      (w.drawMax read n r max).map Prod.fst = raws.findSome? (w.accept max)
  /-- …and of all sequences of raw words the values have equal shares. -/
  card_raws : ∀ n, ∀ v < max,
    max * #{raws : Fin n → Fin (2 ^ w.bits) |
        (List.ofFn raws).findSome? (fun raw : Fin _ => w.accept max raw) = some v} +
      #{raw : Fin (2 ^ w.bits) | w.accept max raw = none} ^ n = (2 ^ w.bits) ^ n

theorem randomMax_lt {ρ : Type} (word : ρ → Option (ℕ × ρ)) {mask tries max v : ℕ} {r r' : ρ}
    (h : randomMax word mask tries r max = some (v, r')) : v < max := by
  induction tries generalizing r with
  | zero => exact absurd h (by simp [randomMax])
  | succ tries ih =>
    obtain ⟨⟨raw, mid⟩, -, h⟩ := Option.bind_eq_some_iff.mp h
    simp only at h
    split at h
    · exact ih h
    · rename_i hlt
      obtain ⟨rfl, -⟩ : _ = v ∧ _ := by simpa using h
      exact not_le.mp hlt

theorem WordWidth.accept_eq_some_iff {w : WordWidth} {max raw v : ℕ} :
    w.accept max raw = some v ↔ raw &&& w.mask max < max ∧ raw &&& w.mask max = v := by
  rw [accept]
  split <;> simp [*]

/-- **Every value below a bound has its share of raw words.** -/
theorem WordWidth.card_accept {w : WordWidth} {max v : ℕ} (hmax : max < 2 ^ w.bits) (hv : v < max) :
    #{raw ∈ range (2 ^ w.bits) | w.accept max raw = some v} = 2 ^ (w.bits - max.size) := by
  have hsize : max < 2 ^ max.size := Nat.lt_size_self max
  rw [← card_masked_eq (Nat.size_le.mpr hmax) (hv.trans hsize)]
  congr 1
  refine filter_congr fun raw _ => ?_
  rw [accept_eq_some_iff, w.mask_eq hmax]
  constructor
  · exact fun h => h.2
  · exact fun h => ⟨h ▸ hv, h⟩

/-- **Every bounded draw is exactly uniform**, at each of the four widths. -/
theorem randomMax_uniform (w : WordWidth) {max : ℕ} (hpos : 0 < max) (hmax : max < 2 ^ w.bits) :
    ∃ k, ExactlyUniform w max k := by
  refine ⟨max.size, ?_⟩
  constructor
  case bits_le => exact Nat.size_le.mpr hmax
  case mask_eq => exact w.mask_eq hmax
  case mask_least => exact w.mask_eq hmax ▸ isLeast_mask max
  case draw_lt => exact fun read _ _ _ h => w.draw_lt read h
  case existsUnique_bytes => exact fun raw hraw => existsUnique_littleEndian w.bytes hraw
  case drawMax_step =>
    intro σ read tries r r' raw hraw
    rw [w.drawMax_eq, randomMax, hraw, Option.bind_some, w.drawMax_eq]
    rcases lt_or_ge (raw &&& w.mask max) max with hlt | hge
    · simp [hlt, not_le.mpr hlt]
    · simp [hge, not_lt.mpr hge]
  case drawMax_lt =>
    intro σ read tries r r' v h
    exact randomMax_lt _ (w.drawMax_eq read tries r max ▸ h)
  case card_accept => exact fun v hv => w.card_accept hmax hv
  case two_mul_card_accept =>
    refine (two_pow_le_two_mul_card hpos hmax).trans_eq ?_
    rw [← w.mask_eq hmax]
    simp [WordWidth.accept, apply_ite Option.isSome]
  case drawMax_raws =>
    intro σ read n r r' raws h
    rw [w.drawMax_eq]
    exact randomMax_eq_findSome? _ h
  case card_raws =>
    intro n v hv
    have hshare : ∀ v ∈ range max, #{raw : Fin (2 ^ w.bits) | w.accept max raw = some v} =
        2 ^ (w.bits - max.size) := fun v hv => by
      rw [← w.card_accept hmax (mem_range.mp hv),
        card_filter_fin fun raw => w.accept max raw = some v]
    have hmem : ∀ (raw : Fin (2 ^ w.bits)) (v : ℕ), w.accept max raw = some v → v ∈ range max := by
      intro raw v h
      obtain ⟨hlt, rfl⟩ := WordWidth.accept_eq_some_iff.mp h
      exact mem_range.mpr hlt
    have h := mul_firstCount_add hmem hshare n (mem_range.mpr hv)
    rwa [card_range, Fintype.card_fin] at h

theorem randomMax_uniform_u8_ten : ∃ k, ExactlyUniform .u8 10 k :=
  randomMax_uniform .u8 (by decide) (by decide)

end Passgen
