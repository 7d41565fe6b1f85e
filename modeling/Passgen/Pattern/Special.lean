import Mathlib.Data.List.Basic
import Mathlib.Tactic.Common
import Passgen.Container.Stack
import Passgen.Generate.Surrogates
import Passgen.Pattern.Ast

/-!
# Pattern/Special — the buffer of a special name

    parameters   n a m e 0 ▢ ▢ ▢ ▢ ▢ ▢ ▢ ▢ ▢ ▢ ▢
                         ▴                       ▴
                   parameters_len          parameters_cap = 2ᵏ

A name is pushed codepoint by codepoint into a buffer that doubles when there is no room for four
bytes and a zero.  Both counters are `int32_t`, and the length moves by what the encoder returns:
for a codepoint it refuses, backwards, and to `-1` at the start.  So names are stored exactly when
they are encodable, and shorter than `2 ^ 30` bytes (`safePushes_iff`).
-/

namespace Passgen

open Memory

/-- The value of an `int32_t` expression. -/
def int32 (n : ℤ) : ℤ := (n + 2 ^ 31) % 2 ^ 32 - 2 ^ 31

theorem int32_of_mem {n : ℤ} (hlow : -2 ^ 31 ≤ n) (hhigh : n < 2 ^ 31) : int32 n = n := by
  rw [int32, Int.emod_eq_of_lt (by omega) (by omega)]
  omega

/-- `passgen_pattern_special`, with the buffer `parameters` points to; `none` is the `NULL` pointer.
-/
structure SpecialBuffer where
  kind : SpecialKind
  parametersLen : ℤ
  parametersCap : ℤ
  parameters : Option (Block UInt8)

/-- `passgen_pattern_special_init`, on the kinds the parser passes. -/
def specialBufferInit (kind : SpecialKind) : SpecialBuffer := ⟨kind, 0, 0, none⟩

/-- Bytes written from `&special->parameters[i]` on. -/
def storeBytes (block : Block UInt8) (i : ℤ) (bytes : List UInt8) : Except Fault (Block UInt8) :=
  if 0 ≤ i then access (block.storeAll i.toNat bytes) else .error .access

/-- The part of `passgen_pattern_special_push` that makes room. -/
def specialReserve (junk : ℕ → UInt8) (special : SpecialBuffer) : Except Fault SpecialBuffer := do
  let special :=
    if special.parametersCap = 0 then
      { special with parametersCap := 16, parameters := some ⟨16, junk⟩ }
    else special
  if int32 (special.parametersLen + 5) ≥ special.parametersCap then
    let cap := int32 (special.parametersCap * 2)
    let block ← access special.parameters
    -- a negative size is converted to a `size_t`, which no allocation has
    let block ← realloc junk block (cap % 2 ^ 64).toNat
    pure { special with parametersCap := cap, parameters := some block }
  else pure special

/-- `passgen_pattern_special_push`, without the assertions. -/
def specialPushBuffer (junk : ℕ → UInt8) (special : SpecialBuffer) (codepoint : ℕ) :
    Except Fault SpecialBuffer := do
  let special ← specialReserve junk special
  let block ← access special.parameters
  let (block, bytes) ← (match utf8EncodeCodepoint codepoint with
    | some encoded => do
      let block ← storeBytes block special.parametersLen encoded
      pure (block, (encoded.length : ℤ))
    | none => pure (block, -1))
  let len := int32 (special.parametersLen + bytes)
  let block ← storeBytes block len [0]
  pure { special with parametersLen := len, parameters := some block }

/-- The pushes of `passgen_parse_special_name`, token by token. -/
def specialPushes (junk : ℕ → UInt8) (special : SpecialBuffer) (tokens : List ℕ) :
    Except Fault SpecialBuffer :=
  tokens.foldlM (fun special token => specialPushBuffer junk special (clearEscaped token)) special

/-- The item that the parser makes of these tokens. -/
def storedAs (kind : SpecialKind) (tokens : List ℕ) : Special :=
  (tokens.map clearEscaped).foldl specialPush (specialInit kind)

/-! ## The buffer of a special -/

/-- **The buffer of a special**: it has its counters, and its bytes with a zero behind them. -/
structure SpecialBuffer.Represents (b : SpecialBuffer) (s : Special) : Prop where
  kind : b.kind = s.kind
  len : b.parametersLen = s.parametersLen
  cap : b.parametersCap = s.parametersCap
  length : s.parametersLen = s.parameters.length
  buffer : s.parametersCap = 0 ∧ b.parameters = none ∧ s.parameters = [] ∨
    ∃ k block, k ≤ 26 ∧ s.parametersCap = (2 ^ (k + 4) : ℕ) ∧ b.parameters = some block ∧
      block.size = 2 ^ (k + 4) ∧ block.Holds (s.parameters ++ [0])

/-- The capacity after a push. -/
def Special.grownCap (s : Special) : ℤ :=
  let cap := if s.parametersCap = 0 then 16 else s.parametersCap
  if s.parametersLen + 5 ≥ cap then cap * 2 else cap

theorem represents_specialInit (kind : SpecialKind) :
    (specialBufferInit kind).Represents (specialInit kind) :=
  ⟨rfl, rfl, rfl, rfl, .inl ⟨rfl, rfl, rfl⟩⟩

/-- Bytes behind what the buffer has. -/
theorem exists_storeBytes {block : Block UInt8} {us vs : List UInt8} (h : block.Holds us)
    (hroom : (us ++ vs).length ≤ block.size) :
    ∃ block', storeBytes block us.length vs = .ok block' ∧ block'.size = block.size ∧
      block'.Holds (us ++ vs) := by
  obtain ⟨block', hstore, hsize⟩ := Block.exists_storeAll_of_le (List.length_append ▸ hroom)
  refine ⟨block', ?_, hsize, h.storeAll hstore⟩
  rw [storeBytes, if_pos (Int.natCast_nonneg _), Int.toNat_natCast, hstore]
  rfl

section Push

variable {b : SpecialBuffer} {s : Special} {c k : ℕ} (junk : ℕ → UInt8)

theorem sixteen_le_two_pow (k : ℕ) : 16 ≤ 2 ^ (k + 4) :=
  Nat.pow_le_pow_right Nat.two_pos (Nat.le_add_left 4 k)

theorem two_pow_le_of_le (hk : k ≤ 26) : 2 ^ (k + 4) ≤ 2 ^ 30 :=
  Nat.pow_le_pow_right Nat.two_pos (Nat.add_le_add_right hk 4)

theorem two_pow_succ_add (k : ℕ) : 2 ^ (k + 1 + 4) = 2 * 2 ^ (k + 4) := by
  rw [Nat.add_right_comm, Nat.pow_succ']

/-- A buffer that is large enough stays as it is. -/
theorem specialReserve_of_lt {block : Block UInt8} {kind : SpecialKind} {len cap : ℤ}
    (hcap : cap ≠ 0) (hlt : int32 (len + 5) < cap) :
    specialReserve junk ⟨kind, len, cap, some block⟩ = .ok ⟨kind, len, cap, some block⟩ := by
  simp only [specialReserve, if_neg hcap, if_neg (Int.not_le.mpr hlt)]
  rfl

/-- A buffer that is not is doubled. -/
theorem specialReserve_of_le {block : Block UInt8} {kind : SpecialKind} {len cap : ℤ}
    (hcap : cap ≠ 0) (hle : cap ≤ int32 (len + 5)) :
    specialReserve junk ⟨kind, len, cap, some block⟩ =
      (realloc junk block (int32 (cap * 2) % 2 ^ 64).toNat).map fun block =>
        ⟨kind, len, int32 (cap * 2), some block⟩ := by
  simp only [specialReserve, if_neg hcap, ge_iff_le, if_pos hle]
  change (realloc junk block _ >>= _) = _
  cases realloc junk block (int32 (cap * 2) % 2 ^ 64).toNat <;> rfl

/-- **Doubling**, below `2 ^ 30` bytes. -/
theorem specialReserve_double {block : Block UInt8} {kind : SpecialKind} {len : ℤ} (hk : k + 1 ≤ 26)
    (hle : (2 ^ (k + 4) : ℕ) ≤ int32 (len + 5)) :
    specialReserve junk ⟨kind, len, (2 ^ (k + 4) : ℕ), some block⟩ =
      .ok ⟨kind, len, (2 ^ (k + 1 + 4) : ℕ), some (block.resize junk (2 ^ (k + 1 + 4)))⟩ := by
  have hlow := sixteen_le_two_pow k
  have hhigh := two_pow_le_of_le hk
  have hdouble := two_pow_succ_add k
  have hcap : int32 ((2 ^ (k + 4) : ℕ) * 2) = (2 ^ (k + 1 + 4) : ℕ) := by
    rw [int32_of_mem (by omega) (by omega)]
    omega
  have hbytes : (int32 ((2 ^ (k + 4) : ℕ) * 2) % 2 ^ 64).toNat = 2 ^ (k + 1 + 4) := by
    rw [hcap]
    omega
  have hfits : 2 ^ (k + 1 + 4) ≤ ptrdiffMax := Nat.le_trans hhigh (by decide)
  rw [specialReserve_of_le junk (by omega) hle, hbytes, realloc, if_pos hfits, hcap]
  rfl

/-- **There is room** for four bytes and a zero, while the counters do not wrap. -/
theorem SpecialBuffer.Represents.reserve (h : b.Represents s)
    (hshort : s.parameters.length + 5 < 2 ^ 30) :
    ∃ k block, specialReserve junk b = .ok ⟨s.kind, s.parametersLen, s.grownCap, some block⟩ ∧
      k ≤ 26 ∧ s.grownCap = (2 ^ (k + 4) : ℕ) ∧ block.size = 2 ^ (k + 4) ∧
      s.parameters.length + 5 < 2 ^ (k + 4) ∧ block.Holds s.parameters := by
  obtain ⟨kind, len, cap, parameters⟩ := b
  obtain ⟨rfl, rfl, rfl, hlen, hbuffer⟩ := h
  dsimp only at hbuffer ⊢
  have hint : int32 (s.parametersLen + 5) = s.parametersLen + 5 :=
    int32_of_mem (by omega) (by omega)
  rcases hbuffer with ⟨hcap, rfl, hnil⟩ | ⟨k, block, hk, hcap, rfl, hsize, hholds⟩
  · rw [hnil] at hlen ⊢
    have hgrown : s.grownCap = 16 := by
      rw [Special.grownCap, if_pos hcap, if_neg (by rw [hlen]; decide)]
    refine ⟨0, ⟨16, junk⟩, ?_, Nat.zero_le _, hgrown, rfl, by decide, Block.holds_nil _⟩
    simp only [specialReserve, hgrown, hcap, if_true, hlen]
    rfl
  · have hroom : s.parameters.length + 1 ≤ 2 ^ (k + 4) := by
      simpa [hsize] using hholds.le
    have hlow := sixteen_le_two_pow k
    have hdouble := two_pow_succ_add k
    have hne : s.parametersCap ≠ 0 := by omega
    by_cases hlt : s.parametersLen + 5 < s.parametersCap
    · have hgrown : s.grownCap = s.parametersCap := by
        rw [Special.grownCap, if_neg hne, if_neg (by omega)]
      rw [hgrown]
      exact ⟨k, block, specialReserve_of_lt junk hne (by omega), hk, hcap, hsize, by omega,
        hholds.left⟩
    · have hgrown : s.grownCap = (2 ^ (k + 1 + 4) : ℕ) := by
        rw [Special.grownCap, if_neg hne, if_pos (by omega), hcap]
        omega
      have hk' : k + 1 ≤ 26 := by
        by_contra hcontra
        obtain rfl : k = 26 := by omega
        omega
      rw [hgrown, hcap]
      exact ⟨k + 1, block.resize junk (2 ^ (k + 1 + 4)), specialReserve_double junk hk' (by omega),
        hk', rfl, rfl, by omega, hholds.left.resize junk (by omega)⟩

/-- A buffer of `2 ^ 30` bytes does not grow. -/
theorem SpecialBuffer.Represents.reserve_long (h : b.Represents s)
    (hlong : 2 ^ 30 ≤ s.parameters.length + 5) :
    specialReserve junk b = .error .allocation := by
  obtain ⟨kind, len, cap, parameters⟩ := b
  obtain ⟨rfl, rfl, rfl, hlen, hbuffer⟩ := h
  dsimp only at hbuffer ⊢
  rcases hbuffer with ⟨-, -, hnil⟩ | ⟨k, block, hk, hcap, rfl, hsize, hholds⟩
  · exact absurd hlong (by rw [hnil]; decide)
  · have hroom : s.parameters.length + 1 ≤ 2 ^ (k + 4) := by
      simpa [hsize] using hholds.le
    have hhigh := two_pow_le_of_le hk
    have hk' : k = 26 := by
      by_contra hcontra
      have hnext := @two_pow_le_of_le (k + 1) (by omega)
      rw [two_pow_succ_add] at hnext
      omega
    subst hk'
    have hint : int32 (s.parametersLen + 5) = s.parametersLen + 5 :=
      int32_of_mem (by omega) (by omega)
    rw [specialReserve_of_le junk (by omega) (by omega), hcap]
    rfl

theorem parametersCap_specialPush (s : Special) (c : ℕ) :
    (specialPush s c).parametersCap = s.grownCap := by
  rw [specialPush]
  split <;> rfl

/-- **A codepoint is pushed** where the name is short. -/
theorem SpecialBuffer.Represents.push (h : b.Represents s)
    (hshort : s.parameters.length + 5 < 2 ^ 30) (hc : c ≤ 0x10FFFF) :
    ∃ b', specialPushBuffer junk b c = .ok b' ∧ b'.Represents (specialPush s c) ∧
      (specialPush s c).parametersCap ≠ 0 := by
  obtain ⟨k, block, hreserve, hk, hgrown, hsize, hroom, hholds⟩ := h.reserve junk hshort
  obtain ⟨hparameters, hlen⟩ := specialPush_of_le hc h.length
  have hbytes := utf8EncodeCodepoint_eq hc
  have hfour := (length_utf8EncodeCodepoint hbytes).2
  have hlow := sixteen_le_two_pow k
  have hhigh := two_pow_le_of_le hk
  have happend : (s.parameters ++ utf8Encode c).length =
      s.parameters.length + (utf8Encode c).length := List.length_append
  have hroom₁ : (s.parameters ++ utf8Encode c).length ≤ block.size := by omega
  obtain ⟨encoded, hencoded, hsize₁, hholds₁⟩ := exists_storeBytes hholds hroom₁
  have hroom₂ : (s.parameters ++ utf8Encode c ++ [0]).length ≤ encoded.size := by
    rw [List.length_append, List.length_singleton]
    omega
  obtain ⟨ended, hended, hsize₂, hholds₂⟩ := exists_storeBytes hholds₁ hroom₂
  have hcap := parametersCap_specialPush s c
  refine ⟨⟨s.kind, (s.parameters ++ utf8Encode c).length, s.grownCap, some ended⟩, ?_, ?_, by omega⟩
  · have hint : int32 (s.parametersLen + (utf8Encode c).length) =
        (s.parameters ++ utf8Encode c).length := by
      rw [h.length, int32_of_mem (by omega) (by omega), happend, Nat.cast_add]
    rw [← h.length] at hencoded
    simp only [specialPushBuffer, hreserve, hbytes, access, bind, Except.bind, hencoded, pure,
      Except.pure, hint, hended]
  · refine ⟨?_, ?_, hcap.symm, hlen, .inr ⟨k, ended, hk, hcap.trans hgrown, rfl, by omega, ?_⟩⟩
    · rw [specialPush, hbytes]
    · rw [hlen, hparameters]
    · rw [hparameters]
      exact hholds₂

/-- A name of `2 ^ 30` bytes is pushed nothing. -/
theorem SpecialBuffer.Represents.push_long (h : b.Represents s)
    (hlong : 2 ^ 30 ≤ s.parameters.length + 5) :
    specialPushBuffer junk b c = .error .allocation := by
  rw [specialPushBuffer, h.reserve_long junk hlong]
  rfl

end Push

/-! ## Names -/

/-- The counters are of the buffer, and it has what the tokens encode to, and a zero. -/
structure SpecialBuffer.StoresExactly (b : SpecialBuffer) (tokens : List ℕ) : Prop where
  nonneg : 0 ≤ b.parametersLen
  lt : b.parametersLen + 1 ≤ b.parametersCap
  bytes : ∃ block w, b.parameters = some block ∧ (block.size : ℤ) = b.parametersCap ∧
    encodeAll utf8EncodeCodepoint (tokens.map clearEscaped) = some w ∧
      b.parametersLen = w.length ∧ block.Holds (w ++ [0])

/-- **Each push is safe**: no byte is written outside of the buffer, and it stores exactly what was
pushed. -/
def SafePushes (junk : ℕ → UInt8) (kind : SpecialKind) (tokens : List ℕ) : Prop :=
  ∀ n, 0 < n → n ≤ tokens.length → ∃ b,
    specialPushes junk (specialBufferInit kind) (tokens.take n) = .ok b ∧
      b.StoresExactly (tokens.take n)

/-- **A special is stored**: its pushes are safe, and in the end there is a string, with a zero at
its end. -/
def SpecialStored (junk : ℕ → UInt8) (kind : SpecialKind) (tokens : List ℕ) : Prop :=
  SafePushes junk kind tokens ∧ ∃ b block w,
    specialPushes junk (specialBufferInit kind) tokens = .ok b ∧ b.parameters = some block ∧
      block.Holds (w ++ [0])

/-- The start of a name that is stored. -/
theorem FitsName.take {tokens : List ℕ} (h : FitsName tokens) (n : ℕ) :
    FitsName (tokens.take n) := by
  refine ⟨fun t ht => h.codepoint t (List.mem_of_mem_take ht), ?_⟩
  have hprefix := ((tokens.dropLast.take_prefix (n - 1)).map clearEscaped).flatMap utf8Encode
  rw [List.dropLast_take_eq_take_dropLast]
  exact Nat.lt_of_le_of_lt (Nat.add_le_add_right hprefix.length_le 5) h.length

section Names

variable (junk : ℕ → UInt8) (kind : SpecialKind) {tokens : List ℕ} {t : ℕ}

theorem storedAs_concat (tokens : List ℕ) (t : ℕ) :
    storedAs kind (tokens ++ [t]) = specialPush (storedAs kind tokens) (clearEscaped t) := by
  rw [storedAs, List.map_append, List.foldl_append]
  rfl

theorem specialPushes_concat (special : SpecialBuffer) (tokens : List ℕ) (t : ℕ) :
    specialPushes junk special (tokens ++ [t]) =
      specialPushes junk special tokens >>= (specialPushBuffer junk · (clearEscaped t)) := by
  rw [specialPushes, List.foldlM_append]
  refine congrArg (specialPushes junk special tokens >>= ·) (funext fun special' => ?_)
  rw [List.foldlM_cons]
  exact bind_pure _

/-- The bytes of a name. -/
theorem parameters_storedAs (h : ∀ t ∈ tokens, clearEscaped t ≤ 0x10FFFF) :
    (storedAs kind tokens).parameters = utf8EncodeAll (tokens.map clearEscaped) :=
  (parameters_foldl_specialPush (List.forall_mem_map.mpr h) rfl).1

/-- **A name is pushed**, token by token. -/
theorem represents_specialPushes (h : FitsName tokens) :
    ∃ b, specialPushes junk (specialBufferInit kind) tokens = .ok b ∧
      b.Represents (storedAs kind tokens) ∧
        (tokens ≠ [] → (storedAs kind tokens).parametersCap ≠ 0) := by
  induction tokens using List.reverseRecOn with
  | nil => exact ⟨_, rfl, represents_specialInit kind, fun hne => absurd rfl hne⟩
  | append_singleton tokens t ih =>
    have hinit := h.take tokens.length
    rw [List.take_left] at hinit
    obtain ⟨b, hb, hrep, -⟩ := ih hinit
    have hlength := h.length
    rw [List.dropLast_concat, ← parameters_storedAs kind hinit.codepoint] at hlength
    obtain ⟨b', hb', hrep', hcap⟩ := hrep.push junk hlength (h.codepoint t (by simp))
    rw [specialPushes_concat, storedAs_concat, hb]
    exact ⟨b', hb', hrep', fun _ => hcap⟩

/-- What is pushed is stored. -/
theorem SpecialBuffer.Represents.storesExactly {b : SpecialBuffer}
    (h : b.Represents (storedAs kind tokens)) (hcap : (storedAs kind tokens).parametersCap ≠ 0)
    (hmax : ∀ t ∈ tokens, clearEscaped t ≤ 0x10FFFF) : b.StoresExactly tokens := by
  obtain ⟨k, block, -, hcap', hblock, hsize, hholds⟩ := h.buffer.resolve_left fun hnil =>
    hcap hnil.1
  have hle := hholds.le
  have hlen := h.len.trans h.length
  have hcap₁ := h.cap.trans hcap'
  rw [List.length_append, List.length_singleton] at hle
  refine ⟨by omega, by omega, block, _, hblock, by omega, ?_, hlen, hholds⟩
  rw [parameters_storedAs kind hmax]
  exact encodeAll_utf8 (List.forall_mem_map.mpr hmax)

/-- **A name is stored exactly** where it is of codepoints, and the last of them finds room. -/
theorem safePushes_iff : SafePushes junk kind tokens ↔ FitsName tokens := by
  constructor
  · intro h
    induction tokens using List.reverseRecOn with
    | nil => exact ⟨fun t ht => absurd ht List.not_mem_nil, by decide⟩
    | append_singleton tokens t ih =>
      have hinit := ih fun n hpos hle => by
        have hle' : n ≤ (tokens ++ [t]).length := Nat.le_trans hle (by simp)
        obtain ⟨b, hb⟩ := h n hpos hle'
        rw [List.take_append_of_le_length hle] at hb
        exact ⟨b, hb⟩
      obtain ⟨b, hb, hstores⟩ := h (tokens ++ [t]).length (by simp) (Nat.le_refl _)
      rw [List.take_length] at hb hstores
      obtain ⟨-, w, -, -, hw, -⟩ := hstores.bytes
      refine ⟨fun u hu => (le_of_encodeAll hw).1 _ (List.mem_map_of_mem hu), ?_⟩
      obtain ⟨b₀, hb₀, hrep, -⟩ := represents_specialPushes junk kind hinit
      rw [List.dropLast_concat, ← parameters_storedAs kind hinit.codepoint]
      by_contra hlong
      rw [specialPushes_concat, hb₀] at hb
      exact absurd ((hrep.push_long junk (Nat.le_of_not_lt hlong)).symm.trans hb) (by simp)
  · intro h n hpos hle
    obtain ⟨b, hb, hrep, hcap⟩ := represents_specialPushes junk kind (h.take n)
    have hne : tokens.take n ≠ [] := List.ne_nil_of_length_pos (by
      rw [List.length_take]
      omega)
    exact ⟨b, hb, hrep.storesExactly kind (hcap hne) (h.take n).codepoint⟩

/-- A name of `2 ^ 30` letters does not fit. -/
theorem not_fitsName_replicate {n : ℕ} (hn : 2 ^ 30 ≤ n) :
    ¬FitsName (List.replicate n 'a'.toNat) := by
  intro h
  have hlength := h.length
  have hletter : clearEscaped 'a'.toNat = 'a'.toNat := by decide
  have hbytes := length_le_length_utf8EncodeAll
    (fun c (hc : c ∈ List.replicate (n - 1) 'a'.toNat) =>
      (List.eq_of_mem_replicate hc ▸ ⟨by decide, by decide⟩ : IsScalar c))
  rw [List.dropLast_replicate, List.map_replicate, hletter] at hlength
  rw [List.length_replicate] at hbytes
  omega

/-- **A special has a string** where it is stored exactly, and has a name at all. -/
theorem specialStored_iff : SpecialStored junk kind tokens ↔ tokens ≠ [] ∧ FitsName tokens := by
  rw [SpecialStored, safePushes_iff, and_comm]
  refine and_congr_left fun hfits => ⟨?_, fun hne => ?_⟩
  · rintro ⟨b, block, w, hb, hblock, -⟩ rfl
    obtain rfl := Except.ok.inj hb
    exact absurd hblock (by simp [specialBufferInit])
  · obtain ⟨b, hb, hrep, hcap⟩ := represents_specialPushes junk kind hfits
    obtain ⟨block, w, hblock, -, -, -, hholds⟩ :=
      (hrep.storesExactly kind (hcap hne) hfits.codepoint).bytes
    exact ⟨b, block, w, hb, hblock, hholds⟩

end Names

end Passgen
