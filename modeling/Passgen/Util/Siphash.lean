import Mathlib.Data.List.GetD
import Mathlib.Data.Vector.Defs
import Mathlib.Tactic.Common

/-!
# Util/Siphash — the hash function of the hash map

    message    m m m m m m m m │ m m m m m m m m │ m m m 0 0 0 0 n
                 a word          a word            what is left, and the length

`passgen_siphash` takes whole words in a loop, and puts the last one together in a switch.  What it
absorbs are the words of the padded message, one after the other (`siphash_eq_padded`).
-/

namespace Passgen

/-! ## Bytes and words -/

/-- A byte, where it is in a word. -/
def wordByte (p : List UInt8) (i : ℕ) : UInt64 := (p.getD i 0).toUInt64 <<< UInt64.ofNat (8 * i)

/-- `U8TO64_LE`. -/
def u8To64Le (p : List UInt8) : UInt64 :=
  wordByte p 0 ||| wordByte p 1 ||| wordByte p 2 ||| wordByte p 3 ||| wordByte p 4 |||
    wordByte p 5 ||| wordByte p 6 ||| wordByte p 7

/-- `U32TO8_LE`. -/
def u32To8Le (v : UInt32) : List UInt8 :=
  [v.toUInt8, (v >>> 8).toUInt8, (v >>> 16).toUInt8, (v >>> 24).toUInt8]

/-- `U64TO8_LE`. -/
def u64To8Le (v : UInt64) : List UInt8 := u32To8Le v.toUInt32 ++ u32To8Le (v >>> 32).toUInt32

/-! ## Rounds -/

/-- `v0` to `v3`. -/
abbrev SipState : Type := Vector UInt64 4

/-- `ROTL`. -/
def sipRotl (x b : UInt64) : UInt64 := (x <<< b) ||| (x >>> (64 - b))

/-- `SIPROUND`. -/
def sipRound (v : SipState) : SipState :=
  let v := v.set 0 (v[0] + v[1])
  let v := v.set 1 (sipRotl v[1] 13)
  let v := v.set 1 (v[1] ^^^ v[0])
  let v := v.set 0 (sipRotl v[0] 32)
  let v := v.set 2 (v[2] + v[3])
  let v := v.set 3 (sipRotl v[3] 16)
  let v := v.set 3 (v[3] ^^^ v[2])
  let v := v.set 0 (v[0] + v[3])
  let v := v.set 3 (sipRotl v[3] 21)
  let v := v.set 3 (v[3] ^^^ v[0])
  let v := v.set 2 (v[2] + v[1])
  let v := v.set 1 (sipRotl v[1] 17)
  let v := v.set 1 (v[1] ^^^ v[2])
  v.set 2 (sipRotl v[2] 32)

/-- `cROUNDS` or `dROUNDS` rounds. -/
def sipRounds (n : ℕ) (v : SipState) : SipState := Nat.repeat sipRound n v

/-! ## The function -/

/-- The loop up to `end`: the state, and what is left. -/
def sipLoop : ℕ → SipState → List UInt8 → SipState × List UInt8
  | 0, v, ni => (v, ni)
  | n + 1, v, ni =>
    let m := u8To64Le ni
    let v := v.set 3 (v[3] ^^^ m)
    let v := sipRounds 2 v
    let v := v.set 0 (v[0] ^^^ m)
    sipLoop n v (ni.drop 8)

/-- The switch over the number of bytes that are left, each case falling through to the next. -/
def sipTail (ni : List UInt8) : ℕ → UInt64 → UInt64
  | 0, b => b
  | left + 1, b => sipTail ni left (b ||| wordByte ni left)

/-- The state before the message. -/
def sipKeyed (key : List UInt8) (outlen : ℕ) : SipState :=
  let v : SipState :=
    #v[0x736f6d6570736575, 0x646f72616e646f6d, 0x6c7967656e657261, 0x7465646279746573]
  let k0 := u8To64Le key
  let k1 := u8To64Le (key.drop 8)
  let v := v.set 3 (v[3] ^^^ k1)
  let v := v.set 2 (v[2] ^^^ k0)
  let v := v.set 1 (v[1] ^^^ k1)
  let v := v.set 0 (v[0] ^^^ k0)
  if outlen = 16 then v.set 1 (v[1] ^^^ 0xee) else v

/-- The output, from the state behind the message. -/
def sipOutput (v : SipState) (outlen : ℕ) : List UInt8 :=
  let v := if outlen = 16 then v.set 2 (v[2] ^^^ 0xee) else v.set 2 (v[2] ^^^ 0xff)
  let v := sipRounds 4 v
  let out := u64To8Le (v[0] ^^^ v[1] ^^^ v[2] ^^^ v[3])
  if outlen = 8 then out
  else
    let v := v.set 1 (v[1] ^^^ 0xdd)
    let v := sipRounds 4 v
    out ++ u64To8Le (v[0] ^^^ v[1] ^^^ v[2] ^^^ v[3])

/-- `passgen_siphash`; `none` where the assertion of the output length fails. -/
def siphash (message key : List UInt8) (outlen : ℕ) : Option (List UInt8) :=
  if outlen = 8 ∨ outlen = 16 then
    let left := message.length % 8
    let b := UInt64.ofNat message.length <<< 56
    let (v, ni) := sipLoop (message.length / 8) (sipKeyed key outlen) message
    let b := sipTail ni left b
    let v := v.set 3 (v[3] ^^^ b)
    let v := sipRounds 2 v
    let v := v.set 0 (v[0] ^^^ b)
    some (sipOutput v outlen)
  else none

/-- Of the function's own tests. -/
example : siphash ("passgen".toList.map fun c => UInt8.ofNat c.toNat)
    ("zppyfssftiwghlcy".toList.map fun c => UInt8.ofNat c.toNat) 8
      = some [0x45, 0x10, 0x48, 0x0e, 0x04, 0x58, 0xc0, 0xee] := by decide +kernel

/-! ## Padding -/

/-- One word is absorbed. -/
def sipCompress (v : SipState) (m : UInt64) : SipState :=
  let v := v.set 3 (v[3] ^^^ m)
  let v := sipRounds 2 v
  v.set 0 (v[0] ^^^ m)

/-- The words of eight bytes each. -/
def sipWords : ℕ → List UInt8 → List UInt64
  | 0, _ => []
  | n + 1, p => u8To64Le p :: sipWords n (p.drop 8)

/-- The message in whole words: zeros up to the last byte, and its length there. -/
def sipPad (message : List UInt8) : List UInt8 :=
  message ++ (List.replicate (7 - message.length % 8) 0 ++ [UInt8.ofNat message.length])

/-- The state once the padded message is absorbed, word by word. -/
def sipAbsorb (message key : List UInt8) (outlen : ℕ) : SipState :=
  (sipWords (message.length / 8 + 1) (sipPad message)).foldl sipCompress (sipKeyed key outlen)

section Padding

variable {p q : List UInt8} {n left : ℕ} {b : UInt64}

theorem sipLoop_eq (n : ℕ) (v : SipState) (p : List UInt8) :
    sipLoop n v p = ((sipWords n p).foldl sipCompress v, p.drop (8 * n)) := by
  induction n generalizing v p with
  | zero => rfl
  | succ n ih =>
    rw [sipLoop, ih, sipWords, List.foldl_cons, List.drop_drop, Nat.mul_succ, Nat.add_comm 8]
    rfl

theorem sipWords_succ (n : ℕ) (p : List UInt8) :
    sipWords (n + 1) p = sipWords n p ++ [u8To64Le (p.drop (8 * n))] := by
  induction n generalizing p with
  | zero => rfl
  | succ n ih =>
    rw [sipWords, ih, List.drop_drop, Nat.add_comm 8, ← Nat.mul_succ, sipWords, List.cons_append]

theorem u8To64Le_congr (h : ∀ i < 8, p.getD i 0 = q.getD i 0) : u8To64Le p = u8To64Le q := by
  have hbyte : ∀ i < 8, wordByte p i = wordByte q i := fun i hi => by
    rw [wordByte, h i hi, wordByte]
  simp only [u8To64Le, hbyte 0 (by decide), hbyte 1 (by decide), hbyte 2 (by decide),
    hbyte 3 (by decide), hbyte 4 (by decide), hbyte 5 (by decide), hbyte 6 (by decide),
    hbyte 7 (by decide)]

/-- Whole words do not depend on what is behind them. -/
theorem sipWords_append (h : 8 * n ≤ p.length) : sipWords n (p ++ q) = sipWords n p := by
  induction n generalizing p with
  | zero => rfl
  | succ n ih =>
    have hword : u8To64Le (p ++ q) = u8To64Le p := u8To64Le_congr fun i hi =>
      List.getD_append _ _ _ _ (by omega)
    have hdrop : 8 * n ≤ (p.drop 8).length := by
      rw [List.length_drop]
      omega
    rw [sipWords, hword, List.drop_append_of_le_length (by omega), ih hdrop, sipWords]

/-- A word is what its switch makes of it. -/
theorem u8To64Le_eq_sipTail (p : List UInt8) : u8To64Le p = sipTail p 7 (wordByte p 7) := by
  have htail : sipTail p 7 (wordByte p 7) = wordByte p 7 ||| wordByte p 6 ||| wordByte p 5 |||
      wordByte p 4 ||| wordByte p 3 ||| wordByte p 2 ||| wordByte p 1 ||| wordByte p 0 := rfl
  rw [htail, u8To64Le]
  generalize wordByte p 0 = b0, wordByte p 1 = b1, wordByte p 2 = b2, wordByte p 3 = b3,
    wordByte p 4 = b4, wordByte p 5 = b5, wordByte p 6 = b6, wordByte p 7 = b7
  ac_rfl

theorem sipTail_congr (h : ∀ i < n, wordByte p i = wordByte q i) :
    sipTail p n b = sipTail q n b := by
  induction n generalizing b with
  | zero => rfl
  | succ n ih =>
    rw [sipTail, h n (Nat.lt_succ_self n), ih fun i hi => h i (Nat.lt_succ_of_lt hi), sipTail]

/-- Zeros leave no trace. -/
theorem sipTail_of_zero (hle : left ≤ n) (h : ∀ i < n, left ≤ i → wordByte p i = 0) :
    sipTail p n b = sipTail p left b := by
  obtain ⟨k, rfl⟩ := Nat.exists_eq_add_of_le hle
  induction k with
  | zero => rfl
  | succ k ih =>
    rw [Nat.add_succ, sipTail, h (left + k) (Nat.lt_succ_self _) (Nat.le_add_right left k),
      UInt64.or_zero]
    exact ih (Nat.le_add_right left k) fun i hi => h i (Nat.lt_succ_of_lt hi)

theorem ofNat_shiftLeft (n : ℕ) : (UInt8.ofNat n).toUInt64 <<< 56 = UInt64.ofNat n <<< 56 := by
  apply UInt64.toNat_inj.mp
  rw [UInt64.toNat_shiftLeft, UInt64.toNat_shiftLeft, UInt8.toNat_toUInt64, UInt8.toNat_ofNat',
    UInt64.toNat_ofNat', Nat.shiftLeft_eq, Nat.shiftLeft_eq]
  have hshift : (56 : UInt64).toNat % 64 = 56 := rfl
  rw [hshift]
  omega

/-- The last word: what is left, and the length. -/
theorem u8To64Le_padded (hlen : p.length = left) (hleft : left < 8) (n : ℕ) :
    u8To64Le (p ++ (List.replicate (7 - left) 0 ++ [UInt8.ofNat n]))
      = sipTail p left (UInt64.ofNat n <<< 56) := by
  have hlast : wordByte (p ++ (List.replicate (7 - left) 0 ++ [UInt8.ofNat n])) 7
      = UInt64.ofNat n <<< 56 := by
    rw [wordByte, List.getD_append_right _ _ _ _ (by omega),
      List.getD_append_right _ _ _ _ (by rw [List.length_replicate]; omega), List.length_replicate,
      hlen, Nat.sub_self]
    exact ofNat_shiftLeft n
  have hle : left ≤ 7 := by omega
  rw [u8To64Le_eq_sipTail, hlast, sipTail_of_zero hle]
  · refine sipTail_congr fun i hi => ?_
    rw [wordByte, List.getD_append _ _ _ _ (by omega), wordByte]
  · intro i hi hleft
    rw [wordByte, List.getD_append_right _ _ _ _ (by omega),
      List.getD_append _ _ _ _ (by rw [List.length_replicate]; omega),
      List.getD_replicate _ (by omega)]
    exact UInt64.zero_shiftLeft

end Padding

/-- **The message is absorbed as it is padded**, word by word. -/
theorem siphash_eq_padded (message key : List UInt8) (outlen : ℕ) :
    siphash message key outlen =
      if outlen = 8 ∨ outlen = 16 then some (sipOutput (sipAbsorb message key outlen) outlen)
      else none := by
  have hlen : (message.drop (8 * (message.length / 8))).length = message.length % 8 := by
    rw [List.length_drop]
    omega
  have hwords : sipWords (message.length / 8 + 1) (sipPad message)
      = sipWords (message.length / 8) message
        ++ [sipTail (message.drop (8 * (message.length / 8))) (message.length % 8)
          (UInt64.ofNat message.length <<< 56)] := by
    rw [sipWords_succ, sipPad, sipWords_append (by omega),
      List.drop_append_of_le_length (by omega),
      u8To64Le_padded hlen (Nat.mod_lt _ (by decide))]
  rw [siphash, sipLoop_eq, sipAbsorb, hwords, List.foldl_append]
  rfl

end Passgen
