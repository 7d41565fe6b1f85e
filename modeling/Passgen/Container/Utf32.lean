import Mathlib.Data.List.GetD
import Passgen.Container.Insert
import Passgen.Memory.Words

/-!
# Container/Utf32 — keys of codepoints

    key      a    b    c    d    0
    bytes    aaaa bbbb cccc dddd 0000
    hashed   aaaa                            4 codepoints, and as many bytes

`utf32_len` counts codepoints, and `utf32_hash` hands that many *bytes* to the hash function: a key
of `n` codepoints is hashed by its first `n / 4` codepoints and `n % 4` bytes of the next one.  Two
keys of one length that agree there are hashed alike (`messages_iff`), and with a third one an
insertion never returns, whatever the hash function is (`insert_stuck`).
-/

namespace Passgen

open Memory Hashmap

/-- A UTF-32 key, up to a codepoint of zero and maybe past it. -/
structure Utf32Key where
  data : List UInt32
  terminated : 0 ∈ data

/-- `utf32_len`. -/
def utf32Len : List UInt32 → ℕ
  | [] => 0
  | codepoint :: rest => if codepoint = 0 then 0 else utf32Len rest + 1

/-- The number of codepoints of a key. -/
def Utf32Key.len (key : Utf32Key) : ℕ := utf32Len key.data

/-- How a codepoint is stored: four bytes. -/
structure ByteOrder extends Encoding UInt32 UInt8 where
  width_eq : width = 4

variable (order : ByteOrder)

/-- What `utf32_hash` hands to `passgen_siphash`: as many bytes as `utf32_len` says. -/
def utf32Message (key : Utf32Key) : List UInt8 := (order.image key.data).take key.len

/-- `utf32_equal`. -/
def utf32Equal (lhs rhs : Utf32Key) : Bool :=
  if rhs.len ≠ lhs.len then false
  else (order.image lhs.data).take (rhs.len * 4) == (order.image rhs.data).take (rhs.len * 4)

variable {order} {lhs rhs : Utf32Key}

/-! ## The codepoints of a key -/

/-- The codepoints before the zero. -/
def Utf32Key.codepoints (key : Utf32Key) : List UInt32 := key.data.take key.len

theorem utf32Len_lt {data : List UInt32} (h : 0 ∈ data) : utf32Len data < data.length := by
  induction data with
  | nil => exact absurd h List.not_mem_nil
  | cons codepoint rest ih =>
    rw [utf32Len]
    split
    · exact Nat.succ_pos _
    · rename_i hne
      have hrest : 0 ∈ rest := (List.mem_cons.mp h).resolve_left (Ne.symm hne)
      exact Nat.succ_lt_succ (ih hrest)

theorem Utf32Key.len_lt (key : Utf32Key) : key.len < key.data.length := utf32Len_lt key.terminated

theorem Utf32Key.length_codepoints (key : Utf32Key) : key.codepoints.length = key.len :=
  List.length_take_of_le key.len_lt.le

/-- **Keys are equal if their codepoints are.** -/
theorem utf32Equal_iff : utf32Equal order lhs rhs = true ↔ lhs.codepoints = rhs.codepoints := by
  have himage : ∀ key : Utf32Key,
      (order.image key.data).take (key.len * 4) = order.image key.codepoints := by
    intro key
    rw [Nat.mul_comm, ← order.width_eq, order.take_image_mul key.len_lt.le, Utf32Key.codepoints]
  rw [utf32Equal]
  split
  · rename_i hne
    refine ⟨nofun, fun h => absurd ?_ hne⟩
    rw [← rhs.length_codepoints, ← h, lhs.length_codepoints]
  · rename_i heq
    have hlen := not_not.mp heq
    have hlength : lhs.codepoints.length = rhs.codepoints.length := by
      rw [lhs.length_codepoints, rhs.length_codepoints, hlen]
    rw [beq_iff_eq, himage rhs, hlen, himage lhs, order.image_inj hlength]

theorem len_eq_of_codepoints (h : lhs.codepoints = rhs.codepoints) : lhs.len = rhs.len := by
  rw [← lhs.length_codepoints, h, rhs.length_codepoints]

/-! ## What is hashed -/

/-- The codepoints of a key that are hashed in full, and the bytes of the next one that are. -/
def Utf32Key.hashed (order : ByteOrder) (key : Utf32Key) : List UInt32 × List UInt8 :=
  (key.data.take (key.len / 4), (order.bytes (key.data.getD (key.len / 4) 0)).take (key.len % 4))

theorem length_message (key : Utf32Key) : (utf32Message order key).length = key.len := by
  refine List.length_take_of_le ?_
  rw [order.length_image, order.width_eq]
  exact key.len_lt.le.trans (Nat.le_mul_of_pos_left _ (by decide))

/-- A message depends on the codepoints only, not on what is past them. -/
theorem message_congr (h : lhs.codepoints = rhs.codepoints) :
    utf32Message order lhs = utf32Message order rhs := by
  have hmessage : ∀ key : Utf32Key,
      utf32Message order key = (order.image key.codepoints).take key.len := by
    intro key
    rw [Utf32Key.codepoints, ← order.take_image_mul key.len_lt.le, List.take_take, min_eq_left,
      utf32Message]
    exact Nat.le_mul_of_pos_left _ (by rw [order.width_eq]; decide)
  rw [hmessage, hmessage, h, len_eq_of_codepoints h]

/-- **Two messages are the same** if the lengths are and what is hashed is. -/
theorem message_eq_iff :
    utf32Message order lhs = utf32Message order rhs ↔
      lhs.len = rhs.len ∧ lhs.hashed order = rhs.hashed order := by
  have hindex : ∀ key : Utf32Key, key.len / 4 < key.data.length := fun key =>
    (Nat.div_le_self _ _).trans_lt key.len_lt
  have hsplit : ∀ key : Utf32Key, utf32Message order key =
      (order.image key.data).take (order.width * (key.len / 4) + key.len % 4) := by
    intro key
    rw [order.width_eq, Nat.div_add_mod, utf32Message]
  have hrest : ∀ key : Utf32Key, key.len % 4 ≤ order.width := by
    intro key
    rw [order.width_eq]
    exact (Nat.mod_lt _ (by decide)).le
  by_cases hlen : lhs.len = rhs.len
  · have hrhs : lhs.len / 4 < rhs.data.length := hlen ▸ hindex rhs
    rw [hsplit, hsplit, ← hlen, order.take_image_eq_iff (hindex lhs) hrhs
      (hrest lhs), Utf32Key.hashed, Utf32Key.hashed, ← hlen,
      Prod.mk.injEq, List.getD_eq_getElem _ _ (hindex lhs), List.getD_eq_getElem _ _ hrhs]
    exact (and_iff_right rfl).symm
  · refine iff_of_false (fun h => hlen ?_) fun h => hlen h.1
    have hlength : (utf32Message order lhs).length = lhs.len := length_message lhs
    rw [← hlength, h, length_message]

/-! ## Three keys of one message -/

/-- **Three keys with the same two hashes do not fit into any table**: where two of them are, the
insertion of the third one never returns. -/
theorem insert_eq_none_of_hash_eq {κ ν : Type*} {context : HashmapContext κ} {map : Hashmap κ ν}
    (h : map.Ok context) {a b : HashmapEntry κ ν} (ha : a ∈ map.entries) (hb : b ∈ map.entries)
    (hab : ¬context.equal a.key b.key) {key : κ} (habsent : map.Absent context key)
    (hhashA : context.hash a.key = context.hash key)
    (hhashB : context.hash b.key = context.hash key) (value : ν) (fuel : ℕ) :
    hashmapInsert context fuel map key value = none := by
  rw [Option.eq_none_iff_forall_ne_some]
  rintro ⟨map', result⟩ hrun
  obtain ⟨rfl, hok, -, hins⟩ := insert_absent fuel _ _ _ _ _ h habsent hrun
  obtain ⟨-, hperm⟩ | _ := hins
  -- an entry with the hashes of the key sits at one of the key's two positions
  have hat : ∀ e ∈ map'.entries, context.hash e.key = context.hash key →
      ∃ first, map'.slot (hashmapPosition context map' key first) = some e := by
    intro e hmem hhash
    obtain ⟨pos, hslot⟩ := mem_entries_iff.mp hmem
    obtain ⟨first, rfl⟩ := hok.placed pos e hslot
    exact ⟨first, by rwa [hashmapPosition, ← hhash]⟩
  have hold : ∀ e ∈ map.entries, e ∈ map'.entries := fun e hmem =>
    hperm.mem_iff.mpr (List.mem_cons_of_mem _ hmem)
  obtain ⟨p, hp⟩ := hat a (hold a ha) hhashA
  obtain ⟨q, hq⟩ := hat b (hold b hb) hhashB
  obtain ⟨r, hr⟩ := hat ⟨key, value⟩ (hperm.mem_iff.mpr List.mem_cons_self) rfl
  have hne : ∀ {e e' : HashmapEntry κ ν} {first first' : Bool}, ¬context.equal e.key e'.key →
      map'.slot (hashmapPosition context map' key first) = some e →
      map'.slot (hashmapPosition context map' key first') = some e' → first ≠ first' := by
    rintro e e' first first' hother he he' rfl
    obtain rfl := Option.some.inj (he.symm.trans he')
    exact hother (context.equivalence.refl _)
  have hpq := hne hab hp hq
  have hpr := hne (habsent a ha) hp hr
  have hqr := hne (habsent b hb) hq hr
  revert hpq hpr hqr
  cases p <;> cases q <;> cases r <;> simp

/-- `utf32_keys`, the keys of the hash function. -/
def utf32Keys (first : Bool) : String :=
  if first then "someverylongpass" else "myotherverylongk"

/-- `passgen_hashmap_context_utf32`, over `passgen_siphash` of a message and a key. -/
def utf32Context (order : ByteOrder) (siphash : List UInt8 → String → UInt64) :
    HashmapContext Utf32Key where
  hash key first := (siphash (utf32Message order key) (utf32Keys first)).toNat
  equal := utf32Equal order
  equivalence := by
    simp only [utf32Equal_iff]
    exact ⟨fun _ => rfl, Eq.symm, Eq.trans⟩
  hash_eq h first := by rw [message_congr (utf32Equal_iff.mp h)]

/-- The keys are equal, or what the hash function is handed tells them apart. -/
def Utf32Key.ToldApart (order : ByteOrder) (lhs rhs : Utf32Key) : Prop :=
  utf32Equal order lhs rhs = true ∨ lhs.len ≠ rhs.len ∨ lhs.hashed order ≠ rhs.hashed order

theorem message_eq_of_not_toldApart (h : ¬lhs.ToldApart order rhs) :
    utf32Message order lhs = utf32Message order rhs := by
  obtain ⟨-, h⟩ := not_or.mp h
  obtain ⟨hlen, hhashed⟩ := not_or.mp h
  exact message_eq_iff.mpr ⟨not_not.mp hlen, not_not.mp hhashed⟩

/-- **Different keys are hashed alike** when they have the same length `n` and agree in the first
`n / 4` codepoints and `n % 4` bytes of the next one, and only then; a hash value that keys hashed
apart share is a collision of the hash function.  Where two such keys are in a map, the insertion
of a third one never returns. -/
theorem messages_iff (order : ByteOrder) :
    (∀ lhs rhs : Utf32Key,
      (utf32Equal order lhs rhs = false → utf32Message order lhs ≠ utf32Message order rhs) ∧
          (utf32Equal order lhs rhs = true → utf32Message order lhs = utf32Message order rhs) ↔
        lhs.ToldApart order rhs) ∧
    ∀ (siphash : List UInt8 → String → UInt64) {ν : Type} (map : Hashmap Utf32Key ν)
      (a b : HashmapEntry Utf32Key ν) (key : Utf32Key), map.Ok (utf32Context order siphash) →
        a ∈ map.entries → b ∈ map.entries → utf32Equal order a.key b.key = false →
        map.Absent (utf32Context order siphash) key →
        ¬a.key.ToldApart order key → ¬b.key.ToldApart order key →
          ∀ fuel value, hashmapInsert (utf32Context order siphash) fuel map key value = none := by
  constructor
  · intro lhs rhs
    by_cases hequal : utf32Equal order lhs rhs = true
    · have hsame : utf32Message order lhs = utf32Message order rhs :=
        message_congr (utf32Equal_iff.mp hequal)
      exact iff_of_true ⟨fun h => absurd (hequal.symm.trans h) (by simp), fun _ => hsame⟩
        (.inl hequal)
    · have hiff : utf32Message order lhs ≠ utf32Message order rhs ↔
          lhs.len ≠ rhs.len ∨ lhs.hashed order ≠ rhs.hashed order := by
        rw [Ne, message_eq_iff, not_and_or]
      rw [Utf32Key.ToldApart, or_iff_right hequal, ← hiff]
      exact ⟨fun h => h.1 (by simpa using hequal), fun h => ⟨fun _ => h, (absurd · hequal)⟩⟩
  · intro siphash ν map a b key hok ha hb hab habsent hA hB fuel value
    have hhash : ∀ {other : Utf32Key}, ¬other.ToldApart order key →
        (utf32Context order siphash).hash other = (utf32Context order siphash).hash key := by
      intro other hother
      funext first
      simp only [utf32Context, message_eq_of_not_toldApart hother]
    exact insert_eq_none_of_hash_eq hok ha hb (by simpa [utf32Context] using hab) habsent (hhash hA)
      (hhash hB) value fuel

/-- The least significant byte first. -/
def leastFirst : ByteOrder where
  width := 4
  bytes word := [word.toUInt8, (word >>> 8).toUInt8, (word >>> 16).toUInt8, (word >>> 24).toUInt8]
  length_bytes _ := rfl
  injective := by
    intro a b h
    have ha := a.toNat_lt
    have hb := b.toNat_lt
    simp only [List.cons.injEq, and_true, ← UInt8.toNat_inj, UInt32.toNat_toUInt8,
      UInt32.toNat_shiftRight, UInt32.reduceToNat, Nat.reduceMod, Nat.shiftRight_eq_div_pow] at h
    exact UInt32.toNat_inj.mp (by omega)
  width_eq := rfl

/-- `abc` and one more codepoint. -/
def abcKey (codepoint : UInt32) : Utf32Key := ⟨[97, 98, 99, codepoint, 0], by simp⟩

/-- `abcd` and `abce` are different, and both are hashed as the bytes `a000`. -/
theorem not_messages_abcd :
    utf32Equal leastFirst (abcKey 100) (abcKey 101) = false ∧
      utf32Message leastFirst (abcKey 100) = utf32Message leastFirst (abcKey 101) := by
  decide

/-- The two values of SipHash for the bytes `a000`. -/
def sipA (_message : List UInt8) (key : String) : UInt64 :=
  if key = "someverylongpass" then 0x1e03fa35e9593908 else 0xffe21a98d87b30aa

/-- After `abcd` and `abce`, no insertion of `abcf` returns. -/
theorem insert_abcf :
    hashmapInsert (utf32Context leastFirst sipA) 9
      ⟨[some ⟨abcKey 101, 'e'⟩, some ⟨abcKey 100, 'd'⟩, none], 2⟩ (abcKey 102) 'f' = none := by
  have hnone : (hashmapInit : Hashmap Utf32Key Char).Absent (utf32Context leastFirst sipA)
      (abcKey 100) := by simp [Absent, hashmapInit, entries]
  have hd : (⟨[some ⟨abcKey 100, 'd'⟩, none, none], 1⟩ : Hashmap Utf32Key Char).Ok
      (utf32Context leastFirst sipA) :=
    (insert_absent 1 hashmapInit (abcKey 100) 'd' _ none (ok_table 0) hnone rfl).2.1
  have hother : ∀ {c c' : UInt32}, utf32Equal leastFirst (abcKey c) (abcKey c') = false →
      ¬(utf32Context leastFirst sipA).equal (abcKey c) (abcKey c') = true :=
    fun h h' => absurd (h.symm.trans h') (by simp)
  have he : (⟨[some ⟨abcKey 101, 'e'⟩, some ⟨abcKey 100, 'd'⟩, none], 2⟩ :
      Hashmap Utf32Key Char).Ok (utf32Context leastFirst sipA) := by
    refine (insert_absent 1 _ (abcKey 101) 'e' _ none hd ?_ rfl).2.1
    intro entry hmem
    obtain rfl := List.mem_singleton.mp hmem
    exact hother (by decide)
  have hlike : ∀ {c : UInt32}, utf32Equal leastFirst (abcKey c) (abcKey 102) = false →
      (abcKey c).len = (abcKey 102).len →
        (abcKey c).hashed leastFirst = (abcKey 102).hashed leastFirst →
        ¬(abcKey c).ToldApart leastFirst (abcKey 102) := by
    rintro c hequal hlen hhashed (h | h | h)
    · exact absurd (hequal.symm.trans h) (by simp)
    · exact h hlen
    · exact h hhashed
  refine (messages_iff leastFirst).2 sipA _ ⟨abcKey 101, 'e'⟩ ⟨abcKey 100, 'd'⟩ (abcKey 102) he
    (by simp [entries]) (by simp [entries]) (by decide) ?_
    (hlike (by decide) (by decide) (by decide)) (hlike (by decide) (by decide) (by decide)) 9 'f'
  intro entry hmem
  rcases List.mem_pair.mp hmem with rfl | rfl
  · exact hother (by decide)
  · exact hother (by decide)

end Passgen
