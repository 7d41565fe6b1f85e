import Mathlib.Data.List.Basic
import Mathlib.Data.List.TakeWhile
import Mathlib.Tactic.Common
import Passgen.Memory.Store
import Passgen.Pattern.Tree
import Passgen.Util.Chunks

/-!
# Util/Bulk — encoding a sequence into a buffer

    outPos            outLen - 4   outLen
      ▢▢▢▢▢▢▢▢ … ▢▢▢▢▢▢▢▢▢▢▪            ▪ the terminator, where there is room

`passgen_utf8_encode` goes on while four bytes are left, which it reads off `out_len - 4`.  With
four bytes at least that is so, and every encoding it stores fits; with fewer the difference wraps,
the guard always holds, and the encodings are stored whether they fit or not
(`respectsBuffer_iff`).
-/

namespace Passgen

/-- The output, with the positions the caller passes by reference. -/
structure Encoding where
  out : Memory.Store UInt8
  outPos : ℕ
  inPos : ℕ

/-- The loop of `passgen_utf8_encode`, over what is left of the input: what it returns from inside,
if it does. -/
def utf8EncodeLoop (outLen : ℕ) : List ℕ → Encoding → Option ℤ × Encoding
  | [], s => (none, s)
  | c :: input, s =>
    if s.outPos < sizeSub outLen 4 then
      match utf8EncodeCodepoint c with
      | none => (some utf8InvalidChar, s)
      | some bytes =>
        utf8EncodeLoop outLen input
          { out := s.out.setAll s.outPos bytes
            outPos := sizeT (s.outPos + bytes.length)
            inPos := sizeT (s.inPos + 1) }
    else (none, s)

/-- The zero byte behind what was encoded, if it is inside the buffer. -/
def Encoding.terminate (outLen : ℕ) (t : Encoding) : Encoding :=
  if t.outPos < outLen then { t with out := t.out.set t.outPos 0 } else t

/-- `passgen_utf8_encode`. -/
def utf8EncodeInto (outLen : ℕ) (input : List ℕ) (s : Encoding) : ℤ × Encoding :=
  match utf8EncodeLoop outLen (input.drop s.inPos) s with
  | (some ret, t) => (ret, t)
  | (none, t) =>
    (if t.inPos ≠ input.length then utf8OutputSize else utf8Success, t.terminate outLen)

/-- What the call leaves: no store behind the buffer, and between the old positions and the new ones
the encodings of the inputs between them. -/
structure RespectsBuffer (outLen : ℕ) (input : List ℕ) (s t : Encoding) : Prop where
  inside : ∀ i ∈ t.out.stores, i < outLen
  inPos : s.inPos ≤ t.inPos ∧ t.inPos ≤ input.length
  outPos : s.outPos ≤ t.outPos ∧ t.outPos ≤ outLen
  valid : ∀ c ∈ (input.drop s.inPos).take (t.inPos - s.inPos), utf8EncodeCodepoint c ≠ none
  encoded : (List.range' s.outPos (t.outPos - s.outPos)).map t.out.cells
    = utf8EncodeAll ((input.drop s.inPos).take (t.inPos - s.inPos))

/-- The inputs up to the first that has no encoding. -/
def encodable (input : List ℕ) : List ℕ := input.takeWhile (· ≤ 0x10FFFF)

theorem encodeAll_encodable {c : ℕ} {bytes : List UInt8} {input : List ℕ}
    (hbytes : utf8EncodeCodepoint c = some bytes) :
    utf8EncodeAll (encodable (c :: input)) = bytes ++ utf8EncodeAll (encodable input) := by
  have hc : c ≤ 0x10FFFF := by
    by_contra hlong
    rw [utf8EncodeCodepoint_eq_none_iff.mpr (Nat.lt_of_not_le hlong)] at hbytes
    exact absurd hbytes (by simp)
  obtain rfl := Option.some.inj ((utf8EncodeCodepoint_eq hc).symm.trans hbytes)
  rw [encodable, List.takeWhile_cons_of_pos (by simpa using hc), utf8EncodeAll, List.flatMap_cons]
  rfl

/-- Four bytes, or room for all encodings that could be stored. -/
def HasRoom (outLen outPos : ℕ) (input : List ℕ) : Prop :=
  4 ≤ outLen ∨ outPos + (utf8EncodeAll (encodable input)).length ≤ outLen

/-! ## With room -/

/-- The encodings of some of the inputs are stored one behind the other, inside the buffer. -/
def Stored (outLen : ℕ) (input : List ℕ) (s t : Encoding) : Prop :=
  ∃ done, done <+: input ∧ (∀ c ∈ done, utf8EncodeCodepoint c ≠ none) ∧
    s.outPos + (utf8EncodeAll done).length ≤ outLen ∧
    t = { out := s.out.setAll s.outPos (utf8EncodeAll done)
          outPos := s.outPos + (utf8EncodeAll done).length
          inPos := s.inPos + done.length }

section Room

variable {outLen : ℕ} {input : List ℕ} {s t : Encoding}

theorem stored_stop (input : List ℕ) (hpos : s.outPos ≤ outLen) : Stored outLen input s s :=
  ⟨[], List.nil_prefix, by simp, hpos, rfl⟩

/-- One more encoding in front. -/
theorem Stored.cons {c : ℕ} {bytes : List UInt8} (hbytes : utf8EncodeCodepoint c = some bytes)
    (h : Stored outLen input
      ⟨s.out.setAll s.outPos bytes, s.outPos + bytes.length, s.inPos + 1⟩ t) :
    Stored outLen (c :: input) s t := by
  obtain ⟨done, hdone, hvalid, hle, rfl⟩ := h
  have hencode : utf8EncodeAll (c :: done) = bytes ++ utf8EncodeAll done := by
    rw [utf8EncodeAll, List.flatMap_cons, utf8Encode, hbytes, Option.getD_some, ← utf8EncodeAll]
  refine ⟨c :: done, List.cons_prefix_cons.mpr ⟨rfl, hdone⟩, ?_, ?_, ?_⟩
  · exact List.forall_mem_cons.mpr ⟨by rw [hbytes]; exact Option.some_ne_none _, hvalid⟩
  · rwa [hencode, List.length_append, ← Nat.add_assoc]
  · rw [hencode, List.length_append, ← Nat.add_assoc, Memory.Store.setAll_append, List.length_cons,
      Nat.add_assoc s.inPos, Nat.add_comm 1]

/-- Where the guard holds there is room for the next encoding, and then for the others. -/
theorem HasRoom.step {outPos c : ℕ} {bytes : List UInt8} (h : HasRoom outLen outPos (c :: input))
    (hlen : outLen < 2 ^ 64) (hbytes : utf8EncodeCodepoint c = some bytes)
    (hguard : outPos < sizeSub outLen 4) :
    outPos + bytes.length ≤ outLen ∧ HasRoom outLen (outPos + bytes.length) input := by
  rcases h with hfour | hfits
  · rw [sizeSub_of_le hlen hfour] at hguard
    have hlong := (length_utf8EncodeCodepoint hbytes).2
    exact ⟨by omega, .inl hfour⟩
  · rw [encodeAll_encodable hbytes, List.length_append, ← Nat.add_assoc] at hfits
    exact ⟨(Nat.le_add_right _ _).trans hfits, .inr hfits⟩

/-- **The loop with room.** -/
theorem stored_utf8EncodeLoop (hlen : outLen < 2 ^ 64) (hin : s.inPos + input.length < 2 ^ 64)
    (hpos : s.outPos ≤ outLen) (h : HasRoom outLen s.outPos input) :
    Stored outLen input s (utf8EncodeLoop outLen input s).2 := by
  induction input generalizing s with
  | nil => exact stored_stop [] hpos
  | cons c input ih =>
    rw [utf8EncodeLoop]
    split
    · rename_i hguard
      cases hbytes : utf8EncodeCodepoint c with
      | none => exact stored_stop _ hpos
      | some bytes =>
        obtain ⟨hfits, hroom⟩ := h.step hlen hbytes hguard
        rw [List.length_cons] at hin
        dsimp only
        rw [sizeT_of_lt (hfits.trans_lt hlen), sizeT_of_lt (by omega)]
        exact .cons hbytes (ih (by rw [Nat.add_assoc, Nat.add_comm 1]; exact hin) hfits hroom)
    · exact stored_stop _ hpos

/-- The cells stored to hold what was stored. -/
theorem map_cells_setAll (m : Memory.Store UInt8) (i : ℕ) (bytes : List UInt8) :
    (List.range' i bytes.length).map (m.setAll i bytes).cells = bytes := by
  refine List.ext_getElem? fun k => ?_
  rw [List.getElem?_map]
  cases hk : bytes[k]? with
  | none =>
    rw [List.getElem?_eq_none (by simpa using hk), Option.map_none]
  | some b =>
    rw [List.getElem?_range' (List.getElem?_eq_some_iff.mp hk).1, Option.map_some, Nat.one_mul,
      Memory.Store.cells_setAll_add m i hk]

/-- What is stored inside the buffer, from a log that is empty. -/
theorem Stored.respectsBuffer (h : Stored outLen (input.drop s.inPos) s t)
    (hin : s.inPos ≤ input.length) (hfresh : s.out.stores = []) :
    RespectsBuffer outLen input s t := by
  obtain ⟨done, hdone, hvalid, hfits, rfl⟩ := h
  have hcount := hdone.length_le
  rw [List.length_drop] at hcount
  have htake : (input.drop s.inPos).take (s.inPos + done.length - s.inPos) = done := by
    rw [Nat.add_sub_cancel_left]
    exact (List.prefix_iff_eq_take.mp hdone).symm
  refine ⟨fun i hi => ?_, ⟨Nat.le_add_right _ _, by dsimp only; omega⟩,
    ⟨Nat.le_add_right _ _, hfits⟩, ?_, ?_⟩
  · rw [Memory.Store.stores_setAll, hfresh, List.nil_append, List.mem_range'_1] at hi
    exact hi.2.trans_le hfits
  · rwa [htake]
  · rw [htake, Nat.add_sub_cancel_left, map_cells_setAll]

/-- The terminator is behind what was encoded. -/
theorem RespectsBuffer.terminate (h : RespectsBuffer outLen input s t) :
    RespectsBuffer outLen input s (t.terminate outLen) := by
  rw [Encoding.terminate]
  split
  · rename_i hroom
    refine ⟨fun i hi => ?_, h.inPos, h.outPos, h.valid, ?_⟩
    · rcases List.mem_append.mp hi with hi | hi
      · exact h.inside i hi
      · rwa [List.mem_singleton.mp hi]
    · rw [← h.encoded]
      refine List.map_congr_left fun i hi => Memory.Store.cells_set_of_ne _ ?_ _
      have hlow := h.outPos.1
      rw [List.mem_range'_1] at hi
      dsimp only at hi
      omega
  · exact h

theorem utf8EncodeInto_cases (outLen : ℕ) (input : List ℕ) (s : Encoding) :
    (utf8EncodeInto outLen input s).2 = (utf8EncodeLoop outLen (input.drop s.inPos) s).2 ∨
    (utf8EncodeInto outLen input s).2
      = (utf8EncodeLoop outLen (input.drop s.inPos) s).2.terminate outLen := by
  rw [utf8EncodeInto]
  split
  · rename_i heq
    exact .inl (by rw [heq])
  · rename_i heq
    exact .inr (by rw [heq])

/-- **With room the buffer is respected.** -/
theorem respectsBuffer_of_hasRoom (hlen : outLen < 2 ^ 64) (hinput : input.length < 2 ^ 64)
    (hin : s.inPos ≤ input.length) (hpos : s.outPos ≤ outLen) (hfresh : s.out.stores = [])
    (h : HasRoom outLen s.outPos (input.drop s.inPos)) :
    RespectsBuffer outLen input s (utf8EncodeInto outLen input s).2 := by
  have hrest : s.inPos + (input.drop s.inPos).length < 2 ^ 64 := by
    rwa [List.length_drop, Nat.add_sub_cancel' hin]
  have hloop := (stored_utf8EncodeLoop hlen hrest hpos h).respectsBuffer hin hfresh
  rcases utf8EncodeInto_cases outLen input s with heq | heq
  · rwa [heq]
  · rw [heq]
    exact hloop.terminate

end Room

/-! ## Without -/

section NoRoom

variable {outLen : ℕ} {input : List ℕ} {s : Encoding}

/-- Nothing is taken off the log. -/
theorem stores_subset_utf8EncodeLoop {i : ℕ} (h : i ∈ s.out.stores) :
    i ∈ (utf8EncodeLoop outLen input s).2.out.stores := by
  induction input generalizing s with
  | nil => exact h
  | cons c input ih =>
    rw [utf8EncodeLoop]
    split
    · cases utf8EncodeCodepoint c with
      | none => exact h
      | some bytes =>
        refine ih ?_
        rw [Memory.Store.stores_setAll]
        exact List.mem_append_left _ h
    · exact h

/-- **Fewer than four bytes**: the difference wraps, the guard always holds, and the loop stores
right behind the buffer. -/
theorem mem_stores_utf8EncodeLoop (hlen : outLen < 4) (hpos : s.outPos ≤ outLen)
    (hlong : outLen < s.outPos + (utf8EncodeAll (encodable input)).length) :
    outLen ∈ (utf8EncodeLoop outLen input s).2.out.stores := by
  have hwrap : sizeSub outLen 4 = outLen + (2 ^ 64 - 4) := by
    rw [sizeSub, Nat.add_sub_assoc (by decide), sizeT_of_lt (by omega)]
  induction input generalizing s with
  | nil => exact absurd hlong (Nat.not_lt_of_le hpos)
  | cons c input ih =>
    rw [utf8EncodeLoop, if_pos (by omega)]
    cases hbytes : utf8EncodeCodepoint c with
    | none =>
      have hc : ¬c ≤ 0x10FFFF := Nat.not_le_of_lt (utf8EncodeCodepoint_eq_none_iff.mp hbytes)
      rw [encodable, List.takeWhile_cons_of_neg (by simpa using hc)] at hlong
      exact absurd hlong (Nat.not_lt_of_le hpos)
    | some bytes =>
      rw [encodeAll_encodable hbytes, List.length_append, ← Nat.add_assoc] at hlong
      by_cases hfits : s.outPos + bytes.length ≤ outLen
      · dsimp only
        rw [sizeT_of_lt (by omega)]
        exact ih hfits hlong
      · refine stores_subset_utf8EncodeLoop ?_
        rw [Memory.Store.stores_setAll]
        exact List.mem_append_right _ (List.mem_range'_1.mpr ⟨hpos, by omega⟩)

theorem hasRoom_of_respectsBuffer (hpos : s.outPos ≤ outLen)
    (h : RespectsBuffer outLen input s (utf8EncodeInto outLen input s).2) :
    HasRoom outLen s.outPos (input.drop s.inPos) := by
  by_contra hroom
  obtain ⟨hshort, hlong⟩ := not_or.mp hroom
  have hmem := mem_stores_utf8EncodeLoop (by omega) hpos (Nat.lt_of_not_le hlong)
  rcases utf8EncodeInto_cases outLen input s with heq | heq
  · rw [heq] at h
    exact absurd (h.inside outLen hmem) (Nat.lt_irrefl _)
  · rw [heq, Encoding.terminate] at h
    split at h
    · exact absurd (h.inside outLen (List.mem_append_left _ hmem)) (Nat.lt_irrefl _)
    · exact absurd (h.inside outLen hmem) (Nat.lt_irrefl _)

end NoRoom

/-- **Bulk encoding respects its buffer exactly when it has room**: four bytes, or as many as the
encodings take that it could store. -/
theorem respectsBuffer_iff {outLen : ℕ} {input : List ℕ} {s : Encoding} (hlen : outLen < 2 ^ 64)
    (hinput : input.length < 2 ^ 64) (hin : s.inPos ≤ input.length) (hpos : s.outPos ≤ outLen)
    (hfresh : s.out.stores = []) :
    RespectsBuffer outLen input s (utf8EncodeInto outLen input s).2
      ↔ HasRoom outLen s.outPos (input.drop s.inPos) :=
  ⟨hasRoom_of_respectsBuffer hpos, respectsBuffer_of_hasRoom hlen hinput hin hpos hfresh⟩

/-- Five bytes, for `aé`. -/
theorem respectsBuffer_iff_accent :
    RespectsBuffer 5 [0x61, 0xE9] ⟨⟨fun _ => 0xFF, []⟩, 0, 0⟩
      (utf8EncodeInto 5 [0x61, 0xE9] ⟨⟨fun _ => 0xFF, []⟩, 0, 0⟩).2 ↔ HasRoom 5 0 [0x61, 0xE9] :=
  respectsBuffer_iff (by decide) (by decide) (by decide) (by decide) rfl

/-- **No room at all**: one letter is stored behind a buffer of no bytes. -/
theorem not_respectsBuffer_empty :
    ¬∀ (outLen : ℕ) (input : List ℕ) (s : Encoding), outLen < 2 ^ 64 → input.length < 2 ^ 64 →
      s.inPos ≤ input.length → s.outPos ≤ outLen → s.out.stores = [] →
        RespectsBuffer outLen input s (utf8EncodeInto outLen input s).2 := by
  intro h
  have hempty := h 0 [0x61] ⟨⟨fun _ => 0, []⟩, 0, 0⟩ (by decide) (by decide) (by decide) le_rfl rfl
  exact absurd (hempty.inside 0 (by decide)) (Nat.lt_irrefl 0)

end Passgen
