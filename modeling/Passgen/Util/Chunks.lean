import Mathlib.Data.List.Basic
import Mathlib.Tactic.Common
import Passgen.Util.Utf8

/-!
# Util/Chunks — decoding with less room than input

    input ─▸ n codepoints, OUTPUT_SIZE ─▸ n codepoints, OUTPUT_SIZE ─▸ … ─▸ the rest, SUCCESS

A caller with `n` slots calls `passgen_utf8_decode` again on what is left for as long as it is told
that the output was too small.  On the encoding of a sequence of scalar values a call takes the
first `n` of them and leaves the encoding of the others (`utf8DecodeCalls_more`), so the calls cut
the sequence, never an encoding (`utf8DecodeCalls_encodeAll`).
-/

namespace Passgen

/-- The calls of `passgen_utf8_decode` with `outputLen` slots each, every one on what the calls
before it left of the input, until a call does not ask for more room. -/
def utf8DecodeCalls (outputLen : ℕ) : ℕ → List UInt8 → List Utf8Decoded
  | 0, _ => []
  | fuel + 1, input =>
    let call := utf8Decode outputLen input
    if call.ret = utf8OutputSize then
      call :: utf8DecodeCalls outputLen fuel (input.drop call.consumed)
    else [call]

/-! ## Encodings cut between codepoints -/

theorem utf8EncodeAll_append (cs ds : List ℕ) :
    utf8EncodeAll (cs ++ ds) = utf8EncodeAll cs ++ utf8EncodeAll ds :=
  List.flatMap_append

theorem withWidths_append (cs ds : List ℕ) :
    withWidths (cs ++ ds) = withWidths cs ++ withWidths ds :=
  List.map_append

/-- The encoding of the first codepoints, and of those after them. -/
theorem utf8EncodeAll_take_drop (k : ℕ) (cs : List ℕ) :
    utf8EncodeAll (cs.take k) ++ utf8EncodeAll (cs.drop k) = utf8EncodeAll cs := by
  rw [← utf8EncodeAll_append, List.take_append_drop]

theorem drop_utf8EncodeAll (k : ℕ) (cs : List ℕ) :
    (utf8EncodeAll cs).drop (utf8EncodeAll (cs.take k)).length = utf8EncodeAll (cs.drop k) := by
  rw [← utf8EncodeAll_take_drop k cs, List.drop_left]

/-! ## The calls -/

section Calls

variable {n : ℕ} {cs : List ℕ} (hcs : ∀ c ∈ cs, IsScalar c)
include hcs

/-- A call that has the room takes all of it. -/
theorem utf8DecodeCalls_last (fuel : ℕ) (h : cs.length ≤ n) :
    utf8DecodeCalls n (fuel + 1) (utf8EncodeAll cs)
      = [{ ret := utf8Success, written := withWidths cs, advanced := cs.length
           consumed := (utf8EncodeAll cs).length }] := by
  rw [utf8DecodeCalls, utf8Decode_encodeAll n hcs, List.take_of_length_le h]
  simp

/-- **A call that has not** takes the first `n` codepoints, and leaves the input at the next. -/
theorem utf8DecodeCalls_more (fuel : ℕ) (h : n < cs.length) :
    utf8DecodeCalls n (fuel + 1) (utf8EncodeAll cs)
      = { ret := utf8OutputSize, written := withWidths (cs.take n), advanced := n
          consumed := (utf8EncodeAll (cs.take n)).length }
        :: utf8DecodeCalls n fuel (utf8EncodeAll (cs.drop n)) := by
  have hleft : (utf8EncodeAll (cs.take n)).length ≠ (utf8EncodeAll cs).length := by
    have hrest : (cs.drop n).length ≤ (utf8EncodeAll (cs.drop n)).length :=
      length_le_length_utf8EncodeAll fun c hc => hcs c (List.mem_of_mem_drop hc)
    rw [List.length_drop] at hrest
    rw [← utf8EncodeAll_take_drop n cs, List.length_append]
    omega
  rw [utf8DecodeCalls, utf8Decode_encodeAll n hcs, if_pos hleft, if_pos rfl, drop_utf8EncodeAll,
    List.length_take_of_le h.le]

end Calls

/-- **Decoding resumed** on the encoding of `cs`: every call but the last asks for more room, having
filled its `n` slots; the last succeeds; the pointer is between two encodings after each; and
together the calls wrote `cs` with its widths. -/
structure Resumes (n : ℕ) (cs : List ℕ) (calls : List Utf8Decoded) : Prop where
  rets : ∃ k, calls.map Utf8Decoded.ret = List.replicate k utf8OutputSize ++ [utf8Success]
  full : ∀ call ∈ calls.dropLast, call.written.length = n ∧ call.advanced = n
  boundary : ∀ done, done <+: calls →
    (done.map Utf8Decoded.consumed).sum
      = (utf8EncodeAll ((done.flatMap Utf8Decoded.written).map Prod.fst)).length
  written : calls.flatMap Utf8Decoded.written = withWidths cs

theorem map_fst_withWidths (cs : List ℕ) : (withWidths cs).map Prod.fst = cs := by
  simp [withWidths, Function.comp_def]

/-- The last call. -/
theorem Resumes.last {n : ℕ} {cs : List ℕ} :
    Resumes n cs [{ ret := utf8Success, written := withWidths cs, advanced := cs.length
                    consumed := (utf8EncodeAll cs).length }] where
  rets := ⟨0, rfl⟩
  full := by simp
  boundary done hdone := by
    rcases List.prefix_cons_iff.mp hdone with rfl | ⟨rest, rfl, hrest⟩
    · rfl
    · rw [List.prefix_nil.mp hrest]
      simp [map_fst_withWidths]
  written := by simp

/-- A call before the others. -/
theorem Resumes.more {n : ℕ} {cs : List ℕ} {calls : List Utf8Decoded} (h : n < cs.length)
    (hcalls : Resumes n (cs.drop n) calls) :
    Resumes n cs ({ ret := utf8OutputSize, written := withWidths (cs.take n), advanced := n
                    consumed := (utf8EncodeAll (cs.take n)).length } :: calls) where
  rets := by
    obtain ⟨k, hk⟩ := hcalls.rets
    exact ⟨k + 1, by rw [List.map_cons, hk, List.replicate_succ, List.cons_append]⟩
  full := by
    obtain ⟨k, hk⟩ := hcalls.rets
    have hne : calls ≠ [] := by
      rintro rfl
      exact absurd (congrArg List.length hk) (by simp)
    rw [List.dropLast_cons_of_ne_nil hne, List.forall_mem_cons]
    exact ⟨⟨by simp [withWidths, h.le], rfl⟩, hcalls.full⟩
  boundary done hdone := by
    rcases List.prefix_cons_iff.mp hdone with rfl | ⟨rest, rfl, hrest⟩
    · rfl
    · rw [List.map_cons, List.sum_cons, List.flatMap_cons, List.map_append, map_fst_withWidths,
        utf8EncodeAll_append, List.length_append, hcalls.boundary rest hrest]
  written := by
    rw [List.flatMap_cons, hcalls.written, ← withWidths_append, List.take_append_drop]

/-- **Decoding can be resumed at any capacity.** -/
theorem utf8DecodeCalls_encodeAll {n : ℕ} (hn : 1 ≤ n) {cs : List ℕ} (hcs : ∀ c ∈ cs, IsScalar c)
    {fuel : ℕ} (hfuel : (utf8EncodeAll cs).length < fuel) :
    Resumes n cs (utf8DecodeCalls n fuel (utf8EncodeAll cs)) := by
  have hcount : cs.length < fuel := (length_le_length_utf8EncodeAll hcs).trans_lt hfuel
  clear hfuel
  induction fuel generalizing cs with
  | zero => exact absurd hcount (Nat.not_lt_zero _)
  | succ fuel ih =>
    rcases Nat.lt_or_ge n cs.length with h | h
    · rw [utf8DecodeCalls_more hcs fuel h]
      refine .more h (ih (fun c hc => hcs c (List.mem_of_mem_drop hc)) ?_)
      rw [List.length_drop]
      omega
    · rw [utf8DecodeCalls_last hcs fuel h]
      exact .last

/-- Two slots for `aé€`: a second call for the last codepoint. -/
theorem utf8DecodeCalls_encodeAll_euro :
    Resumes 2 [0x61, 0xE9, 0x20AC]
      (utf8DecodeCalls 2 7 (utf8EncodeAll [0x61, 0xE9, 0x20AC])) :=
  utf8DecodeCalls_encodeAll (by decide) (by decide) (by decide)

end Passgen
