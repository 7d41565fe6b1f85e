import Mathlib.Data.List.Basic
import Mathlib.Tactic.Common
import Passgen.Util.Chunks
import Passgen.Util.WellFormed

/-!
# Util/IllFormed — the first ill-formed sequence

    encodings of text ++ rest
                         └─ no encoding, and not the start of one that the input ends in

What the decoder rejects has a first sequence that is neither an encoding nor cut short by the end
of the input, behind a text that is determined (`FirstIllFormed.unique`).  A call with room for the
text and more meets it; a call without takes what it has room for, and does not.
-/

namespace Passgen

/-- The input starts with no encoding, and does not end inside of one. -/
structure IllFormed (rest : List UInt8) : Prop where
  whole : ∀ c, IsScalar c → ¬utf8Encode c <+: rest
  unfinished : ¬Partial rest

/-- The input is the encoding of `text`, and then something ill-formed. -/
def FirstIllFormed (input : List UInt8) (text : List ℕ) : Prop :=
  (∀ c ∈ text, IsScalar c) ∧ ∃ rest, input = utf8EncodeAll text ++ rest ∧ IllFormed rest

theorem utf8EncodeAll_cons (c : ℕ) (cs : List ℕ) :
    utf8EncodeAll (c :: cs) = utf8Encode c ++ utf8EncodeAll cs :=
  List.flatMap_cons

/-- **There is one such text.** -/
theorem FirstIllFormed.unique {input : List UInt8} {text text' : List ℕ}
    (h : FirstIllFormed input text) (h' : FirstIllFormed input text') : text = text' := by
  induction text generalizing input text' with
  | nil =>
    cases text' with
    | nil => rfl
    | cons d text' =>
      obtain ⟨-, rest, rfl, hrest⟩ := h
      obtain ⟨htext', rest', heq, -⟩ := h'
      rw [utf8EncodeAll_cons, List.append_assoc] at heq
      exact absurd ⟨_, heq.symm⟩ (hrest.whole d (htext' d List.mem_cons_self))
  | cons c text ih =>
    obtain ⟨htext, rest, rfl, hrest⟩ := h
    obtain ⟨htext', rest', heq, hrest'⟩ := h'
    have hc := htext c List.mem_cons_self
    rw [utf8EncodeAll_cons, List.append_assoc] at heq
    cases text' with
    | nil => exact absurd ⟨_, heq⟩ (hrest'.whole c hc)
    | cons d text' =>
      rw [utf8EncodeAll_cons, List.append_assoc] at heq
      have hd := htext' d List.mem_cons_self
      obtain ⟨rfl, htail⟩ := utf8Encode_append_inj hc.1 hd.1 heq
      rw [ih ⟨fun e he => htext e (List.mem_cons_of_mem _ he), rest, rfl, hrest⟩
        ⟨fun e he => htext' e (List.mem_cons_of_mem _ he), rest', htail, hrest'⟩]

/-- The encodings at the start of an input, as many as there are. -/
theorem exists_complete (input : List UInt8) :
    ∃ text rest, (∀ c ∈ text, IsScalar c) ∧ input = utf8EncodeAll text ++ rest ∧
      ∀ c, IsScalar c → ¬utf8Encode c <+: rest := by
  induction hlen : input.length using Nat.strong_induction_on generalizing input with
  | _ n ih =>
    by_cases hwhole : ∃ c, IsScalar c ∧ utf8Encode c <+: input
    · obtain ⟨c, hc, rest, rfl⟩ := hwhole
      have hpos := List.length_pos_iff.mpr (utf8Encode_ne_nil hc.1)
      rw [List.length_append] at hlen
      obtain ⟨text, rest', htext, rfl, hrest⟩ := ih rest.length (by omega) rest rfl
      refine ⟨c :: text, rest', List.forall_mem_cons.mpr ⟨hc, htext⟩, ?_, hrest⟩
      rw [utf8EncodeAll_cons, List.append_assoc]
    · exact ⟨[], input, List.forall_mem_nil _, rfl,
        fun c hc hstarts => hwhole ⟨c, hc, hstarts⟩⟩

/-! ## The loop -/

/-- **Encodings in front** are taken, as long as there is room. -/
theorem utf8DecodeLoop_encodeAll_append {room : ℕ} {text : List ℕ}
    (htext : ∀ c ∈ text, IsScalar c) (hroom : text.length ≤ room) (rest : List UInt8) :
    utf8DecodeLoop room utf8Accept 0 0 (utf8EncodeAll text ++ rest)
      = ((utf8DecodeLoop (room - text.length) utf8Accept 0 0 rest).1,
          withWidths text ++ (utf8DecodeLoop (room - text.length) utf8Accept 0 0 rest).2.1,
          (utf8DecodeLoop (room - text.length) utf8Accept 0 0 rest).2.2
            + (utf8EncodeAll text).length) := by
  induction text generalizing room with
  | nil => rfl
  | cons c text ih =>
    obtain ⟨hc, htext⟩ := List.forall_mem_cons.mp htext
    rw [List.length_cons] at hroom
    have hencode := @utf8DecodeLoop_encode room c (by omega) hc (utf8EncodeAll text ++ rest)
    rw [ReadsEncoding, ih htext (by omega)] at hencode
    rw [utf8EncodeAll_cons, List.append_assoc, hencode, List.length_cons,
      Nat.sub_sub, Nat.add_comm 1, List.length_append, Nat.add_assoc,
      Nat.add_comm (utf8Encode c).length]
    rfl

/-- **What is written was encoded**, whether or not there is a rejection behind it. -/
theorem utf8DecodeLoop_written {room state codep width : ℕ} {q input : List UInt8}
    (hs : Standing state codep q) :
    (∀ c ∈ (utf8DecodeLoop room state codep width input).2.1.map Prod.fst, IsScalar c) ∧
      utf8EncodeAll ((utf8DecodeLoop room state codep width input).2.1.map Prod.fst)
        <+: q ++ input := by
  induction input generalizing room state codep width q with
  | nil => exact ⟨List.forall_mem_nil _, List.nil_prefix⟩
  | cons byte input ih =>
    by_cases hroom : room = 0
    · rw [hroom, utf8DecodeLoop_zero]
      exact ⟨List.forall_mem_nil _, List.nil_prefix⟩
    rw [utf8DecodeLoop_cons _ _ hroom]
    by_cases hreject : (utf8DecodeByte state codep byte).1 = utf8Reject
    · rw [if_pos hreject]
      exact ⟨List.forall_mem_nil _, List.nil_prefix⟩
    rcases hs.step hreject with ⟨haccept, hscalar, hencode⟩ | hawaits
    · simp only [if_neg hreject, if_pos haccept]
      obtain ⟨hall, hstarts⟩ := @ih (room - 1) _ _ 0 _ .accept
      refine ⟨List.forall_mem_cons.mpr ⟨hscalar, hall⟩, ?_⟩
      rw [List.map_cons, utf8EncodeAll_cons, hencode, List.append_assoc]
      exact (List.prefix_append_right_inj q).mpr (List.cons_prefix_cons.mpr ⟨rfl, hstarts⟩)
    · simp only [if_neg hreject, if_neg hawaits.ne_accept]
      obtain ⟨hall, hstarts⟩ := @ih room _ _ (width + 1) _ (.awaits hawaits)
      exact ⟨hall, by rwa [List.append_cons]⟩

/-- Where nothing is written, more or less room makes no difference. -/
theorem utf8DecodeLoop_nothing {room room' state codep width : ℕ} {input : List UInt8}
    (hroom : room ≠ 0) (hroom' : room' ≠ 0)
    (h : (utf8DecodeLoop room state codep width input).2.1 = []) :
    utf8DecodeLoop room' state codep width input = utf8DecodeLoop room state codep width input := by
  induction input generalizing state codep width with
  | nil => rfl
  | cons byte input ih =>
    rw [utf8DecodeLoop_cons _ _ hroom] at h
    rw [utf8DecodeLoop_cons _ _ hroom, utf8DecodeLoop_cons _ _ hroom']
    by_cases hreject : (utf8DecodeByte state codep byte).1 = utf8Reject
    · rw [if_pos hreject, if_pos hreject]
    by_cases haccept : (utf8DecodeByte state codep byte).1 = utf8Accept
    · simp only [if_neg hreject, if_pos haccept] at h
      exact absurd h (List.cons_ne_nil _ _)
    · simp only [if_neg hreject, if_neg haccept] at h ⊢
      rw [ih h]

/-! ## Where it is met -/

section Met

variable {room outputLen : ℕ} {input rest : List UInt8} {text : List ℕ}

/-- Something ill-formed is rejected, whatever room there is for it. -/
theorem IllFormed.rejected (h : IllFormed rest) (hroom : room ≠ 0) :
    (utf8DecodeLoop room utf8Accept 0 0 rest).1 = false := by
  obtain ⟨hall, hstarts⟩ := @utf8DecodeLoop_written room _ _ 0 _ rest .accept
  rw [List.nil_append] at hstarts
  have hnothing : (utf8DecodeLoop room utf8Accept 0 0 rest).2.1 = [] := by
    cases hwritten : (utf8DecodeLoop room utf8Accept 0 0 rest).2.1 with
    | nil => rfl
    | cons c cs =>
      rw [hwritten, List.map_cons] at hall hstarts
      rw [utf8EncodeAll_cons] at hstarts
      have hc := hall c.1 List.mem_cons_self
      exact absurd ((List.prefix_append _ _).trans hstarts) (h.whole c.1 hc)
  by_contra hok
  rw [Bool.not_eq_false, ← utf8DecodeLoop_nothing hroom (Nat.succ_ne_zero rest.length) hnothing]
    at hok
  rw [← utf8DecodeLoop_nothing hroom (Nat.succ_ne_zero rest.length) hnothing] at hnothing
  obtain ⟨text, pend, -, hpend, hsplit, hwritten, -⟩ :=
    utf8DecodeLoop_sound .accept (Nat.le_succ _) hok
  obtain rfl : [] = text := by rwa [hnothing] at hwritten
  obtain rfl : rest = pend := hsplit
  exact h.unfinished hpend

/-- **What is rejected has a first ill-formed sequence**, within the room. -/
theorem exists_firstIllFormed (h : (utf8DecodeLoop room utf8Accept 0 0 input).1 = false) :
    ∃ text, FirstIllFormed input text ∧ text.length < room := by
  obtain ⟨text, rest, htext, rfl, hwhole⟩ := exists_complete input
  have hroom : text.length < room := by
    by_contra hle
    have htake : text.take room ++ text.drop room = text := List.take_append_drop room text
    rw [← htake, utf8EncodeAll_append, List.append_assoc,
      utf8DecodeLoop_encodeAll_append (fun c hc => htext c (List.mem_of_mem_take hc))
        (List.length_take_le _ _), List.length_take_of_le (Nat.le_of_not_lt hle), Nat.sub_self,
      utf8DecodeLoop_zero] at h
    exact absurd h (by simp)
  refine ⟨text, ⟨htext, rest, rfl, hwhole, fun hpend => ?_⟩, hroom⟩
  have hmore := utf8DecodeLoop_reject _ (utf8EncodeAll text ++ rest).length h
  rw [utf8DecodeLoop_complete htext hpend (Nat.le_add_left _ _)] at hmore
  exact absurd hmore (by simp)

/-- What is rejected with room for one codepoint is ill-formed from its start. -/
theorem illFormed_of_reject (h : (utf8DecodeLoop 1 utf8Accept 0 0 rest).1 = false) :
    IllFormed rest := by
  obtain ⟨text, ⟨-, rest', hsplit, hrest⟩, hlength⟩ := exists_firstIllFormed h
  obtain rfl := List.length_eq_zero_iff.mp (Nat.lt_one_iff.mp hlength)
  obtain rfl : rest = rest' := hsplit
  exact hrest

/-- **A call with room for more than the text** fails, and moves neither pointer. -/
theorem FirstIllFormed.utf8Decode_invalid (h : FirstIllFormed input text)
    (hroom : text.length < outputLen) :
    (utf8Decode outputLen input).ret = utf8InvalidChar ∧
      (utf8Decode outputLen input).advanced = 0 ∧ (utf8Decode outputLen input).consumed = 0 := by
  obtain ⟨htext, rest, rfl, hrest⟩ := h
  have hreject : (utf8DecodeLoop outputLen utf8Accept 0 0 (utf8EncodeAll text ++ rest)).1
      = false := by
    rw [utf8DecodeLoop_encodeAll_append htext hroom.le]
    exact hrest.rejected (Nat.sub_ne_zero_of_lt hroom)
  rw [utf8Decode]
  simp [hreject]

/-- **A call without** fills its output with the start of the text. -/
theorem FirstIllFormed.utf8Decode_more (h : FirstIllFormed input text)
    (hroom : outputLen ≤ text.length) :
    utf8Decode outputLen input
      = { ret := utf8OutputSize
          written := withWidths (text.take outputLen)
          advanced := outputLen
          consumed := (utf8EncodeAll (text.take outputLen)).length } ∧
      FirstIllFormed (input.drop (utf8EncodeAll (text.take outputLen)).length)
        (text.drop outputLen) := by
  obtain ⟨htext, rest, rfl, hrest⟩ := h
  have hne : rest ≠ [] := by
    rintro rfl
    exact hrest.unfinished partial_nil
  have hsplit : utf8EncodeAll text ++ rest
      = utf8EncodeAll (text.take outputLen) ++ (utf8EncodeAll (text.drop outputLen) ++ rest) := by
    rw [← List.append_assoc, utf8EncodeAll_take_drop]
  have hcount : (text.take outputLen).length = outputLen := List.length_take_of_le hroom
  have hleft : (utf8EncodeAll (text.take outputLen)).length
      ≠ (utf8EncodeAll text ++ rest).length := by
    have hpos := List.length_pos_iff.mpr hne
    rw [hsplit, List.length_append, List.length_append]
    omega
  constructor
  · rw [utf8Decode, hsplit, utf8DecodeLoop_encodeAll_append
      (fun c hc => htext c (List.mem_of_mem_take hc)) (List.length_take_le _ _), hcount,
      Nat.sub_self, utf8DecodeLoop_zero, ← hsplit]
    rw [List.length_append] at hleft
    simp [hleft, withWidths, hroom]
  · refine ⟨fun c hc => htext c (List.mem_of_mem_drop hc), rest, ?_, hrest⟩
    rw [hsplit, List.drop_left]

end Met

end Passgen
