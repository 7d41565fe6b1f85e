import Mathlib.Data.List.Basic
import Mathlib.Tactic.Common

/-!
# Memory/Words — words in memory

    words   |   w₀    |   w₁    |   w₂    |
    bytes   |b b b b|b b b b|b b b b|
    first k └────── w₀ ──┴─ w₁ ─┘             k = width * 1 + 2

A word is stored as `width` bytes, in whatever order.  As many words have the same bytes only if
they are the same, and the first bytes of a sequence are its first words and a part of the next one
(`take_image_eq_iff`).
-/

namespace Memory

/-- How words are stored: as bytes, as many for each word, from which it can be read back. -/
structure Encoding (α β : Type*) where
  width : ℕ
  bytes : α → List β
  length_bytes (word : α) : (bytes word).length = width
  injective : Function.Injective bytes

namespace Encoding

variable {α β : Type*} (e : Encoding α β)

/-- The bytes of a sequence of words. -/
def image (words : List α) : List β := words.flatMap e.bytes

@[simp] theorem image_cons (word : α) (words : List α) :
    e.image (word :: words) = e.bytes word ++ e.image words := rfl

theorem image_append (l m : List α) : e.image (l ++ m) = e.image l ++ e.image m :=
  List.flatMap_append

theorem length_image (words : List α) : (e.image words).length = e.width * words.length := by
  induction words with
  | nil => rfl
  | cons word words ih =>
    rw [image_cons, List.length_append, e.length_bytes, ih, List.length_cons, Nat.mul_succ,
      Nat.add_comm]

/-- **As many words are the same if their bytes are.** -/
theorem image_inj {l m : List α} (hlength : l.length = m.length) :
    e.image l = e.image m ↔ l = m := by
  refine ⟨fun h => ?_, congrArg e.image⟩
  induction l generalizing m with
  | nil => exact (List.eq_nil_of_length_eq_zero hlength.symm).symm
  | cons a l ih =>
    obtain ⟨b, m, rfl⟩ := List.exists_cons_of_length_eq_add_one hlength.symm
    obtain ⟨hword, hrest⟩ := List.append_inj h ((e.length_bytes a).trans (e.length_bytes b).symm)
    rw [e.injective hword, ih (Nat.succ.inj hlength) hrest]

/-- **The first bytes** are those of the first words, and some of the next one. -/
theorem take_image {words : List α} {n k : ℕ} (hn : n < words.length) (hk : k ≤ e.width) :
    (e.image words).take (e.width * n + k) =
      e.image (words.take n) ++ (e.bytes words[n]).take k := by
  have hwords : words = words.take n ++ words[n] :: words.drop (n + 1) := by
    rw [List.getElem_cons_drop, List.take_append_drop]
  have hlength : e.width * n = (e.image (words.take n)).length := by
    rw [e.length_image, List.length_take_of_le (Nat.le_of_lt hn)]
  conv_lhs => rw [hwords, image_append, image_cons, hlength]
  rw [List.take_length_add_append, List.take_append_of_le_length (by rw [e.length_bytes]; exact hk)]

theorem take_image_mul {words : List α} {n : ℕ} (hn : n ≤ words.length) :
    (e.image words).take (e.width * n) = e.image (words.take n) := by
  have hlength : e.width * n = (e.image (words.take n)).length := by
    rw [e.length_image, List.length_take_of_le hn]
  conv_lhs => rw [← List.take_append_drop n words, image_append, hlength]
  exact List.take_left

/-- **Two sequences start with the same bytes** if they start with the same words, and the next ones
start with the same bytes. -/
theorem take_image_eq_iff {l m : List α} {n k : ℕ} (hl : n < l.length) (hm : n < m.length)
    (hk : k ≤ e.width) :
    (e.image l).take (e.width * n + k) = (e.image m).take (e.width * n + k) ↔
      l.take n = m.take n ∧ (e.bytes l[n]).take k = (e.bytes m[n]).take k := by
  have hlength : (l.take n).length = (m.take n).length := by
    rw [List.length_take_of_le (Nat.le_of_lt hl), List.length_take_of_le (Nat.le_of_lt hm)]
  rw [e.take_image hl hk, e.take_image hm hk, ← e.image_inj hlength]
  refine ⟨fun h => List.append_inj h ?_, fun h => by rw [h.1, h.2]⟩
  rw [e.length_image, e.length_image, hlength]

end Encoding

end Memory
