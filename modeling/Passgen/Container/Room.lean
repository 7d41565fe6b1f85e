import Mathlib.Data.List.Basic
import Mathlib.Data.Nat.Log
import Mathlib.Tactic.Common
import Passgen.Container.Stack

/-!
# Container/Room — room in the binned stack

    len       1   2   3   4   5  …  32  33 …
    bin 0     1   2   4   4   8  …  32  32 …      at least

A count of elements is rounded up to a power of two; the next power is needed where the count is one
itself.  That is when a push resizes, and the room for one element more is there after it
(`reserve_spec`).  A pop resizes where the power before it is enough (`release_spec`).
-/

namespace Passgen

open Memory

variable {elementSize : ℕ}

/-! ## Powers of two -/

/-- **The bin count** is the least power of two that is enough. -/
theorem stackBinCount_eq (len : ℕ) : stackBinCount len = 2 ^ Nat.clog 2 len := by
  have hloop : ∀ d k, k + d = Nat.clog 2 len → binCountFrom len (2 ^ k) = 2 ^ Nat.clog 2 len := by
    intro d
    induction d with
    | zero =>
      rintro _ rfl
      have hle := Nat.le_pow_clog Nat.one_lt_two len
      rw [binCountFrom, if_neg (by omega)]
    | succ d ih =>
      intro k hk
      have hlt : 2 ^ k < len := (Nat.lt_clog_iff_pow_lt Nat.one_lt_two).mp (by omega)
      rw [binCountFrom, if_pos ⟨Nat.two_pow_pos k, hlt⟩, ← Nat.pow_succ, ih (k + 1) (by omega)]
  exact hloop _ 0 (Nat.zero_add _)

theorem le_stackBinCount (len : ℕ) : len ≤ stackBinCount len := by
  rw [stackBinCount_eq]
  exact Nat.le_pow_clog Nat.one_lt_two len

theorem stackBinCount_mono {m n : ℕ} (h : m ≤ n) : stackBinCount m ≤ stackBinCount n := by
  rw [stackBinCount_eq, stackBinCount_eq]
  exact Nat.pow_le_pow_right Nat.two_pos (Nat.clog_mono_right 2 h)

/-- Below the power there is room for one more. -/
theorem stackBinCount_succ_of_ne {n : ℕ} (h : stackBinCount n ≠ n) :
    stackBinCount (n + 1) = stackBinCount n := by
  rw [stackBinCount_eq] at h
  rw [stackBinCount_eq, stackBinCount_eq, (Nat.clog_eq_clog_succ_iff Nat.one_lt_two).mpr h]

/-- At the power, twice as much is enough. -/
theorem stackBinCount_succ_le {n : ℕ} (hpos : 0 < n) :
    stackBinCount (n + 1) ≤ 2 * stackBinCount n := by
  have hle := le_stackBinCount n
  rw [stackBinCount_eq] at hle
  rw [stackBinCount_eq, stackBinCount_eq, ← Nat.pow_succ']
  refine Nat.pow_le_pow_right Nat.two_pos (Nat.clog_le_of_le_pow ?_)
  rw [Nat.pow_succ]
  omega

theorem stackBinCount_pos (n : ℕ) : 0 < stackBinCount n := by
  rw [stackBinCount_eq]
  exact Nat.two_pow_pos _

theorem stackBinCount_one : stackBinCount 1 = 1 := by
  rw [stackBinCount_eq, Nat.clog_one_right, Nat.pow_zero]

theorem stackBinCount_binSize : stackBinCount 32 = 32 := by
  rw [stackBinCount_eq]
  exact congrArg _ (Nat.clog_pow 2 5 Nat.one_lt_two)

/-! ## Results -/

/-- Nothing goes wrong but an allocation, and that only if `R`; or `P` holds of the result. -/
def Delivers {α : Type} (R : Prop) (P : α → Prop) : Except Fault α → Prop
  | .ok a => P a
  | .error fault => fault = .allocation ∧ R

section Delivers

variable {α β : Type} {R R' : Prop} {P : α → Prop} {Q : β → Prop}

theorem Delivers.bind {x : Except Fault α} (hx : Delivers R P x) {f : α → Except Fault β}
    (hf : ∀ a, P a → Delivers R Q (f a)) : Delivers R Q (x >>= f) := by
  cases x with
  | ok a => exact hf a hx
  | error fault => exact hx

theorem Delivers.mono {x : Except Fault α} (hx : Delivers R P x) {Q : α → Prop}
    (h : ∀ a, P a → Q a) : Delivers R Q x := by
  cases x with
  | ok a => exact h a hx
  | error fault => exact hx

theorem Delivers.refused {x : Except Fault α} (hx : Delivers R P x) (h : R → R') :
    Delivers R' P x := by
  cases x with
  | ok a => exact hx
  | error fault => exact ⟨hx.1, h hx.2⟩

/-- **A loop**, one round after the other. -/
theorem Delivers.foldlM_range {I : ℕ → α → Prop} {f : α → ℕ → Except Fault α} {n : ℕ} {a : α}
    (hstep : ∀ k < n, ∀ a, I k a → Delivers R (I (k + 1)) (f a k)) (h : I 0 a) :
    Delivers R (I n) ((List.range n).foldlM f a) := by
  induction n with
  | zero => exact h
  | succ n ih =>
    rw [List.range_succ, List.foldlM_append]
    refine (ih fun k hk => hstep k (Nat.lt_succ_of_lt hk)).bind fun b hb => ?_
    rw [List.foldlM_cons]
    exact (hstep n (Nat.lt_succ_self n) b hb).bind fun _ hc => hc

theorem delivers_pure (a : α) : Delivers R (· = a) (pure a) := rfl

theorem delivers_access {x : Option α} {a : α} (hx : x = some a) :
    Delivers R (· = a) (access x) := by
  subst hx
  rfl

theorem delivers_calloc {count size : ℕ} (hR : ptrdiffMax < count * size → R) :
    Delivers R (fun b => b.size = count * size ∧ b.size ≤ ptrdiffMax) (calloc count size) := by
  rw [calloc]
  split
  · exact ⟨rfl, ‹_›⟩
  · exact ⟨rfl, hR (Nat.lt_of_not_le ‹_›)⟩

theorem delivers_realloc (junk : ℕ → UInt8) (block : Block UInt8) {size : ℕ}
    (hR : ptrdiffMax < size → R) :
    Delivers R (fun b => b = block.resize junk size ∧ size ≤ ptrdiffMax)
      (realloc junk block size) := by
  rw [realloc]
  split
  · exact ⟨rfl, ‹_›⟩
  · exact ⟨rfl, hR (Nat.lt_of_not_le ‹_›)⟩

end Delivers

/-! ## Bins -/

namespace Stack

variable {s s' : Stack elementSize} {i m n pos : ℕ} {b : Block UInt8} {R : Prop}

theorem lt_length_of_bin (h : s.bin i = some b) : i < s.data.length := by
  rw [bin] at h
  by_contra hge
  rw [List.getElem?_eq_none (Nat.le_of_not_lt hge)] at h
  exact absurd h (by simp)

/-- **One bin is replaced**, and the others stay. -/
theorem delivers_setBin (h : i < s.data.length) (block : Option (Block UInt8)) :
    Delivers R (fun s' => s'.len = s.len ∧ s'.data.length = s.data.length ∧ s'.bin i = block ∧
      ∀ j ≠ i, s'.bin j = s.bin j) (s.setBin i block) := by
  rw [setBin, if_pos h]
  refine ⟨rfl, List.length_set, ?_, fun j hj => ?_⟩
  · rw [bin, List.getElem?_set_self h, Option.join_some]
  · rw [bin, List.getElem?_set_ne hj.symm, bin]

/-- The elements a bin has room for when the stack has `n`. -/
def binRoom (n i : ℕ) : ℕ := if i = 0 then min 32 (stackBinCount n) else 32

theorem binRoom_of_le (h : 32 ≤ n) (i : ℕ) : binRoom n i = 32 := by
  have hle := le_stackBinCount n
  rw [binRoom]
  split <;> omega

theorem binRoom_mono (h : m ≤ n) (i : ℕ) : binRoom m i ≤ binRoom n i := by
  have hle := stackBinCount_mono h
  rw [binRoom, binRoom]
  split <;> omega

/-- Up to 32 elements, the first bin has the bin count. -/
theorem binRoom_zero (h : n ≤ 32) : binRoom n 0 = stackBinCount n :=
  (if_pos rfl).trans (Nat.min_eq_right ((stackBinCount_mono h).trans_eq stackBinCount_binSize))

/-- **Room for `n` elements**: in every bin they use, and for its pointer. -/
structure RoomFor (s : Stack elementSize) (n : ℕ) : Prop where
  bin : ∀ i, 32 * i < n →
    ∃ b, s.bin i = some b ∧ binRoom n i * elementSize ≤ b.size ∧ b.size ≤ ptrdiffMax
  pointers : ∀ i, 32 * i < n → stackBinCount (i + 1) ≤ s.data.length
  max : s.data.length * 8 ≤ ptrdiffMax

/-- The element at a position, as it lies in its bin. -/
def element (s : Stack elementSize) (pos : ℕ) : Option (Element elementSize) := do
  let block ← s.bin (pos / 32)
  block.load (pos % 32 * elementSize) elementSize

/-- Room for a position. -/
theorem RoomFor.item (h : s.RoomFor n) (hpos : pos < n) :
    ∃ b, s.bin (pos / 32) = some b ∧
      pos % 32 * elementSize + elementSize ≤ b.size ∧ b.size ≤ ptrdiffMax := by
  obtain ⟨b, hbin, hroom, hmax⟩ := h.bin (pos / 32) (by omega)
  have hitem : pos % 32 + 1 ≤ binRoom n (pos / 32) := by
    have hle := le_stackBinCount n
    rw [binRoom]
    split <;> omega
  have hle := Nat.mul_le_mul_right elementSize hitem
  rw [Nat.succ_mul] at hle
  exact ⟨b, hbin, hle.trans hroom, hmax⟩

/-- Room for what is kept. -/
theorem RoomFor.restrict (h : s.RoomFor n) (hlength : s'.data.length = s.data.length)
    (hkept : ∀ i, 32 * i < m → 32 * i < n ∧ binRoom m i ≤ binRoom n i ∧ s'.bin i = s.bin i) :
    s'.RoomFor m where
  bin i hi := by
    obtain ⟨hn, hroom, hbin⟩ := hkept i hi
    obtain ⟨b, hb, hsize, hmax⟩ := h.bin i hn
    exact ⟨b, hbin.trans hb, (Nat.mul_le_mul_right _ hroom).trans hsize, hmax⟩
  pointers i hi := hlength ▸ h.pointers i (hkept i hi).1
  max := hlength ▸ h.max

/-- The same room, with another block in one bin. -/
theorem RoomFor.replace (h : s.RoomFor n) (hlength : s'.data.length = s.data.length)
    (hbin : s'.bin i = some b) (hkept : ∀ j ≠ i, s'.bin j = s.bin j)
    (hroom : binRoom n i * elementSize ≤ b.size) (hmax : b.size ≤ ptrdiffMax) : s'.RoomFor n where
  bin j hj := by
    rcases eq_or_ne j i with rfl | hne
    · exact ⟨b, hbin, hroom, hmax⟩
    · rw [hkept j hne]
      exact h.bin j hj
  pointers j hj := hlength ▸ h.pointers j hj
  max := hlength ▸ h.max

/-! ## Elements -/

/-- Items of a bin do not overlap. -/
theorem disjoint_items (h : i ≠ m) :
    i * elementSize + elementSize ≤ m * elementSize ∨
      m * elementSize + elementSize ≤ i * elementSize := by
  rw [← Nat.succ_mul, ← Nat.succ_mul]
  exact h.lt_or_gt.imp (Nat.mul_le_mul_right _) (Nat.mul_le_mul_right _)

theorem RoomFor.pointer_eq (h : s.RoomFor n) (hpos : pos < n) :
    s.pointer (pos / 32) (pos % 32)
      = .ok ⟨pos / 32, pos % 32 * elementSize⟩ := by
  obtain ⟨b, hbin, hfits, hmax⟩ := h.item hpos
  have hlt : pos % 32 * elementSize < 2 ^ 64 := by
    rw [ptrdiffMax] at hmax
    omega
  rw [pointer, hbin, sizeT_of_lt hlt]
  rfl

theorem RoomFor.read_eq (h : s.RoomFor n) (hpos : pos < n) :
    ∃ x, s.element pos = some x ∧
      s.read ⟨pos / 32, pos % 32 * elementSize⟩ = .ok x := by
  obtain ⟨b, hbin, hfits, -⟩ := h.item hpos
  have hload := Block.load_of_le hfits
  refine ⟨Vector.ofFn fun k => b.cells (pos % 32 * elementSize + k), ?_, ?_⟩
  · rw [element, hbin]
    exact hload
  · rw [read, hbin]
    exact congrArg access hload

/-- **An element is written**, and the others stay. -/
theorem RoomFor.delivers_write (h : s.RoomFor n) (hpos : pos < n) (v : Element elementSize) :
    Delivers R (fun s' => s'.len = s.len ∧ s'.element pos = some v ∧
        (∀ i ≠ pos, s'.element i = s.element i) ∧ s'.RoomFor n)
      (s.write ⟨pos / 32, pos % 32 * elementSize⟩ v) := by
  obtain ⟨b, hbin, hfits, hmax⟩ := h.item hpos
  obtain ⟨c, hstore⟩ := Block.exists_store_of_le hfits v
  obtain ⟨-, hsize, -⟩ := Block.store_eq_some hstore
  refine (delivers_access hbin).bind ?_
  rintro _ rfl
  refine (delivers_access hstore).bind ?_
  rintro _ rfl
  refine (delivers_setBin (lt_length_of_bin hbin) _).mono ?_
  rintro s' ⟨hlen, hlength, hbin', hkept⟩
  refine ⟨hlen, ?_, fun i hi => ?_, ?_⟩
  · rw [element, hbin']
    exact Block.load_store hstore
  · rw [element, element]
    rcases eq_or_ne (i / 32) (pos / 32) with heq | hne
    · rw [heq, hbin', hbin]
      exact Block.load_store_of_disjoint hstore (disjoint_items (by omega))
    · rw [hkept _ hne]
  · obtain ⟨b', hb', hroom, -⟩ := h.bin (pos / 32) (by omega)
    obtain rfl := Option.some.inj (hbin.symm.trans hb')
    exact h.replace hlength hbin' hkept (hroom.trans_eq hsize.symm) (hsize.trans_le hmax)

/-! ## Resizing -/

/-- **The first bin is resized** for `m` elements, and those that are in both stay. -/
theorem RoomFor.delivers_resizeFirst (h : s.RoomFor n) (hn : 0 < n) (hm : m ≤ 32)
    (hsize : stackBinCount m ≤ 2 * binRoom n 0) (junk : ℕ → UInt8)
    (hR : ptrdiffMax < 32 * elementSize → R) :
    Delivers R (fun s' => s'.len = s.len ∧
        (∀ pos, pos < n → pos < m → s'.element pos = s.element pos) ∧ s'.RoomFor m)
      (s.resizeFirst junk (stackBinCount m)) := by
  obtain ⟨b, hbin, hroom, hmax⟩ := h.bin 0 hn
  have hlt : stackBinCount m * elementSize < 2 ^ 64 := by
    have hle := Nat.mul_le_mul_right elementSize hsize
    rw [Nat.mul_assoc] at hle
    rw [ptrdiffMax] at hmax
    omega
  refine (delivers_access hbin).bind ?_
  rintro _ rfl
  rw [sizeT_of_lt hlt]
  have hle : stackBinCount m * elementSize ≤ 32 * elementSize :=
    Nat.mul_le_mul_right _ ((stackBinCount_mono hm).trans_eq stackBinCount_binSize)
  refine (delivers_realloc junk _ fun h => hR (h.trans_le hle)).bind ?_
  rintro _ ⟨rfl, hsize'⟩
  refine (delivers_setBin (lt_length_of_bin hbin) _).mono ?_
  rintro s' ⟨hlen, hlength, hbin', hkept⟩
  refine ⟨hlen, fun pos hn hm' => ?_, fun i hi => ?_, fun i hi => ?_, hlength ▸ h.max⟩
  · have hzero : pos / 32 = 0 := by omega
    obtain ⟨b', hb', hfits, -⟩ := h.item hn
    rw [hzero] at hb'
    obtain rfl := Option.some.inj (hbin.symm.trans hb')
    have hitem : pos % 32 * elementSize + elementSize ≤ stackBinCount m * elementSize := by
      rw [← Nat.succ_mul]
      have hle := le_stackBinCount m
      exact Nat.mul_le_mul_right _ (by omega)
    rw [element, element, hzero, hbin', hbin]
    exact Block.load_resize junk hfits hitem
  · obtain rfl : i = 0 := by omega
    exact ⟨_, hbin', Nat.mul_le_mul_right _ (binRoom_zero hm).le, hsize'⟩
  · obtain rfl : i = 0 := by omega
    exact hlength ▸ h.pointers 0 hn

/-- More pointers. -/
theorem delivers_reallocPointers (data : List (Option (Block UInt8))) {count : ℕ}
    (hcount : count * 8 < 2 ^ 64) (hR : ptrdiffMax < count * 8 → R) :
    Delivers R (fun data' => data'.length = count ∧ data'.length * 8 ≤ ptrdiffMax ∧
        ∀ i, i < data.length → i < count → data'[i]? = data[i]?)
      (reallocPointers data (sizeT (count * 8))) := by
  rw [sizeT_of_lt hcount, reallocPointers, Nat.mul_div_cancel _ (by decide)]
  split
  · rename_i hle
    have hlength : (data.take count ++ .replicate (count - data.length) none).length = count := by
      rw [List.length_append, List.length_take, List.length_replicate]
      omega
    refine ⟨hlength, hlength.symm ▸ hle, fun i hi hc => ?_⟩
    rw [List.getElem?_append_left (by rw [List.length_take]; omega), List.getElem?_take_of_lt hc]
  · exact ⟨rfl, hR (Nat.lt_of_not_le ‹_›)⟩

/-! ## Growing and shrinking -/

/-- An allocation is too large: of 32 elements, or of the pointers for `n`. -/
def Refused (elementSize n : ℕ) : Prop := ptrdiffMax < 32 * elementSize ∨ ptrdiffMax < n

/-- What is left of the stack when it has got room for `n` elements. -/
def Kept (s : Stack elementSize) (n : ℕ) (s' : Stack elementSize) : Prop :=
  (∀ pos, pos < s.len → pos < n → s'.element pos = s.element pos) ∧ s'.RoomFor n

/-- The first element. -/
theorem reserve_empty (junk : ℕ → UInt8) (h : s.len = 0) :
    Delivers (Refused elementSize s.len) (s.Kept 1) (stackReserve junk s) := by
  rw [stackReserve, stackBin, h]
  dsimp only [stackBinSize]
  rw [if_pos (Nat.zero_div _), if_pos rfl]
  refine Delivers.bind (P := fun s' => s'.len = 0 ∧ s'.RoomFor 1) ?_ ?_
  · have hle : 4 * elementSize ≤ 32 * elementSize := Nat.mul_le_mul_right _ (by decide)
    refine (delivers_calloc fun hlarge => .inl (Nat.lt_of_lt_of_le hlarge hle)).bind ?_
    rintro b ⟨hsize, hmax⟩
    refine ⟨rfl, fun i hi => ?_, fun i hi => ?_, (by decide : 1 * 8 ≤ ptrdiffMax)⟩
    · obtain rfl : i = 0 := by omega
      refine ⟨b, rfl, ?_, hmax⟩
      rw [binRoom_zero (by omega), stackBinCount_one, hsize]
      exact Nat.mul_le_mul_right _ (by decide)
    · obtain rfl : i = 0 := by omega
      exact stackBinCount_one.le
  · rintro s' ⟨hlen, hroom⟩
    rw [hlen, if_neg (stackBinCount_pos 0).ne']
    exact ⟨fun pos hpos => absurd hpos (by omega), hroom⟩

/-- One more element in the first bin. -/
theorem reserve_first (junk : ℕ → UInt8) (h : s.RoomFor s.len) (hpos : 0 < s.len)
    (hlt : s.len < 32) :
    Delivers (Refused elementSize s.len) (s.Kept (s.len + 1)) (stackReserve junk s) := by
  rw [stackReserve, stackBin]
  dsimp only [stackBinSize]
  rw [if_pos (Nat.div_eq_of_lt hlt), if_neg hpos.ne']
  have hsize : stackBinCount (s.len + 1) ≤ 2 * binRoom s.len 0 := by
    rw [binRoom_zero hlt.le]
    exact stackBinCount_succ_le hpos
  refine (delivers_pure s).bind ?_
  rintro _ rfl
  split
  · exact (h.delivers_resizeFirst hpos hlt hsize junk .inl).mono fun _ hs' => hs'.2
  · rename_i hne
    refine ⟨fun _ _ _ => rfl, h.restrict rfl fun i hi => ⟨by omega, ?_, rfl⟩⟩
    obtain rfl : i = 0 := by omega
    rw [binRoom_zero hlt, binRoom_zero hlt.le, stackBinCount_succ_of_ne hne]

/-- A bin behind those that are full. -/
theorem RoomFor.kept_of_bin {s' : Stack elementSize} {b : Block UInt8} (h : s.RoomFor s.len)
    (hpos : 0 < s.len) (hmod : s.len % 32 = 0) (hkept : ∀ i < s.len / 32, s'.bin i = s.bin i)
    (hbin : s'.bin (s.len / 32) = some b) (hsize : 32 * elementSize ≤ b.size)
    (hmax : b.size ≤ ptrdiffMax) (hcount : stackBinCount (s.len / 32 + 1) ≤ s'.data.length)
    (hmax' : s'.data.length * 8 ≤ ptrdiffMax) : s.Kept (s.len + 1) s' := by
  refine ⟨fun pos hlt _ => ?_, fun i hi => ?_, fun i hi => ?_, hmax'⟩
  · rw [element, element, hkept _ (by omega)]
  · rw [binRoom_of_le (by omega)]
    rcases Nat.lt_or_eq_of_le (show i ≤ s.len / 32 by omega) with hlt | rfl
    · obtain ⟨b', hb', hroom, hmax'⟩ := h.bin i (by omega)
      rw [binRoom_of_le (by omega)] at hroom
      exact ⟨b', (hkept i hlt).trans hb', hroom, hmax'⟩
    · exact ⟨b, hbin, hsize, hmax⟩
  · exact (stackBinCount_mono (by omega)).trans hcount

/-- The first element of another bin. -/
theorem reserve_bin (junk : ℕ → UInt8) (h : s.RoomFor s.len) (hpos : 0 < s.len)
    (hmod : s.len % 32 = 0) :
    Delivers (Refused elementSize s.len) (s.Kept (s.len + 1)) (stackReserve junk s) := by
  rw [stackReserve, stackBin, stackBin]
  dsimp only [stackBinSize]
  rw [if_neg (by omega), if_pos (by omega)]
  have hused : stackBinCount (s.len / 32) ≤ s.data.length := by
    have hle := h.pointers (s.len / 32 - 1) (by omega)
    rwa [Nat.sub_add_cancel (by omega)] at hle
  have hcount := le_stackBinCount (s.len / 32)
  have hnext := le_stackBinCount (s.len / 32 + 1)
  refine Delivers.bind (P := fun s' => (∀ i < s.len / 32, s'.bin i = s.bin i) ∧
      stackBinCount (s.len / 32 + 1) ≤ s'.data.length ∧ s'.data.length * 8 ≤ ptrdiffMax) ?_ ?_
  · split
    · rename_i hne
      have heq : stackBinCount (s.len / 32) = s.len / 32 := by
        by_contra hless
        exact hne (stackBinCount_succ_of_ne hless).symm
      have hdouble := stackBinCount_succ_le (show 0 < s.len / 32 by omega)
      have hfits : stackBinCount (s.len / 32 + 1) * 8 < 2 ^ 64 := by
        have hmax := h.max
        rw [ptrdiffMax] at hmax
        omega
      refine (delivers_reallocPointers s.data hfits fun hlarge => .inr (by omega)).bind ?_
      rintro data ⟨hlength, hmax, hkept⟩
      refine ⟨fun i hi => congrArg Option.join (hkept i (by omega) (by omega)), hlength.ge, hmax⟩
    · rename_i heq
      exact ⟨fun _ _ => rfl, (not_not.mp heq) ▸ hused, h.max⟩
  · rintro s₁ ⟨hkept₁, hlength₁, hmax₁⟩
    refine (delivers_calloc .inl).bind ?_
    rintro b ⟨hsize, hmax⟩
    refine (delivers_setBin (hnext.trans hlength₁) _).mono ?_
    rintro s₂ ⟨-, hlength₂, hbin₂, hkept₂⟩
    have hkept : ∀ i < s.len / 32, s₂.bin i = s.bin i := fun i hi =>
      (hkept₂ i hi.ne).trans (hkept₁ i hi)
    exact h.kept_of_bin hpos hmod hkept hbin₂ hsize.ge hmax (hlength₂ ▸ hlength₁) (hlength₂ ▸ hmax₁)

/-- One more element of the last bin. -/
theorem reserve_last (junk : ℕ → UInt8) (h : s.RoomFor s.len) (hle : 32 ≤ s.len)
    (hmod : s.len % 32 ≠ 0) :
    Delivers (Refused elementSize s.len) (s.Kept (s.len + 1)) (stackReserve junk s) := by
  rw [stackReserve, stackBin, stackBin]
  dsimp only [stackBinSize]
  rw [if_neg (by omega), if_neg (by omega)]
  refine ⟨fun _ _ _ => rfl, h.restrict rfl fun i hi => ⟨by omega, ?_, rfl⟩⟩
  rw [binRoom_of_le (by omega), binRoom_of_le hle]

/-- **Room is made** for one more element. -/
theorem reserve_kept (junk : ℕ → UInt8) (h : s.RoomFor s.len) :
    Delivers (Refused elementSize s.len) (s.Kept (s.len + 1)) (stackReserve junk s) := by
  rcases Nat.eq_zero_or_pos s.len with hzero | hpos
  · have hkept := reserve_empty junk hzero
    rwa [← Nat.zero_add 1, ← hzero] at hkept
  rcases Nat.lt_or_ge s.len 32 with hlt | hle
  · exact reserve_first junk h hpos hlt
  by_cases hmod : s.len % 32 = 0
  · exact reserve_bin junk h hpos hmod
  · exact reserve_last junk h hle hmod

/-- **Room is given back**, with the last element. -/
theorem release_kept (junk : ℕ → UInt8) (h : s.RoomFor s.len) (hpos : 0 < s.len) :
    Delivers (Refused elementSize s.len) (s.Kept (s.len - 1)) (stackRelease junk s) := by
  have hless : ∀ i, 32 * i < s.len - 1 → 32 * i < s.len ∧
      binRoom (s.len - 1) i ≤ binRoom s.len i := fun i hi =>
    ⟨by omega, binRoom_mono (Nat.sub_le _ 1) i⟩
  rw [stackRelease, stackBin, stackBin]
  dsimp only [stackBinSize]
  split
  · rename_i hone
    obtain ⟨b, hbin, -⟩ := h.bin 0 hpos
    refine (delivers_access (List.getElem?_eq_getElem (lt_length_of_bin hbin))).bind ?_
    rintro _ -
    rw [hone]
    exact ⟨fun _ _ hlt => absurd hlt (by omega), fun i hi => absurd hi (by omega),
      fun i hi => absurd hi (by omega), Nat.zero_le _⟩
  split
  · rename_i hne hle
    split
    · have hsize : stackBinCount (s.len - 1) ≤ 2 * binRoom s.len 0 := by
        have hmono := stackBinCount_mono (Nat.sub_le s.len 1)
        rw [binRoom_zero hle]
        omega
      exact (h.delivers_resizeFirst hpos (by omega) hsize junk .inl).mono fun _ hs' => hs'.2
    · exact ⟨fun _ _ _ => rfl, h.restrict rfl fun i hi => ⟨(hless i hi).1, (hless i hi).2, rfl⟩⟩
  · split
    · obtain ⟨b, hbin, -⟩ := h.bin ((s.len - 1) / 32) (by omega)
      refine (delivers_setBin (lt_length_of_bin hbin) none).mono ?_
      rintro s' ⟨-, hlength, -, hkept⟩
      refine ⟨fun pos _ hlt => ?_, h.restrict hlength fun i hi =>
        ⟨(hless i hi).1, (hless i hi).2, hkept i (by omega)⟩⟩
      rw [element, element, hkept _ (by omega)]
    · exact ⟨fun _ _ _ => rfl, h.restrict rfl fun i hi => ⟨(hless i hi).1, (hless i hi).2, rfl⟩⟩

end Stack

end Passgen
